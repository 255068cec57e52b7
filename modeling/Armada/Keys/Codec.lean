import Armada.Ordered.Bytes

/-! The physical keys of the table store. A V2 key is a four byte header, a type
byte, the user key, a null separator and the sequence number, stored big-endian
with every bit inverted. On user keys without null bytes the encoding orders
versions by user key and, within one user key, newest first. -/

namespace Armada.Keys

open Ordered List

def keyHeaderLen : ℕ := 4

def unknownVersion : UInt8 := 0

def v1 : UInt8 := 1

def v2 : UInt8 := 2

def latestVersion : UInt8 := v2

def v2SeqLen : ℕ := 8

def v2SepLen : ℕ := 1

def v2MaxUserKeyLen : ℕ := 1024

def typeUnknown : UInt8 := 0

def typeUser : UInt8 := 1

def typeSystem : UInt8 := 2

inductive KeyError where
  | unknownKeyVersion | missingKeyHeader
  deriving DecidableEq

structure Key where
  version : UInt8
  keyType : UInt8
  key : Bytes
  seqno : UInt64

/-- The stored form of a sequence number. -/
def storedSeqno (s : UInt64) : Bytes := complement (bigEndian s)

def encodeV1 (keyType : UInt8) (key : Bytes) : Bytes := keyType :: key

def encodeV2 (keyType : UInt8) (key : Bytes) (seqno : UInt64) : Bytes :=
  keyType :: (key ++ 0x00 :: storedSeqno seqno)

/-- `Encoder.Encode`: a key without a version is written in the latest one. -/
def encode (k : Key) : Except KeyError Bytes :=
  let version := if k.version = unknownVersion then latestVersion else k.version
  let header := [version, 0, 0, 0]
  if version = v1 then .ok (header ++ encodeV1 k.keyType k.key)
  else if version = v2 then .ok (header ++ encodeV2 k.keyType k.key k.seqno)
  else .error .unknownKeyVersion

def v1DecodeRaw (raw : Bytes) : UInt8 × Bytes :=
  match raw with
  | t :: c :: rest => (t, c :: rest)
  | _ => (typeUnknown, [])

def v2DecodeRaw (raw : Bytes) : UInt8 × Bytes × UInt64 :=
  if raw.length < 1 + v2SepLen + v2SeqLen then (typeUnknown, [], 0)
  else
    let seqStart := raw.length - v2SeqLen
    (raw.headD 0, (raw.take (seqStart - v2SepLen)).drop 1, ofBigEndian (complement (raw.drop seqStart)))

/-- `DecodeBytes`. -/
def decodeBytes (raw : Bytes) : Except KeyError Key :=
  if raw.length < keyHeaderLen then .error .missingKeyHeader
  else if raw.headD 0 = v1 then
    let k := v1DecodeRaw (raw.drop keyHeaderLen)
    .ok ⟨v1, k.1, k.2, 0⟩
  else if raw.headD 0 = v2 then
    let k := v2DecodeRaw (raw.drop keyHeaderLen)
    .ok ⟨v2, k.1, k.2.1, k.2.2⟩
  else .error .unknownKeyVersion

inductive DecodeError where
  | missingKeyHeader | malformedKeyHeader | missingKeyType | unknownKeyVersion

def keyV1BodyLen : ℕ := 1024 - keyHeaderLen

def keyV2BodyLen : ℕ := 1 + v2MaxUserKeyLen + v2SepLen + v2SeqLen

/-- `keyV1.Decode`: what is read is limited, and the type is there. -/
def decodeV1 (r : Bytes) : Except DecodeError Key :=
  let bytes := r.take keyV1BodyLen
  if bytes.length < 1 then .error .missingKeyType else .ok ⟨v1, bytes.headD 0, bytes.drop 1, 0⟩

/-- `keyV2.Decode`: what is read is limited, and the parts but the user key are there. -/
def decodeV2 (r : Bytes) : Except DecodeError Key :=
  let raw := r.take keyV2BodyLen
  if raw.length < 1 + v2SepLen + v2SeqLen then .error .missingKeyType
  else
    let k := v2DecodeRaw raw
    .ok ⟨v2, k.1, k.2.1, k.2.2⟩

/-- `Decoder.Decode` of the bytes a reader delivers. -/
def decode (r : Bytes) : Except DecodeError Key :=
  if r.length < keyHeaderLen then .error .missingKeyHeader
  else
    let header := r.take keyHeaderLen
    if (header.drop 1).any (· ≠ 0) then .error .malformedKeyHeader
    else if header.headD 0 = v1 then decodeV1 (r.drop keyHeaderLen)
    else if header.headD 0 = v2 then decodeV2 (r.drop keyHeaderLen)
    else .error .unknownKeyVersion

/-- `DecodeV2Seqno`: zero for keys that are not V2 keys or too short. -/
def decodeV2Seqno (physicalKey : Bytes) : UInt64 :=
  if physicalKey.length ≤ v2SeqLen ∨ physicalKey.headD 0 ≠ v2 then 0
  else ofBigEndian (complement (physicalKey.drop (physicalKey.length - v2SeqLen)))

/-- The comparer's `split`: where the version suffix of a physical key starts. -/
def split (b : Bytes) : ℕ :=
  if b.length > v2SeqLen + v2SepLen + 5 ∧ b.headD 0 = v2 then b.length - v2SeqLen else b.length

/-- The prefix that all versions of one user key share. -/
def keyPrefix (b : Bytes) : Bytes := b.take (split b)

def userHeader : Bytes := [v2, 0, 0, 0, typeUser]

def encodeUserKey (key : Bytes) (seqno : UInt64) : Bytes :=
  userHeader ++ (key ++ 0x00 :: storedSeqno seqno)

/-- `mustEncodeKey` of a system key: these carry no sequence number. -/
def encodeSystemKey (key : Bytes) : Bytes :=
  [v2, 0, 0, 0, typeSystem] ++ (key ++ 0x00 :: storedSeqno 0)

theorem encode_user (key : Bytes) (seqno : UInt64) :
    encode ⟨unknownVersion, typeUser, key, seqno⟩ = .ok (encodeUserKey key seqno) := by
  simp [encode, latestVersion, v1, v2, unknownVersion, encodeUserKey, encodeV2, userHeader]

/-- The keys a table accepts. -/
structure Admitted (k : Bytes) : Prop where
  nonempty : k ≠ []
  noNull : (0 : UInt8) ∉ k
  length_le : k.length ≤ v2MaxUserKeyLen

instance (k : Bytes) : Decidable (Admitted k) :=
  decidable_of_iff (k ≠ [] ∧ (0 : UInt8) ∉ k ∧ k.length ≤ v2MaxUserKeyLen)
    ⟨fun h => ⟨h.1, h.2.1, h.2.2⟩, fun h => ⟨h.nonempty, h.noNull, h.length_le⟩⟩

@[simp] theorem storedSeqno_length (s : UInt64) : (storedSeqno s).length = 8 := by simp [storedSeqno]

theorem storedSeqno_lt_iff (s t : UInt64) : storedSeqno s < storedSeqno t ↔ t < s :=
  complement_bigEndian_lt_iff s t

variable {s t : UInt64} {a b : Bytes}

theorem storedSeqno_inj (h : storedSeqno s = storedSeqno t) : s = t := by
  have : bigEndian s = bigEndian t := by
    rw [← complement_complement (bigEndian s), ← complement_complement (bigEndian t)]
    exact congrArg complement h
  exact bigEndian_inj this

theorem encodeUserKey_inj (h : encodeUserKey a s = encodeUserKey b t) : a = b ∧ s = t := by
  have hc := append_cancel_left h
  have hab := append_inj' hc (by simp)
  have hs := (List.cons.inj hab.2).2
  exact ⟨hab.1, storedSeqno_inj hs⟩

@[simp] theorem encodeUserKey_eq_iff : encodeUserKey a s = encodeUserKey b t ↔ a = b ∧ s = t :=
  ⟨encodeUserKey_inj, fun h => by rw [h.1, h.2]⟩

theorem pos_of_noNull (ha : (0 : UInt8) ∉ a) : ∀ c ∈ a, (0 : UInt8) < c := by
  intro c hc
  rcases eq_or_lt_of_le (show (0 : UInt8) ≤ c by simp [UInt8.le_iff_toNat_le]) with h | h
  · exact absurd (h ▸ hc) ha
  · exact h

theorem encodeUserKey_lt_iff (ha : (0 : UInt8) ∉ a) (hb : (0 : UInt8) ∉ b) (s t : UInt64) :
    encodeUserKey a s < encodeUserKey b t ↔ a < b ∨ (a = b ∧ t < s) := by
  rw [encodeUserKey, encodeUserKey, append_lt_append_iff,
    separated_lt_iff (pos_of_noNull ha) (pos_of_noNull hb), storedSeqno_lt_iff]

theorem length_encodeUserKey (a : Bytes) (s : UInt64) : (encodeUserKey a s).length = a.length + 14 := by
  simp [encodeUserKey, userHeader]

theorem length_encodeV2 (t : UInt8) (a : Bytes) (s : UInt64) : (encodeV2 t a s).length = a.length + 10 := by
  simp [encodeV2]

theorem v2DecodeRaw_encodeV2 (t : UInt8) (a : Bytes) (s : UInt64) : v2DecodeRaw (encodeV2 t a s) = (t, a, s) := by
  have hlen := length_encodeV2 t a s
  have hk : ((encodeV2 t a s).take (a.length + 10 - 8 - 1)).drop 1 = a := by
    rw [show a.length + 10 - 8 - 1 = a.length + 1 by omega, encodeV2, take_succ_cons, drop_succ_cons, drop_zero,
      take_left]
  have hs : (encodeV2 t a s).drop (a.length + 10 - 8) = storedSeqno s := by
    rw [show a.length + 10 - 8 = (a ++ [(0 : UInt8)]).length + 1 by simp, encodeV2, drop_succ_cons,
      show a ++ 0x00 :: storedSeqno s = (a ++ [0]) ++ storedSeqno s by simp, drop_left]
  have hn : ¬ a.length + 10 < 1 + 1 + 8 := by omega
  simp only [v2DecodeRaw, hlen, v2SepLen, v2SeqLen, hk, hs, hn, if_false]
  rw [storedSeqno, complement_complement, ofBigEndian_bigEndian, encodeV2, headD_cons]

theorem drop_encodeUserKey (a : Bytes) (s : UInt64) :
    (encodeUserKey a s).drop keyHeaderLen = encodeV2 typeUser a s := rfl

/-- Decoding is a left inverse of encoding, whatever bytes the key holds. -/
theorem decodeBytes_encodeUserKey (a : Bytes) (s : UInt64) :
    decodeBytes (encodeUserKey a s) = .ok ⟨v2, typeUser, a, s⟩ := by
  have hl := length_encodeUserKey a s
  have hh : (encodeUserKey a s).headD 0 = v2 := rfl
  have hn : ¬ a.length + 14 < keyHeaderLen := by simp [keyHeaderLen]
  simp only [decodeBytes, hl, hn, if_false, hh, drop_encodeUserKey, v2DecodeRaw_encodeV2]
  simp [v1, v2]

theorem decode_encodeUserKey (ha : a.length ≤ v2MaxUserKeyLen) (s : UInt64) :
    decode (encodeUserKey a s) = .ok ⟨v2, typeUser, a, s⟩ := by
  have hl := length_encodeUserKey a s
  have hheader : (encodeUserKey a s).take keyHeaderLen = [v2, 0, 0, 0] := rfl
  have hlen := length_encodeV2 typeUser a s
  have hbody : (encodeV2 typeUser a s).take keyV2BodyLen = encodeV2 typeUser a s := by
    apply take_of_length_le
    rw [hlen]
    simp only [keyV2BodyLen, v2SepLen, v2SeqLen]
    omega
  have hn : ¬ a.length + 14 < keyHeaderLen := by simp [keyHeaderLen]
  have hn' : ¬ a.length + 10 < 1 + v2SepLen + v2SeqLen := by simp [v2SepLen, v2SeqLen]
  simp only [decode, hl, hn, if_false, hheader, drop_encodeUserKey, decodeV2, hbody, hlen, hn', v2DecodeRaw_encodeV2]
  rfl

theorem decodeV2Seqno_encodeUserKey (a : Bytes) (s : UInt64) : decodeV2Seqno (encodeUserKey a s) = s := by
  have hl := length_encodeUserKey a s
  have hh : (encodeUserKey a s).headD 0 = v2 := rfl
  have hs : (encodeUserKey a s).drop (a.length + 14 - 8) = storedSeqno s := by
    rw [show encodeUserKey a s = (userHeader ++ a ++ [0]) ++ storedSeqno s by simp [encodeUserKey],
      drop_left' (by simp [userHeader])]
  have hn : ¬ (a.length + 14 ≤ 8 ∨ v2 ≠ v2) := by simp
  simp only [decodeV2Seqno, hl, hh, v2SeqLen, hs, hn, if_false]
  rw [storedSeqno, complement_complement, ofBigEndian_bigEndian]

theorem keyPrefix_encodeUserKey (ha : a ≠ []) (s : UInt64) :
    keyPrefix (encodeUserKey a s) = userHeader ++ a ++ [0] := by
  have hl := length_encodeUserKey a s
  have hpos := length_pos_iff.mpr ha
  have hh : (encodeUserKey a s).headD 0 = v2 := rfl
  have hc : a.length + 14 > 8 + 1 + 5 ∧ v2 = v2 := ⟨by omega, rfl⟩
  simp only [keyPrefix, split, hl, hh, v2SeqLen, v2SepLen, hc]
  rw [show encodeUserKey a s = (userHeader ++ a ++ [0]) ++ storedSeqno s by simp [encodeUserKey],
    take_left' (by simp [userHeader])]

theorem keyPrefix_encodeUserKey_nil (s : UInt64) : keyPrefix (encodeUserKey [] s) = encodeUserKey [] s := by
  have hsplit : split (encodeUserKey [] s) = (encodeUserKey [] s).length := by
    rw [split, length_encodeUserKey]
    simp [v2SeqLen, v2SepLen]
  rw [keyPrefix, hsplit, take_length]

theorem keyPrefix_eq_iff (ha : a ≠ []) (hnull : (0 : UInt8) ∉ a) (s t : UInt64) :
    keyPrefix (encodeUserKey a s) = keyPrefix (encodeUserKey b t) ↔ a = b := by
  rw [keyPrefix_encodeUserKey ha]
  by_cases hb : b = []
  · rw [hb, keyPrefix_encodeUserKey_nil, encodeUserKey, append_assoc]
    refine iff_of_false (fun h => ?_) ha
    obtain ⟨c, rest, rfl⟩ := exists_cons_of_ne_nil ha
    have hcons := append_cancel_left h
    rw [cons_append, nil_append] at hcons
    exact hnull (by simp [(List.cons.inj hcons).1])
  · rw [keyPrefix_encodeUserKey hb]
    simp

theorem encodeUserKey_lt_system (a c : Bytes) (s t : UInt64) {e : Bytes}
    (h : encode ⟨unknownVersion, typeSystem, c, t⟩ = .ok e) : encodeUserKey a s < e := by
  have he : e = [v2, 0, 0, 0] ++ encodeV2 typeSystem c t := (Except.ok.inj h).symm
  have hu : encodeUserKey a s = [v2, 0, 0, 0] ++ encodeV2 typeUser a s := rfl
  rw [he, hu, append_lt_append_iff, encodeV2, encodeV2, cons_lt_cons_iff]
  exact Or.inl (by decide)

end Armada.Keys
