import Mathlib.Tactic
import Armada.Ordered.Bytes
import Armada.Program.Fallible

/-! The bytes of a log file. A record is cut into chunks that do not cross the end of a
block, each with a checksum, a length and a type; what is left of a block when no header
fits is zero. The reader goes from block to block and from chunk to chunk. -/

namespace Armada.Tan

open Program List
open Ordered (Bytes)

@[irreducible]
def blockSize : ℕ := 32 * 1024

theorem blockSize_eq : blockSize = 32 * 1024 := by rw [blockSize]

def legacyHeaderSize : ℕ := 7

def recyclableHeaderSize : ℕ := 11

/-- The checksum as the four bytes of a header. -/
structure Checksum where
  getCRC : Bytes → Bytes
  length : ∀ bs, (getCRC bs).length = 4

namespace XXHash

def prime1 : UInt64 := 11400714785074694791

def prime2 : UInt64 := 14029467366897019727

def prime3 : UInt64 := 1609587929392839161

def prime4 : UInt64 := 9650029242287828579

def prime5 : UInt64 := 2870177450012600261

def rol (x k : UInt64) : UInt64 := x <<< k ||| x >>> (64 - k)

/-- Little endian. -/
def word (bs : Bytes) : UInt64 := bs.foldr (fun b w => w * 256 + b.toUInt64) 0

def round (acc input : UInt64) : UInt64 := rol (acc + input * prime2) 31 * prime1

def mergeRound (acc val : UInt64) : UInt64 := (acc ^^^ round 0 val) * prime1 + prime4

/-- The four lanes after the whole stripes of 32 bytes, merged. -/
def lanes (bs : Bytes) : UInt64 :=
  let lane (i : ℕ) (v : UInt64) : UInt64 :=
    (List.range (bs.length / 32)).foldl (fun v k => round v (word ((bs.drop (32 * k + 8 * i)).take 8))) v
  let v1 := lane 0 (prime1 + prime2)
  let v2 := lane 1 prime2
  let v3 := lane 2 0
  let v4 := lane 3 (0 - prime1)
  mergeRound (mergeRound (mergeRound (mergeRound (rol v1 1 + rol v2 7 + rol v3 12 + rol v4 18) v1) v2) v3) v4

/-- The bytes after the last whole stripe: by eights, then one four, then one by one. -/
def rest : UInt64 → Bytes → UInt64
  | h, b0 :: b1 :: b2 :: b3 :: b4 :: b5 :: b6 :: b7 :: bs =>
    rest (rol (h ^^^ round 0 (word [b0, b1, b2, b3, b4, b5, b6, b7])) 27 * prime1 + prime4) bs
  | h, b0 :: b1 :: b2 :: b3 :: bs => rest (rol (h ^^^ word [b0, b1, b2, b3] * prime1) 23 * prime2 + prime3) bs
  | h, b :: bs => rest (rol (h ^^^ b.toUInt64 * prime5) 11 * prime1) bs
  | h, [] => h

def avalanche (h : UInt64) : UInt64 :=
  let h := (h ^^^ h >>> 33) * prime2
  let h := (h ^^^ h >>> 29) * prime3
  h ^^^ h >>> 32

def sum64 (bs : Bytes) : UInt64 :=
  let h := if bs.length < 32 then prime5 else lanes bs
  avalanche (rest (h + UInt64.ofNat bs.length) (bs.drop (bs.length / 32 * 32)))

example : sum64 [97] = 0xd24ec4f1a98c6e5b := by decide +kernel

end XXHash

/-- The low half of the hash, little endian. -/
def getCRC : Checksum where
  getCRC bs :=
    let crc := XXHash.sum64 bs
    [crc.toUInt8, (crc >>> 8).toUInt8, (crc >>> 16).toUInt8, (crc >>> 24).toUInt8]
  length _ := rfl

def zeros (n : ℕ) : Bytes := List.replicate n 0

/-! ### Writing -/

/-- The header and the payload of a chunk. -/
def chunk (sum : Checksum) (chunkType : UInt8) (payload : Bytes) : Bytes :=
  sum.getCRC (chunkType :: payload) ++
    UInt8.ofNat payload.length :: UInt8.ofNat (payload.length / 256) :: chunkType :: payload

def chunkType (first last : Bool) : UInt8 :=
  match first, last with
  | true, true => 1
  | true, false => 2
  | false, false => 3
  | false, true => 4

/-- What is left of a block for the payload of a chunk that starts at the offset. -/
def room (offset : ℕ) : ℕ := blockSize - offset % blockSize - legacyHeaderSize

/-- The zeros before a chunk whose header does not fit into the block. -/
def padding (offset : ℕ) : ℕ :=
  if blockSize - offset % blockSize < legacyHeaderSize then blockSize - offset % blockSize else 0

/-- The chunks of a record whose first header is at the offset. -/
def pieces (sum : Checksum) (offset : ℕ) (first : Bool) (data : Bytes) : List Bytes :=
  if data.length ≤ room offset then [chunk sum (chunkType first true) data]
  else chunk sum (chunkType first false) (data.take (room offset)) ::
    pieces sum (offset + legacyHeaderSize + room offset) false (data.drop (room offset))
termination_by (data.length, offset % blockSize)
decreasing_by
  rename_i h
  simp only [room, blockSize_eq, legacyHeaderSize, length_drop] at h ⊢
  by_cases hroom : 32 * 1024 - offset % (32 * 1024) - 7 = 0
  · rw [hroom]
    exact Prod.Lex.right _ (by omega)
  · exact Prod.Lex.left _ _ (by omega)

def writeRecord (sum : Checksum) (offset : ℕ) (data : Bytes) : Bytes :=
  zeros (padding offset) ++ (pieces sum (offset + padding offset) true data).flatten

/-- The records one after the other. -/
def writeAll (sum : Checksum) (offset : ℕ) : List Bytes → Bytes
  | [] => []
  | data :: rest =>
    writeRecord sum offset data ++ writeAll sum (offset + (writeRecord sum offset data).length) rest

/-- Each record with the offset it was written at. -/
def placed (sum : Checksum) (offset : ℕ) : List Bytes → List (ℕ × Bytes)
  | [] => []
  | data :: rest => (offset, data) :: placed sum (offset + (writeRecord sum offset data).length) rest

/-! ### Reading -/

inductive ReadError where
  | eof
  | unexpectedEOF
  | zeroedChunk
  | invalidChunk
  | crcMismatch
  deriving DecidableEq

def isInvalidRecord : ReadError → Bool
  | .zeroedChunk | .invalidChunk | .unexpectedEOF => true
  | .eof | .crcMismatch => false

structure Reader where
  /-- what the file has not given yet -/
  rest : Bytes
  logNum : Bytes
  blockNum : Option ℕ
  buf : Bytes
  start : ℕ
  stop : ℕ
  last : Bool

def newReader (file logNum : Bytes) : Reader := ⟨file, logNum, none, [], 0, 0, false⟩

namespace Reader

variable (r : Reader)

/-- What is left of the block. -/
def unread : Bytes := r.buf.drop r.stop

def payload : Bytes := (r.buf.take r.stop).drop r.start

def offset : ℕ :=
  match r.blockNum with
  | none => 0
  | some b => b * blockSize + r.stop

def nextBlock : ℕ := (r.blockNum.map (· + 1)).getD 0

def load : Reader :=
  { r with
    rest := r.rest.drop blockSize
    blockNum := some r.nextBlock
    buf := r.rest.take blockSize
    start := 0
    stop := 0 }

end Reader

def lengthField (v : Bytes) : ℕ := (v.getD 4 0).toNat + 256 * (v.getD 5 0).toNat

def typeField (v : Bytes) : ℕ := (v.getD 6 0).toNat

/-- The header's size and the type of the chunk; recycled files have the file's number in
the header. -/
def headerOf (logNum : Bytes) (wantFirst : Bool) (v : Bytes) : Except ReadError (ℕ × ℕ) :=
  if 5 ≤ typeField v ∧ typeField v ≤ 8 then
    if v.length < recyclableHeaderSize then .error .invalidChunk
    else if (v.drop legacyHeaderSize).take 4 ≠ logNum then .error (if wantFirst then .eof else .invalidChunk)
    else .ok (recyclableHeaderSize, typeField v - 4)
  else .ok (legacyHeaderSize, typeField v)

inductive Found where
  /-- zeros where no recyclable header fits -/
  | restOfBlock
  | chunk (headerSize length chunkType : ℕ)

/-- What the bytes say that are left of the block. -/
def parseChunk (sum : Checksum) (logNum : Bytes) (wantFirst : Bool) (v : Bytes) : Except ReadError Found :=
  if v.take 4 = zeros 4 ∧ lengthField v = 0 ∧ typeField v = 0 then
    if v.length < recyclableHeaderSize then .ok .restOfBlock else .error .zeroedChunk
  else do
    let (headerSize, chunkType) ← headerOf logNum wantFirst v
    if v.length < headerSize + lengthField v then .error .invalidChunk
    else if v.take 4 ≠ sum.getCRC ((v.take (headerSize + lengthField v)).drop 6) then .error .crcMismatch
    else .ok (.chunk headerSize (lengthField v) chunkType)

namespace Reader

/-- One round of the loop of `nextChunk`; the flag says whether the chunk was found. -/
def turn (sum : Checksum) (wantFirst : Bool) (r : Reader) : Except ReadError (Bool × Reader) :=
  if legacyHeaderSize ≤ r.unread.length then do
    match ← parseChunk sum r.logNum wantFirst r.unread with
    | .restOfBlock => .ok (false, { r with stop := r.buf.length })
    | .chunk headerSize length chunkType =>
      let r := { r with start := r.stop + headerSize, stop := r.stop + headerSize + length }
      if wantFirst ∧ chunkType ≠ 1 ∧ chunkType ≠ 2 then .ok (false, r)
      else .ok (true, { r with last := chunkType = 1 ∨ chunkType = 4 })
  else if r.buf.length < blockSize ∧ r.blockNum.isSome then
    .error (if wantFirst = false ∨ r.unread ≠ [] then .invalidChunk else .eof)
  else if r.rest = [] then .error (if wantFirst then .eof else .unexpectedEOF)
  else .ok (false, r.load)

/-- How much there is to do. -/
def left (r : Reader) : ℕ := 2 * r.rest.length + r.unread.length

variable {r r' : Reader} {w : Bool} {sum : Checksum} {e : ReadError} {data : Bytes}

theorem turn_left {b : Bool} (h : r.turn sum w = .ok (b, r')) : r'.left < r.left := by
  unfold turn at h
  split_ifs at h with hheader hpart hrest
  · obtain ⟨found, hfound, h⟩ := bind_eq_ok_iff.mp h
    have hlen : 7 ≤ r.buf.length - r.stop := by simpa [unread, legacyHeaderSize] using hheader
    cases found with
    | restOfBlock =>
      cases h
      simp only [left, unread, length_drop]
      omega
    | chunk headerSize length chunkType =>
      have hsize : 7 ≤ headerSize := by
        unfold parseChunk at hfound
        split_ifs at hfound
        · cases hfound
        · obtain ⟨⟨size, t⟩, hhead, hfound⟩ := bind_eq_ok_iff.mp hfound
          simp only at hfound
          split_ifs at hfound
          cases hfound
          unfold headerOf at hhead
          split_ifs at hhead
          · cases hhead
            decide
          · cases hhead
            decide
      simp only at h
      split_ifs at h
      · cases h
        simp only [left, unread, length_drop]
        omega
      · cases h
        simp only [left, unread, length_drop]
        omega
  · cases h
    have hpos := length_pos_of_ne_nil hrest
    simp only [left, load, unread, length_drop, length_take, blockSize_eq] at hpos ⊢
    omega

def nextChunk (sum : Checksum) (wantFirst : Bool) (r : Reader) : Except ReadError Reader :=
  match h : r.turn sum wantFirst with
  | .error e => .error e
  | .ok (true, r') => .ok r'
  | .ok (false, r') =>
    have := turn_left h
    nextChunk sum wantFirst r'
termination_by r.left

theorem nextChunk_error (h : r.turn sum w = .error e) : r.nextChunk sum w = .error e := by
  rw [nextChunk]
  split
  · next e' h' => rw [h] at h'; cases h'; rfl
  · next h' => rw [h] at h'; cases h'
  · next h' => rw [h] at h'; cases h'

theorem nextChunk_found (h : r.turn sum w = .ok (true, r')) : r.nextChunk sum w = .ok r' := by
  rw [nextChunk]
  split
  · next h' => rw [h] at h'; cases h'
  · next h' => rw [h] at h'; cases h'; rfl
  · next h' => rw [h] at h'; cases h'

theorem nextChunk_again (h : r.turn sum w = .ok (false, r')) : r.nextChunk sum w = r'.nextChunk sum w := by
  rw [nextChunk]
  split
  · next h' => rw [h] at h'; cases h'
  · next h' => rw [h] at h'; cases h'
  · next h' => rw [h] at h'; cases h'; rfl

theorem nextChunk_left (h : r.nextChunk sum w = .ok r') : r'.left < r.left := by
  induction hk : r.left using Nat.strong_induction_on generalizing r with
  | _ k ih =>
    cases hturn : r.turn sum w with
    | error e =>
      rw [nextChunk_error hturn] at h
      cases h
    | ok found =>
      obtain ⟨b, r1⟩ := found
      have hless := turn_left hturn
      cases b with
      | true =>
        rw [nextChunk_found hturn] at h
        cases h
        omega
      | false =>
        rw [nextChunk_again hturn] at h
        have := ih _ (hk ▸ hless) h rfl
        omega

/-- The record that starts with the next chunk, up to its last chunk. -/
def readRecord (sum : Checksum) (wantFirst : Bool) (r : Reader) : Except ReadError (Bytes × Reader) :=
  match h : r.nextChunk sum wantFirst with
  | .error e => .error e
  | .ok r' =>
    if r'.last then .ok (r'.payload, r')
    else
      have := nextChunk_left h
      match readRecord sum false r' with
      | .error e => .error e
      | .ok (data, r'') => .ok (r'.payload ++ data, r'')
termination_by r.left

theorem readRecord_error (h : r.nextChunk sum w = .error e) : r.readRecord sum w = .error e := by
  rw [readRecord]
  split
  · next h' => rw [h] at h'; cases h'; rfl
  · next h' => rw [h] at h'; cases h'

theorem readRecord_ok (h : r.nextChunk sum w = .ok r') : r.readRecord sum w = if r'.last then .ok (r'.payload, r')
    else (r'.readRecord sum false).map fun rec => (r'.payload ++ rec.1, rec.2) := by
  rw [readRecord]
  split
  · next h' => rw [h] at h'; cases h'
  · next h' =>
    rw [h] at h'
    cases h'
    congr 1
    cases r'.readRecord sum false <;> rfl

theorem readRecord_left (h : r.readRecord sum w = .ok (data, r')) : r'.left < r.left := by
  induction hk : r.left using Nat.strong_induction_on generalizing r data w with
  | _ k ih =>
    cases hnext : r.nextChunk sum w with
    | error e =>
      rw [readRecord_error hnext] at h
      cases h
    | ok r1 =>
      have hless := nextChunk_left hnext
      rw [readRecord_ok hnext] at h
      split_ifs at h
      · cases h
        omega
      · cases hrest : r1.readRecord sum false with
        | error e =>
          rw [hrest] at h
          cases h
        | ok rec =>
          rw [hrest] at h
          cases h
          have := ih _ (hk ▸ hless) hrest rfl
          omega

/-- Every record with its offset, and the error that ended the reading before the end. -/
def readLog (sum : Checksum) (r : Reader) : List (ℕ × Bytes) × Option ReadError :=
  match h : r.readRecord sum true with
  | .error e => ([], if e = .eof then none else some e)
  | .ok (data, r') =>
    have := readRecord_left h
    let (rest, e) := readLog sum r'
    ((r.offset, data) :: rest, e)
termination_by r.left

theorem readLog_error (h : r.readRecord sum true = .error e) :
    r.readLog sum = ([], if e = .eof then none else some e) := by
  rw [readLog]
  split
  · next h' => rw [h] at h'; cases h'; rfl
  · next h' => rw [h] at h'; cases h'

theorem readLog_ok (h : r.readRecord sum true = .ok (data, r')) :
    r.readLog sum = ((r.offset, data) :: (r'.readLog sum).1, (r'.readLog sum).2) := by
  rw [readLog]
  split
  · next h' => rw [h] at h'; cases h'
  · next h' => rw [h] at h'; cases h'; rfl

end Reader

/-! ### Where the reader stands -/

/-- The reader has the block of the offset and what comes after it. -/
structure At (file : Bytes) (offset : ℕ) (r : Reader) : Prop where
  offset : r.offset = offset
  rest : r.rest = file.drop (r.nextBlock * blockSize)
  fresh : r.blockNum = none → r.buf = [] ∧ r.stop = 0
  buf : ∀ b, r.blockNum = some b → r.buf = (file.drop (b * blockSize)).take blockSize
  stop : r.stop ≤ r.buf.length

section
variable {sum : Checksum} {w : Bool} {file logNum tail payload : Bytes} {p b n : ℕ} {r : Reader} {t : UInt8}

theorem at_newReader (file logNum : Bytes) : At file 0 (newReader file logNum) :=
  ⟨rfl, by simp [newReader, Reader.nextBlock], fun _ => ⟨rfl, rfl⟩, nofun, le_rfl⟩

theorem At.load (h : At file p r) : At file (r.nextBlock * blockSize) r.load := by
  refine ⟨rfl, ?_, nofun, fun b hb => ?_, Nat.zero_le _⟩
  · change r.rest.drop blockSize = file.drop ((r.nextBlock + 1) * blockSize)
    rw [h.rest, drop_drop, Nat.add_mul, Nat.one_mul]
  · cases hb
    exact congrArg (List.take blockSize) h.rest

theorem At.length_buf (h : At file p r) : r.buf.length ≤ blockSize := by
  cases hb : r.blockNum with
  | none => simp [(h.fresh hb).1]
  | some b =>
    rw [h.buf b hb]
    exact length_take_le _ _

theorem At.eq_block (h : At file p r) (hb : r.blockNum = some b) : p = b * blockSize + r.stop := by
  rw [← h.offset, Reader.offset, hb]

theorem At.unread (h : At file p r) (hb : r.blockNum = some b) :
    r.unread = (file.drop p).take (blockSize - r.stop) := by
  rw [Reader.unread, h.buf b hb, drop_take, drop_drop, ← h.eq_block hb]

theorem getD_zeros (n i : ℕ) : (zeros n).getD i 0 = 0 := by
  rw [zeros, getD_eq_getElem?_getD, List.getElem?_replicate]
  split_ifs <;> rfl

theorem take_zeros (n i : ℕ) : (zeros n).take i = zeros (min i n) := take_replicate

theorem drop_zeros (n i : ℕ) : (zeros n).drop i = zeros (n - i) := drop_replicate

theorem length_zeros (n : ℕ) : (zeros n).length = n := length_replicate

theorem length_writeRecord (sum : Checksum) (p : ℕ) (data : Bytes) : (writeRecord sum p data).length =
    padding p + (pieces sum (p + padding p) true data).flatten.length := by
  rw [writeRecord, length_append, length_zeros]

theorem lengthField_zeros (n : ℕ) : lengthField (zeros n) = 0 := by
  rw [lengthField, getD_zeros, getD_zeros]
  rfl

theorem typeField_zeros (n : ℕ) : typeField (zeros n) = 0 := congrArg UInt8.toNat (getD_zeros n 6)

theorem parseChunk_zeros (h : 7 ≤ n) : parseChunk sum logNum w (zeros n) =
    if n < recyclableHeaderSize then .ok .restOfBlock else .error .zeroedChunk := by
  have hcrc : (zeros n).take 4 = zeros 4 := by rw [take_zeros, min_eq_left (by omega)]
  rw [parseChunk, if_pos ⟨hcrc, lengthField_zeros n, typeField_zeros n⟩, length_zeros]

theorem At.unread_zeros (h : At file p r) (hzero : file.drop p = zeros n) : ∃ m, r.unread = zeros m := by
  cases hb : r.blockNum with
  | none => exact ⟨0, by simp [Reader.unread, (h.fresh hb).1, zeros]⟩
  | some b => exact ⟨_, by rw [h.unread hb, hzero, take_zeros]⟩

theorem drop_zeros_of_le {q : ℕ} (hzero : file.drop p = zeros n) (hle : p ≤ q) : file.drop q = zeros (n - (q - p)) := by
  rw [← drop_zeros, ← hzero, drop_drop, Nat.add_sub_cancel' hle]

theorem At.le_nextBlock (h : At file p r) : p ≤ r.nextBlock * blockSize := by
  rw [← h.offset, Reader.offset, Reader.nextBlock]
  cases hb : r.blockNum with
  | none => exact Nat.zero_le _
  | some b =>
    have hstop := h.stop.trans h.length_buf
    simp only [Option.map_some, Option.getD_some, Nat.add_mul, Nat.one_mul]
    omega

theorem At.skip {m : ℕ} (h : At file p r) (hm : r.unread.length = m) (hpos : 0 < m) :
    At file (r.offset + m) { r with stop := r.buf.length } := by
  have hstop := h.stop
  have hlen : r.buf.length - r.stop = m := by rwa [Reader.unread, length_drop] at hm
  refine ⟨?_, h.rest, fun hnone => ?_, h.buf, le_rfl⟩
  · obtain ⟨b, hb⟩ : ∃ b, r.blockNum = some b := by
      rw [← Option.ne_none_iff_exists']
      intro hnone
      simp [(h.fresh hnone).1] at hlen
      omega
    simp only [Reader.offset, hb]
    omega
  · simp [(h.fresh hnone).1] at hlen
    omega

theorem At.nextChunk_zeros (h : At file p r) (hzero : file.drop p = zeros n) :
    ∃ e, r.nextChunk sum w = .error e ∧ (isInvalidRecord e ∨ w = true ∧ e = .eof) := by
  induction hk : r.left using Nat.strong_induction_on generalizing r p n with
  | _ k ih =>
    obtain ⟨m, hm⟩ := h.unread_zeros hzero
    have hlen : r.unread.length = m := by rw [hm, length_zeros]
    by_cases hheader : legacyHeaderSize ≤ m
    · have hparse : parseChunk sum r.logNum w (zeros m) = _ := parseChunk_zeros hheader
      by_cases hsmall : m < recyclableHeaderSize
      · have hturn : r.turn sum w = .ok (false, { r with stop := r.buf.length }) := by
          rw [Reader.turn, if_pos (hlen ▸ hheader), hm, hparse, if_pos hsmall]
          rfl
        have hat : At file (r.offset + m) { r with stop := r.buf.length } :=
          h.skip hlen (Nat.lt_of_lt_of_le (by decide) hheader)
        rw [Reader.nextChunk_again hturn]
        exact ih _ (hk ▸ Reader.turn_left hturn) hat (drop_zeros_of_le hzero (by rw [h.offset]; omega)) rfl
      · have hturn : r.turn sum w = .error .zeroedChunk := by
          rw [Reader.turn, if_pos (hlen ▸ hheader), hm, hparse, if_neg hsmall]
          rfl
        exact ⟨_, Reader.nextChunk_error hturn, .inl rfl⟩
    · have hno : ¬ legacyHeaderSize ≤ r.unread.length := hlen ▸ hheader
      by_cases hpart : r.buf.length < blockSize ∧ r.blockNum.isSome
      · refine ⟨_, Reader.nextChunk_error (by rw [Reader.turn, if_neg hno, if_pos hpart]), ?_⟩
        split_ifs with hw
        · exact .inl rfl
        · refine .inr ⟨?_, rfl⟩
          simpa using (not_or.mp hw).1
      · by_cases hrest : r.rest = []
        · refine ⟨_, Reader.nextChunk_error (by rw [Reader.turn, if_neg hno, if_neg hpart, if_pos hrest]), ?_⟩
          split_ifs with hw
          · exact .inr ⟨hw, rfl⟩
          · exact .inl rfl
        · have hturn : r.turn sum w = .ok (false, r.load) := by
            rw [Reader.turn, if_neg hno, if_neg hpart, if_neg hrest]
          rw [Reader.nextChunk_again hturn]
          exact ih _ (hk ▸ Reader.turn_left hturn) h.load (drop_zeros_of_le hzero h.le_nextBlock) rfl

/-! ### One chunk -/

theorem length_chunk (sum : Checksum) (t : UInt8) (payload : Bytes) :
    (chunk sum t payload).length = 7 + payload.length := by
  simp only [chunk, length_append, length_cons, sum.length]
  omega

theorem chunk_getD (t : UInt8) (payload tail : Bytes) (i : ℕ) : (chunk sum t payload ++ tail).getD (4 + i) 0 =
    ((UInt8.ofNat payload.length :: UInt8.ofNat (payload.length / 256) :: t :: payload) ++ tail).getD i 0 := by
  have hlen := sum.length (t :: payload)
  rw [chunk, append_assoc, getD_eq_getElem?_getD, List.getElem?_append_right (by omega), hlen,
    Nat.add_sub_cancel_left, getD_eq_getElem?_getD]

theorem lengthField_chunk (sum : Checksum) (t : UInt8) (payload tail : Bytes) (h : payload.length < 256 * 256) :
    lengthField (chunk sum t payload ++ tail) = payload.length := by
  rw [lengthField, chunk_getD t payload tail 0, chunk_getD t payload tail 1]
  simp only [cons_append, getD_cons_zero, getD_cons_succ, UInt8.toNat_ofNat']
  omega

theorem typeField_chunk (sum : Checksum) (t : UInt8) (payload tail : Bytes) :
    typeField (chunk sum t payload ++ tail) = t.toNat := by
  rw [typeField, chunk_getD t payload tail 2]
  rfl

theorem take_chunk (t : UInt8) (payload tail : Bytes) :
    (chunk sum t payload ++ tail).take 4 = sum.getCRC (t :: payload) := by
  rw [chunk, append_assoc, take_append_of_le_length (sum.length _).ge, take_of_length_le (sum.length _).le]

theorem drop_chunk (t : UInt8) (payload : Bytes) : (chunk sum t payload).drop 6 = t :: payload := by
  rw [chunk, drop_append, drop_of_length_le (by rw [sum.length]; omega), sum.length]
  rfl

theorem parseChunk_chunk (ht : 1 ≤ t.toNat ∧ t.toNat ≤ 4) (hlen : payload.length < 256 * 256) :
    parseChunk sum logNum w (chunk sum t payload ++ tail) = .ok (.chunk 7 payload.length t.toNat) := by
  have hlength := lengthField_chunk sum t payload tail hlen
  have htype := typeField_chunk sum t payload tail
  have hheader : headerOf logNum w (chunk sum t payload ++ tail) = .ok (legacyHeaderSize, t.toNat) := by
    rw [headerOf, htype, if_neg (by omega)]
  have htake : (chunk sum t payload ++ tail).take (7 + payload.length) = chunk sum t payload := by
    rw [take_append_of_le_length (length_chunk ..).ge, take_of_length_le (length_chunk ..).le]
  have hfits : ¬ (chunk sum t payload ++ tail).length < legacyHeaderSize + payload.length := by
    rw [length_append, length_chunk, legacyHeaderSize]
    omega
  rw [parseChunk, if_neg (by rw [htype]; omega), hheader, ok_bind, hlength]
  dsimp only
  rw [if_neg hfits, legacyHeaderSize, htake, drop_chunk, take_chunk, if_neg (not_not.mpr rfl)]

theorem At.seek (h : At file p r) (hlen : p + padding p < file.length) :
    ∃ r' b, r.nextChunk sum w = r'.nextChunk sum w ∧ At file (p + padding p) r' ∧ r'.blockNum = some b ∧
    r'.stop + 7 ≤ blockSize := by
  have hsize := blockSize_eq
  have hstop := h.stop.trans h.length_buf
  -- once the block is used up the next one is loaded
  have hload (hno : ¬ legacyHeaderSize ≤ r.unread.length) (hfull : ¬ (r.buf.length < blockSize ∧ r.blockNum.isSome))
      (hnext : r.nextBlock * blockSize = p + padding p) :
      ∃ r' b, r.nextChunk sum w = r'.nextChunk sum w ∧ At file (p + padding p) r' ∧ r'.blockNum = some b ∧
        r'.stop + 7 ≤ blockSize := by
    have hrest : r.rest ≠ [] := by
      rw [h.rest, hnext]
      exact ne_nil_of_length_pos (by rw [length_drop]; omega)
    refine ⟨r.load, r.nextBlock, Reader.nextChunk_again ?_, hnext ▸ h.load, rfl, ?_⟩
    · rw [Reader.turn, if_neg hno, if_neg hfull, if_neg hrest]
    · change 0 + 7 ≤ blockSize
      omega
  cases hb : r.blockNum with
  | none =>
    have hzero : p = 0 := by rw [← h.offset, Reader.offset, hb]
    refine hload ?_ (by simp [hb]) ?_
    · simp [Reader.unread, (h.fresh hb).1, legacyHeaderSize]
    · simp [Reader.nextBlock, hb, hzero, padding, hsize, legacyHeaderSize]
  | some b =>
    have hp := h.eq_block hb
    by_cases hfits : r.stop + 7 ≤ blockSize
    · have hmod : p % blockSize = r.stop := by
        rw [hp, Nat.mul_comm, Nat.mul_add_mod, Nat.mod_eq_of_lt (by omega)]
      have hnone : padding p = 0 := by
        rw [padding, hmod, if_neg]
        simp only [legacyHeaderSize]
        omega
      refine ⟨r, b, rfl, ?_, hb, hfits⟩
      rw [hnone]
      exact h
    · have hnext : r.nextBlock * blockSize = p + padding p := by
        have hblock : r.nextBlock * blockSize = b * blockSize + blockSize := by
          simp [Reader.nextBlock, hb, Nat.add_mul]
        rw [hblock, padding]
        by_cases hend : r.stop = blockSize
        · have hmod : p % blockSize = 0 := by
            rw [hp, hend, Nat.add_mod_right, Nat.mul_mod_left]
          rw [hmod, if_neg (by rw [hsize]; decide)]
          omega
        · have hmod : p % blockSize = r.stop := by
            rw [hp, Nat.mul_comm, Nat.mul_add_mod, Nat.mod_eq_of_lt (by omega)]
          rw [hmod, if_pos (by simp only [legacyHeaderSize]; omega)]
          omega
      have hbuf : r.buf.length = blockSize := by
        have hblock : r.nextBlock * blockSize = b * blockSize + blockSize := by
          simp [Reader.nextBlock, hb, Nat.add_mul]
        rw [h.buf b hb, length_take, length_drop]
        omega
      refine hload ?_ (by omega) hnext
      rw [Reader.unread, length_drop]
      simp only [legacyHeaderSize]
      omega

theorem At.turn_chunk (h : At file p r) (hb : r.blockNum = some b)
    (ht : 1 ≤ t.toNat ∧ t.toNat ≤ 4) (hfirst : w = true → t.toNat = 1 ∨ t.toNat = 2)
    (hroom : r.stop + 7 + payload.length ≤ blockSize) (hfile : file.drop p = chunk sum t payload ++ tail) :
    r.unread = chunk sum t payload ++ tail.take (blockSize - r.stop - (7 + payload.length)) ∧
      r.turn sum w = .ok (true, { r with
        start := r.stop + 7
        stop := r.stop + 7 + payload.length
        last := t.toNat = 1 ∨ t.toNat = 4 }) := by
  have hsize := blockSize_eq
  have hchunk := length_chunk sum t payload
  have hunread : r.unread = chunk sum t payload ++ tail.take (blockSize - r.stop - (7 + payload.length)) := by
    rw [h.unread hb, hfile, take_append, take_of_length_le (by omega), hchunk]
  refine ⟨hunread, ?_⟩
  rw [Reader.turn, if_pos (by rw [hunread, length_append, hchunk, legacyHeaderSize]; omega), hunread,
    parseChunk_chunk ht (by omega), ok_bind]
  dsimp only
  rw [if_neg]
  rintro ⟨hw, hone, htwo⟩
  exact (hfirst hw).elim hone htwo

theorem At.nextChunk_chunk (h : At file p r) (hb : r.blockNum = some b)
    (ht : 1 ≤ t.toNat ∧ t.toNat ≤ 4) (hfirst : w = true → t.toNat = 1 ∨ t.toNat = 2)
    (hroom : r.stop + 7 + payload.length ≤ blockSize) (hfile : file.drop p = chunk sum t payload ++ tail) :
    ∃ r', r.nextChunk sum w = .ok r' ∧ At file (p + (7 + payload.length)) r' ∧ r'.payload = payload ∧
    r'.last = decide (t.toNat = 1 ∨ t.toNat = 4) := by
  have hchunk := length_chunk sum t payload
  obtain ⟨hunread, hturn⟩ := h.turn_chunk (w := w) hb ht hfirst hroom hfile
  have hbuf : r.stop + (7 + payload.length) ≤ r.buf.length := by
    have hlen := congrArg List.length hunread
    rw [Reader.unread, length_drop, length_append, hchunk] at hlen
    omega
  refine ⟨_, Reader.nextChunk_found hturn, ⟨?_, h.rest, fun hnone => ?_, h.buf, ?_⟩, ?_, rfl⟩
  · rw [h.eq_block hb]
    simp only [Reader.offset, hb]
    omega
  · rw [hb] at hnone
    cases hnone
  · change r.stop + 7 + payload.length ≤ r.buf.length
    omega
  · have hpayload : (chunk sum t payload).drop 7 = payload := by
      rw [← drop_drop (i := 1) (j := 6), drop_chunk]
      rfl
    change (r.buf.take (r.stop + 7 + payload.length)).drop (r.stop + 7) = payload
    rw [← drop_drop, drop_take, Nat.add_assoc, Nat.add_sub_cancel_left]
    change (r.unread.take (7 + payload.length)).drop 7 = payload
    rw [hunread, take_append_of_le_length hchunk.ge, take_of_length_le hchunk.le, hpayload]

theorem getD_append_zeros (bs : Bytes) (z i : ℕ) : (bs ++ zeros z).getD i 0 = bs.getD i 0 := by
  simp only [getD_eq_getElem?_getD, List.getElem?_append, zeros, List.getElem?_replicate]
  split_ifs with h1 h2
  · rfl
  · simp [List.getElem?_eq_none (not_lt.mp h1)]
  · simp [List.getElem?_eq_none (not_lt.mp h1)]

theorem getD_take {i : ℕ} (bs : Bytes) (h : i < n) : (bs.take n).getD i 0 = bs.getD i 0 := by
  simp only [getD_eq_getElem?_getD, List.getElem?_take_of_lt h]

theorem getD_take_or (bs : Bytes) (k i : ℕ) : (bs.take k).getD i 0 = bs.getD i 0 ∨ (bs.take k).getD i 0 = 0 := by
  by_cases hk : i < k
  · exact .inl (getD_take bs hk)
  · right
    rw [getD_eq_getElem?_getD, List.getElem?_eq_none (by rw [length_take]; omega)]
    rfl

theorem typeField_take (sum : Checksum) (t : UInt8) (payload : Bytes) (k : ℕ) :
    typeField ((chunk sum t payload).take k) = t.toNat ∨ typeField ((chunk sum t payload).take k) = 0 := by
  have htype := typeField_chunk sum t payload []
  rw [append_nil] at htype
  rw [← htype]
  exact (getD_take_or _ k 6).imp (congrArg UInt8.toNat) (congrArg UInt8.toNat)

theorem lengthField_take_le (sum : Checksum) (t : UInt8) (k : ℕ) (h : payload.length < 256 * 256) :
    lengthField ((chunk sum t payload).take k) ≤ payload.length := by
  have hlength := lengthField_chunk sum t payload [] h
  rw [append_nil] at hlength
  rw [← hlength, lengthField, lengthField]
  rcases getD_take_or (chunk sum t payload) k 4 with hlow | hlow <;>
    rcases getD_take_or (chunk sum t payload) k 5 with hhigh | hhigh <;> rw [hlow, hhigh] <;> simp

/-- A chunk that is cut, and that the zeros after it do not complete, is not read. -/
theorem At.nextChunk_torn {k z : ℕ} (h : At file p r) (hb : r.blockNum = some b)
    (ht : 1 ≤ t.toNat ∧ t.toNat ≤ 4) (hroom : r.stop + 7 + payload.length ≤ blockSize)
    (hk : k < 7 + payload.length) (hfile : file.drop p = (chunk sum t payload).take k ++ zeros z)
    (htorn : 0 < k → k + z < 7 + lengthField ((chunk sum t payload).take k)) :
    ∃ e, r.nextChunk sum w = .error e ∧ (isInvalidRecord e ∨ w = true ∧ e = .eof) := by
  obtain rfl | hpos := Nat.eq_zero_or_pos k
  · exact h.nextChunk_zeros (by rw [hfile, take_zero, nil_append])
  · refine ⟨.invalidChunk, Reader.nextChunk_error ?_, .inl rfl⟩
    have htorn := htorn hpos
    have hstop := h.stop
    have hunread := h.unread hb
    rw [hfile] at hunread
    have hlen : r.unread.length = min (blockSize - r.stop) (k + z) := by
      rw [hunread, length_take, length_append, length_take, length_chunk, length_zeros]
      omega
    have hbuf : r.unread.length = r.buf.length - r.stop := by rw [Reader.unread, length_drop]
    by_cases hheader : legacyHeaderSize ≤ r.unread.length
    · have hfield (i : ℕ) (hi : i < 7) : r.unread.getD i 0 = ((chunk sum t payload).take k).getD i 0 := by
        rw [hunread, getD_take _ (by omega), getD_append_zeros]
      have hlength : lengthField r.unread = lengthField ((chunk sum t payload).take k) := by
        rw [lengthField, lengthField, hfield 4 (by omega), hfield 5 (by omega)]
      have htype : typeField r.unread = t.toNat ∨ typeField r.unread = 0 := by
        rw [typeField, hfield 6 (by omega)]
        exact typeField_take sum t payload k
      have hhead : headerOf r.logNum w r.unread = .ok (legacyHeaderSize, typeField r.unread) := by
        rw [headerOf, if_neg (by omega)]
      have hseven : legacyHeaderSize = 7 := rfl
      rw [Reader.turn, if_pos hheader, parseChunk, if_neg (by omega), hhead, ok_bind]
      dsimp only
      rw [if_pos (by omega)]
      rfl
    · have hseven : legacyHeaderSize = 7 := rfl
      have hsome : r.unread ≠ [] := ne_nil_of_length_pos (by omega)
      rw [Reader.turn, if_neg hheader, if_pos ⟨by omega, by simp [hb]⟩, if_pos (.inr hsome)]

/-- A header that is not zero, the bytes it asks for, and another checksum than theirs. -/
def WrongSum (sum : Checksum) (v : Bytes) : Prop :=
  ¬(v.take 4 = zeros 4 ∧ lengthField v = 0 ∧ typeField v = 0) ∧ legacyHeaderSize + lengthField v ≤ v.length ∧
    v.take 4 ≠ sum.getCRC ((v.take (legacyHeaderSize + lengthField v)).drop 6)

theorem At.nextChunk_wrongSum (h : At file p r) (hb : r.blockNum = some b) (htype : typeField (file.drop p) ≤ 4)
    (hroom : r.stop + 7 + lengthField (file.drop p) ≤ blockSize) (hwrong : WrongSum sum (file.drop p)) :
    r.nextChunk sum w = .error .crcMismatch := by
  obtain ⟨hzero, hlong, hsum⟩ := hwrong
  have hunread := h.unread hb
  generalize file.drop p = v at *
  have hseven : legacyHeaderSize = 7 := rfl
  have hfield (i : ℕ) (hi : i < 7) : r.unread.getD i 0 = v.getD i 0 := by rw [hunread, getD_take _ (by omega)]
  have htake (i : ℕ) (hi : i ≤ 7 + lengthField v) : r.unread.take i = v.take i := by
    rw [hunread, take_take, min_eq_left (by omega)]
  have hlength : lengthField r.unread = lengthField v := by
    rw [lengthField, hfield 4 (by omega), hfield 5 (by omega), lengthField]
  have htypes : typeField r.unread = typeField v := congrArg UInt8.toNat (hfield 6 (by omega))
  have hlen : legacyHeaderSize + lengthField v ≤ r.unread.length := by
    rw [hunread, length_take]
    omega
  have hhead : headerOf r.logNum w r.unread = .ok (legacyHeaderSize, typeField v) := by
    rw [headerOf, htypes, if_neg (by omega)]
  refine Reader.nextChunk_error ?_
  rw [Reader.turn, if_pos (by omega), parseChunk, htake 4 (by omega), hlength, htypes, if_neg hzero, hhead, ok_bind]
  dsimp only
  rw [if_neg (by omega), htake _ (by omega), if_pos hsum]
  rfl

end

end Armada.Tan
