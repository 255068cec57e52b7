import Armada.Tan.Blocks
import Armada.Tan.Db

/-! Opening a store whose last log file was cut short. The file has what was synced, some
of the bytes that were not, and zeros; its records are read up to the first one that is
not whole, the index is built from them, and the file is written again with them. -/

namespace Armada.Tan

open Raft Program List
open Ordered (Bytes)

/-! ### Repairing -/

/-- How an update is written as bytes. Each call writes the maps of a membership in an order
of its own. -/
structure UpdateCodec where
  marshal : (call : ℕ) → Update → Bytes
  unmarshal : Bytes → Update

namespace UpdateCodec

/-- The updates, each by a call. -/
def marshalAll (codec : UpdateCodec) : ℕ → List Update → List Bytes
  | _, [] => []
  | call, u :: us => codec.marshal call u :: codec.marshalAll (call + 1) us

/-- Every call writes the update, in as many bytes as the others. -/
def Lossless (codec : UpdateCodec) (u : Update) : Prop :=
  ∀ call, codec.unmarshal (codec.marshal call u) = u ∧ (codec.marshal call u).length = (codec.marshal 0 u).length

end UpdateCodec

inductive OpenError where
  | read (e : ReadError)
  | offsetChanged

def logNumField (num : ℕ) : Bytes :=
  [UInt8.ofNat num, UInt8.ofNat (num / 256), UInt8.ofNat (num / 256 ^ 2), UInt8.ofNat (num / 256 ^ 3)]

section
variable (sum : Checksum) (codec : UpdateCodec)

/-- The records one after the other in a new file, each where it was. -/
def rebuildLog (call newOffset : ℕ) : List (ℕ × Bytes) → Except OpenError Bytes
  | [] => .ok []
  | (offset, data) :: rest =>
    let written := writeRecord sum newOffset (codec.marshal call (codec.unmarshal data))
    if newOffset ≠ offset then .error .offsetChanged
    else do
      let file ← rebuildLog (call + 1) (newOffset + written.length) rest
      .ok (written ++ file)

def toRecord (r : ℕ × Bytes) : Record := ⟨r.1, codec.unmarshal r.2⟩

/-- The log file as it is left, and the index with its records. -/
def rebuildLogAndIndex (call num : ℕ) (n : NodeIndex) (file : Bytes) : Except OpenError (Bytes × NodeIndex) :=
  let (records, e) := (newReader file (logNumField num)).readLog sum
  let n := rebuildIndex n ⟨num, records.map (toRecord codec), none⟩
  match e with
  | none => .ok (file, n)
  | some e =>
    if isInvalidRecord e then do
      let file ← rebuildLog sum codec call 0 records
      .ok (file, n)
    else .error (.read e)

/-- The file with the updates as records. -/
def logOf (us : List Update) : Bytes := writeAll sum 0 (codec.marshalAll 0 us)

/-- The updates with the offsets of their records. -/
def recordsOf (offset : ℕ) : List Update → List Record
  | [] => []
  | u :: us => ⟨offset, u⟩ :: recordsOf (offset + (writeRecord sum offset (codec.marshal 0 u)).length) us

end

/-! ### Cut records -/

/-- Of the chunks only the first `cut` bytes are left. If that cuts one, the zeros after
it end before the length in its header is reached. -/
def Uncompleted : List Bytes → ℕ → ℕ → Prop
  | [], _, _ => True
  | bs :: rest, cut, z =>
    if cut < bs.length then 0 < cut → cut + z < legacyHeaderSize + lengthField (bs.take cut)
    else Uncompleted rest (cut - bs.length) z

/-- The same for the chunks of a whole file. -/
def NotCompleted (sum : Checksum) : ℕ → List Bytes → ℕ → ℕ → Prop
  | _, [], _, _ => True
  | offset, data :: rest, cut, z =>
    if cut < (writeRecord sum offset data).length then
      Uncompleted (pieces sum (offset + padding offset) true data) (cut - padding offset) z
    else NotCompleted sum (offset + (writeRecord sum offset data).length) rest
      (cut - (writeRecord sum offset data).length) z

/-- What is left from the chunk on that was cut. -/
def fromCut : List Bytes → ℕ → ℕ → Bytes
  | [], _, z => zeros z
  | bs :: rest, cut, z => if cut < bs.length then bs.take cut ++ zeros z else fromCut rest (cut - bs.length) z

/-- The same for the chunks of a whole file. -/
def fromCutOf (sum : Checksum) : ℕ → List Bytes → ℕ → ℕ → Bytes
  | _, [], _, z => zeros z
  | offset, data :: rest, cut, z =>
    if cut < (writeRecord sum offset data).length then
      fromCut (pieces sum (offset + padding offset) true data) (cut - padding offset) z
    else fromCutOf sum (offset + (writeRecord sum offset data).length) rest
      (cut - (writeRecord sum offset data).length) z

section
variable {sum : Checksum} {w : Bool} {file data tail : Bytes} {p q : ℕ} {r : Reader}
  {payload : Bytes} {last : Bool} {k z : ℕ} {ds : List Bytes} {us : List Update} {codec : UpdateCodec}

theorem padding_room (p : ℕ) : (p + padding p) % blockSize + 7 ≤ blockSize := by
  have hsize := blockSize_eq
  have hseven : legacyHeaderSize = 7 := rfl
  have hmod := Nat.mod_lt p (show 0 < blockSize by omega)
  rw [padding]
  split_ifs with h
  · have hblock := Nat.div_add_mod p blockSize
    have heq : p + (blockSize - p % blockSize) = blockSize * (p / blockSize + 1) := by
      rw [Nat.mul_add]
      omega
    rw [heq, Nat.mul_mod_right]
    omega
  · change p % blockSize + 7 ≤ blockSize
    omega

theorem room_next (hq : q % blockSize + 7 ≤ blockSize) : (q + legacyHeaderSize + room q) % blockSize = 0 := by
  have hsize := blockSize_eq
  have hblock := Nat.div_add_mod q blockSize
  have heq : q + legacyHeaderSize + room q = blockSize * (q / blockSize + 1) := by
    rw [Nat.mul_add, room]
    simp only [legacyHeaderSize]
    omega
  rw [heq, Nat.mul_mod_right]

theorem padding_eq_zero (h : q % blockSize = 0) : padding q = 0 := by
  have hsize := blockSize_eq
  rw [padding, h, if_neg]
  simp only [legacyHeaderSize]
  omega

theorem chunkType_bounds (first last : Bool) : 1 ≤ (chunkType first last).toNat ∧ (chunkType first last).toNat ≤ 4 := by
  cases first <;> cases last <;> decide

theorem chunkType_first {first : Bool} (last : Bool) (h : first = true) :
    (chunkType first last).toNat = 1 ∨ (chunkType first last).toNat = 2 := by
  subst h
  cases last <;> decide

theorem chunkType_last (first last : Bool) :
    decide ((chunkType first last).toNat = 1 ∨ (chunkType first last).toNat = 4) = last := by
  cases first <;> cases last <;> decide

theorem At.seek_room (sum : Checksum) (w : Bool) {n : ℕ} (h : At file p r) (hlong : p + padding p < file.length)
    (hn : n ≤ room (p + padding p)) : ∃ (r1 : Reader) (b : ℕ), r.nextChunk sum w = r1.nextChunk sum w ∧
    At file (p + padding p) r1 ∧ r1.blockNum = some b ∧ r1.stop + 7 + n ≤ blockSize := by
  obtain ⟨r1, b, hseek, hat, hb, hstop⟩ := h.seek hlong
  refine ⟨r1, b, hseek, hat, hb, ?_⟩
  have hmod : (p + padding p) % blockSize = r1.stop := by
    rw [hat.eq_block hb, Nat.mul_comm, Nat.mul_add_mod, Nat.mod_eq_of_lt (by omega)]
  rw [room, hmod, legacyHeaderSize] at hn
  omega

theorem At.nextChunk_piece (h : At file p r) (hq : p + padding p = q) (hpayload : payload.length ≤ room q)
    (hfile : file.drop q = chunk sum (chunkType w last) payload ++ tail) :
    ∃ r', r.nextChunk sum w = .ok r' ∧ At file (q + (7 + payload.length)) r' ∧ r'.payload = payload ∧ r'.last =
    last := by
  subst hq
  have hlong : p + padding p < file.length := by
    have hlen := congrArg List.length hfile
    rw [length_drop, length_append, length_chunk] at hlen
    omega
  obtain ⟨r1, b, hseek, hat, hb, hroom⟩ := h.seek_room sum w hlong hpayload
  obtain ⟨r', hnext, hat', hp, hl⟩ := hat.nextChunk_chunk hb (chunkType_bounds w last)
    (chunkType_first last) hroom hfile
  exact ⟨r', hseek.trans hnext, hat', hp, hl.trans (chunkType_last w last)⟩

theorem length_full (sum : Checksum) (code : UInt8) (hfits : ¬data.length ≤ room q) :
    (chunk sum code (data.take (room q))).length = legacyHeaderSize + room q := by
  rw [length_chunk, length_take_of_le (by omega), legacyHeaderSize]

/-- A chunk that fills its block is read, and the next one starts the next block. -/
theorem At.nextChunk_full (h : At file p r) (hq : p + padding p = q) (hfits : ¬data.length ≤ room q)
    (hfile : file.drop q = chunk sum (chunkType w false) (data.take (room q)) ++ tail) :
    ∃ r', r.nextChunk sum w = .ok r' ∧ At file (q + legacyHeaderSize + room q) r' ∧ r'.payload = data.take (room q) ∧
    r'.last = false ∧ file.drop (q + legacyHeaderSize + room q) = tail := by
  have htake : (data.take (room q)).length = room q := length_take_of_le (by omega)
  obtain ⟨r', hnext, hat, hp, hl⟩ := h.nextChunk_piece hq htake.le hfile
  rw [htake, ← show legacyHeaderSize = 7 from rfl, ← Nat.add_assoc] at hat
  refine ⟨r', hnext, hat, hp, hl, ?_⟩
  rw [Nat.add_assoc, ← drop_drop, hfile, drop_left' (length_full sum _ hfits)]

theorem At.readRecord_pieces (h : At file p r) (hq : p + padding p = q) (hroom : q % blockSize + 7 ≤ blockSize)
    (hfile : file.drop q = (pieces sum q w data).flatten ++ tail) :
    ∃ r', r.readRecord sum w = .ok (data, r') ∧ At file (q + (pieces sum q w data).flatten.length) r' := by
  induction q, w, data using pieces.induct generalizing p r with
  | case1 q w data hfits =>
    rw [pieces, if_pos hfits, flatten_singleton] at hfile ⊢
    obtain ⟨r', hnext, hat, hp, hl⟩ := h.nextChunk_piece hq hfits hfile
    refine ⟨r', ?_, length_chunk sum _ data ▸ hat⟩
    rw [Reader.readRecord_ok hnext, if_pos hl, hp]
  | case2 q w data hfits ih =>
    rw [pieces, if_neg hfits, flatten_cons] at hfile ⊢
    rw [append_assoc] at hfile
    obtain ⟨r1, hnext, hat, hp, hl, hrest⟩ := h.nextChunk_full hq hfits hfile
    have hzero := room_next hroom
    rw [length_append, length_full sum _ hfits, ← Nat.add_assoc, ← Nat.add_assoc]
    generalize q + legacyHeaderSize + room q = q' at *
    obtain ⟨r', hread, hat'⟩ := ih hat (by rw [padding_eq_zero hzero]; rfl) (by have := blockSize_eq; omega) hrest
    refine ⟨r', ?_, hat'⟩
    rw [Reader.readRecord_ok hnext, if_neg (by simp [hl]), hread, hp]
    simp [Except.map, take_append_drop]

theorem zeros_add (m n : ℕ) : zeros m ++ zeros n = zeros (m + n) := replicate_append_replicate

theorem drop_padding {bs : Bytes} (hq : p + padding p = q) (hfile : file.drop p = zeros (padding p) ++ bs) :
    file.drop q = bs := by
  rw [← hq, ← drop_drop, hfile, drop_left' (length_zeros _)]

theorem At.nextChunk_cut (h : At file p r) (hq : p + padding p = q)
    (hpayload : payload.length ≤ room q) (hk : k < (chunk sum (chunkType w last) payload).length)
    (hfile : file.drop p = zeros (padding p) ++ ((chunk sum (chunkType w last) payload).take k ++ zeros z))
    (htorn : 0 < k → k + z < legacyHeaderSize + lengthField ((chunk sum (chunkType w last) payload).take k)) :
    ∃ e, r.nextChunk sum w = .error e ∧ (isInvalidRecord e ∨ w = true ∧ e = .eof) := by
  obtain rfl | hpos := Nat.eq_zero_or_pos k
  · rw [take_zero, nil_append, zeros_add] at hfile
    exact h.nextChunk_zeros hfile
  · have hdrop := drop_padding hq hfile
    rw [length_chunk] at hk
    subst hq
    have hlong : p + padding p < file.length := by
      have hlen := congrArg List.length hdrop
      rw [length_drop, length_append, length_take, length_chunk] at hlen
      omega
    obtain ⟨r1, b, hseek, hat, hb, hroom⟩ := h.seek_room sum w hlong hpayload
    obtain ⟨e, herror, he⟩ := hat.nextChunk_torn (w := w) hb (chunkType_bounds w last) hroom hk hdrop htorn
    exact ⟨e, hseek.trans herror, he⟩

/-- The reader of a record comes to the chunk that was cut. -/
theorem At.readRecord_comes (h : At file p r) (hq : p + padding p = q) (hroom : q % blockSize + 7 ≤ blockSize)
    (hk : k < (pieces sum q w data).flatten.length)
    (hfile : file.drop p = zeros (padding p) ++ ((pieces sum q w data).flatten.take k ++ zeros z)) :
    ∃ (p' : ℕ) (r' : Reader) (w' last : Bool) (payload : Bytes) (k' : ℕ),
      At file p' r' ∧ payload.length ≤ room (p' + padding p') ∧ k' < (chunk sum (chunkType w' last) payload).length ∧
      file.drop p' = zeros (padding p') ++ ((chunk sum (chunkType w' last) payload).take k' ++ zeros z) ∧
      (Uncompleted (pieces sum q w data) k z → 0 < k' →
        k' + z < legacyHeaderSize + lengthField ((chunk sum (chunkType w' last) payload).take k')) ∧
      fromCut (pieces sum q w data) k z = (chunk sum (chunkType w' last) payload).take k' ++ zeros z ∧
      ∀ e, r'.nextChunk sum w' = .error e → r.readRecord sum w = .error e := by
  induction q, w, data using pieces.induct generalizing p r k with
  | case1 q w data hfits =>
    rw [pieces, if_pos hfits] at hk hfile ⊢
    rw [flatten_singleton] at hk hfile
    rw [Uncompleted, fromCut, if_pos hk, if_pos hk]
    exact ⟨p, r, w, true, data, k, h, hq ▸ hfits, hk, hfile, id, rfl, fun e => Reader.readRecord_error⟩
  | case2 q w data hfits ih =>
    have hchunk := length_full sum (chunkType w false) hfits
    rw [pieces, if_neg hfits] at hk hfile ⊢
    rw [flatten_cons] at hk hfile
    rw [Uncompleted, fromCut]
    by_cases hcut : k < (chunk sum (chunkType w false) (data.take (room q))).length
    · rw [take_append_of_le_length hcut.le] at hfile
      rw [if_pos hcut, if_pos hcut]
      exact ⟨p, r, w, false, data.take (room q), k, h, hq ▸ length_take_le _ _, hcut, hfile, id, rfl,
        fun e => Reader.readRecord_error⟩
    · rw [if_neg hcut, if_neg hcut, hchunk]
      rw [take_append, take_of_length_le (not_lt.mp hcut), hchunk, append_assoc] at hfile
      obtain ⟨r1, hnext, hat, -, hl, hrest⟩ := h.nextChunk_full hq hfits (drop_padding hq hfile)
      have hzero := room_next hroom
      rw [length_append, hchunk] at hk
      generalize q + legacyHeaderSize + room q = q' at *
      have hnone := padding_eq_zero hzero
      obtain ⟨p', r', w', last, payload, k', hat', hpayload, hk', hfile', htorn, hfrom, herror⟩ :=
        ih (k := k - (legacyHeaderSize + room q)) hat (by rw [hnone]; rfl) (by have := blockSize_eq; omega) (by omega)
          (by rw [hnone]; exact hrest)
      refine ⟨p', r', w', last, payload, k', hat', hpayload, hk', hfile', htorn, hfrom, fun e he => ?_⟩
      rw [Reader.readRecord_ok hnext, if_neg (by simp [hl]), herror e he]
      rfl

/-! ### Cut files -/

theorem At.nextChunk_end (h : At file p r) (hfile : file.drop p = []) : r.nextChunk sum true = .error .eof := by
  have hunread : r.unread = [] := by
    cases hb : r.blockNum with
    | none => simp [Reader.unread, (h.fresh hb).1]
    | some b => rw [h.unread hb, hfile, take_nil]
  have hrest : r.rest = [] := by
    rw [h.rest, drop_eq_nil_iff]
    exact (drop_eq_nil_iff.mp hfile).trans h.le_nextBlock
  refine Reader.nextChunk_error ?_
  rw [Reader.turn, if_neg (by rw [hunread]; decide), if_pos hrest]
  split_ifs with hpart hmore
  · exact absurd hunread (hmore.resolve_left (by simp))
  · rfl
  · rfl
  · contradiction

theorem At.readRecord_cut {data : Bytes} (h : At file p r) (hcut : k < (writeRecord sum p data).length)
    (hfile : file.drop p = (writeRecord sum p data).take k ++ zeros z)
    (htorn : Uncompleted (pieces sum (p + padding p) true data) (k - padding p) z) :
    ∃ e, r.readRecord sum true = .error e ∧ (isInvalidRecord e ∨ e = .eof) := by
  have hrec := length_writeRecord sum p data
  by_cases hpad : k ≤ padding p
  · rw [writeRecord, take_append_of_le_length (by rw [length_zeros]; exact hpad), take_zeros, zeros_add] at hfile
    obtain ⟨e, herror, he⟩ : ∃ e, r.nextChunk sum true = .error e ∧ _ := h.nextChunk_zeros hfile
    exact ⟨e, Reader.readRecord_error herror, he.imp_right And.right⟩
  · rw [writeRecord, take_append, take_zeros, length_zeros, min_eq_right (by omega), append_assoc] at hfile
    obtain ⟨p', r', w', last, payload, k', hat, hpayload, hk', hfile', hcut', -, herror⟩ :=
      h.readRecord_comes rfl (padding_room p) (by omega) hfile
    obtain ⟨e, hnext, he⟩ := hat.nextChunk_cut rfl hpayload hk' hfile' (hcut' htorn)
    exact ⟨e, herror e hnext, he.imp_right And.right⟩

theorem At.readRecord_whole {data : Bytes} (h : At file p r) (hfile : file.drop p = writeRecord sum p data ++ tail) :
    ∃ r', r.readRecord sum true = .ok (data, r') ∧ At file (p + (writeRecord sum p data).length) r' ∧
    file.drop (p + (writeRecord sum p data).length) = tail := by
  have hdata := hfile
  rw [writeRecord, append_assoc] at hdata
  obtain ⟨r', hread, hat⟩ := h.readRecord_pieces rfl (padding_room p) (drop_padding rfl hdata)
  rw [Nat.add_assoc, ← length_writeRecord] at hat
  exact ⟨r', hread, hat, by rw [← drop_drop, hfile, drop_left]⟩

theorem isInvalidRecord_of_torn {e : ReadError} (h : isInvalidRecord e ∨ e = .eof) :
    ∀ e' ∈ (if e = .eof then none else some e), isInvalidRecord e' := by
  intro e' he'
  split_ifs at he' with heof
  · cases he'
  · cases he'
    exact h.resolve_right heof

theorem At.readLog_cut (h : At file p r) (hk : k ≤ (writeAll sum p ds).length)
    (hfile : file.drop p = (writeAll sum p ds).take k ++ zeros z) (htorn : NotCompleted sum p ds k z) :
    ∃ m e, r.readLog sum = (placed sum p (ds.take m), e) ∧ (∀ e' ∈ e, isInvalidRecord e') ∧ m ≤ ds.length ∧
    (∀ j, j ≤ ds.length → (writeAll sum p (ds.take j)).length ≤ k → j ≤ m) ∧
    (k = (writeAll sum p ds).length → z = 0 → e = none) := by
  induction ds generalizing p r k with
  | nil =>
    rw [writeAll, take_nil, nil_append] at hfile
    obtain ⟨e, herror, he⟩ : ∃ e, r.nextChunk sum true = .error e ∧ _ := h.nextChunk_zeros hfile
    refine ⟨0, _, Reader.readLog_error (Reader.readRecord_error herror),
      isInvalidRecord_of_torn (he.imp_right And.right), le_rfl, fun j hj _ => hj, fun _ hz => ?_⟩
    rw [hz] at hfile
    rw [h.nextChunk_end hfile] at herror
    cases herror
    rfl
  | cons data ds ih =>
    rw [writeAll] at hk hfile
    rw [NotCompleted] at htorn
    by_cases hcut : k < (writeRecord sum p data).length
    · rw [if_pos hcut] at htorn
      rw [take_append_of_le_length hcut.le] at hfile
      obtain ⟨e, herror, he⟩ := h.readRecord_cut hcut hfile htorn
      refine ⟨0, _, Reader.readLog_error herror, isInvalidRecord_of_torn he, Nat.zero_le _, fun j hj hle =>
        ?_, fun heq => ?_⟩
      · cases j with
        | zero => exact le_rfl
        | succ j =>
          rw [take_succ_cons, writeAll, length_append] at hle
          omega
      · rw [writeAll, length_append] at heq
        omega
    · rw [if_neg hcut] at htorn
      rw [take_append, take_of_length_le (not_lt.mp hcut), append_assoc] at hfile
      obtain ⟨r1, hread, hat, hrest⟩ := h.readRecord_whole hfile
      rw [length_append] at hk
      obtain ⟨m, e, hlog, he, hm, hall, hend⟩ := ih hat (by omega) hrest htorn
      refine ⟨m + 1, e, ?_, he, Nat.succ_le_succ hm, fun j hj hle => ?_, fun heq hz => hend ?_ hz⟩
      · rw [Reader.readLog_ok hread, hlog, take_succ_cons, placed, h.offset]
      · cases j with
        | zero => exact Nat.zero_le _
        | succ j =>
          rw [take_succ_cons, writeAll, length_append] at hle
          exact Nat.succ_le_succ (hall j (Nat.le_of_succ_le_succ hj) (by omega))
      · rw [writeAll, length_append] at heq
        omega

/-! ### Completed chunks -/

theorem not_wrongSum_zeros (z : ℕ) : ¬WrongSum sum (zeros z) := by
  rintro ⟨hzero, hlong, -⟩
  rw [lengthField_zeros, length_zeros, legacyHeaderSize] at hlong
  exact hzero ⟨by rw [take_zeros, min_eq_left (by omega)], lengthField_zeros z, typeField_zeros z⟩

theorem At.nextChunk_completed (h : At file p r) (hq : p + padding p = q) (hpayload : payload.length ≤ room q)
    (hfile : file.drop q = (chunk sum (chunkType w last) payload).take k ++ zeros z)
    (hwrong : WrongSum sum ((chunk sum (chunkType w last) payload).take k ++ zeros z)) :
    r.nextChunk sum w = .error .crcMismatch := by
  rw [← hfile] at hwrong
  subst hq
  have hlong : p + padding p < file.length := by
    have hlen := hwrong.2.1
    rw [length_drop, legacyHeaderSize] at hlen
    omega
  obtain ⟨r1, b, hseek, hat, hb, hroom⟩ := h.seek_room sum w hlong hpayload
  have hsize := blockSize_eq
  have hlength := lengthField_take_le sum (chunkType w last) k (show payload.length < 256 * 256 by omega)
  have htype := typeField_take sum (chunkType w last) payload k
  have hcode := chunkType_bounds w last
  rw [lengthField] at hlength
  rw [typeField] at htype
  rw [hseek]
  refine hat.nextChunk_wrongSum hb ?_ ?_ hwrong
  · rw [hfile, typeField, getD_append_zeros]
    omega
  · rw [hfile, lengthField, getD_append_zeros, getD_append_zeros]
    omega

theorem fromCut_zero (data : Bytes) : fromCut (pieces sum q w data) 0 z = zeros z := by
  rw [pieces]
  split_ifs <;> rw [fromCut, if_pos (by rw [length_chunk]; omega), take_zero, nil_append]

theorem At.readLog_completed (h : At file p r) (hfile : file.drop p = (writeAll sum p ds).take k ++ zeros z)
    (hwrong : WrongSum sum (fromCutOf sum p ds k z)) : ∃ records, r.readLog sum = (records, some .crcMismatch) := by
  induction ds generalizing p r k with
  | nil => exact absurd hwrong (not_wrongSum_zeros z)
  | cons data ds ih =>
    rw [writeAll] at hfile
    rw [fromCutOf] at hwrong
    split_ifs at hwrong with hcut
    · rw [take_append_of_le_length hcut.le, writeRecord] at hfile
      rw [length_writeRecord] at hcut
      by_cases hpad : padding p ≤ k
      · rw [take_append, take_of_length_le (by rwa [length_zeros]), length_zeros, append_assoc] at hfile
        obtain ⟨p', r', w', last, payload, k', hat, hfits, -, hfile', -, hfrom, herror⟩ :=
          h.readRecord_comes rfl (padding_room p) (by omega) hfile
        rw [hfrom] at hwrong
        exact ⟨_, Reader.readLog_error (herror _ (hat.nextChunk_completed rfl hfits (drop_padding rfl hfile') hwrong))⟩
      · rw [Nat.sub_eq_zero_of_le (by omega), fromCut_zero] at hwrong
        exact absurd hwrong (not_wrongSum_zeros z)
    · rw [take_append, take_of_length_le (not_lt.mp hcut), append_assoc] at hfile
      obtain ⟨r1, hread, hat, hrest⟩ := h.readRecord_whole hfile
      obtain ⟨records, hlog⟩ := ih hat hrest hwrong
      exact ⟨_, by rw [Reader.readLog_ok hread, hlog]⟩

theorem length_writeAll_take {m : ℕ} : (writeAll sum p (ds.take m)).length ≤ (writeAll sum p ds).length := by
  induction ds generalizing p m with
  | nil => simp
  | cons data ds ih =>
    cases m with
    | zero => exact Nat.zero_le _
    | succ m =>
      rw [take_succ_cons, writeAll, writeAll, length_append, length_append]
      exact Nat.add_le_add_left ih _

theorem notCompleted_length (ds : List Bytes) (p z : ℕ) : NotCompleted sum p ds (writeAll sum p ds).length z := by
  induction ds generalizing p with
  | nil => trivial
  | cons data ds ih =>
    rw [NotCompleted, writeAll, length_append, if_neg (by omega), Nat.add_sub_cancel_left]
    exact ih _

theorem length_pieces_congr {data data' : Bytes} (h : data.length = data'.length) (first : Bool) :
    (pieces sum p first data).flatten.length = (pieces sum p first data').flatten.length := by
  induction p, first, data using pieces.induct generalizing data' with
  | case1 p first data hfits =>
    rw [pieces, if_pos hfits, pieces, if_pos (h ▸ hfits)]
    simp [length_chunk, h]
  | case2 p first data hlong ih =>
    have hrest := ih (show (data.drop (room p)).length = (data'.drop (room p)).length by
      rw [length_drop, length_drop, h])
    rw [pieces.eq_1 sum p first data, if_neg hlong, pieces.eq_1 sum p first data', if_neg (h ▸ hlong), flatten_cons,
      flatten_cons, length_append, length_append, hrest, length_chunk, length_chunk, length_take, length_take, h]

/-- Where the next record goes depends on the length of this one only. -/
theorem length_writeRecord_congr {data data' : Bytes} (h : data.length = data'.length) :
    (writeRecord sum p data).length = (writeRecord sum p data').length := by
  rw [length_writeRecord, length_writeRecord, length_pieces_congr h]

theorem length_marshalAll (call : ℕ) (us : List Update) : (codec.marshalAll call us).length = us.length := by
  induction us generalizing call with
  | nil => rfl
  | cons u us ih => rw [UpdateCodec.marshalAll, length_cons, length_cons, ih]

theorem take_marshalAll (call m : ℕ) (us : List Update) :
    (codec.marshalAll call us).take m = codec.marshalAll call (us.take m) := by
  induction us generalizing call m with
  | nil => simp [UpdateCodec.marshalAll]
  | cons u us ih =>
    cases m with
    | zero => rfl
    | succ m => rw [UpdateCodec.marshalAll, take_succ_cons, take_succ_cons, UpdateCodec.marshalAll, ih]

theorem rebuildLog_placed (h : ∀ u ∈ us, codec.Lossless u) (p call call' : ℕ) :
    rebuildLog sum codec call' p (placed sum p (codec.marshalAll call us)) =
    .ok (writeAll sum p (codec.marshalAll call' us)) := by
  induction us generalizing p call call' with
  | nil => rfl
  | cons u us ih =>
    rw [forall_mem_cons] at h
    have hlength : (codec.marshal call u).length = (codec.marshal call' u).length := by rw [(h.1 call).2, (h.1 call').2]
    rw [UpdateCodec.marshalAll, placed, rebuildLog, (h.1 call).1, if_neg (not_not.mpr rfl),
      length_writeRecord_congr hlength, ih h.2, ok_bind, UpdateCodec.marshalAll, writeAll]

theorem toRecord_placed (h : ∀ u ∈ us, codec.Lossless u) (p call : ℕ) :
    (placed sum p (codec.marshalAll call us)).map (toRecord codec) = recordsOf sum codec p us := by
  induction us generalizing p call with
  | nil => rfl
  | cons u us ih =>
    rw [forall_mem_cons] at h
    rw [UpdateCodec.marshalAll, placed, map_cons, toRecord, (h.1 call).1, length_writeRecord_congr (h.1 call).2, ih h.2,
      recordsOf]

end

/-- A torn tail is repaired unless zeros complete a chunk that was cut: the file is opened,
and it and the index have every synced record and a part of the others from the first on,
each where it was written. -/
theorem torn_tail_repaired (sum : Checksum) (codec : UpdateCodec) (call num : ℕ) (n : NodeIndex) (us : List Update)
    (synced cut z : ℕ) (hcodec : ∀ u ∈ us, codec.Lossless u) (hsynced : synced ≤ us.length)
    (hlow : (logOf sum codec (us.take synced)).length ≤ cut)
    (hhigh : cut ≤ (logOf sum codec us).length) (htorn : NotCompleted sum 0 (codec.marshalAll 0 us) cut z) :
    ∃ m file written, synced ≤ m ∧ m ≤ us.length ∧
      rebuildLogAndIndex sum codec call num n ((logOf sum codec us).take cut ++ zeros z) =
        .ok (file, rebuildIndex n ⟨num, recordsOf sum codec 0 (us.take m), none⟩) ∧
      (newReader file (logNumField num)).readLog sum = (placed sum 0 (codec.marshalAll written (us.take m)), none) := by
  have hat := at_newReader ((logOf sum codec us).take cut ++ zeros z) (logNumField num)
  obtain ⟨m, e, hlog, he, hm, hall, -⟩ := hat.readLog_cut hhigh (drop_zero ..) htorn
  rw [length_marshalAll] at hm hall
  have hsome : synced ≤ m := hall synced hsynced (by rwa [take_marshalAll])
  rw [take_marshalAll] at hlog
  have hcodec : ∀ u ∈ us.take m, codec.Lossless u := fun u hu => hcodec u (mem_of_mem_take hu)
  cases e with
  | none =>
    refine ⟨m, _, 0, hsome, hm, ?_, hlog⟩
    rw [rebuildLogAndIndex, hlog]
    dsimp only
    rw [toRecord_placed hcodec]
  | some e =>
    refine ⟨m, writeAll sum 0 (codec.marshalAll call (us.take m)), call, hsome, hm, ?_, ?_⟩
    · rw [rebuildLogAndIndex, hlog]
      dsimp only
      rw [if_pos (he e rfl), rebuildLog_placed hcodec 0 0 call, ok_bind, toRecord_placed hcodec]
    · have hnew := at_newReader (writeAll sum 0 (codec.marshalAll call (us.take m))) (logNumField num)
      obtain ⟨m', e', hlog', -, hm', hall', hend⟩ := hnew.readLog_cut (z := 0) le_rfl
        (by rw [drop_zero, take_length, zeros, replicate_zero, append_nil]) (notCompleted_length _ _ _)
      have hwhole : (codec.marshalAll call (us.take m)).length ≤ m' := hall' _ le_rfl length_writeAll_take
      rw [hlog', hend rfl rfl, take_of_length_le hwhole]

/-- A cut chunk that zeros complete is not taken for the end of the log: unless its checksum
is that of the completed bytes, the file is not opened. -/
theorem completed_chunk_refused (sum : Checksum) (codec : UpdateCodec) (call num : ℕ) (n : NodeIndex) (us : List Update)
    (cut z : ℕ) (hwrong : WrongSum sum (fromCutOf sum 0 (codec.marshalAll 0 us) cut z)) :
    rebuildLogAndIndex sum codec call num n ((logOf sum codec us).take cut ++ zeros z) =
      .error (.read .crcMismatch) := by
  have hat := at_newReader ((logOf sum codec us).take cut ++ zeros z) (logNumField num)
  obtain ⟨records, hlog⟩ := hat.readLog_completed (drop_zero ..) hwrong
  rw [rebuildLogAndIndex, hlog]
  rfl

/-! ### Two short files -/

section
variable {sum : Checksum} {p : ℕ} {data : Bytes}

theorem padding_small (h : p + 7 ≤ blockSize) : padding p = 0 := by
  have hseven : legacyHeaderSize = 7 := rfl
  rw [padding, Nat.mod_eq_of_lt (by omega), if_neg (by omega)]

theorem pieces_small (h : p + 7 + data.length ≤ blockSize) (first : Bool) :
    pieces sum p first data = [chunk sum (chunkType first true) data] := by
  rw [pieces, if_pos]
  rw [room, Nat.mod_eq_of_lt (by omega), legacyHeaderSize]
  omega

theorem writeRecord_small (h : p + 7 + data.length ≤ blockSize) : writeRecord sum p data = chunk sum 1 data := by
  rw [writeRecord, padding_small (by omega), Nat.add_zero, pieces_small h, flatten_singleton]
  rfl

end

/-- The term as the only byte. -/
def termCodec : UpdateCodec :=
  ⟨fun _ u => [UInt8.ofNat u.state.term], fun data => ⟨⟨(data.getD 0 0).toNat, 0, 0⟩, [], emptySnapshot⟩⟩

def termUpdate (term : ℕ) : Update := ⟨⟨term, 0, 0⟩, [], emptySnapshot⟩

def sumOfBytes : Checksum := ⟨fun bs => [bs.foldl (· + ·) 0, 0, 0, 0], fun _ => rfl⟩

/-- The second of two records is cut in its header, and two zeros follow. -/
theorem torn_tail_repaired_header : ∃ m file written, 1 ≤ m ∧ m ≤ 2 ∧
    rebuildLogAndIndex sumOfBytes termCodec 2 1 .init
    ((logOf sumOfBytes termCodec [termUpdate 1, termUpdate 2]).take 12 ++ zeros 2) =
      .ok (file, rebuildIndex .init ⟨1, recordsOf sumOfBytes termCodec 0 ([termUpdate 1, termUpdate 2].take m), none⟩) ∧
    (newReader file (logNumField 1)).readLog sumOfBytes =
      (placed sumOfBytes 0 (termCodec.marshalAll written ([termUpdate 1, termUpdate 2].take m)), none) := by
  have hsize := blockSize_eq
  have hfirst : writeRecord sumOfBytes 0 [1] = chunk sumOfBytes 1 [1] := writeRecord_small (by rw [hsize]; decide)
  have hsecond : writeRecord sumOfBytes 8 [2] = chunk sumOfBytes 1 [2] := writeRecord_small (by rw [hsize]; decide)
  have hlog : logOf sumOfBytes termCodec [termUpdate 1, termUpdate 2] =
      chunk sumOfBytes 1 [1] ++ (chunk sumOfBytes 1 [2] ++ []) := by
    change writeRecord sumOfBytes 0 [1] ++ writeAll sumOfBytes (0 + (writeRecord sumOfBytes 0 [1]).length) [[2]] = _
    rw [hfirst]
    change _ ++ (writeRecord sumOfBytes 8 [2] ++ []) = _
    rw [hsecond]
  have hcodec : ∀ u ∈ [termUpdate 1, termUpdate 2], termCodec.Lossless u :=
    by simp [UpdateCodec.Lossless, termCodec, termUpdate]
  refine torn_tail_repaired sumOfBytes termCodec 2 1 .init [termUpdate 1, termUpdate 2] 1 12 2 hcodec
    (by decide) ?_ ?_ ?_
  · change (writeRecord sumOfBytes 0 [1] ++ []).length ≤ 12
    rw [hfirst]
    decide
  · rw [hlog]
    decide
  · change NotCompleted sumOfBytes 0 [[1], [2]] 12 2
    rw [NotCompleted, hfirst, if_neg (by decide), NotCompleted]
    change if 4 < (writeRecord sumOfBytes 8 [2]).length then
      Uncompleted (pieces sumOfBytes (8 + padding 8) true [2]) (4 - padding 8) 2 else _
    rw [hsecond, if_pos (by decide), padding_small (by omega), pieces_small (by rw [hsize]; decide), Uncompleted,
      if_pos (by decide)]
    decide

/-- The payload of the only chunk is cut, and a zero follows in its place: the store is not
opened. -/
theorem completed_chunk_not_repaired :
    rebuildLogAndIndex getCRC termCodec 1 1 .init ((logOf getCRC termCodec [termUpdate 2]).take 7 ++ zeros 1) =
      .error (.read .crcMismatch) := by
  have hsize := blockSize_eq
  have hchunk : writeRecord getCRC 0 [2] = chunk getCRC 1 [2] := writeRecord_small (by rw [hsize]; decide)
  refine completed_chunk_refused getCRC termCodec 1 1 .init [termUpdate 2] 7 1 ?_
  change WrongSum getCRC (fromCutOf getCRC 0 [[2]] 7 1)
  rw [fromCutOf, hchunk, if_pos (by decide), padding_small (by omega), pieces_small (by rw [hsize]; decide), fromCut,
    if_pos (by decide), WrongSum]
  decide +kernel

end Armada.Tan
