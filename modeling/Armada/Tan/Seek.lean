import Armada.Tan.Torn

/-! Reading a log file from a record on. The reader goes to the block of the offset, reads
the first chunk there to have the block, and then skips to the offset. -/

namespace Armada.Tan

open Program List
open Ordered (Bytes)

/-- Where the block of the offset starts. -/
def blockStart (offset : ℕ) : ℕ := offset - offset % blockSize

/-- The file is at the start of the block and nothing of it was read. -/
def Reader.rewind (r : Reader) (file : Bytes) (offset : ℕ) : Reader :=
  { r with
    rest := file.drop (blockStart offset)
    blockNum := none
    buf := []
    start := 0
    stop := 0
    last := false }

/-- The chunk that is read only fetches the block; what comes next is at the offset. -/
def Reader.seekRecord (sum : Checksum) (r : Reader) (file : Bytes) (offset : ℕ) : Except ReadError Reader := do
  let r ← (r.rewind file offset).nextChunk sum false
  .ok { r with start := offset % blockSize, stop := offset % blockSize }

/-! ### What is at the start of a block -/

section
variable {sum : Checksum} {q B p : ℕ} {data : Bytes} {first : Bool}

/-- There is a whole chunk that ends in its block. -/
def StartsWithChunk (sum : Checksum) (bs : Bytes) : Prop :=
  ∃ first last payload tail, bs = chunk sum (chunkType first last) payload ++ tail ∧ 7 + payload.length ≤ blockSize

theorem StartsWithChunk.append {bs : Bytes} (h : StartsWithChunk sum bs) (tail : Bytes) :
    StartsWithChunk sum (bs ++ tail) := by
  obtain ⟨first, last, payload, rest, heq, hlen⟩ := h
  exact ⟨first, last, payload, rest ++ tail, by rw [heq, append_assoc], hlen⟩

theorem room_le (q : ℕ) (hroom : q % blockSize + 7 ≤ blockSize) : 7 + room q ≤ blockSize := by
  rw [room, legacyHeaderSize]
  omega

theorem startsWithChunk_pieces (sum : Checksum) (q : ℕ) (hroom : q % blockSize + 7 ≤ blockSize) (first : Bool)
    (data : Bytes) : StartsWithChunk sum (pieces sum q first data).flatten := by
  have hle := room_le q hroom
  rw [pieces]
  split_ifs with hfits
  · exact ⟨first, true, data, [], by rw [flatten_singleton, append_nil], by omega⟩
  · refine ⟨first, false, data.take (room q), _, flatten_cons, ?_⟩
    rw [length_take]
    omega

theorem le_of_block_lt {q' : ℕ} (hB : B % blockSize = 0) (hq : q < B)
    (hq' : q' = q - q % blockSize + blockSize) : q' ≤ B := by
  have hblock := Nat.div_add_mod q blockSize
  have hblock' := Nat.div_add_mod B blockSize
  rw [hB, Nat.add_zero] at hblock'
  have hlt : q / blockSize < B / blockSize := by
    by_contra hle
    have := Nat.mul_le_mul_left blockSize (not_lt.mp hle)
    omega
  have hstep := Nat.mul_le_mul_left blockSize (Nat.succ_le_of_lt hlt)
  rw [Nat.succ_eq_add_one, Nat.mul_add, Nat.mul_one] at hstep
  omega

theorem startsWithChunk_inside (hroom : q % blockSize + 7 ≤ blockSize)
    (hB : B % blockSize = 0) (hq : q < B) (hend : B < q + (pieces sum q first data).flatten.length) :
    StartsWithChunk sum ((pieces sum q first data).flatten.drop (B - q)) := by
  have hsize := blockSize_eq
  induction q, first, data using pieces.induct with
  | case1 q first data hfits =>
    have hnext := le_of_block_lt hB hq rfl
    have hmod := Nat.mod_le q blockSize
    rw [pieces, if_pos hfits, flatten_singleton, length_chunk] at hend
    rw [room, legacyHeaderSize] at hfits
    omega
  | case2 q first data hfits ih =>
    have hzero := room_next hroom
    have hmod := Nat.mod_le q blockSize
    have hnext : q + legacyHeaderSize + room q ≤ B := by
      refine le_of_block_lt hB hq ?_
      rw [room, legacyHeaderSize]
      omega
    have hchunk : (chunk sum (chunkType first false) (data.take (room q))).length = legacyHeaderSize + room q := by
      rw [length_chunk, length_take_of_le (by omega), legacyHeaderSize]
    rw [pieces, if_neg hfits, flatten_cons] at hend ⊢
    rw [length_append, hchunk] at hend
    obtain ⟨gap, rfl⟩ := Nat.exists_eq_add_of_le hnext
    have hdrop : q + legacyHeaderSize + room q + gap - q = legacyHeaderSize + room q + gap := by omega
    rw [hdrop, ← drop_drop, drop_left' hchunk]
    obtain rfl | hpos := Nat.eq_zero_or_pos gap
    · exact startsWithChunk_pieces sum _ (by omega) _ _
    · have hinside := ih (by omega) (by omega) (by omega)
      rwa [Nat.add_sub_cancel_left] at hinside

theorem startsWithChunk_writeAll {ds : List Bytes} (hB : B % blockSize = 0) (hp : p ≤ B)
    (hend : B < p + (writeAll sum p ds).length) : StartsWithChunk sum ((writeAll sum p ds).drop (B - p)) := by
  have hsize := blockSize_eq
  induction ds generalizing p with
  | nil =>
    rw [writeAll, length_nil] at hend
    omega
  | cons data ds ih =>
    rw [writeAll] at hend ⊢
    rw [length_append] at hend
    by_cases hlater : p + (writeRecord sum p data).length ≤ B
    · have hrest := ih hlater (by omega)
      rwa [drop_append, drop_of_length_le (by omega), nil_append, Nat.sub_sub]
    · have hroom := padding_room p
      have hrec := length_writeRecord sum p data
      have hpad : p + padding p ≤ B := by
        by_cases heq : p = B
        · rw [heq, padding_eq_zero hB]
          rfl
        · rw [padding]
          split_ifs
          · refine le_of_block_lt hB (lt_of_le_of_ne hp heq) ?_
            have := Nat.mod_le p blockSize
            have := Nat.mod_lt p (show 0 < blockSize by omega)
            omega
          · exact hp
      rw [drop_append_of_le_length (by omega)]
      refine StartsWithChunk.append ?_ _
      rw [writeRecord, drop_append, drop_of_length_le (by rw [length_zeros]; omega), nil_append, length_zeros,
        Nat.sub_sub]
      obtain heq | hlt := Nat.eq_or_lt_of_le hpad
      · rw [heq, Nat.sub_self, drop_zero]
        exact startsWithChunk_pieces sum _ (heq ▸ hroom) _ _
      · exact startsWithChunk_inside hroom hB hlt (by omega)

/-! ### Only the place in the block counts -/

theorem padding_mod (p q : ℕ) (h : p % blockSize = q % blockSize) : padding p = padding q := by
  rw [padding, padding, h]

theorem room_mod (p q : ℕ) (h : p % blockSize = q % blockSize) : room p = room q := by
  rw [room, room, h]

theorem pieces_mod (h : p % blockSize = q % blockSize) : pieces sum p first data = pieces sum q first data := by
  induction p, first, data using pieces.induct generalizing q with
  | case1 p first data hfits =>
    rw [pieces, if_pos hfits, pieces, if_pos (room_mod p q h ▸ hfits)]
  | case2 p first data hfits ih =>
    have hroom := room_mod p q h
    rw [pieces, if_neg hfits, pieces.eq_1 sum q, if_neg (hroom ▸ hfits), ← hroom]
    congr 1
    exact ih (Nat.ModEq.add_right (room p) (Nat.ModEq.add_right legacyHeaderSize h))

theorem writeRecord_mod (sum : Checksum) (data : Bytes) (h : p % blockSize = q % blockSize) :
    writeRecord sum p data = writeRecord sum q data := by
  have hpad := padding_mod p q h
  rw [writeRecord, writeRecord, hpad, pieces_mod (Nat.ModEq.add_right (padding q) h)]

theorem writeAll_mod (ds : List Bytes) (h : p % blockSize = q % blockSize) :
    writeAll sum p ds = writeAll sum q ds := by
  induction ds generalizing p q with
  | nil => rfl
  | cons data ds ih =>
    have hrec := writeRecord_mod sum data h
    rw [writeAll, writeAll, hrec]
    congr 1
    exact ih (Nat.ModEq.add_right _ h)

theorem writeAll_append (p : ℕ) (ds es : List Bytes) :
    writeAll sum p (ds ++ es) = writeAll sum p ds ++ writeAll sum (p + (writeAll sum p ds).length) es := by
  induction ds generalizing p with
  | nil => rfl
  | cons data ds ih =>
    rw [cons_append, writeAll, ih, writeAll, append_assoc, length_append, Nat.add_assoc]

theorem length_writeRecord_pos (p : ℕ) (data : Bytes) : 0 < (writeRecord sum p data).length := by
  obtain ⟨first, last, payload, tail, heq, -⟩ := startsWithChunk_pieces sum _ (padding_room p) true data
  rw [writeRecord, heq, length_append, length_append, length_chunk]
  omega

theorem placed_data (p : ℕ) (ds : List Bytes) : (placed sum p ds).map Prod.snd = ds := by
  induction ds generalizing p with
  | nil => rfl
  | cons data ds ih => rw [placed, map_cons, ih]

end

/-! ### From the start and from a record on -/

section
variable {sum : Checksum} {file : Bytes} {p : ℕ} {r : Reader}

theorem At.readLog_whole (h : At file p r) {ds : List Bytes} (hfile : file.drop p = writeAll sum p ds) :
    r.readLog sum = (placed sum p ds, none) := by
  obtain ⟨m, e, hlog, -, -, hall, hend⟩ := h.readLog_cut (z := 0) le_rfl
    (by rw [take_length, hfile, zeros, replicate_zero, append_nil]) (notCompleted_length ds p 0)
  have hm : ds.length ≤ m := hall _ le_rfl length_writeAll_take
  rw [hlog, hend rfl rfl, take_of_length_le hm]

/-- Seeking gives a reader of the file from the block on that stands at the offset's place in it. -/
theorem Reader.seekRecord_at {offset : ℕ} (r : Reader) (hle : offset ≤ file.length)
    (hchunk : StartsWithChunk sum (file.drop (blockStart offset))) :
    ∃ r', r.seekRecord sum file offset = .ok r' ∧ At (file.drop (blockStart offset)) (offset % blockSize) r' := by
  have hsize := blockSize_eq
  obtain ⟨first, last, payload, tail, hfile, hlen⟩ := hchunk
  have hat : At (file.drop (blockStart offset)) 0 (r.rewind file offset) :=
    ⟨rfl, by rw [Reader.rewind, Reader.nextBlock]; simp, fun _ => ⟨rfl, rfl⟩, nofun, le_rfl⟩
  have hzero : padding 0 = 0 := padding_eq_zero (Nat.zero_mod _)
  have hlong : 0 + padding 0 < (file.drop (blockStart offset)).length := by
    rw [hfile, length_append, length_chunk]
    omega
  obtain ⟨r1, b, hseek, hat1, hb, hroom⟩ := hat.seek_room sum false hlong
    (n := payload.length) (by rw [hzero, room, Nat.zero_mod, legacyHeaderSize]; omega)
  rw [hzero, Nat.add_zero] at hat1
  obtain ⟨-, hturn⟩ := hat1.turn_chunk (w := false) hb (chunkType_bounds first last)
    (fun h => absurd h Bool.false_ne_true) hroom hfile
  refine ⟨_, by rw [Reader.seekRecord, hseek, Reader.nextChunk_found hturn, ok_bind], ?_⟩
  have hblock : b = 0 := by
    have heq := hat1.eq_block hb
    by_contra hne
    have := Nat.mul_le_mul_right blockSize (Nat.pos_of_ne_zero hne)
    omega
  subst hblock
  refine ⟨?_, hat1.rest, fun hnone => ?_, hat1.buf, ?_⟩
  · simp only [Reader.offset, hb]
    omega
  · rw [hb] at hnone
    cases hnone
  · change offset % blockSize ≤ r1.buf.length
    have hmod := Nat.mod_lt offset (show 0 < blockSize by omega)
    have hle' := Nat.mod_le offset blockSize
    rw [hat1.buf 0 hb, Nat.zero_mul, drop_zero, length_take, length_drop, blockStart]
    omega

end

/-- Every list of payloads is read back as it was written, and from the offset before any of
them on exactly that payload and those after it are read, by a reader that has met no error. -/
theorem readLog_from_record (sum : Checksum) (logNum : Bytes) (ds : List Bytes) :
    (newReader (writeAll sum 0 ds) logNum).readLog sum = (placed sum 0 ds, none) ∧
      ((newReader (writeAll sum 0 ds) logNum).readLog sum).1.map Prod.snd = ds ∧
      ∀ k, k < ds.length → ∀ r : Reader, ∃ r',
        r.seekRecord sum (writeAll sum 0 ds) (writeAll sum 0 (ds.take k)).length = .ok r' ∧
          (r'.readLog sum).1.map Prod.snd = ds.drop k ∧ (r'.readLog sum).2 = none := by
  have hwhole : (newReader (writeAll sum 0 ds) logNum).readLog sum = (placed sum 0 ds, none) :=
    (at_newReader (writeAll sum 0 ds) logNum).readLog_whole (drop_zero ..)
  refine ⟨hwhole, by rw [hwhole, placed_data], fun k hk r => ?_⟩
  generalize hoffset : (writeAll sum 0 (ds.take k)).length = offset
  have hsplit : writeAll sum 0 ds = writeAll sum 0 (ds.take k) ++ writeAll sum offset (ds.drop k) := by
    rw [← hoffset, ← Nat.zero_add (writeAll sum 0 (ds.take k)).length, ← writeAll_append, take_append_drop]
  have hbefore : blockStart offset ≤ offset := Nat.sub_le _ _
  have hsum : blockStart offset + offset % blockSize = offset := Nat.sub_add_cancel (Nat.mod_le _ _)
  have hmore : offset < (writeAll sum 0 ds).length := by
    have hpos : 0 < (writeAll sum offset (ds.drop k)).length := by
      rw [drop_eq_getElem_cons hk, writeAll, length_append]
      exact Nat.add_pos_left (length_writeRecord_pos _ _) _
    rw [hsplit, length_append, hoffset]
    omega
  have hstart : blockStart offset % blockSize = 0 := by
    rw [blockStart, Nat.sub_mod_eq_zero_of_mod_eq (Nat.mod_mod _ _).symm]
  have hchunk : StartsWithChunk sum ((writeAll sum 0 ds).drop (blockStart offset)) :=
    startsWithChunk_writeAll hstart (Nat.zero_le _) (by omega)
  obtain ⟨r', hseek, hat⟩ := r.seekRecord_at hmore.le hchunk
  have hread : r'.readLog sum = (placed sum (offset % blockSize) (ds.drop k), none) := hat.readLog_whole (by
    rw [drop_drop, hsum, hsplit, drop_left' hoffset]
    exact writeAll_mod _ (Nat.mod_mod _ _).symm)
  exact ⟨r', hseek, by rw [hread, placed_data], by rw [hread]⟩

end Armada.Tan
