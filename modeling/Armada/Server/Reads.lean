import Armada.Fsm.Paging
import Armada.Server.Admission

/-! Range reads of a table with admitted keys and values. The loop of a range read adds up
the protobuf sizes of the entries of a page; an admitted key with an admitted value always
fits into a page. -/

namespace Armada.Server

open Ordered Keys Pebble Proto Program Fsm List

/-! ### Sizes -/

/-- `protohelpers.SizeOfVarint` of the generated code: a byte for seven bits. -/
def protoSizeOfVarint (x : ℕ) : ℕ := (Nat.size (x ||| 1) + 6) / 7

/-- `KeyValue.SizeVT`. -/
def sizeKeyValueVT (kv : KeyValue) : ℕ :=
  (if kv.key.length > 0 then 1 + kv.key.length + protoSizeOfVarint kv.key.length else 0) +
    if kv.value.length > 0 then 1 + kv.value.length + protoSizeOfVarint kv.value.length else 0

/-- What the entries of a page add to `ResponseOp_Range.SizeVT`. -/
def entriesSizeVT (kvs : List KeyValue) : ℕ :=
  (kvs.map fun kv => 1 + sizeKeyValueVT kv + protoSizeOfVarint (sizeKeyValueVT kv)).sum

variable {x n : ℕ} {kv : KeyValue}

theorem or_one_lt_iff : x ||| 1 < 2 ^ (n + 1) ↔ x < 2 ^ (n + 1) := by
  constructor
  · exact fun h => lt_of_le_of_lt Nat.left_le_or h
  · exact fun h => Nat.or_lt_two_pow h (Nat.one_lt_two_pow (by omega))

theorem protoSizeOfVarint_le_iff : protoSizeOfVarint x ≤ n + 1 ↔ x < 2 ^ (7 * (n + 1)) := by
  have hsize : protoSizeOfVarint x ≤ n + 1 ↔ Nat.size (x ||| 1) ≤ 7 * (n + 1) := by
    rw [protoSizeOfVarint]
    omega
  rw [hsize, Nat.size_le, show 7 * (n + 1) = 7 * n + 6 + 1 by ring, or_one_lt_iff]

theorem sizeOfVarintLoop_le (fuel x : ℕ) : sizeOfVarintLoop fuel x ≤ fuel + 1 := by
  induction fuel generalizing x with
  | zero => exact Nat.le_of_eq rfl
  | succ fuel ih =>
    rw [sizeOfVarintLoop]
    have := ih (x >>> 7)
    split <;> omega

theorem sizeOfVarintLoop_pos (fuel x : ℕ) : 0 < sizeOfVarintLoop fuel x := by
  cases fuel with
  | zero => exact Nat.one_pos
  | succ fuel =>
    rw [sizeOfVarintLoop]
    split <;> omega

theorem sizeOfVarintLoop_le_iff {fuel : ℕ} (hn : n < fuel) :
    sizeOfVarintLoop fuel x ≤ n + 1 ↔ x < 2 ^ (7 * (n + 1)) := by
  induction fuel generalizing x n with
  | zero => omega
  | succ fuel ih =>
    rw [sizeOfVarintLoop]
    have hpow : 2 ^ (7 * (n + 1)) = 2 ^ (7 * n) * 128 := by rw [Nat.mul_succ, pow_add]; rfl
    have hpos : 0 < 2 ^ (7 * n) := by positivity
    split
    · next hx =>
      cases n with
      | zero =>
        have := sizeOfVarintLoop_pos fuel (x >>> 7)
        omega
      | succ n =>
        have hshift : x >>> 7 < 2 ^ (7 * (n + 1)) ↔ x < 2 ^ (7 * (n + 1 + 1)) := by
          rw [Nat.shiftRight_eq_div_pow, Nat.div_lt_iff_lt_mul (by decide), hpow]
        rw [← hshift, ← ih (by omega)]
        omega
    · next hx => exact iff_of_true (by omega) (by omega)

theorem sizeOfVarint_eq (hx : x < 2 ^ 64) : sizeOfVarint x = protoSizeOfVarint x := by
  have hsmall : protoSizeOfVarint x ≤ 9 + 1 := protoSizeOfVarint_le_iff.mpr (lt_trans hx (by decide))
  have hloop := sizeOfVarintLoop_le 9 x
  have hagree : ∀ n < 9, sizeOfVarint x ≤ n + 1 ↔ protoSizeOfVarint x ≤ n + 1 := fun n hn => by
    rw [sizeOfVarint, sizeOfVarintLoop_le_iff hn, protoSizeOfVarint_le_iff]
  have hpos : 0 < sizeOfVarint x := sizeOfVarintLoop_pos 9 x
  have hpos' : 0 < protoSizeOfVarint x := by
    have : 0 < Nat.size (x ||| 1) := Nat.size_pos.mpr (lt_of_lt_of_le Nat.one_pos Nat.right_le_or)
    rw [protoSizeOfVarint]
    omega
  rw [sizeOfVarint] at *
  generalize sizeOfVarintLoop 9 x = a at *
  generalize protoSizeOfVarint x = b at *
  apply le_antisymm
  · by_cases hb : b ≤ 9
    · have := (hagree (b - 1) (by omega)).mpr (by omega)
      omega
    · omega
  · by_cases ha : a ≤ 9
    · have := (hagree (a - 1) (by omega)).mp (by omega)
      omega
    · omega

theorem sizeOfVarint_le (x : ℕ) : sizeOfVarint x ≤ 10 := sizeOfVarintLoop_le 9 x

theorem sizeRangeResponseKVEntry_eq (hkey : kv.key.length ≤ v2MaxUserKeyLen) (hvalue : kv.value.length ≤ maxValueLen) :
    sizeRangeResponseKVEntry kv.key.length kv.value.length =
    1 + sizeKeyValueVT kv + protoSizeOfVarint (sizeKeyValueVT kv) := by
  have hk := sizeOfVarint_le kv.key.length
  have hv := sizeOfVarint_le kv.value.length
  rw [v2MaxUserKeyLen] at hkey
  rw [maxValueLen] at hvalue
  have hkv : sizeKeyValueVT kv = (if kv.key.length > 0 then 1 + kv.key.length + sizeOfVarint kv.key.length else 0) +
      if kv.value.length > 0 then 1 + kv.value.length + sizeOfVarint kv.value.length else 0 := by
    rw [sizeKeyValueVT, sizeOfVarint_eq (lt_of_le_of_lt hkey (by decide)),
      sizeOfVarint_eq (lt_of_le_of_lt hvalue (by decide))]
  have hlt : sizeKeyValueVT kv < 2 ^ 64 := by
    rw [hkv]
    split_ifs <;> omega
  rw [sizeRangeResponseKVEntry, ← sizeOfVarint_eq hlt, hkv]

theorem sizeRangeResponseKVEntry_lt {keyLen valueLen : ℕ} (hkey : keyLen ≤ v2MaxUserKeyLen)
    (hvalue : valueLen ≤ maxValueLen) : sizeRangeResponseKVEntry keyLen valueLen < maxRangeSize := by
  have hk := sizeOfVarint_le keyLen
  have hv := sizeOfVarint_le valueLen
  rw [v2MaxUserKeyLen] at hkey
  rw [maxValueLen] at hvalue
  rw [sizeRangeResponseKVEntry, maxRangeSize]
  have hs := sizeOfVarint_le ((if keyLen > 0 then 1 + keyLen + sizeOfVarint keyLen else 0) +
    if valueLen > 0 then 1 + valueLen + sizeOfVarint valueLen else 0)
  split_ifs at hs ⊢ <;> omega

/-! ### Pages -/

/-- A pair of an admitted key and an admitted value. -/
def Fits (kv : KeyValue) : Prop := kv.key.length ≤ v2MaxUserKeyLen ∧ kv.value.length ≤ maxValueLen

theorem size_lt (mode : FillMode) (h : Fits kv) : mode.size kv.key kv.value < maxRangeSize := by
  cases mode with
  | kvPair => exact sizeRangeResponseKVEntry_lt h.1 h.2
  | keyOnly => exact sizeRangeResponseKVEntry_lt h.1 (Nat.zero_le _)
  | countOnly => exact Nat.pos_of_ne_zero (by decide)

theorem entriesSizeVT_entries (mode : FillMode) {chunk : List KeyValue} (h : ∀ kv ∈ chunk, Fits kv) :
    entriesSizeVT (mode.entries chunk) = mode.chunkSize chunk := by
  cases mode with
  | countOnly => simp [entriesSizeVT, FillMode.entries, FillMode.chunkSize, FillMode.size]
  | kvPair =>
    rw [entriesSizeVT, FillMode.entries, FillMode.chunkSize]
    exact congrArg List.sum (map_congr_left fun kv hkv =>
      (sizeRangeResponseKVEntry_eq (h kv hkv).1 (h kv hkv).2).symm)
  | keyOnly =>
    rw [entriesSizeVT, FillMode.entries, FillMode.chunkSize, map_map]
    refine congrArg List.sum (map_congr_left fun kv hkv => ?_)
    have hkey : Fits ⟨kv.key, []⟩ := ⟨(h kv hkv).1, Nat.zero_le _⟩
    exact (sizeRangeResponseKVEntry_eq hkey.1 hkey.2).symm

theorem entries_flatten (mode : FillMode) (chunks : List (List KeyValue)) :
    chunks.flatMap mode.entries = mode.entries chunks.flatten := by
  cases mode with
  | countOnly => simp [FillMode.entries]
  | kvPair => exact flatMap_id'
  | keyOnly => exact map_flatten.symm

theorem entries_append (mode : FillMode) (a b : List KeyValue) :
    mode.entries a ++ mode.entries b = mode.entries (a ++ b) := by
  cases mode <;> simp [FillMode.entries]

theorem fits_of_mem_liveScan {m : DB} (hm : WellFormed m) (hsize : Bounded m) {low high : Bytes}
    (h : kv ∈ liveScan m low high) : Fits kv := by
  obtain ⟨-, hlive⟩ := (mem_liveScan hm kv).mp h
  refine ⟨(admitted_of_live hm (by simp [hlive])).length_le, ?_⟩
  cases hlatest : latest m kv.key with
  | none => simp [hlatest, live] at hlive
  | some v =>
    rw [hlatest, live, Option.bind_some] at hlive
    split at hlive
    · cases hlive
    · rw [← Option.some.inj hlive]
      exact hsize kv.key v.1 v.2 ((latest_eq_iff hm.nullFree).mp hlatest).1

/-- The live pairs of a range up to a limit. -/
def limited (limit : ℤ) (pairs : List KeyValue) : List KeyValue :=
  if 0 < limit then pairs.take limit.toNat else pairs

/-- The pages of a read hold the live pairs of its range, in order and up to its limit. Each
counts its entries, only the last may be empty, and the entries of each fit into a response. -/
structure ReturnsLive (m : DB) (req : RangeOp) (pages : List RangeResponse) (pairs : List KeyValue) : Prop where
  ascending : pairs.Pairwise fun a b => a.key < b.key
  live : ∀ kv, kv ∈ pairs ↔
    InRange req.key (req.rangeEnd.getD []) kv.key ∧ live (latest m kv.key) = some kv.value
  entries : pages.flatMap RangeResponse.kvs = (iterFuncsFromReq req).entries (limited req.limit pairs)
  counted : (pages.map RangeResponse.count).sum = (limited req.limit pairs).length
  count : iterFuncsFromReq req ≠ .countOnly → ∀ page ∈ pages, page.count = page.kvs.length
  nonempty : ∀ page ∈ pages.dropLast, page.count ≠ 0
  small : ∀ page ∈ pages, entriesSizeVT page.kvs < maxRangeSize

/-- A range read returns the live pairs. -/
theorem iterate_returnsLive (m : DB) (hm : WellFormed m) (hsize : Bounded m) (req : RangeOp)
    (hlow : IsBound req.key) (hhigh : IsBound (req.rangeEnd.getD [])) :
    ∃ pages pairs, iterate m req = .ok pages ∧ ReturnsLive m req pages pairs := by
  obtain ⟨chunks, last, hpages, hchunked⟩ := iterate_chunked hm hlow hhigh
  generalize hmode : iterFuncsFromReq req = mode at *
  generalize hlive : liveScan m req.key (req.rangeEnd.getD []) = pairs at *
  have hcut : cutAt req.limit 0 pairs = limited req.limit pairs := by
    simp [cutAt, limited]
  have hfits : ∀ kv ∈ cutAt req.limit 0 pairs, Fits kv := fun kv hkv => by
    obtain ⟨rest, heq, -⟩ := cutAt_append req.limit pairs
    have hlimited : kv ∈ liveScan m req.key (req.rangeEnd.getD []) := by
      rw [hlive, heq]
      exact mem_append_left _ hkv
    exact fits_of_mem_liveScan hm hsize hlimited
  obtain ⟨hnonempty, hbelow⟩ := hchunked.fits fun kv hkv => size_lt mode (hfits kv hkv)
  refine ⟨_, pairs, hpages, ?_, ?_, ?_, ?_, ?_, ?_, ?_⟩
  · rw [← hlive]
    exact liveScan_sorted hm _ _
  · rw [← hlive]
    exact mem_liveScan hm
  · rw [hmode, ← hcut, ← hchunked.taken, flatMap_append, flatMap_map]
    change chunks.flatMap mode.entries ++ (mode.entries last ++ []) = _
    rw [entries_flatten, append_nil, entries_append]
  · rw [← hcut, ← hchunked.taken, map_append, sum_append, count_pages, length_append]
    rfl
  · intro hne page hmemp
    obtain ⟨more, c, -, rfl⟩ := page_of_mem hmemp
    rw [hmode] at hne
    cases mode <;> simp [FillMode.page, FillMode.entries] at hne ⊢
  · intro page hmemp
    rw [dropLast_concat] at hmemp
    obtain ⟨c, hc, rfl⟩ := mem_map.mp hmemp
    exact fun h => hnonempty c hc (eq_nil_of_length_eq_zero h)
  · intro page hmemp
    obtain ⟨more, c, hc, rfl⟩ := page_of_mem hmemp
    change entriesSizeVT (mode.entries c) < maxRangeSize
    rw [entriesSizeVT_entries mode fun kv hkv => hfits kv (hchunked.mem hc hkv)]
    exact hbelow c hc

theorem bounded_empty : Bounded ∅ := by
  intro k s x hx
  simp [ver] at hx

theorem iterate_returnsLive_twoKeys :
    ∃ pages pairs, iterate twoKeys (firstKeys 1) = .ok pages ∧ ReturnsLive twoKeys (firstKeys 1) pages pairs :=
  iterate_returnsLive twoKeys twoKeys_wellFormed
    ((bounded_empty.insert _ 1 (by decide)).insert _ 2 (by decide)) (firstKeys 1) (by decide) (by decide)

end Armada.Server
