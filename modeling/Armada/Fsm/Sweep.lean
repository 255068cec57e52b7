import Armada.Fsm.Effect
import Armada.Fsm.Gc

/-! What a sweep removes. Of every user key it sees, a sweep at horizon `H` finds the
newest version below `H`; it removes the versions older than that one, and that one too
when it is a tombstone or the sweep has seen a version of the key at or above `H`. -/

namespace Armada.Fsm

open Ordered Keys Pebble Proto Program List

/-! ### The bounds of a removal -/

theorem storedSeqno_eq (s : UInt64) : storedSeqno s = bigEndian (maxUint64 - s) := by
  apply beNat_inj (by simp)
  have hlen := beNat_complement (bigEndian s)
  rw [bigEndian_length, beNat_bigEndian] at hlen
  have hs := s.toNat_lt
  have hle : s ≤ maxUint64 := by
    rw [UInt64.le_iff_toNat_le]
    simp only [maxUint64, UInt64.reduceToNat]
    omega
  rw [beNat_bigEndian, UInt64.toNat_sub_of_le _ _ hle, storedSeqno]
  simp only [maxUint64, UInt64.reduceToNat]
  omega

theorem incrementStoredSeqno_encodeUserKey (key : Bytes) (s : UInt64) :
    incrementStoredSeqno (encodeUserKey key s) = encodeUserKey key (s - 1) := by
  have hdrop : (encodeUserKey key s).drop ((encodeUserKey key s).length - v2SeqLen) = storedSeqno s := by
    rw [length_encodeUserKey, show key.length + 14 - v2SeqLen = key.length + 6 by simp [v2SeqLen],
      show encodeUserKey key s = (userHeader ++ key ++ [0]) ++ storedSeqno s by simp [encodeUserKey],
      drop_left' (by simp [userHeader])]
  have hnext : maxUint64 - s + 1 = maxUint64 - (s - 1) := by grind
  simp only [incrementStoredSeqno, hdrop, take_encodeUserKey]
  rw [storedSeqno_eq s, ofBigEndian_bigEndian, hnext, ← storedSeqno_eq]
  simp [encodeUserKey]

/-- The first key after all versions of a user key. -/
def keyUpper (key : Bytes) : Bytes := userHeader ++ (key ++ [1])

theorem gcPrefixUpper_encodeUserKey (key : Bytes) (s : UInt64) :
    gcPrefixUpper ((encodeUserKey key s).take ((encodeUserKey key s).length - v2SeqLen)) = keyUpper key := by
  rw [take_encodeUserKey, gcPrefixUpper, dropLast_concat, keyUpper, append_assoc]

variable {a b k : Bytes} {r l : List Version} {v : Version} {H : UInt64}

theorem separated_lt_upper_iff (ha : (0 : UInt8) ∉ a) (hb : (0 : UInt8) ∉ b) (y : Bytes) :
    b ++ 0 :: y < a ++ [1] ↔ b ≤ a := by
  induction a generalizing b with
  | nil =>
    cases b with
    | nil => simp [cons_lt_cons_iff]
    | cons c b =>
      have hc := pos_of_noNull hb c (by simp)
      rw [cons_append, nil_append, cons_lt_cons_iff]
      constructor
      · rintro (h | h)
        · rw [UInt8.lt_iff_toNat_lt] at h hc
          simp only [UInt8.toNat_one, UInt8.toNat_zero] at h hc
          omega
        · exact absurd h.2 (by simp)
      · exact fun h => absurd h (not_le.mpr (nil_lt_cons c b))
  | cons d a ih =>
    cases b with
    | nil =>
      have hd := pos_of_noNull ha d (by simp)
      exact iff_of_true (cons_lt_cons_iff.mpr (Or.inl hd)) (nil_lt_cons d a).le
    | cons c b =>
      simp only [mem_cons, not_or] at ha hb
      rw [cons_append, cons_append, cons_lt_cons_iff, ih ha.2 hb.2]
      constructor
      · rintro (h | ⟨rfl, h⟩)
        · exact le_of_lt (cons_lt_cons_iff.mpr (Or.inl h))
        · rcases h.lt_or_eq with h | rfl
          · exact le_of_lt (cons_lt_cons_iff.mpr (Or.inr ⟨rfl, h⟩))
          · exact le_rfl
      · intro h
        rcases h.lt_or_eq with h | h
        · rcases cons_lt_cons_iff.mp h with h | h
          · exact Or.inl h
          · exact Or.inr ⟨h.1, h.2.le⟩
        · obtain ⟨rfl, rfl⟩ := List.cons.inj h
          exact Or.inr ⟨rfl, le_rfl⟩

/-- A removal from a version on reaches the older versions of its user key and nothing
else, also where one key is a prefix of another. -/
theorem mem_removal_iff {key : Bytes} (hkey : (0 : UInt8) ∉ key) (hk : (0 : UInt8) ∉ k) (t s : UInt64) :
    (encodeUserKey key t ≤ encodeUserKey k s ∧ encodeUserKey k s < keyUpper key) ↔ k = key ∧ s ≤ t := by
  rw [← not_lt, encodeUserKey_lt_iff hk hkey, keyUpper, encodeUserKey, append_lt_append_iff,
    separated_lt_upper_iff hkey hk, not_or, not_lt, not_and, not_lt]
  constructor
  · rintro ⟨⟨hle, hs⟩, hge⟩
    have heq := le_antisymm hge hle
    exact ⟨heq, hs heq⟩
  · rintro ⟨rfl, hs⟩
    exact ⟨⟨le_rfl, fun _ => hs⟩, le_rfl⟩

/-! ### The loop -/

/-- The step of a sweep. -/
def gcStep (H : UInt64) : List Version → List Version
  | [] => []
  | v :: r => if v.seqno < H then skipGroup Version.key (v :: r) else r

theorem gcStep_suffix (H : UInt64) (r : List Version) : gcStep H r <:+ r := by
  cases r with
  | nil => exact suffix_refl []
  | cons v r =>
    rw [gcStep]
    split
    · exact skipGroup_suffix _
    · exact suffix_cons v r

theorem gcStep_length (H : UInt64) (hne : nonempty r = true) : (gcStep H r).length < r.length := by
  cases r with
  | nil => simp [nonempty] at hne
  | cons v r =>
    rw [gcStep, length_cons]
    split
    · exact Nat.lt_succ_of_le (skipGroup_length Version.key v r)
    · omega

theorem gcAdvance_records (H : UInt64) (hl : l.Pairwise Version.Before)
    (hnull : ∀ v ∈ l, (0 : UInt8) ∉ v.key) (hr : r <:+ l) (hne : nonempty r = true) :
    gcAdvance H ⟨l.map Version.record, r.map Version.record⟩ =
    ⟨l.map Version.record, (gcStep H r).map Version.record⟩ := by
  cases r with
  | nil => simp [nonempty] at hne
  | cons v r =>
    have hdec : decodeBytes v.record.1 = .ok ⟨v2, typeUser, v.key, v.seqno⟩ :=
      decodeBytes_encodeUserKey v.key v.seqno
    rw [gcStep, gcAdvance, map_cons]
    dsimp only
    rw [hdec]
    dsimp only
    by_cases hv : v.seqno < H
    · have hupper : l.filter (fun w => v.key < w.key) =
          l.filter (fun w => !decide (w.record.1 < keyUpper v.key)) := by
        apply filter_congr
        intro w hw
        have hiff : w.record.1 < keyUpper v.key ↔ w.key ≤ v.key := by
          rw [Version.record, encodeUserKey, keyUpper, append_lt_append_iff]
          exact separated_lt_upper_iff (hnull v (hr.subset (by simp))) (hnull w hw) _
        rw [Bool.eq_iff_iff, Bool.not_eq_true', decide_eq_false_iff_not, hiff, not_le, decide_eq_true_iff]
      rw [if_pos ⟨rfl, hv⟩, if_pos hv, skipGroup_eq_filter hl hr, hupper, ← seekGE_records hl hnull,
        Version.record, gcPrefixUpper_encodeUserKey]
      rfl
    · rw [if_neg fun h => hv h.2, if_neg hv]
      rfl

/-- The newest version below the horizon of every user key. -/
def firstOld (H : UInt64) (l : List Version) : List Version :=
  firsts Version.key (l.filter fun v => v.seqno < H)

/-- Whether a version of the key at or above the horizon is there. -/
def hasAbove (H : UInt64) (l : List Version) (key : Bytes) : Bool :=
  l.any fun w => w.key = key && H ≤ w.seqno

/-- What a sweep removes at the newest version below the horizon. -/
def gcRange (above : Bool) (v : Version) : Bytes × Bytes :=
  (encodeUserKey v.key (if above || isTombstone v.value then v.seqno else v.seqno - 1), keyUpper v.key)

/-- The prefix that all versions of a user key share. -/
def versionPrefix (key : Bytes) : Bytes := userHeader ++ key ++ [0]

theorem versionPrefix_inj : versionPrefix a = versionPrefix b ↔ a = b :=
  ⟨fun h => append_cancel_left (append_cancel_right h), fun h => h ▸ rfl⟩

/-- Whether the loop has passed a version of the key at or above the horizon. -/
def passedAbove (lastPrefix : Bytes) (hasLiveAbove : Bool) (key : Bytes) : Bool :=
  if lastPrefix = versionPrefix key then hasLiveAbove else false

theorem gcRanges_cons (H : UInt64) (v : Version) (r : List Version) (stops : List (List (Bytes × Bytes)))
    (lastPrefix : Bytes) (hasLiveAbove : Bool) :
    gcRanges H ((v :: r).map Version.record :: stops) lastPrefix hasLiveAbove =
      let above := passedAbove lastPrefix hasLiveAbove v.key
      if H ≤ v.seqno then gcRanges H stops (versionPrefix v.key) true
      else (gcRanges H stops (versionPrefix v.key) above).map (gcRange above v :: ·) := by
  have hdec : decodeKey (encodeUserKey v.key v.seqno) = _ := decodeKey_record v
  have htake : (encodeUserKey v.key v.seqno).take ((encodeUserKey v.key v.seqno).length - v2SeqLen) =
      versionPrefix v.key := take_encodeUserKey v.key v.seqno
  have hupper : gcPrefixUpper (versionPrefix v.key) = keyUpper v.key := by
    rw [← htake, gcPrefixUpper_encodeUserKey]
  have hrange : ∀ above : Bool, (if (above || isTombstone v.value) = true then encodeUserKey v.key v.seqno
      else incrementStoredSeqno (encodeUserKey v.key v.seqno), keyUpper v.key) = gcRange above v := by
    intro above
    rw [gcRange, incrementStoredSeqno_encodeUserKey]
    split <;> rfl
  change gcRanges H (((encodeUserKey v.key v.seqno, v.value) :: r.map Version.record) :: stops) _ _ = _
  rw [gcRanges, hdec, ok_bind]
  simp only [htake, ne_eq, not_true_eq_false, if_false, ge_iff_le, hupper, hrange]
  rw [show (if lastPrefix = versionPrefix v.key then hasLiveAbove else false) =
    passedAbove lastPrefix hasLiveAbove v.key from rfl]
  split
  · rfl
  · cases gcRanges H stops (versionPrefix v.key) (passedAbove lastPrefix hasLiveAbove v.key) <;> rfl

theorem mem_of_mem_firstOld (hl : l.Pairwise Version.Before) (hv : v ∈ firstOld H l) : v ∈ l := by
  have hle := (hl.filter fun v => decide (v.seqno < H)).imp fun h => h.key_le
  exact (mem_filter.mp (mem_of_find?_eq_some ((mem_firsts Version.key hle v).mp hv))).1

theorem firstOld_cons_of_le (hv : H ≤ v.seqno) (r : List Version) : firstOld H (v :: r) = firstOld H r := by
  rw [firstOld, filter_cons_of_neg (by simpa using hv), firstOld]

theorem firstOld_cons_of_lt (hl : (v :: r).Pairwise Version.Before) (hv : v.seqno < H) :
    firstOld H (v :: r) = v :: firstOld H (skipGroup Version.key (v :: r)) := by
  obtain ⟨hhead, htail⟩ := pairwise_cons.mp hl
  rw [firstOld, filter_cons_of_pos (by simpa using hv), firsts_cons, firstOld, skipGroup,
    dropWhile_eq_filter Version.key (htail.imp fun h => h.key_le) fun w hw => (hhead w hw).key_le,
    dropWhile_eq_filter Version.key ((htail.filter _).imp fun h => h.key_le)
      fun w hw => (hhead w (mem_filter.mp hw).1).key_le, filter_filter, filter_filter]
  congr 2
  apply filter_congr
  intro w _
  exact Bool.and_comm _ _

theorem hasAbove_head (hl : (v :: r).Pairwise Version.Before) (hv : v.seqno < H) :
    hasAbove H (v :: r) v.key = false := by
  rw [hasAbove, any_eq_false]
  intro w hw
  simp only [Bool.and_eq_true, decide_eq_true_eq, not_and, not_le]
  intro hkey
  rcases mem_cons.mp hw with rfl | hw
  · exact hv
  · rcases (pairwise_cons.mp hl).1 w hw with h | h
    · exact absurd h (by rw [hkey]; exact lt_irrefl _)
    · exact h.2.trans hv

/-- The ranges a sweep deletes, one for every user key with a version below the
horizon. -/
theorem gcRanges_records (H : UInt64) (hl : l.Pairwise Version.Before) {lastPrefix : Bytes} {hasLiveAbove : Bool}
    (hlast : ∀ k, lastPrefix = versionPrefix k → ∀ v ∈ l, k ≤ v.key) :
    gcRanges H ((visits nonempty (gcStep H) l.length l).map (List.map Version.record)) lastPrefix hasLiveAbove =
    .ok ((firstOld H l).map fun v => gcRange (passedAbove lastPrefix hasLiveAbove v.key || hasAbove H l v.key) v) := by
  induction hn : l.length using Nat.strong_induction_on generalizing l lastPrefix hasLiveAbove with
  | _ n ih =>
    cases l with
    | nil =>
      rw [← hn]
      rfl
    | cons v r =>
      have hlen := gcStep_length H (r := v :: r) rfl
      have hsorted := hl.sublist (gcStep_suffix H (v :: r)).sublist
      obtain ⟨hhead, htail⟩ := pairwise_cons.mp hl
      have hnext : ∀ k, versionPrefix v.key = versionPrefix k → ∀ w ∈ gcStep H (v :: r), k ≤ w.key := by
        intro k hk w hw
        rw [← versionPrefix_inj.mp hk]
        rcases mem_cons.mp ((gcStep_suffix H (v :: r)).subset hw) with rfl | hw
        · exact le_rfl
        · exact (hhead w hw).key_le
      -- what was passed before `v` does not concern the keys behind it
      have hpassed : ∀ u ∈ v :: r, u.key ≠ v.key → passedAbove lastPrefix hasLiveAbove u.key = false := by
        intro u hu hne
        refine if_neg fun hlp => hne (le_antisymm (hlast _ hlp v (by simp)) ?_)
        rcases mem_cons.mp hu with rfl | hu
        · exact le_rfl
        · exact (hhead u hu).key_le
      rw [← hn, visits_shrinking (fun l hl => gcStep_length H hl), map_cons, gcRanges_cons]
      dsimp only
      rw [ih _ (hn ▸ hlen) hsorted hnext rfl, ih _ (hn ▸ hlen) hsorted hnext rfl]
      by_cases hv : H ≤ v.seqno
      · rw [if_pos hv, gcStep, if_neg (not_lt.mpr hv), firstOld_cons_of_le hv]
        congr 1
        apply map_congr_left
        intro u hu
        have hur := mem_of_mem_firstOld htail hu
        congr 1
        by_cases hkey : u.key = v.key
        · simp [passedAbove, hasAbove, hkey, hv]
        · rw [hpassed u (by simp [hur]) hkey, passedAbove, if_neg (fun h => hkey (versionPrefix_inj.mp h).symm)]
          simp [hasAbove, Ne.symm hkey]
      · have hlt := not_le.mp hv
        rw [if_neg hv, gcStep, if_pos hlt, firstOld_cons_of_lt hl hlt, map_cons, hasAbove_head hl hlt, Bool.or_false]
        refine congrArg (fun rs => Except.ok (_ :: rs)) ?_
        apply map_congr_left
        intro u hu
        have hskip := skipGroup_eq_filter hl (suffix_refl _)
        rw [hskip] at hu
        have hu := mem_filter.mp (mem_of_mem_firstOld (hl.filter _) hu)
        have hgt : v.key < u.key := by simpa using hu.2
        congr 1
        rw [hpassed u hu.1 hgt.ne', passedAbove, if_neg (fun h => hgt.ne (versionPrefix_inj.mp h)), hskip,
          hasAbove, hasAbove, any_filter]
        congr 1
        apply any_congr rfl
        intro w
        by_cases hw : w.key = u.key
        · simp [hw, hgt]
        · simp [hw]

theorem mem_firstOld (hl : l.Pairwise Version.Before) (v : Version) : v ∈ firstOld H l ↔
    v ∈ l ∧ v.seqno < H ∧ ∀ w ∈ l, w.key = v.key → w.seqno < H → w.seqno ≤ v.seqno := by
  have hold := hl.filter fun v => decide (v.seqno < H)
  rw [firstOld, mem_firsts Version.key (hold.imp fun h => h.key_le), find?_eq_newest hold v.key (by simp)]
  simp only [mem_filter, decide_eq_true_eq, true_and]
  constructor
  · rintro ⟨⟨hv, hlt⟩, hmax⟩
    exact ⟨hv, hlt, fun w hw hkey hw' => hmax w ⟨hw, hw'⟩ hkey⟩
  · rintro ⟨hv, hlt, hmax⟩
    exact ⟨⟨hv, hlt⟩, fun w hw hkey => hmax w hw.1 hkey hw.2⟩

theorem exists_firstOld (hl : l.Pairwise Version.Before)
    (hv : v ∈ l) (hlt : v.seqno < H) : ∃ w ∈ firstOld H l, w.key = v.key := by
  have hold := hl.filter fun v => decide (v.seqno < H)
  have hmem : v ∈ l.filter fun v => decide (v.seqno < H) := mem_filter.mpr ⟨hv, by simpa using hlt⟩
  have hfound : ((l.filter fun v => decide (v.seqno < H)).find? fun w => w.key = v.key).isSome := by
    rw [List.find?_isSome]
    exact ⟨v, hmem, by simp⟩
  obtain ⟨w, hw⟩ := Option.isSome_iff_exists.mp hfound
  have hkey : w.key = v.key := by simpa using List.find?_some hw
  rw [find?_eq_newest hold v.key (by simp)] at hw
  refine ⟨w, ?_, hkey⟩
  rw [firstOld, mem_firsts Version.key (hold.imp fun h => h.key_le), find?_eq_newest hold w.key (by simp)]
  exact ⟨hw.1, rfl, fun u hu hukey => hw.2.2 u hu (hukey.trans hkey)⟩

/-! ### The database afterwards -/

/-- The versions a sweep of the snapshot sees. -/
def visible (hides : Bytes → Bool) (snap : DB) : List Version :=
  (versions snap).filter fun v =>
    (iterOptionsForBounds wildcard wildcard).within v.record.1 && !hides v.record.1

/-- A sweep that sees the versions `l` removes the version of `k` with number `s`. -/
def Removes (H : UInt64) (l : List Version) (k : Bytes) (s : UInt64) : Prop :=
  ∃ v ∈ firstOld H l, v.key = k ∧ s ≤ v.seqno ∧
    (s = v.seqno → hasAbove H l k = true ∨ isTombstone v.value = true)

/-- The versions in `removed` are gone, and nothing else has changed. -/
structure Without (removed : Bytes → UInt64 → Prop) (db db' : DB) : Prop where
  nullFree : NullFree db'
  gone : ∀ k s, removed k s → ver db' k s = none
  kept : ∀ k s, ¬ removed k s → ver db' k s = ver db k s
  system : ∀ p ∈ systemKeys, db'[p]? = db[p]?

theorem Without.eq_none {removed : Bytes → UInt64 → Prop} {db db' : DB} (h : Without removed db db')
    {s : UInt64} (hnone : ver db k s = none) : ver db' k s = none := by
  by_cases hr : removed k s
  · exact h.gone k s hr
  · rw [h.kept k s hr, hnone]

theorem gcIter_eq {snap : DB} (hsnap : NullFree snap) (hides : Bytes → Bool) :
    gcIter hides snap = ⟨(visible hides snap).map Version.record, []⟩ := by
  have hiter := newIter_versions hsnap (o := iterOptionsForBounds wildcard wildcard)
    fun p => within_header
  have hopts : (⟨some minEncodedUserKey, some (incrementRightmostByte maxEncodedUserKey)⟩ : IterOptions) =
      iterOptionsForBounds wildcard wildcard := rfl
  rw [gcIter, hopts, hiter]
  simp only [filter_map, visible]
  rw [filter_filter]
  congr 3
  funext v
  exact Bool.and_comm _ _

theorem gcRange_iff (hv : (0 : UInt8) ∉ v.key) (hpos : 1 ≤ v.seqno) (above : Bool) (hk : (0 : UInt8) ∉ k) (s : UInt64) :
    ((gcRange above v).1 ≤ encodeUserKey k s ∧ encodeUserKey k s < (gcRange above v).2) ↔
    v.key = k ∧ s ≤ v.seqno ∧ (s = v.seqno → above = true ∨ isTombstone v.value = true) := by
  rw [gcRange, mem_removal_iff hv hk, ← Bool.or_eq_true]
  have hpred : s ≤ v.seqno - 1 ↔ s < v.seqno := by
    rw [UInt64.le_iff_toNat_le] at hpos
    rw [UInt64.le_iff_toNat_le, UInt64.lt_iff_toNat_lt, UInt64.toNat_sub_of_le _ _ hpos]
    simp only [UInt64.toNat_one] at hpos ⊢
    omega
  rw [eq_comm (a := k)]
  apply and_congr_right
  intro _
  cases above || isTombstone v.value with
  | true => simp
  | false =>
    rw [if_neg (by simp), hpred, lt_iff_le_and_ne]
    simp

section
variable {snap : DB} (hsnap : NullFree snap) (hides : Bytes → Bool)
include hsnap

theorem visible_sorted : (visible hides snap).Pairwise Version.Before := (versions_sorted hsnap).filter _

theorem noNull_of_mem_visible {v : Version} (hv : v ∈ visible hides snap) : (0 : UInt8) ∉ v.key :=
  noNull_of_mem_versions hsnap (mem_filter.mp hv).1

theorem gcRanges_eq (H : UInt64) : gcRanges H ((gcIter hides snap).stops (gcAdvance H)) [] false =
    .ok ((firstOld H (visible hides snap)).map fun v => gcRange (hasAbove H (visible hides snap) v.key) v) := by
  have hsorted := visible_sorted hsnap hides
  have hstops : (⟨(visible hides snap).map Version.record, []⟩ : Iterator).stops (gcAdvance H) = _ :=
    stops_records fun r hr hne => ⟨(gcStep_suffix H r).trans hr,
      gcAdvance_records H hsorted (fun v => noNull_of_mem_visible hsnap hides) hr hne⟩
  have hfirst : ∀ k, ([] : Bytes) = versionPrefix k → ∀ v ∈ visible hides snap, k ≤ v.key := by
    intro k hk
    simp [versionPrefix, userHeader] at hk
  rw [gcIter_eq hsnap, hstops, gcRanges_records H hsorted hfirst]
  simp [passedAbove]

theorem mem_gcRange_iff (hpos : ∀ v ∈ versions snap, 1 ≤ v.seqno) (H : UInt64) {k : Bytes}
    (hk : (0 : UInt8) ∉ k) (s : UInt64) :
    (∃ r ∈ (firstOld H (visible hides snap)).map fun v => gcRange (hasAbove H (visible hides snap) v.key) v,
    r.1 ≤ encodeUserKey k s ∧ encodeUserKey k s < r.2) ↔ Removes H (visible hides snap) k s := by
  simp only [mem_map, exists_exists_and_eq_and]
  apply exists_congr
  intro v
  apply and_congr_right
  intro hv
  have hmem := mem_of_mem_firstOld (visible_sorted hsnap hides) hv
  rw [gcRange_iff (noNull_of_mem_visible hsnap hides hmem) (hpos v (mem_filter.mp hmem).1) _ hk]
  apply and_congr_right
  rintro rfl
  exact Iff.rfl

theorem runGC_removes (hpos : ∀ v ∈ versions snap, 1 ≤ v.seqno) {db : DB} (hdb : NullFree db)
    (H : UInt64) : ∃ db', runGC hides snap db H = .ok db' ∧ Without (Removes H (visible hides snap)) db db' := by
  rcases eq_or_ne H 0 with rfl | hH
  · have hnone : ∀ k s, ¬ Removes 0 (visible hides snap) k s := by
      rintro k s ⟨v, hv, -⟩
      rw [mem_firstOld (visible_sorted hsnap hides)] at hv
      exact absurd hv.2.1 (by simp [UInt64.lt_iff_toNat_lt])
    exact ⟨db, rfl, hdb, fun k s h => absurd h (hnone k s), fun _ _ _ => rfl, fun _ _ => rfl⟩
  · refine ⟨_, by rw [runGC, if_neg hH, gcRanges_eq hsnap]; rfl, ?_⟩
    have hget := OrdMap.getElem?_foldl_deleteRange ((firstOld H (visible hides snap)).map fun v =>
      gcRange (hasAbove H (visible hides snap) v.key) v) db
    have hnull : NullFree (((firstOld H (visible hides snap)).map fun v =>
        gcRange (hasAbove H (visible hides snap) v.key) v).foldl
          (fun m r => OrdMap.deleteRange m r.1 r.2) db) := by
      intro p x hp
      rw [hget] at hp
      split at hp
      · cases hp
      · exact hdb p x hp
    refine ⟨hnull, fun k s h => ?_, fun k s h => ?_, fun p hp => ?_⟩
    · obtain ⟨v, hv, rfl, -⟩ := id h
      have hk := noNull_of_mem_visible hsnap hides (mem_of_mem_firstOld (visible_sorted hsnap hides) hv)
      exact (hget _).trans (if_pos ((mem_gcRange_iff hsnap hides hpos H hk s).mpr h))
    · by_cases hk : (0 : UInt8) ∈ k
      · rw [ver_eq_none hdb hk, ver_eq_none hnull hk]
      · exact (hget _).trans (if_neg fun hr => h ((mem_gcRange_iff hsnap hides hpos H hk s).mp hr))
    · refine (hget p).trans (if_neg ?_)
      rintro ⟨r, hr, hle, hlt⟩
      obtain ⟨v, hv, rfl⟩ := mem_map.mp hr
      exact not_header_of_mem_systemKeys hp (prefix_of_between (p := userHeader) hle hlt)

end

end Armada.Fsm
