import Armada.Fsm.Scan

/-! Range reads and range compares. A range read fills its pages with the live pairs of the
range; only the flag that tells whether more follows looks at the versions behind them. A range
compare steps through the versions of a live key down to the first tombstone, so it may see old
values. -/

namespace Armada.Fsm

open Ordered Keys Pebble Proto Program List

/-! ### Range reads -/

/-- The pages of a list of live pairs, with `more` to report at the limit. -/
def fillPages (mode : FillMode) (limit : ℤ) (more : Bool) :
    List KeyValue → ℕ → ℕ → RangeResponse → List RangeResponse
  | [], _, _, response => [response]
  | kv :: live, i, responseSize, response =>
    if (i : ℤ) = limit ∧ limit ≠ 0 then [{ response with more := more }]
    else
      let entrySize := mode.size kv.key kv.value
      if responseSize + entrySize ≥ maxRangeSize then
        { response with more := true } ::
          fillPages mode limit more live (i + 1) entrySize (mode.fill kv.key kv.value .empty)
      else
        fillPages mode limit more live (i + 1) (responseSize + entrySize)
          (mode.fill kv.key kv.value response)

/-- The page a range read returns. -/
def livePage (req : RangeOp) (more : Bool) (live : List KeyValue) : RangeResponse :=
  (fillPages (iterFuncsFromReq req) req.limit more live 0 0 .empty).headD .empty

/-- The positions of a scan at which a live key begins. -/
def liveStarts (starts : List (List Version)) : List (List Version) :=
  starts.filter fun r => (r.head?.bind Version.livePair).isSome

/-- Whether a record follows the newest version of the live key number `n`. -/
def followed (starts : List (List Version)) (n : ℕ) : Bool :=
  nonempty ((liveStarts starts).getD n []).tail

variable {v : Version} {more : Bool} {r r' : RangeResponse} {l : List Version}

theorem followed_tombstone (hv : isTombstone v.value = true) (r : List Version)
    (starts : List (List Version)) (n : ℕ) : followed ((v :: r) :: starts) n = followed starts n := by
  simp [followed, liveStarts, Version.livePair, hv]

theorem liveStarts_cons (hv : isTombstone v.value = false) (r : List Version)
    (starts : List (List Version)) : liveStarts ((v :: r) :: starts) = (v :: r) :: liveStarts starts := by
  simp [liveStarts, Version.livePair, hv]

theorem iteratePages_records (mode : FillMode) (limit : ℤ) {starts : List (List Version)}
    (h : ∀ r ∈ starts, nonempty r = true) (i responseSize : ℕ) (response : RangeResponse)
    (hmore : ∀ n : ℕ, (i : ℤ) + n = limit → followed starts n = more) :
    iteratePages mode limit (starts.map (List.map Version.record)) i responseSize response =
    .ok (fillPages mode limit more ((starts.filterMap List.head?).filterMap Version.livePair) i
    responseSize response) := by
  induction starts generalizing i responseSize response with
  | nil => rfl
  | cons r starts ih =>
    rw [forall_mem_cons] at h
    cases r with
    | nil => simp [nonempty] at h
    | cons v r =>
      have hv : decodeKey (encodeUserKey v.key v.seqno) = _ := decodeKey_record v
      change iteratePages mode limit (((encodeUserKey v.key v.seqno, v.value) :: r.map Version.record) ::
        starts.map (List.map Version.record)) i responseSize response = _
      rw [iteratePages, hv, ok_bind]
      cases ht : isTombstone v.value with
      | true =>
        rw [if_pos rfl, ih h.2 i responseSize response fun n hn => by
          rw [← hmore n hn, followed_tombstone ht]]
        simp [Version.livePair, ht]
      | false =>
        have hlive : (((v :: r) :: starts).filterMap List.head?).filterMap Version.livePair =
            ⟨v.key, v.value⟩ :: (starts.filterMap List.head?).filterMap Version.livePair := by
          simp [Version.livePair, ht]
        rw [if_neg Bool.false_ne_true, hlive, fillPages]
        -- the live keys behind are numbered from one less
        have hnext : ∀ n : ℕ, ((i + 1 : ℕ) : ℤ) + n = limit → followed starts n = more := by
          intro n hn
          rw [← hmore (n + 1) (by push_cast at hn ⊢; omega), followed, followed, liveStarts_cons ht, getD_cons_succ]
        by_cases hlimit : (i : ℤ) = limit ∧ limit ≠ 0
        · have hhere := hmore 0 (by simpa using hlimit.1)
          rw [followed, liveStarts_cons ht, getD_cons_zero, tail_cons] at hhere
          rw [if_pos hlimit, if_pos hlimit, ← hhere]
          cases r <;> rfl
        · rw [if_neg hlimit, if_neg hlimit]
          simp only [ih h.2 _ _ _ hnext, ok_bind]
          split <;> rfl

/-- Whether a range read that reaches its limit reports that more follows. -/
def moreFollows (m : DB) (req : RangeOp) : Bool :=
  followed (groupStarts Version.key (rangeVersions m req.key (req.rangeEnd.getD []))) req.limit.toNat

theorem iterate_eq {m : DB} (hm : WellFormed m) (req : RangeOp) (hlow : IsBound req.key)
    (hhigh : IsBound (req.rangeEnd.getD [])) :
    iterate m req = .ok (fillPages (iterFuncsFromReq req) req.limit (moreFollows m req)
    (liveScan m req.key (req.rangeEnd.getD [])) 0 0 .empty) := by
  have hmore : ∀ n : ℕ, ((0 : ℕ) : ℤ) + n = req.limit →
      followed (groupStarts Version.key (rangeVersions m req.key (req.rangeEnd.getD []))) n =
        moreFollows m req := by
    intro n hn
    rw [moreFollows, ← hn]
    simp
  simp only [iterate, newIter_range hm hlow hhigh]
  rw [stops_nextUserKey (rangeVersions_sorted hm _ _) (noNull_of_mem_rangeVersions hm),
    iteratePages_records _ _ (groupStarts_nonempty _ _) 0 0 .empty hmore]
  rfl

theorem page_eq {m : DB} (hm : WellFormed m) (req : RangeOp) (hlow : IsBound req.key)
    (hhigh : IsBound (req.rangeEnd.getD [])) : physical.page m req =
    .ok (livePage req (moreFollows m req) (liveScan m req.key (req.rangeEnd.getD []))) := by
  simp only [physical, rangeLookup, iterate_eq hm req hlow hhigh]
  rfl

theorem fillPages_kvs (more : Bool) (live : List KeyValue) (i responseSize : ℕ) (response : RangeResponse) :
    (fillPages .kvPair 0 more live i responseSize response).flatMap RangeResponse.kvs = response.kvs ++ live := by
  induction live generalizing i responseSize response with
  | nil => simp [fillPages]
  | cons kv live ih =>
    rw [fillPages, if_neg (by simp)]
    dsimp only
    split
    · simp [ih, FillMode.fill, RangeResponse.empty]
    · simp [ih, FillMode.fill]

/-- Responses that may differ in the flag only. -/
def SameButMore (r r' : RangeResponse) : Prop := r.kvs = r'.kvs ∧ r.count = r'.count

theorem FillMode.fill_sameButMore (mode : FillMode) (key value : Bytes)
    (h : SameButMore r r') : SameButMore (mode.fill key value r) (mode.fill key value r') := by
  cases mode <;> simp [FillMode.fill, SameButMore, h.1, h.2]

theorem fillPages_sameButMore (mode : FillMode) (limit : ℤ) (more more' : Bool) (live : List KeyValue)
    (i responseSize : ℕ) (h : SameButMore r r') :
    SameButMore ((fillPages mode limit more live i responseSize r).headD .empty)
    ((fillPages mode limit more' live i responseSize r').headD .empty) := by
  induction live generalizing i responseSize r r' with
  | nil => exact h
  | cons kv live ih =>
    rw [fillPages, fillPages]
    split
    · exact h
    · dsimp only
      split
      · exact h
      · exact ih _ _ (mode.fill_sameButMore _ _ h)

theorem livePage_sameButMore (req : RangeOp) (more more' : Bool) (live : List KeyValue) :
    SameButMore (livePage req more live) (livePage req more' live) :=
  fillPages_sameButMore _ _ _ _ _ _ _ ⟨rfl, rfl⟩

theorem fillPages_congr (mode : FillMode) {limit : ℤ} {more' : Bool} (live : List KeyValue)
    (i responseSize : ℕ) (response : RangeResponse) (h : 0 < limit → limit < i + live.length → more = more') :
    fillPages mode limit more live i responseSize response =
    fillPages mode limit more' live i responseSize response := by
  induction live generalizing i responseSize response with
  | nil => rfl
  | cons kv live ih =>
    have hnext : 0 < limit → limit < ((i + 1 : ℕ) : ℤ) + live.length → more = more' := by
      intro hpos hlt
      exact h hpos (by rw [length_cons]; push_cast at hlt ⊢; omega)
    rw [fillPages, fillPages]
    split
    · next hlimit => rw [h (by omega) (by rw [length_cons]; push_cast; omega)]
    · simp only [ih _ _ _ hnext]

theorem length_liveStarts (starts : List (List Version)) :
    (liveStarts starts).length = ((starts.filterMap List.head?).filterMap Version.livePair).length := by
  induction starts with
  | nil => rfl
  | cons r starts ih =>
    cases r with
    | nil => exact ih
    | cons v r =>
      cases hv : isTombstone v.value with
      | true => simpa [liveStarts, Version.livePair, hv] using ih
      | false => simpa [liveStarts, Version.livePair, hv] using ih

theorem moreFollows_of_lt {m : DB} {req : RangeOp}
    (h : req.limit.toNat + 1 < (liveScan m req.key (req.rangeEnd.getD [])).length) : moreFollows m req = true := by
  rw [liveScan, firsts, ← length_liveStarts] at h
  rw [moreFollows, followed]
  generalize hstarts : groupStarts Version.key (rangeVersions m req.key (req.rangeEnd.getD [])) = starts at h
  have hpair : (liveStarts starts).Pairwise (fun r r' => r' <:+ r.tail) := by
    rw [← hstarts]
    exact (groupStarts_pairwise Version.key _).filter _
  have hmem : (liveStarts starts)[req.limit.toNat + 1] ∈ liveStarts starts := getElem_mem h
  have hne : nonempty (liveStarts starts)[req.limit.toNat + 1] = true := by
    apply groupStarts_nonempty Version.key (rangeVersions m req.key (req.rangeEnd.getD []))
    rw [hstarts]
    exact (mem_filter.mp hmem).1
  have hsuff := pairwise_iff_getElem.mp hpair req.limit.toNat (req.limit.toNat + 1) (by omega) h (by omega)
  rw [getD_eq_getElem _ _ (by omega)]
  cases htail : (liveStarts starts)[req.limit.toNat].tail with
  | nil =>
    rw [htail, suffix_nil] at hsuff
    rw [hsuff] at hne
    exact hne
  | cons _ _ => rfl

/-- The flag of a limited range read depends on live pairs only: when exactly one live
key lies beyond the limit, no record of the range follows its newest version. -/
def FlagSettled (m : DB) (req : RangeOp) : Prop :=
  0 < req.limit → (liveScan m req.key (req.rangeEnd.getD [])).length = req.limit.toNat + 1 →
    moreFollows m req = false

/-! ### Range compares -/

/-- The answer to a range compare that looks at the live pairs only. -/
def liveCompare (cmp : Compare) (live : List KeyValue) : Bool :=
  nonempty live && live.all fun kv => txnCompareSingle cmp kv.value

/-- The step of a range compare. -/
def comparedNext : List Version → List Version
  | [] => []
  | v :: r => if isTombstone v.value then skipGroup Version.key (v :: r) else r

/-- The versions a range compare looks at. -/
def compared (l : List Version) : List Version :=
  (visits nonempty comparedNext l.length l).filterMap List.head?

theorem comparedNext_suffix (r : List Version) : comparedNext r <:+ r := by
  cases r with
  | nil => exact suffix_refl []
  | cons v r =>
    rw [comparedNext]
    split
    · exact skipGroup_suffix _
    · exact suffix_cons v r

theorem nextCompared_records (hl : l.Pairwise Version.Before)
    (hnull : ∀ v ∈ l, (0 : UInt8) ∉ v.key) {r : List Version} (hr : r <:+ l) (hne : nonempty r = true) :
    nextCompared ⟨l.map Version.record, r.map Version.record⟩ =
    ⟨l.map Version.record, (comparedNext r).map Version.record⟩ := by
  cases r with
  | nil => simp [nonempty] at hne
  | cons v r =>
    cases hv : isTombstone v.value with
    | true =>
      rw [comparedNext, if_pos hv, ← nextUserKey_records hl hnull hr hne]
      simp [nextCompared, nextUserKey, Version.record, hv]
    | false => simp [nextCompared, comparedNext, Version.record, Iterator.next, hv]

theorem comparedNext_length {r : List Version} (hne : nonempty r = true) : (comparedNext r).length < r.length := by
  cases r with
  | nil => simp [nonempty] at hne
  | cons v r =>
    rw [comparedNext, length_cons]
    split
    · exact Nat.lt_succ_of_le (skipGroup_length Version.key v r)
    · omega

theorem compared_cons (v : Version) (r : List Version) : compared (v :: r) = v :: compared (comparedNext (v :: r)) := by
  rw [compared, visits_shrinking (fun l hl => comparedNext_length hl)]
  rfl

theorem mem_compared (hl : l.Pairwise Version.Before) (v : Version) : v ∈ compared l ↔
    v ∈ l ∧ ∀ w ∈ l, w.key = v.key → v.seqno < w.seqno → isTombstone w.value = false := by
  induction hn : l.length using Nat.strong_induction_on generalizing l with
  | _ n ih =>
    cases l with
    | nil => simp [compared, visits]
    | cons a l =>
      have hp := pairwise_cons.mp hl
      have hi := ih (comparedNext (a :: l)).length
        (by rw [← hn]; exact comparedNext_length (r := a :: l) rfl)
        (hl.sublist (comparedNext_suffix (a :: l)).sublist) rfl
      have hnewest : ∀ w ∈ l, w.key = a.key → w.seqno < a.seqno := by
        intro w hw hkey
        rcases hp.1 w hw with h | h
        · exact absurd h (by rw [hkey]; exact lt_irrefl _)
        · exact h.2
      rw [compared_cons, mem_cons, hi, mem_cons, forall_mem_cons]
      cases ha : isTombstone a.value with
      | true =>
        rw [comparedNext, if_pos ha, skipGroup, dropWhile_eq_filter Version.key
          (hp.2.imp fun h => h.key_le) fun w hw => (hp.1 w hw).key_le]
        simp only [mem_filter, decide_eq_true_eq]
        constructor
        · rintro (rfl | ⟨⟨hv, hlt⟩, hmax⟩)
          · exact ⟨Or.inl rfl, fun _ h => absurd h (lt_irrefl _), fun w hw hkey hlt =>
              absurd hlt (not_lt.mpr (hnewest w hw hkey).le)⟩
          · exact ⟨Or.inr hv, fun hkey => absurd hkey hlt.ne, fun w hw hkey hs =>
              hmax w ⟨hw, hkey ▸ hlt⟩ hkey hs⟩
        · rintro ⟨rfl | hv, hhead, htail⟩
          · exact Or.inl rfl
          · have hne : a.key ≠ v.key := by
              intro hkey
              exact absurd (hhead hkey (hnewest v hv hkey.symm)) (by simp)
            have hlt : a.key < v.key := lt_of_le_of_ne (hp.1 v hv).key_le hne
            exact Or.inr ⟨⟨hv, hlt⟩, fun w hw hkey hs => htail w hw.1 hkey hs⟩
      | false =>
        rw [comparedNext, if_neg (by simp [ha])]
        constructor
        · rintro (rfl | ⟨hv, hmax⟩)
          · exact ⟨Or.inl rfl, fun _ _ => rfl, fun w hw hkey hlt =>
              absurd hlt (not_lt.mpr (hnewest w hw hkey).le)⟩
          · exact ⟨Or.inr hv, fun _ _ => rfl, hmax⟩
        · rintro ⟨rfl | hv, -, htail⟩
          · exact Or.inl rfl
          · exact Or.inr ⟨hv, htail⟩

/-- The versions of a range that a range compare can judge: neither they nor a newer
version of the key is a tombstone. -/
def Exposed (l : List Version) (v : Version) : Prop :=
  v ∈ l ∧ ∀ w ∈ l, w.key = v.key → v.seqno ≤ w.seqno → isTombstone w.value = false

/-- A range compare depends on live pairs only: when the range holds a version it has a
live key, and when every live pair passes so does every exposed version. -/
structure Settled (m : DB) (cmp : Compare) (rangeEnd : Bytes) : Prop where
  live : rangeVersions m cmp.key rangeEnd ≠ [] → liveScan m cmp.key rangeEnd ≠ []
  older : (∀ kv ∈ liveScan m cmp.key rangeEnd, txnCompareSingle cmp kv.value = true) →
    ∀ v, Exposed (rangeVersions m cmp.key rangeEnd) v → txnCompareSingle cmp v.value = true

section
variable {m : DB} (hm : WellFormed m)
include hm

variable {rangeEnd low high : Bytes} {cmp : Compare}

theorem compareRange_eq (hlow : IsBound cmp.key) (hhigh : IsBound rangeEnd) : physical.compareRange m cmp rangeEnd =
    (nonempty (rangeVersions m cmp.key rangeEnd) && (compared (rangeVersions m cmp.key rangeEnd)).all fun v =>
    isTombstone v.value || txnCompareSingle cmp v.value) := by
  have hstops : (⟨(rangeVersions m cmp.key rangeEnd).map Version.record, []⟩ : Iterator).stops
      nextCompared = _ := stops_records fun r hr hne => ⟨(comparedNext_suffix r).trans hr,
        nextCompared_records (rangeVersions_sorted hm _ _) (noNull_of_mem_rangeVersions hm) hr hne⟩
  simp only [physical, txnCompareRange, newIter_range hm hlow hhigh]
  rw [hstops]
  generalize rangeVersions m cmp.key rangeEnd = l
  congr 1
  · cases l with
    | nil => rfl
    | cons v l => simp [visits, nonempty]
  · rw [compared]
    induction visits nonempty comparedNext l.length l with
    | nil => rfl
    | cons r rs ih =>
      cases r with
      | nil => simpa using ih
      | cons v r => simp only [map_cons, all_cons, filterMap_cons, List.head?_cons, ih]; rfl

theorem compareRange_eq_true_iff (hlow : IsBound cmp.key) (hhigh : IsBound rangeEnd) :
    physical.compareRange m cmp rangeEnd = true ↔ rangeVersions m cmp.key rangeEnd ≠ [] ∧
    ∀ v, Exposed (rangeVersions m cmp.key rangeEnd) v → txnCompareSingle cmp v.value = true := by
  have hsorted := rangeVersions_sorted hm cmp.key rangeEnd
  rw [compareRange_eq hm hlow hhigh, Bool.and_eq_true, all_eq_true]
  apply and_congr
  · cases rangeVersions m cmp.key rangeEnd <;> simp [nonempty]
  · constructor
    · rintro h v ⟨hv, hexp⟩
      have hpass := h v ((mem_compared hsorted v).mpr ⟨hv, fun w hw hkey hlt => hexp w hw hkey hlt.le⟩)
      rwa [hexp v hv rfl le_rfl, Bool.false_or] at hpass
    · intro h v hv
      rw [mem_compared hsorted] at hv
      rw [Bool.or_eq_true]
      by_cases ht : isTombstone v.value = true
      · exact Or.inl ht
      · refine Or.inr (h v ⟨hv.1, fun w hw hkey hle => ?_⟩)
        rcases hle.lt_or_eq with hlt | heq
        · exact hv.2 w hw hkey hlt
        · rw [← eq_of_mem_versions hm.nullFree (mem_filter.mp hv.1).1 (mem_filter.mp hw).1 hkey.symm heq]
          simpa using ht

theorem exposed_of_mem_liveScan {kv : KeyValue} (h : kv ∈ liveScan m low high) :
    ∃ v, Exposed (rangeVersions m low high) v ∧ v.value = kv.value := by
  rw [liveScan, mem_filterMap] at h
  obtain ⟨v, hv, hpair⟩ := h
  have hfirst := hv
  rw [mem_firsts_range hm, latest_eq_some_iff hm.nullFree] at hv
  rw [Version.livePair] at hpair
  split at hpair
  · cases hpair
  · next ht =>
    cases hpair
    refine ⟨v, ⟨mem_filter.mpr ⟨hv.2.1, by simpa using hv.1⟩, fun w hw hkey hle => ?_⟩, rfl⟩
    have hmem := (mem_filter.mp hw).1
    rw [eq_of_mem_versions hm.nullFree hmem hv.2.1 hkey (le_antisymm (hv.2.2 w hmem hkey) hle)]
    simpa using ht

theorem liveScan_ne_nil {v : Version} (h : Exposed (rangeVersions m low high) v) : liveScan m low high ≠ [] := by
  obtain ⟨hv, hexp⟩ := h
  have hmem := mem_filter.mp hv
  have hver := (mem_versions hm.nullFree v).mp hmem.1
  have hlatest := latest_isLatest hm.nullFree v.key
  cases hl : latest m v.key with
  | none =>
    rw [hl] at hlatest
    rw [hlatest v.seqno] at hver
    cases hver
  | some w =>
    rw [hl] at hlatest
    have hle : v.seqno ≤ w.1 := by
      by_contra hlt
      rw [hlatest.2 _ (not_le.mp hlt)] at hver
      cases hver
    have hw : (⟨v.key, w.1, w.2⟩ : Version) ∈ rangeVersions m low high :=
      mem_filter.mpr ⟨(mem_versions hm.nullFree _).mpr hlatest.1, hmem.2⟩
    have hlive := hexp _ hw rfl hle
    apply ne_nil_of_mem (a := (⟨v.key, w.2⟩ : KeyValue))
    rw [mem_liveScan hm, hl]
    exact ⟨by simpa using hmem.2, by simp [live, hlive]⟩

theorem compareRange_eq_liveCompare_iff (hlow : IsBound cmp.key) (hhigh : IsBound rangeEnd) :
    physical.compareRange m cmp rangeEnd = liveCompare cmp (liveScan m cmp.key rangeEnd) ↔ Settled m cmp rangeEnd := by
  have hlive : liveCompare cmp (liveScan m cmp.key rangeEnd) = true ↔ liveScan m cmp.key rangeEnd ≠ [] ∧
      ∀ kv ∈ liveScan m cmp.key rangeEnd, txnCompareSingle cmp kv.value = true := by
    rw [liveCompare, Bool.and_eq_true, all_eq_true]
    apply and_congr_left
    intro _
    cases liveScan m cmp.key rangeEnd <;> simp [nonempty]
  have hversions : liveScan m cmp.key rangeEnd ≠ [] → rangeVersions m cmp.key rangeEnd ≠ [] := by
    intro h hnil
    simp [liveScan, hnil] at h
  have hpass : (∀ v, Exposed (rangeVersions m cmp.key rangeEnd) v → txnCompareSingle cmp v.value = true) →
      ∀ kv ∈ liveScan m cmp.key rangeEnd, txnCompareSingle cmp kv.value = true := by
    intro h kv hkv
    obtain ⟨v, hv, heq⟩ := exposed_of_mem_liveScan hm hkv
    rw [← heq]
    exact h v hv
  rw [Bool.eq_iff_iff, compareRange_eq_true_iff hm hlow hhigh, hlive]
  constructor
  · intro h
    refine ⟨fun hne hnil => ?_, fun hall v hv => ?_⟩
    · exact (h.mp ⟨hne, fun v hv => absurd hnil (liveScan_ne_nil hm hv)⟩).1 hnil
    · exact (h.mpr ⟨liveScan_ne_nil hm hv, hall⟩).2 v hv
  · rintro ⟨hl, holder⟩
    exact ⟨fun h => ⟨hl h.1, hpass h.2⟩, fun h => ⟨hversions h.1, holder h.2⟩⟩

end

end Armada.Fsm
