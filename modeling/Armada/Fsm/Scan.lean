import Armada.Fsm.Versions

/-! Range scans. A scan over the versions in a range stops at the newest version of
every user key in it, whichever versions lie behind; its live pairs are the live keys
of the range in order. -/

namespace Armada.Fsm

open Ordered Keys Pebble Proto Program List

/-! ### Jumping to the next user key -/

theorem take_encodeUserKey (key : Bytes) (s : UInt64) :
    (encodeUserKey key s).take ((encodeUserKey key s).length - v2SeqLen) = userHeader ++ key ++ [0] := by
  rw [length_encodeUserKey, show key.length + 14 - v2SeqLen = key.length + 6 by simp [v2SeqLen],
    show encodeUserKey key s = (userHeader ++ key ++ [0]) ++ storedSeqno s by simp [encodeUserKey],
    take_left' (by simp [userHeader])]

theorem seekKey_eq (key : Bytes) (s : UInt64) :
    (encodeUserKey key s).take ((encodeUserKey key s).length - v2SeqLen) ++ List.replicate v2SeqLen 0xFF =
    encodeUserKey key 0 := by
  rw [take_encodeUserKey, encodeUserKey, storedSeqno_zero]
  simp [v2SeqLen]

theorem iterNextUserKey_rest (piter : Iterator) (key : Bytes) (s : UInt64) {rest : List (Bytes × Bytes)}
    (hseek : (piter.seekGE (encodeUserKey key 0)).rest = rest) : iterNextUserKey piter (encodeUserKey key s) =
    ⟨piter.keys, if rest.head?.map Prod.fst = some (encodeUserKey key 0) then rest.tail else rest⟩ := by
  have hlen := length_encodeUserKey key s
  have hv2 : ¬ ((encodeUserKey key s).length ≤ v2SeqLen ∨ (encodeUserKey key s).headD 0 ≠ v2) := by
    rw [hlen]
    simp [v2SeqLen, encodeUserKey, userHeader]
  have hiter : piter.seekGE (encodeUserKey key 0) = ⟨piter.keys, rest⟩ := by
    rw [← hseek]
    rfl
  rw [iterNextUserKey, if_neg hv2]
  simp only [seekKey_eq, hiter]
  cases rest with
  | nil => rfl
  | cons e rest =>
    by_cases he : e.1 = encodeUserKey key 0
    · simp [he, Iterator.next]
    · simp [he]

theorem record_lt_oldest_iff {v : Version} (hv : (0 : UInt8) ∉ v.key) {key : Bytes} (hkey : (0 : UInt8) ∉ key) :
    v.record.1 < encodeUserKey key 0 ↔ v.key < key ∨ (v.key = key ∧ 0 < v.seqno) :=
  encodeUserKey_lt_iff hv hkey _ _

section
variable {l : List Version} (hl : l.Pairwise Version.Before) (hnull : ∀ v ∈ l, (0 : UInt8) ∉ v.key)
include hl hnull

theorem seekGE_records (p : Bytes) (rest : List (Bytes × Bytes)) :
    ((⟨l.map Version.record, rest⟩ : Iterator).seekGE p).rest =
    (l.filter (fun v => !decide (v.record.1 < p))).map Version.record := by
  have hdown : l.Pairwise (fun a b =>
      decide (b.record.1 < p) = true → decide (a.record.1 < p) = true) := by
    apply hl.imp_of_mem
    intro a b ha hb hab h
    rw [decide_eq_true_iff] at h ⊢
    exact ((Version.record_lt_iff (hnull a ha) (hnull b hb)).mpr hab).trans h
  rw [← dropWhile_eq_filter_not hdown]
  simp only [Iterator.seekGE, dropWhile_map]
  rfl

omit hl in
/-- What is not before the oldest possible version of a key is that version or has a
greater key. -/
theorem mem_found {key : Bytes} (hkey : (0 : UInt8) ∉ key) {v : Version}
    (hv : v ∈ l.filter (fun v => !decide (v.record.1 < encodeUserKey key 0))) :
    key < v.key ∨ v.record.1 = encodeUserKey key 0 := by
  rw [mem_filter, Bool.not_eq_true', decide_eq_false_iff_not] at hv
  rw [record_lt_oldest_iff (hnull v hv.1) hkey, not_or, not_lt, not_and, not_lt] at hv
  rcases hv.2.1.lt_or_eq with hlt | heq
  · exact Or.inl hlt
  · have hzero : v.seqno = 0 := le_antisymm (hv.2.2 heq.symm) (by simp [UInt64.le_iff_toNat_le])
    right
    rw [Version.record, hzero, heq]

theorem filter_after_oldest {key : Bytes} (hkey : (0 : UInt8) ∉ key) {found : List Version}
    (hfound : found = l.filter (fun v => !decide (v.record.1 < encodeUserKey key 0))) :
    (if (found.map Version.record).head?.map Prod.fst = some (encodeUserKey key 0)
    then (found.map Version.record).tail else found.map Version.record) =
    (l.filter (fun v => key < v.key)).map Version.record := by
  have hsorted : found.Pairwise Version.Before := hfound ▸ hl.filter _
  have hgt : l.filter (fun v => key < v.key) = found.filter (fun v => key < v.key) := by
    rw [hfound, filter_filter]
    apply filter_congr
    intro v hv
    by_cases hlt : key < v.key
    · have hnot : ¬ v.record.1 < encodeUserKey key 0 := by
        rw [record_lt_oldest_iff (hnull v hv) hkey]
        rintro (h | h)
        · exact lt_asymm h hlt
        · exact hlt.ne' h.1
      simp [hlt, hnot]
    · simp [hlt]
  have hmem : ∀ v ∈ found, key < v.key ∨ v.record.1 = encodeUserKey key 0 :=
    fun v hv => mem_found hnull hkey (hfound ▸ hv)
  rw [hgt]
  cases hf : found with
  | nil => simp
  | cons v rest =>
    rw [hf] at hsorted hmem
    rw [pairwise_cons] at hsorted
    rw [forall_mem_cons] at hmem
    by_cases hv : v.record.1 = encodeUserKey key 0
    · -- the oldest possible version is there, and everything behind it has a greater key
      obtain ⟨hvkey, hvzero⟩ := encodeUserKey_inj hv
      have hrest : ∀ w ∈ rest, key < w.key := by
        intro w hw
        rcases hsorted.1 w hw with h | h
        · exact hvkey ▸ h
        · rw [hvzero] at h
          exact absurd h.2 (by simp [UInt64.lt_iff_toNat_lt])
      rw [map_cons, List.head?_cons, Option.map_some, if_pos (by rw [hv]), tail_cons,
        filter_cons_of_neg (by simp [hvkey]), filter_eq_self.mpr (by simpa using hrest)]
    · have hlt := hmem.1.resolve_right hv
      have hrest : ∀ w ∈ v :: rest, key < w.key := by
        intro w hw
        rcases mem_cons.mp hw with rfl | hw
        · exact hlt
        · exact hlt.trans_le (hsorted.1 w hw).key_le
      rw [map_cons, List.head?_cons, Option.map_some, if_neg (by simpa using hv),
        filter_eq_self.mpr (by simpa using hrest), map_cons]

end

theorem skipGroup_eq_filter {l : List Version} (hl : l.Pairwise Version.Before) {v : Version}
    {r : List Version} (hr : v :: r <:+ l) : skipGroup Version.key (v :: r) = l.filter (fun w => v.key < w.key) := by
  obtain ⟨front, rfl⟩ := hr
  have hparts := pairwise_append.mp hl
  have htail := pairwise_cons.mp hparts.2.1
  have hfront : front.filter (fun w => v.key < w.key) = [] := by
    rw [filter_eq_nil_iff]
    intro w hw
    simpa using (hparts.2.2 w hw v (by simp)).key_le
  rw [skipGroup, dropWhile_eq_filter Version.key (htail.2.imp fun h => h.key_le)
    fun w hw => (htail.1 w hw).key_le, filter_append, hfront, nil_append,
    filter_cons_of_neg (by simp)]
  exact filter_congr fun w _ => decide_eq_decide.mpr Iff.rfl

theorem nextUserKey_records {l : List Version} (hl : l.Pairwise Version.Before)
    (hnull : ∀ v ∈ l, (0 : UInt8) ∉ v.key) {r : List Version} (hr : r <:+ l) (hne : nonempty r = true) :
    nextUserKey ⟨l.map Version.record, r.map Version.record⟩ =
    ⟨l.map Version.record, (skipGroup Version.key r).map Version.record⟩ := by
  cases r with
  | nil => simp [nonempty] at hne
  | cons v r =>
    have hv : (0 : UInt8) ∉ v.key := hnull v (hr.subset (by simp))
    rw [skipGroup_eq_filter hl hr, ← filter_after_oldest hl hnull hv rfl]
    exact iterNextUserKey_rest _ v.key v.seqno (seekGE_records hl hnull _ _)

theorem stops_records {l : List Version} {advance : Iterator → Iterator} {step : List Version → List Version}
    (hstep : ∀ r, r <:+ l → nonempty r = true → step r <:+ l ∧ advance ⟨l.map Version.record, r.map Version.record⟩ =
    ⟨l.map Version.record, (step r).map Version.record⟩) : (⟨l.map Version.record, []⟩ : Iterator).stops advance =
    (visits nonempty step l.length l).map (List.map Version.record) := by
  have hvalid : ∀ r : List Version, r <:+ l →
      Iterator.valid ⟨l.map Version.record, r.map Version.record⟩ = nonempty r := by
    intro r _
    cases r <;> rfl
  have hvisits := visits_map _ (fun r => r <:+ l) hvalid hstep l.length (suffix_refl l)
  rw [Iterator.stops, length_map]
  exact (congrArg (List.map Iterator.rest) hvisits).trans (by rw [map_map]; rfl)

theorem skipGroup_suffix (r : List Version) : skipGroup Version.key r <:+ r := by
  cases r with
  | nil => exact suffix_refl []
  | cons v r => exact (dropWhile_suffix _).trans (suffix_cons v r)

theorem stops_nextUserKey {l : List Version} (hl : l.Pairwise Version.Before) (hnull : ∀ v ∈ l, (0 : UInt8) ∉ v.key) :
    (⟨l.map Version.record, []⟩ : Iterator).stops nextUserKey =
    (groupStarts Version.key l).map (List.map Version.record) :=
  stops_records fun r hr hne => ⟨(skipGroup_suffix r).trans hr, nextUserKey_records hl hnull hr hne⟩

/-! ### Bounds -/

/-- A database of admitted user keys. -/
structure WellFormed (m : DB) : Prop where
  nullFree : NullFree m
  admitted : ∀ k s x, ver m k s = some x → Admitted k

/-- A bound a range may have: free of nulls, or the wildcard. -/
def IsBound (b : Bytes) : Prop := (0 : UInt8) ∉ b ∨ b = wildcard

instance (b : Bytes) : Decidable (IsBound b) := inferInstanceAs (Decidable (_ ∨ _))

/-- The keys of a range; the wildcard is no upper bound. -/
def InRange (low high key : Bytes) : Prop := low ≤ key ∧ (high = wildcard ∨ key < high)

instance (low high key : Bytes) : Decidable (InRange low high key) := inferInstanceAs (Decidable (_ ∧ _))

theorem wildcard_le {key : Bytes} (hkey : Admitted key) : wildcard ≤ key := by
  obtain ⟨c, rest, rfl⟩ := exists_cons_of_ne_nil hkey.nonempty
  have hc := pos_of_noNull hkey.noNull c (by simp)
  apply le_of_lt
  rw [wildcard, cons_lt_cons_iff]
  exact Or.inl hc

theorem first_le_iff {low key : Bytes} (hlow : (0 : UInt8) ∉ low) (hkey : (0 : UInt8) ∉ key) (s : UInt64) :
    encodeUserKey low maxUint64 ≤ encodeUserKey key s ↔ low ≤ key := by
  rw [← not_lt, encodeUserKey_lt_iff hkey hlow, ← not_lt, not_iff_not]
  constructor
  · rintro (h | ⟨-, h⟩)
    · exact h
    · exact absurd (maxUint64_le h.le) h.ne'
  · exact Or.inl

theorem lower_le_iff {low key : Bytes} (hlow : IsBound low) (hkey : Admitted key) (s : UInt64) :
    encodeUserKey low maxUint64 ≤ encodeUserKey key s ↔ low ≤ key := by
  rcases hlow with hnull | rfl
  · exact first_le_iff hnull hkey.noNull s
  · apply iff_of_true _ (wildcard_le hkey)
    obtain ⟨c, rest, rfl⟩ := exists_cons_of_ne_nil hkey.nonempty
    have hc := pos_of_noNull hkey.noNull c (by simp)
    apply le_of_lt
    rw [encodeUserKey, encodeUserKey, append_lt_append_iff, wildcard, cons_append, cons_append, cons_lt_cons_iff]
    exact Or.inl hc

theorem append_lt_wildcardUpper (key y z : Bytes) {n : ℕ} (h : key.length ≤ n) :
    key ++ 0 :: y < List.replicate n 0xFF ++ 1 :: z := by
  induction key generalizing n with
  | nil =>
    cases n with
    | zero => exact cons_lt_cons_iff.mpr (Or.inl (by decide))
    | succ n => exact cons_lt_cons_iff.mpr (Or.inl (by decide))
  | cons c key ih =>
    obtain ⟨n, rfl⟩ : ∃ k, n = k + 1 := ⟨n - 1, by simp only [length_cons] at h; omega⟩
    have hrest := ih (n := n) (by simpa using h)
    have hc : c ≤ 0xFF := by
      rw [UInt8.le_iff_toNat_le]
      have := c.toNat_lt
      simp only [UInt8.reduceToNat]
      omega
    rw [replicate_succ, cons_append, cons_append, cons_lt_cons_iff]
    rcases hc.lt_or_eq with hlt | heq
    · exact Or.inl hlt
    · exact Or.inr ⟨heq, hrest⟩

theorem lt_upper_iff {high key : Bytes} (hhigh : IsBound high) (hnullKey : (0 : UInt8) ∉ key)
    (hlen : key.length ≤ v2MaxUserKeyLen) (s : UInt64) :
    (encodeUserKey key s < if high = wildcard then incrementRightmostByte maxEncodedUserKey
    else encodeUserKey high maxUint64) ↔ (high = wildcard ∨ key < high) := by
  by_cases hw : high = wildcard
  · rw [if_pos hw, wildcardUpper_eq, encodeUserKey, append_lt_append_iff]
    exact iff_of_true (append_lt_wildcardUpper _ _ _ hlen) (Or.inl hw)
  · have hnull := hhigh.resolve_right hw
    rw [if_neg hw, encodeUserKey_lt_iff hnullKey hnull]
    constructor
    · rintro (h | ⟨-, h⟩)
      · exact Or.inr h
      · exact absurd (maxUint64_le h.le) h.ne'
    · exact fun h => Or.inl (h.resolve_left hw)

theorem within_iff {low high key : Bytes} (hlow : IsBound low) (hhigh : IsBound high) (hkey : Admitted key)
    (s : UInt64) : (iterOptionsForBounds low high).within (encodeUserKey key s) = true ↔ InRange low high key := by
  simp only [IterOptions.within, iterOptionsForBounds, Bool.and_eq_true, decide_eq_true_eq]
  exact and_congr (lower_le_iff hlow hkey s) (lt_upper_iff hhigh hkey.noNull hkey.length_le s)

/-- The encoding of versions: it orders them by key and then the newest first, the versions
of a key are those with its prefix, both decoders take it apart, user keys come before
system keys, and the bounds of a scan enclose the versions of the keys in the range. -/
theorem encoding_orders_versions (a b : Bytes) (ha : (0 : UInt8) ∉ a) (hb : (0 : UInt8) ∉ b)
    (hlen : a.length ≤ v2MaxUserKeyLen) (s t : UInt64) :
    encode ⟨unknownVersion, typeUser, a, s⟩ = .ok (encodeUserKey a s) ∧
      (encodeUserKey a s < encodeUserKey b t ↔ a < b ∨ a = b ∧ t < s) ∧
      (a ≠ [] → (keyPrefix (encodeUserKey a s) = keyPrefix (encodeUserKey b t) ↔ a = b)) ∧
      decode (encodeUserKey a s) = .ok ⟨v2, typeUser, a, s⟩ ∧
      decodeBytes (encodeUserKey a s) = .ok ⟨v2, typeUser, a, s⟩ ∧
      (∀ c u e, encode ⟨unknownVersion, typeSystem, c, u⟩ = .ok e → encodeUserKey a s < e) ∧
      ∀ low high, (0 : UInt8) ∉ low → ((0 : UInt8) ∉ high ∨ high = wildcard) →
        ((iterOptionsForBounds low high).within (encodeUserKey a s) = true ↔
          low ≤ a ∧ (high = wildcard ∨ a < high)) := by
  refine ⟨encode_user a s, encodeUserKey_lt_iff ha hb s t, fun hne => keyPrefix_eq_iff hne ha s t,
    decode_encodeUserKey hlen s, decodeBytes_encodeUserKey a s, fun c u e => encodeUserKey_lt_system a c s u, ?_⟩
  intro low high hlow hhigh
  simp only [IterOptions.within, iterOptionsForBounds, Bool.and_eq_true, decide_eq_true_eq]
  exact and_congr (first_le_iff hlow ha s) (lt_upper_iff hhigh ha hlen s)

theorem encoding_orders_versions_text : decode (encodeUserKey [0x61, 0x62] 7) = .ok ⟨v2, typeUser, [0x61, 0x62], 7⟩ ∧
      (encodeUserKey [0x61, 0x62] 7 < encodeUserKey [0x61, 0x62] 5 ↔
        ([0x61, 0x62] : Bytes) < [0x61, 0x62] ∨ ([0x61, 0x62] : Bytes) = [0x61, 0x62] ∧ (5 : UInt64) < 7) :=
  have h := encoding_orders_versions [0x61, 0x62] [0x61, 0x62] (by decide) (by decide) (by decide) 7 5
  ⟨h.2.2.2.1, h.2.1⟩

theorem newIter_versions {m : DB} (hm : NullFree m) {o : IterOptions} (ho : ∀ p, o.within p = true → userHeader <+: p) :
    newIter m o = ⟨((versions m).filter fun v => o.within v.record.1).map Version.record, []⟩ := by
  have hkeys : m.toList.filter (fun e => o.within e.1) =
      ((versions m).filter fun v => o.within v.record.1).map Version.record := by
    apply ascending_ext (m.toList_ascending.filter _)
    · rw [Ascending, pairwise_map]
      apply ((versions_sorted hm).filter _).imp_of_mem
      intro v w hv hw h
      exact (Version.record_lt_iff (noNull_of_mem_versions hm (mem_filter.mp hv).1)
        (noNull_of_mem_versions hm (mem_filter.mp hw).1)).mpr h
    · rintro ⟨p, x⟩
      rw [mem_filter, m.mem_toList, mem_map]
      constructor
      · rintro ⟨hp, hwithin⟩
        rcases hm p x hp with ⟨k, s, -, rfl⟩ | hsys
        · exact ⟨⟨k, s, x⟩, mem_filter.mpr ⟨(mem_versions hm ⟨k, s, x⟩).mpr hp, hwithin⟩, rfl⟩
        · exact absurd (ho p hwithin) (not_header_of_mem_systemKeys hsys)
      · rintro ⟨v, hv, heq⟩
        obtain ⟨rfl, rfl⟩ := Prod.mk.inj heq
        obtain ⟨hv, hwithin⟩ := mem_filter.mp hv
        exact ⟨(mem_versions hm v).mp hv, hwithin⟩
  rw [newIter, hkeys]

/-- The versions of the keys of a range. -/
def rangeVersions (m : DB) (low high : Bytes) : List Version :=
  (versions m).filter fun v => InRange low high v.key

section
variable {m : DB} (hm : WellFormed m)
include hm

theorem admitted_of_mem_versions {v : Version} (hv : v ∈ versions m) : Admitted v.key :=
  hm.admitted _ _ _ ((mem_versions hm.nullFree v).mp hv)

theorem rangeVersions_sorted (low high : Bytes) : (rangeVersions m low high).Pairwise Version.Before :=
  (versions_sorted hm.nullFree).filter _

theorem noNull_of_mem_rangeVersions {low high : Bytes} : ∀ v ∈ rangeVersions m low high, (0 : UInt8) ∉ v.key :=
  fun _ hv => noNull_of_mem_versions hm.nullFree (mem_filter.mp hv).1

theorem newIter_range {low high : Bytes} (hlow : IsBound low) (hhigh : IsBound high) :
    newIter m (iterOptionsForBounds low high) = ⟨(rangeVersions m low high).map Version.record, []⟩ := by
  have hkeys : (versions m).filter (fun v => (iterOptionsForBounds low high).within v.record.1) =
      rangeVersions m low high := by
    apply filter_congr
    intro v hv
    rw [Bool.eq_iff_iff, decide_eq_true_iff]
    exact within_iff hlow hhigh (admitted_of_mem_versions hm hv) v.seqno
  rw [newIter_versions hm.nullFree fun p => within_header, hkeys]

end

/-! ### Live pairs -/

/-- The pair a newest version shows. -/
def Version.livePair (v : Version) : Option KeyValue :=
  if isTombstone v.value then none else some ⟨v.key, v.value⟩

/-- The live pairs of a range, in order. -/
def liveScan (m : DB) (low high : Bytes) : List KeyValue :=
  (firsts Version.key (rangeVersions m low high)).filterMap Version.livePair

theorem decodeKey_record (v : Version) : decodeKey v.record.1 = .ok ⟨v2, typeUser, v.key, v.seqno⟩ := by
  rw [decodeKey, Version.record, decodeBytes_encodeUserKey]
  rfl

theorem liveRecords_records {starts : List (List Version)} (h : ∀ r ∈ starts, nonempty r = true) :
    liveRecords (starts.map (List.map Version.record)) =
    .ok ((starts.filterMap List.head?).filterMap Version.livePair) := by
  induction starts with
  | nil => rfl
  | cons r starts ih =>
    rw [forall_mem_cons] at h
    cases r with
    | nil => simp [nonempty] at h
    | cons v r =>
      have hv : decodeKey (encodeUserKey v.key v.seqno) = _ := decodeKey_record v
      change liveRecords (((encodeUserKey v.key v.seqno, v.value) :: r.map Version.record) ::
        starts.map (List.map Version.record)) = _
      rw [liveRecords, hv, ok_bind, ih h.2, ok_bind]
      cases ht : isTombstone v.value <;> simp [Version.livePair, ht, pure, Except.pure]

section
variable {m : DB} (hm : WellFormed m)
include hm

theorem scan_eq {low high : Bytes} (hlow : IsBound low) (hhigh : IsBound high) :
    physical.scan m low high = .ok (liveScan m low high) := by
  simp only [physical, newIter_range hm hlow hhigh]
  rw [stops_nextUserKey (rangeVersions_sorted hm low high) (noNull_of_mem_rangeVersions hm),
    liveRecords_records (groupStarts_nonempty _ _)]
  rfl

theorem point_eq {key : Bytes} (hkey : Admitted key) : physical.point m key = live (latest m key) := by
  rw [physical_point, seekLatest_eq hm.nullFree hkey.nonempty hkey.noNull, live, Option.bind_map]
  rfl

theorem mem_firsts_range {low high : Bytes} (v : Version) : v ∈ firsts Version.key (rangeVersions m low high) ↔
    InRange low high v.key ∧ latest m v.key = some (v.seqno, v.value) := by
  have hsorted := rangeVersions_sorted hm low high
  have hfirst : v ∈ firsts Version.key (rangeVersions m low high) ↔ _ :=
    (mem_firsts Version.key (hsorted.imp fun h => h.key_le) v).trans
      (find?_eq_newest hsorted v.key (by simp) v)
  rw [hfirst, latest_eq_some_iff hm.nullFree]
  simp only [rangeVersions, mem_filter, decide_eq_true_eq, true_and]
  constructor
  · rintro ⟨⟨hv, hin⟩, hmax⟩
    exact ⟨hin, hv, fun w hw hkey => hmax w ⟨hw, hkey ▸ hin⟩ hkey⟩
  · rintro ⟨hin, hv, hmax⟩
    exact ⟨⟨hv, hin⟩, fun w hw hkey => hmax w hw.1 hkey⟩

theorem mem_liveScan {low high : Bytes} (kv : KeyValue) :
    kv ∈ liveScan m low high ↔ InRange low high kv.key ∧ live (latest m kv.key) = some kv.value := by
  rw [liveScan, mem_filterMap]
  constructor
  · rintro ⟨v, hv, hpair⟩
    rw [mem_firsts_range hm] at hv
    rw [Version.livePair] at hpair
    split at hpair
    · cases hpair
    · next ht =>
      cases hpair
      exact ⟨hv.1, by simp [hv.2, live, ht]⟩
  · rintro ⟨hin, hlive⟩
    rw [live, Option.bind_eq_some_iff] at hlive
    obtain ⟨⟨s, x⟩, hlatest, hx⟩ := hlive
    split at hx
    · cases hx
    · next ht =>
      cases hx
      exact ⟨⟨kv.key, s, kv.value⟩, (mem_firsts_range hm _).mpr ⟨hin, hlatest⟩, by
        simp [Version.livePair, ht]⟩

theorem liveScan_sorted (low high : Bytes) : (liveScan m low high).Pairwise (fun a b => a.key < b.key) := by
  have hle := (rangeVersions_sorted hm low high).imp fun h => h.key_le
  rw [liveScan, pairwise_filterMap]
  apply (firsts_ascending Version.key hle).imp
  intro v w hlt a ha b hb
  have hkey : ∀ {v : Version} {a : KeyValue}, v.livePair = some a → a.key = v.key := by
    intro v a ha
    rw [Version.livePair] at ha
    split at ha
    · cases ha
    · rw [← Option.some.inj ha]
  rw [hkey ha, hkey hb]
  exact hlt

end

end Armada.Fsm
