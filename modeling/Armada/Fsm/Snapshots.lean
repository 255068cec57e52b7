import Armada.Fsm.Effect

/-! Snapshots. A snapshot walks all records, the system ones too, and emits at most one
command for every user key: from its newest version, which is the first one it meets. -/

namespace Armada.Fsm

open Ordered Keys Pebble Proto Program List

/-! ### The walk over all records -/

/-- The system records of a database. -/
def systemRecords (m : DB) : List (Bytes × Bytes) := m.toList.filter fun e => e.1 ∈ systemKeys

theorem mem_systemRecords {m : DB} {e : Bytes × Bytes} (he : e ∈ systemRecords m) : e.1 ∈ systemKeys := by
  simpa using (mem_filter.mp he).2

theorem toList_eq {m : DB} (hm : NullFree m) : m.toList = (versions m).map Version.record ++ systemRecords m := by
  apply ascending_ext m.toList_ascending
  · rw [Ascending, pairwise_append]
    refine ⟨?_, m.toList_ascending.filter _, ?_⟩
    · rw [pairwise_map]
      apply (versions_sorted hm).imp_of_mem
      intro v w hv hw h
      exact (Version.record_lt_iff (noNull_of_mem_versions hm hv) (noNull_of_mem_versions hm hw)).mpr h
    · intro a ha b hb
      obtain ⟨v, -, rfl⟩ := mem_map.mp ha
      exact encodeUserKey_lt_systemKey v.key v.seqno (mem_systemRecords hb)
  · rintro ⟨p, x⟩
    rw [mem_append, systemRecords, mem_filter, m.mem_toList, mem_map]
    constructor
    · intro hp
      rcases hm p x hp with ⟨k, s, -, rfl⟩ | hsys
      · exact Or.inl ⟨⟨k, s, x⟩, (mem_versions hm ⟨k, s, x⟩).mpr hp, rfl⟩
      · exact Or.inr ⟨hp, by simpa using hsys⟩
    · rintro (⟨v, hv, heq⟩ | ⟨hp, -⟩)
      · obtain ⟨rfl, rfl⟩ := Prod.mk.inj heq
        exact (mem_versions hm v).mp hv
      · exact hp

theorem newIter_unbounded {m : DB} (hm : NullFree m) :
    newIter m .unbounded = ⟨(versions m).map Version.record ++ systemRecords m, []⟩ := by
  have hall : m.toList.filter (fun e => IterOptions.unbounded.within e.1) = m.toList :=
    filter_eq_self.mpr fun e _ => rfl
  rw [newIter, hall, toList_eq hm]

theorem nextSnapshotKey_system (keys : List (Bytes × Bytes)) {e : Bytes × Bytes} (he : e.1 ∈ systemKeys)
    (rest : List (Bytes × Bytes)) : nextSnapshotKey ⟨keys, e :: rest⟩ = ⟨keys, rest⟩ := by
  obtain ⟨p, x⟩ := e
  simp only [systemKeys, mem_cons, not_mem_nil, or_false] at he
  rcases he with rfl | rfl | rfl <;> rfl

section
variable {l : List Version} (hl : l.Pairwise Version.Before) (hnull : ∀ v ∈ l, (0 : UInt8) ∉ v.key)
  {sys : List (Bytes × Bytes)} (hsys : ∀ e ∈ sys, e.1 ∈ systemKeys)

include hsys in
theorem seekGE_append (key : Bytes) (rest : List (Bytes × Bytes)) :
    ((⟨l.map Version.record ++ sys, rest⟩ : Iterator).seekGE (encodeUserKey key 0)).rest =
    ((⟨l.map Version.record, []⟩ : Iterator).seekGE (encodeUserKey key 0)).rest ++ sys := by
  have hdrop : sys.dropWhile (fun e => decide (e.1 < encodeUserKey key 0)) = sys := by
    cases sys with
    | nil => rfl
    | cons e sys =>
      apply dropWhile_cons_of_neg
      simpa using (encodeUserKey_lt_systemKey key 0 (hsys e (by simp))).le
  simp only [Iterator.seekGE, dropWhile_append]
  split
  · next h => rw [isEmpty_iff.mp h, hdrop, nil_append]
  · rfl

include hl hnull hsys in
theorem nextSnapshotKey_records {v : Version} {r : List Version} (hr : v :: r <:+ l) :
    nextSnapshotKey ⟨l.map Version.record ++ sys, (v :: r).map Version.record ++ sys⟩ =
    ⟨l.map Version.record ++ sys, (skipGroup Version.key (v :: r)).map Version.record ++ sys⟩ := by
  have hv : (0 : UInt8) ∉ v.key := hnull v (hr.subset (by simp))
  have hstep : nextSnapshotKey ⟨l.map Version.record ++ sys, (v :: r).map Version.record ++ sys⟩ =
      iterNextUserKey ⟨l.map Version.record ++ sys, (v :: r).map Version.record ++ sys⟩
        (encodeUserKey v.key v.seqno) := by
    simp only [nextSnapshotKey, map_cons, cons_append, Version.record, decodeBytes_encodeUserKey, if_true]
  have hafter := filter_after_oldest hl hnull hv rfl
  rw [hstep, iterNextUserKey_rest _ v.key v.seqno (seekGE_append hsys v.key _),
    seekGE_records hl hnull, skipGroup_eq_filter hl hr, ← hafter]
  cases l.filter fun w => !decide (w.record.1 < encodeUserKey v.key 0) with
  | nil =>
    have hne : sys.head?.map Prod.fst ≠ some (encodeUserKey v.key 0) := by
      cases sys with
      | nil => simp
      | cons e sys =>
        intro h
        have he : e.1 = encodeUserKey v.key 0 := Option.some.inj h
        exact encodeUserKey_notMem_systemKeys v.key 0 (he ▸ hsys e (by simp))
    simp [hne]
  | cons w found =>
    simp only [map_cons, cons_append, List.head?_cons, tail_cons]
    split <;> rfl

include hsys in
theorem heads_system (keys : List (Bytes × Bytes)) (n : ℕ) :
    ∀ e ∈ ((visits Iterator.valid nextSnapshotKey n ⟨keys, sys⟩).map Iterator.rest).filterMap List.head?,
    e.1 ∈ systemKeys := by
  induction n generalizing sys with
  | zero => simp [visits]
  | succ n ih =>
    cases sys with
    | nil => simp [visits, Iterator.valid]
    | cons e sys =>
      rw [forall_mem_cons] at hsys
      have hvalid : Iterator.valid ⟨keys, e :: sys⟩ = true := rfl
      rw [visits, if_pos hvalid, nextSnapshotKey_system keys hsys.1]
      simp only [map_cons, filterMap_cons, List.head?_cons, forall_mem_cons]
      exact ⟨hsys.1, ih hsys.2⟩

include hl hnull hsys in
theorem heads_records {r : List Version} (hr : r <:+ l) {n : ℕ} (hn : r.length ≤ n) :
    ∃ sys', ((visits Iterator.valid nextSnapshotKey n
    ⟨l.map Version.record ++ sys, r.map Version.record ++ sys⟩).map Iterator.rest).filterMap List.head? =
    (firsts Version.key r).map Version.record ++ sys' ∧ ∀ e ∈ sys', e.1 ∈ systemKeys := by
  induction n generalizing r with
  | zero =>
    obtain rfl := eq_nil_of_length_eq_zero (Nat.le_zero.mp hn)
    exact ⟨[], rfl, by simp⟩
  | succ n ih =>
    cases r with
    | nil => exact ⟨_, rfl, heads_system hsys _ _⟩
    | cons v r =>
      obtain ⟨sys', heq, hsys'⟩ := ih ((skipGroup_suffix (v :: r)).trans hr)
        ((skipGroup_length Version.key v r).trans (Nat.le_of_succ_le_succ hn))
      refine ⟨sys', ?_, hsys'⟩
      have hvalid : Iterator.valid
          ⟨l.map Version.record ++ sys, (v :: r).map Version.record ++ sys⟩ = true := rfl
      rw [visits, if_pos hvalid, nextSnapshotKey_records hl hnull hsys hr, map_cons, filterMap_cons, heq, firsts_cons]
      rfl

end

theorem heads_unbounded {m : DB} (hm : NullFree m) :
    ∃ sys, ((newIter m .unbounded).stops nextSnapshotKey).filterMap List.head? =
    (firsts Version.key (versions m)).map Version.record ++ sys ∧ ∀ e ∈ sys, e.1 ∈ systemKeys := by
  rw [newIter_unbounded hm]
  exact heads_records (versions_sorted hm) (fun v => noNull_of_mem_versions hm)
    (fun e => mem_systemRecords) (suffix_refl _) (by simp)

/-! ### The records of a snapshot -/

/-- The command emitted for a newest version. -/
def changeCommand (tableName : Bytes) (v : Version) : Command :=
  if isTombstone v.value then writeDeleteCommand tableName v.key v.seqno
  else writeCommand tableName v.key v.value v.seqno

theorem decodeKey_system {p : Bytes} (hp : p ∈ systemKeys) : ∃ k, decodeKey p = .ok k ∧ k.keyType ≠ typeUser := by
  simp only [systemKeys, mem_cons, not_mem_nil, or_false] at hp
  rcases hp with rfl | rfl | rfl <;> exact ⟨_, rfl, by decide⟩

/-- A loop that emits for some user records, and skips system records, emits for the
first version of every key. -/
theorem loop_eq {loop : List (List (Bytes × Bytes)) → Except FsmError (List Command)}
    {tableName : Bytes} {keep : Version → Bool} (hnil : loop [] = .ok [])
    (huser : ∀ v rest stops cmds, loop stops = .ok cmds → loop ((Version.record v :: rest) :: stops) =
    .ok (if keep v then changeCommand tableName v :: cmds else cmds))
    (hsystem : ∀ e rest stops cmds, e.1 ∈ systemKeys → loop stops = .ok cmds → loop ((e :: rest) :: stops) = .ok cmds)
    {stops : List (List (Bytes × Bytes))} (hstops : ∀ stop ∈ stops, stop ≠ []) {vs : List Version}
    {sys : List (Bytes × Bytes)} (hheads : stops.filterMap List.head? = vs.map Version.record ++ sys)
    (hsys : ∀ e ∈ sys, e.1 ∈ systemKeys) :  loop stops = .ok ((vs.filter keep).map (changeCommand tableName)) := by
  induction stops generalizing vs sys with
  | nil =>
    cases vs with
    | nil => exact hnil
    | cons v vs => cases hheads
  | cons stop stops ih =>
    rw [forall_mem_cons] at hstops
    obtain ⟨e, rest, rfl⟩ := exists_cons_of_ne_nil hstops.1
    rw [filterMap_cons, List.head?_cons] at hheads
    cases vs with
    | cons v vs =>
      obtain ⟨rfl, htail⟩ := List.cons.inj hheads
      rw [huser v rest stops _ (ih hstops.2 htail hsys), filter_cons]
      cases keep v <;> rfl
    | nil =>
      cases sys with
      | nil => cases hheads
      | cons e' sys =>
        obtain ⟨rfl, htail⟩ := List.cons.inj hheads
        rw [forall_mem_cons] at hsys
        exact hsystem e rest stops _ hsys.1 (ih hstops.2 htail hsys.2)

theorem stops_ne_nil (it : Iterator) (advance : Iterator → Iterator) : ∀ stop ∈ it.stops advance, stop ≠ [] := by
  intro stop hstop
  obtain ⟨it', hit', rfl⟩ := mem_map.mp hstop
  have hvalid := visits_valid _ _ it' hit'
  simpa [Iterator.valid] using hvalid

theorem snapshotRecords_eq {m : DB} (hm : NullFree m) (tableName : Bytes) :
    snapshotRecords tableName ((newIter m .unbounded).stops nextSnapshotKey) =
    .ok (((firsts Version.key (versions m)).filter fun v => !isTombstone v.value).map (changeCommand tableName)) := by
  obtain ⟨sys, hheads, hsys⟩ := heads_unbounded hm
  apply loop_eq rfl _ _ (stops_ne_nil _ _) hheads hsys
  · intro v rest stops cmds h
    have hv : decodeKey (encodeUserKey v.key v.seqno) = _ := decodeKey_record v
    rw [Version.record, snapshotRecords, hv, ok_bind, h, ok_bind, changeCommand]
    cases isTombstone v.value <;> rfl
  · intro e rest stops cmds he h
    obtain ⟨k, hk, hne⟩ := decodeKey_system he
    rw [snapshotRecords, hk, ok_bind, h, ok_bind, if_neg hne]
    rfl

theorem incrementalRecords_eq {m : DB} (hm : NullFree m) (tableName : Bytes) (baseIndex : UInt64) :
    incrementalRecords tableName baseIndex ((newIter m .unbounded).stops nextSnapshotKey) =
    .ok (((firsts Version.key (versions m)).filter fun v => decide (v.seqno > baseIndex)).map
    (changeCommand tableName)) := by
  obtain ⟨sys, hheads, hsys⟩ := heads_unbounded hm
  apply loop_eq rfl _ _ (stops_ne_nil _ _) hheads hsys
  · intro v rest stops cmds h
    have hv : decodeKey (encodeUserKey v.key v.seqno) = _ := decodeKey_record v
    rw [Version.record, incrementalRecords, hv, ok_bind, h, ok_bind, changeCommand, decodeV2Seqno_encodeUserKey]
    by_cases hs : v.seqno > baseIndex
    · cases ht : isTombstone v.value <;> simp [hs] <;> rfl
    · simp [hs]
      rfl
  · intro e rest stops cmds he h
    obtain ⟨k, hk, hne⟩ := decodeKey_system he
    rw [incrementalRecords, hk, ok_bind, h, ok_bind, if_neg hne]
    rfl

theorem commandSnapshot_eq {m : DB} (hm : NullFree m) (tableName : Bytes) : commandSnapshot m tableName =
    .ok (((firsts Version.key (versions m)).filter fun v => !isTombstone v.value).map
    (changeCommand tableName), readLocalIndex m sysLocalIndex) := by
  rw [commandSnapshot, snapshotRecords_eq hm]
  rfl

/-- An incremental snapshot emits the newest version of every key, if it is above the
base it settled on. -/
theorem commandIncrementalSnapshot_eq {m : DB} (hm : NullFree m) (tableName : Bytes) (requestedBase : UInt64) :
    commandIncrementalSnapshot m tableName requestedBase =
      let base := effectiveBase requestedBase (readLocalIndex m sysGCHorizon)
      let index := readLocalIndex m sysLocalIndex
      .ok (((firsts Version.key (versions m)).filter fun v => decide (v.seqno > base)).map
        (changeCommand tableName), ⟨index, index, base, readLocalIndex m sysGCHorizon⟩) := by
  rw [commandIncrementalSnapshot, incrementalRecords_eq hm]
  rfl

theorem mem_firsts_versions {m : DB} (hm : NullFree m) (v : Version) :
    v ∈ firsts Version.key (versions m) ↔ latest m v.key = some (v.seqno, v.value) := by
  have hsorted := versions_sorted hm
  have hfirst : v ∈ firsts Version.key (versions m) ↔ _ :=
    (mem_firsts Version.key (hsorted.imp fun h => h.key_le) v).trans
      (find?_eq_newest hsorted v.key (by simp) v)
  rw [hfirst, latest_eq_some_iff hm]
  simp only [true_and]

end Armada.Fsm
