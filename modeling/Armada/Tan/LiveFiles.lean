import Armada.Tan.Replay

/-! The files that a compaction lets go. The store goes through any sequence of writes,
snapshots, removals of entries and reopenings, and what the index points to stays. -/

namespace Armada.Tan

open Raft Program List

/-- The numbers of the files in the version set. -/
def DB.fileNums (d : DB) : List ℕ := d.logs.map (·.1)

/-- Every run and both pointers are to files in the version set. -/
structure DB.PointsToFiles (d : DB) : Prop where
  entries : ∀ e ∈ d.index.entries.entries, e.fileNum ∈ d.fileNums
  snapshot : d.index.snapshot.empty = false → d.index.snapshot.fileNum ∈ d.fileNums
  state : d.index.state.empty = false → d.index.state.fileNum ∈ d.fileNums

/-- The file has no record that the index gives for the last state, for the newest snapshot
or for an entry above the compaction index. -/
structure DB.NotLive (d : DB) (num : ℕ) : Prop where
  entries : ∀ i place, d.index.entries.compactedTo < i → locate d.index.entries.entries i = some place → place.1 ≠ num
  snapshot : d.index.snapshot.empty = false → d.index.snapshot.fileNum ≠ num
  state : d.index.state.empty = false → d.index.state.fileNum ≠ num

/-- From the one store to the other only files went that were not live, and the index gives
the same records for what is live. -/
structure LetsGo (d d' : DB) : Prop where
  subset : d'.logs ⊆ d.logs
  gone : ∀ num ∈ d.fileNums, num ∉ d'.fileNums → d.NotLive num
  entries : ∀ i, d.index.entries.compactedTo < i → locate d'.index.entries.entries i = locate d.index.entries.entries i
  snapshot : d'.index.snapshot = d.index.snapshot
  state : d'.index.state = d.index.state
  points : d'.PointsToFiles

/-- The store that the event compacts, if it does. -/
def Event.compacts (opts : Options) : Event → DB → Option DB
  | saveRaftState _, _ => none
  | saveSnapshots _, _ => none
  | removeEntriesTo index, d => some (d.doWriteLocked opts (getCompactionUpdate index))
  | reopen closed, d =>
    match loadFiles (d.onDisk closed) with
    | .error _ => none
    | .ok (files, n) =>
      if 0 < n.entries.compactedTo then some ⟨files, d.nextFileNum, [], 0, d.nextFileNum + 1, n, emptyState⟩ else none

/-- Updates are not those that record a removal, and their entries have consecutive indexes. -/
def Event.WellFormed : Event → Prop
  | saveRaftState u => isCompactionUpdate u = none ∧ ∀ e es, u.entriesToSave = e :: es → Consecutive e.index (e :: es)
  | _ => True

section
variable {opts : Options} {d : DB} {u : Update}

theorem Laid.pointsToFiles (h : Laid d) : d.PointsToFiles := by
  have hpointer {p : IndexEntry} (hp : p = .none ∨ p.fileNum ∈ d.logs.map (·.1)) (hne : p.empty = false) :
      p.fileNum ∈ d.fileNums := by
    obtain rfl | hp := hp
    · cases hne
    · exact hp
  exact ⟨fun e he => h.fileNum_mem he, hpointer h.pointers.snapshotFile, hpointer h.pointers.stateFile⟩

theorem Laid.makeRoomForWrite (h : Laid d) : Laid (d.makeRoomForWrite opts) := by
  rw [DB.makeRoomForWrite]
  split_ifs
  · exact h
  · exact h.switchToNewLog

theorem Laid.doWriteLocked (h : Laid d) (hu : ∀ e es, u.entriesToSave = e :: es → Consecutive e.index (e :: es)) :
    Laid (d.doWriteLocked opts u) := h.makeRoomForWrite.append hu

theorem Laid.write (opts : Options) (h : Laid d) (hnone : isCompactionUpdate u = none)
    (hu : ∀ e es, u.entriesToSave = e :: es → Consecutive e.index (e :: es)) :
    ∃ d', d.write opts u = .ok d' ∧ Laid d' := by
  rw [DB.write, if_neg (by simp [hnone])]
  split_ifs
  · exact ⟨d, rfl, h⟩
  · exact ⟨_, rfl, h.doWriteLocked hu⟩

theorem Laid.compactionLocked (h : Laid d) : Laid d.compactionLocked := by
  obtain hsame | ⟨m, gone, hdrop⟩ := h.compaction_cases
  · rwa [hsame]
  · exact hdrop.laid h

/-- A file that goes ends at or below the compaction index and is before those of the pointers. -/
theorem Drops.notLive {d' : DB} {m num : ℕ} {gone : List ℕ} (h : Drops d d' m gone) (hgone : num ∈ gone) :
    d.NotLive num := by
  obtain ⟨hle, -⟩ := h.gone num hgone
  refine ⟨fun i place hi hloc hnum => ?_, fun hne hnum => ?_, fun hne hnum => ?_⟩
  · have := h.lt_of_locate hloc hi
    omega
  · have := h.snapshot (by simpa [IndexEntry.empty] using hne)
    omega
  · have := h.state (by simpa [IndexEntry.empty] using hne)
    omega

theorem Laid.letsGo (h : Laid d) : LetsGo d d.compactionLocked := by
  obtain hsame | ⟨m, gone, hdrop⟩ := h.compaction_cases
  · rw [hsame]
    exact ⟨List.Subset.refl _, fun num hin hout => absurd hin hout, fun _ _ => rfl, rfl, rfl, h.pointsToFiles⟩
  refine ⟨hdrop.logs_sublist.subset, fun num hin hout => hdrop.notLive ?_, fun i hi => hdrop.locate_eq h hi, ?_, ?_,
    (hdrop.laid h).pointsToFiles⟩
  · by_contra hkept
    obtain ⟨f, hf, rfl⟩ := mem_map.mp hin
    exact hout (mem_map_of_mem (hdrop.mem_logs hf hkept))
  · rw [hdrop.eq]
  · rw [hdrop.eq]

theorem Laid.loads (h : Laid d) (closed : Bool) : ∃ files n, Tan.loadFiles (d.onDisk closed) = .ok (files, n) ∧
    Laid ⟨files, d.nextFileNum, [], 0, d.nextFileNum + 1, n, emptyState⟩ := by
  obtain ⟨n, hn, hload⟩ := h.loadFiles closed
  have hlaid : Laid { d with index := n, state := emptyState } := h.withIndex hn
  exact ⟨_, _, hload, hlaid.switchToNewLog⟩

theorem Event.laid (opts : Options) (h : Laid d) (e : Event) (he : e.WellFormed) :
    ∃ d', e.run opts d = .ok d' ∧ Laid d' ∧
    ∀ b, e.compacts opts d = some b → d' = b.compactionLocked ∧ LetsGo b d' := by
  cases e with
  | saveRaftState u =>
    obtain ⟨d', hrun, hd'⟩ := h.write opts he.1 he.2
    exact ⟨d', hrun, hd', fun b hb => by cases hb⟩
  | saveSnapshots ss =>
    rw [Event.run, DB.saveSnapshots]
    split_ifs with hempty
    · exact ⟨d, rfl, h, fun b hb => by cases hb⟩
    · obtain ⟨d', hrun, hd'⟩ := h.write opts (u := ⟨emptyState, [], ss⟩)
        (isCompactionUpdate_of_ne (show emptyState.term ≠ compactionFlag by decide)) fun e es h => by cases h
      exact ⟨d', hrun, hd', fun b hb => by cases hb⟩
  | removeEntriesTo index =>
    have hwrite : Laid (d.doWriteLocked opts (getCompactionUpdate index)) := h.doWriteLocked fun e es h => by cases h
    refine ⟨_, by rw [Event.run, DB.removeEntries_eq], hwrite.compactionLocked, fun b hb => ?_⟩
    cases hb
    exact ⟨rfl, hwrite.letsGo⟩
  | reopen closed =>
    obtain ⟨files, n, hload, hlaid⟩ := h.loads closed
    rw [Event.run, DB.reopen, openDB, Event.compacts, hload, ok_bind]
    dsimp only
    split_ifs with hpos
    · refine ⟨_, rfl, hlaid.compactionLocked, fun b hb => ?_⟩
      cases hb
      exact ⟨rfl, hlaid.letsGo⟩
    · exact ⟨_, rfl, hlaid, fun b hb => by cases hb⟩

end

theorem laid_runEvents (opts : Options) (es : List Event) {d : DB} (h : Laid d) (hes : ∀ e ∈ es, e.WellFormed) :
    ∃ d', runEvents opts es d = .ok d' ∧ Laid d' := by
  induction es generalizing d with
  | nil => exact ⟨d, rfl, h⟩
  | cons e es ih =>
    rw [forall_mem_cons] at hes
    obtain ⟨d1, hrun, h1, -⟩ := Event.laid opts h e hes.1
    rw [runEvents, hrun, ok_bind]
    exact ih h1 hes.2

/-- After any run every run and pointer of the index is to a file in the version set, and a
compaction that the next event does lets go of no file that is live. -/
theorem compaction_keeps_live_files (opts : Options) (es : List Event) (hes : ∀ e ∈ es, e.WellFormed) :
    ∃ d, runEvents opts es newDB = .ok d ∧ d.PointsToFiles ∧
      ∀ e : Event, e.WellFormed → ∃ d', e.run opts d = .ok d' ∧ d'.PointsToFiles ∧
        ∀ b, e.compacts opts d = some b → d' = b.compactionLocked ∧ LetsGo b d' := by
  have hnew : Laid newDB := (tracks_fresh one_pos one_lt_two).laid
  obtain ⟨d, hrun, hd⟩ := laid_runEvents opts es hnew hes
  refine ⟨d, hrun, hd.pointsToFiles, fun e he => ?_⟩
  obtain ⟨d', hstep, hd', hcompacts⟩ := Event.laid opts hd e he
  exact ⟨d', hstep, hd'.pointsToFiles, hcompacts⟩

/-- A log that is overwritten and then removed up to its snapshot, over several files. -/
theorem compaction_keeps_live_files_busyReplica :
    ∃ d, runEvents smallFiles busyReplica newDB = .ok d ∧ d.PointsToFiles ∧
      ∀ e : Event, e.WellFormed → ∃ d', e.run smallFiles d = .ok d' ∧ d'.PointsToFiles ∧
        ∀ b, e.compacts smallFiles d = some b → d' = b.compactionLocked ∧ LetsGo b d' :=
  compaction_keeps_live_files smallFiles busyReplica fun e he => by
    simp only [busyReplica, mem_cons, not_mem_nil, or_false] at he
    obtain rfl | rfl | rfl | rfl | rfl | rfl | rfl := he
    · exact ⟨by decide, by rintro e es h; cases h; decide⟩
    · exact ⟨by decide, by rintro e es h; cases h; decide⟩
    · trivial
    · trivial
    · trivial
    · exact ⟨by decide, fun e es h => by cases h⟩
    · exact ⟨by decide, by rintro e es h; cases h; decide⟩

/-- Removing the entries up to 9 lets go of the file of the entries below the snapshot. -/
example : ((runEvents smallFiles (busyReplica ++ [.removeEntriesTo 9]) newDB).map DB.fileNums).toOption =
    some [2, 3, 4] := by
  decide +kernel

end Armada.Tan
