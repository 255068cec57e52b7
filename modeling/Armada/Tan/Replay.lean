import Armada.Tan.Compaction
import Armada.Tan.Restart

/-! The log that a restart rebuilds. Through any sequence of writes, local snapshots, removals
and reopenings the store follows what the core has had saved, and a restart gives that back. -/

namespace Armada.Tan

open Raft Program List

/-! ### The records of the core -/

section
variable {opts : Options} {d : DB} {c c' : Saved} {u : Update} {i : ℕ} {place : ℕ × ℕ} {ss : Snapshot}

theorem Saved.WF.receive (h : c.WF) : (c.receive ss).WF := by
  rw [Saved.receive]
  split_ifs with hempty
  · exact h
  · exact ⟨trivial, le_rfl, le_rfl, if_pos rfl, fun hzero => absurd hzero (by simpa [Snapshot.isEmpty] using hempty)⟩

section
variable {e : Entry} {es : List Entry}

theorem Saved.length_take (hlow : c.marker.index < e.index) (hhigh : e.index ≤ c.lastIndex + 1) :
    (c.entries.take (e.index - (c.marker.index + 1))).length = e.index - (c.marker.index + 1) := by
  rw [lastIndex] at hhigh
  rw [List.length_take]
  omega

theorem Saved.lastIndex_overwrite (hlow : c.marker.index < e.index) (hhigh : e.index ≤ c.lastIndex + 1) :
    (c.overwrite (e :: es)).lastIndex = e.index + es.length := by
  have := Saved.length_take hlow hhigh
  simp only [Saved.overwrite, Saved.lastIndex, length_append, length_cons, this]
  omega

theorem Saved.get_overwrite_of_lt (hhigh : e.index ≤ c.lastIndex + 1) (hi : c.marker.index < i)
    (hlt : i < e.index) : (c.overwrite (e :: es)).get i = c.get i := by
  have hlen := Saved.length_take (hi.trans hlt) hhigh
  rw [lastIndex] at hhigh
  simp only [Saved.get, Saved.overwrite, getD_eq_getElem?_getD]
  rw [List.getElem?_append_left (by omega), List.getElem?_take_of_lt (by omega)]

theorem Saved.get_overwrite_of_ge (hlow : c.marker.index < e.index) (hhigh : e.index ≤ c.lastIndex + 1)
    (hi : e.index ≤ i) (hlt : i ≤ e.index + es.length) : (c.overwrite (e :: es)).get i ∈ e :: es := by
  have hlen := Saved.length_take hlow hhigh
  have hk : i - (c.marker.index + 1) - (e.index - (c.marker.index + 1)) < (e :: es).length := by
    simp only [length_cons]
    omega
  simp only [Saved.get, Saved.overwrite, getD_eq_getElem?_getD]
  rw [List.getElem?_append_right (by omega), hlen, List.getElem?_eq_getElem hk, Option.getD_some]
  exact getElem_mem hk

theorem Saved.WF.overwrite (h : c.WF) (hcons : Consecutive e.index (e :: es)) (hlow : c.snapshot.index < e.index)
    (hhigh : e.index ≤ c.lastIndex + 1) : (c.overwrite (e :: es)).WF := by
  have hmarker := h.marker
  have hlow' : c.marker.index < e.index := by omega
  refine ⟨?_, h.marker, ?_, ?_, h.noSnapshot⟩
  · refine consecutive_append.mpr ⟨h.consecutive.take _, ?_⟩
    rw [Saved.length_take hlow' hhigh]
    change Consecutive (c.marker.index + 1 + (e.index - (c.marker.index + 1))) (e :: es)
    rwa [show c.marker.index + 1 + (e.index - (c.marker.index + 1)) = e.index by omega]
  · rw [Saved.lastIndex_overwrite hlow' hhigh]
    change c.snapshot.index ≤ _
    omega
  · have hterm := h.term
    rw [Saved.term] at hterm ⊢
    change (if c.snapshot.index = c.marker.index then c.marker.term
      else ((c.overwrite (e :: es)).get c.snapshot.index).term) = c.snapshot.term
    split_ifs at hterm ⊢ with heq
    · exact hterm
    · rwa [Saved.get_overwrite_of_lt hhigh (by omega) hlow]

end

section
variable {st : State} {ss : Snapshot}

theorem Saved.setState_eq (c : Saved) (st : State) : c.setState st = { c with state := (c.setState st).state } := by
  rw [Saved.setState]
  split_ifs <;> rfl

theorem Saved.state_setState (c : Saved) (st : State) :
    (c.setState st).state = if st = emptyState then c.state else st := by
  rw [Saved.setState]
  split_ifs <;> rfl

theorem Saved.WF.setState (h : c.WF) : (c.setState st).WF := by
  rw [Saved.setState_eq]
  exact ⟨h.consecutive, h.marker, h.last, h.term, h.noSnapshot⟩

theorem Saved.receive_of_isEmpty (h : ss.isEmpty) : c.receive ss = c := if_pos h

theorem Saved.receive_of_not_isEmpty (h : ss.isEmpty = false) :
    c.receive ss = { c with marker := ss, entries := [], snapshot := ss } := if_neg (by simp [h])

theorem Saved.receive_cases (c : Saved) (ss : Snapshot) (h : ss.isEmpty = false → c.snapshot.index < ss.index) :
    ss.index = 0 ∧ c.receive ss = c ∨ c.snapshot.index < ss.index ∧ ss.isEmpty = false ∧ (c.receive ss).snapshot = ss ∧
    (c.receive ss).lastIndex = ss.index := by
  cases hempty : ss.isEmpty with
  | true => exact .inl ⟨by simpa [Snapshot.isEmpty] using hempty, Saved.receive_of_isEmpty hempty⟩
  | false =>
    rw [Saved.receive_of_not_isEmpty hempty]
    exact .inr ⟨h hempty, rfl, rfl, rfl⟩

theorem isCompactionUpdate_of_ne (h : u.state.term ≠ compactionFlag) : isCompactionUpdate u = none :=
  if_neg fun hc => h hc.2.2

end

theorem Saved.snapshot_overwrite (c : Saved) (es : List Entry) :
    (c.overwrite es).snapshot = c.snapshot ∧ (c.overwrite es).state = c.state := by
  cases es <;> exact ⟨rfl, rfl⟩

theorem Saved.state_receive (c : Saved) (ss : Snapshot) : (c.receive ss).state = c.state ∧
    (c.receive ss).written = c.written := by
  rw [Saved.receive]
  split_ifs <;> exact ⟨rfl, rfl⟩

theorem appends_save (hwf : c.WF) (hstarted : c.Started) (h : c.Hands (.saveRaftState u)) : Appends c u (c.save u) := by
  obtain ⟨hss, hes, hflag, hst⟩ := h
  have hwf1 : (c.receive u.snapshot).WF := hwf.receive
  have hmarker := hwf1.marker
  have hcases := c.receive_cases u.snapshot hss
  have hnone := isCompactionUpdate_of_ne hflag
  have hsnap : (c.save u).snapshot = (c.receive u.snapshot).snapshot := by
    rw [Saved.save, Saved.setState_eq]
    exact (Saved.snapshot_overwrite _ _).1
  have hstate : (c.save u).state = (c.setState u.state).state := by
    rw [Saved.save, Saved.state_setState, (Saved.snapshot_overwrite _ _).2, (Saved.state_receive _ _).1,
      Saved.state_setState]
  have hget : ∀ i, (c.save u).get i = ((c.receive u.snapshot).overwrite u.entriesToSave).get i := fun i => by
    rw [Saved.save, Saved.setState_eq]
    rfl
  have hlast : (c.save u).lastIndex = ((c.receive u.snapshot).overwrite u.entriesToSave).lastIndex := by
    rw [Saved.save, Saved.setState_eq]
    rfl
  have hwritten : (c.save u).written = ((c.receive u.snapshot).overwrite u.entriesToSave).written := by
    rw [Saved.save, Saved.setState_eq]
  refine ⟨?_, fun hsome => ?_, ?_, fun e es heq => (hes e es heq).1, by simp [hnone], ?_, fun i hi hil hlt =>
    ?_, ?_, ?_⟩
  · refine Saved.WF.setState ?_
    cases heq : u.entriesToSave with
    | nil => exact hwf1
    | cons e es =>
      obtain ⟨hcons, hlow, hhigh⟩ := hes e es heq
      exact hwf1.overwrite hcons hlow hhigh
  · rw [hstate]
    by_cases hnew : u.snapshot.isEmpty = false ∨ u.entriesToSave ≠ []
    · exact hst hnew
    · obtain ⟨hempty, hnil⟩ : u.snapshot.isEmpty = true ∧ u.entriesToSave = [] := by simpa using hnew
      have hsame : c.save u = c.setState u.state := by
        rw [Saved.save, Saved.receive_of_isEmpty hempty, hnil, Saved.overwrite]
      have hold : c.state ≠ emptyState := by
        rw [hsame, Saved.setState_eq] at hsome
        exact hstarted hsome
      rw [Saved.state_setState]
      split_ifs with hu
      · exact hold
      · exact hu
  · rw [hsnap]
    obtain ⟨-, heq⟩ | ⟨hlt, -, heq, -⟩ := hcases <;> rw [heq]
    exact hlt.le
  · rw [hwritten, hsnap]
    cases heq : u.entriesToSave with
    | nil => exact .inl ⟨rfl, (Saved.state_receive _ _).2⟩
    | cons e es =>
      obtain ⟨hcons, hlow, hhigh⟩ := hes e es heq
      have hlow' : (c.receive u.snapshot).marker.index < e.index := by omega
      have hlast' : ((c.receive u.snapshot).overwrite (e :: es)).lastIndex = e.index + es.length :=
        Saved.lastIndex_overwrite hlow' hhigh
      rw [← heq] at hlast'
      refine .inr ⟨e, es, rfl, hlow, last_index hcons, hlast.trans hlast', fun i hi hil => ?_⟩
      rw [hget, heq]
      exact Saved.get_overwrite_of_ge hlow' hhigh hi (by omega)
  · rw [hsnap] at hi
    rw [hlast] at hil
    rw [hget]
    obtain ⟨-, heq⟩ | ⟨-, -, hsnap1, hlast1⟩ := hcases
    · rw [heq] at hi hil hes ⊢
      cases hcons : u.entriesToSave with
      | nil => exact ⟨by rwa [hcons] at hil, rfl⟩
      | cons e es =>
        obtain ⟨-, hlow, hhigh⟩ := hes e es hcons
        have hie : i < e.index := hlt e (by simp [hcons])
        exact ⟨by omega, Saved.get_overwrite_of_lt hhigh (by have := hwf.marker; omega) hie⟩
    · -- a received snapshot leaves nothing between it and the first new entry
      cases hcons : u.entriesToSave with
      | nil =>
        rw [hcons, Saved.overwrite, hlast1] at hil
        rw [hsnap1] at hi
        omega
      | cons e es =>
        have hhigh := (hes e es hcons).2.2
        have hie : i < e.index := hlt e (by simp [hcons])
        rw [hlast1] at hhigh
        rw [hsnap1] at hi
        omega
  · rw [hstate, Saved.state_setState]
    simp only [hnone, true_and, ne_eq, ite_not]
  · rw [hsnap]
    obtain ⟨hzero, heq⟩ | ⟨hlt, -, heq, -⟩ := hcases
    · rw [heq, if_neg (by omega)]
    · rw [heq, if_pos hlt]

theorem appends_same (hwf : c'.WF) (hstarted : c'.Started) (hnil : u.entriesToSave = [])
    (hle : c.snapshot.index ≤ c'.snapshot.index) (hlog : c'.marker = c.marker ∧ c'.entries = c.entries)
    (hwritten : c'.written = c.written) (hcomp : ∀ k, isCompactionUpdate u = some k → k ≤ c'.snapshot.index)
    (hstate : c'.state = if isCompactionUpdate u = none ∧ u.state ≠ emptyState then u.state else c.state)
    (hsnap : c'.snapshot = if c.snapshot.index < u.snapshot.index then u.snapshot else c.snapshot) :
    Appends c u c' := by
  refine ⟨hwf, hstarted, hle, by simp [hnil], hcomp, .inl ⟨hnil, hwritten⟩, fun i _ hi _ => ?_, hstate, hsnap⟩
  rw [Saved.lastIndex, hlog.1, hlog.2] at hi
  rw [Saved.get, hlog.1, hlog.2]
  exact ⟨hi, rfl⟩

theorem appends_saveSnapshot (hwf : c.WF) (hstarted : c.Started) (h : c.Hands (.saveSnapshots ss))
    (hne : ss.isEmpty = false) : Appends c ⟨emptyState, [], ss⟩ (c.saveSnapshot ss) := by
  have hnone : isCompactionUpdate ⟨emptyState, [], ss⟩ = none := if_neg (by simp [hne])
  rw [Saved.saveSnapshot]
  split_ifs with hlt
  · obtain ⟨hle, hterm⟩ := h hlt
    refine appends_same ⟨hwf.consecutive, hwf.marker.trans hlt.le, hle, hterm, fun hzero => ?_⟩ (fun _ => ?_) rfl hlt.le
      ⟨rfl, rfl⟩ rfl (by simp [hnone]) (by simp [hnone]) (if_pos hlt).symm
    · dsimp only at hzero
      omega
    · -- the log is not empty, since it reaches the snapshot
      refine hstarted ?_
      by_cases hzero : c.snapshot.index = 0
      · refine .inl fun hnil => ?_
        have hmarker := hwf.marker
        rw [Saved.lastIndex, hnil, length_nil] at hle
        omega
      · exact .inr hzero
  · exact appends_same hwf hstarted rfl le_rfl ⟨rfl, rfl⟩ rfl (by simp [hnone]) (by simp [hnone]) (if_neg hlt).symm

theorem isCompactionUpdate_getCompactionUpdate (index : ℕ) :
    isCompactionUpdate (getCompactionUpdate index) = some index := if_pos ⟨rfl, rfl, rfl⟩

theorem appends_compaction {index : ℕ} (hwf : c.WF) (hstarted : c.Started) (h : index ≤ c.snapshot.index) :
    Appends c (getCompactionUpdate index) c := by
  have hsome := isCompactionUpdate_getCompactionUpdate index
  refine appends_same hwf hstarted rfl le_rfl ⟨rfl, rfl⟩ rfl (fun k hk => ?_) (by simp [hsome]) (if_neg ?_).symm
  · rw [hsome] at hk
    cases hk
    exact h
  · change ¬ c.snapshot.index < 0
    omega

/-! ### Compaction and restarts -/

theorem Tracks.compactionLocked (h : Tracks d c) : Tracks d.compactionLocked c := by
  obtain hsame | ⟨m, gone, hdrop⟩ := h.laid.compaction_cases
  · rw [hsame]
    exact h
  have hcomp := h.compacted.entries
  have hindex : d.compactionLocked.index.state = d.index.state ∧
      d.compactionLocked.index.snapshot = d.index.snapshot ∧ d.compactionLocked.state = d.state := by
    rw [hdrop.eq]
    exact ⟨rfl, rfl, rfl⟩
  have hloc : ∀ i, c.snapshot.index < i →
      locate d.compactionLocked.index.entries.entries i = locate d.index.entries.entries i := fun i hi =>
    hdrop.locate_eq h.laid (by omega)
  refine ⟨hdrop.laid h.laid, hdrop.compacted h.compacted, h.wf, h.started, fun i hlow hhigh => ?_, fun i hi => ?_,
    fun i hi => ?_, fun i hi => ?_, ?_, ?_, ?_, ?_⟩
  · obtain ⟨hi, p, v, hp, hv, hmem⟩ := h.has i hlow hhigh
    exact ⟨hi, p, v, by rw [hloc i hlow, hp], hdrop.holds (hdrop.lt_of_locate hp (by omega)) hv, hmem⟩
  · rw [hloc i hi]
    exact h.beyond i hi
  · rw [hloc i hi]
    exact h.dense i hi
  · rw [hloc i hi, hdrop.locate_runs h.laid (by omega) (h.agree i hi) (fun j hj => h.beyond j (hi.trans hj))
      (h.dense i hi)]
    exact h.agree i hi
  · rw [hindex.1]
    refine h.state.imp_right ?_
    rintro ⟨hne, hfile, v, hv, hst⟩
    exact ⟨hne, hfile, v, hdrop.holds (hdrop.state hfile) hv, hst⟩
  · rw [hindex.2.1]
    refine h.snapshot.imp_right ?_
    rintro ⟨hne, hfile, v, hv, hss⟩
    exact ⟨hne, hfile, v, hdrop.holds (hdrop.snapshot hfile) hv, hss⟩
  · rw [hindex.2.1]
    exact h.start
  · rw [hindex.2.2]
    exact h.cached

theorem Tracks.withIndex {n : NodeIndex} (h : Tracks d c) (hn : Rebuilds d n) :
    Tracks { d with index := n, state := emptyState } c := by
  have hloc : ∀ i, c.snapshot.index < i → locate n.entries.entries i = locate d.index.entries.entries i :=
    fun i hi => by
    rw [hn.entries, h.agree i hi]
  refine ⟨h.laid.withIndex hn, h.compacted.withIndex hn, h.wf, h.started, fun i hlow hhigh => ?_, fun i hi => ?_,
    fun i hi => ?_, fun i hi => ?_, ?_, ?_, ?_, .inl rfl⟩
  · obtain ⟨hi, p, v, hp, hv, hmem⟩ := h.has i hlow hhigh
    exact ⟨hi, p, v, (hloc i hlow).trans hp, hv, hmem⟩
  · exact (hloc i hi).symm ▸ h.beyond i hi
  · exact (hloc i hi).symm ▸ h.dense i hi
  · exact congrArg (locate · i) hn.entries
  · change c.state = emptyState ∧ n.state = .none ∨ c.state ≠ emptyState ∧
      n.state.fileNum ≠ 0 ∧ ∃ u, d.Holds n.state.place u ∧ u.state = c.state
    rw [hn.state]
    exact h.state
  · change c.snapshot.index = 0 ∧ n.snapshot = .none ∨ c.snapshot.index ≠ 0 ∧
      n.snapshot.fileNum ≠ 0 ∧ ∃ u, d.Holds n.snapshot.place u ∧ u.snapshot = c.snapshot
    rw [hn.snapshot]
    exact h.snapshot
  · change n.snapshot.start = c.snapshot.index
    rw [hn.snapshot]
    exact h.start

theorem Saved.restart_lastIndex (h : c.WF) : c.restart.lastIndex = c.lastIndex := by
  have hmarker := h.marker
  have hlast := h.last
  rw [lastIndex] at hlast
  simp only [Saved.restart, Saved.lastIndex, length_drop]
  omega

theorem Saved.restart_get (h : c.WF) (hi : c.snapshot.index < i) : c.restart.get i = c.get i := by
  have hmarker := h.marker
  simp only [Saved.restart, Saved.get, getD_eq_getElem?_getD, List.getElem?_drop]
  congr 2
  omega

theorem Tracks.restart (h : Tracks d c) : Tracks d c.restart := by
  have hwf := h.wf
  have hmarker := hwf.marker
  have hlast := hwf.last
  rw [Saved.lastIndex] at hlast
  refine ⟨h.laid, h.compacted, ⟨?_, le_rfl, ?_, if_pos rfl, hwf.noSnapshot⟩, fun hsome => h.started ?_,
    fun i hlow hhigh => ?_, h.beyond, h.dense, h.agree, h.state, h.snapshot, h.start, h.cached⟩
  · have := hwf.consecutive.drop (n := c.snapshot.index - c.marker.index) (by omega)
    rwa [show c.marker.index + 1 + (c.snapshot.index - c.marker.index) = c.snapshot.index + 1 by omega] at this
  · rw [Saved.restart_lastIndex hwf]
    exact hwf.last
  · refine hsome.imp_left fun hne hnil => hne ?_
    simp [Saved.restart, hnil]
  · rw [Saved.restart_lastIndex hwf] at hhigh
    rw [Saved.restart_get hwf hlow]
    exact h.has i hlow hhigh

theorem Tracks.reopen (h : Tracks d c) (closed : Bool) : ∃ d', d.reopen closed = .ok d' ∧ Tracks d' c := by
  obtain ⟨n, hn, hload⟩ := h.laid.loadFiles closed
  have hd1 := (h.withIndex hn).switchToNewLog
  rw [DB.reopen, openDB, hload, ok_bind]
  refine ⟨_, rfl, ?_⟩
  split_ifs
  · exact hd1.compactionLocked
  · exact hd1

theorem setCompactedTo_twice (idx : Index) (k : ℕ) :
    (idx.setCompactedTo k).setCompactedTo k = idx.setCompactedTo k := by
  simp only [Index.setCompactedTo]
  split_ifs <;> simp_all

theorem DB.removeEntries_eq (opts : Options) (index : ℕ) (d : DB) :
    d.removeEntries opts index = (d.doWriteLocked opts (getCompactionUpdate index)).compactionLocked := by
  simp only [DB.removeEntries, DB.doWriteLocked, DB.append, updateIndex, isCompactionUpdate_getCompactionUpdate,
    setCompactedTo_twice]

theorem Tracks.write (h : Tracks d c) (ha : Appends c u c') (hnone : isCompactionUpdate u = none)
    (hsame : u.state = d.state → u.snapshot.isEmpty → u.entriesToSave = [] → c' = c) :
    ∃ d', d.write opts u = .ok d' ∧ Tracks d' c' := by
  rw [DB.write, if_neg (by simp [hnone])]
  split_ifs with hskip
  · rw [hsame hskip.1 hskip.2.1 hskip.2.2]
    exact ⟨d, rfl, h⟩
  · exact ⟨_, rfl, h.makeRoomForWrite.append ha⟩

theorem Saved.save_state (c : Saved) (hempty : u.snapshot.isEmpty) (hnil : u.entriesToSave = []) :
    c.save u = c.setState u.state := by
  rw [Saved.save, Saved.receive_of_isEmpty hempty, hnil, Saved.overwrite]

theorem Tracks.save_of_cached (h : Tracks d c) (hflag : u.state.term ≠ compactionFlag) (hst : u.state = d.state)
    (hempty : u.snapshot.isEmpty) (hnil : u.entriesToSave = []) : c.save u = c := by
  rw [c.save_state hempty hnil, Saved.setState]
  split_ifs with hu
  · rfl
  · obtain hc | hc | hc := h.cached
    · exact absurd (hst.trans hc) hu
    · exact absurd (hst ▸ hc) hflag
    · rw [hst, hc]

/-- No step of the core makes the store fail, and the store keeps up with it. -/
theorem Tracks.step (opts : Options) {e : Event} (h : Tracks d c) (hh : c.Hands e) :
    ∃ d', e.run opts d = .ok d' ∧ Tracks d' (e.core c) := by
  cases e with
  | saveRaftState u =>
    have hflag := hh.2.2.1
    exact h.write (appends_save h.wf h.started hh) (isCompactionUpdate_of_ne hflag) (h.save_of_cached hflag)
  | saveSnapshots ss =>
    rw [Event.run, DB.saveSnapshots, Event.core]
    split_ifs with hempty
    · have hzero : ss.index = 0 := by simpa [Snapshot.isEmpty] using hempty
      rw [Saved.saveSnapshot, if_neg (by omega)]
      exact ⟨d, rfl, h⟩
    · have hne : ss.isEmpty = false := by simpa using hempty
      exact h.write (appends_saveSnapshot h.wf h.started hh hne) (if_neg (by simp [hne])) fun _ he => absurd he hempty
  | removeEntriesTo index =>
    refine ⟨_, rfl, ?_⟩
    rw [DB.removeEntries_eq]
    exact (h.makeRoomForWrite.append (appends_compaction h.wf h.started hh)).compactionLocked
  | reopen closed =>
    obtain ⟨d', hd', htracks⟩ := h.reopen closed
    exact ⟨d', hd', htracks.restart⟩

theorem tracks_fresh {num offset next : ℕ} (hpos : 0 < num) (hnext : num < next) :
    Tracks ⟨[], num, [], offset, next, .init, emptyState⟩ .init := by
  refine ⟨⟨⟨by simp [DB.logs], by simpa [DB.logs] using hpos, by simp [DB.logs], by simp [DB.logs]⟩,
    hnext, by simp, by simp, rfl, ⟨⟨.nil, by simp [NodeIndex.init, Index.empty]⟩, .nil,
    by simp [NodeIndex.init, Index.empty]⟩, ⟨rfl, rfl, by simp, by simp, by simp,
    .inl rfl, .inl rfl⟩⟩, ⟨le_rfl, le_rfl, by simp, by simp⟩,
    ⟨trivial, le_rfl, le_rfl, rfl, fun _ => rfl⟩, fun h => h.elim (absurd rfl) (absurd rfl), fun i hlow hhigh => ?_,
    fun i _ hi => absurd rfl hi, fun i hi hle => ?_, fun i _ => ?_, .inl ⟨rfl, rfl⟩, .inl ⟨rfl, rfl⟩, rfl, .inl rfl⟩
  · change 1 ≤ i at hlow
    change i < 1 at hhigh
    omega
  · change 0 < i at hi
    change i ≤ 0 at hle
    omega
  · rfl

variable {es : List Event}

theorem Tracks.run (opts : Options) (h : Tracks d c) (hh : Hands es c) :
    ∃ d', runEvents opts es d = .ok d' ∧ Tracks d' (coreAfter es c) := by
  induction es generalizing d c with
  | nil => exact ⟨d, rfl, h⟩
  | cons e es ih =>
    obtain ⟨d1, hstep, h1⟩ := h.step opts hh.1
    obtain ⟨d', hrun, h'⟩ := ih h1 hh.2
    refine ⟨d', ?_, h'⟩
    rw [runEvents, hstep, ok_bind, hrun]

/-! ### The rebuilt log -/

theorem Tracks.getSnapshot (h : Tracks d c) : d.getSnapshot = .ok c.snapshot := by
  obtain ⟨hzero, hnone⟩ | ⟨hne, hfile, u, hu, hss⟩ := h.snapshot
  · rw [DB.getSnapshot, hnone, h.wf.noSnapshot hzero]
    rfl
  · rw [h.laid.getSnapshot hfile hu (by rw [hss]; simpa [Snapshot.isEmpty] using hne), hss]

theorem Tracks.ofSnapshot (h : Tracks d c) : LogReader.ofSnapshot c.snapshot =
    .ok ⟨c.snapshot, emptyState, c.snapshot.index, c.snapshot.term, 1⟩ := by
  rw [LogReader.ofSnapshot]
  split_ifs with hempty
  · have hzero : c.snapshot.index = 0 := by simpa [Snapshot.isEmpty] using hempty
    rw [h.wf.noSnapshot hzero]
    rfl
  · have hne : c.snapshot.index ≠ 0 := by simpa [Snapshot.isEmpty] using hempty
    rw [LogReader.applySnapshot, LogReader.setSnapshot, if_neg (by simpa [LogReader.new, emptySnapshot] using hne)]
    rfl

/-- When no entries above the log were left in the store, a restart sets the reader to
the whole log. -/
theorem Tracks.replayLog (h : Tracks d c) (hw : c.written ≤ c.lastIndex) : ∃ new,
    replayLog d = .ok (new, ⟨c.snapshot, c.state, c.snapshot.index, c.snapshot.term,
    1 + (c.lastIndex - c.snapshot.index)⟩) := by
  have hlast := h.wf.last
  rw [Tan.replayLog, h.getSnapshot, ok_bind, h.ofSnapshot, ok_bind]
  obtain ⟨hempty, hnone⟩ | ⟨hne, hfile, u, hu, hst⟩ := h.state
  · -- without a state there is no log yet
    have hraft : d.getRaftState c.snapshot.index = .error .noSavedLog := by
      rw [DB.getRaftState, hnone]
      rfl
    obtain ⟨hnil, hzero⟩ : c.entries = [] ∧ c.snapshot.index = 0 := by
      have := mt h.started (not_not.mpr hempty)
      simpa using this
    have hlen : c.lastIndex = 0 := by
      have := h.wf.marker
      rw [Saved.lastIndex, hnil, length_nil]
      omega
    rw [hraft]
    exact ⟨true, by rw [hempty, hlen, hzero]⟩
  · obtain ⟨first, hraft, hfirst⟩ := h.laid.getRaftState hfile hu (by rwa [hst]) hlast
      (fun i hi hle => by
        obtain ⟨-, p, -, hp, -⟩ := h.has i hi (by omega)
        rw [hp]
        simp)
      (fun i hi hne => (h.beyond i hi hne).trans hw)
    rw [hraft, hst]
    simp only [hne, if_false]
    have hrange : (LogReader.setState ⟨c.snapshot, emptyState, c.snapshot.index, c.snapshot.term, 1⟩ c.state).setRange
        first (c.lastIndex - c.snapshot.index) =
        .ok ⟨c.snapshot, c.state, c.snapshot.index, c.snapshot.term, 1 + (c.lastIndex - c.snapshot.index)⟩ := by
      obtain heq | hlt := hlast.eq_or_lt
      · rw [LogReader.setRange, if_pos (.inl (by omega)), heq, Nat.sub_self]
        rfl
      · rw [hfirst hlt]
        rw [LogReader.setRange, if_neg (by simp only [LogReader.firstIndex, LogReader.setState]; omega),
          if_neg (by simp only [LogReader.firstIndex, LogReader.setState]; omega), LogReader.extend,
          if_neg (by simp only [LogReader.setState]; omega), if_pos (by simp only [LogReader.setState]; omega)]
        rfl
    rw [hrange]
    exact ⟨_, rfl⟩

theorem Tracks.term (h : Tracks d c) (hlow : c.snapshot.index < i) (hhigh : i ≤ c.lastIndex) :
    LogReader.term opts d ⟨c.snapshot, c.state, c.snapshot.index, c.snapshot.term,
    1 + (c.lastIndex - c.snapshot.index)⟩ i = .ok (c.term i) := by
  have hcomp := h.compacted.entries
  have hmarker := h.wf.marker
  have hsome := opts.readsSome
  obtain ⟨size, hread⟩ :=
    h.laid.getEntries opts (h.has.mono hlow (Nat.succ_le_succ hhigh)) (lt_add_one i) (by omega)
  have hslice : slice c.get i (i + 1) = [c.get i] := by rw [slice_cons (lt_add_one i), slice_self]
  rw [hslice] at hread
  have hentries : LogReader.entriesLocked opts d ⟨c.snapshot, c.state, c.snapshot.index, c.snapshot.term,
      1 + (c.lastIndex - c.snapshot.index)⟩ i (i + 1) 0 = .ok ([c.get i], size) := by
    rw [LogReader.entriesLocked, if_neg (by omega), if_neg (by dsimp only; omega),
      if_neg (by simp only [LogReader.lastIndex]; omega)]
    simp only
    rw [if_neg (by omega), hread, ok_bind, LogReader.complete, if_pos (.inl (by simp))]
  rw [LogReader.term, if_neg (by dsimp only; omega), hentries, ok_bind, Saved.term, if_neg (by omega)]

theorem Tracks.rebuilt (opts : Options) (h : Tracks d c) (hw : c.written ≤ c.lastIndex) :
    ∃ new lr, Tan.replayLog d = .ok (new, lr) ∧ Rebuilt opts d lr c := by
  have hlast := h.wf.last
  have hcomp := h.compacted.entries
  obtain ⟨new, hreplay⟩ := h.replayLog hw
  have hindex : LogReader.lastIndex ⟨c.snapshot, c.state, c.snapshot.index, c.snapshot.term,
      1 + (c.lastIndex - c.snapshot.index)⟩ = c.lastIndex := by
    simp only [LogReader.lastIndex]
    omega
  refine ⟨new, _, hreplay, hindex, ?_, fun i hlow hhigh => h.term hlow hhigh, fun low high hlow hlt hhigh => ?_, rfl⟩
  · rw [hindex]
    obtain heq | hlt := hlast.eq_or_lt
    · rw [LogReader.term, if_pos heq.symm, ← heq, h.wf.term]
    · exact h.term hlt le_rfl
  · exact h.laid.getEntries opts (h.has.mono hlow hhigh) hlt (by omega)

theorem NoneDiscarded.last (h : NoneDiscarded es c) : (coreAfter es c).written ≤ (coreAfter es c).lastIndex := by
  induction es generalizing c with
  | nil => exact h
  | cons e es ih => exact ih h.2

/-- After every run of saves, local snapshots, removals and reopenings, the store opens and
the log rebuilt from it is the one the core last saved, as long as no restart comes while
the store still has entries above a log that a received snapshot has cut short. -/
theorem restart_rebuilds_log (opts : Options) (closed : Bool) (es : List Event) (hhands : Hands es .init)
    (hkept : NoneDiscarded es .init) : ∃ d d' new lr, runEvents opts es newDB = .ok d ∧ d.reopen closed = .ok d' ∧
      replayLog d' = .ok (new, lr) ∧ Rebuilt opts d' lr (coreAfter es .init) := by
  obtain ⟨d, hrun, htracks⟩ := (tracks_fresh one_pos one_lt_two : Tracks newDB .init).run opts hhands
  obtain ⟨d', hopen, htracks'⟩ := htracks.reopen closed
  obtain ⟨new, lr, hreplay, hrebuilt⟩ := htracks'.rebuilt opts hkept.last
  exact ⟨d, d', new, lr, hrun, hopen, hreplay, hrebuilt⟩

end

/-- Files of two records each. -/
def smallFiles : Options where
  maxLogFileSize := 2
  writeRecord offset _ := offset + 1
  advances offset _ := lt_add_one offset
  sizeUpperLimit _ := 1
  maxEntries := 4
  readsSome := by decide

def entryOf (index term : ℕ) : Entry := ⟨index, term, .application, []⟩

/-- A log that is overwritten, cut by a local snapshot and a removal, and reopened; then a
snapshot above all of it and one more entry. -/
def busyReplica : List Event :=
  [.saveRaftState ⟨⟨1, 1, 0⟩, [entryOf 1 1, entryOf 2 1, entryOf 3 1], emptySnapshot⟩,
    .saveRaftState ⟨⟨2, 0, 2⟩, [entryOf 3 2], emptySnapshot⟩,
    .saveSnapshots ⟨2, 1, ⟨[1, 2, 3], [], []⟩⟩,
    .removeEntriesTo 2,
    .reopen false,
    .saveRaftState ⟨⟨3, 0, 9⟩, [], ⟨9, 3, ⟨[1, 2, 3], [], []⟩⟩⟩,
    .saveRaftState ⟨emptyState, [entryOf 10 3], emptySnapshot⟩]

theorem restart_rebuilds_log_busyReplica : ∃ d d' new lr, runEvents smallFiles busyReplica newDB = .ok d ∧
    d.reopen true = .ok d' ∧ replayLog d' = .ok (new, lr) ∧ Rebuilt smallFiles d' lr (coreAfter busyReplica .init) :=
  restart_rebuilds_log smallFiles true busyReplica
    (by simp [busyReplica, Hands, Saved.Hands, Event.core]; decide)
    (by simp [busyReplica, NoneDiscarded, Event.core]; decide)

/-- A received snapshot below the end of the log, whose term does not match it. -/
def conflictingSnapshot : List Event :=
  [.saveRaftState ⟨⟨1, 1, 1⟩, [entryOf 1 1, entryOf 2 1, entryOf 3 1, entryOf 4 1, entryOf 5 1], emptySnapshot⟩,
    .saveRaftState ⟨⟨2, 0, 3⟩, [], ⟨3, 2, ⟨[1, 2, 3], [], []⟩⟩⟩]

/-- The index still has the entries that the core discarded, and a restart takes them for
the end of the log. -/
theorem restart_revives_discarded_entries : ¬ ∀ (opts : Options) (closed : Bool) (es : List Event), Hands es .init →
    ∃ d d' new lr, runEvents opts es newDB = .ok d ∧ d.reopen closed = .ok d' ∧
      replayLog d' = .ok (new, lr) ∧ Rebuilt opts d' lr (coreAfter es .init) := by
  intro h
  obtain ⟨d, d', new, lr, hrun, hopen, hreplay, hrebuilt⟩ := h smallFiles true conflictingSnapshot
    (by simp [conflictingSnapshot, Hands, Saved.Hands, Event.core]; decide)
  have hlast : ((runEvents smallFiles conflictingSnapshot newDB >>= DB.reopen true >>= replayLog).map
      (·.2.lastIndex)).toOption = some 5 := by decide +kernel
  rw [hrun, ok_bind, hopen, ok_bind, hreplay] at hlast
  have hcore : (coreAfter conflictingSnapshot .init).lastIndex = 3 := by decide
  have hindex := hrebuilt.lastIndex
  simp only [Except.map, Except.toOption, Option.some.injEq] at hlast
  omega

end Armada.Tan
