import Armada.Tan.Replay
import Armada.Program.Machine

/-! Losing power. Of the current log file only the synced records are safe; any number of the
later ones may be lost, while closed files, their indexes and the list of files stay. One
goroutine saves states and removes entries, another saves snapshots. -/

namespace Armada.Tan

open Raft Program List

/-! ### What is written -/

/-- What the records say: the last state, the entries, and up to where entries may go. -/
structure Contents where
  state : State
  entry : ℕ → Option Entry
  removed : ℕ

/-- The entries of an update from the first one on, those of before below it. -/
def overlay (es : List Entry) (entry : ℕ → Option Entry) (i : ℕ) : Option Entry :=
  match es with
  | [] => entry i
  | e :: es => if i < e.index then entry i else (e :: es).find? fun x => x.index = i

def Contents.write (u : Update) (c : Contents) : Contents :=
  { c with
    state := if u.state = emptyState then c.state else u.state
    entry := overlay u.entriesToSave c.entry }

def Contents.remove (index : ℕ) (c : Contents) : Contents := { c with removed := max c.removed index }

/-- The index finds the last state, and every entry that was not given up, now and after a
restart. -/
structure Follows (d : DB) (c : Contents) : Prop where
  laid : Laid d
  compacted : Compacted d c.removed
  state : c.state = emptyState ∧ d.index.state = .none ∨ c.state ≠ emptyState ∧
    d.index.state.fileNum ≠ 0 ∧ ∃ u, d.Holds d.index.state.place u ∧ u.state = c.state ∧ isCompactionUpdate u = none
  entries : ∀ i e, c.removed < i → c.entry i = some e → e.index = i ∧ ∃ p u,
    locate d.index.entries.entries i = some p ∧ locate (indexOf d.runs) i = some p ∧ d.Holds p u ∧ e ∈ u.entriesToSave

section
variable {opts : Options} {d : DB} {c : Contents} {u : Update}

theorem consecutive_bounds {first : ℕ} {es : List Entry} (h : Consecutive first es) {x : Entry} (hx : x ∈ es) :
    first ≤ x.index ∧ x.index < first + es.length := by
  induction es generalizing first with
  | nil => cases hx
  | cons e es ih =>
    obtain ⟨hfirst, hrest⟩ := h
    obtain rfl | hx := mem_cons.mp hx
    · rw [length_cons]
      omega
    · have := ih hrest hx
      rw [length_cons]
      omega

theorem Follows.append (h : Follows d c) (hu : ∀ e es, u.entriesToSave = e :: es → Consecutive e.index (e :: es))
    (hnone : isCompactionUpdate u = none) : Follows (d.append opts u) (c.write u) := by
  have hpos := h.laid.logNum_positive
  refine ⟨h.laid.append hu, h.compacted.append (by simp [hnone]), ?_, fun i e hi he => ?_⟩
  · have hstate : (d.append opts u).index.state = stateAfter d.logNum d.index.state ⟨d.offset, u⟩ := updateIndex_state _
    rw [hstate, stateAfter, Contents.write]
    dsimp only
    by_cases hempty : u.state = emptyState
    · rw [if_pos hempty, if_neg (by simp [hempty])]
      refine h.state.imp_right ?_
      rintro ⟨hne, hfile, v, hv, hst⟩
      exact ⟨hne, hfile, v, hv.append, hst⟩
    · rw [if_neg hempty, if_pos ⟨hnone, hempty⟩]
      exact .inr ⟨hempty, hpos.ne', u, d.holds_append opts u, rfl, hnone⟩
  · change overlay u.entriesToSave c.entry i = some e at he
    cases hes : u.entriesToSave with
    | nil =>
      rw [hes] at he
      obtain ⟨hindex, p, v, hloc, hrun, hv, hmem⟩ := h.entries i e hi he
      obtain ⟨hsame, hsameRuns⟩ := locate_append_nil opts d hes
      exact ⟨hindex, p, v, by rwa [hsame], by rwa [hsameRuns], hv.append, hmem⟩
    | cons x es =>
      rw [hes, overlay] at he
      obtain ⟨hloc, hrun⟩ := h.laid.locate_append opts hes (hu x es hes) i
      split_ifs at he with hlt
      · obtain ⟨hindex, p, v, hloc', hrun', hv, hmem⟩ := h.entries i e hi he
        exact ⟨hindex, p, v, by rw [hloc, if_pos hlt, hloc'], by rw [hrun, if_pos hlt, hrun'], hv.append, hmem⟩
      · have hmem := mem_of_find?_eq_some he
        have hindex : e.index = i := by simpa using List.find?_some he
        have hbounds := consecutive_bounds (hu x es hes) hmem
        rw [length_cons] at hbounds
        refine ⟨hindex, _, u, ?_, ?_, d.holds_append opts u, hes ▸ hmem⟩
        · rw [hloc, if_neg hlt, if_pos (by omega)]
        · rw [hrun, if_neg hlt, if_pos (by omega)]

theorem Follows.appendCompaction (h : Follows d c) (index : ℕ) :
    Follows (d.append opts (getCompactionUpdate index)) (c.remove index) := by
  have hsome := isCompactionUpdate_getCompactionUpdate index
  obtain ⟨hsame, hsameRuns⟩ := locate_append_nil (u := getCompactionUpdate index) opts d rfl
  refine ⟨h.laid.append nofun, (h.compacted.mono (le_max_left ..)).append fun k hk => ?_, ?_, fun i e hi he => ?_⟩
  · rw [hsome] at hk
    cases hk
    exact le_max_right ..
  · have hstate : (d.append opts (getCompactionUpdate index)).index.state = stateAfter d.logNum d.index.state _ :=
      updateIndex_state _
    rw [hstate, stateAfter, if_neg (by simp [hsome])]
    refine h.state.imp_right ?_
    rintro ⟨hne, hfile, v, hv, hst⟩
    exact ⟨hne, hfile, v, hv.append, hst⟩
  · obtain ⟨hindex, p, v, hloc, hrun, hv, hmem⟩ := h.entries i e ((le_max_left ..).trans_lt hi) he
    exact ⟨hindex, p, v, by rwa [hsame], by rwa [hsameRuns], hv.append, hmem⟩

theorem Follows.switchToNewLog (h : Follows d c) : Follows d.switchToNewLog c := by
  have hlogs : d.logs ⊆ d.switchToNewLog.logs := by
    rw [logs_switchToNewLog]
    exact subset_append_left ..
  refine ⟨h.laid.switchToNewLog, h.compacted.switchToNewLog, ?_, fun i e hi he => ?_⟩
  · refine h.state.imp_right ?_
    rintro ⟨hne, hfile, v, hv, hst⟩
    exact ⟨hne, hfile, v, hv.mono hlogs, hst⟩
  · obtain ⟨hindex, p, v, hloc, hrun, hv, hmem⟩ := h.entries i e hi he
    exact ⟨hindex, p, v, hloc, by rwa [runs_switchToNewLog], hv.mono hlogs, hmem⟩

theorem exists_stop_le (l : List IndexEntry) : ∃ tail, ∀ e ∈ l, e.stop ≤ tail := by
  induction l with
  | nil => exact ⟨0, by simp⟩
  | cons e l ih =>
    obtain ⟨tail, htail⟩ := ih
    refine ⟨max e.stop tail, forall_mem_cons.mpr ⟨le_max_left .., fun x hx => ?_⟩⟩
    exact (htail x hx).trans (le_max_right ..)

theorem Follows.compactionLocked (h : Follows d c) : Follows d.compactionLocked c := by
  obtain hsame | ⟨m, gone, hdrop⟩ := h.laid.compaction_cases
  · rw [hsame]
    exact h
  have hcomp := h.compacted.entries
  refine ⟨hdrop.laid h.laid, hdrop.compacted h.compacted, ?_, fun i e hi he => ?_⟩
  · have hindex : d.compactionLocked.index.state = d.index.state := by rw [hdrop.eq]
    rw [hindex]
    refine h.state.imp_right ?_
    rintro ⟨hne, hfile, v, hv, hst⟩
    exact ⟨hne, hfile, v, hdrop.holds (hdrop.state hfile) hv, hst⟩
  · obtain ⟨hindex, p, v, hloc, hrun, hv, hmem⟩ := h.entries i e hi he
    obtain ⟨tail, htail⟩ := exists_stop_le d.index.entries.entries
    have hbeyond : ∀ j, i < j → locate d.index.entries.entries j ≠ none → j ≤ tail := fun j _ hj => by
      obtain ⟨q, hq⟩ := Option.ne_none_iff_exists'.mp hj
      obtain ⟨x, hx, hin, -⟩ := locate_eq_some hq
      exact (IndexEntry.holds_iff.mp hin).2.trans (htail x hx)
    have hfound : locate d.index.entries.entries i ≠ none := by simp [hloc]
    have hruns : locate (indexOf d.compactionLocked.runs) i = locate (indexOf d.runs) i :=
      hdrop.locate_runs h.laid (by omega) (hloc.trans hrun.symm) hbeyond fun _ => hfound
    refine ⟨hindex, p, v, ?_, hruns.trans hrun, hdrop.holds (hdrop.lt_of_locate hloc (by omega)) hv, hmem⟩
    rw [hdrop.locate_eq h.laid (by omega), hloc]

theorem Follows.reopen (h : Follows d c) (closed : Bool) : ∃ d', d.reopen closed = .ok d' ∧ Follows d' c := by
  obtain ⟨n, hn, hload⟩ := h.laid.loadFiles closed
  have hindexed : Follows { d with index := n, state := emptyState } c := by
    refine ⟨h.laid.withIndex hn, h.compacted.withIndex hn, ?_, fun i e hi he => ?_⟩
    · change c.state = emptyState ∧ n.state = .none ∨ c.state ≠ emptyState ∧
        n.state.fileNum ≠ 0 ∧ ∃ u, d.Holds n.state.place u ∧ u.state = c.state ∧ isCompactionUpdate u = none
      rw [hn.state]
      exact h.state
    · obtain ⟨hindex, p, v, hloc, hrun, hv, hmem⟩ := h.entries i e hi he
      exact ⟨hindex, p, v, by rw [hn.entries, hrun], hrun, hv, hmem⟩
  have hopen := hindexed.switchToNewLog
  rw [DB.reopen, openDB, hload, ok_bind]
  refine ⟨_, rfl, ?_⟩
  split_ifs
  · exact hopen.compactionLocked
  · exact hopen

theorem Follows.readState (h : Follows d c) (hne : c.state ≠ emptyState) : d.readState = .ok c.state := by
  obtain ⟨heq, -⟩ | ⟨-, -, u, hu, hst, -⟩ := h.state
  · exact absurd heq hne
  · rw [← hst]
    exact h.laid.readState hu (hst ▸ hne)

theorem Follows.getEntry (opts : Options) (h : Follows d c) {i : ℕ} {e : Entry} (hi : c.removed < i)
    (he : c.entry i = some e) : ∃ size, d.getEntries opts i (i + 1) 0 = .ok ([e], size) := by
  obtain ⟨hindex, p, u, hloc, -, hu, hmem⟩ := h.entries i e hi he
  have hhas : d.Has (fun _ => e) i (i + 1) := fun j hlow hhigh => by
    obtain rfl : j = i := by omega
    exact ⟨hindex, p, u, hloc, hu, hmem⟩
  obtain ⟨size, hsize⟩ := h.laid.getEntries opts hhas (lt_add_one i) (h.compacted.entries.trans_lt hi)
  refine ⟨size, ?_⟩
  rw [hsize, slice_cons (lt_add_one i), slice_self]

/-! ### Losing records that only remove entries -/

variable {rs : List Record} {k : ℕ}

theorem filterMap_entriesRun_compaction {num : ℕ} (h : ∀ r ∈ rs, (isCompactionUpdate r.update).isSome) :
    fileRuns num rs = [] := by
  refine filterMap_eq_nil_iff.mpr fun r hr => ?_
  obtain ⟨k, hk⟩ := Option.isSome_iff_exists.mp (h r hr)
  exact entriesRun_of_compaction hk

theorem foldl_compaction {α : Type} {g : α → Record → α} (hg : ∀ a, ∀ r, (isCompactionUpdate r.update).isSome →
    g a r = a) (h : ∀ r ∈ rs, (isCompactionUpdate r.update).isSome) (a : α) : rs.foldl g a = a := by
  induction rs generalizing a with
  | nil => rfl
  | cons r rs ih =>
    rw [forall_mem_cons] at h
    rw [foldl_cons, hg a r h.1, ih h.2]

theorem stateAfter_compaction (num : ℕ) (p : IndexEntry) (r : Record) (h : (isCompactionUpdate r.update).isSome) :
    stateAfter num p r = p := if_neg fun hc => by simp [hc.1] at h

theorem snapshotAfter_compaction (num : ℕ) (p : IndexEntry) (r : Record) (h : (isCompactionUpdate r.update).isSome) :
    snapshotAfter num p r = p := by
  have hzero : r.update.snapshot.index = 0 := by
    rw [isCompactionUpdate] at h
    split_ifs at h with hc
    · simpa [Snapshot.isEmpty] using hc.2.1
    · cases h
  rw [snapshotAfter, hzero, if_neg (Nat.not_lt_zero _)]

/-- What another update wrote is still there when records that only removed entries are lost. -/
theorem holds_take (hk : ∀ r ∈ d.records.drop k, (isCompactionUpdate r.update).isSome) {place : ℕ × ℕ} {v : Update}
    (hnone : isCompactionUpdate v = none) (hv : d.Holds place v) :
    DB.Holds { d with records := d.records.take k } place v := by
  obtain ⟨records, hf, hr⟩ := hv
  rw [DB.logs, mem_append, mem_singleton] at hf
  obtain hf | hf := hf
  · exact ⟨records, mem_append_left _ hf, hr⟩
  · obtain ⟨hnum, rfl⟩ := Prod.mk.inj hf
    refine ⟨d.records.take k, mem_append_right _ (by simp [hnum]), ?_⟩
    rw [← take_append_drop k d.records] at hr
    obtain hr | hr := mem_append.mp hr
    · exact hr
    · have hsome := hk _ hr
      rw [hnone] at hsome
      cases hsome

theorem Laid.inOrder_take (h : Laid d) (k : ℕ) : InOrder (DB.logs { d with records := d.records.take k }) :=
  h.inOrder_last ((h.order.offsets _ d.mem_logs).sublist (take_sublist ..))
    fun r hr => h.order.entries _ d.mem_logs r (mem_of_mem_take hr)

theorem Pointers.take (h : Pointers d) (hk : ∀ r ∈ d.records.drop k, (isCompactionUpdate r.update).isSome) :
    Pointers { d with records := d.records.take k } := by
  have hfold {α : Type} {g : α → Record → α} (hg : ∀ a, ∀ r, (isCompactionUpdate r.update).isSome → g a r = a) (a : α) :
      (d.records.take k).foldl g a = d.records.foldl g a := by
    conv_rhs => rw [← take_append_drop k d.records, foldl_append, foldl_compaction hg hk]
  have hnums : (DB.logs { d with records := d.records.take k }).map (·.1) = d.logs.map (·.1) := by simp [DB.logs]
  obtain ⟨hstate, hsnapshot, hsavedState, hsavedSnapshot, hnewer, hstateFile, hsnapshotFile⟩ := h
  refine ⟨?_, ?_, hsavedState, hsavedSnapshot, hnewer, ?_, ?_⟩
  · rw [← hstate]
    exact hfold (stateAfter_compaction _) _
  · rw [← hsnapshot]
    exact hfold (snapshotAfter_compaction _) _
  · rw [hnums]
    exact hstateFile
  · rw [hnums]
    exact hsnapshotFile

theorem Follows.take (h : Follows d c) (hk : ∀ r ∈ d.records.drop k, (isCompactionUpdate r.update).isSome) :
    Follows { d with records := d.records.take k } c := by
  have hcurr : fileRuns d.logNum (d.records.take k) = fileRuns d.logNum d.records := by
    conv_rhs => rw [← take_append_drop k d.records, fileRuns, filterMap_append]
    exact (append_nil _).symm.trans (congrArg _ (filterMap_entriesRun_compaction hk).symm)
  have hruns : DB.runs { d with records := d.records.take k } = d.runs := by
    rw [runs_eq, runs_eq]
    exact congrArg _ hcurr
  have hl := h.laid
  have hsub : ∀ r ∈ d.records.take k, r ∈ d.records := fun r hr => mem_of_mem_take hr
  refine ⟨⟨hl.inOrder_take k, hl.next, fun r hr => hl.room r (hsub r hr), hl.indexed, ?_, ?_, hl.pointers.take hk⟩,
    ⟨h.compacted.entries, h.compacted.currEntries, h.compacted.saved, fun r hr =>
      h.compacted.records r (hsub r hr)⟩, ?_,
    fun i e hi he => ?_⟩
  · rw [hcurr]
    exact hl.curr
  · rw [hruns]
    exact hl.runs
  · refine h.state.imp_right ?_
    rintro ⟨hne, hfile, v, hv, hst, hnone⟩
    exact ⟨hne, hfile, v, holds_take hk hnone hv, hst, hnone⟩
  · obtain ⟨hindex, p, v, hloc, hrun, hv, hmem⟩ := h.entries i e hi he
    have hnone : isCompactionUpdate v = none := if_neg fun hc => by simp [hc.1] at hmem
    exact ⟨hindex, p, v, hloc, by rwa [hruns], holds_take hk hnone hv, hmem⟩

end

/-! ### The goroutines -/

def stateSyncChange (a b : State) : Bool := a.term ≠ b.term ∨ a.vote ≠ b.vote

/-- Whether `write` asks for a sync after the update is written over a state. -/
def needsSync (u : Update) (st : State) : Bool :=
  u.snapshot.isEmpty = false ∨ u.entriesToSave ≠ [] ∨ stateSyncChange u.state st

/-- Entries without a gap, and a term and a vote that are not taken back. -/
def Update.Follow (u : Update) (st : State) : Prop :=
  (∀ e ∈ u.entriesToSave.head?, Consecutive e.index u.entriesToSave) ∧
    (u.state = emptyState ∨ st.term < u.state.term ∨
      st.term = u.state.term ∧ (st.vote = 0 ∨ st.vote = u.state.vote))

instance Update.Follow.decidable (u : Update) (st : State) : Decidable (u.Follow st) := by
  unfold Update.Follow
  infer_instance

/-- The update is not written, since it says what the last one did. -/
def Update.Skipped (u : Update) (st : State) : Prop := u.state = st ∧ u.snapshot.isEmpty ∧ u.entriesToSave = []

instance Update.Skipped.decidable (u : Update) (st : State) : Decidable (u.Skipped st) := by
  unfold Update.Skipped
  infer_instance

/-- The entries below the first that the update has. -/
def below (es : List Entry) (entry : ℕ → Option Entry) (i : ℕ) : Option Entry :=
  match es with
  | [] => entry i
  | e :: _ => if i < e.index then entry i else none

structure Saver where
  store : DB
  /-- how many records of the current file are synced -/
  synced : ℕ
  /-- how many records of a file were synced when it was closed -/
  closed : ℕ → ℕ
  /-- what `SaveRaftState` has written and not yet synced -/
  saving : Option Update
  /-- all that was written -/
  current : Contents
  /-- the state when `SaveRaftState` last returned, and those written since -/
  voted : State
  newer : List State
  /-- the entries of calls that have returned which nothing written later has replaced -/
  owed : ℕ → Option Entry

inductive SaveStep where
  | saveWrite (u : Update)
  | saveSync
  | snapshotWrite (ss : Snapshot)
  /-- the sync of `SaveSnapshots` or of `RemoveEntriesTo` -/
  | sync
  | removeWrite (index : ℕ)
  | removeFiles

namespace Saver

def start : Saver := ⟨newDB, 0, fun _ => 0, none, ⟨emptyState, fun _ => none, 0⟩, emptyState, [], fun _ => none⟩

def put (opts : Options) (u : Update) (s : Saver) : Saver :=
  { s with
    store := s.store.doWriteLocked opts u
    synced := if s.store.offset < opts.maxLogFileSize then s.synced else 0
    closed := if s.store.offset < opts.maxLogFileSize then s.closed else Function.update s.closed s.store.logNum
      s.synced }

/-- `SaveRaftState` returns. -/
def returned (u : Update) (s : Saver) : Saver :=
  { s with
    saving := none
    voted := s.current.state
    newer := []
    owed := overlay u.entriesToSave s.owed }

/-- The update is written; it replaces entries from its first one on. -/
def saved (opts : Options) (u : Update) (s : Saver) : Saver :=
  { s.put opts u with
    current := s.current.write u
    newer := (s.current.write u).state :: s.newer
    owed := below u.entriesToSave s.owed }

def step (opts : Options) : SaveStep → Saver → Option Saver
  | .saveWrite u, s =>
    if s.saving = none ∧ u.Follow s.current.state ∧ isCompactionUpdate u = none then
      if u.Skipped s.store.state then some (s.returned u)
      else if needsSync u s.store.state then some { s.saved opts u with saving := some u }
      else some ((s.saved opts u).returned u)
    else none
  | .saveSync, s => s.saving.map fun u => { s with synced := s.store.records.length }.returned u
  | .snapshotWrite ss, s => some (if ss.isEmpty then s else s.put opts ⟨emptyState, [], ss⟩)
  | .sync, s => some { s with synced := s.store.records.length }
  | .removeWrite index, s => some { s.put opts (getCompactionUpdate index) with current := s.current.remove index }
  | .removeFiles, s => some { s with store := s.store.compactionLocked }

/-- No log file is closed while a record of it is not synced. -/
def Closes (opts : Options) (s : Saver) : Prop :=
  s.store.offset < opts.maxLogFileSize ∨ s.synced = s.store.records.length

/-- The step closes no file and removes no file while a record that may be needed for it
is not synced. -/
def Safe (opts : Options) : SaveStep → Saver → Prop
  | .saveWrite u, s => u.Skipped s.store.state ∨ s.Closes opts
  | .snapshotWrite ss, s => ss.isEmpty ∨ s.Closes opts
  | .removeWrite _, s => s.Closes opts
  | .removeFiles, s => s.store.compactionLocked.files = s.store.files ∨
    ∀ r ∈ s.store.records.drop s.synced, (isCompactionUpdate r.update).isSome
  | _, _ => True

instance Safe.decidable (opts : Options) (e : SaveStep) (s : Saver) : Decidable (Safe opts e s) := by
  cases e <;> unfold Safe Closes <;> infer_instance

/-- A term and a vote that are not older than those of the last call that returned, and
every entry that is owed. -/
structure Enough (voted : State) (newer : List State) (removed : ℕ) (owed : ℕ → Option Entry) (c : Contents) :
    Prop where
  vote : ∃ st ∈ voted :: newer, c.state.term = st.term ∧ c.state.vote = st.vote
  removed : c.removed ≤ removed
  owed : ∀ i e, owed i = some e → c.entry i = some e

abbrev Shows (s : Saver) (c : Contents) : Prop := Enough s.voted s.newer s.current.removed s.owed c

/-- What is left of the store with the first records of the current file. -/
structure Cut (d : DB) (k : ℕ) (d' : DB) : Prop where
  files : d'.files = d.files
  logNum : d'.logNum = d.logNum
  nextFileNum : d'.nextFileNum = d.nextFileNum
  records : d'.records = d.records.take k

/-- However much of the unsynced records is lost, what is left shows enough. -/
structure Kept (s : Saver) : Prop where
  whole : Follows s.store s.current
  shows : s.Shows s.current
  synced : s.synced ≤ s.store.records.length
  cut : ∀ k, s.synced ≤ k → k ≤ s.store.records.length → ∃ d c, Cut s.store k d ∧ Follows d c ∧ s.Shows c
  closed : ∀ f ∈ s.store.files, f.records.length ≤ s.closed f.num
  cached : s.store.state = emptyState ∨ s.store.state.term = compactionFlag ∨ s.store.state = s.current.state
  idle : s.saving = none → s.newer = []
  pending : ∀ u, s.saving = some u → ∀ i e, overlay u.entriesToSave s.owed i = some e → s.current.entry i = some e

section
variable {opts : Options} {s : Saver} {u : Update}

theorem overlay_below (es : List Entry) (entry : ℕ → Option Entry) :
    overlay es (below es entry) = overlay es entry := by
  funext i
  cases es with
  | nil => rfl
  | cons e es =>
    simp only [overlay, below]
    split_ifs <;> rfl

variable {e : Entry} {i : ℕ}

theorem below_eq_some {es : List Entry} {entry : ℕ → Option Entry} (h : below es entry i = some e)
    (entry' : ℕ → Option Entry) : entry i = some e ∧ overlay es entry' i = entry' i := by
  cases es with
  | nil => exact ⟨h, rfl⟩
  | cons x es =>
    simp only [below] at h
    split_ifs at h with hlt
    exact ⟨h, if_pos hlt⟩

theorem Cut.self (d : DB) : Cut d d.records.length d := ⟨rfl, rfl, rfl, (take_length ..).symm⟩

theorem Kept.put {c' : Contents} (h : Kept s) (opts : Options) (u : Update) (s' : Saver)
    (happ : ∀ d, Follows d s.current → Follows (d.append opts u) c') (hstore : s'.store = (s.put opts u).store)
    (hsynced : s'.synced = (s.put opts u).synced) (hmono : ∀ c, s.Shows c → s'.Shows c) (hnew : s'.Shows c') :
    Follows s'.store c' ∧ s'.synced ≤ s'.store.records.length ∧
    ∀ k, s'.synced ≤ k → k ≤ s'.store.records.length → ∃ d c, Cut s'.store k d ∧ Follows d c ∧ s'.Shows c := by
  rw [hstore, hsynced]
  simp only [Saver.put, DB.doWriteLocked, DB.makeRoomForWrite]
  by_cases hfits : s.store.offset < opts.maxLogFileSize
  · rw [if_pos hfits, if_pos hfits]
    have hlen : (s.store.append opts u).records.length = s.store.records.length + 1 := by simp [DB.append]
    have hsync := h.synced
    refine ⟨happ _ h.whole, by omega, fun k hlow hhigh => ?_⟩
    by_cases hk : k ≤ s.store.records.length
    · obtain ⟨d, c, hcut, hfollows, hshows⟩ := h.cut k hlow hk
      refine ⟨d, c, ⟨hcut.files, hcut.logNum, hcut.nextFileNum, ?_⟩, hfollows, hmono c hshows⟩
      rw [hcut.records]
      exact (take_append_of_le_length hk).symm
    · obtain rfl : k = (s.store.append opts u).records.length := by omega
      exact ⟨_, c', .self _, happ _ h.whole, hnew⟩
  · rw [if_neg hfits, if_neg hfits]
    have hwhole := h.whole.switchToNewLog
    have hlen : (s.store.switchToNewLog.append opts u).records.length = 1 := rfl
    refine ⟨happ _ hwhole, Nat.zero_le _, fun k _ hhigh => ?_⟩
    obtain rfl | hk := Nat.eq_zero_or_pos k
    · exact ⟨s.store.switchToNewLog, s.current, ⟨rfl, rfl, rfl, rfl⟩, hwhole, hmono _ h.shows⟩
    · obtain rfl : k = (s.store.switchToNewLog.append opts u).records.length := by omega
      exact ⟨_, c', .self _, happ _ hwhole, hnew⟩

theorem Kept.closed_put (h : Kept s) (hclose : s.Closes opts) (u : Update) :
    ∀ f ∈ (s.put opts u).store.files, f.records.length ≤ (s.put opts u).closed f.num := by
  simp only [Saver.put, DB.doWriteLocked, DB.makeRoomForWrite]
  by_cases hfits : s.store.offset < opts.maxLogFileSize
  · rw [if_pos hfits, if_pos hfits]
    exact h.closed
  · rw [if_neg hfits, if_neg hfits]
    intro f hf
    obtain hf | hf := mem_append.mp hf
    · rw [Function.update_of_ne (h.whole.laid.num_lt hf).ne]
      exact h.closed f hf
    · rw [mem_singleton.mp hf, Function.update_self]
      exact (hclose.resolve_left hfits).ge

variable {c : Contents}

theorem Shows.saved (h : s.Shows c) (opts : Options) (u : Update) : (s.saved opts u).Shows c := by
  obtain ⟨st, hst, hvote⟩ := h.vote
  refine ⟨⟨st, ?_, hvote⟩, h.removed, fun i e he => h.owed i e (below_eq_some he s.owed).1⟩
  obtain rfl | hst := mem_cons.mp hst
  · exact mem_cons_self ..
  · exact mem_cons_of_mem _ (mem_cons_of_mem _ hst)

theorem Kept.shows_write (h : Kept s) (opts : Options) : (s.saved opts u).Shows (s.current.write u) := by
  refine ⟨⟨_, mem_cons_of_mem _ (mem_cons_self ..), rfl, rfl⟩, le_rfl, fun i e he => ?_⟩
  obtain ⟨howed, hover⟩ := below_eq_some he s.current.entry
  exact hover.trans (h.shows.owed i e howed)

theorem cached_write (opts : Options) (s : Saver) (u : Update) : (s.store.doWriteLocked opts u).state = emptyState ∨
    (s.store.doWriteLocked opts u).state.term = compactionFlag ∨
    (s.store.doWriteLocked opts u).state = (s.current.write u).state := by
  change u.state = emptyState ∨ _ ∨ u.state = if u.state = emptyState then s.current.state else u.state
  by_cases hu : u.state = emptyState
  · exact .inl hu
  · exact .inr (.inr (if_neg hu).symm)

theorem Kept.overlay_entry (h : Kept s) (he : overlay u.entriesToSave s.owed i = some e) :
    (s.current.write u).entry i = some e := by
  change overlay u.entriesToSave s.current.entry i = some e
  cases hes : u.entriesToSave with
  | nil =>
    rw [hes] at he
    exact h.shows.owed i e he
  | cons x es =>
    rw [hes] at he
    simp only [overlay] at he ⊢
    split_ifs at he ⊢ with hlt
    · exact h.shows.owed i e he
    · exact he

theorem Kept.same_vote (h : Kept s) (hnone : isCompactionUpdate u = none) (hfollow : u.Follow s.current.state)
    (hsync : needsSync u s.store.state = false) : (s.current.write u).state.term = s.current.state.term ∧
    (s.current.write u).state.vote = s.current.state.vote := by
  obtain ⟨hempty, hnil, hsame⟩ : u.snapshot.isEmpty = true ∧ u.entriesToSave = [] ∧
      stateSyncChange u.state s.store.state = false := by
    have hno := of_decide_eq_false hsync
    simpa only [not_or, Bool.not_eq_false, not_not, ne_eq, Bool.not_eq_true] using hno
  obtain ⟨hterm, hvote⟩ : u.state.term = s.store.state.term ∧ u.state.vote = s.store.state.vote := by
    have hno := of_decide_eq_false hsame
    simpa only [not_or, not_not, ne_eq] using hno
  rw [Contents.write]
  dsimp only
  split_ifs with hu
  · exact ⟨rfl, rfl⟩
  · obtain hc | hc | hc := h.cached
    · have hrule := hfollow.2.resolve_left hu
      rw [hc] at hterm hvote
      change u.state.term = 0 at hterm
      change u.state.vote = 0 at hvote
      omega
    · rw [isCompactionUpdate, if_pos ⟨hnil, hempty, hterm.trans hc⟩] at hnone
      cases hnone
    · rw [hterm, hvote, hc]
      exact ⟨rfl, rfl⟩

/-- Between two calls of `SaveRaftState` the term and the vote are the same whatever is lost. -/
theorem Kept.idle_vote (h : Kept s) (hidle : s.saving = none) (hc : s.Shows c) :
    c.state.term = s.current.state.term ∧ c.state.vote = s.current.state.vote := by
  obtain ⟨st, hst, hvote⟩ := hc.vote
  obtain ⟨st', hst', hvote'⟩ := h.shows.vote
  rw [h.idle hidle, mem_singleton] at hst hst'
  subst hst hst'
  exact ⟨hvote.1.trans hvote'.1.symm, hvote.2.trans hvote'.2.symm⟩

theorem write_of_blank (hst : u.state = emptyState) (hnil : u.entriesToSave = []) : c.write u = c := by
  rw [Contents.write, if_pos hst, hnil]
  rfl

theorem ordered_of_follow {st : State} (h : u.Follow st) (e : Entry) (es : List Entry)
    (hes : u.entriesToSave = e :: es) : Consecutive e.index (e :: es) := by
  have := h.1 e (by rw [hes]; rfl)
  rwa [hes] at this

theorem Kept.sync (h : Kept s) {voted : State} {newer : List State} {owed : ℕ → Option Entry} {saving : Option Update}
    (hshows : Enough voted newer s.current.removed owed s.current) (hidle : saving = none → newer = [])
    (hpending : ∀ u, saving = some u → ∀ i e, overlay u.entriesToSave owed i = some e → s.current.entry i = some e) :
    Kept { s with synced := s.store.records.length, voted := voted, newer := newer, owed := owed, saving := saving } :=
  ⟨h.whole, hshows, le_rfl, fun k hlow hhigh => by
    obtain rfl : k = s.store.records.length := le_antisymm hhigh hlow
    exact ⟨_, _, .self _, h.whole, hshows⟩, h.closed, h.cached, hidle, hpending⟩

/-- A call that has nothing to write returns at once, with the state that the last one left. -/
theorem Kept.skipSave (h : Kept s) (hidle : s.saving = none) (hnil : u.entriesToSave = []) : Kept (s.returned u) := by
  have howed : overlay u.entriesToSave s.owed = s.owed := by rw [hnil]; rfl
  have hmono : ∀ c, s.Shows c → (s.returned u).Shows c := fun c hc => by
    refine ⟨⟨_, mem_cons_self .., h.idle_vote hidle hc⟩, hc.removed, ?_⟩
    change ∀ i e, overlay u.entriesToSave s.owed i = some e → _
    rw [howed]
    exact hc.owed
  refine ⟨h.whole, hmono _ h.shows, h.synced, fun k hlow hhigh => ?_, h.closed, h.cached, fun _ => rfl, nofun⟩
  obtain ⟨d, c, hcut, hfollows, hshows⟩ := h.cut k hlow hhigh
  exact ⟨d, c, hcut, hfollows, hmono c hshows⟩

theorem Kept.writeSave (h : Kept s) (hfollow : u.Follow s.current.state) (hnone : isCompactionUpdate u = none)
    (hclose : s.Closes opts) : Kept { s.saved opts u with saving := some u } := by
  obtain ⟨hwhole, hsynced, hcut⟩ := h.put opts u { s.saved opts u with saving := some u }
    (fun d hd => hd.append (ordered_of_follow hfollow) hnone) rfl rfl (fun c hc => Shows.saved hc opts u)
      (h.shows_write opts)
  refine ⟨hwhole, h.shows_write opts, hsynced, hcut, h.closed_put hclose u, cached_write opts s u, nofun,
    fun v hv i e he => ?_⟩
  cases hv
  rw [show ({ s.saved opts u with saving := some u } : Saver).owed = below u.entriesToSave s.owed from rfl,
    overlay_below] at he
  exact h.overlay_entry he

theorem Kept.returnSave (h : Kept s) (hidle : s.saving = none) (hfollow : u.Follow s.current.state)
    (hnone : isCompactionUpdate u = none) (hsync : needsSync u s.store.state = false) (hclose : s.Closes opts) :
    Kept ((s.saved opts u).returned u) := by
  have hvote := h.same_vote hnone hfollow hsync
  have hnil : u.entriesToSave = [] := by
    by_contra hne
    exact Bool.false_ne_true (hsync.symm.trans (decide_eq_true (.inr (.inl hne))))
  have howed : ((s.saved opts u).returned u).owed = overlay u.entriesToSave s.owed := overlay_below ..
  have hmono : ∀ c, s.Shows c → ((s.saved opts u).returned u).Shows c := fun c hc => by
    obtain ⟨hterm, hvote'⟩ := h.idle_vote hidle hc
    refine ⟨⟨_, mem_cons_self .., hterm.trans hvote.1.symm, hvote'.trans hvote.2.symm⟩, hc.removed, ?_⟩
    rw [howed, hnil]
    exact hc.owed
  have hnew : ((s.saved opts u).returned u).Shows (s.current.write u) := by
    refine ⟨⟨_, mem_cons_self .., rfl, rfl⟩, le_rfl, ?_⟩
    rw [howed]
    exact fun i e he => h.overlay_entry he
  obtain ⟨hwhole, hsynced, hcut⟩ := h.put opts u ((s.saved opts u).returned u)
    (fun d hd => hd.append (ordered_of_follow hfollow) hnone) rfl rfl hmono hnew
  exact ⟨hwhole, hnew, hsynced, hcut, h.closed_put hclose u, cached_write opts s u, fun _ => rfl, nofun⟩

theorem Kept.step {e : SaveStep} {s' : Saver} (hsafe : Safe opts e s) (h : Kept s) (hstep : s.step opts e = some s') :
    Kept s' := by
  cases e with
  | saveWrite u =>
    simp only [Saver.step] at hstep
    split_ifs at hstep with hguard hskip hsync
    · cases hstep
      exact h.skipSave hguard.1 hskip.2.2
    · cases hstep
      exact h.writeSave hguard.2.1 hguard.2.2 (hsafe.resolve_left hskip)
    · cases hstep
      exact h.returnSave hguard.1 hguard.2.1 hguard.2.2 (by simpa using hsync) (hsafe.resolve_left hskip)
  | saveSync =>
    obtain ⟨u, hu, rfl⟩ := Option.map_eq_some_iff.mp hstep
    exact h.sync ⟨⟨_, mem_cons_self .., rfl, rfl⟩, le_rfl, h.pending u hu⟩ (fun _ => rfl) nofun
  | snapshotWrite ss =>
    cases hstep
    split_ifs with hempty
    · exact h
    · have hclose := hsafe.resolve_left hempty
      have hnone : isCompactionUpdate ⟨emptyState, [], ss⟩ = none := if_neg (by simp [hempty])
      have hsame : s.current.write ⟨emptyState, [], ss⟩ = s.current := write_of_blank rfl rfl
      obtain ⟨hwhole, hsynced, hcut⟩ := h.put opts ⟨emptyState, [], ss⟩ (s.put opts ⟨emptyState, [], ss⟩)
        (fun d hd => hsame ▸ hd.append nofun hnone) rfl rfl (fun c hc => hc) h.shows
      exact ⟨hwhole, h.shows, hsynced, hcut, h.closed_put hclose _, .inl rfl, h.idle, h.pending⟩
  | sync =>
    cases hstep
    exact h.sync h.shows h.idle h.pending
  | removeWrite index =>
    cases hstep
    have hmono : ∀ c, s.Shows c → Enough s.voted s.newer (s.current.remove index).removed s.owed c := fun c hc =>
      ⟨hc.vote, hc.removed.trans (le_max_left ..), hc.owed⟩
    have hnew : Enough s.voted s.newer (s.current.remove index).removed s.owed (s.current.remove index) :=
      ⟨h.shows.vote, le_rfl, h.shows.owed⟩
    obtain ⟨hwhole, hsynced, hcut⟩ := h.put opts (getCompactionUpdate index)
      { s.put opts (getCompactionUpdate index) with current := s.current.remove index }
      (fun d hd => hd.appendCompaction index) rfl rfl hmono hnew
    exact ⟨hwhole, hnew, hsynced, hcut, h.closed_put hsafe _, .inr (.inl rfl), h.idle, h.pending⟩
  | removeFiles =>
    cases hstep
    have hwhole := h.whole.compactionLocked
    refine ⟨hwhole, h.shows, h.synced, fun k hlow hhigh => ?_, fun f hf => h.closed f (mem_of_mem_filter hf), h.cached,
      h.idle, h.pending⟩
    obtain hfiles | hsync := hsafe
    · obtain ⟨d, c, hcut, hfollows, hshows⟩ := h.cut k hlow hhigh
      exact ⟨d, c, ⟨hcut.files.trans hfiles.symm, hcut.logNum, hcut.nextFileNum, hcut.records⟩, hfollows, hshows⟩
    · refine ⟨{ s.store.compactionLocked with records := s.store.records.take k }, s.current, ⟨rfl, rfl, rfl, rfl⟩,
        hwhole.take fun r hr => hsync r ?_, h.shows⟩
      exact (drop_sublist_drop_left _ hlow).subset hr

theorem kept_start : Kept start := by
  have hfresh : Tracks newDB .init := tracks_fresh one_pos one_lt_two
  have hwhole : Follows newDB start.current := ⟨hfresh.laid, hfresh.compacted, .inl ⟨rfl, rfl⟩, nofun⟩
  have hshows : start.Shows start.current := ⟨⟨_, mem_cons_self .., rfl, rfl⟩, le_rfl, nofun⟩
  refine ⟨hwhole, hshows, le_rfl, fun k _ hhigh => ?_, nofun, .inl rfl, fun _ => rfl, nofun⟩
  obtain rfl : k = 0 := Nat.le_zero.mp hhigh
  exact ⟨_, _, .self _, hwhole, hshows⟩

end

/-! ### Power loss -/

/-- What is left on disk: of every file the records that are kept. -/
def image (kept : ℕ → ℕ) (s : Saver) : DB :=
  { s.store with
    files := s.store.files.map fun f => { f with records := f.records.take (kept f.num) }
    records := s.store.records.take (kept s.store.logNum) }

/-- At least the synced records of every file are kept. -/
structure Keeps (kept : ℕ → ℕ) (s : Saver) : Prop where
  current : s.synced ≤ kept s.store.logNum ∧ kept s.store.logNum ≤ s.store.records.length
  closed : ∀ f ∈ s.store.files, s.closed f.num ≤ kept f.num

end Saver

/-- The last state of an opened store. -/
def DB.lastState (d : DB) : Except Fault State := if d.index.state.empty then .ok emptyState else d.readState

theorem Follows.lastState {d : DB} {c : Contents} (h : Follows d c) : d.lastState = .ok c.state := by
  obtain ⟨heq, hnone⟩ | ⟨hne, hfile, -⟩ := h.state
  · rw [DB.lastState, hnone, heq]
    rfl
  · rw [DB.lastState, if_neg (by simpa [IndexEntry.empty] using hfile)]
    exact h.readState hne

/-- What was saved survives a power loss at any point of a run in which no log file is closed
and none removed while a record of the current one is not synced; the index of the current file
may have been saved already. -/
theorem saved_survives_power_loss (opts : Options) (steps : List SaveStep) (s : Saver) (kept : ℕ → ℕ)
    (indexSaved : Bool) (hrun : runMachine (Saver.step opts) steps .start = some s)
    (hsafe : Throughout (Saver.step opts) (Saver.Safe opts) steps .start) (hkept : s.Keeps kept)
    (hclosing : indexSaved = true → opts.maxLogFileSize ≤ s.store.offset ∧ s.Closes opts) :
    ∃ d, (s.image kept).reopen indexSaved = .ok d ∧
      (∃ st, d.lastState = .ok st ∧ ∃ v ∈ s.voted :: s.newer, st.term = v.term ∧ st.vote = v.vote) ∧
      ∀ i e, s.owed i = some e → s.current.removed < i → ∃ size, d.getEntries opts i (i + 1) 0 = .ok ([e], size) := by
  have h : s.Kept := runMachine_keeps_of (fun e s s' hsafe h hstep => h.step hsafe hstep) hsafe Saver.kept_start hrun
  obtain ⟨hlow, hhigh⟩ := hkept.current
  -- closed files are whole
  have hfiles : (s.image kept).files = s.store.files := by
    refine (map_congr_left fun f hf => ?_).trans (map_id _)
    rw [take_of_length_le ((h.closed f hf).trans (hkept.closed f hf))]
    rfl
  have hopen : ∃ d c, (s.image kept).reopen indexSaved = .ok d ∧ Follows d c ∧ s.Shows c := by
    cases indexSaved with
    | false =>
      obtain ⟨d, c, hcut, hfollows, hshows⟩ := h.cut _ hlow hhigh
      obtain ⟨d', hd', hfollows'⟩ := hfollows.reopen false
      refine ⟨d', c, ?_, hfollows', hshows⟩
      rw [← hd', DB.reopen, DB.reopen, DB.onDisk, DB.onDisk, hfiles, hcut.files, hcut.logNum, hcut.nextFileNum,
        hcut.records]
      rfl
    | true =>
      obtain ⟨hfull, hcloses⟩ := hclosing rfl
      have hall : kept s.store.logNum = s.store.records.length := by
        have := hcloses.resolve_left (by omega)
        omega
      obtain ⟨d', hd', hfollows'⟩ := h.whole.reopen true
      refine ⟨d', s.current, ?_, hfollows', h.shows⟩
      rw [← hd', DB.reopen, DB.reopen, DB.onDisk, DB.onDisk, hfiles]
      simp only [Saver.image, hall, take_length, DB.saveIndex]
  obtain ⟨d, c, hd, hfollows, hshows⟩ := hopen
  refine ⟨d, hd, ⟨c.state, hfollows.lastState, hshows.vote⟩, fun i e he hi => ?_⟩
  exact hfollows.getEntry opts (hshows.removed.trans_lt hi) (hshows.owed i e he)

/-- A vote with two entries, a snapshot, and a third entry in a new file that is lost. -/
def interruptedSave : List SaveStep :=
  [.saveWrite ⟨⟨1, 1, 0⟩, [entryOf 1 1, entryOf 2 1], emptySnapshot⟩, .saveSync,
    .snapshotWrite ⟨1, 1, ⟨[1, 2, 3], [], []⟩⟩, .sync,
    .saveWrite ⟨⟨2, 0, 1⟩, [entryOf 3 2], emptySnapshot⟩, .removeWrite 1, .removeFiles]

theorem saved_survives_power_loss_interruptedSave :
    ∃ s, runMachine (Saver.step smallFiles) interruptedSave .start = some s ∧
    ∃ d, (s.image fun num => if num = 1 then 2 else 0).reopen false = .ok d ∧
      (∃ st, d.lastState = .ok st ∧ ∃ v ∈ s.voted :: s.newer, st.term = v.term ∧ st.vote = v.vote) ∧
      ∀ i e, s.owed i = some e → s.current.removed < i → ∃ size, d.getEntries smallFiles i (i + 1) 0 =
      .ok ([e], size) := by
  obtain ⟨s, hrun, hkeeps⟩ : ∃ s, runMachine (Saver.step smallFiles) interruptedSave .start = some s ∧
      s.Keeps fun num => if num = 1 then 2 else 0 := ⟨_, rfl, by decide, by decide⟩
  have hsafe : Throughout (Saver.step smallFiles) (Saver.Safe smallFiles) interruptedSave .start := by decide +kernel
  exact ⟨s, hrun, saved_survives_power_loss smallFiles interruptedSave s _ false hrun hsafe hkeeps nofun⟩

/-- The second update only moves the commit index and is not synced; a snapshot is saved
into a new file. -/
def closedUnsynced : List SaveStep :=
  [.saveWrite ⟨⟨5, 1, 0⟩, [entryOf 1 5], emptySnapshot⟩, .saveSync, .saveWrite ⟨⟨5, 1, 1⟩, [], emptySnapshot⟩,
    .snapshotWrite ⟨1, 5, ⟨[1, 2, 3], [], []⟩⟩]

/-- The index of the closed file is synced and points to the update, which the file itself
has lost: the vote is gone, although the call that saved it has returned. -/
theorem vote_lost_with_closed_file :
    ¬ ∀ (opts : Options) (steps : List SaveStep) (s : Saver) (kept : ℕ → ℕ) (indexSaved : Bool),
    runMachine (Saver.step opts) steps .start = some s → s.Keeps kept →
    (indexSaved = true → opts.maxLogFileSize ≤ s.store.offset) → ∃ d, (s.image kept).reopen indexSaved = .ok d ∧
      (∃ st, d.lastState = .ok st ∧ ∃ v ∈ s.voted :: s.newer, st.term = v.term ∧ st.vote = v.vote) ∧
      ∀ i e, s.owed i = some e → s.current.removed < i → ∃ size, d.getEntries opts i (i + 1) 0 = .ok ([e], size) := by
  intro h
  obtain ⟨s, hrun, hkeeps, hlast, hterms⟩ : ∃ s, runMachine (Saver.step smallFiles) closedUnsynced .start = some s ∧
      s.Keeps (fun num => if num = 1 then 1 else 0) ∧
      ((s.image fun num => if num = 1 then 1 else 0).reopen false >>= DB.lastState) = .ok emptyState ∧
      ∀ v ∈ s.voted :: s.newer, v.term = 5 := ⟨_, rfl, ⟨by decide, by decide⟩, rfl, by decide⟩
  obtain ⟨d, hd, ⟨st, hst, v, hv, hterm, -⟩, -⟩ := h smallFiles closedUnsynced s _ false hrun hkeeps nofun
  rw [hd, ok_bind, hst] at hlast
  cases hlast
  rw [hterms v hv] at hterm
  cases hterm

end Armada.Tan
