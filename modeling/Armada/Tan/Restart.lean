import Armada.Tan.Read

/-! Restarting a replica. The log reader is set from the newest snapshot, the last state
and the runs above the snapshot. What the consensus core has had saved is kept beside the
store, which follows it when the index finds every entry above the newest snapshot. -/

namespace Armada.Tan

open Raft Program List

/-! ### The log reader -/

structure LogReader where
  snapshot : Snapshot
  state : State
  markerIndex : ℕ
  markerTerm : ℕ
  length : ℕ

namespace LogReader

variable (lr : LogReader)

def new : LogReader := ⟨emptySnapshot, emptyState, 0, 0, 1⟩

def firstIndex : ℕ := lr.markerIndex + 1

def lastIndex : ℕ := lr.markerIndex + lr.length - 1

def setSnapshot (ss : Snapshot) : Except Fault LogReader :=
  if ss.index ≤ lr.snapshot.index then .error .snapshotOutOfDate else .ok { lr with snapshot := ss }

def applySnapshot (ss : Snapshot) : Except Fault LogReader := do
  let lr ← lr.setSnapshot ss
  .ok { lr with markerIndex := ss.index, markerTerm := ss.term, length := 1 }

def setState (s : State) : LogReader := { lr with state := s }

/-- The entries up to `offset` are kept and `length` more follow them. -/
def extend (firstIndex length : ℕ) : Except Fault LogReader :=
  let offset := firstIndex - lr.markerIndex
  if offset < lr.length then .ok { lr with length := offset + length }
  else if lr.length = offset then .ok { lr with length := lr.length + length }
  else .error (.panicked "gap in log entries")

def setRange (firstIndex length : ℕ) : Except Fault LogReader :=
  if length = 0 ∨ firstIndex + length - 1 < lr.firstIndex then .ok lr
  else if firstIndex < lr.firstIndex then lr.extend lr.firstIndex (length - (lr.firstIndex - firstIndex))
  else lr.extend firstIndex length

/-- The entries read from the store, if they are all there or the size limit was passed. -/
def complete (low high maxSize : ℕ) : List Entry × ℕ → Except Fault (List Entry × ℕ)
  | (ents, size) =>
    if ents.length = high - low ∨ maxSize < size then .ok (ents, size)
    else
      match ents.head?, ents.getLast? with
      | some first, some last =>
        if low < first.index then .error .compacted
        else if lr.lastIndex ≤ last.index + 1 then .error .unavailable
        else .error .gap
      | _, _ => .error .unavailable

def entriesLocked (opts : Options) (d : DB) (lr : LogReader) (low high maxSize : ℕ) : Except Fault (List Entry × ℕ) :=
  if high < low then .error .badRange
  else if low ≤ lr.markerIndex then .error .compacted
  else if lr.lastIndex + 1 < high then .error .unavailable
  else
    let high := if opts.maxEntries < high - low then low + opts.maxEntries else high
    d.getEntries opts low high maxSize >>= lr.complete low high maxSize

def term (opts : Options) (d : DB) (lr : LogReader) (index : ℕ) : Except Fault ℕ :=
  if index = lr.markerIndex then .ok lr.markerTerm
  else do
    let (ents, _) ← lr.entriesLocked opts d index (index + 1) 0
    match ents with
    | [] => .ok 0
    | e :: _ => .ok e.term

end LogReader

/-- A reader that starts at the snapshot, if there is one. -/
def LogReader.ofSnapshot (ss : Snapshot) : Except Fault LogReader :=
  if ss.isEmpty then .ok .new else LogReader.new.applySnapshot ss

/-- Whether the replica starts anew, and its log reader. -/
def replayLog (d : DB) : Except Fault (Bool × LogReader) := do
  let ss ← d.getSnapshot
  let lr ← LogReader.ofSnapshot ss
  match d.getRaftState ss.index with
  | .error .noSavedLog => .ok (true, lr)
  | .error e => .error e
  | .ok rs =>
    let lr := if rs.state = emptyState then lr else lr.setState rs.state
    let lr ← lr.setRange rs.firstIndex rs.entryCount
    .ok (!(0 < ss.index ∨ 0 < rs.entryCount ∨ rs.state ≠ emptyState), lr)

/-! ### What the core has had saved -/

/-- The log of the core after the last saved update, above the snapshot it last received
or restarted from, with the newest snapshot and the last state that were saved. -/
structure Saved where
  marker : Snapshot
  entries : List Entry
  snapshot : Snapshot
  state : State
  /-- the last index of the last entries that were saved -/
  written : ℕ

namespace Saved

variable (c : Saved)

def init : Saved := ⟨emptySnapshot, [], emptySnapshot, emptyState, 0⟩

def lastIndex : ℕ := c.marker.index + c.entries.length

def get (i : ℕ) : Entry := c.entries.getD (i - (c.marker.index + 1)) ⟨i, 0, .application, []⟩

def term (i : ℕ) : ℕ := if i = c.marker.index then c.marker.term else (c.get i).term

/-- A received snapshot takes the place of the log. -/
def receive (ss : Snapshot) : Saved :=
  if ss.isEmpty then c else { c with marker := ss, entries := [], snapshot := ss }

/-- New entries take the place of everything from the first of them on. -/
def overwrite : List Entry → Saved
  | [] => c
  | e :: es =>
    { c with
      entries := c.entries.take (e.index - (c.marker.index + 1)) ++ e :: es
      written := (es.getLast?.getD e).index }

def setState (s : State) : Saved := if s = emptyState then c else { c with state := s }

def save (u : Update) : Saved := ((c.receive u.snapshot).overwrite u.entriesToSave).setState u.state

/-- A local snapshot keeps the log. -/
def saveSnapshot (ss : Snapshot) : Saved :=
  if c.snapshot.index < ss.index then { c with snapshot := ss } else c

/-- The core starts again from the newest snapshot and the entries above it. -/
def restart : Saved :=
  { c with marker := c.snapshot, entries := c.entries.drop (c.snapshot.index - c.marker.index) }

end Saved

/-! ### Runs -/

inductive Event where
  | saveRaftState (u : Update)
  | saveSnapshots (ss : Snapshot)
  | removeEntriesTo (index : ℕ)
  /-- the process closes the store, or dies, and starts again -/
  | reopen (closed : Bool)

def Event.run (opts : Options) : Event → DB → Except Fault DB
  | saveRaftState u, d => d.write opts u
  | saveSnapshots ss, d => d.saveSnapshots opts ss
  | removeEntriesTo index, d => .ok (d.removeEntries opts index)
  | reopen closed, d => d.reopen closed

def Event.core : Event → Saved → Saved
  | saveRaftState u, c => c.save u
  | saveSnapshots ss, c => c.saveSnapshot ss
  | removeEntriesTo _, c => c
  | reopen _, c => c.restart

/-- What the core hands over: newer snapshots, entries without a gap that start above the newest
snapshot and right after the log at the latest, a state with its first entries, local snapshots,
and removals up to the newest snapshot. -/
def Saved.Hands (c : Saved) : Event → Prop
  | .saveRaftState u =>
    (u.snapshot.isEmpty = false → c.snapshot.index < u.snapshot.index) ∧
    (∀ e es, u.entriesToSave = e :: es → Consecutive e.index (e :: es) ∧
      (c.receive u.snapshot).snapshot.index < e.index ∧ e.index ≤ (c.receive u.snapshot).lastIndex + 1) ∧
    u.state.term ≠ compactionFlag ∧
    (u.snapshot.isEmpty = false ∨ u.entriesToSave ≠ [] → (c.setState u.state).state ≠ emptyState)
  | .saveSnapshots ss => c.snapshot.index < ss.index → ss.index ≤ c.lastIndex ∧ c.term ss.index = ss.term
  | .removeEntriesTo index => index ≤ c.snapshot.index
  | .reopen _ => True

def Hands : List Event → Saved → Prop
  | [], _ => True
  | e :: es, c => c.Hands e ∧ Hands es (e.core c)

/-- At every restart, the last one included, the entries that were saved last do not reach
above the log: no received snapshot has discarded entries above its index since. -/
def NoneDiscarded : List Event → Saved → Prop
  | [], c => c.written ≤ c.lastIndex
  | e :: es, c => (∀ closed, e = .reopen closed → c.written ≤ c.lastIndex) ∧ NoneDiscarded es (e.core c)

def runEvents (opts : Options) : List Event → DB → Except Fault DB
  | [], d => .ok d
  | e :: es, d => e.run opts d >>= runEvents opts es

def coreAfter (es : List Event) (c : Saved) : Saved := es.foldl (fun c e => e.core c) c

/-- The store as it is created. -/
def newDB : DB := ⟨[], 1, [], 0, 2, .init, emptyState⟩

example : openDB 1 [] = .ok newDB := rfl

/-- The rebuilt log is the saved one. -/
structure Rebuilt (opts : Options) (d : DB) (lr : LogReader) (c : Saved) : Prop where
  lastIndex : lr.lastIndex = c.lastIndex
  lastTerm : lr.term opts d lr.lastIndex = .ok (c.term c.lastIndex)
  terms : ∀ i, c.snapshot.index < i → i ≤ c.lastIndex → lr.term opts d i = .ok (c.term i)
  entries : ∀ low high, c.snapshot.index < low → low < high → high ≤ c.lastIndex + 1 →
    ∃ size, d.getEntries opts low high 0 = .ok (slice c.get low high, size)
  state : lr.state = c.state

/-! ### The store follows the core -/

/-- The log has consecutive indexes, reaches the newest snapshot and agrees with it. -/
structure Saved.WF (c : Saved) : Prop where
  consecutive : Consecutive (c.marker.index + 1) c.entries
  marker : c.marker.index ≤ c.snapshot.index
  last : c.snapshot.index ≤ c.lastIndex
  term : c.term c.snapshot.index = c.snapshot.term
  noSnapshot : c.snapshot.index = 0 → c.snapshot = emptySnapshot

/-- A log or a snapshot comes with a state. -/
def Saved.Started (c : Saved) : Prop := c.entries ≠ [] ∨ c.snapshot.index ≠ 0 → c.state ≠ emptyState

/-- Above the newest snapshot the index finds every entry of the log, has no gap, and is
the one a restart would build; the pointers are to the last state and the newest snapshot. -/
structure Tracks (d : DB) (c : Saved) : Prop where
  laid : Laid d
  compacted : Compacted d c.snapshot.index
  wf : c.WF
  started : c.Started
  has : d.Has c.get (c.snapshot.index + 1) (c.lastIndex + 1)
  beyond : ∀ i, c.snapshot.index < i → locate d.index.entries.entries i ≠ none → i ≤ c.written
  dense : ∀ i, c.snapshot.index < i → i ≤ c.written → locate d.index.entries.entries i ≠ none
  agree : ∀ i, c.snapshot.index < i → locate d.index.entries.entries i = locate (indexOf d.runs) i
  state : c.state = emptyState ∧ d.index.state = .none ∨ c.state ≠ emptyState ∧
    d.index.state.fileNum ≠ 0 ∧ ∃ u, d.Holds d.index.state.place u ∧ u.state = c.state
  snapshot : c.snapshot.index = 0 ∧ d.index.snapshot = .none ∨ c.snapshot.index ≠ 0 ∧
    d.index.snapshot.fileNum ≠ 0 ∧ ∃ u, d.Holds d.index.snapshot.place u ∧ u.snapshot = c.snapshot
  start : d.index.snapshot.start = c.snapshot.index
  cached : d.state = emptyState ∨ d.state.term = compactionFlag ∨ d.state = c.state

section
variable {opts : Options} {d : DB} {c c' : Saved} {u : Update} {i : ℕ} {place : ℕ × ℕ}

theorem Saved.get_index (h : Consecutive (c.marker.index + 1) c.entries) (hlow : c.marker.index < i)
    (hhigh : i ≤ c.lastIndex) : (c.get i).index = i := by
  rw [lastIndex] at hhigh
  have hk : i - (c.marker.index + 1) < c.entries.length := by omega
  rw [Saved.get, getD_eq_getElem _ _ hk, consecutive_iff.mp h _ hk]
  omega

theorem DB.Holds.mono {d d' : DB} (h : d.logs ⊆ d'.logs) (hu : d.Holds place u) : d'.Holds place u :=
  let ⟨records, hf, hr⟩ := hu
  ⟨records, h hf, hr⟩

theorem DB.Holds.append {v : Update} (h : d.Holds place v) : (d.append opts u).Holds place v := by
  obtain ⟨records, hf, hr⟩ := h
  rw [DB.Holds, logs_append]
  obtain hf | hf := mem_append.mp hf
  · exact ⟨records, mem_append_left _ hf, hr⟩
  · simp only [mem_singleton, Prod.mk.injEq] at hf
    obtain ⟨hnum, rfl⟩ := hf
    exact ⟨d.records ++ [⟨d.offset, u⟩], mem_append_right _ (by rw [hnum]; simp), mem_append_left _ hr⟩

theorem DB.holds_append (opts : Options) (d : DB) (u : Update) : (d.append opts u).Holds (d.logNum, d.offset) u :=
  ⟨d.records ++ [⟨d.offset, u⟩], by rw [logs_append]; simp, by simp⟩

theorem Compacted.mono {bound bound' : ℕ} (h : Compacted d bound) (hle : bound ≤ bound') : Compacted d bound' :=
  ⟨h.entries.trans hle, h.currEntries.trans hle, fun f hf s hs => (h.saved f hf s hs).trans hle,
    fun r hr k hk => (h.records r hr k hk).trans hle⟩

theorem Tracks.switchToNewLog (h : Tracks d c) : Tracks d.switchToNewLog c := by
  have hlogs : d.logs ⊆ d.switchToNewLog.logs := by
    rw [logs_switchToNewLog]
    exact subset_append_left ..
  refine ⟨h.laid.switchToNewLog, h.compacted.switchToNewLog, h.wf, h.started, fun i hlow hhigh =>
    ?_, h.beyond, h.dense, ?_, ?_, ?_, h.start, h.cached⟩
  · obtain ⟨hi, p, v, hloc, hv, hmem⟩ := h.has i hlow hhigh
    exact ⟨hi, p, v, hloc, hv.mono hlogs, hmem⟩
  · rw [runs_switchToNewLog]
    exact h.agree
  · refine h.state.imp_right ?_
    rintro ⟨hne, hfile, v, hv, hst⟩
    exact ⟨hne, hfile, v, hv.mono hlogs, hst⟩
  · refine h.snapshot.imp_right ?_
    rintro ⟨hne, hfile, v, hv, hss⟩
    exact ⟨hne, hfile, v, hv.mono hlogs, hss⟩

theorem Tracks.makeRoomForWrite (h : Tracks d c) : Tracks (d.makeRoomForWrite opts) c := by
  rw [DB.makeRoomForWrite]
  split_ifs
  · exact h
  · exact h.switchToNewLog

/-- What one more record makes of what was saved. -/
structure Appends (c : Saved) (u : Update) (c' : Saved) : Prop where
  wf : c'.WF
  started : c'.Started
  le : c.snapshot.index ≤ c'.snapshot.index
  consecutive : ∀ e es, u.entriesToSave = e :: es → Consecutive e.index (e :: es)
  compaction : ∀ k, isCompactionUpdate u = some k → k ≤ c'.snapshot.index
  entries : u.entriesToSave = [] ∧ c'.written = c.written ∨
    ∃ e es, u.entriesToSave = e :: es ∧ c'.snapshot.index < e.index ∧ c'.written = e.index + es.length ∧
      c'.lastIndex = e.index + es.length ∧ ∀ i, e.index ≤ i → i ≤ c'.lastIndex → c'.get i ∈ u.entriesToSave
  kept : ∀ i, c'.snapshot.index < i → i ≤ c'.lastIndex → (∀ e ∈ u.entriesToSave.head?, i < e.index) →
    i ≤ c.lastIndex ∧ c'.get i = c.get i
  state : c'.state = if isCompactionUpdate u = none ∧ u.state ≠ emptyState then u.state else c.state
  snapshot : c'.snapshot = if c.snapshot.index < u.snapshot.index then u.snapshot else c.snapshot

theorem locate_append_nil (opts : Options) (d : DB) (hes : u.entriesToSave = []) :
    (d.append opts u).index.entries.entries = d.index.entries.entries ∧ (d.append opts u).runs = d.runs := by
  refine ⟨(updateIndex_runs d.index).1.trans ?_, ?_⟩
  · rw [hes]
    rfl
  · rw [runs_append, hes]
    simp [entriesRun]

/-- A record with entries holds them from the first on; below it nothing changes. -/
theorem Laid.locate_append (opts : Options) (h : Laid d) {e : Entry} {es : List Entry} (hes : u.entriesToSave = e :: es)
    (hcons : Consecutive e.index (e :: es)) (i : ℕ) : locate (d.append opts u).index.entries.entries i =
    (if i < e.index then locate d.index.entries.entries i
    else if i ≤ e.index + es.length then some (d.logNum, d.offset) else none) ∧
    locate (indexOf (d.append opts u).runs) i = (if i < e.index then locate (indexOf d.runs) i
    else if i ≤ e.index + es.length then some (d.logNum, d.offset) else none) := by
  have hlaid : Laid (d.append opts u) := h.append fun e' es' heq => by
    rw [hes] at heq
    cases heq
    exact hcons
  have hrun : entriesRun d.logNum d.offset u.entriesToSave =
    some ⟨e.index, e.index + es.length, d.logNum, d.offset, 0⟩ := by
    rw [hes, entriesRun, last_index hcons]
  have hwritten := hlaid.written
  rw [runs_append, hrun] at hwritten
  constructor
  · change locate (updateIndex d.index u d.offset d.logNum).entries.entries i = _
    rw [(updateIndex_runs _).1, hrun]
    exact h.runs.locate_update hwritten
  · rw [runs_append, hrun]
    exact (congrArg (locate · i) indexOf_append_singleton).trans (h.written.runs.locate_update hwritten)

theorem Tracks.append (h : Tracks d c) (ha : Appends c u c') : Tracks (d.append opts u) c' := by
  have hle := ha.le
  have hpos := h.laid.logNum_positive
  have hstate : (d.append opts u).index.state = stateAfter d.logNum d.index.state ⟨d.offset, u⟩ := updateIndex_state _
  have hsnap : (d.append opts u).index.snapshot = snapshotAfter d.logNum d.index.snapshot ⟨d.offset, u⟩ :=
    updateIndex_snapshot _
  have hindex : ∀ i, c'.snapshot.index + 1 ≤ i → i < c'.lastIndex + 1 → (c'.get i).index = i := fun i hlow hhigh =>
    Saved.get_index ha.wf.consecutive (by have := ha.wf.marker; omega) (by omega)
  have hruns : (d.append opts u).Has c'.get (c'.snapshot.index + 1) (c'.lastIndex + 1) ∧
      (∀ i, c'.snapshot.index < i → locate (d.append opts u).index.entries.entries i ≠ none → i ≤ c'.written) ∧
      (∀ i, c'.snapshot.index < i → i ≤ c'.written → locate (d.append opts u).index.entries.entries i ≠ none) ∧
      ∀ i, c'.snapshot.index < i →
        locate (d.append opts u).index.entries.entries i = locate (indexOf (d.append opts u).runs) i := by
    obtain ⟨hes, hwritten⟩ | ⟨e, es, hes, hfirst, hwritten, hlast, hnew⟩ := ha.entries
    · obtain ⟨hsame, hsameRuns⟩ := locate_append_nil opts d hes
      rw [hsame, hsameRuns, hwritten]
      refine ⟨fun i hlow hhigh => ⟨hindex i hlow hhigh, ?_⟩, fun i hi => h.beyond i (by omega), fun i hi =>
        h.dense i (by omega), fun i hi => h.agree i (by omega)⟩
      obtain ⟨hi, hget⟩ := ha.kept i hlow (by omega) (by simp [hes])
      obtain ⟨-, p, v, hloc, hv, hmem⟩ := h.has i (by omega) (by omega)
      exact ⟨p, v, by rwa [hsame], hv.append, by rwa [hget]⟩
    · have hloc := fun i => h.laid.locate_append opts hes (ha.consecutive e es hes) i
      -- below the first new entry the log and the index are as they were
      have hbelow : ∀ i, c'.snapshot.index < i → i < e.index → i ≤ c.lastIndex ∧ c'.get i = c.get i := fun i hi hlt =>
        ha.kept i hi (by omega) (by simpa [hes] using hlt)
      have hold : ∀ i, c'.snapshot.index < i → i < e.index →
          ∃ p v, locate d.index.entries.entries i = some p ∧ d.Holds p v ∧ c'.get i ∈ v.entriesToSave :=
            fun i hi hlt => by
        obtain ⟨hilast, hget⟩ := hbelow i hi hlt
        obtain ⟨-, p, v, hloc, hv, hmem⟩ := h.has i (by omega) (by omega)
        exact ⟨p, v, hloc, hv, by rwa [hget]⟩
      refine ⟨fun i hlow hhigh => ⟨hindex i hlow hhigh, ?_⟩, fun i _ hi => ?_, fun i hi hlast => ?_, fun i hi => ?_⟩
      · by_cases hlt : i < e.index
        · obtain ⟨p, v, hl, hv, hmem⟩ := hold i (by omega) hlt
          exact ⟨p, v, by rw [(hloc i).1, if_pos hlt, hl], hv.append, hmem⟩
        · exact ⟨_, u, by rw [(hloc i).1, if_neg hlt, if_pos (by omega)], d.holds_append opts u,
            hnew i (by omega) (by omega)⟩
      · rw [(hloc i).1] at hi
        split_ifs at hi <;> first | omega | exact absurd rfl hi
      · rw [(hloc i).1]
        by_cases hlt : i < e.index
        · obtain ⟨p, v, hl, -⟩ := hold i hi hlt
          rw [if_pos hlt, hl]
          simp
        · rw [if_neg hlt, if_pos (by omega)]
          simp
      · rw [(hloc i).1, (hloc i).2]
        split_ifs
        · exact h.agree i (by omega)
        · rfl
        · rfl
  obtain ⟨hhas, hbeyond, hdense, hagree⟩ := hruns
  refine ⟨h.laid.append ha.consecutive, (h.compacted.mono hle).append ha.compaction, ha.wf, ha.started, hhas,
    hbeyond, hdense, hagree, ?_, ?_, ?_, ?_⟩
  · rw [hstate, ha.state, stateAfter]
    split_ifs with hc
    · exact .inr ⟨hc.2, hpos.ne', u, d.holds_append opts u, rfl⟩
    · refine h.state.imp_right ?_
      rintro ⟨hne, hfile, v, hv, hst⟩
      exact ⟨hne, hfile, v, hv.append, hst⟩
  · rw [hsnap, ha.snapshot, snapshotAfter, h.start]
    split_ifs with hc
    · exact .inr ⟨by omega, hpos.ne', u, d.holds_append opts u, rfl⟩
    · refine h.snapshot.imp_right ?_
      rintro ⟨hne, hfile, v, hv, hss⟩
      exact ⟨hne, hfile, v, hv.append, hss⟩
  · rw [hsnap, ha.snapshot, snapshotAfter, h.start]
    split_ifs
    · rfl
    · exact h.start
  · rw [ha.state]
    change u.state = emptyState ∨ u.state.term = compactionFlag ∨ u.state = _
    by_cases hempty : u.state = emptyState
    · exact .inl hempty
    cases hc : isCompactionUpdate u with
    | none => exact .inr (.inr (by simp [hempty]))
    | some k =>
      rw [isCompactionUpdate] at hc
      split_ifs at hc with hflag
      exact .inr (.inl hflag.2.2)

end

end Armada.Tan
