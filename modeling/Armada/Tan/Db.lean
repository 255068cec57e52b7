import Armada.Program.Fallible
import Armada.Tan.Index

/-! The log store of a replica. Updates are appended to the current log file; when it is full
its index is saved beside it and a new file is started. Removing entries writes a record of its
own and lets go of files; a restart builds the index from the saved ones and from the records of
the file that has none. -/

namespace Armada.Tan

open Raft Program

inductive Fault where
  | noSavedLog
  | fileMissing
  | compacted
  | unavailable
  | snapshotOutOfDate
  | badRange
  | gap
  | panicked (msg : String)

structure Update where
  state : State
  entriesToSave : List Entry
  snapshot : Snapshot
  deriving DecidableEq

def stateFlag : ℕ := 2 ^ 64 - 1

def snapshotFlag : ℕ := 2 ^ 64 - 2

def compactionFlag : ℕ := 2 ^ 64 - 3

def isCompactionUpdate (u : Update) : Option ℕ :=
  if u.entriesToSave = [] ∧ u.snapshot.isEmpty ∧ u.state.term = compactionFlag then some u.state.commit else none

def getCompactionUpdate (index : ℕ) : Update := ⟨⟨compactionFlag, 0, index⟩, [], emptySnapshot⟩

structure Record where
  offset : ℕ
  update : Update
  deriving DecidableEq

/-- What the index file of a log file holds. -/
structure SavedIndex where
  entries : Index
  snapshot : IndexEntry
  state : IndexEntry
  deriving DecidableEq

structure LogFile where
  num : ℕ
  records : List Record
  index : Option SavedIndex
  deriving DecidableEq

structure Options where
  maxLogFileSize : ℕ
  /-- where the next record starts once the update is written at the offset -/
  writeRecord : ℕ → Update → ℕ
  advances : ∀ offset u, offset < writeRecord offset u
  sizeUpperLimit : Entry → ℕ
  /-- how many entries are read at once at most -/
  maxEntries : ℕ
  readsSome : 0 < maxEntries

structure DB where
  /-- the files that are no longer written, the oldest first -/
  files : List LogFile
  logNum : ℕ
  records : List Record
  offset : ℕ
  nextFileNum : ℕ
  index : NodeIndex
  /-- the state that was written last -/
  state : State

/-! ### Writing -/

def entriesRun (logNum pos : ℕ) : List Entry → Option IndexEntry
  | [] => none
  | e :: es => some ⟨e.index, (es.getLast?.getD e).index, logNum, pos, 0⟩

def updateIndex (n : NodeIndex) (u : Update) (pos logNum : ℕ) : NodeIndex :=
  match isCompactionUpdate u with
  | some compactedTo =>
    { n with
      currEntries := n.currEntries.setCompactedTo compactedTo
      entries := n.entries.setCompactedTo compactedTo }
  | none =>
    let n := match entriesRun logNum pos u.entriesToSave with
      | none => n
      | some ei => { n with entries := n.entries.update ei, currEntries := n.currEntries.update ei }
    let n :=
      if u.snapshot.isEmpty = false ∧ n.snapshot.start < u.snapshot.index then
        { n with snapshot := ⟨u.snapshot.index, snapshotFlag, logNum, pos, 0⟩ }
      else n
    if u.state = emptyState then n
    else { n with state := ⟨u.state.commit, stateFlag, logNum, pos, 0⟩ }

def DB.saveIndex (d : DB) : SavedIndex := ⟨d.index.currEntries, d.index.snapshot, d.index.state⟩

def DB.createNewLog (d : DB) (index : Option SavedIndex) : DB :=
  { d with
    files := d.files ++ [⟨d.logNum, d.records, index⟩]
    logNum := d.nextFileNum
    records := []
    offset := 0
    nextFileNum := d.nextFileNum + 1 }

def DB.switchToNewLog (d : DB) : DB :=
  { d with index := { d.index with currEntries := .empty } }.createNewLog (some d.saveIndex)

def DB.makeRoomForWrite (opts : Options) (d : DB) : DB :=
  if d.offset < opts.maxLogFileSize then d else d.switchToNewLog

/-- The update as one more record of the current file. -/
def DB.append (opts : Options) (u : Update) (d : DB) : DB :=
  { d with
    records := d.records ++ [⟨d.offset, u⟩]
    index := updateIndex d.index u d.offset d.logNum
    offset := opts.writeRecord d.offset u
    state := u.state }

def DB.doWriteLocked (opts : Options) (u : Update) (d : DB) : DB := (d.makeRoomForWrite opts).append opts u

/-- An update that says nothing new is not written. -/
def DB.write (opts : Options) (u : Update) (d : DB) : Except Fault DB :=
  if (isCompactionUpdate u).isSome then .error (.panicked "trying to write a compaction update")
  else if u.state = d.state ∧ u.snapshot.isEmpty ∧ u.entriesToSave = [] then .ok d
  else .ok (d.doWriteLocked opts u)

def DB.compactionLocked (d : DB) : DB :=
  let (obsolete, n) := d.index.compaction
  let obsolete := obsolete.filter fun fn => !n.fileInUse fn
  { d with index := n, files := d.files.filter fun f => f.num ∉ obsolete }

def DB.removeEntries (opts : Options) (index : ℕ) (d : DB) : DB :=
  let d := d.doWriteLocked opts (getCompactionUpdate index)
  let n := { d.index with
    currEntries := d.index.currEntries.setCompactedTo index
    entries := d.index.entries.setCompactedTo index }
  { d with index := n }.compactionLocked

def DB.saveSnapshots (opts : Options) (ss : Snapshot) (d : DB) : Except Fault DB :=
  if ss.isEmpty then .ok d else d.write opts ⟨emptyState, [], ss⟩

/-! ### Opening -/

/-- The first run meets those of earlier files, the others are appended as they are. -/
def loadEntries (l : List IndexEntry) : List IndexEntry → List IndexEntry
  | [] => l
  | e :: es => es.reverse ++ updateEntries l e

def load (n : NodeIndex) (saved : SavedIndex) : NodeIndex :=
  { n with
    entries := Index.setCompactedTo
      { n.entries with entries := loadEntries n.entries.entries saved.entries.entries.reverse }
      saved.entries.compactedTo
    snapshot := saved.snapshot
    state := if saved.state.empty then n.state else saved.state }

def rebuildIndex (n : NodeIndex) (f : LogFile) : NodeIndex :=
  f.records.foldl (fun n r => updateIndex n r.update r.offset f.num) n

/-- The files with the index of the one that had none, and the index of them all. -/
def loadFiles (files : List LogFile) : Except Fault (List LogFile × NodeIndex) :=
  let n := (files.filterMap (·.index)).foldl load .init
  match files.filter (·.index.isNone) with
  | [] => .ok (files, n)
  | [f] =>
    let n := rebuildIndex n f
    let saved : SavedIndex := ⟨n.currEntries, n.snapshot, n.state⟩
    .ok (files.map fun g => if g.index.isNone then { g with index := some saved } else g,
      { n with currEntries := .empty })
  | _ => .error (.panicked "more than one log file have index missing")

def openDB (nextFileNum : ℕ) (files : List LogFile) : Except Fault DB := do
  let (files, n) ← loadFiles files
  let d : DB := ⟨files, nextFileNum, [], 0, nextFileNum + 1, n, emptyState⟩
  .ok (if 0 < d.index.entries.compactedTo then d.compactionLocked else d)

/-- What the process leaves behind: the index of the current file is saved when it closes
the store, and is not when it dies. -/
def DB.onDisk (closed : Bool) (d : DB) : List LogFile :=
  d.files ++ [⟨d.logNum, d.records, if closed then some d.saveIndex else none⟩]

def DB.reopen (closed : Bool) (d : DB) : Except Fault DB := openDB d.nextFileNum (d.onDisk closed)

/-! ### Reading -/

def DB.logs (d : DB) : List (ℕ × List Record) :=
  d.files.map (fun f => (f.num, f.records)) ++ [(d.logNum, d.records)]

/-- The records of a file from the position on. -/
def DB.readLog (d : DB) (ie : IndexEntry) : Except Fault (List Record) :=
  match d.logs.find? (fun f => f.1 = ie.fileNum) with
  | none => .error .fileMissing
  | some (_, records) => .ok (records.dropWhile fun r => r.offset < ie.pos)

def DB.getSnapshot (d : DB) : Except Fault Snapshot :=
  if d.index.snapshot.empty then .ok emptySnapshot
  else do
    match ← d.readLog d.index.snapshot with
    | [] => .ok emptySnapshot
    | r :: _ => if r.update.snapshot.isEmpty then .error (.panicked "empty snapshot") else .ok r.update.snapshot

structure RaftState where
  state : State
  firstIndex : ℕ
  entryCount : ℕ

def DB.readState (d : DB) : Except Fault State := do
  match ← d.readLog d.index.state with
  | [] => .ok emptyState
  | r :: _ => if r.update.state = emptyState then .error (.panicked "empty state") else .ok r.update.state

def connectedRuns : ℕ → List IndexEntry → Bool
  | _, [] => true
  | prevIndex, e :: es => (prevIndex = 0 ∨ prevIndex + 1 = e.start) && connectedRuns e.stop es

def DB.getRaftState (d : DB) (lastIndex : ℕ) : Except Fault RaftState :=
  let ies := d.index.entries.query (lastIndex + 1) none
  if d.index.state.empty then .error .noSavedLog
  else do
    let st ← d.readState
    if connectedRuns 0 ies then
      match ies.getLast? with
      | none => .ok ⟨st, 0, 0⟩
      | some ie => .ok ⟨st, lastIndex + 1, ie.stop - (lastIndex + 1) + 1⟩
    else .error (.panicked "gap in indexes")

/-- Entries collected so far, their size, the index that comes next, and whether the size
limit was passed. -/
structure Reading where
  entries : List Entry
  size : ℕ
  expected : ℕ
  done : Bool

/-- The entries of one record; the flag says whether to go on to the next record. -/
def readUpdate (opts : Options) (ie : IndexEntry) (high : ℕ) (maxSize : Option ℕ) :
    List Entry → Reading → Except Fault (Reading × Bool)
  | [], s => .ok (s, true)
  | e :: es, s =>
    if e.index < s.expected then readUpdate opts ie high maxSize es s
    else if e.index = s.expected ∧ e.index < high ∧ ie.start ≤ e.index ∧ e.index ≤ ie.stop then
      if s.entries.getLast?.any (fun last => last.index + 1 ≠ e.index) then .error (.panicked "gap in entry index")
      else
        let s : Reading := ⟨s.entries ++ [e], s.size + opts.sizeUpperLimit e, s.expected + 1, s.done⟩
        if maxSize.any (· < s.size) then .ok ({ s with done := true }, false)
        else readUpdate opts ie high maxSize es s
    else .ok (s, false)

def readRecords (opts : Options) (ie : IndexEntry) (high : ℕ) (maxSize : Option ℕ) :
    List Record → Reading → Except Fault Reading
  | [], s => .ok s
  | r :: rs, s => do
    let (s, more) ← readUpdate opts ie high maxSize r.update.entriesToSave s
    if more then readRecords opts ie high maxSize rs s else .ok s

def DB.readRuns (opts : Options) (d : DB) (high : ℕ) (maxSize : Option ℕ) :
    List IndexEntry → Reading → Except Fault Reading
  | [], s => .ok s
  | ie :: ies, s => do
    let records ← d.readLog ie
    let s ← readRecords opts ie high maxSize records s
    if s.done then .ok s else d.readRuns opts high maxSize ies s

/-- The entries from `low` up to `high` and their size; no limit when `maxSize` is 0. -/
def DB.getEntries (opts : Options) (d : DB) (low high maxSize : ℕ) : Except Fault (List Entry × ℕ) :=
  let ies := d.index.entries.query low (some high)
  if ies = [] ∨ low ≤ d.index.entries.compactedTo then .ok ([], 0)
  else do
    let s ← d.readRuns opts high (if maxSize = 0 then none else some maxSize) ies ⟨[], 0, low, false⟩
    .ok (s.entries, s.size)

end Armada.Tan
