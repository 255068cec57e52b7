import Armada.Raft.Records
import Armada.Program.Fallible

/-! The log of the consensus core: a reader of what the log store holds, the entries and
the snapshot that are still in memory, and the log made of both. -/

namespace Armada.Raft

open Program

/-- The checks of the core that end the process when they fail. -/
inductive Panic where
  /-- tryAppend: an entry conflicts with a committed entry -/
  | conflictsWithCommitted
  /-- append: committed entries being changed -/
  | committedChanged
  /-- commitTo: an index above the last one -/
  | commitToOutOfRange
  /-- restore: committed value moving backwards -/
  | committedBackwards
  | holeInEntries
  | termDecreases
  | markerMismatch
  | invalidBounds
  | zeroAppliedTerm
  | appliedMismatch
  | gapInLogReader
  | invalidProcessed
  | invalidLastApplied
  /-- checks of the state machine of the core, see `Raft.Core` -/
  | unexpected (reason : String)
  deriving DecidableEq

/-- Why a step of the core does not go through. -/
inductive Fault where
  | compacted
  | unavailable
  | panicked (p : Panic)
  deriving DecidableEq

def panicked {α : Type} (p : Panic) : Except Fault α := .error (.panicked p)

/-- The sizes that the core pages its log by. -/
structure Limits where
  maxEntrySize : ℕ
  maxEntriesToApplySize : ℕ
  /-- how many entries the log reader returns at once -/
  maxEntries : ℕ
  readsSome : 0 < maxEntries

def Entry.sizeUpperLimit (e : Entry) : ℕ := 16 * 8 + e.cmd.length

/-- The entries that fit into `limit` after the first `total` bytes. -/
def fitting (limit : ℕ) : ℕ → List Entry → List Entry
  | _, [] => []
  | total, e :: es => if limit < total + e.sizeUpperLimit then [] else e :: fitting limit (total + e.sizeUpperLimit) es

/-- The entries up to a total size, the first one in any case. -/
def limitSize (limit : ℕ) : List Entry → List Entry
  | [] => []
  | e :: es => e :: fitting limit e.sizeUpperLimit es

def checkEntriesToAppend (ents toAppend : List Entry) : Except Fault Unit :=
  match ents.getLast?, toAppend.head? with
  | some e, some f =>
    if e.index + 1 ≠ f.index then panicked .holeInEntries
    else if f.term < e.term then panicked .termDecreases
    else .ok ()
  | _, _ => .ok ()

/-! ### The log reader -/

/-- What the core can read of the log store: the entries above a marker, the newest
snapshot and the state that was found at the start. -/
structure LogDB where
  state : State
  snapshot : Snapshot
  markerIndex : ℕ
  markerTerm : ℕ
  entries : List Entry

namespace LogDB

variable (d : LogDB)

def firstIndex : ℕ := d.markerIndex + 1

def lastIndex : ℕ := d.markerIndex + d.entries.length

def getEntries (lim : Limits) (d : LogDB) (low high maxSize : ℕ) : Except Fault (List Entry) :=
  if high < low then panicked .invalidBounds
  else if low ≤ d.markerIndex then .error .compacted
  else if d.lastIndex + 1 < high then .error .unavailable
  else .ok (limitSize maxSize ((d.entries.drop (low - d.firstIndex)).take (min (high - low) lim.maxEntries)))

def term (lim : Limits) (d : LogDB) (index : ℕ) : Except Fault ℕ :=
  if index = d.markerIndex then .ok d.markerTerm
  else do
    let ents ← d.getEntries lim index (index + 1) 0
    match ents with
    | [] => .ok 0
    | e :: _ => .ok e.term

/-- The entries that were just saved become readable. -/
def append : List Entry → Except Fault LogDB
  | [] => .ok d
  | e :: es =>
    if e.index + es.length < d.firstIndex then .ok d
    else
      let cut := d.firstIndex - e.index
      let first := max e.index d.firstIndex
      if d.lastIndex + 1 < first then panicked .gapInLogReader
      else .ok { d with entries := d.entries.take (first - d.firstIndex) ++ (e :: es).drop cut }

/-- A received snapshot takes the place of the entries. -/
def applySnapshot (ss : Snapshot) : LogDB :=
  if ss.index ≤ d.snapshot.index then d
  else { d with snapshot := ss, markerIndex := ss.index, markerTerm := ss.term, entries := [] }

/-- Forgets the entries up to an index. -/
def compact (lim : Limits) (d : LogDB) (index : ℕ) : Except Fault LogDB :=
  if index < d.markerIndex then .ok d
  else if d.lastIndex < index then .error .unavailable
  else do
    let term ← d.term lim index
    .ok { d with markerIndex := index, markerTerm := term, entries := d.entries.drop (index - d.markerIndex) }

end LogDB

/-! ### In memory -/

structure InMemory where
  snapshot : Option Snapshot
  entries : List Entry
  savedTo : ℕ
  markerIndex : ℕ
  appliedToIndex : ℕ
  appliedToTerm : ℕ

def newInMemory (lastIndex : ℕ) : InMemory where
  snapshot := none
  entries := []
  savedTo := lastIndex
  markerIndex := lastIndex + 1
  appliedToIndex := 0
  appliedToTerm := 0

/-- What a processed update lets the log forget. -/
structure UpdateCommit where
  processed : ℕ
  lastApplied : ℕ
  stableLogTo : ℕ
  stableLogTerm : ℕ
  stableSnapshotTo : ℕ
  readyToRead : ℕ

namespace InMemory

variable (im : InMemory)

def checkMarkerIndex : Except Fault InMemory :=
  match im.entries with
  | [] => .ok im
  | e :: _ => if e.index ≠ im.markerIndex then panicked .markerMismatch else .ok im

def getEntries (low high : ℕ) : Except Fault (List Entry) :=
  if high < low ∨ low < im.markerIndex then panicked .invalidBounds
  else if im.markerIndex + im.entries.length < high then panicked .invalidBounds
  else .ok ((im.entries.drop (low - im.markerIndex)).take (high - low))

def getSnapshotIndex : Option ℕ := im.snapshot.map (·.index)

def getLastIndex : Option ℕ :=
  match im.entries.getLast? with
  | some e => some e.index
  | none => im.getSnapshotIndex

def getTerm (index : ℕ) : Except Fault (Option ℕ) :=
  if 0 < index ∧ index = im.appliedToIndex then
    if im.appliedToTerm = 0 then panicked .zeroAppliedTerm else .ok (some im.appliedToTerm)
  else if index < im.markerIndex then
    .ok ((im.snapshot.filter (·.index = index)).map (·.term))
  else if im.getLastIndex.any (index ≤ ·) then
    .ok ((im.entries[index - im.markerIndex]?).map (·.term))
  else .ok none

def entriesToSave : List Entry :=
  let idx := im.savedTo + 1
  -- an index below the marker wraps around to one above the length
  if idx < im.markerIndex ∨ im.entries.length < idx - im.markerIndex then []
  else im.entries.drop (idx - im.markerIndex)

def savedLogTo (index term : ℕ) : InMemory :=
  if index < im.markerIndex then im
  else
    match im.entries.getLast? with
    | none => im
    | some last =>
      if last.index < index ∨ (im.entries[index - im.markerIndex]?).map (·.term) ≠ some term then im
      else { im with savedTo := index }

def savedSnapshotTo (index : ℕ) : InMemory :=
  if im.getSnapshotIndex = some index then { im with snapshot := none } else im

def commitUpdate (cu : UpdateCommit) : InMemory :=
  let im := if 0 < cu.stableLogTo then im.savedLogTo cu.stableLogTo cu.stableLogTerm else im
  if 0 < cu.stableSnapshotTo then im.savedSnapshotTo cu.stableSnapshotTo else im

def appliedLogTo (index : ℕ) : Except Fault InMemory :=
  if index < im.markerIndex then .ok im
  else
    match im.entries.getLast? with
    | none => .ok im
    | some last =>
      if last.index < index then .ok im
      else
        match im.entries[index - im.markerIndex]? with
        | none => panicked .invalidBounds
        | some e =>
          if e.index ≠ index then panicked .appliedMismatch
          else checkMarkerIndex { im with
            appliedToIndex := e.index
            appliedToTerm := e.term
            entries := im.entries.drop (index + 1 - im.markerIndex)
            markerIndex := index + 1 }

/-- New entries take the place of everything from the first of them on. -/
def merge : List Entry → Except Fault InMemory
  | [] => .ok im
  | e :: es =>
    if e.index = im.markerIndex + im.entries.length then do
      checkEntriesToAppend im.entries (e :: es)
      checkMarkerIndex { im with entries := im.entries ++ e :: es }
    else if e.index ≤ im.markerIndex then
      checkMarkerIndex { im with markerIndex := e.index, entries := e :: es, savedTo := e.index - 1 }
    else do
      let existing ← im.getEntries im.markerIndex e.index
      checkEntriesToAppend existing (e :: es)
      checkMarkerIndex { im with entries := existing ++ e :: es, savedTo := min im.savedTo (e.index - 1) }

def restore (im : InMemory) (ss : Snapshot) : InMemory :=
  { im with
    snapshot := some ss
    markerIndex := ss.index + 1
    appliedToIndex := ss.index
    appliedToTerm := ss.term
    entries := []
    savedTo := ss.index }

end InMemory

/-! ### The log -/

structure EntryLog where
  logdb : LogDB
  inmem : InMemory
  committed : ℕ
  /-- committed entries up to here were already returned in updates -/
  processed : ℕ

def newEntryLog (logdb : LogDB) : EntryLog where
  logdb := logdb
  inmem := newInMemory logdb.lastIndex
  committed := logdb.firstIndex - 1
  processed := logdb.firstIndex - 1

namespace EntryLog

variable (lim : Limits) (l : EntryLog)

def firstIndex : ℕ :=
  match l.inmem.getSnapshotIndex with
  | some index => index + 1
  | none => l.logdb.firstIndex

def lastIndex : ℕ :=
  match l.inmem.getLastIndex with
  | some index => index
  | none => l.logdb.lastIndex

def term (index : ℕ) : Except Fault ℕ :=
  if index < l.firstIndex - 1 ∨ l.lastIndex < index then .ok 0
  else do
    let t ← l.inmem.getTerm index
    match t with
    | some t => .ok t
    | none => l.logdb.term lim index

def lastTerm : Except Fault ℕ := l.term lim l.lastIndex

def checkBound (low high : ℕ) : Except Fault Unit :=
  if high < low then panicked .invalidBounds
  else if l.inmem.snapshot.isSome ∧ l.inmem.entries = [] then .error .compacted
  else if low < l.firstIndex then .error .compacted
  else if l.lastIndex + 1 < high then panicked .invalidBounds
  else .ok ()

/-- The entries below those in memory, and whether that is all of them. -/
def getEntriesFromLogDB (low high maxSize : ℕ) :
    Except Fault (List Entry × Bool) :=
  if l.inmem.markerIndex ≤ low then .ok ([], true)
  else do
    let upperBound := min high l.inmem.markerIndex
    let ents ← l.logdb.getEntries lim low upperBound maxSize
    .ok (ents, ents.length = upperBound - low)

def getEntriesFromInMem (ents : List Entry) (low high : ℕ) : Except Fault (List Entry) :=
  if high ≤ l.inmem.markerIndex then .ok ents
  else do
    let inmem ← l.inmem.getEntries (max low l.inmem.markerIndex) high
    checkEntriesToAppend ents inmem
    .ok (ents ++ inmem)

def getEntries (low high maxSize : ℕ) : Except Fault (List Entry) := do
  l.checkBound low high
  if low = high then .ok []
  else
    let found ← l.getEntriesFromLogDB lim low high maxSize
    if found.2 then
      let ents ← l.getEntriesFromInMem found.1 low high
      .ok (limitSize maxSize ents)
    else .ok found.1

def entries (start maxSize : ℕ) : Except Fault (List Entry) :=
  if l.lastIndex < start then .ok [] else l.getEntries lim start (l.lastIndex + 1) maxSize

def snapshot : Snapshot := l.inmem.snapshot.getD l.logdb.snapshot

def firstNotAppliedIndex : ℕ := max (l.processed + 1) l.firstIndex

def toApplyIndexLimit : ℕ := l.committed + 1

def hasEntriesToApply : Bool := l.firstNotAppliedIndex < l.toApplyIndexLimit

def entriesToApply : Except Fault (List Entry) :=
  if l.hasEntriesToApply then
    l.getEntries lim l.firstNotAppliedIndex l.toApplyIndexLimit lim.maxEntriesToApplySize
  else .ok []

def entriesToSave : List Entry := l.inmem.entriesToSave

def append : List Entry → Except Fault EntryLog
  | [] => .ok l
  | e :: es =>
    if e.index ≤ l.committed then panicked .committedChanged
    else do
      let inmem ← l.inmem.merge (e :: es)
      .ok { l with inmem := inmem }

def matchTerm (index term : ℕ) : Except Fault Bool := do
  let lt ← l.term lim index
  .ok (lt = term)

/-- The index of the first entry that the log does not hold, 0 if it holds all of them. -/
def getConflictIndex (lim : Limits) (l : EntryLog) : List Entry → Except Fault ℕ
  | [] => .ok 0
  | e :: es => do
    let same ← l.matchTerm lim e.index e.term
    if same then getConflictIndex lim l es else .ok e.index

def tryAppend (index : ℕ) (ents : List Entry) : Except Fault EntryLog := do
  let conflictIndex ← l.getConflictIndex lim ents
  if conflictIndex = 0 then .ok l
  else if conflictIndex ≤ l.committed then panicked .conflictsWithCommitted
  else l.append (ents.drop (conflictIndex - index - 1))

def commitTo (index : ℕ) : Except Fault EntryLog :=
  if index ≤ l.committed then .ok l
  else if l.lastIndex < index then panicked .commitToOutOfRange
  else .ok { l with committed := index }

/-- The log after a processed update, before the applied entries leave the memory. -/
def setProcessed (processed : ℕ) : Except Fault EntryLog :=
  if processed = 0 then .ok l
  else if processed < l.processed ∨ l.committed < processed then panicked .invalidProcessed
  else .ok { l with processed := processed }

def setLastApplied (lastApplied : ℕ) : Except Fault EntryLog :=
  if lastApplied = 0 then .ok l
  else if l.committed < lastApplied ∨ l.processed < lastApplied then panicked .invalidLastApplied
  else do
    let inmem ← l.inmem.appliedLogTo lastApplied
    .ok { l with inmem := inmem }

def commitUpdate (cu : UpdateCommit) : Except Fault EntryLog := do
  let l := { l with inmem := l.inmem.commitUpdate cu }
  let l ← l.setProcessed cu.processed
  l.setLastApplied cu.lastApplied

def upToDate (index term : ℕ) : Except Fault Bool := do
  let lastTerm ← l.term lim l.lastIndex
  .ok (lastTerm < term ∨ lastTerm = term ∧ l.lastIndex ≤ index)

/-- The term of an entry, 0 if it was compacted. -/
def termOrZero (index : ℕ) : Except Fault ℕ :=
  match l.term lim index with
  | .error .compacted => .ok 0
  | r => r

/-- Commits an entry of the given term, and whether it did. -/
def tryCommit (index term : ℕ) : Except Fault (EntryLog × Bool) :=
  if index ≤ l.committed then .ok (l, false)
  else do
    let lterm ← l.termOrZero lim index
    if lterm = term then
      let l ← l.commitTo index
      .ok (l, true)
    else .ok (l, false)

def restore (ss : Snapshot) : Except Fault EntryLog :=
  if ss.index < l.committed then panicked .committedBackwards
  else .ok { l with inmem := l.inmem.restore ss, committed := ss.index, processed := ss.index }

end EntryLog

end Armada.Raft
