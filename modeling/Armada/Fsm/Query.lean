import Armada.Fsm.Iter

/-! Queries on the table state machine: point and range lookups, the system
indexes, and the full and incremental command snapshots. A snapshot is the list of
commands written to the stream; being stopped by the caller is left out. -/

namespace Armada.Fsm

open Ordered Keys Pebble Proto

/-! ### System keys -/

/-- `binary.LittleEndian.PutUint64`. -/
def littleEndian (x : UInt64) : Bytes := (bigEndian x).reverse

/-- `binary.LittleEndian.Uint64`. -/
def ofLittleEndian (b : Bytes) : UInt64 := ofBigEndian (b.take 8).reverse

/-- The text `index`. -/
def sysLocalIndex : Bytes := encodeSystemKey [0x69, 0x6e, 0x64, 0x65, 0x78]

/-- The text `leader_index`. -/
def sysLeaderIndex : Bytes :=
  encodeSystemKey [0x6c, 0x65, 0x61, 0x64, 0x65, 0x72, 0x5f, 0x69, 0x6e, 0x64, 0x65, 0x78]

/-- The text `gc_horizon`. -/
def sysGCHorizon : Bytes :=
  encodeSystemKey [0x67, 0x63, 0x5f, 0x68, 0x6f, 0x72, 0x69, 0x7a, 0x6f, 0x6e]

/-- An index that was never written reads as zero. -/
def readLocalIndex (db : DB) (indexKey : Bytes) : UInt64 :=
  match db[indexKey]? with
  | none => 0
  | some indexVal => ofLittleEndian indexVal

/-! ### Lookups -/

/-- The newest record of a user key. -/
def seekLatest (reader : DB) (key : Bytes) : Option (Bytes × Bytes) :=
  ((newIter reader .unbounded).seekPrefixGE (encodeUserKey key maxUint64)).rest.head?

def singleLookup (reader : DB) (req : RangeOp) : RangeResponse :=
  match seekLatest reader req.key with
  | none => .empty
  | some (_, value) =>
    if isTombstone value then .empty
    else
      let kv : KeyValue := ⟨req.key, if !req.keysOnly && !req.countOnly then value else []⟩
      ⟨if req.countOnly then [] else [kv], false, 1⟩

def rangeLookup (reader : DB) (req : RangeOp) : Except FsmError RangeResponse := do
  let pages ← iterate reader req
  return pages.headD .empty

def lookup (reader : DB) (req : RangeOp) : Except FsmError RangeResponse :=
  if req.rangeEnd.isSome then rangeLookup reader req else .ok (singleLookup reader req)

/-! ### Command snapshots -/

/-- `writeCommand`. -/
def writeCommand (tableName key val : Bytes) (leaderIndex : UInt64) : Command :=
  { Command.ofType .put with table := tableName, leaderIndex := some leaderIndex, kv := some ⟨key, val⟩ }

/-- `writeDeleteCommand`. -/
def writeDeleteCommand (tableName userKey : Bytes) (leaderIndex : UInt64) : Command :=
  { Command.ofType .delete with
    table := tableName, leaderIndex := some leaderIndex, kv := some ⟨userKey, []⟩ }

/-- Advances past a user key, or past the one record of a system key. -/
def nextSnapshotKey (iter : Iterator) : Iterator :=
  match iter.rest with
  | [] => iter
  | (k, _) :: _ =>
    match decodeBytes k with
    | .ok key => if key.keyType = typeUser then iterNextUserKey iter k else iter.next
    | .error _ => iter.next

/-- The loop of `commandSnapshot`. -/
def snapshotRecords (tableName : Bytes) : List (List (Bytes × Bytes)) → Except FsmError (List Command)
  | [] => .ok []
  | [] :: _ => .ok []
  | ((pebbleKey, value) :: _) :: stops => do
    let k ← decodeKey pebbleKey
    let records ← snapshotRecords tableName stops
    if k.keyType = typeUser then
      if isTombstone value then return records
      else return writeCommand tableName k.key value k.seqno :: records
    else return records

/-- The records of a full snapshot and the local index it was taken at. -/
def commandSnapshot (reader : DB) (tableName : Bytes) : Except FsmError (List Command × UInt64) := do
  let iter := newIter reader .unbounded
  let idx := readLocalIndex reader sysLocalIndex
  let records ← snapshotRecords tableName (iter.stops nextSnapshotKey)
  return (records, idx)

structure SnapshotResponse where
  index : UInt64
  tipIndex : UInt64
  baseIndex : UInt64
  gcHorizon : UInt64

/-- The loop of `commandIncrementalSnapshot`. -/
def incrementalRecords (tableName : Bytes) (baseIndex : UInt64) :
    List (List (Bytes × Bytes)) → Except FsmError (List Command)
  | [] => .ok []
  | [] :: _ => .ok []
  | ((pebbleKey, value) :: _) :: stops => do
    let k ← decodeKey pebbleKey
    let records ← incrementalRecords tableName baseIndex stops
    if k.keyType = typeUser then
      let seqno := decodeV2Seqno pebbleKey
      if seqno > baseIndex then
        if isTombstone value then return writeDeleteCommand tableName k.key seqno :: records
        else return writeCommand tableName k.key value seqno :: records
      else return records
    else return records

/-- The base a requested one is moved to: no base at or below the GC horizon is
complete. -/
def effectiveBase (requestedBase gcHorizon : UInt64) : UInt64 :=
  if gcHorizon > 0 ∧ requestedBase ≤ gcHorizon then gcHorizon + 1 else requestedBase

def commandIncrementalSnapshot (reader : DB) (tableName : Bytes) (requestedBase : UInt64) :
    Except FsmError (List Command × SnapshotResponse) := do
  let idx := readLocalIndex reader sysLocalIndex
  let gcHorizon := readLocalIndex reader sysGCHorizon
  let baseIndex := effectiveBase requestedBase gcHorizon
  let iter := newIter reader .unbounded
  let records ← incrementalRecords tableName baseIndex (iter.stops nextSnapshotKey)
  return (records, ⟨idx, idx, baseIndex, gcHorizon⟩)

end Armada.Fsm
