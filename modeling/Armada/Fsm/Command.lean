import Armada.Fsm.Query

/-! Applying commands. A handler runs in an update context: a write batch over the database, the
Raft index of the entry and the leader index of the command, when it carries one. Reads go
through the batch, which is indexed on the first read. `Update` runs the handlers of a list of
entries in one context and commits the batch. -/

namespace Armada.Fsm

open Ordered Keys Pebble Proto

structure UpdateContext where
  batch : Batch
  db : DB
  index : UInt64
  leaderIndex : Option UInt64

/-- The sequence number to stamp into versions: the source leader index when the
command carries one, else the local index. -/
def UpdateContext.seqno (c : UpdateContext) : UInt64 := c.leaderIndex.getD c.index

abbrev Handler := StateT UpdateContext (Except FsmError)

def ensureIndexed : Handler Unit := do
  let c ← get
  if c.batch.indexed then return ()
  set { c with batch := Batch.newIndexedBatch.apply c.batch }

/-- The batch as a reader. -/
def batchReader : Handler DB := do
  let c ← get
  if c.batch.indexed then return c.batch.overlay c.db else throw .notIndexed

def batchSet (key value : Bytes) : Handler Unit :=
  modify fun c => { c with batch := c.batch.set key value }

def getSeqno : Handler UInt64 := do return (← get).seqno

inductive UpdateResult where
  | failure | success | gc
  deriving DecidableEq

/-! ### Put -/

def handlePut (put : PutOp) : Handler PutResponse := do
  let keyBuf := encodeUserKey put.key (← getSeqno)
  let prevKv ← if put.prevKv then do
      ensureIndexed
      let rng := singleLookup (← batchReader) ⟨put.key, none, 0, false, false⟩
      match rng.kvs with
      | [kv] => pure (some kv)
      | _ => pure none
    else pure none
  batchSet keyBuf put.value
  return ⟨prevKv⟩

def handlePutBatch (ops : List PutOp) : Handler (List PutResponse) := ops.mapM handlePut

/-! ### Delete -/

/-- The live records among the stops of a range scan. -/
def liveRecords : List (List (Bytes × Bytes)) → Except FsmError (List KeyValue)
  | [] => .ok []
  | [] :: _ => .ok []
  | ((pebbleKey, value) :: _) :: stops => do
    let k ← decodeKey pebbleKey
    let records ← liveRecords stops
    if k.keyType = typeUser ∧ !isTombstone value then return ⟨k.key, value⟩ :: records
    else return records

def writeTombstones (userKeys : List Bytes) : Handler Unit :=
  userKeys.forM fun userKey => do batchSet (encodeUserKey userKey (← getSeqno)) tombstoneValue

def handleDeleteRange (del : DeleteRangeOp) (rangeEnd : Bytes) : Handler DeleteRangeResponse := do
  ensureIndexed
  let iter := newIter (← batchReader) (iterOptionsForBounds del.key rangeEnd)
  let live ← liveRecords (iter.stops nextUserKey)
  writeTombstones (live.map KeyValue.key)
  return ⟨if del.count || del.prevKv then live.length else 0, if del.prevKv then live else []⟩

def handleDeleteSingle (del : DeleteRangeOp) : Handler DeleteRangeResponse := do
  let resp ← if del.prevKv || del.count then do
      ensureIndexed
      let rng := singleLookup (← batchReader) ⟨del.key, none, 0, false, del.count && !del.prevKv⟩
      if rng.count = 0 then pure none else pure (some ⟨rng.count, rng.kvs⟩)
    else do
      -- The existence check only avoids a pointless tombstone; nothing is reported.
      ensureIndexed
      let existing := singleLookup (← batchReader) ⟨del.key, none, 0, false, true⟩
      if existing.count = 0 then pure none else pure (some .empty)
  match resp with
  | none => return .empty
  | some resp =>
    batchSet (encodeUserKey del.key (← getSeqno)) tombstoneValue
    return resp

def handleDelete (del : DeleteRangeOp) : Handler DeleteRangeResponse :=
  match del.rangeEnd with
  | some rangeEnd => handleDeleteRange del rangeEnd
  | none => handleDeleteSingle del

def handleDeleteBatch (ops : List DeleteRangeOp) : Handler (List DeleteRangeResponse) :=
  ops.mapM handleDelete

/-! ### Transactions -/

def txnCompareSingle (cmp : Compare) (value : Bytes) : Bool :=
  match cmp.target, cmp.targetUnion with
  | .value, some target =>
    match cmp.result with
    | .equal => value = target
    | .notEqual => value ≠ target
    | .greater => target < value
    | .less => value < target
    | .unrecognized => true
  | _, _ => true

/-- A range compare jumps over a tombstoned key but steps through the versions of
a live one. -/
def nextCompared (iter : Iterator) : Iterator :=
  match iter.rest with
  | [] => iter
  | (k, value) :: _ => if isTombstone value then iterNextUserKey iter k else iter.next

def txnCompareRange (reader : DB) (cmp : Compare) (rangeEnd : Bytes) : Bool :=
  let iter := newIter reader (iterOptionsForBounds cmp.key rangeEnd)
  let stops := iter.stops nextCompared
  nonempty stops && stops.all fun stop =>
    match stop with
    | [] => true
    | (_, value) :: _ => isTombstone value || txnCompareSingle cmp value

def txnComparePoint (reader : DB) (cmp : Compare) : Bool :=
  match seekLatest reader cmp.key with
  | none => false
  | some (_, value) => if isTombstone value then false else txnCompareSingle cmp value

def txnCompare (reader : DB) (compare : List Compare) : Bool :=
  compare.all fun cmp =>
    match cmp.rangeEnd with
    | some rangeEnd => txnCompareRange reader cmp rangeEnd
    | none => txnComparePoint reader cmp

def handleTxnOps : List RequestOp → Handler (List ResponseOp)
  | [] => return []
  | .range op :: req => do
    let response ← lookup (← batchReader) op
    return .range response :: (← handleTxnOps req)
  | .put op :: req => do
    let response ← handlePut op
    return .put response :: (← handleTxnOps req)
  | .deleteRange op :: req => do
    let response ← handleDelete op
    return .deleteRange response :: (← handleTxnOps req)
  | .unset :: req => handleTxnOps req

def handleTxn (compare : List Compare) (success fail : List RequestOp) :
    Handler (Bool × List ResponseOp) := do
  ensureIndexed
  let ok := txnCompare (← batchReader) compare
  return (ok, ← handleTxnOps (if ok then success else fail))

/-! ### Commands -/

def commandPut (kv : Option KeyValue) (prevKvs : Bool) : Handler (UpdateResult × CommandResult) := do
  let some kv := kv | throw .nilPointer
  let resp ← handlePut ⟨kv.key, kv.value, prevKvs⟩
  return (.success, ⟨[.put resp], ← getSeqno⟩)

def commandDelete (kv : Option KeyValue) (rangeEnd : Option Bytes) (prevKvs count : Bool) :
    Handler (UpdateResult × CommandResult) := do
  let some kv := kv | throw .nilPointer
  let resp ← handleDelete ⟨kv.key, rangeEnd, prevKvs, count⟩
  return (.success, ⟨[.deleteRange resp], ← getSeqno⟩)

def commandPutBatch (batch : List KeyValue) : Handler (UpdateResult × CommandResult) := do
  let rop ← handlePutBatch (batch.map fun kv => ⟨kv.key, kv.value, false⟩)
  return (.success, ⟨rop.map .put, ← getSeqno⟩)

def commandDeleteBatch (batch : List KeyValue) : Handler (UpdateResult × CommandResult) := do
  let rop ← handleDeleteBatch (batch.map fun kv => ⟨kv.key, none, false, false⟩)
  return (.success, ⟨rop.map .deleteRange, ← getSeqno⟩)

def commandTxn (txn : Option Txn) : Handler (UpdateResult × CommandResult) := do
  let some txn := txn | throw .nilPointer
  let (succ, rop) ← handleTxn txn.compare txn.success txn.failure
  return (if succ then .success else .failure, ⟨rop, ← getSeqno⟩)

def commandDummy : Handler (UpdateResult × CommandResult) := do
  return (.success, ⟨[], ← getSeqno⟩)

/-- The horizon is the sequence number of the command itself. -/
def commandGC : Handler (UpdateResult × CommandResult) := do
  let horizon ← getSeqno
  batchSet sysGCHorizon (littleEndian horizon)
  return (.gc, ⟨[], horizon⟩)

mutual

/-- `wrapCommand` and the handler of the command it selects. -/
def handle : Command → Handler (UpdateResult × CommandResult)
  | ⟨_, type, kv, _, batch, txn, rangeEnd, prevKvs, sequence, count⟩ =>
    match type with
    | .put => commandPut kv prevKvs
    | .delete => commandDelete kv rangeEnd prevKvs count
    | .putBatch => commandPutBatch batch
    | .deleteBatch => commandDeleteBatch batch
    | .txn => commandTxn txn
    | .dummy => commandDummy
    | .gc => commandGC
    | .unrecognized => throw .unknownCommandType
    | .sequence => do
      let sequenceLeaderIndex := (← get).leaderIndex
      let revision ← getSeqno
      let responses ← handleSequence sequenceLeaderIndex sequence
      -- The outer index is the durable watermark of the proposal.
      modify fun c => { c with leaderIndex := sequenceLeaderIndex }
      return (.success, ⟨responses, revision⟩)

/-- The children of a sequence, each under its own leader index or else under the
one of the sequence. -/
def handleSequence (sequenceLeaderIndex : Option UInt64) : List Command → Handler (List ResponseOp)
  | [] => return []
  | cmd :: cmds => do
    modify fun c => { c with leaderIndex := cmd.leaderIndex.or sequenceLeaderIndex }
    let (_, cmdRes) ← handle cmd
    return cmdRes.responses ++ (← handleSequence sequenceLeaderIndex cmds)

end

/-! ### Update -/

/-- A log entry handed to the state machine; `cmd` is what its bytes decode to,
`none` when they do not. -/
structure Entry where
  index : UInt64
  cmd : Option Command

structure EntryResult where
  value : UpdateResult
  data : CommandResult
  deriving DecidableEq

def parseCommand (entry : Entry) : Handler Command := do
  modify fun c => { c with index := entry.index }
  let some cmd := entry.cmd | throw .unmarshal
  modify fun c => { c with leaderIndex := cmd.leaderIndex }
  return cmd

def applyEntry (entry : Entry) : Handler EntryResult := do
  let cmd ← parseCommand entry
  let (updateResult, res) ← handle cmd
  return ⟨updateResult, res⟩

def applyEntries (updates : List Entry) : Handler (List EntryResult) := updates.mapM applyEntry

/-- `updateContext.Commit`: the database afterwards. -/
def UpdateContext.commit (c : UpdateContext) : DB :=
  let batch := match c.leaderIndex with
    | some leaderIdx => c.batch.set sysLeaderIndex (littleEndian leaderIdx)
    | none => c.batch
  (batch.set sysLocalIndex (littleEndian c.index)).commit c.db

def newContext (db : DB) : UpdateContext := ⟨.newBatch, db, 0, none⟩

/-- The last horizon a batch of results advanced to, zero for none. -/
def gcHorizonApplied (results : List EntryResult) : UInt64 :=
  results.foldl (fun h r => if r.value = .gc then r.data.revision else h) 0

/-- The state machine: its database, the in-memory GC horizon, and the index last
handed to the applied callback. -/
structure FSM where
  db : DB
  gcHorizon : UInt64
  applied : UInt64

/-- The state machine of a new table. -/
def FSM.fresh : FSM := ⟨∅, 0, 0⟩

def FSM.update (p : FSM) (updates : List Entry) : Except FsmError (FSM × List EntryResult) := do
  let (results, ctx) ← (applyEntries updates).run (newContext p.db)
  let horizon := gcHorizonApplied results
  return (⟨ctx.commit, if horizon > 0 then horizon else p.gcHorizon, ctx.seqno⟩, results)

end Armada.Fsm
