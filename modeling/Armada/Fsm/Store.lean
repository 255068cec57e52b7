import Armada.Fsm.Command
import Armada.Program.Fallible

/-! Commands over an arbitrary storage. The handlers need little of it: the newest live value of
a key, the live pairs of a range, the outcome of a range compare, the first page of a range
read, and a way to stamp a value or a deletion. -/

namespace Armada.Fsm

open Ordered Keys Pebble Proto Program

/-- What the command handlers need of a table's storage. -/
structure Store (S : Type) where
  point : S → Bytes → Option Bytes
  scan : S → Bytes → Bytes → Except FsmError (List KeyValue)
  compareRange : S → Compare → Bytes → Bool
  page : S → RangeOp → Except FsmError RangeResponse
  write : S → Bytes → UInt64 → Bytes → S
  remove : S → Bytes → UInt64 → S
  setHorizon : S → UInt64 → S

/-- The response to a point read that found `value`. -/
def pointResponse (req : RangeOp) (value : Option Bytes) : RangeResponse :=
  match value with
  | none => .empty
  | some value =>
    ⟨if req.countOnly then [] else [⟨req.key, if !req.keysOnly && !req.countOnly then value else []⟩],
      false, 1⟩

def deleteRangeResponse (del : DeleteRangeOp) (live : List KeyValue) : DeleteRangeResponse :=
  ⟨if del.count || del.prevKv then live.length else 0, if del.prevKv then live else []⟩

namespace Store

variable {S : Type} (X : Store S) (s : UInt64)

def put (op : PutOp) (x : S) : Except FsmError (PutResponse × S) :=
  .ok (⟨if op.prevKv then (X.point x op.key).map fun value => ⟨op.key, value⟩ else none⟩,
    X.write x op.key s op.value)

def removeAll (keys : List Bytes) (x : S) : S := keys.foldl (fun x key => X.remove x key s) x

/-- The live pairs a delete acts on. -/
def targets (del : DeleteRangeOp) (x : S) : Except FsmError (List KeyValue) :=
  match del.rangeEnd with
  | some rangeEnd => X.scan x del.key rangeEnd
  | none => .ok ((X.point x del.key).map fun value => ⟨del.key, value⟩).toList

def delete (del : DeleteRangeOp) (x : S) : Except FsmError (DeleteRangeResponse × S) := do
  let live ← X.targets del x
  return (deleteRangeResponse del live, X.removeAll s (live.map KeyValue.key) x)

def compareOne (x : S) (cmp : Compare) : Bool :=
  match cmp.rangeEnd with
  | some rangeEnd => X.compareRange x cmp rangeEnd
  | none =>
    match X.point x cmp.key with
    | none => false
    | some value => txnCompareSingle cmp value

def compare (x : S) (cmps : List Compare) : Bool := cmps.all (X.compareOne x)

def lookup (x : S) (req : RangeOp) : Except FsmError RangeResponse :=
  if req.rangeEnd.isSome then X.page x req else .ok (pointResponse req (X.point x req.key))

def txnOp (op : RequestOp) (x : S) : Except FsmError (List ResponseOp × S) :=
  match op with
  | .range op => do return ([.range (← X.lookup x op)], x)
  | .put op => do
    let r ← X.put s op x
    return ([.put r.1], r.2)
  | .deleteRange op => do
    let r ← X.delete s op x
    return ([.deleteRange r.1], r.2)
  | .unset => .ok ([], x)

def txn (t : Txn) (x : S) : Except FsmError ((Bool × List ResponseOp) × S) := do
  let ok := X.compare x t.compare
  let r ← runAll (X.txnOp s) (if ok then t.success else t.failure) x
  return ((ok, r.1.flatten), r.2)

/-! ### Commands -/

def commandPut (kv : Option KeyValue) (prevKvs : Bool) (x : S) :
    Except FsmError ((UpdateResult × CommandResult) × S) :=
  match kv with
  | none => .error .nilPointer
  | some kv => do
    let r ← X.put s ⟨kv.key, kv.value, prevKvs⟩ x
    return ((.success, ⟨[.put r.1], s⟩), r.2)

def commandDelete (kv : Option KeyValue) (rangeEnd : Option Bytes) (prevKvs count : Bool) (x : S) :
    Except FsmError ((UpdateResult × CommandResult) × S) :=
  match kv with
  | none => .error .nilPointer
  | some kv => do
    let r ← X.delete s ⟨kv.key, rangeEnd, prevKvs, count⟩ x
    return ((.success, ⟨[.deleteRange r.1], s⟩), r.2)

def commandPutBatch (batch : List KeyValue) (x : S) :
    Except FsmError ((UpdateResult × CommandResult) × S) := do
  let r ← runAll (X.put s) (batch.map fun kv => ⟨kv.key, kv.value, false⟩) x
  return ((.success, ⟨r.1.map .put, s⟩), r.2)

def commandDeleteBatch (batch : List KeyValue) (x : S) :
    Except FsmError ((UpdateResult × CommandResult) × S) := do
  let r ← runAll (X.delete s) (batch.map fun kv => ⟨kv.key, none, false, false⟩) x
  return ((.success, ⟨r.1.map .deleteRange, s⟩), r.2)

def commandTxn (t : Option Txn) (x : S) : Except FsmError ((UpdateResult × CommandResult) × S) :=
  match t with
  | none => .error .nilPointer
  | some t => do
    let r ← X.txn s t x
    return ((if r.1.1 then .success else .failure, ⟨r.1.2, s⟩), r.2)

mutual

/-- A command run at sequence number `s`. -/
def handle (s : UInt64) : Command → S → Except FsmError ((UpdateResult × CommandResult) × S)
  | ⟨_, type, kv, _, batch, txn, rangeEnd, prevKvs, sequence, count⟩, x =>
    match type with
    | .put => X.commandPut s kv prevKvs x
    | .delete => X.commandDelete s kv rangeEnd prevKvs count x
    | .putBatch => X.commandPutBatch s batch x
    | .deleteBatch => X.commandDeleteBatch s batch x
    | .txn => X.commandTxn s txn x
    | .dummy => .ok ((.success, ⟨[], s⟩), x)
    | .gc => .ok ((.gc, ⟨[], s⟩), X.setHorizon x s)
    | .unrecognized => .error .unknownCommandType
    | .sequence => do
      let r ← handleSequence s sequence x
      return ((.success, ⟨r.1, s⟩), r.2)

/-- Children without a leader index of their own run at the one of the sequence. -/
def handleSequence (s : UInt64) : List Command → S → Except FsmError (List ResponseOp × S)
  | [], x => .ok ([], x)
  | cmd :: cmds, x => do
    let r ← handle (cmd.leaderIndex.getD s) cmd x
    let rs ← handleSequence s cmds r.2
    return (r.1.2.responses ++ rs.1, rs.2)

end

/-- The child of a sequence at `s`. -/
def handleChild (s : UInt64) (cmd : Command) : S → Except FsmError ((UpdateResult × CommandResult) × S) :=
  X.handle (cmd.leaderIndex.getD s) cmd

theorem handleSequence_eq (cmds : List Command) (x : S) : X.handleSequence s cmds x = do
      let rs ← runAll (X.handleChild s) cmds x
      return ((rs.1.map fun r => r.2.responses).flatten, rs.2) := by
  induction cmds generalizing x with
  | nil => simp [handleSequence, runAll, pure, Except.pure]
  | cons cmd cmds ih => simp [handleSequence, runAll, handleChild, ih]

def applyEntry (entry : Entry) (x : S) : Except FsmError (EntryResult × S) :=
  match entry.cmd with
  | none => .error .unmarshal
  | some cmd => do
    let r ← X.handle (cmd.leaderIndex.getD entry.index) cmd x
    return (⟨r.1.1, r.1.2⟩, r.2)

def applyEntries : List Entry → S → Except FsmError (List EntryResult × S) := runAll X.applyEntry

end Store

end Armada.Fsm
