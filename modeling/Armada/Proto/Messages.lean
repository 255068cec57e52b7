import Armada.Ordered.Bytes

/-! The messages of the replicated log: commands, transaction requests and the
results of applying them. Optional fields are options; the revisions of a key
value pair are not used by the state machine and are left out. -/

namespace Armada.Proto

open Ordered

structure KeyValue where
  key : Bytes
  value : Bytes
  deriving DecidableEq

/-- `RequestOp.Range`. -/
structure RangeOp where
  key : Bytes
  rangeEnd : Option Bytes
  limit : ℤ
  keysOnly : Bool
  countOnly : Bool
  deriving DecidableEq

/-- `RequestOp.Put`. -/
structure PutOp where
  key : Bytes
  value : Bytes
  prevKv : Bool
  deriving DecidableEq

/-- `RequestOp.DeleteRange`. -/
structure DeleteRangeOp where
  key : Bytes
  rangeEnd : Option Bytes
  prevKv : Bool
  count : Bool
  deriving DecidableEq

/-- The request union of a transaction; `unset` when no member is set. -/
inductive RequestOp where
  | range (op : RangeOp)
  | put (op : PutOp)
  | deleteRange (op : DeleteRangeOp)
  | unset
  deriving DecidableEq

inductive CompareResult where
  | equal | greater | less | notEqual | unrecognized
  deriving DecidableEq

inductive CompareTarget where
  | value | unrecognized
  deriving DecidableEq

structure Compare where
  result : CompareResult
  target : CompareTarget
  key : Bytes
  targetUnion : Option Bytes
  rangeEnd : Option Bytes
  deriving DecidableEq

structure Txn where
  compare : List Compare
  success : List RequestOp
  failure : List RequestOp
  deriving DecidableEq

inductive CommandType where
  | put | delete | dummy | putBatch | deleteBatch | txn | sequence | gc | unrecognized
  deriving DecidableEq

structure Command where
  table : Bytes
  type : CommandType
  kv : Option KeyValue
  leaderIndex : Option UInt64
  batch : List KeyValue
  txn : Option Txn
  rangeEnd : Option Bytes
  prevKvs : Bool
  sequence : List Command
  count : Bool

/-- A command with no field set but its type. -/
def Command.ofType (type : CommandType) : Command :=
  ⟨[], type, none, none, [], none, none, false, [], false⟩

mutual

def Command.decEq : (a b : Command) → Decidable (a = b)
  | ⟨table, type, kv, leaderIndex, batch, txn, rangeEnd, prevKvs, sequence, count⟩,
    ⟨table', type', kv', leaderIndex', batch', txn', rangeEnd', prevKvs', sequence', count'⟩ =>
    have : Decidable (sequence = sequence') := Command.decEqAll sequence sequence'
    decidable_of_iff (table = table' ∧ type = type' ∧ kv = kv' ∧ leaderIndex = leaderIndex' ∧ batch = batch' ∧
      txn = txn' ∧ rangeEnd = rangeEnd' ∧ prevKvs = prevKvs' ∧ sequence = sequence' ∧ count = count')
      (by rw [Command.mk.injEq])

def Command.decEqAll : (as bs : List Command) → Decidable (as = bs)
  | [], [] => isTrue rfl
  | [], _ :: _ => isFalse nofun
  | _ :: _, [] => isFalse nofun
  | a :: as, b :: bs =>
    have : Decidable (a = b) := Command.decEq a b
    have : Decidable (as = bs) := Command.decEqAll as bs
    decidable_of_iff (a = b ∧ as = bs) (by rw [List.cons.injEq])

end

instance : DecidableEq Command := Command.decEq

theorem Command.induct {P : Command → Prop} (h : ∀ c, (∀ c' ∈ c.sequence, P c') → P c) (c : Command) : P c :=
  h c fun c' _ => Command.induct h c'
termination_by c
decreasing_by
  have hlt := List.sizeOf_lt_of_mem ‹c' ∈ c.sequence›
  cases c
  simp only [Command.mk.sizeOf_spec] at *
  omega

/-- `ResponseOp.Range`. -/
structure RangeResponse where
  kvs : List KeyValue
  more : Bool
  count : ℕ
  deriving DecidableEq

def RangeResponse.empty : RangeResponse := ⟨[], false, 0⟩

/-- `ResponseOp.Put`. -/
structure PutResponse where
  prevKv : Option KeyValue
  deriving DecidableEq

/-- `ResponseOp.DeleteRange`. -/
structure DeleteRangeResponse where
  deleted : ℕ
  prevKvs : List KeyValue
  deriving DecidableEq

def DeleteRangeResponse.empty : DeleteRangeResponse := ⟨0, []⟩

inductive ResponseOp where
  | range (op : RangeResponse)
  | put (op : PutResponse)
  | deleteRange (op : DeleteRangeResponse)
  deriving DecidableEq

structure CommandResult where
  responses : List ResponseOp
  revision : UInt64
  deriving DecidableEq

end Armada.Proto
