import Armada.Ordered.Bytes
import Armada.Ordered.Map
import Armada.Program.Fallible

/-! The metadata store: a replicated map of versioned pairs. Every committed proposal is
applied by each replica in the order of the log, and the index of its entry becomes the
version of the pair it writes. -/

namespace Armada.Kv

open Ordered Program

structure Pair (V : Type) where
  key : String
  value : V
  ver : UInt64
  deriving DecidableEq

inductive KvError where
  | notExist
  | versionMismatch
  | invalidEntry

abbrev MapStore (V : Type) := OrdMap String (Pair V)

inductive UpdateOp where
  | set
  | delete
  | unrecognized

structure Update (V : Type) where
  op : UpdateOp
  kvPair : Pair V

inductive ResultCode where
  | failure
  | success
  | versionMismatch
  deriving DecidableEq

structure Result (V : Type) where
  value : ResultCode
  data : Pair V
  deriving DecidableEq

/-- A committed entry; `none` is a command that does not decode. -/
structure Entry (V : Type) where
  index : UInt64
  cmd : Option (Update V)

variable {V : Type}

namespace MapStore

def get (m : MapStore V) (key : String) : Except KvError (Pair V) :=
  match m[key]? with
  | some pair => .ok pair
  | none => .error .notExist

def set (m : MapStore V) (key : String) (value : V) (ver : UInt64) : MapStore V :=
  m.insert key ⟨key, value, ver⟩

/-- The version passed to a delete is not looked at. -/
def delete (m : MapStore V) (key : String) (_ver : UInt64) : MapStore V := m.erase key

end MapStore

/-- The part of `LFSM.Update` behind the version check. -/
def applyUpdate (index : UInt64) (u : Update V) (m : MapStore V) : Result V × MapStore V :=
  let pair := { u.kvPair with ver := index }
  match u.op with
  | .set => (⟨.success, pair⟩, m.set pair.key pair.value pair.ver)
  | .delete => (⟨.success, pair⟩, m.delete pair.key pair.ver)
  | .unrecognized => (⟨.success, pair⟩, m)

/-- One round of the loop of `LFSM.Update`: the version of a key is checked when the store
has the key. -/
def updateEntry (e : Entry V) (m : MapStore V) : Except KvError (Result V × MapStore V) :=
  match e.cmd with
  | none => .error .invalidEntry
  | some u =>
    match m.get u.kvPair.key with
    | .ok v => .ok (if v.ver ≠ u.kvPair.ver then (⟨.versionMismatch, v⟩, m) else applyUpdate e.index u m)
    | .error _ => .ok (applyUpdate e.index u m)

/-- `LFSM.Update`. -/
def update (entries : List (Entry V)) (m : MapStore V) : Except KvError (List (Result V) × MapStore V) :=
  runAll updateEntry entries m

/-! ### The clients' side -/

/-- What `RaftStore.Set` and `RaftStore.Delete` propose. -/
inductive Proposal (V : Type) where
  | set (key : String) (value : V) (ver : UInt64)
  | delete (key : String) (ver : UInt64)
  deriving DecidableEq

namespace Proposal

def key : Proposal V → String
  | .set key _ _ => key
  | .delete key _ => key

def ver : Proposal V → UInt64
  | .set _ _ ver => ver
  | .delete _ ver => ver

/-- The entry of a proposal; the pair of a delete has the zero value. -/
def update [Inhabited V] : Proposal V → Update V
  | .set key value ver => ⟨.set, ⟨key, value, ver⟩⟩
  | .delete key ver => ⟨.delete, ⟨key, default, ver⟩⟩

/-- The store once a proposal has taken effect at an index. -/
def effect (index : UInt64) (m : MapStore V) : Proposal V → MapStore V
  | .set key value _ => m.set key value index
  | .delete key _ => m.delete key index

end Proposal

/-- What `RaftStore.Set` returns for a result. -/
def setReply (r : Result V) : Except KvError (Pair V) :=
  if r.value = .versionMismatch then .error .versionMismatch else .ok r.data

/-- What `RaftStore.Delete` returns for a result. -/
def deleteReply (r : Result V) : Except KvError Unit :=
  if r.value = .versionMismatch then .error .versionMismatch else .ok ()

/-- What the proposer of a proposal is told. -/
def Proposal.reply (p : Proposal V) (r : Result V) : Except KvError Unit :=
  match p with
  | .set _ _ _ => (setReply r).map fun _ => ()
  | .delete _ _ => deleteReply r

/-- A proposal gets past the version check. -/
def Passes (m : MapStore V) (p : Proposal V) : Prop :=
  ∀ pair, m[p.key]? = some pair → pair.ver = p.ver

instance (m : MapStore V) (p : Proposal V) : Decidable (Passes m p) :=
  match h : m[p.key]? with
  | none => .isTrue fun pair hpair => by simp [h] at hpair
  | some v => decidable_of_iff (v.ver = p.ver) (by simp [Passes, h])

section
variable [Inhabited V] {m : MapStore V} {p : Proposal V}

theorem updateEntry_of_passes (h : Passes m p) (index : UInt64) :
    ∃ r, updateEntry ⟨index, some p.update⟩ m = .ok (r, p.effect index m) ∧ p.reply r = .ok () ∧ r.value =
    .success := by
  have hkey : p.update.kvPair.key = p.key := by cases p <;> rfl
  have hver : p.update.kvPair.ver = p.ver := by cases p <;> rfl
  have happly : ∃ r, applyUpdate index p.update m = (r, p.effect index m) ∧ p.reply r = .ok () ∧
      r.value = .success := by
    cases p <;> exact ⟨_, rfl, rfl, rfl⟩
  obtain ⟨r, hr, hreply⟩ := happly
  refine ⟨r, ?_, hreply⟩
  rw [updateEntry]
  simp only [MapStore.get, hkey, hver, hr]
  cases hm : m[p.key]? with
  | none => rfl
  | some v => simp [h v hm]

theorem ver_of_updateEntry {index : UInt64} {r : Result V} {m' : MapStore V}
    (h : updateEntry ⟨index, some p.update⟩ m = .ok (r, m')) (hr : r.value = .success) : r.data.ver = index := by
  have happly : (applyUpdate index p.update m).1.data.ver = index := by
    cases p <;> rfl
  rw [updateEntry] at h
  simp only at h
  split at h
  · split_ifs at h with hver
    · obtain ⟨rfl, -⟩ := Prod.mk.inj (Except.ok.inj h)
      cases hr
    · exact (congrArg (·.1.data.ver) (Except.ok.inj h)).symm.trans happly
  · exact (congrArg (·.1.data.ver) (Except.ok.inj h)).symm.trans happly

theorem updateEntry_of_not_passes (h : ¬ Passes m p) (index : UInt64) :
    ∃ r, updateEntry ⟨index, some p.update⟩ m = .ok (r, m) ∧ p.reply r = .error .versionMismatch ∧
    r.value = .versionMismatch := by
  have hkey : p.update.kvPair.key = p.key := by cases p <;> rfl
  have hver : p.update.kvPair.ver = p.ver := by cases p <;> rfl
  obtain ⟨v, hv, hne⟩ : ∃ v, m[p.key]? = some v ∧ v.ver ≠ p.ver := by
    simpa [Passes] using h
  refine ⟨⟨.versionMismatch, v⟩, ?_, by cases p <;> rfl, rfl⟩
  simp [updateEntry, MapStore.get, hkey, hver, hv, hne]

end

end Armada.Kv
