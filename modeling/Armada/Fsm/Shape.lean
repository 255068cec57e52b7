import Armada.Fsm.Simulation

/-! Commands of a given shape. A shape is a condition on every operation of a command
that does not look at the state. Operations of a shape that keep an invariant keep it
over commands of that shape, and meet along them every guard that the invariant
gives. -/

namespace Armada.Fsm

open Ordered Keys Pebble Proto Program

/-- A condition on every operation of a command, whatever the state it meets. -/
structure Shape where
  put : PutOp → Prop
  delete : DeleteRangeOp → Prop
  compare : Compare → Prop
  range : RangeOp → Prop

namespace Shape

variable (C : Shape)

def txnOp : RequestOp → Prop
  | .range op => C.range op
  | .put op => C.put op
  | .deleteRange op => C.delete op
  | .unset => True

/-- The condition on a command that is no sequence; both branches of a transaction have
to meet it. -/
def leaf (cmd : Command) : Prop :=
  match cmd.type with
  | .put => ∀ kv ∈ cmd.kv, C.put ⟨kv.key, kv.value, cmd.prevKvs⟩
  | .delete => ∀ kv ∈ cmd.kv, C.delete ⟨kv.key, cmd.rangeEnd, cmd.prevKvs, cmd.count⟩
  | .putBatch => ∀ kv ∈ cmd.batch, C.put ⟨kv.key, kv.value, false⟩
  | .deleteBatch => ∀ kv ∈ cmd.batch, C.delete ⟨kv.key, none, false, false⟩
  | .txn => ∀ t ∈ cmd.txn,
    (∀ cmp ∈ t.compare, C.compare cmp) ∧ ∀ ok : Bool, ∀ op ∈ if ok then t.success else t.failure, C.txnOp op
  | .dummy | .gc | .sequence | .unrecognized => True

instance [DecidablePred C.put] [DecidablePred C.delete] [DecidablePred C.range] (op : RequestOp) :
    Decidable (C.txnOp op) :=
  match op with
  | .range op => inferInstanceAs (Decidable (C.range op))
  | .put op => inferInstanceAs (Decidable (C.put op))
  | .deleteRange op => inferInstanceAs (Decidable (C.delete op))
  | .unset => inferInstanceAs (Decidable True)

instance [DecidablePred C.put] [DecidablePred C.delete] [DecidablePred C.compare] [DecidablePred C.range]
    (cmd : Command) : Decidable (C.leaf cmd) :=
  match cmd with
  | ⟨_, .put, pair, _, _, _, _, prevKvs, _, _⟩ =>
    inferInstanceAs (Decidable (∀ kv ∈ pair, C.put ⟨kv.key, kv.value, prevKvs⟩))
  | ⟨_, .delete, pair, _, _, _, rangeEnd, prevKvs, _, count⟩ =>
    inferInstanceAs (Decidable (∀ kv ∈ pair, C.delete ⟨kv.key, rangeEnd, prevKvs, count⟩))
  | ⟨_, .putBatch, _, _, batch, _, _, _, _, _⟩ =>
    inferInstanceAs (Decidable (∀ kv ∈ batch, C.put ⟨kv.key, kv.value, false⟩))
  | ⟨_, .deleteBatch, _, _, batch, _, _, _, _, _⟩ =>
    inferInstanceAs (Decidable (∀ kv ∈ batch, C.delete ⟨kv.key, none, false, false⟩))
  | ⟨_, .txn, _, _, _, txn, _, _, _, _⟩ =>
    inferInstanceAs (Decidable (∀ t ∈ txn, (∀ cmp ∈ t.compare, C.compare cmp) ∧
      ∀ ok : Bool, ∀ op ∈ if ok then t.success else t.failure, C.txnOp op))
  | ⟨_, .dummy, _, _, _, _, _, _, _, _⟩ | ⟨_, .gc, _, _, _, _, _, _, _, _⟩
  | ⟨_, .sequence, _, _, _, _, _, _, _, _⟩ | ⟨_, .unrecognized, _, _, _, _, _, _, _, _⟩ =>
    inferInstanceAs (Decidable True)

end Shape

/-- Operations of the shape at `s` keep the invariant, and it guards them. -/
structure Keeps {S : Type} (X : Store S) (G : Guard S) (C : Shape) (I : S → Prop) (s : UInt64) : Prop where
  put : ∀ op x, C.put op → I x → G.put s op x ∧ I (X.write x op.key s op.value)
  delete : ∀ del x, C.delete del → I x → G.delete s del x ∧
    ∀ found, X.targets del x = .ok found → I (X.removeAll s (found.map KeyValue.key) x)
  compare : ∀ cmp x, C.compare cmp → I x → G.compare cmp x
  range : ∀ op x, C.range op → I x → G.range op x
  gc : ∀ x, I x → G.gc s x ∧ I (X.setHorizon x s)

namespace Keeps

variable {S : Type} {X : Store S} {G : Guard S} {C : Shape} {I : S → Prop} {s : UInt64} (h : Keeps X G C I s)
include h

variable {x : S}

theorem put_step {op : PutOp} (hop : C.put op) (hx : I x) : G.put s op x ∧ ∀ r, X.put s op x = .ok r → I r.2 :=
  ⟨(h.put op x hop hx).1, fun r hr => by cases hr; exact (h.put op x hop hx).2⟩

theorem delete_step {del : DeleteRangeOp} (hdel : C.delete del) (hx : I x) :
    G.delete s del x ∧ ∀ r, X.delete s del x = .ok r → I r.2 := by
  refine ⟨(h.delete del x hdel hx).1, fun r hr => ?_⟩
  obtain ⟨found, hfound, rfl⟩ := map_eq_ok_iff.mp hr
  exact (h.delete del x hdel hx).2 found hfound

theorem txnOp_step {op : RequestOp} (hop : C.txnOp op) (hx : I x) :
    G.txnOp s op x ∧ ∀ r, X.txnOp s op x = .ok r → I r.2 := by
  cases op with
  | range op =>
    refine ⟨h.range op x hop hx, fun r hr => ?_⟩
    obtain ⟨_, _, rfl⟩ := map_eq_ok_iff.mp hr
    exact hx
  | put op =>
    obtain ⟨hguard, hkeep⟩ := h.put_step hop hx
    refine ⟨hguard, fun r hr => ?_⟩
    obtain ⟨r', hr', rfl⟩ := map_eq_ok_iff.mp hr
    exact hkeep r' hr'
  | deleteRange op =>
    obtain ⟨hguard, hkeep⟩ := h.delete_step hop hx
    refine ⟨hguard, fun r hr => ?_⟩
    obtain ⟨r', hr', rfl⟩ := map_eq_ok_iff.mp hr
    exact hkeep r' hr'
  | unset => exact ⟨trivial, fun r hr => by cases hr; exact hx⟩

theorem txn_step {t : Txn} (hcompare : ∀ cmp ∈ t.compare, C.compare cmp)
    (hops : ∀ ok : Bool, ∀ op ∈ if ok then t.success else t.failure, C.txnOp op) (hx : I x) :
    G.txn X s t x ∧ ∀ r, X.txn s t x = .ok r → I r.2 := by
  have hrun := Along.of_invariant
    (fun op hop y hy => h.txnOp_step (hops (X.compare x t.compare) op hop) hy) hx
  refine ⟨⟨fun cmp hcmp => h.compare cmp x (hcompare cmp hcmp) hx, hrun.1⟩, fun r hr => ?_⟩
  obtain ⟨rs, hrs, rfl⟩ := map_eq_ok_iff.mp hr
  exact hrun.2 rs hrs

theorem leaf_step {cmd : Command} (hs : cmd.type ≠ .sequence) (hcmd : C.leaf cmd) (hx : I x) :
    G.leaf X (s, cmd) x ∧ ∀ r, X.handleLeaf (s, cmd) x = .ok r → I r.2 := by
  obtain ⟨_, type, kv, _, batch, txn⟩ := cmd
  unfold Store.handleLeaf Store.handle
  cases type with
  | put =>
    refine ⟨fun kv hkv => (h.put_step (hcmd kv hkv) hx).1, fun r hr => ?_⟩
    cases kv with
    | none => cases hr
    | some kv =>
      obtain ⟨r', hr', rfl⟩ := map_eq_ok_iff.mp hr
      exact (h.put_step (hcmd kv rfl) hx).2 r' hr'
  | delete =>
    refine ⟨fun kv hkv => (h.delete_step (hcmd kv hkv) hx).1, fun r hr => ?_⟩
    cases kv with
    | none => cases hr
    | some kv =>
      obtain ⟨r', hr', rfl⟩ := map_eq_ok_iff.mp hr
      exact (h.delete_step (hcmd kv rfl) hx).2 r' hr'
  | putBatch =>
    have hrun := Along.of_invariant (f := X.put s) (fun op hop x hx => by
      obtain ⟨kv, hkv, rfl⟩ := List.mem_map.mp hop
      exact h.put_step (hcmd kv hkv) hx) hx
    refine ⟨hrun.1, fun r hr => ?_⟩
    obtain ⟨rs, hrs, rfl⟩ := map_eq_ok_iff.mp hr
    exact hrun.2 rs hrs
  | deleteBatch =>
    have hrun := Along.of_invariant (f := X.delete s) (fun del hdel x hx => by
      obtain ⟨kv, hkv, rfl⟩ := List.mem_map.mp hdel
      exact h.delete_step (hcmd kv hkv) hx) hx
    refine ⟨hrun.1, fun r hr => ?_⟩
    obtain ⟨rs, hrs, rfl⟩ := map_eq_ok_iff.mp hr
    exact hrun.2 rs hrs
  | txn =>
    refine ⟨fun t ht => (h.txn_step (hcmd t ht).1 (hcmd t ht).2 hx).1, fun r hr => ?_⟩
    cases txn with
    | none => cases hr
    | some t =>
      obtain ⟨r', hr', rfl⟩ := map_eq_ok_iff.mp hr
      exact (h.txn_step (hcmd t rfl).1 (hcmd t rfl).2 hx).2 r' hr'
  | dummy => exact ⟨trivial, fun r hr => by cases hr; exact hx⟩
  | gc => exact ⟨(h.gc x hx).1, fun r hr => by cases hr; exact (h.gc x hx).2⟩
  | unrecognized => exact ⟨trivial, fun r hr => by cases hr⟩
  | sequence => exact absurd rfl hs

end Keeps

end Armada.Fsm
