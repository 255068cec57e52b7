import Armada.Fsm.EventSteps
import Armada.Fsm.PlainMap

/-! Applying commands again. While sequence numbers do not go down, the last operation on a key
decides what it shows, whatever was swept. The last commands of a run can therefore be applied
again: they end with the same operation on every key, as long as every transaction takes the
branch it took. -/

namespace Armada.Fsm

open Ordered Keys Pebble Proto Program List Option

/-! ### What an operation shows -/

/-- What a key shows after the operation. -/
def KeyOp.shown : KeyOp → Option Bytes
  | .put value => if isTombstone value then none else some value
  | .delete => none

variable {o : Option (UInt64 × Bytes)} {s : UInt64} {a : UInt64 × Command}
    {done later as : List (UInt64 × Command)} {r : List (List EntryResult) × FSM} {p : FSM}
    {events : List Event} {view : Bytes → Option Bytes} {S : Type}

theorem live_keyStep (h : AtMost s o) (op : KeyOp) : live (keyStep s o op) = op.shown := by
  cases op with
  | put value => rw [keyStep, bump_of_atMost h]; rfl
  | delete => exact live_delete_iff.mpr (Or.inl h)

theorem live_foldl_keyStep (h : AtMost s o) {ops : List KeyOp}
    {op : KeyOp} (hop : ops.getLast? = some op) : live (ops.foldl (keyStep s) o) = op.shown := by
  obtain ⟨front, rfl⟩ := List.getLast?_eq_some_iff.mp hop
  rw [foldl_concat]
  exact live_keyStep (atMost_foldl_keyStep le_rfl h front) op

/-! ### The last operation on a key -/

/-- The transaction of the command, if it is one, takes the branch on record. -/
def Took (taken : UInt64 → Bool) (a : UInt64 × Command) (m : DB) : Prop :=
  a.2.type = .txn → branch m a.2 = taken a.1

instance (taken : UInt64 → Bool) (a : UInt64 × Command) (m : DB) : Decidable (Took taken a m) :=
  inferInstanceAs (Decidable (_ → _))

variable {m : DB} {taken : UInt64 → Bool}

theorem Took.commandOps_eq (h : Took taken a m) (k : Bytes) :
    commandOps (branch m a.2) a.2 k = commandOps (taken a.1) a.2 k := by
  by_cases htxn : a.2.type = .txn
  · rw [h htxn]
  · unfold commandOps
    split <;> first | rfl | contradiction

/-- The last operation on a key, with its sequence number, when transactions take the
branches on record. -/
def lastOp (taken : UInt64 → Bool) (k : Bytes) : List (UInt64 × Command) → Option (UInt64 × KeyOp)
  | [] => none
  | a :: as => (lastOp taken k as).or ((commandOps (taken a.1) a.2 k).getLast?.map fun op => (a.1, op))

section
variable {taken : UInt64 → Bool} {k : Bytes}

theorem lastOp_append (as bs : List (UInt64 × Command)) :
    lastOp taken k (as ++ bs) = (lastOp taken k bs).or (lastOp taken k as) := by
  induction as with
  | nil => rw [nil_append, lastOp, Option.or_none]
  | cons a as ih => rw [cons_append, lastOp, ih, lastOp, Option.or_assoc]

theorem commandOps_gc {cmd : Command} (h : cmd.type = .gc) (ok : Bool) (k : Bytes) : commandOps ok cmd k = [] := by
  rw [commandOps, h]

theorem mem_of_lastOp {as : List (UInt64 × Command)} {s : UInt64} {op : KeyOp}
    (h : lastOp taken k as = some (s, op)) : ∃ a ∈ as, a.1 = s ∧ a.2.type ≠ .gc := by
  induction as with
  | nil => cases h
  | cons a as ih =>
    rw [lastOp, or_eq_some_iff] at h
    rcases h with h | ⟨-, h⟩
    · obtain ⟨b, hb, hs⟩ := ih h
      exact ⟨b, mem_cons_of_mem a hb, hs⟩
    · obtain ⟨op', hop', heq⟩ := map_eq_some_iff.mp h
      refine ⟨a, mem_cons_self, (Prod.mk.inj heq).1, fun hgc => ?_⟩
      rw [commandOps_gc hgc] at hop'
      cases hop'

end

/-! ### A run in order -/

/-- The last operation on the key decided what it shows, and nothing is newer. -/
def Decided (taken : UInt64 → Bool) (done : List (UInt64 × Command)) (k : Bytes) (o : Option (UInt64 × Bytes)) : Prop :=
  ∀ s op, lastOp taken k done = some (s, op) → AtMost s o ∧ live o = op.shown

/-- Nothing is newer than the commands still to come. -/
def Ahead (later : List (UInt64 × Command)) (o : Option (UInt64 × Bytes)) : Prop :=
  ∀ a ∈ later, a.2.type ≠ .gc → AtMost a.1 o

variable {k : Bytes}

theorem Decided.concat (h : Decided taken done k o) (ha : a.2.type ≠ .gc → AtMost a.1 o) :
    Decided taken (done ++ [a]) k ((commandOps (taken a.1) a.2 k).foldl (keyStep a.1) o) := by
  intro s op hlast
  rw [lastOp_append, lastOp, lastOp, none_or, or_eq_some_iff] at hlast
  rcases hlast with hlast | ⟨hnone, hlast⟩
  · obtain ⟨op', hop', heq⟩ := map_eq_some_iff.mp hlast
    obtain ⟨rfl, rfl⟩ := Prod.mk.inj heq
    have hatMost : AtMost a.1 o := ha fun hgc => by
      rw [commandOps_gc hgc] at hop'
      cases hop'
    exact ⟨atMost_foldl_keyStep le_rfl hatMost _, live_foldl_keyStep hatMost hop'⟩
  · rw [map_eq_none_iff, List.getLast?_eq_none_iff] at hnone
    rw [hnone]
    exact h s op hlast

theorem Ahead.foldl_keyStep (hincreasing : Increasing (a :: later)) (h : Ahead (a :: later) o) (taken : Bool)
    (k : Bytes) : Ahead later ((commandOps taken a.2 k).foldl (keyStep a.1) o) := by
  intro b hb hgc
  by_cases hagc : a.2.type = .gc
  · rw [commandOps_gc hagc]
    exact h b (mem_cons_of_mem a hb) hgc
  · obtain ⟨-, -, hle⟩ := Increasing.append.mp (show Increasing ([a] ++ later) from hincreasing)
    exact atMost_foldl_keyStep (hle a (mem_singleton_self a) hagc b hb hgc) (h b (mem_cons_of_mem a hb) hgc) _

variable {rs : List (UpdateResult × CommandResult) × DB}

theorem runAll_decided
    (h : Kept (fun k o => Decided taken done k o ∧ Ahead (as ++ later) o) m) (hlogged : ∀ a ∈ as, IsLogged a)
    (htype : ∀ a ∈ as, a.2.type ≠ .sequence) (hincreasing : Increasing (as ++ later))
    (htook : Along (Took taken) physical.handleLeaf as m) (hrs : runAll physical.handleLeaf as m = .ok rs) :
    Kept (fun k o => Decided taken (done ++ as) k o ∧ Ahead later o) rs.2 := by
  induction as generalizing done m rs with
  | nil =>
    cases hrs
    rw [append_nil]
    exact h
  | cons a as ih =>
    rw [forall_mem_cons] at hlogged htype
    obtain ⟨r, hr, tail, htail, rfl⟩ := runAll_cons_iff.mp hrs
    have hstep : Kept (fun k o => Decided taken (done ++ [a]) k o ∧ Ahead (as ++ later) o) r.2 := by
      refine h.handleLeaf hlogged.1 htype.1 hr fun k hk => ?_
      rw [htook.1.commandOps_eq]
      exact ⟨hk.1.concat (hk.2 a mem_cons_self), hk.2.foldl_keyStep hincreasing _ k⟩
    have hrest := ih hstep hlogged.2 htype.2
      (Increasing.append.mp (show Increasing ([a] ++ (as ++ later)) from hincreasing)).2.1 (htook.2 r hr) htail
    rw [append_assoc] at hrest
    exact hrest

/-- Every transaction of the run takes the branch on record. -/
def Followed (taken : UInt64 → Bool) (events : List Event) (p : FSM) : Prop :=
  Along (fun e p => Along (Took taken) physical.handleLeaf e.leaves p.db) Event.step events p

instance (taken : UInt64 → Bool) (events : List Event) (p : FSM) : Decidable (Followed taken events p) :=
  inferInstanceAs (Decidable (Along _ _ _ _))

/-- The last operation of a run in order decides what every key shows, wherever it
sweeps. -/
theorem runEvents_decided (h : Kept (fun k o => Decided taken done k o ∧ Ahead (events.flatMap Event.leaves) o) p.db)
    (hlogged : ∀ a ∈ events.flatMap Event.leaves, IsLogged a)
    (hincreasing : Increasing (events.flatMap Event.leaves)) (hfollowed : Followed taken events p)
    (hr : runAll Event.step events p = .ok r) : Kept (Decided taken (done ++ events.flatMap Event.leaves)) r.2.db := by
  induction events generalizing done p r with
  | nil =>
    cases hr
    rw [flatMap_nil, append_nil]
    exact h.mono fun k hk => hk.1
  | cons e events ih =>
    rw [flatMap_cons] at h hlogged hincreasing ⊢
    rw [forall_mem_append] at hlogged
    obtain ⟨r1, hr1, tail, htail, rfl⟩ := runAll_cons_iff.mp hr
    have hstep : Kept (fun k o => Decided taken (done ++ e.leaves) k o ∧ Ahead (events.flatMap Event.leaves) o)
        r1.2.db := by
      cases e with
      | update batch =>
        obtain ⟨rs, hrs, hsame⟩ := Event.update_leaves hr1
        exact (runAll_decided h hlogged.1 (fun a ha => Event.type_of_mem_leaves ha) hincreasing hfollowed.1
          hrs).of_sameTable hsame
      | sweep hides H =>
        rw [show (Event.sweep hides H).leaves = [] from rfl, append_nil]
        refine (Event.step_kept (h.mono fun k hk => hk) (by simp [Event.leaves, Event.entries])
          (by simp [Event.leaves, Event.entries]) (fun _ _ _ k t _ hk => ?_) hr1)
        exact ⟨fun s op hop => ⟨atMost_none s, (hk.1 s op hop).2⟩, fun a _ _ => atMost_none a.1⟩
    have hrest := ih hstep hlogged.2 (Increasing.append.mp hincreasing).2.1 (hfollowed.2 r1 hr1) htail
    rw [append_assoc] at hrest
    exact hrest

/-! ### The same commands again -/

/-- The key shows `view` once the commands have run: their last operation on it does, or
they leave it alone and it does already. -/
def Settles (taken : UInt64 → Bool) (view : Bytes → Option Bytes) (as : List (UInt64 × Command)) (k : Bytes)
    (o : Option (UInt64 × Bytes)) : Prop :=
  match lastOp taken k as with
  | none => live o = view k
  | some (s, op) => AtMost s o ∧ op.shown = view k

theorem Settles.foldl_keyStep (hincreasing : Increasing (a :: as)) (h : Settles taken view (a :: as) k o) :
    Settles taken view as k ((commandOps (taken a.1) a.2 k).foldl (keyStep a.1) o) := by
  unfold Settles at h ⊢
  rw [lastOp] at h
  cases hlast : lastOp taken k as with
  | some v =>
    obtain ⟨s, op⟩ := v
    rw [hlast] at h
    refine ⟨?_, h.2⟩
    by_cases hgc : a.2.type = .gc
    · rw [commandOps_gc hgc]
      exact h.1
    · obtain ⟨b, hb, rfl, hbgc⟩ := mem_of_lastOp hlast
      obtain ⟨-, -, hle⟩ := Increasing.append.mp (show Increasing ([a] ++ as) from hincreasing)
      exact atMost_foldl_keyStep (hle a (mem_singleton_self a) hgc b hb hbgc) h.1 _
  | none =>
    rw [hlast, none_or] at h
    cases hops : (commandOps (taken a.1) a.2 k).getLast? with
    | none =>
      rw [hops] at h
      rw [List.getLast?_eq_none_iff.mp hops]
      exact h
    | some op =>
      rw [hops] at h
      exact (live_foldl_keyStep h.1 hops).trans h.2

theorem physical_succeeds (s : UInt64) : Succeeds physical admitted WellFormed s where
  put op m hop hm := hm.insert hop s op.value
  delete del m hdel hm := by
    obtain ⟨found, hfound⟩ := (targets_eq hm hdel).imp fun _ h => h.1
    exact ⟨found, hfound, removeAll_wellFormed hm (fun k hk => (live_of_targets hm hdel hfound k hk).1) s⟩
  range op m hop hm := by
    cases hr : op.rangeEnd with
    | none => exact ⟨_, by rw [Store.lookup, hr]; rfl⟩
    | some high =>
      have htarget : IsTarget op.key op.rangeEnd := hop
      rw [hr] at htarget
      exact ⟨_, by rw [Store.lookup, hr, isSome_some, if_pos rfl,
        page_eq hm op htarget.1 (by rw [hr]; exact htarget.2)]⟩
  gc m hm := hm.insert_system (by simp [systemKeys]) _

variable {x : S} {X : Store S}

theorem complete_of_ok {r : (UpdateResult × CommandResult) × S} (h : X.handleLeaf a x = .ok r) :
    complete a.2 = true := by
  obtain ⟨s, _, type, kv, _, _, txn⟩ := a
  unfold Store.handleLeaf Store.handle at h
  cases type with
  | put => cases kv with
    | none => cases h
    | some kv => rfl
  | delete => cases kv with
    | none => cases h
    | some kv => rfl
  | txn => cases txn with
    | none => cases h
    | some t => rfl
  | unrecognized => cases h
  | putBatch | deleteBatch | dummy | sequence | gc => rfl

theorem complete_of_runAll {rs : List (UpdateResult × CommandResult) × S} (h : runAll X.handleLeaf as x = .ok rs) :
    ∀ a ∈ as, complete a.2 = true := by
  induction as generalizing x rs with
  | nil => simp
  | cons a as ih =>
    simp only [runAll, bind_eq_ok_iff] at h
    obtain ⟨r, hr, tail, htail, -⟩ := h
    exact forall_mem_cons.mpr ⟨complete_of_ok hr, ih htail⟩

theorem runEvents_complete
    (hr : runAll Event.step events p = .ok r) : ∀ a ∈ events.flatMap Event.leaves, complete a.2 = true := by
  induction events generalizing p r with
  | nil => simp
  | cons e events ih =>
    simp only [runAll, bind_eq_ok_iff] at hr
    obtain ⟨r1, hr1, tail, htail, -⟩ := hr
    rw [flatMap_cons, forall_mem_append]
    refine ⟨?_, ih htail⟩
    cases e with
    | update batch =>
      obtain ⟨rs, hrs, -⟩ := Event.update_leaves hr1
      exact complete_of_runAll hrs
    | sweep hides H => simp [Event.leaves, Event.entries]

theorem runAll_complete (hlogged : ∀ a ∈ as, IsLogged a)
    (htype : ∀ a ∈ as, a.2.type ≠ .sequence) (hcomplete : ∀ a ∈ as, complete a.2 = true)
    (hm : WellFormed m) : ∃ rs, runAll physical.handleLeaf as m = .ok rs := by
  obtain ⟨rs, hrs, -⟩ := runAll_ok (f := physical.handleLeaf) (I := WellFormed) (fun a ha x hx =>
    (physical_succeeds a.1).leaf_ok (htype a ha) (hcomplete a ha) (hlogged a ha).admitted hx) hm
  exact ⟨rs, hrs⟩

theorem runAll_settles (h : Kept (Settles taken view as) m) (hlogged : ∀ a ∈ as, IsLogged a)
    (htype : ∀ a ∈ as, a.2.type ≠ .sequence) (hincreasing : Increasing as)
    (htook : Along (Took taken) physical.handleLeaf as m)
    (hrs : runAll physical.handleLeaf as m = .ok rs) : Kept (fun k o => live o = view k) rs.2 := by
  induction as generalizing m rs with
  | nil =>
    cases hrs
    exact h
  | cons a as ih =>
    rw [forall_mem_cons] at hlogged htype
    obtain ⟨r, hr, tail, htail, rfl⟩ := runAll_cons_iff.mp hrs
    have hstep : Kept (Settles taken view as) r.2 := by
      refine h.handleLeaf hlogged.1 htype.1 hr fun k hk => ?_
      rw [htook.1.commandOps_eq]
      exact hk.foldl_keyStep hincreasing
    have hrest := ih hstep hlogged.2 htype.2
      (Increasing.append.mp (show Increasing ([a] ++ as) from hincreasing)).2.1 (htook.2 r hr) htail
    exact hrest

/-- The last commands of a run in order, applied again with the branches they took, leave
what every key shows. -/
theorem repeat_settles {before : List (UInt64 × Command)}
    (h : Kept (Decided taken (before ++ as)) m) (hlogged : ∀ a ∈ as, IsLogged a)
    (htype : ∀ a ∈ as, a.2.type ≠ .sequence) (hincreasing : Increasing as)
    (htook : Along (Took taken) physical.handleLeaf as m)
    (hrs : runAll physical.handleLeaf as m = .ok rs) : Kept (fun k o => live o = live (latest m k)) rs.2 := by
  refine runAll_settles (h.mono fun k hk => ?_) hlogged htype hincreasing htook hrs
  unfold Settles
  cases hlast : lastOp taken k as with
  | none => rfl
  | some v =>
    obtain ⟨hatMost, hlive⟩ := hk v.1 v.2 (by rw [lastOp_append, hlast, some_or])
    exact ⟨hatMost, hlive.symm⟩

end Armada.Fsm
