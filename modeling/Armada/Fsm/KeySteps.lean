import Armada.Fsm.Newest
import Armada.Fsm.Runs

/-! How the newest version of one key moves. Operations at `s` leave it alone or replace
it by a version at `s`, and they never replace a newer one; whether a delete has an
effect depends on what is live. -/

namespace Armada.Fsm

open Ordered Keys Pebble Proto Program

variable {s t : UInt64} {o : Option (UInt64 × Bytes)} {P : Bytes → Option (UInt64 × Bytes) → Prop}

theorem keyStep_of_lt (h : s < t) (x : Bytes) (op : KeyOp) : keyStep s (some (t, x)) op = some (t, x) := by
  cases op with
  | put value => exact bump_of_lt h x value
  | delete =>
    rw [keyStep, bump_of_lt h, ite_self]

theorem foldl_keyStep_of_lt (h : s < t) (x : Bytes) (ops : List KeyOp) :
    ops.foldl (keyStep s) (some (t, x)) = some (t, x) := by
  induction ops with
  | nil => rfl
  | cons op ops ih => rw [List.foldl_cons, keyStep_of_lt h, ih]

theorem keyStep_eq_or (s : UInt64) (o : Option (UInt64 × Bytes)) (op : KeyOp) :
    keyStep s o op = o ∨ ∃ x, keyStep s o op = some (s, x) := by
  rcases atMost_or_gt s o with h | ⟨v, rfl, hv⟩
  · cases op with
    | put value => exact Or.inr ⟨value, bump_of_atMost h value⟩
    | delete =>
      rw [keyStep]
      split
      · exact Or.inr ⟨_, bump_of_atMost h _⟩
      · exact Or.inl rfl
  · exact Or.inl (keyStep_of_lt hv v.2 op)

/-- Operations at `s` leave the newest version alone or leave one at `s`. -/
theorem foldl_keyStep_eq_or (s : UInt64) (o : Option (UInt64 × Bytes)) (ops : List KeyOp) :
    ops.foldl (keyStep s) o = o ∨ ∃ x, ops.foldl (keyStep s) o = some (s, x) := by
  induction ops generalizing o with
  | nil => exact Or.inl rfl
  | cons op ops ih =>
    rw [List.foldl_cons]
    rcases ih (keyStep s o op) with h | h
    · rw [h]
      exact keyStep_eq_or s o op
    · exact Or.inr h

theorem atMost_foldl_keyStep (hst : s ≤ t) (h : AtMost t o) (ops : List KeyOp) :
    AtMost t (ops.foldl (keyStep s) o) := by
  rcases foldl_keyStep_eq_or s o ops with heq | ⟨x, heq⟩
  · rw [heq]
    exact h
  · intro v hv
    obtain rfl := Option.some.inj (heq.symm.trans hv)
    exact hst

theorem live_put_iff {value : Bytes} (hvalue : value ≠ tombstoneValue) :
    live (keyStep s o (.put value)) = some value ↔ AtMost s o ∨ live o = some value := by
  have hlive : live (some (s, value)) = some value := by simp [live, isTombstone, hvalue]
  rcases atMost_or_gt s o with h | ⟨v, rfl, hv⟩
  · rw [keyStep, bump_of_atMost h, hlive]
    exact iff_of_true rfl (Or.inl h)
  · rw [keyStep_of_lt hv v.2]
    exact ⟨Or.inr, fun h => h.resolve_left fun h => absurd (h v rfl) (not_le.mpr hv)⟩

theorem live_delete_iff : live (keyStep s o .delete) = none ↔ AtMost s o ∨ live o = none := by
  rcases atMost_or_gt s o with h | ⟨v, rfl, hv⟩
  · rw [keyStep, bump_of_atMost h]
    refine iff_of_true ?_ (Or.inl h)
    split
    · rfl
    · next hlive => simpa using hlive
  · rw [keyStep_of_lt hv v.2]
    exact ⟨Or.inr, fun h => h.resolve_left fun h => absurd (h v rfl) (not_le.mpr hv)⟩

/-! ### Runs of elementary commands -/

/-- What the operations of every command keep of the newest version of a key, a list of
commands keeps. -/
theorem runAll_latest {as : List (UInt64 × Command)}
    (htype : ∀ a ∈ as, a.2.type ≠ .sequence) (hadmitted : ∀ a ∈ as, admitted.leaf a.2)
    (hstep : ∀ a ∈ as, ∀ k o (ops : List KeyOp), P k o → P k (ops.foldl (keyStep a.1) o)) {m : DB} (hm : WellFormed m)
    (hP : ∀ k, P k (latest m k)) {rs : List (UpdateResult × CommandResult) × DB}
    (hrun : runAll physical.handleLeaf as m = .ok rs) : WellFormed rs.2 ∧ ∀ k, P k (latest rs.2 k) := by
  induction as generalizing m rs with
  | nil =>
    cases hrun
    exact ⟨hm, hP⟩
  | cons a as ih =>
    rw [List.forall_mem_cons] at htype hadmitted hstep
    obtain ⟨r, hr, tail, htail, rfl⟩ := runAll_cons_iff.mp hrun
    have heffect := handle_effect hm htype.1 hadmitted.1 hr
    have hrest := ih htype.2 hadmitted.2 hstep.2 heffect.wellFormed (fun k => by
      rw [heffect.latest]
      exact hstep.1 k _ _ (hP k)) htail
    exact hrest

theorem runBatches_latest {batches : List (List Entry)}
    (hdec : ∀ e ∈ batches.flatten, e.cmd ≠ none) (hadmitted : ∀ a ∈ runLeaves batches, admitted.leaf a.2)
    (hstep : ∀ a ∈ runLeaves batches, ∀ k o (ops : List KeyOp), P k o → P k (ops.foldl (keyStep a.1) o)) {p : FSM}
    (hp : WellFormed p.db) (hP : ∀ k, P k (latest p.db k)) {r : List (List EntryResult) × FSM}
    (hrun : runAll updateStep batches p = .ok r) : WellFormed r.2.db ∧ ∀ k, P k (latest r.2.db k) := by
  have hagree := runBatches_agree hdec (.refl p.db)
  rw [hrun] at hagree
  obtain ⟨rs, hrs, hsame⟩ := hagree.ok_left
  obtain ⟨hwell, hlatest⟩ := runAll_latest (fun a ha => type_of_mem_flatMap_leaves ha) hadmitted hstep hp hP hrs
  refine ⟨hwell.of_sameTable hsame, fun k => ?_⟩
  rw [hwell.latest_sameTable hsame]
  exact hlatest k

theorem positive_keeps (hs : 1 ≤ s) :
    Keeps physical (Guard.always DB) admitted (fun m => WellFormed m ∧ Positive m) s where
  put op _ hop hm := ⟨trivial, hm.1.insert hop s op.value, hm.2.insert hs op.key op.value⟩
  delete _ _ hdel hm := ⟨trivial, fun found hfound =>
    ⟨removeAll_wellFormed hm.1 (fun k hk => (live_of_targets hm.1 hdel hfound k hk).1) s, hm.2.removeAll hs _⟩⟩
  compare _ _ _ _ := trivial
  range _ _ _ _ := trivial
  gc _ hm := ⟨trivial, hm.1.insert_system (by simp [systemKeys]) _, hm.2.insert_system (by simp [systemKeys]) _⟩

end Armada.Fsm
