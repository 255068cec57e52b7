import Armada.Fsm.Determinism
import Armada.Fsm.KeySteps

/-! What applying entries and sweeping keep of the newest version of every key. An
entry takes it through operations at its own sequence number, and a sweep may only drop
a tombstone below its horizon, so a property of newest versions that both keep holds
after every run. -/

namespace Armada.Fsm

open Ordered Keys Pebble Proto Program List

/-- An elementary command as the log of a table holds it: on admitted keys, and, unless
it is a GC command, which writes no version, at a sequence number that is not zero. -/
structure IsLogged (a : UInt64 × Command) : Prop where
  admitted : admitted.leaf a.2
  positive : a.2.type ≠ .gc → 1 ≤ a.1

instance (a : UInt64 × Command) : Decidable (IsLogged a) :=
  decidable_of_iff (admitted.leaf a.2 ∧ (a.2.type ≠ .gc → 1 ≤ a.1)) ⟨fun h => ⟨h.1, h.2⟩, fun h => ⟨h.1, h.2⟩⟩

/-- Sequence numbers do not go down from command to command, GC commands apart. -/
def Increasing (as : List (UInt64 × Command)) : Prop :=
  (as.filter fun a => a.2.type ≠ .gc).Pairwise fun a b => a.1 ≤ b.1

instance (as : List (UInt64 × Command)) : Decidable (Increasing as) :=
  inferInstanceAs (Decidable (List.Pairwise _ _))

theorem Increasing.append {as bs : List (UInt64 × Command)} : Increasing (as ++ bs) ↔ Increasing as ∧ Increasing bs ∧
    ∀ a ∈ as, a.2.type ≠ .gc → ∀ b ∈ bs, b.2.type ≠ .gc → a.1 ≤ b.1 := by
  unfold Increasing
  rw [filter_append, pairwise_append]
  simp

/-- The newest version of every key has the property. -/
structure Kept (P : Bytes → Option (UInt64 × Bytes) → Prop) (m : DB) : Prop where
  wellFormed : WellFormed m
  positive : Positive m
  latest : ∀ k, P k (latest m k)

namespace Kept

variable {P Q : Bytes → Option (UInt64 × Bytes) → Prop} {m : DB}

theorem empty (h : ∀ k, P k none) : Kept P ∅ where
  wellFormed := wellFormed_empty
  positive k s x hx := by
    rw [ver, OrdMap.getElem?_empty] at hx
    cases hx
  latest k := by
    rw [latest_empty]
    exact h k

theorem mono (h : Kept P m) (hPQ : ∀ k, P k (Fsm.latest m k) → Q k (Fsm.latest m k)) : Kept Q m :=
  ⟨h.wellFormed, h.positive, fun k => hPQ k (h.latest k)⟩

theorem of_sameTable (h : Kept P m) {m' : DB} (hsame : SameTable m' m) : Kept P m' where
  wellFormed := h.wellFormed.of_sameTable hsame
  positive := h.positive.of_sameTable hsame
  latest k := by
    rw [h.wellFormed.latest_sameTable hsame]
    exact h.latest k

theorem handleLeaf (h : Kept P m) {a : UInt64 × Command} (ha : IsLogged a) (htype : a.2.type ≠ .sequence)
    {r : (UpdateResult × CommandResult) × DB} (hr : physical.handleLeaf a m = .ok r)
    (hstep : ∀ k, P k (Fsm.latest m k) →
    Q k ((commandOps (branch m a.2) a.2 k).foldl (keyStep a.1) (Fsm.latest m k))) : Kept Q r.2 := by
  have heffect := handle_effect h.wellFormed htype ha.admitted hr
  refine ⟨heffect.wellFormed, ?_, fun k => ?_⟩
  · by_cases hgc : a.2.type = .gc
    · -- a GC command writes a system key only
      obtain ⟨s, table, type, kv, leaderIndex, batch, txn, rangeEnd, prevKvs, sequence, count⟩ := a
      cases hgc
      unfold Store.handleLeaf Store.handle at hr
      cases hr
      exact h.positive.insert_system (by simp [systemKeys]) _
    · exact (((positive_keeps (ha.positive hgc)).leaf_step htype ha.admitted ⟨h.wellFormed, h.positive⟩).2 r hr).2
  · rw [heffect.latest]
    exact hstep k (h.latest k)

theorem runGC (h : Kept P m) (hides : Bytes → Bool) {H : UInt64}
    (hsweep : ∀ k t, t < H → P k (some (t, tombstoneValue)) → P k none) {m' : DB}
    (hrun : runGC hides m m H = .ok m') : Kept P m' := by
  obtain ⟨db, hdb, htracks⟩ := (tracks_newestOf h.wellFormed h.positive).runGC hides H
  obtain rfl : m' = db := Except.ok.inj (hrun.symm.trans hdb)
  refine ⟨htracks.wellFormed, htracks.positive, fun k => ?_⟩
  have hk := h.latest k
  rcases htracks.swept k with heq | ⟨hnone, t, ht, heq⟩
  · rw [heq, getElem?_newestOf]
    exact hk
  · rw [getElem?_newestOf] at heq
    rw [heq] at hk
    rw [hnone]
    exact hsweep k t (ht.trans_le (max_le (UInt64.zero_le) le_rfl)) hk

/-- What the operations of every command keep, a list of commands keeps; a GC command
has none. -/
theorem runAll (h : Kept P m) {as : List (UInt64 × Command)} (has : ∀ a ∈ as, IsLogged a)
    (htype : ∀ a ∈ as, a.2.type ≠ .sequence)
    (hstep : ∀ a ∈ as, a.2.type ≠ .gc → ∀ k o (ops : List KeyOp), P k o → P k (ops.foldl (keyStep a.1) o))
    {rs : List (UpdateResult × CommandResult) × DB} (hrun : runAll physical.handleLeaf as m = .ok rs) :
    Kept P rs.2 := by
  refine runAll_keeps (fun a ha x hx r hr => ?_) h hrun
  refine hx.handleLeaf (has a ha) (htype a ha) hr fun k hk => ?_
  by_cases hgc : a.2.type = .gc
  · rw [commandOps, hgc]
    exact hk
  · exact hstep a ha hgc k _ _ hk

end Kept

/-! ### Events -/

namespace Event

/-- The elementary commands of an event. -/
def leaves (e : Event) : List (UInt64 × Command) := e.entries.flatMap Entry.leaves

theorem type_of_mem_leaves {e : Event} {a : UInt64 × Command} (ha : a ∈ e.leaves) : a.2.type ≠ .sequence :=
  type_of_mem_flatMap_leaves ha

variable {r : List EntryResult × FSM}

theorem update_leaves {batch : List Entry} {p : FSM} (h : (update batch).step p = .ok r) :
    ∃ rs, runAll physical.handleLeaf (update batch).leaves p.db = .ok rs ∧ SameTable r.2.db rs.2 := by
  obtain ⟨m, happ, hdb⟩ := update_ok (updateStep_ok h)
  obtain ⟨rs, hrs⟩ := physical.applyEntries_leaves batch p.db happ
  exact ⟨(rs, m), hrs, hdb ▸ sameTable_stampIndexes m batch⟩

variable {P : Bytes → Option (UInt64 × Bytes) → Prop} {e : Event} {p : FSM}

theorem step_kept (h : Kept P p.db) (hlogged : ∀ a ∈ e.leaves, IsLogged a)
    (hstep : ∀ a ∈ e.leaves, a.2.type ≠ .gc → ∀ k o (ops : List KeyOp), P k o → P k (ops.foldl (keyStep a.1) o))
    (hsweep : ∀ hides H, e = .sweep hides H → ∀ k t, t < H → P k (some (t, tombstoneValue)) → P k none)
    (hr : e.step p = .ok r) : Kept P r.2.db := by
  cases e with
  | update batch =>
    obtain ⟨rs, hrs, hsame⟩ := update_leaves hr
    exact (h.runAll hlogged (fun a ha => type_of_mem_leaves ha) hstep hrs).of_sameTable hsame
  | sweep hides H =>
    obtain ⟨db, hdb, rfl⟩ := map_eq_ok_iff.mp hr
    exact h.runGC hides (hsweep hides H rfl) hdb

end Event

variable {r : List (List EntryResult) × FSM} {events : List Event}

theorem runEvents_kept {P : Bytes → Option (UInt64 × Bytes) → Prop} {p : FSM}
    (h : Kept P p.db) (hlogged : ∀ a ∈ events.flatMap Event.leaves, IsLogged a)
    (hstep : ∀ a ∈ events.flatMap Event.leaves, a.2.type ≠ .gc →
    ∀ k o (ops : List KeyOp), P k o → P k (ops.foldl (keyStep a.1) o))
    (hsweep : ∀ hides H, .sweep hides H ∈ events → ∀ k t, t < H → P k (some (t, tombstoneValue)) → P k none)
    (hr : runAll Event.step events p = .ok r) : Kept P r.2.db := by
  refine runAll_keeps (I := fun q : FSM => Kept P q.db) (fun e he q hq r hr => ?_) h hr
  exact e.step_kept hq (fun a ha => hlogged a (mem_flatMap.mpr ⟨e, he, ha⟩))
    (fun a ha => hstep a (mem_flatMap.mpr ⟨e, he, ha⟩)) (fun hides H heq => hsweep hides H (heq ▸ he)) hr

theorem runGC_leaderIndex {m m' : DB} (hm : WellFormed m) (hpos : Positive m) {hides : Bytes → Bool} {H : UInt64}
    (hrun : runGC hides m m H = .ok m') : readLocalIndex m' sysLeaderIndex = readLocalIndex m sysLeaderIndex := by
  obtain ⟨db, hdb, hwithout⟩ := runGC_removes hm.nullFree hides
    (fun v hv => hpos _ _ _ ((mem_versions hm.nullFree v).mp hv)) hm.nullFree H
  obtain rfl : m' = db := Except.ok.inj (hrun.symm.trans hdb)
  rw [readLocalIndex, readLocalIndex, hwithout.system _ (by simp [systemKeys])]

theorem runEvents_leaderIndex {p : FSM} (h : Kept (fun _ _ => True) p.db)
    (hlogged : ∀ a ∈ events.flatMap Event.leaves, IsLogged a)
    (hindex : ∀ e ∈ events.flatMap Event.entries, e.leaderIndex ≠ none) (hr : runAll Event.step events p = .ok r) :
    readLocalIndex r.2.db sysLeaderIndex =
    (lastLeaderIndex (events.flatMap Event.entries)).getD (readLocalIndex p.db sysLeaderIndex) := by
  induction events generalizing p r with
  | nil =>
    cases hr
    rfl
  | cons e events ih =>
    rw [flatMap_cons, forall_mem_append] at hlogged hindex
    obtain ⟨r1, hr1, tail, htail, rfl⟩ := runAll_cons_iff.mp hr
    have hkept := e.step_kept h hlogged.1 (fun _ _ _ _ _ _ _ => trivial) (fun _ _ _ _ _ _ _ => trivial) hr1
    have hrest := ih hkept hlogged.2 hindex.2 htail
    rw [flatMap_cons]
    cases e with
    | update batch =>
      rw [hrest, updateStep_leaderIndex hr1]
      rcases eq_nil_or_concat' (events.flatMap Event.entries) with hnil | ⟨front, e, hlast⟩
      · rw [hnil, append_nil]
        rfl
      · obtain ⟨leaderIndex, he⟩ := Option.ne_none_iff_exists'.mp (hindex.2 e (by simp [hlast]))
        rw [lastLeaderIndex_append (by simp [hlast]), hlast, lastLeaderIndex, List.getLast?_concat,
          Option.bind_some, he, Option.getD_some, Option.getD_some]
    | sweep hides H =>
      obtain ⟨db, hdb, rfl⟩ := map_eq_ok_iff.mp hr1
      rw [hrest, runGC_leaderIndex h.wellFormed h.positive hdb]
      rfl

end Armada.Fsm
