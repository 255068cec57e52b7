import Armada.Fsm.Newest
import Armada.Fsm.Horizon

/-! Replicas that sweep on their own. Replicas that apply the same entries return the same
results and show the same map, however they sweep in between, as long as no operation looks at
what a sweep removes: a range compare that is not settled does. -/

namespace Armada.Fsm

open Ordered Keys Pebble Proto Program

/-- What a replica does next: it applies committed entries, or it sweeps. -/
inductive Event where
  | update (batch : List Entry)
  | sweep (hides : Bytes → Bool) (horizon : UInt64)

namespace Event

def step : Event → FSM → Except FsmError (List EntryResult × FSM)
  | .update batch, p => updateStep batch p
  | .sweep hides horizon, p => do
    let db ← runGC hides p.db p.db horizon
    return ([], { p with db := db })

/-- The committed entries an event applies. -/
def entries : Event → List Entry
  | .update batch => batch
  | .sweep _ _ => []

/-- The highest horizon swept, after it was `H`. -/
def sweptTo (H : UInt64) : Event → UInt64
  | .update _ => H
  | .sweep _ horizon => max H horizon

/-- No operation of an update is disturbed by sweeps up to `H`; a sweep never is, not
even above the persisted horizon. -/
def Undisturbed (H : UInt64) : Event → FSM → Prop
  | .update batch, p => (settledAbove H).entries physical batch p.db
  | .sweep _ _, _ => True

end Event

/-- No event of a run is disturbed by the sweeps before it. -/
def Orderly (H : UInt64) : List Event → FSM → Prop
  | [], _ => True
  | e :: events, p => e.Undisturbed H p ∧ ∀ r, e.step p = .ok r → Orderly (e.sweptTo H) events r.2

variable {n : Newest} {H : UInt64} {p : FSM}

theorem Tracks.stampIndexes {m : DB} (h : Tracks H m n) (updates : List Entry) :
    Tracks H (stampIndexes m updates) n where
  wellFormed := h.wellFormed.stampIndexes updates
  positive := h.positive.of_sameTable (sameTable_stampIndexes m updates)
  swept k := by
    rw [h.wellFormed.latest_stampIndexes]
    exact h.swept k

theorem Event.step_agree (h : Tracks H p.db n) (e : Event) (he : e.Undisturbed H p) :
    Agree (fun r r' => r.1 = r'.1 ∧ Tracks (e.sweptTo H) r.2.db r'.2) (e.step p) (newest.applyEntries e.entries n) := by
  cases e with
  | update batch =>
    have hagree := (physical_simulates_newest H).applyEntries_agree batch h he
    simp only [step, updateStep, update_eq, bind_assoc, pure_bind]
    rw [← bind_pure (newest.applyEntries _ n)]
    refine hagree.bind fun r r' _ _ hr => ⟨?_, hr.2.stampIndexes batch⟩
    have heq : EntryResultRel Eq = Eq := by
      funext a b
      exact propext entryResultRel_eq
    rw [heq, List.forall₂_eq_eq_eq] at hr
    exact hr.1
  | sweep hides horizon =>
    obtain ⟨db, hdb, htracks⟩ := h.runGC hides horizon
    rw [step, hdb]
    exact ⟨rfl, htracks⟩

theorem runEvents_agree {events : List Event} (h : Tracks H p.db n) (horderly : Orderly H events p) :
    Agree (fun r r' => r.1.flatten = r'.1 ∧ ∃ H', Tracks H' r.2.db r'.2) (runAll Event.step events p)
    (newest.applyEntries (events.flatMap Event.entries) n) := by
  induction events generalizing H p n with
  | nil => exact ⟨rfl, H, h⟩
  | cons e events ih =>
    rw [List.flatMap_cons, Store.applyEntries, runAll_append]
    refine (e.step_agree h horderly.1).bind fun r r' hr _ hrel => ?_
    refine (ih hrel.2 (horderly.2 r hr)).bind fun rs rs' _ _ hrels => ⟨?_, hrels.2⟩
    rw [List.flatten_cons, hrel.1, hrels.1]

theorem tracks_newestOf {m : DB} (hm : WellFormed m) (hpos : Positive m) : Tracks 0 m (newestOf m) :=
  ⟨hm, hpos, fun k => Or.inl (getElem?_newestOf m k).symm⟩

/-! ### Commands no sweep disturbs -/

/-- Compares of single keys and range reads without a limit: nothing that depends on
whether old versions are still there. -/
def steady : Shape where
  put op := Admitted op.key
  delete del := IsTarget del.key del.rangeEnd
  compare cmp := Admitted cmp.key ∧ cmp.rangeEnd = none
  range op := IsTarget op.key op.rangeEnd ∧ op.limit ≤ 0

instance (cmd : Command) : Decidable (steady.leaf cmd) :=
  have : DecidablePred steady.put := fun op => inferInstanceAs (Decidable (Admitted op.key))
  have : DecidablePred steady.delete := fun del => inferInstanceAs (Decidable (IsTarget del.key del.rangeEnd))
  have : DecidablePred steady.compare := fun cmp =>
    inferInstanceAs (Decidable (Admitted cmp.key ∧ cmp.rangeEnd = none))
  have : DecidablePred steady.range := fun op =>
    inferInstanceAs (Decidable (IsTarget op.key op.rangeEnd ∧ op.limit ≤ 0))
  inferInstance

theorem steady_keeps {s : UInt64} (hs : 1 ≤ s) (hH : H ≤ s) :
    Keeps physical (settledAbove H) steady (fun _ => True) s where
  put _ _ hop _ := ⟨⟨hop, hs, hH⟩, trivial⟩
  delete _ _ hdel _ := ⟨⟨hdel, hs⟩, fun _ _ => trivial⟩
  compare cmp _ hcmp _ := by
    change IsTarget cmp.key cmp.rangeEnd ∧ _
    rw [hcmp.2]
    exact ⟨hcmp.1, fun high hhigh => nomatch hhigh⟩
  range _ _ hop _ := ⟨hop.1, fun _ hpos => absurd hop.2 (not_le.mpr hpos)⟩
  gc _ _ := ⟨trivial, trivial⟩

theorem undisturbed_of_steady {batch : List Entry}
    (h : ∀ a ∈ batch.flatMap Entry.leaves, steady.leaf a.2 ∧ 1 ≤ a.1 ∧ H ≤ a.1) (p : FSM) :
    (Event.update batch).Undisturbed H p := by
  apply Along.of_forall
  intro a ha x
  obtain ⟨hleaf, hs, hH⟩ := h a ha
  exact ((steady_keeps hs hH).leaf_step (type_of_mem_flatMap_leaves ha) hleaf trivial).1

/-! ### Agreement and divergence -/

/-- Replicas that apply the same entries from the same state return the same results and
show the same map, however each of them sweeps, when no event is disturbed. -/
theorem replicas_agree (p : FSM) (hp : WellFormed p.db) (hpos : Positive p.db) (events events' : List Event)
    (hsame : events.flatMap Event.entries = events'.flatMap Event.entries)
    (horderly : Orderly 0 events p) (horderly' : Orderly 0 events' p) :
    ∀ r, runAll Event.step events p = .ok r → ∃ r', runAll Event.step events' p = .ok r' ∧
      r.1.flatten = r'.1.flatten ∧ ∀ k, live (latest r.2.db k) = live (latest r'.2.db k) := by
  intro r hr
  have hagree := runEvents_agree (tracks_newestOf hp hpos) horderly
  have hagree' := runEvents_agree (tracks_newestOf hp hpos) horderly'
  rw [hr] at hagree
  obtain ⟨t, ht, hresults, H, htracks⟩ := hagree.ok_left
  rw [← hsame, ht] at hagree'
  obtain ⟨r', hr', hresults', H', htracks'⟩ := hagree'.ok_right
  refine ⟨r', hr', hresults.trans hresults'.symm, fun k => ?_⟩
  rw [(htracks.swept k).live_eq, (htracks'.swept k).live_eq]

/-- A put, a delete and a command that moves the horizon, then a transaction. -/
def entriesBefore (txn : Txn) : List Entry :=
  [⟨1, some { Command.ofType .put with kv := some ⟨[0x61], [0x31]⟩ }⟩,
    ⟨2, some { Command.ofType .delete with kv := some ⟨[0x61], []⟩ }⟩,
    ⟨3, some (Command.ofType .gc)⟩,
    ⟨4, some { Command.ofType .txn with txn := some txn }⟩]

/-- The transaction compares one key before it writes again. -/
def steadyEntries : List Entry :=
  entriesBefore ⟨[⟨.equal, .value, [0x61], none, none⟩], [], [.put ⟨[0x62], [0x31], true⟩]⟩

theorem replicas_agree_steadyEntries :
    ∃ r', runAll Event.step [.update (steadyEntries.take 3), .sweep (fun _ => false) 3,
        .update (steadyEntries.drop 3)] FSM.fresh = .ok r' ∧
      ∀ r, runAll Event.step [.update steadyEntries] FSM.fresh = .ok r →
        r.1.flatten = r'.1.flatten ∧ ∀ k, live (latest r.2.db k) = live (latest r'.2.db k) := by
  have hpos : Positive FSM.fresh.db := fun k s x hx => by
    rw [FSM.fresh, ver, OrdMap.getElem?_empty] at hx
    cases hx
  obtain ⟨r, hr⟩ : ∃ r, runAll Event.step [.update steadyEntries] FSM.fresh = .ok r := ⟨_, rfl⟩
  obtain ⟨r', hr', hsame⟩ := replicas_agree FSM.fresh wellFormed_empty hpos [.update steadyEntries]
    [.update (steadyEntries.take 3), .sweep (fun _ => false) 3, .update (steadyEntries.drop 3)] rfl
    ⟨undisturbed_of_steady (by decide) _, fun _ _ => trivial⟩
    ⟨undisturbed_of_steady (by decide) _, fun _ _ => ⟨trivial, fun _ _ =>
      ⟨undisturbed_of_steady (by decide) _, fun _ _ => trivial⟩⟩⟩ r hr
  refine ⟨r', hr', fun t ht => ?_⟩
  rw [hr] at ht
  cases ht
  exact hsame

/-- It compares a range in which everything was deleted. -/
def comparedEntries : List Entry :=
  entriesBefore ⟨[⟨.equal, .value, [0x61], none, some [0x62]⟩],
    [.put ⟨[0x62], [0x31], false⟩], [.put ⟨[0x63], [0x31], false⟩]⟩

set_option maxRecDepth 20000 in
/-- A replica that still has the tombstone takes the success branch, one that swept it
at the persisted horizon takes the other. -/
theorem replicas_diverge : ∃ r1 r2 r3 r4, (Event.update comparedEntries).step FSM.fresh = .ok r1 ∧
      (Event.update (comparedEntries.take 3)).step FSM.fresh = .ok r2 ∧
      persistedHorizon r2.2.db = 3 ∧ (Event.sweep (fun _ => false) 3).step r2.2 = .ok r3 ∧
      (Event.update (comparedEntries.drop 3)).step r3.2 = .ok r4 ∧
      (r1.1.map EntryResult.value).getLast? = some .success ∧ (r4.1.map EntryResult.value).getLast? = some .failure ∧
      live (latest r1.2.db [0x62]) = some [0x31] ∧ live (latest r4.2.db [0x62]) = none :=
  ⟨_, _, _, _, rfl, rfl, by decide, rfl, rfl, by decide, by decide, by decide, by decide⟩

end Armada.Fsm
