import Armada.Fsm.Batching

/-! Runs of the state machine: a list of batches, each one call of `Update`. Up to the
stamped indexes a run is the list of its elementary commands, whatever the batches. -/

namespace Armada.Fsm

open Ordered Keys Pebble Proto Program List

/-- One call of `Update`. -/
def updateStep (batch : List Entry) (p : FSM) : Except FsmError (List EntryResult × FSM) := do
  let r ← p.update batch
  return (r.2, r.1)

variable {p : FSM} {batch entries : List Entry} {S : Type} {batches : List (List Entry)}
    {r : List (List EntryResult) × FSM}

theorem updateStep_ok {r : List EntryResult × FSM} (h : updateStep batch p = .ok r) :
    p.update batch = .ok (r.2, r.1) := by
  obtain ⟨r', hr', rfl⟩ := map_eq_ok_iff.mp h
  exact hr'

/-- The elementary commands of a run. -/
def runLeaves (batches : List (List Entry)) : List (UInt64 × Command) :=
  batches.flatten.flatMap Entry.leaves

/-- Entries that hold sequences of commands with leader indexes of their own hold the
elementary commands of those, whatever index they are applied at. -/
theorem sequences_leaves {proposed : List Command}
    (hcmd : entries.map Entry.cmd = proposed.map some) (hseq : ∀ p ∈ proposed, p.type = .sequence)
    (hown : ∀ c ∈ proposed.flatMap Command.sequence, c.leaderIndex ≠ none) : entries.flatMap Entry.leaves =
    (proposed.flatMap Command.sequence).flatMap fun c => leaves (c.leaderIndex.getD 0) c := by
  induction proposed generalizing entries with
  | nil =>
    rw [map_nil, map_eq_nil_iff] at hcmd
    rw [hcmd]
    rfl
  | cons p proposed ih =>
    obtain ⟨entry, entries, rfl, hp, hrest⟩ := map_eq_cons_iff.mp hcmd
    rw [forall_mem_cons] at hseq
    rw [flatMap_cons, forall_mem_append] at hown
    rw [flatMap_cons, flatMap_cons, flatMap_append, ih hrest hseq.2 hown.2, Entry.leaves, hp]
    congr 1
    dsimp only
    rw [leaves_sequence hseq.1, leavesAll_eq]
    refine flatMap_congr fun c hc => ?_
    cases hl : c.leaderIndex with
    | none => exact absurd hl (hown.1 c hc)
    | some leaderIndex => rfl

theorem applyEntries_agree_leaves (X : Store S) {updates : List Entry} (hdec : ∀ e ∈ updates, e.cmd ≠ none) (x : S) :
    Agree (fun r r' => r.2 = r'.2) (X.applyEntries updates x)
    (runAll X.handleLeaf (updates.flatMap Entry.leaves) x) := by
  induction updates generalizing x with
  | nil => rfl
  | cons entry updates ih =>
    rw [forall_mem_cons] at hdec
    rw [flatMap_cons, runAll_append]
    have hentry : Agree (fun r r' => r.2 = r'.2) (X.applyEntry entry x)
        (runAll X.handleLeaf entry.leaves x) := by
      obtain ⟨index, _ | cmd⟩ := entry
      · exact absurd rfl hdec.1
      · rw [← bind_pure (runAll X.handleLeaf _ x)]
        exact (X.handle_leaves cmd _ x).bind fun r r' _ _ h => h
    refine hentry.bind fun r r' _ _ h => ?_
    rw [← h]
    exact (ih hdec.2 r.2).bind fun _ _ _ _ h => h

theorem updateStep_agree (hdec : ∀ e ∈ batch, e.cmd ≠ none) {m : DB} (h : SameTable p.db m) :
    Agree (fun r r' => SameTable r.2.db r'.2) (updateStep batch p)
    (runAll physical.handleLeaf (batch.flatMap Entry.leaves) m) := by
  have happ := (h.applyEntries batch).trans (applyEntries_agree_leaves physical hdec m)
  rw [updateStep, update_eq, bind_assoc, ← bind_pure (runAll physical.handleLeaf _ m)]
  refine happ.bind fun r r' _ _ hr => ?_
  obtain ⟨b, hrb, hbr'⟩ := hr
  rw [pure_bind]
  refine (sameTable_stampIndexes r.2 batch).trans ?_
  rw [← hbr']
  exact hrb.2

theorem runBatches_agree (hdec : ∀ e ∈ batches.flatten, e.cmd ≠ none) {m : DB} (h : SameTable p.db m) :
    Agree (fun r r' => SameTable r.2.db r'.2) (runAll updateStep batches p)
    (runAll physical.handleLeaf (runLeaves batches) m) := by
  induction batches generalizing p m with
  | nil => exact h
  | cons batch batches ih =>
    rw [flatten_cons, forall_mem_append] at hdec
    rw [runLeaves, flatten_cons, flatMap_append, runAll_append]
    refine (updateStep_agree hdec.1 h).bind fun r r' _ _ hr => ?_
    exact (ih hdec.2 hr).bind fun _ _ _ _ h => h

theorem updateStep_leaderIndex {r : List EntryResult × FSM} (h : updateStep batch p = .ok r) :
    readLocalIndex r.2.db sysLeaderIndex = (lastLeaderIndex batch).getD (readLocalIndex p.db sysLeaderIndex) := by
  obtain ⟨m, happ, hdb⟩ := update_ok (updateStep_ok h)
  rw [readLocalIndex, hdb, stampIndexes_leaderIndex, applyEntries_untouched not_header_sysLeaderIndex (by decide) happ]
  cases lastLeaderIndex batch with
  | none => rfl
  | some leaderIdx => exact ofLittleEndian_littleEndian leaderIdx

theorem runBatches_leaderIndex_foldl (hrun : runAll updateStep batches p = .ok r) :
    readLocalIndex r.2.db sysLeaderIndex = batches.foldl (fun l batch => (lastLeaderIndex batch).getD l)
    (readLocalIndex p.db sysLeaderIndex) := by
  induction batches generalizing p r with
  | nil => cases hrun; rfl
  | cons batch batches ih =>
    obtain ⟨r1, hr1, tail, htail, rfl⟩ := runAll_cons_iff.mp hrun
    have hrest := ih htail
    rw [foldl_cons, ← updateStep_leaderIndex hr1]
    exact hrest

theorem runBatches_leaderIndex_last {e : Entry}
    (hflat : batches.flatten = entries ++ [e]) {leaderIndex : UInt64} (he : e.leaderIndex = some leaderIndex)
    (hrun : runAll updateStep batches p = .ok r) : readLocalIndex r.2.db sysLeaderIndex = leaderIndex := by
  rw [runBatches_leaderIndex_foldl hrun]
  clear hrun
  induction batches using List.reverseRecOn generalizing entries with
  | nil => simp at hflat
  | append_singleton batches batch ih =>
    rw [foldl_append, foldl_cons, foldl_nil]
    rw [flatten_append, flatten_singleton] at hflat
    rcases eq_nil_or_concat' batch with rfl | ⟨front, e', rfl⟩
    · rw [append_nil] at hflat
      exact ih hflat
    · rw [← append_assoc] at hflat
      obtain ⟨-, rfl⟩ := append_singleton_inj.mp hflat
      rw [lastLeaderIndex, List.getLast?_concat, Option.bind_some, he, Option.getD_some]

theorem runBatches_leaderIndex_none (h : ∀ e ∈ batches.flatten, e.leaderIndex = none)
    (hrun : runAll updateStep batches p = .ok r) :
    readLocalIndex r.2.db sysLeaderIndex = readLocalIndex p.db sysLeaderIndex := by
  rw [runBatches_leaderIndex_foldl hrun]
  clear hrun
  induction batches with
  | nil => rfl
  | cons batch batches ih =>
    rw [flatten_cons, forall_mem_append] at h
    have hlast : lastLeaderIndex batch = none := by
      rw [lastLeaderIndex, Option.bind_eq_none_iff]
      exact fun e he => h.1 e (mem_of_getLast? he)
    rw [foldl_cons, hlast, Option.getD_none]
    exact ih h.2

theorem runBatches_leaderIndex (h : ∀ e ∈ batches.flatten, e.leaderIndex ≠ none)
    (hrun : runAll updateStep batches p = .ok r) : readLocalIndex r.2.db sysLeaderIndex =
    (lastLeaderIndex batches.flatten).getD (readLocalIndex p.db sysLeaderIndex) := by
  rcases eq_nil_or_concat' batches.flatten with hnil | ⟨front, e, hflat⟩
  · rw [runBatches_leaderIndex_none (by simp [hnil]) hrun, hnil]
    rfl
  · obtain ⟨leaderIndex, he⟩ := Option.ne_none_iff_exists'.mp (h e (by simp [hflat]))
    rw [runBatches_leaderIndex_last hflat he hrun, hflat, lastLeaderIndex, List.getLast?_concat,
      Option.bind_some, he, Option.getD_some]

theorem runAll_without_dummies (X : Store S) (as : List (UInt64 × Command)) (x : S) :
    Agree (fun r r' => r.2 = r'.2) (runAll X.handleLeaf as x)
    (runAll X.handleLeaf (as.filter fun a => a.2.type ≠ .dummy) x) := by
  induction as generalizing x with
  | nil => rfl
  | cons a as ih =>
    by_cases ha : a.2.type = .dummy
    · obtain ⟨s, cmd⟩ := a
      cases cmd
      cases ha
      rw [filter_cons_of_neg (by simp), runAll, Store.handleLeaf, Store.handle, ok_bind,
        ← bind_pure (runAll X.handleLeaf (List.filter _ as) x)]
      exact (ih x).bind fun _ _ _ _ h => h
    · rw [filter_cons_of_pos (by simpa using ha), runAll, runAll]
      cases X.handleLeaf a x with
      | error e => rfl
      | ok r => exact (ih r.2).bind fun _ _ _ _ h => h

end Armada.Fsm
