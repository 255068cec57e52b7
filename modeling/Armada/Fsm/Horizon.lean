import Armada.Fsm.Runs

/-! The persisted GC horizon. Every GC command writes its own sequence number, also
inside a sequence, so after a batch the horizon is that of the last GC command in it.
Nothing compares it with the horizon that is there already. -/

namespace Armada.Fsm

open Ordered Keys Pebble Proto Program List

/-- The horizon under the system key. -/
def persistedHorizon (m : DB) : UInt64 := readLocalIndex m sysGCHorizon

/-- The sequence number of the last GC command in a list of elementary commands. -/
def lastGC : List (UInt64 × Command) → Option UInt64
  | [] => none
  | a :: rest => (lastGC rest).or (if a.2.type = .gc then some a.1 else none)

variable {cmd : Command} {as : List (UInt64 × Command)} {results : List EntryResult} {p p' : FSM} {batch : List Entry}

variable {r : (UpdateResult × CommandResult) × DB} {m : DB}

theorem handleLeaf_horizon {s : UInt64} (hs : cmd.type ≠ .sequence) (h : physical.handle s cmd m = .ok r) :
    persistedHorizon r.2 = if cmd.type = .gc then s else persistedHorizon m := by
  by_cases hgc : cmd.type = .gc
  · cases cmd
    cases hgc
    unfold Store.handle at h
    cases h
    simp [persistedHorizon, readLocalIndex, physical, ofLittleEndian_littleEndian]
  · have hk : r.2[sysGCHorizon]? = m[sysGCHorizon]? := by
      refine handle_untouched not_header_sysGCHorizon ?_ h
      rw [leaves_of_ne hs]
      intro a ha
      rw [mem_singleton.mp ha]
      exact fun h => absurd h hgc
    rw [if_neg hgc, persistedHorizon, persistedHorizon, readLocalIndex, readLocalIndex, hk]

theorem runAll_horizon (has : ∀ a ∈ as, a.2.type ≠ .sequence)
    {rs : List (UpdateResult × CommandResult) × DB} (h : runAll physical.handleLeaf as m = .ok rs) :
    persistedHorizon rs.2 = (lastGC as).getD (persistedHorizon m) := by
  induction as generalizing m rs with
  | nil => cases h; rfl
  | cons a as ih =>
    rw [forall_mem_cons] at has
    obtain ⟨r, hr, tail, htail, rfl⟩ := runAll_cons_iff.mp h
    have hleaf := handleLeaf_horizon has.1 hr
    have hrest := ih has.2 htail
    rw [hrest, hleaf, lastGC]
    cases lastGC as with
    | some h => rfl
    | none => split <;> simp_all

theorem update_horizon {updates : List Entry} (h : p.update updates = .ok (p', results)) :
    persistedHorizon p'.db = (lastGC (updates.flatMap Entry.leaves)).getD (persistedHorizon p.db) := by
  obtain ⟨m, happ, hp'⟩ := update_ok h
  obtain ⟨rs, hrs⟩ := physical.applyEntries_leaves updates p.db happ
  have hleaves := runAll_horizon (fun a ha => ?_) hrs
  · rw [← hleaves, persistedHorizon, persistedHorizon, readLocalIndex, readLocalIndex, hp',
      sameTable_stampIndexes m updates sysGCHorizon (by decide) (by decide)]
  · obtain ⟨entry, -, ha⟩ := mem_flatMap.mp ha
    exact Entry.type_of_mem_leaves ha

/-! ### Runs -/

/-- No batch of the run lowers the horizon. -/
def HorizonNeverFalls (batches : List (List Entry)) (p : FSM) : Prop :=
  Along (fun batch p => ∀ r, updateStep batch p = .ok r → persistedHorizon p.db ≤ persistedHorizon r.2.db)
    updateStep batches p

/-- The last GC command of every batch is at or above the horizon it finds. -/
def GCsInOrder (batches : List (List Entry)) (p : FSM) : Prop :=
  Along (fun batch p => ∀ h ∈ lastGC (batch.flatMap Entry.leaves), persistedHorizon p.db ≤ h)
    updateStep batches p

/-- The horizon never moves backwards exactly when the GC commands come in order. -/
theorem horizonNeverFalls_iff (batches : List (List Entry)) (p : FSM)
    (r : List (List EntryResult) × FSM) (hrun : runAll updateStep batches p = .ok r) :
    HorizonNeverFalls batches p ↔ GCsInOrder batches p := by
  induction batches generalizing p r with
  | nil => exact Iff.rfl
  | cons batch batches ih =>
    obtain ⟨r1, hr1, tail, htail, -⟩ := runAll_cons_iff.mp hrun
    have hhorizon := update_horizon (updateStep_ok hr1)
    have hrest := ih r1.2 tail htail
    unfold HorizonNeverFalls GCsInOrder at hrest ⊢
    simp only [Along, hr1, Except.ok.injEq, forall_eq']
    refine and_congr ?_ hrest
    rw [hhorizon]
    cases lastGC (batch.flatMap Entry.leaves) <;> simp

/-- A GC command as a replica proposes it for its own log compaction index. -/
def gcCommand (index : UInt64) : Command := { Command.ofType .gc with leaderIndex := some index }

theorem horizonNeverFalls_iff_inOrder :
    ∃ r, runAll updateStep [[⟨1, some (gcCommand 5)⟩], [⟨2, some (gcCommand 10)⟩]] FSM.fresh = .ok r ∧
      (HorizonNeverFalls [[⟨1, some (gcCommand 5)⟩], [⟨2, some (gcCommand 10)⟩]] FSM.fresh ↔
        GCsInOrder [[⟨1, some (gcCommand 5)⟩], [⟨2, some (gcCommand 10)⟩]] FSM.fresh) :=
  ⟨_, rfl, horizonNeverFalls_iff _ FSM.fresh _ rfl⟩

/-- Two replicas compact at 10 and at 5, and the second command commits last. -/
theorem horizon_falls : ∃ p1 p2 rs1 rs2, FSM.fresh.update [⟨1, some (gcCommand 10)⟩] = .ok (p1, rs1) ∧
      p1.update [⟨2, some (gcCommand 5)⟩] = .ok (p2, rs2) ∧
      persistedHorizon p1.db = 10 ∧ persistedHorizon p2.db = 5 :=
  ⟨_, _, _, _, rfl, rfl, by decide, by decide⟩

/-! ### The horizon in memory -/

/-- The state machine `Open` makes of a database. The leader index, when there is one, is
the last one handed to the callback. -/
def FSM.openOn (db : DB) : FSM where
  db := db
  gcHorizon := persistedHorizon db
  applied :=
    let lx := readLocalIndex db sysLeaderIndex
    if lx ≠ 0 then lx else readLocalIndex db sysLocalIndex

/-- `notifyRecovered` on the database a recovery installed. -/
def FSM.notifyRecovered (p : FSM) (db : DB) : FSM := { p with db := db, gcHorizon := persistedHorizon db }

/-- What can happen to a state machine that was opened. -/
inductive Turn where
  | reopen
  | recovered (db : DB)
  | update (batch : List Entry)

def Turn.step : Turn → FSM → Except FsmError (List EntryResult × FSM)
  | .reopen, p => .ok ([], FSM.openOn p.db)
  | .recovered db, p => .ok ([], p.notifyRecovered db)
  | .update batch, p => updateStep batch p

/-- The horizon in memory is the persisted one. -/
def Mirrors (p : FSM) : Prop := p.gcHorizon = persistedHorizon p.db

/-- The number of the last GC command that is an entry of its own, zero for none. -/
def ownGC : List Entry → UInt64 → UInt64
  | [], h => h
  | e :: entries, h => ownGC entries <|
    match e.cmd with
    | some cmd => if cmd.type = .gc then cmd.leaderIndex.getD e.index else h
    | none => h

/-- The last GC command of a batch, in whatever sequence it is, is also the last one that is
an entry of its own, and its number is not zero; or it writes the horizon that is there. -/
def Announced (batch : List Entry) (p : FSM) : Prop :=
  ∀ h ∈ lastGC (batch.flatMap Entry.leaves), h = if ownGC batch 0 = 0 then p.gcHorizon else ownGC batch 0

theorem handle_gc {seq : UInt64}
    (h : physical.handle seq cmd m = .ok r) : if cmd.type = .gc then r.1 = (.gc, ⟨[], seq⟩) else r.1.1 ≠ .gc := by
  obtain ⟨_, type, kv, _, batch, txn⟩ := cmd
  unfold Store.handle at h
  cases type with
  | gc =>
    cases h
    rfl
  | put =>
    cases kv with
    | none => cases h
    | some kv => cases h; simp
  | delete =>
    cases kv with
    | none => cases h
    | some kv =>
      obtain ⟨_, -, rfl⟩ := map_eq_ok_iff.mp h
      simp
  | putBatch =>
    obtain ⟨_, -, rfl⟩ := map_eq_ok_iff.mp h
    simp
  | deleteBatch =>
    obtain ⟨_, -, rfl⟩ := map_eq_ok_iff.mp h
    simp
  | txn =>
    cases txn with
    | none => cases h
    | some t =>
      obtain ⟨_, -, rfl⟩ := map_eq_ok_iff.mp h
      simp only [if_neg (show CommandType.txn ≠ .gc by decide)]
      split <;> decide
  | dummy => cases h; simp
  | unrecognized => cases h
  | sequence =>
    obtain ⟨_, -, rfl⟩ := map_eq_ok_iff.mp h
    simp

theorem applyEntry_gc {e : Entry} {r : EntryResult × DB} (h : physical.applyEntry e m = .ok r) (g : UInt64) :
    (if r.1.value = .gc then r.1.data.revision else g) = ownGC [e] g := by
  obtain ⟨index, _ | cmd⟩ := e
  · cases h
  · obtain ⟨r', hr', rfl⟩ := map_eq_ok_iff.mp h
    have hvalue := handle_gc hr'
    simp only [ownGC]
    split at hvalue
    · rw [hvalue]
      simp [*]
    · simp [*]

theorem gcHorizonApplied_eq {r : List EntryResult × DB}
    (h : physical.applyEntries batch m = .ok r) : gcHorizonApplied r.1 = ownGC batch 0 := by
  rw [gcHorizonApplied]
  generalize (0 : UInt64) = g
  induction batch generalizing m r g with
  | nil => cases h; rfl
  | cons e batch ih =>
    obtain ⟨r1, hr1, tail, htail, rfl⟩ := runAll_cons_iff.mp h
    rw [foldl_cons, applyEntry_gc hr1, ih htail]
    rfl

theorem update_gcHorizon (h : p.update batch = .ok (p', results)) :
    p'.gcHorizon = if ownGC batch 0 = 0 then p.gcHorizon else ownGC batch 0 := by
  rw [update_eq] at h
  simp only [bind_eq_ok_iff, pure_eq_ok_iff, Prod.mk.injEq] at h
  obtain ⟨r, hr, rfl, rfl⟩ := h
  simp only [gcHorizonApplied_eq hr]
  split_ifs with hpos hzero hzero
  · exact absurd hpos (by rw [hzero]; decide)
  · rfl
  · rfl
  · exact absurd (UInt64.pos_iff_ne_zero.mpr hzero) hpos

theorem lastGC_eq_none_iff : lastGC as = none ↔ ∀ a ∈ as, a.2.type ≠ .gc := by
  induction as with
  | nil => simp [lastGC]
  | cons a as ih => simp [lastGC, ih, and_comm]

theorem ownGC_of_none (h : lastGC (batch.flatMap Entry.leaves) = none) (g : UInt64) : ownGC batch g = g := by
  rw [lastGC_eq_none_iff] at h
  induction batch generalizing g with
  | nil => rfl
  | cons e batch ih =>
    rw [flatMap_cons, forall_mem_append] at h
    rw [ownGC, ih h.2]
    obtain ⟨index, _ | cmd⟩ := e
    · rfl
    · have hleaf : ∀ a ∈ leaves (cmd.leaderIndex.getD index) cmd, a.2.type ≠ .gc := h.1
      refine if_neg fun hgc => ?_
      rw [leaves_of_ne (by rw [hgc]; decide)] at hleaf
      exact hleaf _ (mem_singleton.mpr rfl) hgc

/-- After an update the horizons agree if and only if the batch announced its last GC
command. -/
theorem update_mirrors_iff (hp : Mirrors p) (h : p.update batch = .ok (p', results)) :
    Mirrors p' ↔ Announced batch p := by
  rw [Mirrors, update_gcHorizon h, update_horizon h, Announced]
  cases hlast : lastGC (batch.flatMap Entry.leaves) with
  | none =>
    rw [ownGC_of_none hlast, if_pos rfl, Option.getD_none]
    exact iff_of_true hp fun h hh => by cases hh
  | some g =>
    rw [Option.getD_some]
    simp only [Option.mem_def, Option.some.injEq, forall_eq']
    exact eq_comm

/-- The horizons agree after every event of a run. -/
def StaysMirrored (turns : List Turn) (p : FSM) : Prop :=
  Along (fun turn p => ∀ r, turn.step p = .ok r → Mirrors r.2) Turn.step turns p

/-- Every batch of a run announces its last GC command. -/
def AllAnnounced (turns : List Turn) (p : FSM) : Prop :=
  Along (fun turn p => ∀ batch, turn = .update batch → Announced batch p) Turn.step turns p

theorem step_mirrors_iff {turn : Turn} (hp : Mirrors p) {r : List EntryResult × FSM}
    (h : turn.step p = .ok r) : Mirrors r.2 ↔ ∀ batch, turn = .update batch → Announced batch p := by
  cases turn with
  | reopen =>
    cases h
    exact iff_of_true rfl fun _ heq => by cases heq
  | recovered db =>
    cases h
    exact iff_of_true rfl fun _ heq => by cases heq
  | update batch =>
    rw [update_mirrors_iff hp (updateStep_ok h)]
    constructor
    · rintro h _ ⟨⟩
      exact h
    · intro h
      exact h batch rfl

/-- From the opening of any database, the horizon in memory is the persisted one after every
update, recovery and opening of a run if and only if every batch of the run announces its
last GC command. -/
theorem staysMirrored_iff (db : DB) (turns : List Turn) (r : List (List EntryResult) × FSM)
    (hrun : runAll Turn.step turns (FSM.openOn db) = .ok r) : Mirrors (FSM.openOn db) ∧
      (StaysMirrored turns (FSM.openOn db) ↔ AllAnnounced turns (FSM.openOn db)) := by
  have hopen : Mirrors (FSM.openOn db) := rfl
  refine ⟨hopen, ?_⟩
  generalize FSM.openOn db = p at *
  induction turns generalizing p r with
  | nil => exact Iff.rfl
  | cons turn turns ih =>
    obtain ⟨r1, hr1, tail, htail, -⟩ := runAll_cons_iff.mp hrun
    have hstep := step_mirrors_iff hopen hr1
    unfold StaysMirrored AllAnnounced at ih ⊢
    simp only [Along, hr1, Except.ok.injEq, forall_eq']
    -- the rest of the run starts where the horizons agree, on either side
    constructor
    · rintro ⟨hm, hrest⟩
      exact ⟨hstep.mp hm, (ih tail _ htail hm).mp hrest⟩
    · rintro ⟨ha, hrest⟩
      have hm := hstep.mpr ha
      exact ⟨hm, (ih tail _ htail hm).mpr hrest⟩

/-- A GC command in a sequence, followed by one that is an entry of its own. -/
def announcedBatch : List Entry :=
  [⟨1, some { Command.ofType .sequence with leaderIndex := some 4, sequence := [gcCommand 4] }⟩,
    ⟨2, some (gcCommand 5)⟩]

theorem staysMirrored_iff_announcedBatch :
    ∃ r, runAll Turn.step [.update announcedBatch, .reopen, .recovered ∅] (FSM.openOn ∅) = .ok r ∧
      Mirrors (FSM.openOn ∅) ∧ (StaysMirrored [.update announcedBatch, .reopen, .recovered ∅] (FSM.openOn ∅) ↔
        AllAnnounced [.update announcedBatch, .reopen, .recovered ∅] (FSM.openOn ∅)) :=
  ⟨_, rfl, staysMirrored_iff ∅ _ _ rfl⟩

/-- A GC command as the replication worker proposes it, inside a sequence, moves the
persisted horizon and not the one in memory. -/
theorem nested_gc_not_mirrored : ∃ p results, (FSM.openOn ∅).update
        [⟨1, some { Command.ofType .sequence with leaderIndex := some 4, sequence := [gcCommand 4] }⟩] =
          .ok (p, results) ∧ persistedHorizon p.db = 4 ∧ p.gcHorizon = 0 ∧ ¬ Mirrors p :=
  ⟨_, _, rfl, by decide, by decide, by unfold Mirrors; decide⟩

end Armada.Fsm
