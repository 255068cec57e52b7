import Armada.Storage.Recovery

/-! The voters of a recovery shard when it becomes the table's serving shard. The coordinator
goes on to promote when enough learners have caught up, and promotes those that have caught
up when it is there. They are a majority if no learner falls back in between. -/

namespace Armada.Storage

open Ordered Program Kv Option

/-- Voters stay voters, and no learner falls behind what was read of it. -/
def Coordinator.Extends (l l' : Coordinator) : Prop :=
  (∀ recoveryID, (l.shards recoveryID).nodes ⊆ (l'.shards recoveryID).nodes) ∧
    ∀ recoveryID id, l.seen recoveryID id ≤ l'.seen recoveryID id

/-- What a record of the coordinator says about the recovery shard. -/
structure Good (l : Coordinator) (record : RecoveryRecord) : Prop where
  members : record.members.Nodup
  learners : record.learners.Sublist (recoveryLearners record)
  nodup : record.promoted.Nodup
  promoted : record.promoted ⊆ recoveryLearners record
  voters : record.promoted ⊆ (l.shards record.recoveryID).nodes
  early : record.phase = .downloading ∨ record.phase = .loading → record.promoted = []
  full : record.phase = .seeding ∨ record.phase = .promoting ∨ record.phase = .swapping → record.recoveryID ≠ 0
  bootstrapped : record.recoveryID ≠ 0 → record.coordinator ∈ (l.shards record.recoveryID).nodes
  promoting : record.phase = .promoting → recoveryQuorum record ≤
    (record.learners.filter fun id => record.seedIndex ≤ l.seen record.recoveryID id).length + 1
  swapping : record.phase = .swapping → recoveryQuorum record ≤ record.promoted.length + 1

/-- What holds of the record at a stage. -/
def Stage.Ok (record : RecoveryRecord) : Stage → Prop
  | .ensure | .decide => record.phase = .seeding
  | .addLearner todo learners _ => record.phase = .seeding ∧ (learners ++ todo).Sublist (recoveryLearners record)
  | .promote todo => record.phase = .promoting ∧ todo ⊆ record.learners ∧
    recoveryQuorum record ≤ (record.promoted.toFinset ∪ todo.toFinset).card + 1
  | .pin | .drive | .retire | .finish => True

def Pc.Ok (l : Coordinator) : Pc → Prop
  | .idle => True
  | .holding stage record _ | .waiting _ stage record _ _ => Good l record ∧ stage.Ok record

theorem Coordinator.Extends.refl (l : Coordinator) : l.Extends l := ⟨fun _ _ h => h, fun _ _ => le_rfl⟩

section
variable {l l' l0 : Coordinator} {record : RecoveryRecord}

section
variable (h : Good l record)
include h

theorem Good.mono (hl : l.Extends l') : Good l' record := { h with
  voters := List.Subset.trans h.voters (hl.1 _)
  bootstrapped hid := hl.1 _ (h.bootstrapped hid)
  promoting hphase := by
    have hsub : (record.learners.filter fun id => record.seedIndex ≤ l.seen record.recoveryID id).Sublist
        (record.learners.filter fun id => record.seedIndex ≤ l'.seen record.recoveryID id) := by
      refine List.monotone_filter_right _ fun id hid => ?_
      exact decide_eq_true ((of_decide_eq_true hid).trans (hl.2 _ id))
    have hle := hsub.length_le
    have hquorum := h.promoting hphase
    omega }

theorem Good.learners_nodup : record.learners.Nodup :=
  h.learners.nodup (h.members.filter _)

theorem Good.back (hnone : record.promoted = []) {phase : RecoveryPhase} (seedIndex : UInt64)
    (hphase : phase ≠ .promoting ∧ phase ≠ .swapping) (hfull : phase = .seeding → record.recoveryID ≠ 0) :
    Good l { record with phase := phase, seedIndex := seedIndex } := { h with
  early _ := hnone
  full := by simpa [hphase] using hfull
  promoting heq := absurd heq hphase.1
  swapping heq := absurd heq hphase.2 }

theorem Good.allocate (hnone : record.promoted = []) {recoveryID : UInt64}
    (hnode : record.coordinator ∈ (l.shards recoveryID).nodes) :
    Good l { record with phase := .loading, recoveryID := recoveryID } := { h with
  voters := by simp [hnone]
  early _ := hnone
  full := by simp
  bootstrapped _ := hnode
  promoting := nofun
  swapping := nofun }

theorem Good.set_members (hphase : record.phase = .seeding) (hnone : record.members.length = 0)
    {members : List UInt64} (hmembers : members.Nodup) : Good l { record with members := members } := by
  have hempty : recoveryLearners record = [] := by simp [recoveryLearners, List.length_eq_zero_iff.mp hnone]
  have hlearners : record.learners = [] := List.sublist_nil.mp (hempty ▸ h.learners)
  have hpromoted : record.promoted = [] := List.subset_nil.mp (hempty ▸ h.promoted)
  constructor
  · exact hmembers
  · simp [hlearners]
  · exact h.nodup
  · simp [hpromoted]
  · exact h.voters
  · exact h.early
  · exact h.full
  · exact h.bootstrapped
  · simp [hphase]
  · simp [hphase]

theorem Good.set_learners (hphase : record.phase = .seeding) {learners : List UInt64}
    (hlearners : learners.Sublist (recoveryLearners record)) : Good l { record with learners := learners } := { h with
  learners := hlearners
  promoting heq := by simp [hphase] at heq
  swapping heq := by simp [hphase] at heq }

theorem Good.to_promoting (hphase : record.phase = .seeding) (hquorum : recoveryQuorum record ≤
      (record.learners.filter fun id => record.seedIndex ≤ l.seen record.recoveryID id).length + 1) :
    Good l { record with phase := .promoting } := { h with
  early := by simp
  full _ := h.full (Or.inl hphase)
  promoting _ := hquorum
  swapping := nofun }

theorem Good.promote (hphase : record.phase = .promoting) {id : UInt64}
    (hid : id ∈ record.learners) (hnew : id ∉ record.promoted) (hvoter : id ∈ (l.shards record.recoveryID).nodes) :
    Good l { record with promoted := record.promoted ++ [id] } := { h with
  nodup := by
    rw [List.nodup_append]
    refine ⟨h.nodup, List.nodup_singleton id, fun a ha b hb => ?_⟩
    rw [List.mem_singleton.mp hb]
    exact fun heq => hnew (heq ▸ ha)
  promoted := List.append_subset.mpr ⟨h.promoted, List.cons_subset.mpr ⟨h.learners.subset hid, List.nil_subset _⟩⟩
  voters := List.append_subset.mpr ⟨h.voters, List.cons_subset.mpr ⟨hvoter, List.nil_subset _⟩⟩
  early heq := by simp [hphase] at heq
  swapping heq := by simp [hphase] at heq }

theorem Good.to_swapping (hphase : record.phase = .promoting)
    (hquorum : recoveryQuorum record ≤ record.promoted.length + 1) :
    Good l { record with phase := .swapping } := { h with
  early := by simp
  full _ := h.full (Or.inr (Or.inl hphase))
  promoting := nofun
  swapping _ := hquorum }

theorem recoveryQuorum_le {caughtUp : ℕ} (hall : caughtUp = (recoveryLearners record).length) :
    recoveryQuorum record ≤ caughtUp + 1 := by
  have hcount : record.members.length ≤ (recoveryLearners record).length + 1 := by
    have hsplit := List.length_eq_length_filter_add (l := record.members) (fun id => decide (id ≠ record.coordinator))
    have hrest : (record.members.filter fun id => !decide (id ≠ record.coordinator)).length ≤ 1 := by
      have hcoord := List.nodup_iff_count_le_one.mp h.members record.coordinator
      rw [List.count_eq_length_filter] at hcoord
      refine le_of_eq_of_le (congrArg List.length (List.filter_congr fun id _ => ?_)) hcoord
      simp [beq_eq_decide]
    rw [recoveryLearners]
    omega
  rw [recoveryQuorum]
  split <;> omega

end

end

section
variable {V : Type} (codec : ManagerCodec V) (cfg : ManagerConfig) (name : String)

/-- What every step of the coordinator leaves: a coordinator that has lost no voter and
whose record is good, and so is a record that it proposes. -/
def Sound (l : Coordinator) (out : Coordinator × Option (Proposal V)) : Prop :=
  l.Extends out.1 ∧ out.1.pc.Ok out.1 ∧ ∀ value ver record, out.2 = some (.set (recoveryKey name) value ver) →
    codec.record.decode value = some record → Good out.1 record

variable {codec cfg name} {l l' : Coordinator} {record : RecoveryRecord} {ver : UInt64} {ticket : ℕ} {stage : Stage}

theorem sound_stop (hl : l.Extends l') : Sound codec name l (l'.stop) :=
  ⟨hl, trivial, nofun⟩

theorem sound_goto (hl : l.Extends l') (hgood : Good l record) (hstage : stage.Ok record) :
    Sound codec name l (l'.goto stage record ver) :=
  ⟨hl, ⟨hgood.mono hl, hstage⟩, nofun⟩

theorem sound_put (hl : l.Extends l') (hgood : Good l' record) (hstage : stage.Ok record) :
    Sound codec name l (l'.put codec ticket stage record ver) := by
  have hsame : Good (l'.put codec ticket stage record ver).1 record := hgood.mono (.refl l')
  refine ⟨hl, ⟨hsame, hstage⟩, fun value v record' h hdecode => ?_⟩
  obtain ⟨-, rfl, -⟩ := Proposal.set.inj (Option.some.inj h)
  rw [codec.record.lossless] at hdecode
  exact Option.some.inj hdecode ▸ hsame

theorem sound_propose {p : Proposal V} (hp : ∀ value v, p ≠ .set (recoveryKey name) value v) (hgood : Good l record)
    (hstage : stage.Ok record) : Sound codec name l (l.propose ticket p stage record ver) :=
  ⟨.refl l, ⟨hgood.mono (.refl l), hstage⟩, fun value v _ h => absurd (Option.some.inj h) (hp value v)⟩

theorem setTableVersion_ne (tbl : Table) (tblVer : UInt64) (value : V) (v : UInt64) :
    setTableVersion codec tbl tblVer ≠ .set (recoveryKey name) value v :=
  fun h => recoveryKey_ne_storedTableName name tbl.name (Proposal.set.inj h).1.symm

variable {m : MapStore V}

theorem sound_pin (hgood : Good l record) (hstage : stage.Ok record) :
    Sound codec name l (l.pin codec ticket stage record ver m) := by
  unfold Coordinator.pin
  split
  · exact sound_stop (.refl l)
  · split
    · exact sound_goto (.refl l) hgood hstage
    · exact sound_propose (setTableVersion_ne _ _) hgood hstage

theorem sound_swap (hgood : Good l record) : Sound codec name l (l.swap codec ticket record ver m) := by
  unfold Coordinator.swap
  split
  · exact sound_stop (.refl l)
  · split
    · exact sound_propose (setTableVersion_ne _ _) hgood trivial
    · exact sound_goto (.refl l) hgood trivial

theorem sound_load {index : UInt64} (hgood : Good l record) (hphase : record.phase = .loading) :
    Sound codec name l (l.load codec ticket index record ver m) := by
  unfold Coordinator.load
  split
  · split
    · exact sound_stop (.refl l)
    · exact sound_propose nofun hgood trivial
  · next hid =>
    exact sound_put (.refl l) (hgood.back (hgood.early (Or.inr hphase)) index (by decide) fun _ => hid) trivial

theorem sound_abandon (hgood : Good l record) : Sound codec name l (l.abandon codec ticket record ver m) := by
  unfold Coordinator.abandon
  split
  · exact sound_stop (.refl l)
  · next p hp =>
    refine sound_propose (fun value v heq => ?_) hgood trivial
    unfold abandonRecoveryLocked at hp
    split at hp
    · cases hp
    · split at hp
      · cases hp
      · cases hp
        cases heq

theorem sound_seed (hgood : Good l record) (hphase : record.phase = .seeding) :
    Sound codec name l (l.seed codec cfg ticket record ver) := by
  unfold Coordinator.seed
  split
  · next hnone => exact sound_put (.refl l) (hgood.set_members hphase hnone cfg.nodup) hphase
  · exact sound_goto (.refl l) hgood hphase

theorem extends_addNonVoting (l : Coordinator) (recoveryID id : UInt64) : l.Extends (l.addNonVoting recoveryID id) := by
  refine ⟨fun r => ?_, fun _ _ => le_rfl⟩
  by_cases hr : r = recoveryID
  · subst hr
    simp [Coordinator.addNonVoting]
  · simp [Coordinator.addNonVoting, Function.update_of_ne hr]

theorem extends_addReplica (l : Coordinator) (recoveryID id : UInt64) : l.Extends (l.addReplica recoveryID id) := by
  refine ⟨fun r => ?_, fun _ _ => le_rfl⟩
  by_cases hr : r = recoveryID
  · subst hr
    simp [Coordinator.addReplica]
  · simp [Coordinator.addReplica, Function.update_of_ne hr]

theorem mem_addReplica (l : Coordinator) (recoveryID id : UInt64) :
    id ∈ ((l.addReplica recoveryID id).shards recoveryID).nodes := by
  simp [Coordinator.addReplica]

theorem extends_startShard {recoveryID : UInt64} (hnew : (l.shards recoveryID).nodes = []) (nodeID : UInt64) :
    l.Extends (l.startShard recoveryID nodeID) := by
  refine ⟨fun r => ?_, fun _ _ => le_rfl⟩
  by_cases hr : r = recoveryID
  · subst hr
    simp [hnew]
  · simp [Coordinator.startShard, Function.update_of_ne hr]

/-- The reports read for a record are not below those read before. -/
def SteadyReports (l : Coordinator) (record : RecoveryRecord) (reports : UInt64 → Report) : Prop :=
  ∀ id ∈ record.learners, l.seen record.recoveryID id ≤ progressOf (reports id)

theorem extends_see {reports : UInt64 → Report} (hsteady : SteadyReports l record reports) :
    l.Extends (l.see record reports) := by
  refine ⟨fun r => List.Subset.refl _, fun r id => ?_⟩
  by_cases hr : r = record.recoveryID
  · subst hr
    by_cases hid : id ∈ record.learners
    · simpa [Coordinator.see, hid] using hsteady id hid
    · simp [Coordinator.see, hid]
  · simp [Coordinator.see, Function.update_of_ne hr]

theorem caughtUpLearners_eq (l : Coordinator) (record : RecoveryRecord) (reports : UInt64 → Report) :
    caughtUpLearners reports record =
    record.learners.filter fun id => record.seedIndex ≤ (l.see record reports).seen record.recoveryID id := by
  refine List.filter_congr fun id hid => ?_
  simp [Coordinator.see, hid]

section
variable (hgood : Good l record)
include hgood

variable {todo : List UInt64} {answer : Answer}

theorem sound_addLearner {learners : List UInt64} {changed : Bool}
    (hstage : (Stage.addLearner todo learners changed).Ok record) :
    Sound codec name l (l.addLearner codec ticket answer learners changed record ver todo) := by
  obtain ⟨hphase, hsub⟩ := hstage
  cases todo with
  | nil =>
    rw [List.append_nil] at hsub
    unfold Coordinator.addLearner
    dsimp only
    split
    · exact sound_put (.refl l) (hgood.set_learners hphase hsub) hphase
    · exact sound_goto (.refl l) hgood hphase
  | cons id todo =>
    have hskip : (learners ++ todo).Sublist (recoveryLearners record) := by
      refine List.Sublist.trans ?_ hsub
      exact List.Sublist.append_left (List.sublist_cons_self id todo) learners
    have htake : (learners ++ [id] ++ todo).Sublist (recoveryLearners record) := by simpa using hsub
    unfold Coordinator.addLearner
    dsimp only
    split
    · exact sound_goto (.refl l) hgood ⟨hphase, hskip⟩
    · split
      · exact sound_goto (.refl l) hgood ⟨hphase, htake⟩
      · cases answer with
        | failed => exact sound_goto (.refl l) hgood ⟨hphase, hskip⟩
        | lost => exact sound_goto (extends_addNonVoting l _ id) hgood ⟨hphase, hskip⟩
        | ok => exact sound_goto (extends_addNonVoting l _ id) hgood ⟨hphase, htake⟩

variable {reports : UInt64 → Report}

theorem sound_decide {timedOut : Bool} (hphase : record.phase = .seeding) (hsteady : SteadyReports l record reports) :
    Sound codec name l (l.decide codec ticket reports timedOut record ver) := by
  have hl := extends_see hsteady
  have hput : recoveryQuorum record ≤ (caughtUpLearners reports record).length + 1 →
      Sound codec name l ((l.see record reports).put codec ticket .finish { record with phase := .promoting } ver) := by
    intro hquorum
    rw [caughtUpLearners_eq l] at hquorum
    exact sound_put hl ((hgood.mono hl).to_promoting hphase hquorum) trivial
  unfold Coordinator.decide
  dsimp only
  split_ifs with hall htimeout hfew
  · exact hput (recoveryQuorum_le hgood hall)
  · exact sound_stop hl
  · exact sound_stop hl
  · exact hput (by omega)

theorem sound_enter_promote (hphase : record.phase = .promoting) (hsteady : SteadyReports l record reports) :
    Sound codec name l ((l.see record reports).goto (.promote (caughtUpLearners reports record)) record ver) := by
  have hl := extends_see hsteady
  have hnodup : (caughtUpLearners reports record).Nodup := hgood.learners_nodup.filter _
  have hquorum := (hgood.mono hl).promoting hphase
  rw [← caughtUpLearners_eq, ← List.toFinset_card_of_nodup hnodup] at hquorum
  refine sound_goto hl hgood ⟨hphase, fun id hid => List.mem_of_mem_filter hid, hquorum.trans ?_⟩
  exact Nat.succ_le_succ (Finset.card_le_card Finset.subset_union_right)

theorem sound_promote (hstage : (Stage.promote todo).Ok record) :
    Sound codec name l (l.promote codec ticket answer record ver todo) := by
  obtain ⟨hphase, hsub, hquorum⟩ := hstage
  cases todo with
  | nil =>
    rw [List.toFinset_nil, Finset.union_empty, List.toFinset_card_of_nodup hgood.nodup] at hquorum
    exact sound_put (.refl l) (hgood.to_swapping hphase hquorum) trivial
  | cons id todo =>
    have hid : id ∈ record.learners := hsub (List.mem_cons_self ..)
    have htodo : todo ⊆ record.learners := fun x hx => hsub (List.mem_cons_of_mem _ hx)
    have hnext : (Stage.promote todo).Ok { record with promoted := record.promoted ++ [id] } := by
      refine ⟨hphase, htodo, ?_⟩
      rw [List.toFinset_cons, Finset.union_insert, ← Finset.insert_union] at hquorum
      rw [List.toFinset_append, List.toFinset_cons, List.toFinset_nil, Finset.union_comm record.promoted.toFinset,
        insert_empty_eq, ← Finset.insert_eq]
      exact hquorum
    unfold Coordinator.promote
    dsimp only
    split
    · next hdone =>
      refine sound_goto (.refl l) hgood ⟨hphase, htodo, ?_⟩
      rwa [List.toFinset_cons, Finset.union_insert, ← Finset.insert_union,
        Finset.insert_eq_of_mem (List.mem_toFinset.mpr hdone)] at hquorum
    · next hnew =>
      split
      · next hvoter => exact sound_put (.refl l) (hgood.promote hphase hid hnew hvoter) hnext
      · have hl := extends_addReplica l record.recoveryID id
        cases answer with
        | failed => exact sound_stop (.refl l)
        | lost => exact sound_stop hl
        | ok => exact sound_put hl ((hgood.mono hl).promote hphase hid hnew (mem_addReplica l _ id)) hnext

end

/-! ### Runs -/

/-- Every record of the coordinator in the store is good. -/
def GoodRecord (codec : ManagerCodec V) (cfg : ManagerConfig) (l : Coordinator) (value : V) : Prop :=
  ∀ record, codec.record.decode value = some record → record.coordinator = cfg.nodeID → Good l record

theorem getRecovery_good (hm : ∀ pair, m[recoveryKey name]? = some pair → GoodRecord codec cfg l pair.value)
    (h : getRecovery codec m name = some (record, ver)) (hnode : record.coordinator = cfg.nodeID) : Good l record := by
  simp only [getRecovery, bind_eq_bind, bind_eq_some_iff, pure_def, Option.some.injEq, Prod.mk.injEq] at h
  obtain ⟨pair, hpair, record', hrecord', rfl, rfl⟩ := h
  exact hm pair hpair record' hrecord' hnode

variable {phase : RecoveryPhase}

theorem driven_eq (h : l.driven phase = some (record, ver)) :
    l.pc = .holding .drive record ver ∧ record.phase = phase := by
  unfold Coordinator.driven at h
  split at h
  · next hpc =>
    split at h
    · next hphase =>
      cases h
      exact ⟨hpc, hphase⟩
    · cases h
  · cases h

variable {out : Coordinator × Option (Proposal V)}

/-- The function of a phase is entered with the record that is driven. -/
theorem driven_map_eq {f : RecoveryRecord × UInt64 → Coordinator × Option (Proposal V)}
    (h : (l.driven phase).map f = some out) :
    ∃ record ver, l.pc = .holding .drive record ver ∧ record.phase = phase ∧ out = f (record, ver) := by
  obtain ⟨⟨record, ver⟩, hd, hout⟩ := map_eq_some_iff.mp h
  obtain ⟨heq, hphase⟩ := driven_eq hd
  exact ⟨record, ver, heq, hphase, hout.symm⟩

/-- Pinning leaves the stage as it is, but for its own one, which is the last before the end. -/
theorem pin_act_eq (h : coordinatorAct codec cfg name .pin ticket m l = some out) : ∃ stage stage' record ver,
    l.pc = .holding stage record ver ∧ (stage' = stage ∨ stage = .pin ∧ stage' = .finish) ∧
    out = l.pin codec ticket stage' record ver m := by
  simp only [coordinatorAct] at h
  split at h
  · next heq => exact ⟨_, _, _, _, heq, .inr ⟨rfl, rfl⟩, (Option.some.inj h).symm⟩
  · next heq =>
    split at h
    · exact ⟨_, _, _, _, heq, .inl rfl, (Option.some.inj h).symm⟩
    · cases h
  · next heq => exact ⟨_, _, _, _, heq, .inl rfl, (Option.some.inj h).symm⟩
  · cases h

/-- The reports that a step reads have not fallen. -/
def SteadyStep (l : Coordinator) : CoordinatorStep → Prop
  | .decide reports _ | .promote reports => match l.pc with
    | .holding _ record _ => SteadyReports l record reports
    | _ => True
  | _ => True

theorem sound_act {a : CoordinatorStep}
    (hm : ∀ pair, m[recoveryKey name]? = some pair → GoodRecord codec cfg l pair.value) (hpc : l.pc.Ok l)
    (hsteady : SteadyStep l a) (h : coordinatorAct codec cfg name a ticket m l = some out) :
    Sound codec name l out := by
  refine (?_ : Leads (coordinatorAct codec cfg name a ticket m l) (Sound codec name l)) out h
  -- The function of a phase, entered with a good record.
  have hdriven {phase : RecoveryPhase} {f : RecoveryRecord × UInt64 → Coordinator × Option (Proposal V)}
      (hf : ∀ record ver, l.pc = .holding .drive record ver → Good l record → record.phase = phase →
        Sound codec name l (f (record, ver))) : Leads ((l.driven phase).map f) (Sound codec name l) := by
    intro out hout
    obtain ⟨record, ver, heq, hphase, rfl⟩ := driven_map_eq hout
    rw [heq] at hpc
    exact hf record ver heq hpc.1 hphase
  cases a with
  | stop => exact .some (sound_stop (.refl l))
  | begin incremental =>
    refine .guard fun _ => sound_put (.refl l) ?_ trivial
    constructor <;> simp [cfg.nodup]
  | completeDownload recoveryID =>
    refine .bind fun res hread => .ite (fun _ => .none) fun hrefuse => ?_
    obtain ⟨record, ver⟩ := res
    simp only [not_or, not_not] at hrefuse
    have hgood := getRecovery_good hm hread hrefuse.2.1
    have hearly := hgood.early (Or.inl hrefuse.2.2)
    refine .ite (fun _ => .some ?_) fun _ => .unless fun hused => ?_
    · exact sound_put (.refl l) (hgood.back hearly record.seedIndex (by decide) nofun) trivial
    · rw [not_not] at hused
      have hl := extends_startShard hused cfg.nodeID
      refine sound_put hl ((hgood.mono hl).allocate hearly ?_) trivial
      simp [Coordinator.startShard, hrefuse.2.1]
  | read =>
    refine .bind fun res hread => .unless fun hrefuse => ?_
    simp only [not_or, not_not] at hrefuse
    exact sound_goto (.refl l) (getRecovery_good hm hread hrefuse.2) trivial
  | pin =>
    intro out h
    obtain ⟨stage, stage', record, ver, heq, hstage, rfl⟩ := pin_act_eq h
    rw [heq] at hpc
    obtain rfl | ⟨rfl, rfl⟩ := hstage
    · exact sound_pin hpc.1 hpc.2
    · exact sound_pin hpc.1 trivial
  | load index => exact hdriven fun _ _ _ => sound_load
  | redownload =>
    refine hdriven fun record ver _ hgood hphase => sound_put (.refl l) ?_ trivial
    exact hgood.back (hgood.early (Or.inr hphase)) record.seedIndex (by decide) nofun
  | abandon => exact hdriven fun _ _ _ hgood _ => sound_abandon hgood
  | seed => exact hdriven fun _ _ _ => sound_seed
  | ensured =>
    rw [coordinatorAct]
    split
    · next heq =>
      rw [heq] at hpc
      exact .some (sound_goto (.refl l) hpc.1 ⟨hpc.2, List.Sublist.refl _⟩)
    · exact .none
  | addLearner answer =>
    rw [coordinatorAct]
    split
    · next heq =>
      rw [heq] at hpc
      exact .some (sound_addLearner hpc.1 hpc.2)
    · exact .none
  | addLearnerBreak =>
    rw [coordinatorAct]
    split
    · next todo learners record ver heq =>
      rw [heq] at hpc
      refine .some (sound_goto (.refl l) hpc.1 ⟨hpc.2.1, List.Sublist.trans ?_ hpc.2.2⟩)
      exact List.Sublist.append_left (List.nil_sublist todo) learners
    · exact .none
  | decide reports timedOut =>
    rw [coordinatorAct]
    split
    · next heq =>
      rw [heq] at hpc
      simp only [SteadyStep, heq] at hsteady
      exact .some (sound_decide hpc.1 hpc.2 hsteady)
    · exact .none
  | promote reports =>
    refine hdriven fun record ver heq hgood hphase => ?_
    simp only [SteadyStep, heq] at hsteady
    exact sound_enter_promote hgood hphase hsteady
  | promoteNext answer =>
    rw [coordinatorAct]
    split
    · next heq =>
      rw [heq] at hpc
      exact .some (sound_promote hpc.1 hpc.2)
    · exact .none
  | swap => exact hdriven fun _ _ _ hgood _ => sound_swap hgood
  | retire =>
    rw [coordinatorAct]
    split
    · next heq =>
      rw [heq] at hpc
      exact .some (sound_propose nofun hpc.1 trivial)
    · exact .none

theorem answer_ok {r : Result V} (hpc : l.pc.Ok l) :
    (coordinatorAnswer ticket r l).pc.Ok (coordinatorAnswer ticket r l) ∧ l.Extends (coordinatorAnswer ticket r l) := by
  unfold coordinatorAnswer
  split
  · next t stage record ver journal heq =>
    rw [heq] at hpc
    split_ifs with ht hend
    · exact ⟨heq ▸ hpc, .refl l⟩
    · exact ⟨trivial, .refl l⟩
    · exact ⟨⟨hpc.1.mono (.refl l), hpc.2⟩, .refl l⟩
    · exact ⟨⟨hpc.1.mono (.refl l), hpc.2⟩, .refl l⟩
  · exact ⟨hpc, .refl l⟩

/-- What holds throughout a run: the record that the coordinator is at is good, and so are
those it has written and may still write. -/
structure Steered (codec : ManagerCodec V) (cfg : ManagerConfig) (name : String) (s : Cluster V Party Coordinator) :
    Prop where
  pc : (s.locals .coordinator).pc.Ok (s.locals .coordinator)
  records : s.Everywhere (recoveryKey name) (GoodRecord codec cfg (s.locals .coordinator))

/-- No learner is read to be behind what was read of it before: the condition on a run. -/
def Steady : Event Party (PartyStep V) → Cluster V Party Coordinator → Prop
  | .act .coordinator (.own a) _, s => SteadyStep (s.locals .coordinator) a
  | _, _ => True

variable {value : V}

theorem GoodRecord.mono (h : GoodRecord codec cfg l value) (hl : l.Extends l') : GoodRecord codec cfg l' value :=
  fun record hrecord hnode => (h record hrecord hnode).mono hl

theorem goodRecord_of_foreign (h : isForeign codec cfg name (.set (recoveryKey name) value ver) = true) :
    GoodRecord codec cfg l value := by
  intro record hrecord hnode
  simp [isForeign, hrecord, hnode] at h

theorem steered_init : Steered codec cfg name (.init fun _ => .new) :=
  ⟨trivial, Cluster.everywhere_init _ _ _⟩

variable [Inhabited V] {s s' : Cluster V Party Coordinator}

theorem Steered.act (hs : Steered codec cfg name s) {n : Party} {a : PartyStep V} {behind : ℕ}
    (hsteady : Steady (.act n a behind) s)
    (h : Cluster.step (recoveryProtocol codec cfg name) (.act n a behind) s = some s') : Steered codec cfg name s' := by
  obtain ⟨m, hm, l, p, hact, hreplicas, -, hlocals, -, htickets⟩ := Cluster.act_cases h
  cases n with
  | coordinator =>
    cases a with
    | foreign p => cases hact
    | own a =>
      obtain ⟨hext, hpc, hp⟩ := sound_act (hs.records.1 m hm) hs.pc hsteady hact
      have hl : s'.locals .coordinator = l := by rw [hlocals, Function.update_self]
      refine ⟨hl ▸ hpc, hl ▸ (hs.records.mono fun _ hgood => hgood.mono hext).act hreplicas htickets ?_⟩
      exact fun value ver heq record hdecode _ => hp value ver record heq hdecode
  | other =>
    cases a with
    | own a => cases hact
    | foreign p' =>
      have hl : s'.locals .coordinator = s.locals .coordinator := by
        rw [hlocals, Function.update_of_ne (by decide)]
      refine ⟨hl ▸ hs.pc, hl ▸ hs.records.act hreplicas htickets fun value ver heq => ?_⟩
      simp only [recoveryProtocol] at hact
      split at hact
      · next hforeign =>
        obtain rfl := Option.some.inj ((Prod.mk.inj (Option.some.inj hact)).2.trans heq)
        exact goodRecord_of_foreign hforeign
      · cases hact

theorem Steered.answer (hs : Steered codec cfg name s) {t : ℕ}
    (h : Cluster.step (recoveryProtocol codec cfg name) (.answer t) s = some s') : Steered codec cfg name s' := by
  obtain ⟨n, p, r, -, -, -, hlocals, -, -⟩ := Cluster.answer_cases h
  cases n with
  | coordinator =>
    obtain ⟨hpc, hext⟩ := answer_ok (r := r) hs.pc
    have hl : s'.locals .coordinator = coordinatorAnswer t r (s.locals .coordinator) := by
      rw [hlocals, Function.update_self]
      rfl
    exact ⟨hl ▸ hpc, hl ▸ (hs.records.answer h).mono fun _ hgood => hgood.mono hext⟩
  | other =>
    have hl : s'.locals .coordinator = s.locals .coordinator := by
      rw [hlocals, Function.update_of_ne (by decide)]
    exact ⟨hl ▸ hs.pc, hl ▸ hs.records.answer h⟩

theorem Steered.step (hs : Steered codec cfg name s) {e : Event Party (PartyStep V)} (hsteady : Steady e s)
    (h : Cluster.step (recoveryProtocol codec cfg name) e s = some s') : Steered codec cfg name s' := by
  cases e with
  | tick =>
    cases h
    exact ⟨hs.pc, hs.records⟩
  | act n a behind => exact hs.act hsteady h
  | commit t index =>
    obtain ⟨n, p, r, -, -, -, hlocals, -, -⟩ := Cluster.commit_cases h
    exact ⟨hlocals ▸ hs.pc, hlocals ▸ hs.records.commit h⟩
  | answer t => exact hs.answer h

/-- The voters of the recovery shard are a majority when it becomes the serving shard, in every
run in which no learner falls behind: the coordinator and the promoted members are at least the
quorum of the record. -/
theorem swap_has_majority (codec : ManagerCodec V) (cfg : ManagerConfig) (name : String)
    (events : List (Event Party (PartyStep V))) (s s' : Cluster V Party Coordinator)
    (hsteady : Throughout (Cluster.step (recoveryProtocol codec cfg name)) Steady events (.init fun _ => .new))
    (hrun : runMachine (Cluster.step (recoveryProtocol codec cfg name)) events (.init fun _ => .new) = some s)
    (behind : ℕ)
    (hswap : Cluster.step (recoveryProtocol codec cfg name) (.act .coordinator (.own .swap) behind) s = some s') :
    ∃ record ver, (s.locals .coordinator).pc = .holding .drive record ver ∧ record.phase = .swapping ∧
      recoveryQuorum record ≤ (record.coordinator :: record.promoted).length ∧
      (record.coordinator :: record.promoted).Nodup ∧
      record.coordinator :: record.promoted ⊆ ((s.locals .coordinator).shards record.recoveryID).nodes := by
  have hs : Steered codec cfg name s :=
    runMachine_keeps_of (fun e s s' hok hs h => hs.step hok h) hsteady steered_init hrun
  obtain ⟨m, -, l, p, hact, -⟩ := Cluster.act_cases hswap
  obtain ⟨⟨record, ver⟩, hdriven, -⟩ := map_eq_some_iff.mp hact
  obtain ⟨hpc, hphase⟩ := driven_eq hdriven
  have hok := hs.pc
  rw [hpc] at hok
  have hgood := hok.1
  refine ⟨record, ver, hpc, hphase, hgood.swapping hphase, ?_, ?_⟩
  · refine List.nodup_cons.mpr ⟨fun hmem => ?_, hgood.nodup⟩
    have hlearner := List.mem_filter.mp (hgood.promoted hmem)
    simp at hlearner
  · exact List.cons_subset.mpr ⟨hgood.bootstrapped (hgood.full (Or.inr (Or.inr hphase))), hgood.voters⟩

end

/-! ### A recovery of three members -/

/-- A store of records and tables themselves. -/
def managerCodec : ManagerCodec (RecoveryRecord ⊕ Table) where
  record := ⟨.inl, Sum.getLeft?, fun _ => rfl⟩
  table := ⟨.inr, Sum.getRight?, fun _ => rfl⟩

instance : Inhabited (RecoveryRecord ⊕ Table) := ⟨.inl default⟩

def threeMembers : ManagerConfig := ⟨1, [1, 2, 3], by decide⟩

/-- A step of the coordinator whose proposal is committed and answered at once. -/
def settled (a : CoordinatorStep) (ticket : ℕ) (index : UInt64) :
    List (Event Party (PartyStep (RecoveryRecord ⊕ Table))) :=
  [.act .coordinator (.own a) 0, .commit ticket index, .answer ticket]

def unsettled (a : CoordinatorStep) : List (Event Party (PartyStep (RecoveryRecord ⊕ Table))) :=
  [.act .coordinator (.own a) 0]

def caughtUpReports (_ : UInt64) : Report := ⟨some 18446744073709551615, none⟩

def lostReports (_ : UInt64) : Report := ⟨none, none⟩

/-- A full recovery up to its promotions, with both learners caught up. -/
def seedingEvents : List (Event Party (PartyStep (RecoveryRecord ⊕ Table))) :=
  settled (.begin false) 0 1 ++ settled (.completeDownload 10001) 1 2 ++ settled .pin 2 3 ++ unsettled .read ++
    settled (.load 5) 4 4 ++ unsettled .read ++ unsettled .seed ++ unsettled .ensured ++ unsettled (.addLearner .ok) ++
    unsettled (.addLearner .ok) ++ settled (.addLearner .ok) 10 5 ++ settled (.decide caughtUpReports false) 11 6 ++
    unsettled .read

def promotingEvents : List (Event Party (PartyStep (RecoveryRecord ⊕ Table))) :=
  unsettled (.promote caughtUpReports) ++ settled (.promoteNext .ok) 14 7 ++ settled (.promoteNext .ok) 15 8 ++
    settled (.promoteNext .ok) 16 9 ++ unsettled .read

theorem le_progressOf_caughtUpReports (x id : UInt64) : x ≤ progressOf (caughtUpReports id) := by
  have hlt := x.toNat_lt
  have hmax : (progressOf (caughtUpReports id)).toNat = 18446744073709551615 := rfl
  rw [UInt64.le_iff_toNat_le, hmax]
  omega

theorem steadyStep_caughtUpReports (l : Coordinator) :
    SteadyStep l (.promote caughtUpReports) ∧ ∀ timedOut, SteadyStep l (.decide caughtUpReports timedOut) := by
  have hreports : ∀ record, SteadyReports l record caughtUpReports :=
    fun record id _ => le_progressOf_caughtUpReports _ id
  have hpc : match l.pc with
      | .holding _ record _ => SteadyReports l record caughtUpReports
      | _ => True := by
    split
    · exact hreports _
    · trivial
  exact ⟨hpc, fun _ => hpc⟩

theorem steady_events : ∀ e ∈ seedingEvents ++ promotingEvents, ∀ s, Steady e s := by
  simp [seedingEvents, promotingEvents, settled, unsettled, Steady, steadyStep_caughtUpReports]
  simp [SteadyStep]

theorem swap_has_majority_threeMembers : ∃ s s' record ver,
      runMachine (Cluster.step (recoveryProtocol managerCodec threeMembers "t")) (seedingEvents ++ promotingEvents)
        (.init fun _ => .new) = some s ∧
      Cluster.step (recoveryProtocol managerCodec threeMembers "t") (.act .coordinator (.own .swap) 0) s = some s' ∧
      (s.locals .coordinator).pc = .holding .drive record ver ∧
      recoveryQuorum record ≤ (record.coordinator :: record.promoted).length := by
  have hruns : (runMachine (Cluster.step (recoveryProtocol managerCodec threeMembers "t"))
      (seedingEvents ++ promotingEvents ++ unsettled .swap) (.init fun _ => .new)).isSome = true := by
    decide +kernel
  obtain ⟨t, ht⟩ := isSome_iff_exists.mp hruns
  rw [runMachine_append] at ht
  obtain ⟨s, hs, hlast⟩ := bind_eq_some_iff.mp ht
  obtain ⟨s', hs', -⟩ := bind_eq_some_iff.mp hlast
  obtain ⟨record, ver, hpc, -, hquorum, -, -⟩ := swap_has_majority managerCodec threeMembers "t"
    (seedingEvents ++ promotingEvents) s s' (throughout_of_forall steady_events _) hs 0 hs'
  exact ⟨s, s', record, ver, hs, hs', hpc, hquorum⟩

/-- Both learners have caught up when the majority is checked, and neither can be heard of
when they are to be promoted: the shard is swapped in with one voter of three. -/
theorem swap_without_majority : ∃ s record, runMachine (Cluster.step (recoveryProtocol managerCodec threeMembers "t"))
        (seedingEvents ++ unsettled (.promote lostReports) ++ settled (.promoteNext .ok) 14 7 ++ unsettled .read ++
          settled .swap 16 8) (.init fun _ => .new) = some s ∧
      (s.locals .coordinator).pc = .holding .retire record 7 ∧
      getTableVersion managerCodec s.replicas.newest "t" = some (⟨"t", record.recoveryID, 0, true⟩, 8) ∧
      (record.coordinator :: record.promoted).length = 1 ∧ recoveryQuorum record = 2 := by
  have hrun : (runMachine (Cluster.step (recoveryProtocol managerCodec threeMembers "t"))
      (seedingEvents ++ unsettled (.promote lostReports) ++ settled (.promoteNext .ok) 14 7 ++ unsettled .read ++
        settled .swap 16 8) (.init fun _ => .new)).map
        (fun s => ((s.locals .coordinator).pc, getTableVersion managerCodec s.replicas.newest "t")) =
      some (.holding .retire ⟨"t", .swapping, 10001, 1, [1, 2, 3], [2, 3], [], 5, false⟩ 7,
        some (⟨"t", 10001, 0, true⟩, 8)) := by
    decide +kernel
  obtain ⟨s, hs, hvalues⟩ := map_eq_some_iff.mp hrun
  obtain ⟨hpc, htable⟩ := Prod.mk.inj hvalues
  exact ⟨s, _, hs, hpc, htable, rfl, rfl⟩

end Armada.Storage
