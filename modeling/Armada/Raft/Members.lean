import Armada.Ordered.Map
import Armada.Program.Machine
import Armada.Raft.Sending

/-! The membership that the replicated state machine keeps, and the members that the
consensus core keeps. Both interpret the same config changes, each with its own special
cases, and both are replaced when a snapshot is recovered. -/

namespace Armada.Raft

open Program Ordered List Std.ExtTreeMap

inductive ConfigChangeType where
  | addNode | removeNode | addNonVoting | addWitness
  /-- a number without a meaning -/
  | other
  deriving DecidableEq

def ConfigChangeType.number : ConfigChangeType → ℕ
  | .addNode => 0
  | .removeNode => 1
  | .addNonVoting => 2
  | .addWitness => 3
  | .other => 4

def ConfigChangeType.isAdd (t : ConfigChangeType) : Bool := t = .addNode ∨ t = .addNonVoting ∨ t = .addWitness

structure ConfigChange (A : Type) where
  configChangeId : ℕ
  type : ConfigChangeType
  replicaID : ℕ
  address : A
  /-- the change is one of those that start the shard -/
  isInitial : Bool

structure Members (A : Type) where
  configChangeId : ℕ
  addresses : OrdMap ℕ A
  nonVotings : OrdMap ℕ A
  witnesses : OrdMap ℕ A
  removed : OrdMap ℕ Unit

namespace Members

variable {A : Type} (addressEqual : A → A → Bool) (m : Members A) (cc : ConfigChange A)

def empty : Members A := ⟨0, ∅, ∅, ∅, ∅⟩

/-- The replicas that a snapshot message lists. -/
def ids : Membership := ⟨m.addresses.keys, m.nonVotings.keys, m.witnesses.keys⟩

def isUpToDate (ordered : Bool) (cc : ConfigChange A) : Bool :=
  !ordered || cc.isInitial || m.configChangeId = cc.configChangeId

def isAddRemovedNode : Bool :=
  cc.type.isAdd && m.removed.contains cc.replicaID

def isPromoteNonVoting : Bool :=
  cc.type = .addNode && m.nonVotings[cc.replicaID]?.any fun oa => addressEqual oa cc.address

def isInvalidNonVotingPromotion : Bool :=
  cc.type = .addNode && m.nonVotings[cc.replicaID]?.any fun oa => !addressEqual oa cc.address

def isAddExistingMember : Bool :=
  cc.type = .addNode && m.addresses.contains cc.replicaID
    || cc.type = .addNonVoting && m.nonVotings.contains cc.replicaID
    || cc.type = .addWitness && m.witnesses.contains cc.replicaID
    || !m.isPromoteNonVoting addressEqual cc && cc.type.isAdd
      && (m.addresses.values ++ m.nonVotings.values ++ m.witnesses.values).any fun addr => addressEqual addr cc.address

def isAddNodeAsNonVoting : Bool :=
  cc.type = .addNonVoting && m.addresses.contains cc.replicaID

def isAddNodeAsWitness : Bool :=
  cc.type = .addWitness && m.addresses.contains cc.replicaID

def isAddWitnessAsNonVoting : Bool :=
  cc.type = .addNonVoting && m.witnesses.contains cc.replicaID

def isAddWitnessAsNode : Bool :=
  cc.type = .addNode && m.witnesses.contains cc.replicaID

def isAddNonVotingAsWitness : Bool :=
  cc.type = .addWitness && m.nonVotings.contains cc.replicaID

def isDeleteOnlyNode : Bool :=
  cc.type = .removeNode && m.addresses.size = 1 && m.addresses.contains cc.replicaID

def apply (index : ℕ) : Except Fault (Members A) :=
  match cc.type with
  | .addNode =>
    if m.witnesses.contains cc.replicaID then panicked (.unexpected "not suppose to reach here")
    else .ok { m with
      configChangeId := index
      nonVotings := m.nonVotings.erase cc.replicaID
      addresses := m.addresses.insert cc.replicaID cc.address }
  | .addNonVoting =>
    if m.addresses.contains cc.replicaID then panicked (.unexpected "not suppose to reach here")
    else .ok { m with configChangeId := index, nonVotings := m.nonVotings.insert cc.replicaID cc.address }
  | .addWitness =>
    if m.addresses.contains cc.replicaID ∨ m.nonVotings.contains cc.replicaID then
      panicked (.unexpected "not suppose to reach here")
    else .ok { m with configChangeId := index, witnesses := m.witnesses.insert cc.replicaID cc.address }
  | .removeNode => .ok {
      configChangeId := index
      addresses := m.addresses.erase cc.replicaID
      nonVotings := m.nonVotings.erase cc.replicaID
      witnesses := m.witnesses.erase cc.replicaID
      removed := m.removed.insert cc.replicaID () }
  | .other => panicked (.unexpected "unknown config change type")

def accepts (ordered : Bool) (cc : ConfigChange A) : Bool :=
  m.isUpToDate ordered cc
    && !m.isAddRemovedNode cc
    && !m.isAddExistingMember addressEqual cc
    && !m.isAddNodeAsNonVoting cc
    && !m.isAddNodeAsWitness cc
    && !m.isAddWitnessAsNode cc
    && !m.isAddWitnessAsNonVoting cc
    && !m.isAddNonVotingAsWitness cc
    && !m.isDeleteOnlyNode cc
    && !m.isInvalidNonVotingPromotion addressEqual cc

/-- The membership after a config change, and whether it was accepted. -/
def handleConfigChange (ordered : Bool) (cc : ConfigChange A) (index : ℕ) :
    Except Fault (Members A × Bool) :=
  if m.accepts addressEqual ordered cc then do
    let m ← m.apply cc index
    .ok (m, true)
  else .ok (m, false)

/-- The membership after the config changes of a stretch of the log. -/
def applyAll (ordered : Bool) : List (ConfigChange A × ℕ) → Members A → Except Fault (Members A)
  | [], m => .ok m
  | (cc, index) :: ccs, m => do
    let res ← m.handleConfigChange addressEqual ordered cc index
    applyAll ordered ccs res.1

end Members

/-! ### A replica with both -/

structure Replica (A : Type) where
  ordered : Bool
  members : Members A
  core : Node

namespace Replica

variable {A : Type} (addressEqual : A → A → Bool)

/-- The core hears of a config change that the membership accepted. -/
def peerApplyConfigChange (core : Node) (cc : ConfigChange A) : Except Fault Node :=
  -- the id of no replica stands for no change
  if cc.replicaID = 0 then .ok { core with pendingConfigChange := false }
  else core.handle { type := .configChangeEvent, hint := cc.replicaID, hintHigh := cc.type.number }

def rejectConfigChange (core : Node) : Except Fault Node :=
  if core.cfg.isWitness then .ok core else core.handle { type := .configChangeEvent, reject := true }

def applyConfigChange (core : Node) (cc : ConfigChange A) (rejected : Bool) : Except Fault Node :=
  if !rejected then peerApplyConfigChange core cc else rejectConfigChange core

def configChange (s : Replica A) (cc : ConfigChange A) (index : ℕ) : Except Fault (Replica A) := do
  let res ← s.members.handleConfigChange addressEqual s.ordered cc index
  let core ← applyConfigChange s.core cc (!res.2)
  .ok { s with members := res.1, core := core }

/-- A snapshot replaces the membership and then the members of the core. -/
def recover (s : Replica A) (ss : Members A) (index term : ℕ) : Except Fault (Replica A) :=
  if ss.configChangeId = 0 then panicked (.unexpected "invalid ConfChangeId")
  else do
    let core ← s.core.handle { type := .snapshotReceived, snapshot := ⟨index, term, ss.ids⟩ }
    .ok { s with members := ss, core := core }

end Replica

inductive MembersEvent (A : Type) where
  /-- a committed config change is applied -/
  | change (cc : ConfigChange A) (index : ℕ)
  /-- a snapshot is recovered whose membership has seen further config changes -/
  | snapshot (ccs : List (ConfigChange A × ℕ)) (index term : ℕ)
  /-- a new process recovers the snapshot on record -/
  | restart (core : Node) (ccs : List (ConfigChange A × ℕ)) (index term : ℕ)

namespace Replica

variable {A : Type} (addressEqual : A → A → Bool)

def step : MembersEvent A → Replica A → Option (Replica A)
  | .change cc index, s => (s.configChange addressEqual cc index).toOption
  | .snapshot ccs index term, s =>
    (s.members.applyAll addressEqual s.ordered ccs >>= fun ss => s.recover ss index term).toOption
  | .restart core ccs index term, s =>
    (Members.empty.applyAll addressEqual s.ordered ccs >>= fun ss =>
      { s with core := core }.recover ss index term).toOption

end Replica

/-! ### How the membership develops -/

namespace Members

variable {A : Type} {addressEqual : A → A → Bool}

def Has (m : Members A) (id : ℕ) : Prop := id ∈ m.addresses ∨ id ∈ m.nonVotings ∨ id ∈ m.witnesses

instance Has.decidable (m : Members A) (id : ℕ) : Decidable (m.Has id) :=
  inferInstanceAs (Decidable (id ∈ m.addresses ∨ id ∈ m.nonVotings ∨ id ∈ m.witnesses))

/-- No replica is a member twice, and none that was removed is a member. -/
structure Disjoint (m : Members A) : Prop where
  addresses : ∀ id ∈ m.addresses, id ∉ m.nonVotings ∧ id ∉ m.witnesses ∧ id ∉ m.removed
  nonVotings : ∀ id ∈ m.nonVotings, id ∉ m.witnesses ∧ id ∉ m.removed
  witnesses : ∀ id ∈ m.witnesses, id ∉ m.removed

theorem disjoint_empty : (empty : Members A).Disjoint := ⟨by simp [empty], by simp [empty], by simp [empty]⟩

/-- What can become of a replica: a learner may be promoted, and a removal is for good. -/
structure Later (m m' : Members A) : Prop where
  addresses : ∀ id ∈ m.addresses, id ∈ m'.addresses ∨ id ∈ m'.removed
  nonVotings : ∀ id ∈ m.nonVotings, id ∈ m'.nonVotings ∨ id ∈ m'.addresses ∨ id ∈ m'.removed
  witnesses : ∀ id ∈ m.witnesses, id ∈ m'.witnesses ∨ id ∈ m'.removed
  removed : ∀ id ∈ m.removed, id ∈ m'.removed

theorem Later.refl (m : Members A) : m.Later m :=
  ⟨fun _ h => .inl h, fun _ h => .inl h, fun _ h => .inl h, fun _ h => h⟩

theorem Later.trans {m1 m2 m3 : Members A} (h1 : m1.Later m2) (h2 : m2.Later m3) : m1.Later m3 where
  addresses id h := (h1.addresses id h).elim (h2.addresses id) fun h => .inr (h2.removed id h)
  nonVotings id h := by
    rcases h1.nonVotings id h with h | h | h
    · exact h2.nonVotings id h
    · exact .inr (h2.addresses id h)
    · exact .inr (.inr (h2.removed id h))
  witnesses id h := (h1.witnesses id h).elim (h2.witnesses id) fun h => .inr (h2.removed id h)
  removed id h := h2.removed id (h1.removed id h)

theorem contains_eq_false_iff {B : Type} {t : OrdMap ℕ B} {id : ℕ} : t.contains id = false ↔ id ∉ t := by
  rw [← Std.ExtTreeMap.contains_iff_mem, Bool.not_eq_true]

variable {ordered : Bool} {index : ℕ}

variable {cc : ConfigChange A} {m : Members A}

theorem accepts_add (h : m.accepts addressEqual ordered cc) (hadd : cc.type.isAdd) :
    cc.replicaID ∉ m.removed ∧ cc.replicaID ∉ m.addresses ∧ (cc.type ≠ .addNode → cc.replicaID ∉ m.nonVotings) ∧
    cc.replicaID ∉ m.witnesses := by
  simp only [accepts, isAddRemovedNode, isAddExistingMember, isAddNodeAsNonVoting, isAddNodeAsWitness,
    isAddWitnessAsNode, isAddWitnessAsNonVoting, isAddNonVotingAsWitness, Bool.and_eq_true, Bool.not_eq_true',
    Bool.or_eq_false_iff] at h
  cases htype : cc.type with
  | removeNode => simp [htype, ConfigChangeType.isAdd] at hadd
  | other => simp [htype, ConfigChangeType.isAdd] at hadd
  | addNode => simp_all [ConfigChangeType.isAdd, contains_eq_false_iff]
  | addNonVoting => simp_all [ConfigChangeType.isAdd, contains_eq_false_iff]
  | addWitness => simp_all [ConfigChangeType.isAdd, contains_eq_false_iff]

variable {m' : Members A}

theorem apply_keeps (hm : m.Disjoint)
    (haccepts : m.accepts addressEqual ordered cc) (happly : m.apply cc index = .ok m') : m'.Disjoint ∧ m.Later m' := by
  obtain ⟨hvoters, hlearners, hwitnesses⟩ := hm
  cases htype : cc.type
  case removeNode =>
    simp only [apply, htype] at happly
    cases happly
    exact ⟨⟨by simp; grind, by simp; grind, by simp; grind⟩,
      ⟨by simp; grind, by simp; grind, by simp; grind, by simp; grind⟩⟩
  case other => simp [apply, htype, panicked] at happly
  all_goals
    obtain ⟨hremoved, haddress, hnonVoting, hwitness⟩ := accepts_add haccepts (by simp [ConfigChangeType.isAdd, htype])
    simp only [apply, htype, Std.ExtTreeMap.contains_iff_mem] at happly
    rw [if_neg (by simp_all)] at happly
    cases happly
    exact ⟨⟨by simp; grind, by simp; grind, by simp; grind⟩, ⟨by simp; grind, by simp; grind, by simp; grind, by simp⟩⟩

theorem handleConfigChange_keeps (hm : m.Disjoint)
    {res : Members A × Bool} (h : m.handleConfigChange addressEqual ordered cc index = .ok res) :
    res.1.Disjoint ∧ m.Later res.1 := by
  simp only [handleConfigChange] at h
  split_ifs at h with haccepts
  · obtain ⟨m', happly, hres⟩ := bind_eq_ok_iff.mp h
    cases hres
    exact apply_keeps hm haccepts happly
  · cases h
    exact ⟨hm, .refl m⟩

theorem applyAll_keeps {ccs : List (ConfigChange A × ℕ)} (hm : m.Disjoint)
    (h : m.applyAll addressEqual ordered ccs = .ok m') : m'.Disjoint ∧ m.Later m' := by
  induction ccs generalizing m with
  | nil =>
    cases h
    exact ⟨hm, .refl _⟩
  | cons c ccs ih =>
    obtain ⟨res, hres, hrest⟩ := bind_eq_ok_iff.mp h
    obtain ⟨hdisjoint, hlater⟩ := handleConfigChange_keeps hm hres
    obtain ⟨hdisjoint', hlater'⟩ := ih hdisjoint hrest
    exact ⟨hdisjoint', hlater.trans hlater'⟩

end Members

/-! ### How the members of the core develop -/

namespace Remotes

variable {rs : Remotes} {id a : ℕ}

def ids (rs : Remotes) : List ℕ := rs.map (·.1)

theorem lookup_isSome : (rs.lookup id).isSome ↔ id ∈ rs.ids := by
  induction rs with
  | nil => simp [ids]
  | cons p rs ih =>
    obtain ⟨b, rp⟩ := p
    by_cases h : id = b
    · simp [ids, h]
    · rw [lookup_cons, show (id == b) = false by simpa using h, ih]
      simp [ids, h]

@[simp] theorem ids_modify (f : Remote → Remote) : (rs.modify id f).ids = rs.ids := by
  simp [ids, modify, Function.comp_def]

@[simp] theorem ids_reset (self lastIndex : ℕ) : (rs.reset self lastIndex).ids = rs.ids := by
  simp [ids, reset, Function.comp_def]

@[simp] theorem ids_restore (members : List ℕ) (self lastIndex : ℕ) :
    (restore members self lastIndex).ids = members := by
  simp [ids, restore, Function.comp_def]

@[simp] theorem mem_ids_remove : a ∈ (rs.remove id).ids ↔ a ≠ id ∧ a ∈ rs.ids := by
  simp only [ids, remove, mem_map, mem_filter, decide_eq_true_eq]
  constructor
  · rintro ⟨p, ⟨hp, hne⟩, rfl⟩
    exact ⟨hne, p, hp, rfl⟩
  · rintro ⟨hne, p, hp, rfl⟩
    exact ⟨p, ⟨hp, hne⟩, rfl⟩

@[simp] theorem mem_ids_set {rp : Remote} : a ∈ (rs.set id rp).ids ↔ a = id ∨ a ∈ rs.ids := by
  rw [set]
  split_ifs with h
  · rw [ids_modify]
    refine ⟨.inr, fun h' => h'.elim (fun heq => ?_) fun h' => h'⟩
    rw [heq]
    exact lookup_isSome.mp h
  · simp only [ids, map_append, map_cons, map_nil, mem_append, mem_singleton]
    exact or_comm

end Remotes

namespace Node

/-- The same members, and the same kind of member itself. -/
structure SameMembers (r r' : Node) : Prop where
  cfg : r'.cfg = r.cfg
  remotes : r'.remotes.ids = r.remotes.ids
  nonVotings : r'.nonVotings.ids = r.nonVotings.ids
  witnesses : r'.witnesses.ids = r.witnesses.ids
  isNonVoting : r'.isNonVoting = r.isNonVoting
  isWitness : r'.isWitness = r.isWitness

theorem SameMembers.refl (r : Node) : r.SameMembers r := ⟨rfl, rfl, rfl, rfl, rfl, rfl⟩

theorem SameMembers.trans {r1 r2 r3 : Node} (h1 : r1.SameMembers r2) (h2 : r2.SameMembers r3) : r1.SameMembers r3 :=
  ⟨h2.cfg.trans h1.cfg, h2.remotes.trans h1.remotes, h2.nonVotings.trans h1.nonVotings,
    h2.witnesses.trans h1.witnesses, h2.isNonVoting.trans h1.isNonVoting, h2.isWitness.trans h1.isWitness⟩

theorem sameMembers_modifyRemote (r : Node) (id : ℕ) (f : Remote → Remote) : r.SameMembers (r.modifyRemote id f) := by
  rw [modifyRemote]
  split_ifs
  · exact ⟨rfl, Remotes.ids_modify f, rfl, rfl, rfl, rfl⟩
  · exact ⟨rfl, rfl, Remotes.ids_modify f, rfl, rfl, rfl⟩
  · exact ⟨rfl, rfl, rfl, Remotes.ids_modify f, rfl, rfl⟩

variable {m : Message} {r r' : Node} {term leaderID : ℕ}

theorem sameMembers_send (h : r.send m = .ok r') : r.SameMembers r' := by
  obtain ⟨_, -, hr⟩ := bind_eq_ok_iff.mp h
  cases hr
  exact ⟨rfl, rfl, rfl, rfl, rfl, rfl⟩

theorem sends_sameMembers : Sends SameMembers :=
  ⟨.refl, .trans, sameMembers_modifyRemote, fun _ _ _ _ => sameMembers_send⟩

theorem sameMembers_tryCommit {res : Node × Bool} (h : r.tryCommit = .ok res) : r.SameMembers res.1 := by
  obtain ⟨_, -, h⟩ := bind_eq_ok_iff.mp h
  split at h
  · cases h
  · obtain ⟨_, -, h⟩ := bind_eq_ok_iff.mp h
    cases h
    exact ⟨rfl, rfl, rfl, rfl, rfl, rfl⟩

theorem becomeFollower_members (h : r.becomeFollower term leaderID = .ok r') :
    r'.cfg = r.cfg ∧ r'.remotes.ids = r.remotes.ids ∧ r'.nonVotings.ids = r.nonVotings.ids ∧
    r'.witnesses.ids = r.witnesses.ids ∧ r'.state = .follower ∧ r.isWitness = false := by
  rw [becomeFollower, toFollowerState] at h
  split_ifs at h with hwitness
  · cases h
  · cases h
    exact ⟨rfl, Remotes.ids_reset _ _, Remotes.ids_reset _ _, Remotes.ids_reset _ _, rfl, by simpa using hwitness⟩

theorem SameMembers.of_becomeFollower (hleader : r.isLeader)
    (h : r.becomeFollower term leaderID = .ok r') : r.SameMembers r' := by
  obtain ⟨hcfg, hremotes, hnonVotings, hwitnesses, hstate, hwitness⟩ := becomeFollower_members h
  rw [isLeader, decide_eq_true_eq] at hleader
  exact ⟨hcfg, hremotes, hnonVotings, hwitnesses, by simp [Node.isNonVoting, hstate, hleader],
    by simp [Node.isWitness, hstate, hleader]⟩

variable {id : ℕ}

theorem sameMembers_stepDownRemoved (h : r.stepDownRemoved id = .ok r') : r.SameMembers r' := by
  rw [stepDownRemoved] at h
  split_ifs at h with hself
  · exact .of_becomeFollower hself.2 h
  · cases h
    exact .refl r

theorem sameMembers_stepDownUnlisted (h : r.stepDownUnlisted = .ok r') : r.SameMembers r' := by
  rw [stepDownUnlisted] at h
  split_ifs at h with hself
  · exact .of_becomeFollower hself.2 h
  · cases h
    exact .refl r

theorem removeNode_members (h : r.removeNode id = .ok r') : ({ r with
      remotes := r.remotes.remove id
      nonVotings := r.nonVotings.remove id
      witnesses := r.witnesses.remove id
      pendingConfigChange := false } : Node).SameMembers r' := by
  obtain ⟨r1, h1, h⟩ := bind_eq_ok_iff.mp h
  refine (sameMembers_stepDownRemoved h1).trans ?_
  have habort : r1.SameMembers (if r1.leaderTransfering ∧ r1.leaderTransferTarget =
    id then r1.abortLeaderTransfer else r1) := by
    split_ifs
    · exact ⟨rfl, rfl, rfl, rfl, rfl, rfl⟩
    · exact .refl r1
  refine habort.trans ?_
  dsimp only at h
  generalize (if r1.leaderTransfering ∧ r1.leaderTransferTarget = id then r1.abortLeaderTransfer else r1) = r2 at h ⊢
  split at h
  · obtain ⟨res, hres, h⟩ := bind_eq_ok_iff.mp h
    refine (sameMembers_tryCommit hres).trans ?_
    split_ifs at h
    · exact sends_sameMembers.broadcastReplicateMessage _ _ h
    · cases h
      exact .refl _
  · cases h
    exact .refl _

/-- A new voter: a learner that is promoted, or a replica that was no member. -/
theorem addNode_members (hid : id ∉ r.remotes.ids) (h : r.addNode id = .ok r') :
    r'.cfg = r.cfg ∧ (∀ a, a ∈ r'.remotes.ids ↔ a = id ∨ a ∈ r.remotes.ids) ∧
    (∀ a, a ∈ r'.nonVotings.ids ↔ a ≠ id ∧ a ∈ r.nonVotings.ids) ∧ r'.witnesses.ids = r.witnesses.ids ∧
    (id ≠ r.replicaID → r'.isNonVoting = r.isNonVoting ∧ r'.isWitness = r.isWitness) ∧
    (id = r.replicaID → r'.isWitness = false ∧ (r'.isNonVoting → r.isNonVoting ∧ id ∉ r.nonVotings.ids)) := by
  simp only [addNode] at h
  rw [if_neg (show ¬ (List.lookup id r.remotes).isSome by rwa [Remotes.lookup_isSome])] at h
  split at h
  case isTrue => cases h
  case isFalse hwitness =>
    split at h
    case h_1 rp hlookup =>
      have hlearner : id ∈ r.nonVotings.ids := Remotes.lookup_isSome.mp (by rw [hlookup]; rfl)
      split at h
      · obtain ⟨hcfg, hremotes, hnonVotings, hwitnesses, hstate, hw⟩ := becomeFollower_members h
        refine ⟨hcfg, fun a => by rw [hremotes]; exact Remotes.mem_ids_set,
          fun a => by rw [hnonVotings]; exact Remotes.mem_ids_remove, hwitnesses,
          fun hne => absurd ‹_› hne, fun _ => ?_⟩
        simp [isWitness, isNonVoting, hstate]
      · cases h
        refine ⟨rfl, fun a => Remotes.mem_ids_set, fun a => Remotes.mem_ids_remove, rfl, fun _ => ⟨rfl, rfl⟩,
          fun hself => absurd hself ‹_›⟩
    case h_2 hlookup =>
      have hlearner : id ∉ r.nonVotings.ids := fun h => by
        rw [← Remotes.lookup_isSome, hlookup] at h
        cases h
      split at h
      · cases h
      · cases h
        refine ⟨rfl, fun a => Remotes.mem_ids_set, fun a => ⟨fun ha => ⟨fun heq => hlearner (heq ▸ ha), ha⟩, And.right⟩,
          rfl, fun _ => ⟨rfl, rfl⟩, fun hself => ⟨?_, fun hn => ⟨hn, hlearner⟩⟩⟩
        simpa [hself, isWitness, replicaID] using hwitness

theorem addNonVoting_members (h : r.addNonVoting id = .ok r') :
    r'.cfg = r.cfg ∧ r'.remotes.ids = r.remotes.ids ∧ (∀ a, a ∈ r'.nonVotings.ids ↔ a = id ∨ a ∈ r.nonVotings.ids) ∧
    r'.witnesses.ids = r.witnesses.ids ∧ r'.isNonVoting = r.isNonVoting ∧ r'.isWitness = r.isWitness ∧
    (id = r.replicaID → r.isNonVoting) := by
  simp only [addNonVoting] at h
  split at h
  · cases h
  · next hself =>
    have hrole (heq : id = r.replicaID) : r.isNonVoting := by simpa [heq, isNonVoting, replicaID] using hself
    split_ifs at h with hmember <;> cases h
    · exact ⟨rfl, rfl, fun a => (or_iff_right_of_imp (· ▸ Remotes.lookup_isSome.mp hmember)).symm, rfl, rfl, rfl, hrole⟩
    · exact ⟨rfl, rfl, fun a => Remotes.mem_ids_set, rfl, rfl, rfl, hrole⟩

theorem addWitness_members (h : r.addWitness id = .ok r') :
    r'.cfg = r.cfg ∧ r'.remotes.ids = r.remotes.ids ∧ r'.nonVotings.ids = r.nonVotings.ids ∧
    (∀ a, a ∈ r'.witnesses.ids ↔ a = id ∨ a ∈ r.witnesses.ids) ∧ r'.isNonVoting = r.isNonVoting ∧
    r'.isWitness = r.isWitness ∧ (id = r.replicaID → r.isWitness) := by
  simp only [addWitness] at h
  split at h
  · cases h
  · next hself =>
    have hrole (heq : id = r.replicaID) : r.isWitness := by simpa [heq, isWitness, replicaID] using hself
    split_ifs at h with hmember <;> cases h
    · exact ⟨rfl, rfl, rfl, fun a => (or_iff_right_of_imp (· ▸ Remotes.lookup_isSome.mp hmember)).symm, rfl, rfl, hrole⟩
    · exact ⟨rfl, rfl, rfl, fun a => Remotes.mem_ids_set, rfl, rfl, hrole⟩

theorem promoteSelf_members {members : List ℕ} (h : r.promoteSelf members = .ok r') :
    r'.cfg = r.cfg ∧ r'.isWitness = r.isWitness ∧ (r'.isNonVoting ↔ r.isNonVoting ∧ r.replicaID ∉ members) := by
  rw [promoteSelf] at h
  split_ifs at h with hself
  · obtain ⟨hcfg, -, -, -, hstate, hwitness⟩ := becomeFollower_members h
    refine ⟨hcfg, by rw [show r.isWitness = false from hwitness]; simp [isWitness, hstate],
      by simp [isNonVoting, hstate, hself.1]⟩
  · cases h
    refine ⟨rfl, rfl, fun hn => ⟨hn, fun hmem => hself ⟨hmem, hn⟩⟩, And.left⟩

/-- A recovered snapshot gives the core its members, and a learner that is among the voters becomes one. -/
theorem restoreRemotes_members {ss : Snapshot} (h : r.restoreRemotes ss = .ok r') :
    r'.cfg = r.cfg ∧ r'.remotes.ids = ss.membership.addresses ∧ r'.nonVotings.ids = ss.membership.nonVotings ∧
    r'.witnesses.ids = ss.membership.witnesses ∧ r'.isWitness = r.isWitness ∧
    (r'.isNonVoting ↔ r.isNonVoting ∧ r.replicaID ∉ ss.membership.addresses) := by
  obtain ⟨r1, h1, h⟩ := bind_eq_ok_iff.mp h
  obtain ⟨hcfg, hwitness, hnonVoting⟩ := promoteSelf_members h1
  split at h
  · cases h
  · obtain ⟨r2, h2, h⟩ := bind_eq_ok_iff.mp h
    cases h
    have hsame := sameMembers_stepDownUnlisted h2
    refine ⟨hsame.cfg.trans hcfg, hsame.remotes.trans (Remotes.ids_restore _ _ _), Remotes.ids_restore _ _ _,
      Remotes.ids_restore _ _ _, hsame.isWitness.trans hwitness, ?_⟩
    exact (iff_of_eq (congrArg (· = true) hsame.isNonVoting)).trans hnonVoting

theorem handle_configChangeEvent (r : Node) (htype : m.type = .configChangeEvent) (hterm : m.term = 0) :
    r.handle m = r.handleNodeConfigChange m := by
  cases hstate : r.state <;>
    simp [handle, handleWith, handleAny, handleBase, onMessageTermNotMatched, isPreVoteMessage, htype, hterm, ok_bind]

theorem handle_snapshotReceived (r : Node) (htype : m.type = .snapshotReceived) (hterm : m.term = 0) :
    r.handle m = r.restoreRemotes m.snapshot := by
  cases hstate : r.state <;>
    simp [handle, handleWith, handleAny, handleBase, onMessageTermNotMatched, isPreVoteMessage, htype, hterm, ok_bind]

end Node

/-! ### Agreement -/

namespace Replica

variable {A : Type} {addressEqual : A → A → Bool}

/-- The core's voters, learners and witnesses are those of the membership, and the replica's
own role is that of the set it is in. -/
structure Agree (s : Replica A) : Prop where
  voters : ∀ id, id ∈ s.core.remotes.ids ↔ id ∈ s.members.addresses
  nonVotings : ∀ id, id ∈ s.core.nonVotings.ids ↔ id ∈ s.members.nonVotings
  witnesses : ∀ id, id ∈ s.core.witnesses.ids ↔ id ∈ s.members.witnesses
  voterRole : s.core.replicaID ∈ s.members.addresses → s.core.isNonVoting = false ∧ s.core.isWitness = false
  nonVotingRole : s.core.replicaID ∈ s.members.nonVotings → s.core.isNonVoting
  witnessRole : s.core.replicaID ∈ s.members.witnesses → s.core.isWitness

/-- The role of the core is one that can come out of a snapshot with this membership. -/
structure Suits (core : Node) (ss : Members A) : Prop where
  voter : core.replicaID ∈ ss.addresses → core.isWitness = false
  nonVoting : core.replicaID ∈ ss.nonVotings → core.isNonVoting
  witness : core.replicaID ∈ ss.witnesses → core.isWitness

variable {ss : Members A} {s : Replica A}

/-- A member keeps a role that suits whatever the membership develops into. -/
theorem Agree.suits (h : s.Agree) (hmember : s.members.Has s.core.replicaID)
    (hss : ss.Disjoint) (hlater : s.members.Later ss) : Suits s.core ss := by
  have haddresses := hss.addresses s.core.replicaID
  have hnonVotings := hss.nonVotings s.core.replicaID
  have hwitnesses := hss.witnesses s.core.replicaID
  rcases hmember with hmember | hmember | hmember
  · obtain ⟨-, hwitness⟩ := h.voterRole hmember
    have := hlater.addresses _ hmember
    refine ⟨fun _ => hwitness, fun hn => ?_, fun hw => ?_⟩
    · grind
    · grind
  · have hrole := h.nonVotingRole hmember
    have := hlater.nonVotings _ hmember
    have hwitness : s.core.isWitness = false := by
      rw [Node.isNonVoting, decide_eq_true_eq] at hrole
      simp [Node.isWitness, hrole]
    refine ⟨fun _ => hwitness, fun _ => hrole, fun hw => ?_⟩
    grind
  · have hrole := h.witnessRole hmember
    have := hlater.witnesses _ hmember
    refine ⟨fun ha => ?_, fun hn => ?_, fun _ => hrole⟩
    · grind
    · grind

variable {index : ℕ} {core : Node}

variable {s' : Replica A}

theorem Agree.recover {term : ℕ} (hss : ss.Disjoint) (hsuits : Suits s.core ss)
    (h : s.recover ss index term = .ok s') : s'.Agree ∧ s'.members = ss := by
  rw [Replica.recover] at h
  split_ifs at h
  · cases h
  · obtain ⟨core, hcore, h⟩ := bind_eq_ok_iff.mp h
    cases h
    rw [Node.handle_snapshotReceived _ rfl rfl] at hcore
    obtain ⟨hcfg, hremotes, hnonVotings, hwitnesses, hwitness, hnonVoting⟩ := Node.restoreRemotes_members hcore
    have hself : core.replicaID = s.core.replicaID := congrArg Config.replicaID hcfg
    refine ⟨⟨fun id => by simp [hremotes, Members.ids], fun id => by simp [hnonVotings, Members.ids],
      fun id => by simp [hwitnesses, Members.ids], fun hm => ?_, fun hm => ?_, fun hm => ?_⟩, rfl⟩
    · simp only [hself] at hm ⊢
      refine ⟨?_, hwitness.trans (hsuits.voter hm)⟩
      rw [← Bool.not_eq_true, hnonVoting]
      simp [Members.ids, hm]
    · simp only [hself] at hm ⊢
      refine hnonVoting.mpr ⟨hsuits.nonVoting hm, fun ha => ?_⟩
      exact (hss.addresses _ (by simpa [Members.ids] using ha)).1 hm
    · simp only [hself] at hm ⊢
      exact hwitness.trans (hsuits.witness hm)

/-- The condition on a step. A change that the membership accepts does not name replica 0,
which the core takes for no change, unless it removes what is no member; and a replica that
is no member yet becomes one in the role it was started in. -/
def Regular (addressEqual : A → A → Bool) : MembersEvent A → Replica A → Prop
  | .change cc _, s => s.members.accepts addressEqual s.ordered cc →
    (cc.replicaID = 0 → cc.type = .removeNode ∧ ¬ s.members.Has 0) ∧
      (cc.type = .addNode → cc.replicaID = s.core.replicaID → cc.replicaID ∉ s.members.nonVotings →
        s.core.isNonVoting = false)
  | .snapshot ccs _ _, s => ¬ s.members.Has s.core.replicaID →
    ∀ ss ∈ (s.members.applyAll addressEqual s.ordered ccs).toOption, Suits s.core ss
  | .restart core ccs _ _, s => ∀ ss ∈ (Members.empty.applyAll addressEqual s.ordered ccs).toOption, Suits core ss

instance Suits.decidable (core : Node) (ss : Members A) : Decidable (Suits core ss) :=
  decidable_of_iff ((core.replicaID ∈ ss.addresses → core.isWitness = false) ∧
    (core.replicaID ∈ ss.nonVotings → core.isNonVoting) ∧ (core.replicaID ∈ ss.witnesses → core.isWitness))
    ⟨fun h => ⟨h.1, h.2.1, h.2.2⟩, fun h => ⟨h.voter, h.nonVoting, h.witness⟩⟩

instance Regular.decidable (addressEqual : A → A → Bool) (e : MembersEvent A) (s : Replica A) :
    Decidable (Regular addressEqual e s) := by
  cases e <;> unfold Regular <;> infer_instance

section
variable {s : Replica A} {cc : ConfigChange A} {members : Members A}

theorem Agree.addNode (h : s.Agree) (htype : cc.type = .addNode)
    (haccepts : s.members.accepts addressEqual s.ordered cc)
    (hstarted : cc.replicaID = s.core.replicaID → cc.replicaID ∉ s.members.nonVotings → s.core.isNonVoting = false)
    (happly : s.members.apply cc index = .ok members) (hcore : s.core.addNode cc.replicaID = .ok core) :
    ({ s with members := members, core := core } : Replica A).Agree := by
  obtain ⟨-, haddress, -, hwitness⟩ := Members.accepts_add haccepts (by simp [ConfigChangeType.isAdd, htype])
  simp only [Members.apply, htype, Std.ExtTreeMap.contains_iff_mem, hwitness, if_false] at happly
  cases happly
  obtain ⟨hcfg, hremotes, hnonVotings, hwitnesses, hother, hself⟩ :=
    Node.addNode_members (fun hm => haddress ((h.voters _).mp hm)) hcore
  have heq : core.replicaID = s.core.replicaID := congrArg Config.replicaID hcfg
  refine ⟨fun id => ?_, fun id => ?_, fun id => ?_, fun hm => ?_, fun hm => ?_, fun hm => ?_⟩
  · simp [hremotes, h.voters, @eq_comm _ id]
  · simp [hnonVotings, h.nonVotings, @eq_comm _ id]
  · simp [hwitnesses, h.witnesses]
  · by_cases hcc : cc.replicaID = s.core.replicaID
    · obtain ⟨hw, hn⟩ := hself hcc
      refine ⟨?_, hw⟩
      rw [← Bool.not_eq_true]
      intro hlearner
      obtain ⟨hlearner, hnot⟩ := hn hlearner
      rw [hstarted hcc fun hm => hnot ((h.nonVotings _).mpr hm)] at hlearner
      cases hlearner
    · obtain ⟨hn, hw⟩ := hother hcc
      simp only [heq, mem_insert, compare_eq_iff_eq, hcc, false_or] at hm
      simpa only [hn, hw] using h.voterRole hm
  · simp only [heq, mem_erase, ne_eq, compare_eq_iff_eq] at hm
    exact (hother hm.1).1.trans (h.nonVotingRole hm.2)
  · simp only [heq] at hm
    exact (hother fun hcc => hwitness (hcc ▸ hm)).2.trans (h.witnessRole hm)

theorem Agree.removeNode (h : s.Agree) (htype : cc.type = .removeNode) (happly : s.members.apply cc index = .ok members)
    (hcore : s.core.removeNode cc.replicaID = .ok core) :
    ({ s with members := members, core := core } : Replica A).Agree := by
  simp only [Members.apply, htype] at happly
  cases happly
  have hsame := Node.removeNode_members hcore
  have heq : core.replicaID = s.core.replicaID := congrArg Config.replicaID hsame.cfg
  refine ⟨fun id => ?_, fun id => ?_, fun id => ?_, fun hm => ?_, fun hm => ?_, fun hm => ?_⟩
  · simp [hsame.remotes, h.voters, @eq_comm _ id]
  · simp [hsame.nonVotings, h.nonVotings, @eq_comm _ id]
  · simp [hsame.witnesses, h.witnesses, @eq_comm _ id]
  · simp only [heq, hsame.isNonVoting, hsame.isWitness] at hm ⊢
    exact h.voterRole (mem_of_mem_erase hm)
  · simp only [heq, hsame.isNonVoting] at hm ⊢
    exact h.nonVotingRole (mem_of_mem_erase hm)
  · simp only [heq, hsame.isWitness] at hm ⊢
    exact h.witnessRole (mem_of_mem_erase hm)

theorem Agree.addNonVoting (h : s.Agree) (htype : cc.type = .addNonVoting)
    (haccepts : s.members.accepts addressEqual s.ordered cc) (happly : s.members.apply cc index = .ok members)
    (hcore : s.core.addNonVoting cc.replicaID = .ok core) :
    ({ s with members := members, core := core } : Replica A).Agree := by
  obtain ⟨-, haddress, -, hwitness⟩ := Members.accepts_add haccepts (by simp [ConfigChangeType.isAdd, htype])
  simp only [Members.apply, htype, Std.ExtTreeMap.contains_iff_mem, haddress, if_false] at happly
  cases happly
  obtain ⟨hcfg, hremotes, hnonVotings, hwitnesses, hrole, hrole', hself⟩ := Node.addNonVoting_members hcore
  have heq : core.replicaID = s.core.replicaID := congrArg Config.replicaID hcfg
  refine ⟨fun id => ?_, fun id => ?_, fun id => ?_, fun hm => ?_, fun hm => ?_, fun hm => ?_⟩
  · simp [hremotes, h.voters]
  · simp [hnonVotings, h.nonVotings, @eq_comm _ id]
  · simp [hwitnesses, h.witnesses]
  · simp only [heq, hrole, hrole'] at hm ⊢
    exact h.voterRole hm
  · simp only [heq, hrole, mem_insert, compare_eq_iff_eq] at hm ⊢
    exact hm.elim hself h.nonVotingRole
  · simp only [heq, hrole'] at hm ⊢
    exact h.witnessRole hm

theorem Agree.addWitness (h : s.Agree) (htype : cc.type = .addWitness)
    (haccepts : s.members.accepts addressEqual s.ordered cc) (happly : s.members.apply cc index = .ok members)
    (hcore : s.core.addWitness cc.replicaID = .ok core) :
    ({ s with members := members, core := core } : Replica A).Agree := by
  obtain ⟨-, haddress, hnonVoting, -⟩ := Members.accepts_add haccepts (by simp [ConfigChangeType.isAdd, htype])
  have hnonVoting := hnonVoting (by simp [htype])
  simp only [Members.apply, htype, Std.ExtTreeMap.contains_iff_mem, haddress, hnonVoting, or_self, if_false] at happly
  cases happly
  obtain ⟨hcfg, hremotes, hnonVotings, hwitnesses, hrole, hrole', hself⟩ := Node.addWitness_members hcore
  have heq : core.replicaID = s.core.replicaID := congrArg Config.replicaID hcfg
  refine ⟨fun id => ?_, fun id => ?_, fun id => ?_, fun hm => ?_, fun hm => ?_, fun hm => ?_⟩
  · simp [hremotes, h.voters]
  · simp [hnonVotings, h.nonVotings]
  · simp [hwitnesses, h.witnesses, @eq_comm _ id]
  · simp only [heq, hrole, hrole'] at hm ⊢
    exact h.voterRole hm
  · simp only [heq, hrole] at hm ⊢
    exact h.nonVotingRole hm
  · simp only [heq, hrole', mem_insert, compare_eq_iff_eq] at hm ⊢
    exact hm.elim hself h.witnessRole

theorem Agree.accepted (h : s.Agree)
    (haccepts : s.members.accepts addressEqual s.ordered cc) (hregular : Regular addressEqual (.change cc index) s)
    (happly : s.members.apply cc index = .ok members) (hcore : peerApplyConfigChange s.core cc = .ok core) :
    ({ s with members := members, core := core } : Replica A).Agree := by
  obtain ⟨hzero, hstarted⟩ := hregular haccepts
  rw [peerApplyConfigChange] at hcore
  split_ifs at hcore with hid
  · -- the core ignores the change, and so it must be one without an effect
    cases hcore
    obtain ⟨htype, hmember⟩ := hzero hid
    simp only [Members.apply, htype] at happly
    cases happly
    rw [Members.Has, ← hid] at hmember
    refine ⟨fun id => ?_, fun id => ?_, fun id => ?_, fun hm => ?_, fun hm => ?_, fun hm => ?_⟩
    · simpa using (h.voters id).trans ⟨fun hm => ⟨fun heq => hmember (.inl (by rwa [heq])), hm⟩, And.right⟩
    · simpa using (h.nonVotings id).trans ⟨fun hm => ⟨fun heq => hmember (.inr (.inl (by rwa [heq]))), hm⟩, And.right⟩
    · simpa using (h.witnesses id).trans ⟨fun hm => ⟨fun heq => hmember (.inr (.inr (by rwa [heq]))), hm⟩, And.right⟩
    · exact h.voterRole (mem_of_mem_erase hm)
    · exact h.nonVotingRole (mem_of_mem_erase hm)
    · exact h.witnessRole (mem_of_mem_erase hm)
  · rw [Node.handle_configChangeEvent _ rfl rfl, Node.handleNodeConfigChange, if_neg (by simp)] at hcore
    cases htype : cc.type with
    | addNode =>
      simp only [htype, ConfigChangeType.number] at hcore
      exact h.addNode htype haccepts (hstarted htype) happly hcore
    | removeNode =>
      simp only [htype, ConfigChangeType.number] at hcore
      exact h.removeNode htype happly hcore
    | addNonVoting =>
      simp only [htype, ConfigChangeType.number] at hcore
      exact h.addNonVoting htype haccepts happly hcore
    | addWitness =>
      simp only [htype, ConfigChangeType.number] at hcore
      exact h.addWitness htype haccepts happly hcore
    | other => simp [Members.apply, htype, panicked] at happly

end

theorem Agree.rejected (h : s.Agree) (hcore : rejectConfigChange s.core = .ok core) :
    ({ s with core := core } : Replica A).Agree := by
  rw [rejectConfigChange] at hcore
  split_ifs at hcore
  · cases hcore
    exact h
  · rw [Node.handle_configChangeEvent _ rfl rfl, Node.handleNodeConfigChange, if_pos rfl] at hcore
    cases hcore
    exact ⟨h.voters, h.nonVotings, h.witnesses, h.voterRole, h.nonVotingRole, h.witnessRole⟩

/-- One step of a run keeps the agreement and the order in the membership. -/
theorem Agree.step {e : MembersEvent A} (h : s.Agree ∧ s.members.Disjoint)
    (hregular : Regular addressEqual e s) (hstep : Replica.step addressEqual e s = some s') :
    s'.Agree ∧ s'.members.Disjoint := by
  obtain ⟨hagree, hdisjoint⟩ := h
  cases e with
  | change cc index =>
    have hstep : s.configChange addressEqual cc index = .ok s' := toOption_eq_some.mp hstep
    obtain ⟨res, hres, hstep⟩ := bind_eq_ok_iff.mp hstep
    have hkept := (Members.handleConfigChange_keeps hdisjoint hres).1
    obtain ⟨core, hcore, hstep⟩ := bind_eq_ok_iff.mp hstep
    cases hstep
    refine ⟨?_, hkept⟩
    rw [Members.handleConfigChange] at hres
    split_ifs at hres with haccepts
    · obtain ⟨members, happly, hres⟩ := bind_eq_ok_iff.mp hres
      cases hres
      exact hagree.accepted haccepts hregular happly hcore
    · cases hres
      exact hagree.rejected hcore
  | snapshot ccs index term =>
    obtain ⟨ss, hss, hrecover⟩ := bind_eq_ok_iff.mp (toOption_eq_some.mp hstep)
    obtain ⟨hssDisjoint, hlater⟩ := Members.applyAll_keeps hdisjoint hss
    have hsuits : Suits s.core ss := by
      by_cases hmember : s.members.Has s.core.replicaID
      · exact hagree.suits hmember hssDisjoint hlater
      · exact hregular hmember ss (toOption_eq_some.mpr hss)
    obtain ⟨hagree', rfl⟩ := Agree.recover hssDisjoint hsuits hrecover
    exact ⟨hagree', hssDisjoint⟩
  | restart core ccs index term =>
    obtain ⟨ss, hss, hrecover⟩ := bind_eq_ok_iff.mp (toOption_eq_some.mp hstep)
    obtain ⟨hssDisjoint, -⟩ := Members.applyAll_keeps Members.disjoint_empty hss
    obtain ⟨hagree', rfl⟩ := Agree.recover hssDisjoint (hregular ss (toOption_eq_some.mpr hss)) hrecover
    exact ⟨hagree', hssDisjoint⟩

/-- From any state that config changes lead to and in which they agree, the core and the
membership agree after every config change and every recovered snapshot. -/
theorem core_agrees_with_membership (history : List (ConfigChange A × ℕ)) (s : Replica A)
    (hhistory : Members.empty.applyAll addressEqual s.ordered history = .ok s.members) (hagree : s.Agree)
    (es : List (MembersEvent A)) (hregular : Throughout (Replica.step addressEqual) (Regular addressEqual) es s)
    (s' : Replica A) (hrun : runMachine (Replica.step addressEqual) es s = some s') : s'.Agree := by
  have hstart : s.Agree ∧ s.members.Disjoint := ⟨hagree, (Members.applyAll_keeps Members.disjoint_empty hhistory).1⟩
  exact (runMachine_keeps_of (fun _ _ _ hregular h hstep => Agree.step h hregular hstep) hregular hstart hrun).1

/-- The core of a follower with the given voters and learners. -/
def follower (self : ℕ) (voters learners : List ℕ) : Node where
  cfg := ⟨self, 10, 1, false, false, false, false, ⟨1000, 1000, 10, by decide⟩, fun _ => 0⟩
  state := .follower
  term := 1
  vote := 0
  applied := 0
  leaderID := 0
  votes := []
  log := newEntryLog ⟨emptyState, emptySnapshot, 0, 0, []⟩
  remotes := .restore voters self 0
  nonVotings := .restore learners self 0
  witnesses := []
  readIndex := []
  msgs := []
  droppedReadIndexes := []
  droppedEntries := []
  readyToRead := []
  leaderUpdate := none
  leaderTransferTarget := 0
  tickCount := 0
  electionTick := 0
  heartbeatTick := 0
  randomizedElectionTimeout := 10
  draws := 0
  snapshotting := false
  quiesce := false
  isLeaderTransferTarget := false
  pendingConfigChange := false

/-- Replica 1 of a shard that was started with two replicas. -/
def twoReplicas : Replica String :=
  ⟨false, ⟨2, (∅ : OrdMap ℕ String).insert 1 "a" |>.insert 2 "b", ∅, ∅, ∅⟩, follower 1 [1, 2] []⟩

def twoReplicas_history : List (ConfigChange String × ℕ) :=
  [(⟨0, .addNode, 1, "a", true⟩, 1), (⟨0, .addNode, 2, "b", true⟩, 2)]

theorem twoReplicas_agree : twoReplicas.Agree := by
  refine ⟨fun id => ?_, fun id => ?_, fun id => ?_, fun _ => ⟨rfl, rfl⟩, fun h => ?_, fun h => ?_⟩
  · simp [twoReplicas, follower, @eq_comm _ id, or_comm]
  · simp [twoReplicas, follower]
  · simp [twoReplicas, follower, Remotes.ids]
  · simp [twoReplicas] at h
  · simp [twoReplicas] at h

theorem twoReplicas_bootstrapped :
    Members.empty.applyAll (· == ·) twoReplicas.ordered twoReplicas_history = .ok twoReplicas.members := by
  rfl

/-- A learner is added and promoted, and the replica itself is removed. -/
def promotion : List (MembersEvent String) :=
  [.change ⟨0, .addNonVoting, 3, "c", false⟩ 3, .change ⟨0, .addNode, 3, "c", false⟩ 4,
    .change ⟨0, .removeNode, 1, "", false⟩ 5]

theorem core_agrees_with_membership_promotion :
    ∃ s', runMachine (Replica.step (· == ·)) promotion twoReplicas = some s' ∧
      s'.core.remotes.ids = [2, 3] ∧ s'.Agree := by
  have hmembers : (runMachine (Replica.step (· == ·)) promotion twoReplicas).map (·.core.remotes.ids) =
      some [2, 3] := by decide +kernel
  obtain ⟨s', hs', hids⟩ := Option.map_eq_some_iff.mp hmembers
  exact ⟨s', hs', hids, core_agrees_with_membership twoReplicas_history twoReplicas twoReplicas_bootstrapped
    twoReplicas_agree promotion (by decide +kernel) s' hs'⟩

/-- Replica 0 is added to the membership and not to the core. -/
theorem replica_zero_only_in_membership :
    Members.empty.applyAll (· == ·) twoReplicas.ordered twoReplicas_history = .ok twoReplicas.members ∧
    twoReplicas.Agree ∧ ∃ s' : Replica String,
      runMachine (Replica.step (· == ·)) [.change ⟨2, .addNode, 0, "c", false⟩ 3] twoReplicas = some s' ∧
        ¬ s'.Agree := by
  obtain ⟨s', hs'⟩ : ∃ s',
    runMachine (Replica.step (· == ·)) [.change ⟨2, .addNode, 0, "c", false⟩ 3] twoReplicas = some s' :=
    Option.isSome_iff_exists.mp (by decide +kernel)
  have hcore : (runMachine (Replica.step (· == ·)) [.change ⟨2, .addNode, 0, "c", false⟩ 3] twoReplicas).map
      (fun s => (s.core.remotes.ids, s.members.addresses.contains 0)) = some ([1, 2], true) := by decide +kernel
  rw [hs'] at hcore
  obtain ⟨hids, hcontains⟩ := Prod.mk.injEq _ _ _ _ ▸ Option.some.inj hcore
  refine ⟨twoReplicas_bootstrapped, twoReplicas_agree, s', hs', fun hagree => ?_⟩
  have hmem := (hagree.voters 0).mpr (Std.ExtTreeMap.contains_iff_mem.mp hcontains)
  rw [hids] at hmem
  exact absurd hmem (by decide)

end Replica

end Armada.Raft
