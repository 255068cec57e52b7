import Armada.Raft.Rounds

/-! What an update carries out of the core, and what becomes of it when the update is
committed. The apply worker may change the members between the two; whatever the core puts
out then lands in buffers that the commit clears. -/

namespace Armada.Raft

open Program List

/-- The buffers that an update hands out. -/
structure Outputs where
  messages : List Message
  leaderUpdate : Option LeaderUpdate
  droppedEntries : List Entry
  droppedReadIndexes : List SystemCtx
  readyToReads : List ReadyToRead

namespace Outputs

def none : Outputs := ⟨[], .none, [], [], []⟩

/-- What came after the outputs `before`. -/
def since (now before : Outputs) : Outputs where
  messages := now.messages.drop before.messages.length
  leaderUpdate := if now.leaderUpdate = before.leaderUpdate then .none else now.leaderUpdate
  droppedEntries := now.droppedEntries.drop before.droppedEntries.length
  droppedReadIndexes := now.droppedReadIndexes.drop before.droppedReadIndexes.length
  readyToReads := now.readyToReads.drop before.readyToReads.length

/-- All of `o` is part of `o'`. -/
structure Within (o o' : Outputs) : Prop where
  messages : o.messages ⊆ o'.messages
  leaderUpdate : o.leaderUpdate = .none ∨ o.leaderUpdate = o'.leaderUpdate
  droppedEntries : o.droppedEntries ⊆ o'.droppedEntries
  droppedReadIndexes : o.droppedReadIndexes ⊆ o'.droppedReadIndexes
  readyToReads : o.readyToReads ⊆ o'.readyToReads

/-- There are only more messages, and a new leader in the place of an older one. -/
structure Extends (o o' : Outputs) : Prop where
  messages : o.messages <+: o'.messages
  leaderUpdate : o'.leaderUpdate = o.leaderUpdate ∨ o'.leaderUpdate.isSome
  droppedEntries : o'.droppedEntries = o.droppedEntries
  droppedReadIndexes : o'.droppedReadIndexes = o.droppedReadIndexes
  readyToReads : o'.readyToReads = o.readyToReads

theorem Extends.refl (o : Outputs) : Extends o o := ⟨prefix_rfl, .inl rfl, rfl, rfl, rfl⟩

theorem Extends.trans {o1 o2 o3 : Outputs} (h1 : Extends o1 o2) (h2 : Extends o2 o3) : Extends o1 o3 where
  messages := h1.messages.trans h2.messages
  leaderUpdate := by
    rcases h2.leaderUpdate with hsame | hsome
    · rw [hsame]
      exact h1.leaderUpdate
    · exact .inr hsome
  droppedEntries := h2.droppedEntries.trans h1.droppedEntries
  droppedReadIndexes := h2.droppedReadIndexes.trans h1.droppedReadIndexes
  readyToReads := h2.readyToReads.trans h1.readyToReads

theorem within_of_none (o : Outputs) : none.Within o :=
  ⟨nil_subset _, .inl rfl, nil_subset _, nil_subset _, nil_subset _⟩

theorem since_eq {now before : Outputs} (h : before.Extends now) :
    now.since before = { none with messages := (now.since before).messages, leaderUpdate := (now.since
    before).leaderUpdate } := by
  simp only [since, none, h.droppedEntries, h.droppedReadIndexes, h.readyToReads, drop_length]

end Outputs

def Node.outputs (r : Node) : Outputs :=
  ⟨r.msgs, r.leaderUpdate, r.droppedEntries, r.droppedReadIndexes, r.readyToRead⟩

def Update.outputs (ud : Update) : Outputs :=
  ⟨ud.messages, ud.leaderUpdate, ud.droppedEntries, ud.droppedReadIndexes, ud.readyToReads⟩

theorem Peer.getUpdate_outputs {p : Peer} {moreToApply : Bool} {lastApplied : ℕ} {ud : Update}
    (h : p.getUpdate moreToApply lastApplied = .ok ud) : ud.outputs = p.raft.outputs := by
  obtain ⟨ents, -, h⟩ := bind_eq_ok_iff.mp h
  obtain ⟨-, -, h⟩ := bind_eq_ok_iff.mp h
  cases h
  rfl

theorem Peer.getUpdate_idle (p : Peer) (lastApplied : ℕ) :
    p.getUpdate false lastApplied = .ok (p.collect [] lastApplied).setFastApply := rfl

/-! ### Changes of the members -/

namespace Node

variable {r r' : Node}

/-- What the core puts out comes on top of what is there. -/
def Emits (r r' : Node) : Prop := r.outputs.Extends r'.outputs

theorem Emits.refl (r : Node) : Emits r r := Outputs.Extends.refl _

theorem Emits.same (h : r'.outputs = r.outputs) : Emits r r' := by
  unfold Emits
  rw [h]
  exact Outputs.Extends.refl _

theorem emits_send (r : Node) (m : Message) : Yields (r.send m) (Emits r) := by
  refine (yields_send r m).mono fun r' h => ?_
  obtain ⟨m', rfl, -⟩ := h
  exact ⟨prefix_append _ _, .inl rfl, rfl, rfl, rfl⟩

theorem emits_modifyRemote (r : Node) (id : ℕ) (f : Remote → Remote) : Emits r (r.modifyRemote id f) := by
  rw [modifyRemote]
  split_ifs
  · exact .same rfl
  · exact .same rfl
  · exact .same rfl

theorem sends_emits : Sends Emits :=
  ⟨Emits.refl, Outputs.Extends.trans, emits_modifyRemote, fun r m _ => emits_send r m⟩

theorem reconfigures_emits : Reconfigures Emits where
  toSends := sends_emits
  set _ _ _ _ _ _ := .same rfl
  becomeFollower r leaderID := by
    unfold becomeFollower toFollowerState
    exact .ite (fun _ => .error _) fun _ => .ok ⟨prefix_rfl, .inr rfl, rfl, rfl, rfl⟩
  tryCommit r := by
    unfold tryCommit
    refine .skip fun _ => ?_
    split
    · exact .error _
    · exact .skip fun res => .ok (.same rfl)

end Node

/-- What may happen to the core between an update and its commit. -/
inductive Between (A : Type) where
  /-- the apply worker applies a config change, which the membership may have rejected -/
  | change (cc : ConfigChange A) (rejected : Bool)
  /-- the log reader gets or forgets entries -/
  | reader (logdb : LogDB)
  | applied (index : ℕ)

def Between.run {A : Type} (r : Node) : Between A → Except Fault Node
  | .change cc rejected => Replica.applyConfigChange r cc rejected
  | .reader logdb => .ok { r with log := { r.log with logdb := logdb } }
  | .applied index => .ok { r with applied := index }

theorem emits_between {A : Type} (r : Node) (b : Between A) : Yields (b.run r) (Node.Emits r) := by
  have hevent (m : Message) (htype : m.type = .configChangeEvent) (hterm : m.term = 0) :
      Yields (r.handle m) (Node.Emits r) := by
    rw [Node.handle_configChangeEvent r htype hterm]
    exact Node.reconfigures_emits.handleNodeConfigChange r m
  cases b with
  | change cc rejected =>
    refine .ite (fun _ => .ite (fun _ => .ok (.same rfl)) fun _ => hevent _ rfl rfl) fun _ =>
      .ite (fun _ => .ok (.refl r)) fun _ => hevent _ rfl rfl
  | reader logdb => exact .ok (.same rfl)
  | applied index => exact .ok (.same rfl)

/-! ### Committing the update -/

/-- Nothing is left in the buffers, except reads that became ready when the update had none. -/
theorem Peer.commit_outputs {p p' : Peer} {ud : Update} (h : p.commit ud = .ok p') :
    p'.raft.outputs =
      { Outputs.none with readyToReads := if ud.readyToReads = [] then p.raft.readyToRead else [] } := by
  obtain ⟨log, -, h⟩ := bind_eq_ok_iff.mp h
  cases h
  rfl

/-- What config changes make the core put out between an update and its commit adds to the
buffers, and it is part of the next update if and only if there is nothing of it. -/
theorem between_survives_iff {A : Type} (p : Peer) (moreToApply : Bool) (lastApplied : ℕ) (ud : Update)
    (hud : p.getUpdate moreToApply lastApplied = .ok ud) (bs : List (Between A)) (r : Node)
    (hr : Node.forEach Between.run bs p.raft = .ok r) (p' : Peer) (hcommit : Peer.commit ⟨r, p.prevState⟩ ud = .ok p') :
    ud.outputs.Extends r.outputs ∧ ((∀ moreToApply lastApplied ud', p'.getUpdate moreToApply lastApplied = .ok ud' →
        (r.outputs.since ud.outputs).Within ud'.outputs) ↔ r.outputs.since ud.outputs = .none) := by
  have hextends : ud.outputs.Extends r.outputs := by
    rw [p.getUpdate_outputs hud]
    exact Node.sends_emits.forEach emits_between bs p.raft r hr
  refine ⟨hextends, fun hsurvives => ?_, fun hnone _ _ ud' _ => ?_⟩
  · have hnext := hsurvives false 0 _ (p'.getUpdate_idle 0)
    rw [p'.getUpdate_outputs (p'.getUpdate_idle 0), Peer.commit_outputs hcommit] at hnext
    have hmessages : (r.outputs.since ud.outputs).messages = [] := subset_nil.mp hnext.messages
    have hleader : (r.outputs.since ud.outputs).leaderUpdate = none := hnext.leaderUpdate.elim id id
    rw [Outputs.since_eq hextends, hmessages, hleader]
    rfl
  · rw [hnone]
    exact Outputs.within_of_none _

/-! ### A message that is lost -/

/-- A leader of two voters and a learner, with an entry that the other voter does not have. -/
def leaderOfTwo : Node :=
  { Replica.follower 1 [1, 2] [3] with
    state := .leader
    leaderID := 1
    log := ⟨⟨emptyState, emptySnapshot, 0, 0, []⟩, ⟨none, [⟨1, 1, .application, []⟩], 0, 1, 0, 0⟩, 0, 0⟩
    remotes := [(1, newRemote 1 2), (2, newRemote 0 1)]
    nonVotings := [(3, newRemote 0 1)] }

def removeOther : Between String := .change ⟨0, .removeNode, 2, "", false⟩ false

/-- An update, what happens before its commit, and the update after it. -/
def twoUpdates {A : Type} (p : Peer) (bs : List (Between A)) : Except Fault (Update × Node × Update) := do
  let ud ← p.getUpdate true 0
  let r ← Node.forEach Between.run bs p.raft
  let p ← Peer.commit ⟨r, p.prevState⟩ ud
  let ud' ← p.getUpdate true 0
  .ok (ud, r, ud')

/-- The other voter is removed while an update is under way: the leader commits the entry and
sends it to the learner, and the commit of the update drops that message. -/
theorem replicate_message_lost : (twoUpdates ⟨leaderOfTwo, emptyState⟩ [removeOther]).toOption.map (fun res =>
      ((res.2.1.outputs.since res.1.outputs).messages.map (fun m => (m.type, m.target, m.entries.length)),
        res.2.2.messages.map fun m => (m.type, m.target, m.entries.length))) =
      some ([(.replicate, 3, 1)], []) := by
  decide +kernel

/-- A learner is added, for which nothing is put out. -/
def learnerAdded : List (Between String) := [.change ⟨0, .addNonVoting, 4, "d", false⟩ false, .applied 0]

theorem between_survives_iff_idle : ∃ ud r p', Peer.getUpdate ⟨leaderOfTwo, emptyState⟩ true 0 = .ok ud ∧
      Node.forEach Between.run learnerAdded leaderOfTwo = .ok r ∧ 4 ∈ r.nonVotings.ids ∧
      Peer.commit ⟨r, emptyState⟩ ud = .ok p' ∧ ∀ moreToApply lastApplied ud',
        p'.getUpdate moreToApply lastApplied = .ok ud' → (r.outputs.since ud.outputs).Within ud'.outputs :=
  ⟨_, _, _, rfl, rfl, by decide, rfl, (between_survives_iff
    ⟨leaderOfTwo, emptyState⟩ true 0 _ rfl learnerAdded _ rfl _ rfl).2.mpr rfl⟩

end Armada.Raft
