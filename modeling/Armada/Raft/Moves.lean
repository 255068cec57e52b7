import Armada.Raft.Quiet

/-! What a handler can do to the part of a replica that elections go by, as a sequence of
moves: it enters a term, stands for election, asks for votes, counts one, wins, grants one,
or does none of this. -/

namespace Armada.Raft.Node

open Program List

/-- A role that is neither candidate nor leader, of the same kind of member. -/
def Demoted (old new : Role) : Prop :=
  new ≠ .candidate ∧ new ≠ .leader ∧
    (new = old ∨ old ≠ .nonVoting ∧ old ≠ .witness ∧ new ≠ .nonVoting ∧ new ≠ .witness)

/-- One move of a replica to which the messages `sent` may be delivered. -/
inductive Move (sent : List Message) : Node → Node → Prop where
  | quiet {r r' : Node} : Quiet r r' → Move sent r r'
  | demote {r r' : Node} {term : ℕ} {role : Role} : r.term ≤ term → Demoted r.state role →
      r'.face = { r.face with state := role, term := term, vote := if r.term = term then r.vote else 0, votes := [] } →
      r'.msgs = r.msgs → Move sent r r'
  | stand {r r' : Node} : r.state ≠ .nonVoting → r.state ≠ .witness →
      r'.face = { r.face with
        state := .candidate, term := r.term + 1, vote := r.replicaID, votes := [(r.replicaID, true)] } →
      r'.msgs = r.msgs → Move sent r r'
  | ask {r r' : Node} {extra : List Message} : r.state = .candidate → r'.face = r.face → r'.msgs = r.msgs ++ extra →
      (∀ m ∈ extra, m.type = .requestVote ∧ m.sender = r.replicaID ∧ m.term = r.term ∧
        m.target ∈ r.remotes.ids ++ r.witnesses.ids) → Move sent r r'
  | hear {r r' : Node} {sender : ℕ} {granted : Bool} : r.state = .candidate →
      (granted = true → ∃ m ∈ sent, m.type = .requestVoteResp ∧ m.reject = false ∧ m.sender = sender ∧
        m.target = r.replicaID ∧ m.term = r.term) →
      r'.face = { r.face with votes := (r.addVote sender granted).votes } → r'.msgs = r.msgs → Move sent r r'
  | hearPre {r r' : Node} {votes : List (ℕ × Bool)} : r.state = .preVoteCandidate →
      r'.face = { r.face with votes := votes } → r'.msgs = r.msgs → Move sent r r'
  | win {r r' : Node} : r.state = .candidate → r.votedFor = r.quorum →
      r'.face = { r.face with state := .leader, votes := [] } → r'.msgs = r.msgs → Move sent r r'
  | grant {r r' : Node} {m resp : Message} : m ∈ sent → m.type = .requestVote → m.target = r.replicaID →
      m.term = r.term → (r.vote = 0 ∨ r.vote = m.sender) → r'.face = { r.face with vote := m.sender } →
      r'.msgs = r.msgs ++ [resp] → resp.type = .requestVoteResp → resp.reject = false →
      resp.sender = r.replicaID → resp.target = m.sender → resp.term = r.term → Move sent r r'

abbrev Moves (sent : List Message) : Node → Node → Prop := Relation.ReflTransGen (Move sent)

variable {sent : List Message} {r r' : Node}

theorem Quiet.moves (h : Quiet r r') : Moves sent r r' := .single (.quiet h)

variable {x : Except Fault Node} {f : Node → Except Fault Node} {term : ℕ}

theorem Moves.yields (h : Moves sent r r') (hx : Yields x (Moves sent r')) :
    Yields x (Moves sent r) := hx.mono fun _ h' => h.trans h'

theorem Calm.moves (h : Calm r r') : Moves sent r r' := h.quiet.moves

theorem moves_quiet (hx : Yields x (Quiet r)) : Yields x (Moves sent r) :=
  hx.mono fun _ h => h.moves

theorem moves_after (hx : Yields x (Moves sent r')) (hface : r'.face = r.face)
    (hmsgs : r'.msgs = r.msgs) : Yields x (Moves sent r) :=
  (Quiet.same hface hmsgs).moves.yields hx

theorem moves_calm (hx : Yields x (Calm r)) : Yields x (Moves sent r) := moves_quiet (quiet_calm hx)

theorem moves_then_quiet (hx : Yields x (Moves sent r))
    (hf : ∀ r', Yields (f r') (Quiet r')) : Yields (x >>= f) (Moves sent r) :=
  hx.bind fun r' h => h.yields (moves_quiet (hf r'))

/-! ### State transitions -/

theorem face_reset (r : Node) (term : ℕ) (resetTimeout : Bool) : (r.reset term resetTimeout).face =
    { r.face with term := term, vote := if r.term = term then r.vote else 0, votes := [] } := by
  cases resetTimeout <;> simp [face, reset, resetElectionTimeout, setRandomizedElectionTimeout]

theorem msgs_reset (r : Node) (term : ℕ) (resetTimeout : Bool) : (r.reset term resetTimeout).msgs = r.msgs := by
  cases resetTimeout <;> rfl

theorem moves_toFollowerState (hterm : r.term ≤ term) (hlearner : r.state ≠ .nonVoting) (leaderID : ℕ)
    (resetTimeout : Bool) : Yields (r.toFollowerState term leaderID resetTimeout) (Moves sent r) := by
  unfold toFollowerState
  refine .ite (fun _ => yields_panicked _) fun hwitness => .ok (.single ?_)
  have hwitness' : r.state ≠ .witness := by simpa [isWitness] using hwitness
  have hrole : Demoted r.state .follower := ⟨by decide, by decide, .inr ⟨hlearner, hwitness', by decide, by decide⟩⟩
  exact .demote hterm hrole (face_reset { r with state := .follower } term resetTimeout)
    (msgs_reset { r with state := .follower } term resetTimeout)

theorem moves_becomeFollower (hterm : r.term ≤ term) (hlearner : r.state ≠ .nonVoting) (leaderID : ℕ) :
    Yields (r.becomeFollower term leaderID) (Moves sent r) := moves_toFollowerState hterm hlearner leaderID true

theorem moves_reset (hterm : r.term ≤ term) (hcandidate : r.state ≠ .candidate) (hleader : r.state ≠ .leader)
    (leaderID : ℕ) : Moves sent r ((r.reset term true).setLeaderID leaderID) :=
  .single (.demote hterm ⟨hcandidate, hleader, .inl rfl⟩ (face_reset r term true) (msgs_reset r term true))

theorem moves_enterTerm {m : Message} (hterm : r.term ≤ m.term) : Yields (r.enterTerm m) (Moves sent r) := by
  unfold enterTerm
  refine .ite (fun hlearner => ?_) fun hlearner => .ite (fun hwitness => ?_) fun _ => .ite (fun _ => ?_) fun _ => ?_
  · have hstate : r.state = .nonVoting := by simpa [isNonVoting] using hlearner
    exact .ite (fun _ => yields_panicked _) fun _ => .ok (moves_reset hterm (by simp [hstate]) (by simp [hstate]) _)
  · have hstate : r.state = .witness := by simpa [isWitness] using hwitness
    exact .ite (fun _ => yields_panicked _) fun _ => .ok (moves_reset hterm (by simp [hstate]) (by simp [hstate]) _)
  · exact moves_toFollowerState hterm (by simpa [isNonVoting] using hlearner) _ _
  · exact moves_becomeFollower hterm (by simpa [isNonVoting] using hlearner) _

theorem mayBeCandidate_yields (r : Node) :
    Yields r.mayBeCandidate fun _ => r.state ≠ .leader ∧ r.state ≠ .nonVoting ∧ r.state ≠ .witness := by
  unfold mayBeCandidate
  refine .ite (fun _ => yields_panicked _) fun hleader => .ite (fun _ => yields_panicked _) fun hlearner =>
    .ite (fun _ => yields_panicked _) fun hwitness => .ok ?_
  simpa [isLeader, isNonVoting, isWitness] using And.intro hleader (And.intro hlearner hwitness)

theorem moves_becomeLeader (hstate : r.state = .candidate) (hvotes : r.votedFor = r.quorum) :
    Yields r.becomeLeader (Moves sent r) := by
  unfold becomeLeader
  refine .ite (fun _ => yields_panicked _) fun _ => ?_
  have hwin : Moves sent r (({ r with state := .leader }.reset r.term true).setLeaderID r.replicaID) := by
    refine .single (.win hstate hvotes ?_ (msgs_reset { r with state := .leader } r.term true))
    refine (face_reset { r with state := .leader } r.term true).trans ?_
    rw [if_pos rfl]
    rfl
  refine hwin.yields (moves_quiet ?_)
  exact (calm_preLeaderPromotionHandleConfigChange _).bind fun r' h => h.quiet.yields (quiet_appendEntries r' _)

/-! ### Elections -/

theorem moves_askAll {ids : List ℕ} (hstate : r.state = .candidate)
    (hids : ∀ k ∈ ids, k ∈ r.remotes.ids ++ r.witnesses.ids) {f : Node → ℕ → Message}
    (hf : ∀ r k, (f r k).type = .requestVote ∧ (f r k).term = r.term ∧ (f r k).target = k) :
    Yields (forEach (fun r k => r.send (f r k)) ids r) (Moves sent r) := by
  induction ids generalizing r with
  | nil => exact .ok .refl
  | cons k ids ih =>
    refine (yields_send r (f r k)).bind fun r' h => ?_
    obtain ⟨m', rfl, htype, -, hsender, htarget, -, hterm⟩ := h
    obtain ⟨hf1, hf2, hf3⟩ := hf r k
    rw [forall_mem_cons] at hids
    have hask : Moves sent r { r with msgs := r.msgs ++ [m'] } := by
      refine .single (.ask hstate rfl rfl fun m hm => ?_)
      rw [mem_singleton.mp hm]
      refine ⟨htype.trans hf1, hsender, ?_, by rw [htarget, hf3]; exact hids.1⟩
      rw [hterm, hf1, if_pos (by decide), hf2]
    exact hask.yields (ih hstate hids.2)

theorem becomeCandidate_yields (r : Node) : Yields r.becomeCandidate fun r' =>
    (r.state ≠ .nonVoting ∧ r.state ≠ .witness) ∧ r'.msgs = r.msgs ∧
    r'.face = { r.face with state := .candidate, term := r.term + 1, vote := r.replicaID, votes := [] } := by
  unfold becomeCandidate
  refine (mayBeCandidate_yields r).bind fun _ h => .ok ⟨h.2, ?_, ?_⟩
  · exact msgs_reset { r with state := .candidate } (r.term + 1) true
  · exact congrArg (fun face => { face with vote := r.replicaID : Face })
      (face_reset { r with state := .candidate } (r.term + 1) true)

theorem moves_campaign (r : Node) : Yields r.campaign (Moves sent r) := by
  unfold campaign
  refine (becomeCandidate_yields r).bind fun r1 h => ?_
  obtain ⟨⟨hlearner, hwitness⟩, hmsgs, hface⟩ := h
  have hvotes : r1.votes = [] := congrArg Face.votes hface
  have hid : r1.replicaID = r.replicaID := congrArg (fun face => face.cfg.replicaID) hface
  have hself : (r1.addVote r1.replicaID true).votes = [(r.replicaID, true)] := by simp [addVote, hvotes, hid]
  have hstand : Moves sent r (r1.addVote r1.replicaID true) := by
    refine .single (.stand hlearner hwitness ?_ hmsgs)
    rw [← hself]
    exact congrArg (fun face => { face with votes := (r1.addVote r1.replicaID true).votes : Face }) hface
  have hstate : (r1.addVote r1.replicaID true).state = .candidate := congrArg Face.state hface
  refine hstand.yields (.ite (fun hsingle => ?_) fun _ => ?_)
  · refine moves_becomeLeader hstate ?_
    rw [votedFor, hself]
    exact (of_decide_eq_true hsingle).symm
  · refine .skip fun lastTerm =>
      moves_after (moves_askAll (by exact hstate) (fun k hk => ?_) fun _ _ => ⟨rfl, rfl, rfl⟩)
      rfl rfl
    have hk := (mem_filter.mp hk).1
    rwa [votingMembers, map_append] at hk

theorem moves_becomePreVoteCandidate (r : Node) : Yields r.becomePreVoteCandidate fun r' =>
    Moves sent r r' ∧ r'.state = .preVoteCandidate := by
  unfold becomePreVoteCandidate
  refine .ite (fun _ => yields_panicked _) fun _ => (mayBeCandidate_yields r).bind fun _ h => .ok ⟨.single ?_, ?_⟩
  · have hrole : Demoted r.state .preVoteCandidate := ⟨by decide, by decide, .inr ⟨h.2.1, h.2.2, by decide, by decide⟩⟩
    exact .demote le_rfl hrole (face_reset { r with state := .preVoteCandidate } r.term true)
      (msgs_reset { r with state := .preVoteCandidate } r.term true)
  · exact congrArg Face.state (face_reset { r with state := .preVoteCandidate } r.term true)

theorem moves_preVoteCampaign (r : Node) : Yields r.preVoteCampaign (Moves sent r) := by
  unfold preVoteCampaign
  have hpre : Yields r.becomePreVoteCandidate fun r' => Moves sent r r' ∧ r'.state = .preVoteCandidate :=
    moves_becomePreVoteCandidate r
  refine hpre.bind fun r1 h => ?_
  have hcount : Moves sent r (r1.addVote r1.replicaID true) := h.1.tail (.hearPre h.2 rfl rfl)
  refine hcount.yields (.ite (fun _ => moves_campaign _) fun _ => .skip fun lastTerm => ?_)
  exact moves_calm (calm_forEach (fun _ _ => calm_send (by simp [Bland, electoral])) _ _)

theorem moves_handleNodeElection (r : Node) : Yields r.handleNodeElection (Moves sent r) := by
  unfold handleNodeElection
  exact .ite (fun _ => .ok .refl) fun _ => .ite (fun _ => .ok .refl) fun _ =>
    .ite (fun _ => moves_preVoteCampaign r) fun _ => moves_campaign r

/-! ### Handlers -/

/-- What holds of a message that reaches a handler: a request for a vote or a vote was sent
to the replica in its term, and no message changes the members. -/
structure Reaches (sent : List Message) (mem : Membership) (r : Node) (m : Message) : Prop where
  request : m.type = .requestVote → m ∈ sent ∧ m.target = r.replicaID ∧ m.term = r.term
  response : m.type = .requestVoteResp → m.reject = false → m ∈ sent ∧ m.target = r.replicaID ∧ m.term = r.term
  configChange : m.type = .configChangeEvent → m.reject = true ∨ m.hintHigh = 0 ∧ m.hint ∈ mem.addresses
  snapshot : m.type = .snapshotReceived → m.snapshot.membership = mem

/-- The replica has the members `mem`, and is no learner if it is a voter there. -/
structure Among (mem : Membership) (r : Node) : Prop where
  remotes : r.remotes.ids = mem.addresses
  nonVotings : r.nonVotings.ids = mem.nonVotings
  witnesses : r.witnesses.ids = mem.witnesses
  learner : r.state = .nonVoting → r.replicaID ∉ mem.addresses

variable {mem : Membership} {m : Message}

theorem moves_handleNodeRequestVote (hm : Reaches sent mem r m) (htype : m.type = .requestVote) :
    Yields (r.handleNodeRequestVote m) (Moves sent r) := by
  unfold handleNodeRequestVote
  obtain ⟨hsent, htarget, hterm⟩ := hm.request htype
  refine .skip fun isUpToDate => .ite (fun hgrant => ?_) fun _ =>
    moves_quiet (quiet_send ⟨by simp, by simp, by simp, by simp⟩)
  refine (yields_send _ _).mono fun r' h => .single ?_
  obtain ⟨resp, rfl, hrtype, hreject, hsender, hrtarget, -, hrterm⟩ := h
  have hvote : r.vote = 0 ∨ r.vote = m.sender := by
    have hcan := of_decide_eq_true hgrant.1
    omega
  refine .grant hsent htype htarget hterm hvote rfl rfl hrtype hreject hsender hrtarget ?_
  rw [hrterm, if_neg (by simp [isRequestMessage, isRequestVoteMessage])]

theorem moves_becomeFollower_then (hterm : r.term ≤ term) (hlearner : r.state ≠ .nonVoting) (leaderID : ℕ)
    (hf : ∀ r', Yields (f r') (Quiet r')) : Yields (r.becomeFollower term leaderID >>= f) (Moves sent r) :=
  moves_then_quiet (moves_becomeFollower hterm hlearner leaderID) hf

theorem moves_handleCandidateRequestVoteResp (hm : Reaches sent mem r m) (hstate : r.state = .candidate)
    (htype : m.type = .requestVoteResp) : Yields (r.handleCandidateRequestVoteResp m) (Moves sent r) := by
  unfold handleCandidateRequestVoteResp
  refine .ite (fun _ => .ok .refl) fun _ => ?_
  have hhear : Moves sent r (r.addVote m.sender !m.reject) := by
    refine .single (.hear hstate (fun hgranted => ?_) rfl rfl)
    have hreject : m.reject = false := by simpa using hgranted
    obtain ⟨hsent, htarget, hterm⟩ := hm.response htype hreject
    exact ⟨m, hsent, htype, hreject, rfl, htarget, hterm⟩
  refine hhear.yields (.ite (fun hquorum => ?_) fun _ => .ite (fun _ => ?_) fun _ => .ok .refl)
  · exact moves_then_quiet (moves_becomeLeader hstate hquorum) fun r' => quiet_calm (calm_broadcastReplicateMessage r')
  · exact moves_becomeFollower le_rfl (by simp [addVote, hstate]) 0

theorem moves_handlePreVoteCandidateRequestPreVoteResp (hstate : r.state = .preVoteCandidate) :
    Yields (r.handlePreVoteCandidateRequestPreVoteResp m) (Moves sent r) := by
  unfold handlePreVoteCandidateRequestPreVoteResp
  refine .ite (fun _ => .ok .refl) fun _ => ?_
  have hhear : Moves sent r (r.addVote m.sender !m.reject) := .single (.hearPre hstate rfl rfl)
  refine hhear.yields (.ite (fun _ => moves_campaign _) fun _ => .ite (fun _ => ?_) fun _ => .ok .refl)
  exact moves_becomeFollower le_rfl (by simp [addVote, hstate]) 0

theorem moves_handleLeaderCheckQuorum (hstate : r.state = .leader) :
    Yields r.handleLeaderCheckQuorum (Moves sent r) := by
  unfold handleLeaderCheckQuorum
  refine .skip fun _ => .ite (fun _ => .ok (calm_leaderHasQuorum r).moves) fun _ => ?_
  refine (calm_leaderHasQuorum r).moves.yields (moves_becomeFollower le_rfl ?_ 0)
  rw [show r.leaderHasQuorum.1.state = r.state from rfl, hstate]
  decide

theorem moves_stepDownUnlisted (r : Node) : Yields r.stepDownUnlisted (Moves sent r) := by
  unfold stepDownUnlisted
  refine .ite (fun h => moves_becomeFollower le_rfl ?_ 0) fun _ => .ok .refl
  rw [of_decide_eq_true h.2]
  decide

theorem moves_restoreRemotes (hr : Among mem r) {ss : Snapshot} (hss : ss.membership = mem) :
    Yields (r.restoreRemotes ss) (Moves sent r) := by
  unfold restoreRemotes
  have hself : Yields ({ r with remotes := [] }.promoteSelf ss.membership.addresses)
      (· = { r with remotes := [] }) := by
    refine .ite (fun h => absurd ?_ (hr.learner (of_decide_eq_true h.2))) fun _ => .ok rfl
    rw [← hss]
    exact h.1
  refine hself.bind fun r1 h1 => .ite (fun _ => yields_panicked _) fun _ => ?_
  rw [h1]
  intro r' hr'
  obtain ⟨r2, h2, hr'⟩ := bind_eq_ok_iff.mp hr'
  cases hr'
  have hlisted : ({ r with remotes := .restore ss.membership.addresses r.replicaID r.log.lastIndex } : Node).face =
      r.face := by simp [face, hr.remotes, hss]
  have hmembers := sameMembers_stepDownUnlisted h2
  have hstep : Moves sent r r2 := moves_after (moves_stepDownUnlisted _) hlisted rfl r2 h2
  refine hstep.tail (.quiet (.same ?_ rfl))
  have hnonVotings : r2.nonVotings.ids = mem.nonVotings := hmembers.nonVotings.trans hr.nonVotings
  have hwitnesses : r2.witnesses.ids = mem.witnesses := hmembers.witnesses.trans hr.witnesses
  simp [face, hss, hnonVotings, hwitnesses]

theorem moves_handleNodeConfigChange (hr : Among mem r) (hm : m.reject = true ∨ m.hintHigh = 0 ∧
    m.hint ∈ mem.addresses) : Yields (r.handleNodeConfigChange m) (Moves sent r) := by
  unfold handleNodeConfigChange
  refine .ite (fun _ => moves_quiet (.ok (.same rfl rfl))) fun hreject => ?_
  obtain ⟨htype, hid⟩ := hm.resolve_left hreject
  rw [htype]
  rw [← hr.remotes] at hid
  exact .ite (fun _ => yields_panicked _) fun _ =>
    .ite (fun _ => moves_quiet (.ok (.same rfl rfl))) fun habsent => absurd (Remotes.lookup_isSome.mpr hid) habsent

theorem quiet_handleFollower {f : Node → Message → Except Fault Node} (hf : ∀ r, Yields (f r m) (Quiet r)) (r : Node) :
    Yields (f (r.leaderIsAvailable.setLeaderID m.sender) m) (Quiet r) := quiet_after (hf _) rfl rfl

theorem moves_handleBase (hr : Among mem r) (hm : Reaches sent mem r m) : Yields (r.handleBase m) (Moves sent r) := by
  unfold handleBase
  -- one case for each line of the table, in its order
  split
  case h_1 hstate _ | h_2 hstate _ =>
    exact moves_becomeFollower_then le_rfl (by simp [hstate]) _ fun r' => quiet_calm (calm_handleHeartbeatMessage m r')
  case h_3 | h_4 => exact moves_quiet (.ok (.same rfl rfl))
  case h_5 | h_6 => exact moves_quiet (.ok (.same rfl rfl))
  case h_7 hstate _ | h_8 hstate _ =>
    exact moves_becomeFollower_then le_rfl (by simp [hstate]) _ (quiet_handleReplicateMessage m)
  case h_9 hstate _ | h_10 hstate _ =>
    exact moves_becomeFollower_then le_rfl (by simp [hstate]) _ (quiet_handleInstallSnapshotMessage m)
  case h_11 hstate htype => exact moves_handleCandidateRequestVoteResp hm hstate htype
  case h_12 hstate _ => exact moves_handlePreVoteCandidateRequestPreVoteResp hstate
  case h_13 _ htype | h_14 _ htype =>
    exact moves_calm (calm_forward m r (.same rfl rfl rfl) (by simp [Bland, electoral, htype]))
  case h_15 | h_16 | h_17 => exact moves_quiet (quiet_handleFollower (quiet_handleReplicateMessage m) r)
  case h_18 | h_19 | h_20 => exact moves_calm (calm_after (calm_handleHeartbeatMessage m _) rfl rfl rfl)
  case h_21 | h_22 | h_23 => exact moves_quiet (quiet_handleFollower (quiet_handleInstallSnapshotMessage m) r)
  case h_24 _ htype | h_25 _ htype =>
    exact moves_calm (calm_forward m r (.same rfl rfl rfl) (by simp [Bland, electoral, htype]))
  case h_26 | h_27 => exact moves_quiet (.ok (.same rfl rfl))
  case h_28 _ htype =>
    exact moves_calm (calm_forward m r (.refl r) (by simp [Bland, electoral, htype]))
  case h_29 => exact moves_calm (calm_broadcastHeartbeatMessage r)
  case h_30 hstate _ => exact moves_handleLeaderCheckQuorum hstate
  case h_31 => exact moves_quiet (quiet_handleLeaderPropose m r)
  case h_32 => exact moves_calm (calm_handleLeaderReadIndex m r)
  case h_33 => exact moves_calm (calm_lw m (calm_handleLeaderReplicateResp m r))
  case h_34 => exact moves_calm (calm_lw m (calm_handleLeaderHeartbeatResp m r))
  case h_35 => exact moves_calm (calm_lw m (calm_handleLeaderSnapshotStatus m r))
  case h_36 => exact moves_calm (calm_lw m fun rp => .ok (calm_modifyRemote r _ _))
  case h_37 => exact moves_calm (calm_handleLeaderTransfer m r)
  case h_38 | h_39 => exact .ok .refl
  case h_40 => exact moves_handleNodeElection r
  case h_41 htype => exact moves_handleNodeRequestVote hm htype
  case h_42 => exact moves_calm (calm_handleNodeRequestPreVote m r)
  case h_43 htype => exact moves_handleNodeConfigChange hr (hm.configChange htype)
  case h_44 htype => exact moves_restoreRemotes hr (hm.snapshot htype)
  case h_45 => exact .ok .refl

/-! ### Terms -/

theorem Move.members (h : Move sent r r') : r'.cfg = r.cfg ∧ r'.remotes.ids = r.remotes.ids ∧
    r'.nonVotings.ids = r.nonVotings.ids ∧ r'.witnesses.ids = r.witnesses.ids ∧
    (r'.state = .nonVoting ↔ r.state = .nonVoting) ∧ (r'.state = .witness ↔ r.state = .witness) := by
  have hface {face : Face} (heq : r'.face = face) (hcfg : face.cfg = r.cfg) (hremotes : face.remotes = r.remotes.ids)
      (hnonVotings : face.nonVotings = r.nonVotings.ids) (hwitnesses : face.witnesses = r.witnesses.ids)
      (hlearner : face.state = .nonVoting ↔ r.state = .nonVoting) (hwitness : face.state = .witness ↔ r.state =
        .witness) :
      r'.cfg = r.cfg ∧ r'.remotes.ids = r.remotes.ids ∧ r'.nonVotings.ids = r.nonVotings.ids ∧
        r'.witnesses.ids = r.witnesses.ids ∧ (r'.state = .nonVoting ↔ r.state = .nonVoting) ∧
        (r'.state = .witness ↔ r.state = .witness) := by
    cases heq
    exact ⟨hcfg, hremotes, hnonVotings, hwitnesses, hlearner, hwitness⟩
  cases h with
  | quiet h => exact hface h.face rfl rfl rfl rfl Iff.rfl Iff.rfl
  | demote _ hrole h _ =>
    obtain ⟨-, -, rfl | ⟨h1, h2, h3, h4⟩⟩ := hrole
    · exact hface h rfl rfl rfl rfl Iff.rfl Iff.rfl
    · exact hface h rfl rfl rfl rfl (iff_of_false h3 h1) (iff_of_false h4 h2)
  | stand h1 h2 h _ => exact hface h rfl rfl rfl rfl (iff_of_false (by simp) h1) (iff_of_false (by simp) h2)
  | ask _ h _ _ => exact hface h rfl rfl rfl rfl Iff.rfl Iff.rfl
  | hear _ _ h _ => exact hface h rfl rfl rfl rfl Iff.rfl Iff.rfl
  | hearPre _ h _ => exact hface h rfl rfl rfl rfl Iff.rfl Iff.rfl
  | win hstate _ h _ => exact hface h rfl rfl rfl rfl (by simp [hstate]) (by simp [hstate])
  | grant _ _ _ _ _ h => exact hface h rfl rfl rfl rfl Iff.rfl Iff.rfl

theorem Move.among (h : Move sent r r') (hr : Among mem r) : Among mem r' := by
  obtain ⟨hcfg, hremotes, hnonVotings, hwitnesses, hlearner, -⟩ := h.members
  refine ⟨hremotes.trans hr.remotes, hnonVotings.trans hr.nonVotings, hwitnesses.trans hr.witnesses, fun hstate => ?_⟩
  rw [replicaID, hcfg]
  exact hr.learner (hlearner.mp hstate)

theorem Moves.among (h : Moves sent r r') (hr : Among mem r) : Among mem r' ∧ r'.replicaID = r.replicaID := by
  induction h with
  | refl => exact ⟨hr, rfl⟩
  | tail _ hmove ih => exact ⟨hmove.among ih.1, (congrArg Config.replicaID hmove.members.1).trans ih.2⟩

/-- What holds of a message that arrives: a request for a vote or a vote was sent to the
replica in some term. -/
structure Arrives (sent : List Message) (mem : Membership) (id : ℕ) (m : Message) : Prop where
  request : m.type = .requestVote → m ∈ sent ∧ m.target = id ∧ m.term ≠ 0
  response : m.type = .requestVoteResp → m.reject = false → m ∈ sent ∧ m.target = id ∧ m.term ≠ 0
  configChange : m.type = .configChangeEvent → m.reject = true ∨ m.hintHigh = 0 ∧ m.hint ∈ mem.addresses
  snapshot : m.type = .snapshotReceived → m.snapshot.membership = mem

theorem moves_handleWith {handler : Node → Message → Except Fault Node} (hr : Among mem r)
    (hm : Arrives sent mem r.replicaID m)
    (hhandler : ∀ r', Among mem r' → Reaches sent mem r' m → Yields (handler r' m) (Moves sent r')) :
    Yields (handleWith handler r m) (Moves sent r) := by
  unfold handleWith
  refine .ite (fun _ => yields_panicked _) fun _ => ?_
  refine (yields_onMessageTermNotMatched Calm.moves moves_enterTerm r m).bind fun res hmoves =>
    .ite (fun _ => .ok hmoves) fun _ => .ite (fun _ => yields_panicked _) fun hmatch => ?_
  obtain ⟨hr', hid⟩ := hmoves.among hr
  have hsame (hvote : m.type = .requestVote ∨ m.type = .requestVoteResp) (hne : m.term ≠ 0) : m.term = res.1.term := by
    by_contra hother
    refine hmatch ⟨?_, hne, fun h => hother h.symm⟩
    rcases hvote with h | h <;> simp [isPreVoteMessage, h]
  refine hmoves.yields (hhandler res.1 hr' ⟨fun h => ?_, fun h hreject => ?_, hm.configChange, hm.snapshot⟩)
  · obtain ⟨hsent, htarget, hne⟩ := hm.request h
    exact ⟨hsent, htarget.trans hid.symm, hsame (.inl h) hne⟩
  · obtain ⟨hsent, htarget, hne⟩ := hm.response h hreject
    exact ⟨hsent, htarget.trans hid.symm, hsame (.inr h) hne⟩

/-! ### Ticks -/

theorem moves_handleLocal (hr : Among mem r) (hm : m.type ∉ electoral) : Yields (r.handleLocal m) (Moves sent r) := by
  simp only [electoral, mem_cons, not_mem_nil, or_false, not_or] at hm
  obtain ⟨hrequest, hresponse, hconfigChange, hsnapshot⟩ := hm
  exact moves_handleWith hr ⟨fun h => absurd h hrequest, fun h => absurd h hresponse, fun h => absurd h hconfigChange,
    fun h => absurd h hsnapshot⟩ fun _ => moves_handleBase

theorem Among.of_face (hr : Among mem r) (hface : r'.face = r.face) : Among mem r' where
  remotes := (congrArg Face.remotes hface).trans hr.remotes
  nonVotings := (congrArg Face.nonVotings hface).trans hr.nonVotings
  witnesses := (congrArg Face.witnesses hface).trans hr.witnesses
  learner hstate := by
    have hid : r'.replicaID = r.replicaID := congrArg (fun face => face.cfg.replicaID) hface
    rw [hid]
    exact hr.learner ((congrArg Face.state hface).symm.trans hstate)

theorem ticks_moves : Ticks fun r r' => Among mem r → Moves sent r r' where
  calm h _ := h.moves
  trans h1 h2 hr := (h1 hr).trans (h2 ((h1 hr).among hr).1)
  handleLocal _ _ hm r' h hr :=
    moves_handleLocal hr (fun hm' => hm (mem_cons_of_mem _ (mem_cons_of_mem _ hm'))) r' h

theorem moves_handle (hr : Among mem r) (hm : Arrives sent mem r.replicaID m) : Yields (r.handle m) (Moves sent r) := by
  refine moves_handleWith hr hm fun r' hr' hm' => ?_
  unfold handleAny
  split
  · exact (ticks_moves.handleLocalTick r' m).mono fun _ h => h hr'
  · exact (ticks_moves.handleFollowerTimeoutNow r').mono fun _ h => h hr'
  · exact moves_handleBase hr' hm'

end Armada.Raft.Node
