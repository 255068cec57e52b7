import Armada.Raft.Election

/-! What the responses of a replica promise, and what its handlers do to the log. A response
names a term and perhaps a vote, and an accepting one says how far the log reaches. -/

namespace Armada.Raft

open Program List

def Reports (m : Message) : Prop := m.type = .requestVoteResp ∨ m.type = .replicateResp

variable {term term' : ℕ}

theorem Reports.term_eq {m : Message} (h : Reports m) :
    (if isRequestMessage m.type ∨ isRequestVoteMessage m.type ∨ m.type =
    .requestPreVoteResp then term else term') = term' := by
  rcases h with htype | htype <;> simp [htype, isRequestMessage, isRequestVoteMessage]

/-- A vote. -/
def Grants (m : Message) : Prop := m.type = .requestVoteResp ∧ m.reject = false

/-- An acknowledgement of the entries up to an index. -/
def Accepts (m : Message) : Prop := m.type = .replicateResp ∧ m.reject = false

/-- The term of a response is over, or it is the present one and the vote is as the response
says. -/
def Kept (m : Message) (term vote : ℕ) :
    Prop := m.term < term ∨ m.term = term ∧ (Grants m → m.target = vote ∧ m.target ≠ 0)

theorem Kept.follows {m : Message} {vote vote' : ℕ} (h : Kept m term vote) (hf : Follows term vote term' vote') :
    Kept m term' vote' := by
  unfold Follows at hf
  rcases h with hlt | ⟨rfl, hgrants⟩
  · exact .inl (by omega)
  · rcases hf with hlt | ⟨rfl, hvote⟩
    · exact .inl hlt
    · exact .inr ⟨rfl, fun hg => ⟨by have := hgrants hg; omega, (hgrants hg).2⟩⟩

/-- A message as replicas send them. -/
structure WellFormed (m : Message) : Prop where
  replicate : m.type = .replicate → Consecutive (m.logIndex + 1) m.entries ∧ (∀ e ∈ m.entries, e.term ≠ 0) ∧
    (m.logTerm = 0 → m.logIndex = 0)
  requestVote : m.type = .requestVote → m.sender ≠ 0

instance (m : Message) : Decidable (WellFormed m) :=
  decidable_of_iff ((m.type = .replicate → Consecutive (m.logIndex + 1) m.entries ∧ (∀ e ∈ m.entries, e.term ≠ 0) ∧
    (m.logTerm = 0 → m.logIndex = 0)) ∧ (m.type = .requestVote → m.sender ≠ 0)) ⟨fun h => ⟨h.1, h.2⟩, fun h =>
      ⟨h.1, h.2⟩⟩

namespace Node

/-- Terms and votes go on, and no index is acknowledged. -/
structure Speaks (r r' : Node) : Prop where
  follows : Follows r.term r.vote r'.term r'.vote
  reports : ∀ m ∈ r'.msgs, Reports m → m ∈ r.msgs ∨ Kept m r'.term r'.vote
  calm : ∀ m ∈ r'.msgs, Accepts m → m ∈ r.msgs

/-- And the entries of the log stay as they are. -/
structure Light (r r' : Node) : Prop where
  speaks : Speaks r r'
  held : Held r.log r'.log

/-- And the log stays tracked. -/
structure Does (saved : List Entry) (r r' : Node) : Prop where
  speaks : Speaks r r'
  log : Tracked saved r.log → Tracked saved r'.log

/-- As before, but with acknowledgements of what the log reaches in the end. -/
structure Ends (saved : List Entry) (r r' : Node) : Prop where
  follows : Follows r.term r.vote r'.term r'.vote
  reports : ∀ m ∈ r'.msgs, Reports m → m ∈ r.msgs ∨ Kept m r'.term r'.vote
  log : Tracked saved r.log → Tracked saved r'.log
  acks : Tracked saved r.log → ∀ m ∈ r'.msgs, Accepts m → m ∈ r.msgs ∨ Reached r'.log m.logIndex

variable {saved : List Entry} {r r' r1 r2 r3 : Node}

theorem reports_trans (h1 : ∀ m ∈ r2.msgs, Reports m → m ∈ r1.msgs ∨ Kept m r2.term r2.vote)
    (hfollows : Follows r2.term r2.vote r3.term r3.vote)
    (h2 : ∀ m ∈ r3.msgs, Reports m → m ∈ r2.msgs ∨ Kept m r3.term r3.vote) (m : Message) (hm : m ∈ r3.msgs)
    (hreports : Reports m) : m ∈ r1.msgs ∨ Kept m r3.term r3.vote := by
  rcases h2 m hm hreports with hm | hkept
  · exact (h1 m hm hreports).imp_right fun hkept => hkept.follows hfollows
  · exact .inr hkept

theorem Speaks.trans (h1 : Speaks r1 r2) (h2 : Speaks r2 r3) : Speaks r1 r3 :=
  ⟨h1.follows.trans h2.follows, reports_trans h1.reports h2.follows h2.reports,
    fun m hm hm' => h1.calm m (h2.calm m hm hm') hm'⟩

theorem Light.trans (h1 : Light r1 r2) (h2 : Light r2 r3) : Light r1 r3 :=
  ⟨h1.speaks.trans h2.speaks, h1.held.trans h2.held⟩

theorem Does.trans (h1 : Does saved r1 r2) (h2 : Does saved r2 r3) : Does saved r1 r3 :=
  ⟨h1.speaks.trans h2.speaks, fun h => h2.log (h1.log h)⟩

theorem Light.does (h : Light r r') : Does saved r r' := ⟨h.speaks, fun hr => hr.held h.held⟩

theorem Does.ends (h : Does saved r r') : Ends saved r r' :=
  ⟨h.speaks.follows, h.speaks.reports, h.log, fun _ m hm hm' => .inl (h.speaks.calm m hm hm')⟩

theorem Does.trans_ends (h1 : Does saved r1 r2) (h2 : Ends saved r2 r3) : Ends saved r1 r3 where
  follows := h1.speaks.follows.trans h2.follows
  reports := reports_trans h1.speaks.reports h2.follows h2.reports
  log h := h2.log (h1.log h)
  acks h m hm hm' := (h2.acks (h1.log h) m hm hm').imp_left fun hm => h1.speaks.calm m hm hm'

/-- The fields that matter here. -/
def voice (r : Node) : ℕ × ℕ × List Message × EntryLog := (r.term, r.vote, r.msgs, r.log)

theorem Light.same (h : r'.voice = r.voice) : Light r r' := by
  obtain ⟨hterm, hvote, hmsgs, hlog⟩ : r'.term = r.term ∧ r'.vote = r.vote ∧ r'.msgs = r.msgs ∧ r'.log = r.log := by
    simpa [voice] using h
  refine ⟨⟨?_, fun m hm _ => .inl (hmsgs ▸ hm), fun m hm _ => hmsgs ▸ hm⟩, ?_⟩
  · rw [hterm, hvote]
    exact .refl _ _
  · rw [hlog]
    exact .refl _

theorem Light.refl (r : Node) : Light r r := .same rfl

theorem Does.same (h : r'.voice = r.voice) : Does saved r r' := (Light.same h).does

theorem Light.yields {x : Except Fault Node} (h : Light r r') (hx : Yields x (Light r')) : Yields x (Light r) :=
  hx.mono fun _ h' => h.trans h'

theorem Does.yields {x : Except Fault Node} (h : Does saved r r') (hx : Yields x (Does saved r')) :
    Yields x (Does saved r) := hx.mono fun _ h' => h.trans h'

theorem Calm.light (h : Calm r r') : Light r r' := by
  obtain ⟨extra, hmsgs, hbland⟩ := h.msgs
  have hold (m : Message) (hm : m ∈ r'.msgs) (hreports : Reports m) : m ∈ r.msgs := by
    rw [hmsgs] at hm
    refine (mem_append.mp hm).resolve_right fun hm => hbland m hm ?_
    rcases hreports with htype | htype <;> simp [electoral, htype]
  refine ⟨⟨?_, fun m hm hreports => .inl (hold m hm hreports), fun m hm haccepts =>
    hold m hm (.inr haccepts.1)⟩, h.held⟩
  rw [show r'.term = r.term from congrArg Face.term h.face, show r'.vote = r.vote from congrArg Face.vote h.face]
  exact .refl _ _

theorem light_calm {x : Except Fault Node} (hx : Yields x (Calm r)) : Yields x (Light r) := hx.mono fun _ => Calm.light

theorem light_after {x : Except Fault Node} (hx : Yields x (Light r')) (h : r'.voice = r.voice) : Yields x (Light r) :=
  (Light.same h).yields hx

theorem does_after {x : Except Fault Node} (hx : Yields x (Does saved r')) (h : r'.voice = r.voice) :
    Yields x (Does saved r) := (Does.same h).yields hx

theorem does_light {x : Except Fault Node} (hx : Yields x (Light r)) :
    Yields x (Does saved r) := hx.mono fun _ => Light.does

/-! ### Sending -/

theorem light_send {m : Message} (hm : Reports m → m.reject = true) : Yields (r.send m) (Light r) := by
  refine (yields_send r m).mono fun r' h => ?_
  obtain ⟨m', rfl, htype, hreject, -, -, -, hterm⟩ := h
  have hsame (hreports : Reports m') : Reports m := by rwa [Reports, ← htype]
  have hrefused (hreports : Reports m') : m'.reject = true := hreject.trans (hm (hsame hreports))
  refine ⟨⟨.refl _ _, fun n hn hreports => ?_, fun n hn haccepts => ?_⟩, .refl _⟩
  · refine (mem_append.mp hn).imp_right fun hn => ?_
    cases mem_singleton.mp hn
    refine .inr ⟨hterm.trans (hsame hreports).term_eq, fun hgrants => ?_⟩
    exact absurd ((hrefused hreports).symm.trans hgrants.2) (by decide)
  · refine (mem_append.mp hn).resolve_right fun hn => ?_
    cases mem_singleton.mp hn
    exact absurd ((hrefused (.inr haccepts.1)).symm.trans haccepts.2) (by decide)

variable {α : Type} {term : ℕ} {f : Node → Message → Except Fault Node}

/-! ### Appending and committing -/

theorem stamp_inOrder (term lastIndex : ℕ) (ents : List Entry) :
    Consecutive (lastIndex + 1) (stamp term lastIndex ents) := by
  rw [consecutive_iff]
  intro k hk
  simp [stamp]

theorem does_appendEntries (r : Node) (ents : List Entry) : Yields (r.appendEntries ents) (Does saved r) := by
  unfold appendEntries
  have happend : Yields (r.log.append (stamp r.term r.log.lastIndex ents)) fun log =>
      Tracked saved r.log → Tracked saved log :=
    fun log hlog hr => (hr.append (stamp_inOrder _ _ _) log hlog).1
  refine happend.bind fun log hlog => .ite (fun _ => .error _) fun _ => ?_
  have hself (remotes : Remotes) : Does saved r { r with log := log, remotes := remotes } :=
    ⟨⟨.refl _ _, fun _ hm _ => .inl hm, fun _ hm _ => hm⟩, hlog⟩
  refine .ite (fun _ => ?_) fun _ => .ok (hself _)
  exact (calm_tryCommit _).bind fun res hres => .ok ((hself _).trans hres.light.does)

/-! ### State transitions -/

theorem voice_reset (r : Node) (term : ℕ) (resetTimeout : Bool) :
    (r.reset term resetTimeout).voice = (term, if r.term = term then r.vote else 0, r.msgs, r.log) := by
  cases resetTimeout <;> rfl

section
variable (hterm : r.term ≤ term)
include hterm

theorem Light.enter (h : r'.voice = (term, if r.term = term then r.vote else 0, r.msgs, r.log)) : Light r r' := by
  obtain ⟨hterm', hvote, hmsgs, hlog⟩ : r'.term = term ∧ r'.vote = (if r.term = term then r.vote else 0) ∧
      r'.msgs = r.msgs ∧ r'.log = r.log := by
    simpa [voice] using h
  refine ⟨⟨?_, fun m hm _ => .inl (hmsgs ▸ hm), fun m hm _ => hmsgs ▸ hm⟩, ?_⟩
  · rw [hterm', hvote]
    rcases hterm.lt_or_eq with hlt | rfl
    · exact .inl hlt
    · exact .inr ⟨rfl, .inr (if_pos rfl).symm⟩
  · rw [hlog]
    exact .refl _

theorem light_reset (resetTimeout : Bool) (leaderID : ℕ) :
    Light r ((r.reset term resetTimeout).setLeaderID leaderID) := .enter hterm (voice_reset r term resetTimeout)

theorem light_toFollowerState (leaderID : ℕ) (resetTimeout : Bool) :
    Yields (r.toFollowerState term leaderID resetTimeout) (Light r) := by
  unfold toFollowerState
  exact .ite (fun _ => .error _) fun _ =>
    .ok (.enter hterm (voice_reset { r with state := .follower } term resetTimeout))

theorem light_becomeFollower (leaderID : ℕ) :
    Yields (r.becomeFollower term leaderID) (Light r) := light_toFollowerState hterm leaderID true

end

theorem light_enterTerm {m : Message} (hterm : r.term ≤ m.term) : Yields (r.enterTerm m) (Light r) := by
  unfold enterTerm
  refine .ite (fun _ => ?_) fun _ => .ite (fun _ => ?_) fun _ => .ite (fun _ => ?_) fun _ => ?_
  · exact .ite (fun _ => .error _) fun _ => .ok (light_reset hterm true _)
  · exact .ite (fun _ => .error _) fun _ => .ok (light_reset hterm true _)
  · exact light_toFollowerState hterm _ _
  · exact light_becomeFollower hterm _

theorem light_becomePreVoteCandidate (r : Node) : Yields r.becomePreVoteCandidate (Light r) := by
  unfold becomePreVoteCandidate
  exact .ite (fun _ => .error _) fun _ => .skip fun _ =>
    .ok (.enter le_rfl (voice_reset { r with state := .preVoteCandidate } r.term true))

theorem light_becomeCandidate (r : Node) : Yields r.becomeCandidate (Light r) := by
  unfold becomeCandidate
  refine .skip fun _ => .ok ⟨⟨.inl (lt_add_one _), fun m hm _ => .inl hm, fun m hm _ => hm⟩, ⟨rfl, le_rfl⟩⟩

theorem does_becomeLeader (r : Node) : Yields r.becomeLeader (Does saved r) := by
  unfold becomeLeader
  refine .ite (fun _ => .error _) fun _ => ?_
  have hreset : Light r (({ r with state := .leader }.reset r.term true).setLeaderID r.replicaID) :=
    .enter le_rfl (voice_reset { r with state := .leader } r.term true)
  refine (calm_preLeaderPromotionHandleConfigChange _).bind fun r' h => ?_
  exact (hreset.trans h.light).does.yields (does_appendEntries r' _)

theorem does_campaign (r : Node) : Yields r.campaign (Does saved r) := by
  unfold campaign
  refine (light_becomeCandidate r).bind fun r1 h1 => ?_
  have hvote : Light r (r1.addVote r1.replicaID true) := h1.trans (.same rfl)
  refine .ite (fun _ => hvote.does.yields (does_becomeLeader _)) fun _ => .skip fun lastTerm => ?_
  exact does_light (hvote.yields
    (light_after (yields_forEach Light.refl Light.trans (fun _ _ => light_send (by simp [Reports])) _ _) rfl))

theorem does_preVoteCampaign (r : Node) : Yields r.preVoteCampaign (Does saved r) := by
  unfold preVoteCampaign
  refine (light_becomePreVoteCandidate r).bind fun r1 h1 => ?_
  have hvote : Light r (r1.addVote r1.replicaID true) := h1.trans (.same rfl)
  refine .ite (fun _ => hvote.does.yields (does_campaign _)) fun _ => .skip fun lastTerm => ?_
  exact does_light (hvote.yields (light_calm (calm_forEach (fun _ _ => calm_send (by simp [Bland, electoral])) _ _)))

theorem does_handleNodeElection (r : Node) : Yields r.handleNodeElection (Does saved r) := by
  unfold handleNodeElection
  have hrefl : Does saved r r := (Light.refl r).does
  exact .ite (fun _ => .ok hrefl) fun _ => .ite (fun _ => .ok hrefl) fun _ =>
    .ite (fun _ => does_preVoteCampaign r) fun _ => does_campaign r

/-! ### Membership -/

theorem reconfigures_light : Reconfigures Light where
  toSends := ⟨Light.refl, Light.trans, fun r id f => (calm_modifyRemote r id f).light, fun _ _ hm =>
    light_calm (calm_send hm)⟩
  set _ _ _ _ _ _ := .same rfl
  becomeFollower _ leaderID := light_becomeFollower le_rfl leaderID
  tryCommit r := (calm_tryCommit r).mono fun _ => Calm.light

theorem light_promoteSelf (r : Node) (ids : List ℕ) : Yields (r.promoteSelf ids) (Light r) := by
  unfold promoteSelf
  exact .ite (fun _ => light_becomeFollower le_rfl _) fun _ => .ok (.refl r)

theorem light_stepDownUnlisted (r : Node) : Yields r.stepDownUnlisted (Light r) := by
  unfold stepDownUnlisted
  exact .ite (fun _ => light_becomeFollower le_rfl _) fun _ => .ok (.refl r)

theorem light_restoreRemotes (r : Node) (ss : Snapshot) : Yields (r.restoreRemotes ss) (Light r) := by
  unfold restoreRemotes
  have hpromote : Yields ({ r with remotes := [] }.promoteSelf ss.membership.addresses) (Light r) :=
    light_after (light_promoteSelf _ _) rfl
  refine hpromote.bind fun r1 h1 => .ite (fun _ => .error _) fun _ => ?_
  have hstepDown (remotes : Remotes) : Yields { r1 with remotes := remotes }.stepDownUnlisted (Light r) :=
    h1.yields (light_after (light_stepDownUnlisted _) rfl)
  exact (hstepDown _).bind fun r2 h2 => .ok (h2.trans (.same rfl))

/-! ### Handlers -/

theorem ends_ack {m : Message} (htype : m.type = .replicateResp) (h : Does saved r r')
    (hreached : Tracked saved r.log → Reached r'.log m.logIndex) : Yields (r'.send m) (Ends saved r) := by
  refine (yields_send r' m).mono fun r'' hr'' => ?_
  obtain ⟨m', rfl, htype', -, -, -, hindex, hterm⟩ := hr''
  refine ⟨h.speaks.follows, fun n hn hreports => ?_, h.log, fun hr n hn haccepts => ?_⟩
  · rcases mem_append.mp hn with hn | hn
    · exact h.speaks.reports n hn hreports
    · cases mem_singleton.mp hn
      refine .inr (.inr ⟨hterm.trans (Reports.term_eq (.inr htype)), fun hgrants => ?_⟩)
      exact absurd (hgrants.1.symm.trans (htype'.trans htype)) (by decide)
  · rcases mem_append.mp hn with hn | hn
    · exact .inl (h.speaks.calm n hn haccepts)
    · cases mem_singleton.mp hn
      rw [hindex]
      exact .inr (hreached hr)

section
variable (m : Message) (r : Node)

theorem does_restore (ss : Snapshot) : Yields (r.restore ss) fun res => Does saved r res.1 := by
  unfold restore
  refine .ite (fun _ => .ok (Light.refl r).does) fun _ => .ite (fun _ => .error _) fun _ =>
    .ite (fun _ => .error _) fun _ => .skip fun same => .ite (fun _ => ?_) fun _ => ?_
  · exact (EntryLog.commitTo_held _ _).bind fun log h => .ok (calm_log h).light.does
  · have hrestore : Yields (r.log.restore ss) fun log => Tracked saved r.log → Tracked saved log :=
      fun log hlog hr => (hr.restore ss log hlog).1
    exact hrestore.bind fun log hlog => .ok ⟨⟨.refl _ _, fun _ hm _ => .inl hm, fun _ hm _ => hm⟩, hlog⟩

theorem ends_handleInstallSnapshotMessage : Yields (r.handleInstallSnapshotMessage m) (Ends saved r) := by
  unfold handleInstallSnapshotMessage
  refine (does_restore r _).bind fun res hres => ends_ack rfl hres fun _ => ?_
  cases hrestored : res.2 with
  | true => exact .inl (by simp)
  | false => exact .inr (by simp)

theorem ends_handleReplicateMessage (hm : WellFormed m) (htype : m.type = .replicate) (r : Node) :
    Yields (r.handleReplicateMessage m) (Ends saved r) := by
  unfold handleReplicateMessage
  obtain ⟨horder, hterms, hzero⟩ := hm.replicate htype
  refine .ite (fun _ => ends_ack rfl (Light.refl r).does fun _ => .inr le_rfl) fun _ => ?_
  refine (EntryLog.matchTerm_lastIndex _ _ _ _).bind fun same hsame => .ite (fun hsame' => ?_) fun _ =>
    (light_send fun _ => rfl).mono fun _ h => h.does.ends
  have hindex : m.logIndex ≤ r.log.lastIndex := by
    by_cases hterm : m.logTerm = 0
    · rw [hzero hterm]
      exact Nat.zero_le _
    · exact hsame hsame' hterm
  have happend : Yields (r.log.tryAppend r.limits m.logIndex m.entries) fun log => Tracked saved r.log →
      Tracked saved log ∧ m.logIndex + m.entries.length ≤ log.lastIndex :=
    fun log hlog hr => hr.tryAppend horder hterms hindex log hlog
  refine happend.bind fun log hlog => (EntryLog.commitTo_held _ _).bind fun log' hheld => ?_
  have hdoes : Does saved r { r with log := log' } :=
    ⟨⟨.refl _ _, fun _ hm _ => .inl hm, fun _ hm _ => hm⟩, fun hr => (hlog hr).1.held hheld⟩
  refine ends_ack rfl hdoes fun hr => .inl ?_
  rw [hheld.lastIndex]
  exact (hlog hr).2

theorem light_handleNodeRequestVote (hm : WellFormed m) (htype : m.type = .requestVote) {r : Node}
    (hterm : m.term ≤ r.term) : Yields (r.handleNodeRequestVote m) (Light r) := by
  unfold handleNodeRequestVote
  refine .skip fun isUpToDate => .ite (fun hgrant => ?_) fun _ => light_send fun _ => rfl
  have hvote : r.vote = 0 ∨ r.vote = m.sender := by
    have hcan := of_decide_eq_true hgrant.1
    omega
  refine (yields_send _ _).mono fun r' h => ?_
  obtain ⟨m', rfl, htype', -, -, htarget, -, hterm'⟩ := h
  refine ⟨⟨.inr ⟨rfl, hvote⟩, fun n hn _ => ?_, fun n hn haccepts => ?_⟩, .refl _⟩
  · refine (mem_append.mp hn).imp_right fun hn => ?_
    cases mem_singleton.mp hn
    refine .inr ⟨hterm'.trans (Reports.term_eq (.inl rfl)), fun _ => ⟨htarget, ?_⟩⟩
    rw [htarget]
    exact hm.requestVote htype
  · refine (mem_append.mp hn).resolve_right fun hn => ?_
    cases mem_singleton.mp hn
    exact absurd (htype'.symm.trans haccepts.1) (by simp)

theorem does_handleLeaderPropose : Yields (r.handleLeaderPropose m) (Does saved r) := by
  unfold handleLeaderPropose
  refine .skip fun _ => .ite (fun _ => .ok (.same rfl)) fun _ => ?_
  exact (does_appendEntries _ _).bind fun r' h =>
    does_after (h.yields (does_light (light_calm (calm_broadcastReplicateMessage r')))) rfl

theorem light_handleLeaderCheckQuorum : Yields r.handleLeaderCheckQuorum (Light r) := by
  unfold handleLeaderCheckQuorum
  exact .skip fun _ => .ite (fun _ => .ok (.same rfl)) fun _ => light_after (light_becomeFollower le_rfl 0) rfl

theorem does_handleCandidateRequestVoteResp :
    Yields (r.handleCandidateRequestVoteResp m) (Does saved r) := by
  unfold handleCandidateRequestVoteResp
  refine .ite (fun _ => .ok (Light.refl r).does) fun _ => .ite (fun _ => ?_) fun _ => .ite (fun _ => ?_) fun _ =>
    .ok (.same rfl)
  · exact (does_becomeLeader _).bind fun r' h =>
      does_after (h.yields (does_light (light_calm (calm_broadcastReplicateMessage r')))) rfl
  · exact does_light (light_after (light_becomeFollower le_rfl 0) rfl)

theorem does_handlePreVoteCandidateRequestPreVoteResp :
    Yields (r.handlePreVoteCandidateRequestPreVoteResp m) (Does saved r) := by
  unfold handlePreVoteCandidateRequestPreVoteResp
  refine .ite (fun _ => .ok (Light.refl r).does) fun _ => .ite (fun _ => ?_) fun _ => .ite (fun _ => ?_) fun _ =>
    .ok (.same rfl)
  · exact does_after (does_campaign _) rfl
  · exact does_light (light_after (light_becomeFollower le_rfl 0) rfl)

end

/-! ### Dispatch -/

/-- What comes of a message: no handler but those of Replicate and InstallSnapshot messages
acknowledges an index, and a change of the members leaves the entries alone. -/
structure Outcome (saved : List Entry) (m : Message) (r r' : Node) : Prop where
  ends : Ends saved r r'
  does : m.type ∉ [MessageType.replicate, .installSnapshot] → Does saved r r'
  light : m.type ∈ [MessageType.configChangeEvent, .snapshotReceived] → Light r r'

variable {m : Message} {x : Except Fault Node}

theorem outcome_light (hx : Yields x (Light r)) : Yields x (Outcome saved m r) :=
  hx.mono fun _ h => ⟨h.does.ends, fun _ => h.does, fun _ => h⟩

theorem outcome_calm (hx : Yields x (Calm r)) : Yields x (Outcome saved m r) := outcome_light (light_calm hx)

theorem outcome_does (hx : Yields x (Does saved r)) (hm : m.type ∉ [MessageType.configChangeEvent, .snapshotReceived]) :
    Yields x (Outcome saved m r) := hx.mono fun _ h => ⟨h.ends, fun _ => h, fun htype => absurd htype hm⟩

theorem outcome_ends (hx : Yields x (Ends saved r)) (hm : m.type ∈ [MessageType.replicate, .installSnapshot]) :
    Yields x (Outcome saved m r) := by
  refine hx.mono fun _ h => ⟨h, fun htype => absurd hm htype, fun htype => ?_⟩
  simp only [mem_cons, not_mem_nil, or_false] at hm htype
  rcases hm with hm | hm <;> simp [hm] at htype

theorem Light.outcome (h : Light r r') (hx : Yields x (Outcome saved m r')) : Yields x (Outcome saved m r) :=
  hx.mono fun _ h' => ⟨h.does.trans_ends h'.ends, fun hm => h.does.trans (h'.does hm), fun hm => h.trans (h'.light hm)⟩

theorem ends_follower_then (hf : ∀ r, Yields (f r m) (Ends saved r)) (r : Node) :
    Yields (r.becomeFollower r.term m.sender >>= fun r => f r m) (Ends saved r) :=
  (light_becomeFollower le_rfl _).bind fun r' h => (hf r').mono fun _ h' => h.does.trans_ends h'

theorem ends_available (hf : ∀ r, Yields (f r m) (Ends saved r)) (r : Node) :
    Yields (f (r.leaderIsAvailable.setLeaderID m.sender) m) (Ends saved r) := by
  have hsame : Does saved r (r.leaderIsAvailable.setLeaderID m.sender) := .same rfl
  exact (hf _).mono fun _ h => hsame.trans_ends h

theorem outcome_handleBase (hm : WellFormed m) (r : Node) (hterm : m.type = .requestVote → m.term ≤ r.term) :
    Yields (r.handleBase m) (Outcome saved m r) := by
  unfold handleBase
  -- one case for each line of the table, in its order
  split
  case h_1 | h_2 =>
    exact outcome_light ((light_becomeFollower le_rfl _).bind fun r' h =>
      h.yields (light_calm (calm_handleHeartbeatMessage m r')))
  case h_3 | h_4 | h_5 | h_6 => exact outcome_light (.ok (.same rfl))
  case h_7 _ htype | h_8 _ htype =>
    exact outcome_ends (ends_follower_then (ends_handleReplicateMessage m hm htype) r) (by simp [htype])
  case h_9 _ htype | h_10 _ htype =>
    exact outcome_ends (ends_follower_then (ends_handleInstallSnapshotMessage m) r) (by simp [htype])
  case h_11 _ htype => exact outcome_does (does_handleCandidateRequestVoteResp m r) (by simp [htype])
  case h_12 _ htype => exact outcome_does (does_handlePreVoteCandidateRequestPreVoteResp m r) (by simp [htype])
  case h_13 _ htype | h_14 _ htype =>
    exact outcome_calm (calm_forward m r (.same rfl rfl rfl) (by simp [Bland, electoral, htype]))
  case h_15 _ htype | h_16 _ htype | h_17 _ htype =>
    exact outcome_ends (ends_available (ends_handleReplicateMessage m hm htype) r) (by simp [htype])
  case h_18 | h_19 | h_20 => exact outcome_calm (calm_after (calm_handleHeartbeatMessage m _) rfl rfl rfl)
  case h_21 _ htype | h_22 _ htype | h_23 _ htype =>
    exact outcome_ends (ends_available (ends_handleInstallSnapshotMessage m) r) (by simp [htype])
  case h_24 _ htype | h_25 _ htype =>
    exact outcome_calm (calm_forward m r (.same rfl rfl rfl) (by simp [Bland, electoral, htype]))
  case h_26 | h_27 => exact outcome_light (.ok (.same rfl))
  case h_28 _ htype => exact outcome_calm (calm_forward m r (.refl r) (by simp [Bland, electoral, htype]))
  case h_29 => exact outcome_calm (calm_broadcastHeartbeatMessage r)
  case h_30 => exact outcome_light (light_handleLeaderCheckQuorum r)
  case h_31 _ htype => exact outcome_does (does_handleLeaderPropose m r) (by simp [htype])
  case h_32 => exact outcome_calm (calm_handleLeaderReadIndex m r)
  case h_33 => exact outcome_calm (calm_lw m (calm_handleLeaderReplicateResp m r))
  case h_34 => exact outcome_calm (calm_lw m (calm_handleLeaderHeartbeatResp m r))
  case h_35 => exact outcome_calm (calm_lw m (calm_handleLeaderSnapshotStatus m r))
  case h_36 => exact outcome_calm (calm_lw m fun rp => .ok (calm_modifyRemote r _ _))
  case h_37 => exact outcome_calm (calm_handleLeaderTransfer m r)
  case h_38 | h_39 => exact outcome_light (.ok (.refl r))
  case h_40 htype _ _ => exact outcome_does (does_handleNodeElection r) (by simp [htype])
  case h_41 htype => exact outcome_light (light_handleNodeRequestVote m hm htype (hterm htype))
  case h_42 => exact outcome_calm (calm_handleNodeRequestPreVote m r)
  case h_43 => exact outcome_light (reconfigures_light.handleNodeConfigChange r m)
  case h_44 => exact outcome_light (light_restoreRemotes r _)
  case h_45 => exact outcome_light (.ok (.refl r))

theorem outcome_handleWith {handler : Node → Message → Except Fault Node} (r : Node)
    (hhandler : ∀ r', (m.type = .requestVote → m.term ≤ r'.term) → Yields (handler r' m) (Outcome saved m r')) :
    Yields (handleWith handler r m) (Outcome saved m r) := by
  unfold handleWith
  refine .ite (fun _ => .error _) fun _ =>
    (yields_onMessageTermNotMatched Calm.light light_enterTerm r m).bind fun res hres =>
    .ite (fun _ => outcome_light (.ok hres)) fun _ => .ite (fun _ => .error _) fun hmatch => ?_
  refine hres.outcome (hhandler res.1 fun htype => ?_)
  by_contra hlt
  exact hmatch ⟨by simp [isPreVoteMessage, htype], by omega, by omega⟩

theorem does_handleLocal (r : Node) (hm : WellFormed m) (htype : m.type ∉ [MessageType.replicate, .installSnapshot]) :
    Yields (r.handleLocal m) (Does saved r) :=
  (outcome_handleWith r fun r' => outcome_handleBase hm r').mono fun _ h => h.does htype

/-! ### Ticks -/

theorem ticks_does : Ticks (Does saved) where
  calm h := h.light.does
  trans := Does.trans
  handleLocal r m hm := by
    simp only [electoral, mem_cons, not_mem_nil, or_false, not_or] at hm
    refine does_handleLocal r ⟨fun h => absurd h hm.1, fun h => absurd h hm.2.2.1⟩ ?_
    simpa using ⟨hm.1, hm.2.1⟩

/-- Any message that replicas send or that comes from the replica itself. -/
theorem outcome_handle (hm : WellFormed m) (r : Node) : Yields (r.handle m) (Outcome saved m r) := by
  refine outcome_handleWith r fun r' hterm => ?_
  unfold handleAny
  split
  case h_1 htype => exact outcome_does (ticks_does.handleLocalTick r' m) (by simp [htype])
  case h_2 _ htype => exact outcome_does (ticks_does.handleFollowerTimeoutNow r') (by simp [htype])
  case h_3 => exact outcome_handleBase hm r' hterm

end Node

end Armada.Raft
