import Armada.Raft.Members
import Armada.Raft.Tracked

/-! What of a replica takes part in elections, and the handlers that leave it alone. Most of
them leave the entries of the log alone as well and send nothing that promises anything. -/

namespace Armada.Raft.Node

open Program List

/-- What elections go by. -/
structure Face where
  cfg : Config
  state : Role
  term : ℕ
  vote : ℕ
  votes : List (ℕ × Bool)
  remotes : List ℕ
  nonVotings : List ℕ
  witnesses : List ℕ

def face (r : Node) : Face :=
  ⟨r.cfg, r.state, r.term, r.vote, r.votes, r.remotes.ids, r.nonVotings.ids, r.witnesses.ids⟩

/-- A message that neither asks for a vote nor grants one, and is none of those by which a
replica learns of its members. -/
structure Plain (m : Message) : Prop where
  request : m.type ≠ .requestVote
  response : m.type = .requestVoteResp → m.reject = true
  configChange : m.type ≠ .configChangeEvent
  snapshot : m.type ≠ .snapshotReceived

variable {m : Message}

theorem Plain.of_type (h : m.type ∉ electoral) : Plain m := by
  simp only [electoral, mem_cons, not_mem_nil, or_false, not_or] at h
  obtain ⟨hrequest, hresponse, hconfigChange, hsnapshot⟩ := h
  exact ⟨hrequest, fun h => absurd h hresponse, hconfigChange, hsnapshot⟩

theorem Bland.plain (h : Bland m) : Plain m := .of_type fun hm => h (mem_cons_of_mem _ hm)

/-- Nothing came of it but bland messages and perhaps a higher commit index. -/
structure Calm (r r' : Node) : Prop where
  face : r'.face = r.face
  held : Held r.log r'.log
  msgs : ∃ extra, r'.msgs = r.msgs ++ extra ∧ ∀ m ∈ extra, Bland m

/-- Nothing but plain messages came of it; the log may be another one. -/
structure Quiet (r r' : Node) : Prop where
  face : r'.face = r.face
  msgs : ∃ extra, r'.msgs = r.msgs ++ extra ∧ ∀ m ∈ extra, Plain m

variable {r r' : Node} {x : Except Fault Node}

theorem Calm.same (hface : r'.face = r.face) (hlog : r'.log = r.log) (hmsgs : r'.msgs = r.msgs) : Calm r r' :=
  ⟨hface, hlog ▸ .refl _, [], by rw [hmsgs, append_nil], by simp⟩

theorem Calm.refl (r : Node) : Calm r r := .same rfl rfl rfl

variable {r1 r2 r3 : Node}

theorem Calm.trans (h1 : Calm r1 r2) (h2 : Calm r2 r3) : Calm r1 r3 := by
  obtain ⟨extra1, hmsgs1, hbland1⟩ := h1.msgs
  obtain ⟨extra2, hmsgs2, hbland2⟩ := h2.msgs
  refine ⟨h2.face.trans h1.face, h1.held.trans h2.held, extra1 ++ extra2, ?_, forall_mem_append.mpr ⟨hbland1, hbland2⟩⟩
  rw [hmsgs2, hmsgs1, append_assoc]

theorem Calm.quiet (h : Calm r r') : Quiet r r' := by
  obtain ⟨extra, hmsgs, hbland⟩ := h.msgs
  exact ⟨h.face, extra, hmsgs, fun m hm => (hbland m hm).plain⟩

theorem Quiet.same (hface : r'.face = r.face) (hmsgs : r'.msgs = r.msgs) : Quiet r r' :=
  ⟨hface, [], by rw [hmsgs, append_nil], by simp⟩

theorem Quiet.trans (h1 : Quiet r1 r2) (h2 : Quiet r2 r3) : Quiet r1 r3 := by
  obtain ⟨extra1, hmsgs1, hplain1⟩ := h1.msgs
  obtain ⟨extra2, hmsgs2, hplain2⟩ := h2.msgs
  refine ⟨h2.face.trans h1.face, extra1 ++ extra2, ?_, forall_mem_append.mpr ⟨hplain1, hplain2⟩⟩
  rw [hmsgs2, hmsgs1, append_assoc]

theorem Calm.yields (h : Calm r r') (hx : Yields x (Calm r')) : Yields x (Calm r) := hx.mono fun _ h' => h.trans h'

theorem Quiet.yields (h : Quiet r r') (hx : Yields x (Quiet r')) : Yields x (Quiet r) := hx.mono fun _ h' => h.trans h'

theorem quiet_calm (hx : Yields x (Calm r)) : Yields x (Quiet r) := hx.mono fun _ => Calm.quiet

/-- The rest of a computation that began with a change to something else. -/
theorem calm_after (hx : Yields x (Calm r')) (hface : r'.face = r.face) (hlog : r'.log = r.log)
    (hmsgs : r'.msgs = r.msgs) : Yields x (Calm r) := (Calm.same hface hlog hmsgs).yields hx

theorem quiet_after (hx : Yields x (Quiet r')) (hface : r'.face = r.face) (hmsgs : r'.msgs = r.msgs) :
    Yields x (Quiet r) := (Quiet.same hface hmsgs).yields hx

theorem calm_modifyRemote (r : Node) (id : ℕ) (f : Remote → Remote) : Calm r (r.modifyRemote id f) := by
  rw [modifyRemote]
  split_ifs
  · exact .same (by simp [Node.face]) rfl rfl
  · exact .same (by simp [Node.face]) rfl rfl
  · exact .same (by simp [Node.face]) rfl rfl

/-! ### Sending -/

theorem yields_send (r : Node) (m : Message) :
    Yields (r.send m) fun r' => ∃ m', r' = { r with msgs := r.msgs ++ [m'] } ∧ m'.type = m.type ∧
      m'.reject = m.reject ∧ m'.sender = r.replicaID ∧ m'.target = m.target ∧ m'.logIndex = m.logIndex ∧
      m'.term = if isRequestMessage m.type ∨ isRequestVoteMessage m.type ∨ m.type = .requestPreVoteResp then m.term
        else r.term := by
  have hfinal : Yields (r.finalizeMessageTerm { m with sender := r.replicaID }) fun m' => m'.type = m.type ∧
      m'.reject = m.reject ∧ m'.sender = r.replicaID ∧ m'.target = m.target ∧ m'.logIndex = m.logIndex ∧
      m'.term = if isRequestMessage m.type ∨ isRequestVoteMessage m.type ∨ m.type = .requestPreVoteResp then m.term
        else r.term := by
    unfold finalizeMessageTerm
    refine .ite (fun _ => yields_panicked _) fun _ => .ite (fun _ => yields_panicked _) fun _ =>
      .ite (fun h => ?_) fun h => ?_
    · refine .ok ⟨rfl, rfl, rfl, rfl, rfl, ?_⟩
      rw [if_neg]
      simp only [Bool.not_eq_true', ne_eq] at h
      simp [h]
    · refine .ok ⟨rfl, rfl, rfl, rfl, rfl, ?_⟩
      rw [if_pos]
      simp only [Bool.not_eq_true', ne_eq] at h
      simp only [Bool.not_eq_false, not_and_or, not_not] at h
      simpa using h
  exact hfinal.bind fun m' hm' => .ok ⟨m', rfl, hm'⟩

theorem quiet_send (hm : Plain m) : Yields (r.send m) (Quiet r) := by
  refine (yields_send r m).mono fun r' h => ?_
  obtain ⟨m', rfl, htype, hreject, -⟩ := h
  refine ⟨rfl, [m'], rfl, fun n hn => ?_⟩
  rw [mem_singleton.mp hn]
  exact ⟨htype ▸ hm.request, fun h => hreject ▸ hm.response (htype ▸ h), htype ▸ hm.configChange, htype ▸ hm.snapshot⟩

theorem calm_send (hm : Bland m) : Yields (r.send m) (Calm r) := by
  refine (yields_send r m).mono fun r' h => ?_
  obtain ⟨m', rfl, htype, -⟩ := h
  refine ⟨rfl, .refl _, [m'], rfl, fun n hn => ?_⟩
  rw [mem_singleton.mp hn, Bland, htype]
  exact hm

theorem sends_calm : Sends Calm := ⟨Calm.refl, Calm.trans, calm_modifyRemote, fun _ _ => calm_send⟩

theorem calm_forEach {α : Type} {f : Node → α → Except Fault Node} (hf : ∀ r a, Yields (f r a) (Calm r))
    (as : List α) (r : Node) : Yields (forEach f as r) (Calm r) := sends_calm.forEach hf as r

theorem calm_sendReplicateMessage (r : Node) (dest : ℕ) : Yields (r.sendReplicateMessage dest) (Calm r) :=
  sends_calm.sendReplicateMessage r dest

theorem calm_broadcastReplicateMessage (r : Node) : Yields r.broadcastReplicateMessage (Calm r) :=
  sends_calm.broadcastReplicateMessage r

theorem calm_broadcastHeartbeatMessageWithHint (r : Node) (ctx : SystemCtx) :
    Yields (r.broadcastHeartbeatMessageWithHint ctx) (Calm r) :=
  calm_forEach (fun _ _ => calm_send (by simp [Bland, electoral])) _ r

theorem calm_broadcastHeartbeatMessage (r : Node) : Yields r.broadcastHeartbeatMessage (Calm r) :=
  .skip fun _ => calm_broadcastHeartbeatMessageWithHint r _

theorem calm_sendTimeoutNowMessage (r : Node) (dest : ℕ) : Yields (r.sendTimeoutNowMessage dest) (Calm r) :=
  calm_send (by simp [Bland, electoral])

/-! ### Appending and committing -/

theorem calm_log {log : EntryLog} (h : Held r.log log) : Calm r { r with log := log } :=
  ⟨rfl, h, [], (append_nil _).symm, by simp⟩

theorem calm_tryCommit (r : Node) : Yields r.tryCommit fun res => Calm r res.1 := by
  unfold tryCommit
  refine .skip fun _ => ?_
  split
  · exact yields_panicked _
  · exact (EntryLog.tryCommit_held _ _ _ _).bind fun res h => .ok (calm_log h)

theorem quiet_appendEntries (r : Node) (ents : List Entry) : Yields (r.appendEntries ents) (Quiet r) := by
  unfold appendEntries
  refine .skip fun log => .ite (fun _ => yields_panicked _) fun _ => ?_
  have hself (r' : Node) : Quiet r { r with log := r'.log, remotes := r.remotes.modify r.replicaID fun rp =>
      (rp.tryUpdate r'.log.lastIndex).1 } := .same (by simp [Node.face]) rfl
  refine .ite (fun _ => ?_) fun _ => .ok (hself { r with log := log })
  exact (calm_tryCommit _).bind fun res hres => .ok ((hself { r with log := log }).trans hres.quiet)

theorem calm_preLeaderPromotionHandleConfigChange (r : Node) :
    Yields r.preLeaderPromotionHandleConfigChange (Calm r) := by
  unfold preLeaderPromotionHandleConfigChange
  exact .skip fun _ => .ite (fun _ => yields_panicked _) fun _ => .ok (.same rfl rfl rfl)

/-! ### Handlers -/

section
variable (m : Message) (r : Node)

theorem calm_handleHeartbeatMessage : Yields (r.handleHeartbeatMessage m) (Calm r) := by
  unfold handleHeartbeatMessage
  exact (EntryLog.commitTo_held _ _).bind fun log h => (calm_log h).yields (calm_send (by simp [Bland, electoral]))

theorem quiet_restore (ss : Snapshot) : Yields (r.restore ss) fun res => Quiet r res.1 := by
  unfold restore
  refine .ite (fun _ => .ok (.same rfl rfl)) fun _ => .ite (fun _ => yields_panicked _) fun _ =>
    .ite (fun _ => yields_panicked _) fun _ => .skip fun same => .ite (fun _ => ?_) fun _ => ?_
  · exact .skip fun log => .ok (.same rfl rfl)
  · exact .skip fun log => .ok (.same rfl rfl)

theorem quiet_handleInstallSnapshotMessage : Yields (r.handleInstallSnapshotMessage m) (Quiet r) := by
  unfold handleInstallSnapshotMessage
  exact (quiet_restore r _).bind fun res hres => hres.yields (quiet_send (.of_type (by simp [electoral])))

theorem quiet_handleReplicateMessage : Yields (r.handleReplicateMessage m) (Quiet r) := by
  unfold handleReplicateMessage
  refine .ite (fun _ => quiet_send (.of_type (by simp [electoral]))) fun _ => .skip fun same =>
    .ite (fun _ => ?_) fun _ => quiet_send (.of_type (by simp [electoral]))
  exact .skip fun log => .skip fun log => quiet_after (quiet_send (.of_type (by simp [electoral]))) rfl rfl

theorem calm_handleNodeRequestPreVote : Yields (r.handleNodeRequestPreVote m) (Calm r) := by
  unfold handleNodeRequestPreVote
  exact .skip fun _ => .ite (fun _ => yields_panicked _) fun _ =>
    .ite (fun _ => calm_send (by simp [Bland, electoral])) fun _ => calm_send (by simp [Bland, electoral])

theorem calm_forward {drop : Node → Message → Node} (hdrop : Calm r (drop r m)) (hm : Bland m) :
    Yields (r.forward m drop) (Calm r) := by
  unfold forward
  exact .ite (fun _ => .ok hdrop) fun _ => calm_send hm

theorem quiet_handleLeaderPropose : Yields (r.handleLeaderPropose m) (Quiet r) := by
  unfold handleLeaderPropose
  refine .skip fun _ => .ite (fun _ => .ok (.same rfl rfl)) fun _ => ?_
  exact (quiet_appendEntries _ _).bind fun r' h =>
    quiet_after (h.yields (quiet_calm (calm_broadcastReplicateMessage r'))) rfl rfl

theorem calm_handleLeaderReadIndex : Yields (r.handleLeaderReadIndex m) (Calm r) := by
  unfold handleLeaderReadIndex
  refine .skip fun _ => .ite (fun _ => .ok (.refl r)) fun _ => .ite (fun _ => ?_) fun _ => .skip fun ready => ?_
  · exact .ite (fun _ => calm_after (calm_send (by simp [Bland, electoral])) rfl rfl rfl) fun _ =>
      .ok (.same rfl rfl rfl)
  · refine .ite (fun _ => .ok (.same rfl rfl rfl)) fun _ => .skip fun q => ?_
    exact calm_after (calm_broadcastHeartbeatMessageWithHint _ _) rfl rfl rfl

theorem calm_advance (sender : ℕ) (paused : Bool) : Yields (r.advance sender paused) (Calm r) := by
  unfold advance
  refine (calm_tryCommit r).bind fun res hres => .ite (fun _ => ?_) fun _ => .ite (fun _ => ?_) fun _ => .ok hres
  · exact hres.yields (calm_broadcastReplicateMessage _)
  · exact hres.yields (calm_sendReplicateMessage _ _)

theorem calm_handleLeaderReplicateResp (rp : Remote) :
    Yields (r.handleLeaderReplicateResp m rp) (Calm r) := by
  unfold handleLeaderReplicateResp
  refine .skip fun _ => .ite (fun _ => .ite (fun _ => ?_) fun _ => .ok (calm_modifyRemote r _ _)) fun _ =>
    .ite (fun _ => ?_) fun _ => .ok (calm_modifyRemote r _ _)
  · exact (calm_modifyRemote r _ _).yields (calm_sendReplicateMessage _ _)
  · refine ((calm_modifyRemote r _ _).yields (calm_advance _ _ _)).bind fun r' h => ?_
    exact .ite (fun _ => h.yields (calm_sendTimeoutNowMessage _ _)) fun _ => .ok h

theorem calm_releaseRead (s : ReadStatus) : Yields (r.releaseRead s) (Calm r) := by
  unfold releaseRead
  exact .ite (fun _ => .ok (.same rfl rfl rfl)) fun _ => calm_send (by simp [Bland, electoral])

theorem calm_handleReadIndexLeaderConfirmation :
    Yields (r.handleReadIndexLeaderConfirmation m) (Calm r) := by
  unfold handleReadIndexLeaderConfirmation
  exact .skip fun res => calm_after (calm_forEach calm_releaseRead _ _) rfl rfl rfl

theorem calm_handleLeaderHeartbeatResp (rp : Remote) :
    Yields (r.handleLeaderHeartbeatResp m rp) (Calm r) := by
  unfold handleLeaderHeartbeatResp
  have hconfirm (r' : Node) (h : Calm r r') :
      Yields (if m.hint ≠ 0 then r'.handleReadIndexLeaderConfirmation m else .ok r') (Calm r) :=
    .ite (fun _ => h.yields (calm_handleReadIndexLeaderConfirmation m r')) fun _ => .ok h
  refine .skip fun _ => .ite (fun _ => ?_) fun _ => hconfirm _ (calm_modifyRemote r _ _)
  exact ((calm_modifyRemote r _ _).yields (calm_sendReplicateMessage _ _)).bind hconfirm

theorem calm_handleLeaderTransfer : Yields (r.handleLeaderTransfer m) (Calm r) := by
  unfold handleLeaderTransfer
  refine .skip fun _ => .ite (fun _ => yields_panicked _) fun _ => .ite (fun _ => .ok (.refl r)) fun _ =>
    .ite (fun _ => .ok (.refl r)) fun _ => ?_
  split
  · exact .ok (.refl r)
  · exact .ite (fun _ => calm_after (calm_sendTimeoutNowMessage _ _) rfl rfl rfl) fun _ => .ok (.same rfl rfl rfl)

theorem calm_handleLeaderSnapshotStatus (rp : Remote) :
    Yields (r.handleLeaderSnapshotStatus m rp) (Calm r) := by
  unfold handleLeaderSnapshotStatus
  refine .ite (fun _ => .ok (.refl r)) fun _ => .ite (fun _ => .ok (calm_modifyRemote r _ _)) fun _ => ?_
  exact .ok ((calm_modifyRemote r _ _).trans (.same rfl rfl rfl))

theorem calm_lw {r : Node} {f : Node → Message → Remote → Except Fault Node} (hf : ∀ rp, Yields (f r m rp) (Calm r)) :
    Yields (lw f r m) (Calm r) := by
  unfold lw
  split
  · exact .ok (.refl r)
  · exact hf _

theorem calm_leaderHasQuorum : Calm r r.leaderHasQuorum.1 := by
  refine .same ?_ rfl rfl
  simp [Node.face, leaderHasQuorum, Remotes.ids, Function.comp_def]

end

/-! ### Terms -/

theorem yields_onMessageTermNotMatched {R : Node → Node → Prop} (hcalm : ∀ {r r'}, Calm r r' → R r r')
    (henter : ∀ {r : Node} {m : Message}, r.term ≤ m.term → Yields (r.enterTerm m) (R r)) (r : Node) (m : Message) :
    Yields (r.onMessageTermNotMatched m) fun res => R r res.1 := by
  have hrefl : R r r := hcalm (.refl r)
  unfold onMessageTermNotMatched
  refine .ite (fun _ => .ok hrefl) fun _ => .skip fun drop => .ite (fun _ => .ok hrefl) fun _ => .ite (fun hterm => ?_)
    fun _ => .ite (fun _ => ?_) fun _ => .ok hrefl
  · exact .ite (fun _ => .ok hrefl) fun _ => (henter hterm.le).bind fun r' h => .ok h
  · have hreply : Yields (r.send { type := .noOP, target := m.sender }) (Calm r) :=
      calm_send (by simp [Bland, electoral])
    exact hreply.bind fun r' h => .ok (hcalm h)

/-! ### Ticks -/

/-- What a tick keeps to, when calm changes and the messages of a replica to itself do. -/
structure Ticks (R : Node → Node → Prop) : Prop where
  calm {r r' : Node} : Calm r r' → R r r'
  trans {r1 r2 r3 : Node} : R r1 r2 → R r2 r3 → R r1 r3
  handleLocal (r : Node) {m : Message} : m.type ∉ .replicate :: .installSnapshot :: electoral →
    Yields (r.handleLocal m) (R r)

namespace Ticks

variable {R : Node → Node → Prop} (hR : Ticks R)

include hR

theorem yields (h : R r r') (hx : Yields x (R r')) : Yields x (R r) := hx.mono fun _ h' => hR.trans h h'

theorem same (hface : r'.face = r.face) (hlog : r'.log = r.log) (hmsgs : r'.msgs = r.msgs) : R r r' :=
  hR.calm (.same hface hlog hmsgs)

theorem after (hx : Yields x (R r')) (hface : r'.face = r.face) (hlog : r'.log = r.log) (hmsgs : r'.msgs = r.msgs) :
    Yields x (R r) := hR.yields (hR.same hface hlog hmsgs) hx

variable (r : Node)

theorem nonLeaderTick : Yields r.nonLeaderTick (R r) := by
  unfold Node.nonLeaderTick
  refine .ite (fun _ => .ok (hR.same rfl rfl rfl)) fun _ => .ite (fun _ => ?_) fun _ => .ok (hR.same rfl rfl rfl)
  exact hR.after (hR.handleLocal _ (by simp [electoral])) rfl rfl rfl

theorem tickCheckQuorum : Yields r.tickCheckQuorum (R r) := by
  unfold Node.tickCheckQuorum
  refine .ite (fun _ => .ite (fun _ => ?_) fun _ => .ok (hR.same rfl rfl rfl)) fun _ => .ok (hR.calm (.refl r))
  exact hR.after (hR.handleLocal _ (by simp [electoral])) rfl rfl rfl

theorem tickHeartbeat : Yields r.tickHeartbeat (R r) := by
  unfold Node.tickHeartbeat
  refine .ite (fun _ => ?_) fun _ => .ok (hR.same rfl rfl rfl)
  exact hR.after (hR.handleLocal _ (by simp [electoral])) rfl rfl rfl

theorem tickSnapshotAck (p : ℕ × Remote) : Yields (r.tickSnapshotAck p) (R r) := by
  unfold Node.tickSnapshotAck
  refine .ite (fun _ => .ok (hR.calm (.refl r))) fun _ => .ite (fun _ => ?_) fun _ => ?_
  · have hlocal : Yields
      (Node.handleLocal _ { type := .snapshotStatus, sender := p.1, reject := p.2.delayed.rejected }) (R r) :=
      hR.yields (hR.calm (calm_modifyRemote r p.1 fun rp =>
        { rp with delayed := { p.2.delayed with ctick := p.2.delayed.ctick - 1 } }))
          (hR.handleLocal _ (by simp [electoral]))
    exact hlocal.bind fun r' h => .ok (hR.trans h (hR.calm (calm_modifyRemote r' _ _)))
  · exact .ok (hR.calm ((calm_modifyRemote r _ _).trans (.same rfl rfl rfl)))

theorem checkPendingSnapshotAck : Yields r.checkPendingSnapshotAck (R r) := by
  unfold Node.checkPendingSnapshotAck
  refine .ite (fun _ => ?_) fun _ => .ok (hR.calm (.refl r))
  exact hR.after (yields_forEach (fun r => hR.calm (.refl r)) hR.trans hR.tickSnapshotAck _ _) rfl rfl rfl

theorem leaderTick : Yields r.leaderTick (R r) := by
  unfold Node.leaderTick
  refine .skip fun _ => ?_
  have hcheck : Yields ({ r with electionTick := r.electionTick + 1 } : Node).tickCheckQuorum (R r) :=
    hR.after (hR.tickCheckQuorum _) rfl rfl rfl
  refine hcheck.bind fun r1 h1 => ?_
  have habort (b : Bool) : R r (if b then r1.abortLeaderTransfer else r1) := by
    cases b with
    | true => exact hR.trans h1 (hR.same rfl rfl rfl)
    | false => exact h1
  refine (hR.yields (habort _) (hR.tickHeartbeat _)).bind fun r2 h2 => ?_
  exact hR.yields h2 (hR.checkPendingSnapshotAck r2)

theorem tick : Yields r.tick (R r) := by
  unfold Node.tick
  refine .ite (fun _ => ?_) fun _ => ?_
  · exact hR.after (hR.leaderTick _) rfl rfl rfl
  · exact hR.after (hR.nonLeaderTick _) rfl rfl rfl

theorem handleFollowerTimeoutNow : Yields r.handleFollowerTimeoutNow (R r) := by
  unfold Node.handleFollowerTimeoutNow
  have htick : Yields ({ r with electionTick := r.randomizedElectionTimeout, isLeaderTransferTarget := true } :
    Node).tick
      (R r) := hR.after (hR.tick _) rfl rfl rfl
  exact htick.bind fun r' h => .ok (hR.trans h (hR.same rfl rfl rfl))

theorem handleLocalTick (m : Message) : Yields (r.handleLocalTick m) (R r) := by
  unfold Node.handleLocalTick
  exact .ite (fun _ => .ok (hR.same rfl rfl rfl)) fun _ => hR.tick r

end Ticks

end Armada.Raft.Node
