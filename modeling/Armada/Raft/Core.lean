import Armada.Raft.Log

/-! The consensus core of a replica: its state, its messages and the handlers for every
message in every state. Timers tick as messages, and what the core sends is collected in
its state until an update takes it. -/

namespace Armada.Raft

open Program

inductive MessageType where
  | localTick | election | leaderHeartbeat | configChangeEvent | noOP | ping | pong | propose
  | snapshotStatus | unreachable | checkQuorum | batchedReadIndex | replicate | replicateResp
  | requestVote | requestVoteResp | installSnapshot | heartbeat | heartbeatResp | readIndex
  | readIndexResp | quiesce | snapshotReceived | leaderTransfer | timeoutNow | rateLimit
  | requestPreVote | requestPreVoteResp | logQuery
  deriving DecidableEq

structure Message where
  type : MessageType
  target : ℕ := 0
  sender : ℕ := 0
  term : ℕ := 0
  logTerm : ℕ := 0
  logIndex : ℕ := 0
  commit : ℕ := 0
  reject : Bool := false
  hint : ℕ := 0
  entries : List Entry := []
  snapshot : Snapshot := emptySnapshot
  hintHigh : ℕ := 0
  deriving DecidableEq

/-- The context that identifies a batch of reads. -/
structure SystemCtx where
  low : ℕ
  high : ℕ
  deriving DecidableEq

def Message.ctx (m : Message) : SystemCtx := ⟨m.hint, m.hintHigh⟩

def isPreVoteMessage (t : MessageType) : Bool := t = .requestPreVote ∨ t = .requestPreVoteResp

def isRequestVoteMessage (t : MessageType) : Bool := t = .requestVote ∨ t = .requestPreVote

def isRequestMessage (t : MessageType) : Bool := t = .propose ∨ t = .readIndex ∨ t = .leaderTransfer

def isLeaderMessage (t : MessageType) : Bool :=
  t = .replicate ∨ t = .installSnapshot ∨ t = .heartbeat ∨ t = .timeoutNow ∨ t = .readIndexResp

/-! ### Progress of the other replicas -/

inductive RemoteState where
  | retry | wait | replicate | snapshot
  deriving DecidableEq

structure SnapshotAck where
  ctick : ℕ
  rejected : Bool

structure Remote where
  /-- the field `match` of the source -/
  matchIndex : ℕ
  next : ℕ
  snapshotIndex : ℕ
  state : RemoteState
  active : Bool
  delayed : SnapshotAck

def newRemote (matchIndex next : ℕ) : Remote := ⟨matchIndex, next, 0, .retry, false, ⟨0, false⟩⟩

namespace Remote

variable (rp : Remote)

def becomeRetry : Remote :=
  { rp with
    next := if rp.state = .snapshot then max (rp.matchIndex + 1) (rp.snapshotIndex + 1) else rp.matchIndex + 1
    snapshotIndex := 0
    state := .retry }

def retryToWait : Remote := if rp.state = .retry then { rp with state := .wait } else rp

def waitToRetry : Remote := if rp.state = .wait then { rp with state := .retry } else rp

def clearSnapshotAck : Remote := { rp with delayed := ⟨0, false⟩ }

def becomeWait : Remote := rp.clearSnapshotAck.becomeRetry.retryToWait

def becomeReplicate : Remote :=
  { rp with next := rp.matchIndex + 1, snapshotIndex := 0, state := .replicate }

def becomeSnapshot (index : ℕ) : Remote := { rp with snapshotIndex := index, state := .snapshot }

def clearPendingSnapshot : Remote := { rp with snapshotIndex := 0 }

/-- The progress after an acknowledged index, and whether it moved. -/
def tryUpdate (index : ℕ) : Remote × Bool :=
  let rp := { rp with next := max rp.next (index + 1) }
  if rp.matchIndex < index then ({ rp.waitToRetry with matchIndex := index }, true) else (rp, false)

def progress (lastIndex : ℕ) : Except Fault Remote :=
  match rp.state with
  | .replicate => .ok { rp with next := lastIndex + 1 }
  | .retry => .ok rp.retryToWait
  | _ => panicked (.unexpected "unexpected remote state")

def respondedTo : Remote :=
  if rp.state = .retry then rp.becomeReplicate
  else if rp.state = .snapshot ∧ rp.snapshotIndex ≤ rp.matchIndex then rp.becomeRetry
  else rp

/-- The progress after a rejection, and whether the rejection was news. -/
def decreaseTo (rejected last : ℕ) : Remote × Bool :=
  if rp.state = .replicate then
    if rejected ≤ rp.matchIndex then (rp, false) else ({ rp with next := rp.matchIndex + 1 }, true)
  else if rp.next - 1 ≠ rejected then (rp, false)
  else ({ rp.waitToRetry with next := max 1 (min rejected (last + 1)) }, true)

def isPaused : Bool := rp.state = .wait ∨ rp.state = .snapshot

def enterRetryState : Remote := if rp.state = .replicate then rp.becomeRetry else rp

end Remote

/-- Remotes by replica. -/
abbrev Remotes := List (ℕ × Remote)

namespace Remotes

variable (rs : Remotes)

def modify (id : ℕ) (f : Remote → Remote) : Remotes :=
  rs.map fun p => (p.1, if p.1 = id then f p.2 else p.2)

def set (id : ℕ) (rp : Remote) : Remotes :=
  if (rs.lookup id).isSome then rs.modify id fun _ => rp else rs ++ [(id, rp)]

def remove (id : ℕ) : Remotes := rs.filter (·.1 ≠ id)

/-- Every replica starts again behind the log, the replica itself at its end. -/
def reset (self lastIndex : ℕ) : Remotes :=
  rs.map fun p => (p.1, newRemote (if p.1 = self then lastIndex else 0) (lastIndex + 1))

/-- The remotes of a membership, with the replica itself at the end of its log. -/
def restore (ids : List ℕ) (self lastIndex : ℕ) : Remotes :=
  ids.map fun id => (id, newRemote (if id = self then lastIndex else 0) (lastIndex + 1))

end Remotes

/-! ### Reads that wait for a quorum -/

structure ReadStatus where
  confirmed : List ℕ
  ctx : SystemCtx
  index : ℕ
  sender : ℕ

/-- The pending reads in the order of their arrival: the map and the queue of the source
hold the same contexts. -/
abbrev ReadIndex := List ReadStatus

namespace ReadIndex

variable (q : ReadIndex)

def addRequest (index : ℕ) (ctx : SystemCtx) (sender : ℕ) : Except Fault ReadIndex :=
  if q.any (·.ctx = ctx) then .ok q
  else if q.getLast?.any (index < ·.index) then panicked (.unexpected "index moved backward in readIndex")
  else .ok (q ++ [⟨[], ctx, index, sender⟩])

/-- The newest pending context. -/
def peepCtx : Option SystemCtx := q.getLast?.map (·.ctx)

/-- Adds a confirmation to the read with a context. -/
def mark (ctx : SystemCtx) (sender : ℕ) : ReadIndex :=
  q.map fun s => if s.ctx = ctx ∧ sender ∉ s.confirmed then { s with confirmed := sender :: s.confirmed } else s

/-- With a quorum behind a context, the reads up to it leave the queue with its index. -/
def confirm (ctx : SystemCtx) (sender quorum : ℕ) : Except Fault (ReadIndex × List ReadStatus) :=
  let q := q.mark ctx sender
  match q.find? (·.ctx = ctx) with
  | none => .ok (q, [])
  | some s =>
    if s.confirmed.length + 1 < quorum then .ok (q, [])
    else
      let older := q.takeWhile (·.ctx ≠ ctx)
      if older.any (s.index < ·.index) then panicked (.unexpected "v.index > s.index is unexpected")
      else .ok (q.drop (older.length + 1), (older ++ [s]).map fun v => { v with index := s.index })

end ReadIndex

structure ReadyToRead where
  index : ℕ
  ctx : SystemCtx

/-! ### The state of the core -/

inductive Role where
  | follower | candidate | preVoteCandidate | leader | nonVoting | witness
  deriving DecidableEq

structure Config where
  replicaID : ℕ
  electionTimeout : ℕ
  heartbeatTimeout : ℕ
  checkQuorum : Bool
  preVote : Bool
  isNonVoting : Bool
  isWitness : Bool
  limits : Limits
  /-- the numbers that the shared random source returns -/
  random : ℕ → ℕ

/-- A leader that the replica has come to know of. -/
structure LeaderUpdate where
  leaderID : ℕ
  term : ℕ
  deriving DecidableEq

structure Node where
  cfg : Config
  state : Role
  term : ℕ
  vote : ℕ
  applied : ℕ
  leaderID : ℕ
  votes : List (ℕ × Bool)
  log : EntryLog
  remotes : Remotes
  nonVotings : Remotes
  witnesses : Remotes
  readIndex : ReadIndex
  msgs : List Message
  droppedReadIndexes : List SystemCtx
  droppedEntries : List Entry
  readyToRead : List ReadyToRead
  leaderUpdate : Option LeaderUpdate
  leaderTransferTarget : ℕ
  tickCount : ℕ
  electionTick : ℕ
  heartbeatTick : ℕ
  randomizedElectionTimeout : ℕ
  /-- how often the random source was used -/
  draws : ℕ
  snapshotting : Bool
  quiesce : Bool
  isLeaderTransferTarget : Bool
  pendingConfigChange : Bool

namespace Node

variable (r : Node) (m : Message)

def replicaID : ℕ := r.cfg.replicaID

def limits : Limits := r.cfg.limits

def isLeader : Bool := r.state = .leader

def isNonVoting : Bool := r.state = .nonVoting

def isWitness : Bool := r.state = .witness

def mustBeLeader : Except Fault Unit :=
  if r.isLeader then .ok () else panicked (.unexpected "is not leader")

def setLeaderID (leaderID : ℕ) : Node :=
  { r with leaderID := leaderID, leaderUpdate := some ⟨leaderID, r.term⟩ }

def leaderTransfering : Bool := r.leaderTransferTarget ≠ 0 ∧ r.isLeader

def abortLeaderTransfer : Node := { r with leaderTransferTarget := 0 }

def numVotingMembers : ℕ := r.remotes.length + r.witnesses.length

def quorum : ℕ := r.numVotingMembers / 2 + 1

def isSingleNodeQuorum : Bool := r.quorum = 1

/-- The voting members with their progress. -/
def votingMembers : Remotes := r.remotes ++ r.witnesses

def nodes : List ℕ := (r.remotes ++ r.nonVotings ++ r.witnesses).map (·.1)

/-- The progress of a replica, whichever kind of member it is. -/
def remote? (id : ℕ) : Option Remote :=
  (r.remotes.lookup id).or ((r.nonVotings.lookup id).or (r.witnesses.lookup id))

/-- Changes the progress of a replica where `remote?` finds it. -/
def modifyRemote (id : ℕ) (f : Remote → Remote) : Node :=
  if (r.remotes.lookup id).isSome then { r with remotes := r.remotes.modify id f }
  else if (r.nonVotings.lookup id).isSome then { r with nonVotings := r.nonVotings.modify id f }
  else { r with witnesses := r.witnesses.modify id f }

def selfRemoved : Bool :=
  match r.state with
  | .nonVoting => (r.nonVotings.lookup r.replicaID).isNone
  | .witness => (r.witnesses.lookup r.replicaID).isNone
  | _ => (r.remotes.lookup r.replicaID).isNone

/-! ### Sending -/

def finalizeMessageTerm : Except Fault Message :=
  if m.term = 0 ∧ m.type = .requestVote then panicked (.unexpected "sending RequestVote with 0 term")
  else if 0 < m.term ∧ !isRequestVoteMessage m.type ∧ m.type ≠ .requestPreVoteResp then
    panicked (.unexpected "term unexpectedly set for message type")
  else if !isRequestMessage m.type ∧ !isRequestVoteMessage m.type ∧ m.type ≠ .requestPreVoteResp then
    .ok { m with term := r.term }
  else .ok m

def send (m : Message) : Except Fault Node := do
  let m ← r.finalizeMessageTerm { m with sender := r.replicaID }
  .ok { r with msgs := r.msgs ++ [m] }

def makeMetadataEntries (ents : List Entry) : List Entry :=
  ents.map fun e => if e.type = .configChange then e else { e with type := .metadata, cmd := [] }

def makeReplicateMessage (dest next maxSize : ℕ) : Except Fault Message := do
  let term ← r.log.term r.limits (next - 1)
  let ents ← r.log.entries r.limits next maxSize
  if ents.getLast?.any (·.index ≠ next - 1 + ents.length) then
    panicked (.unexpected "unexpected last index in Replicate")
  else .ok {
    type := .replicate
    target := dest
    logIndex := next - 1
    logTerm := term
    entries := if (r.witnesses.lookup dest).isSome then makeMetadataEntries ents else ents
    commit := r.log.committed }

def sendInstallSnapshot (dest : ℕ) : Except Fault Node :=
  let ss := r.log.snapshot
  if ss.isEmpty then panicked (.unexpected "got an empty snapshot")
  else (r.modifyRemote dest (·.becomeSnapshot ss.index)).send
    { type := .installSnapshot, target := dest, snapshot := ss }

/-- A Replicate message leaves, and the progress of its receiver moves when it has entries. -/
def sendReplicate (rp : Remote) (m : Message) : Except Fault Node :=
  match m.entries.getLast? with
  | none => r.send m
  | some e => do
    let rp ← rp.progress e.index
    (r.modifyRemote m.target fun _ => rp).send m

def sendReplicateMessage (dest : ℕ) : Except Fault Node :=
  match r.remote? dest with
  | none => panicked (.unexpected "failed to get the remote instance")
  | some rp =>
    if rp.isPaused then .ok r
    else
      match r.makeReplicateMessage dest rp.next r.limits.maxEntrySize with
      | .error (.panicked p) => panicked p
      | .error _ => if rp.active then r.sendInstallSnapshot dest else .ok r
      | .ok m => r.sendReplicate rp m

/-- One step for each member of a list. -/
def forEach {α : Type} (f : Node → α → Except Fault Node) : List α → Node → Except Fault Node
  | [], r => .ok r
  | a :: as, r => do
    let r ← f r a
    forEach f as r

def broadcastReplicateMessage : Except Fault Node := do
  r.mustBeLeader
  if (r.nonVotings.lookup r.replicaID).isSome then panicked (.unexpected "nonVoting is broadcasting Replicate msg")
  else forEach sendReplicateMessage (r.nodes.filter (· ≠ r.replicaID)) r

def sendHeartbeatMessage (dest : ℕ) (hint : SystemCtx) (matchIndex : ℕ) : Except Fault Node :=
  r.send {
    type := .heartbeat
    target := dest
    commit := min matchIndex r.log.committed
    hint := hint.low
    hintHigh := hint.high }

def broadcastHeartbeatMessageWithHint (ctx : SystemCtx) : Except Fault Node :=
  let learners := if ctx = ⟨0, 0⟩ then r.nonVotings else []
  forEach (fun r p => r.sendHeartbeatMessage p.1 ctx p.2.matchIndex)
    (r.votingMembers.filter (·.1 ≠ r.replicaID) ++ learners) r

def broadcastHeartbeatMessage : Except Fault Node := do
  r.mustBeLeader
  r.broadcastHeartbeatMessageWithHint (r.readIndex.peepCtx.getD ⟨0, 0⟩)

def sendTimeoutNowMessage (dest : ℕ) : Except Fault Node := r.send { type := .timeoutNow, target := dest }

/-! ### Appending and committing -/

def matchValues : List ℕ := (r.votingMembers.map (·.2.matchIndex)).mergeSort

/-- Commits what a quorum holds, if it is of the current term, and whether it did. -/
def tryCommit : Except Fault (Node × Bool) := do
  r.mustBeLeader
  match r.matchValues[r.numVotingMembers - r.quorum]? with
  | none => panicked (.unexpected "index out of range")
  | some q => do
    let res ← r.log.tryCommit r.limits q r.term
    .ok ({ r with log := res.1 }, res.2)

/-- The entries with the term and the indexes they get in the log. -/
def stamp (term lastIndex : ℕ) (ents : List Entry) : List Entry :=
  ents.mapIdx fun i e => { e with term := term, index := lastIndex + 1 + i }

def appendEntries (ents : List Entry) : Except Fault Node := do
  let log ← r.log.append (stamp r.term r.log.lastIndex ents)
  let r := { r with log := log }
  if (r.remotes.lookup r.replicaID).isNone then panicked (.unexpected "nil remote")
  else
    let r := { r with remotes := r.remotes.modify r.replicaID fun rp => (rp.tryUpdate r.log.lastIndex).1 }
    if r.isSingleNodeQuorum then do
      let res ← r.tryCommit
      .ok res.1
    else .ok r

/-! ### State transitions -/

def setRandomizedElectionTimeout : Node :=
  { r with
    randomizedElectionTimeout := r.cfg.electionTimeout + r.cfg.random r.draws % r.cfg.electionTimeout
    draws := r.draws + 1 }

def resetElectionTimeout : Node := { r with electionTick := 0 }.setRandomizedElectionTimeout

def reset (term : ℕ) (resetTimeout : Bool) : Node :=
  let r := if resetTimeout then r.resetElectionTimeout else r
  { r with
    vote := if r.term = term then r.vote else 0
    term := term
    votes := []
    heartbeatTick := 0
    readIndex := []
    pendingConfigChange := false
    leaderTransferTarget := 0
    remotes := r.remotes.reset r.replicaID r.log.lastIndex
    nonVotings := r.nonVotings.reset r.replicaID r.log.lastIndex
    witnesses := r.witnesses.reset r.replicaID r.log.lastIndex }

def toFollowerState (term leaderID : ℕ) (resetTimeout : Bool) : Except Fault Node :=
  if r.isWitness then panicked (.unexpected "transitioning to follower from witness state")
  else .ok (({ r with state := .follower }.reset term resetTimeout).setLeaderID leaderID)

def becomeFollower (term leaderID : ℕ) : Except Fault Node := r.toFollowerState term leaderID true

def becomeFollowerKE (term leaderID : ℕ) : Except Fault Node := r.toFollowerState term leaderID false

def becomeNonVoting (term leaderID : ℕ) : Except Fault Node :=
  if !r.isNonVoting then panicked (.unexpected "transitioning to nonVoting state from other states")
  else .ok ((r.reset term true).setLeaderID leaderID)

def becomeWitness (term leaderID : ℕ) : Except Fault Node :=
  if !r.isWitness then panicked (.unexpected "transitioning to witness state from non-witness")
  else .ok ((r.reset term true).setLeaderID leaderID)

/-- A leader, a learner and a witness do not become candidates. -/
def mayBeCandidate : Except Fault Unit :=
  if r.isLeader then panicked (.unexpected "transitioning to candidate state from leader")
  else if r.isNonVoting then panicked (.unexpected "nonVoting is becoming candidate")
  else if r.isWitness then panicked (.unexpected "witness is becoming candidate")
  else .ok ()

def becomePreVoteCandidate : Except Fault Node :=
  if !r.cfg.preVote then panicked (.unexpected "becomePreVoteCandidate called when preVote not enabled")
  else do
    r.mayBeCandidate
    .ok (({ r with state := .preVoteCandidate }.reset r.term true).setLeaderID 0)

def becomeCandidate : Except Fault Node := do
  r.mayBeCandidate
  .ok { ({ r with state := .candidate }.reset (r.term + 1) true).setLeaderID 0 with vote := r.replicaID }

def countConfigChange (ents : List Entry) : ℕ := ents.countP (·.type = .configChange)

/-- The config changes from an index on, page by page; each page moves the index. -/
def countPages (r : Node) : (pages idx : ℕ) → Except Fault ℕ
  | 0, _ => .ok 0
  | pages + 1, idx => do
    let ents ← r.log.entries r.limits idx r.limits.maxEntriesToApplySize
    match ents.getLast? with
    | none => .ok 0
    | some e => do
      let rest ← r.countPages pages (e.index + 1)
      .ok (countConfigChange ents + rest)

def getPendingConfigChangeCount : Except Fault ℕ :=
  r.countPages (r.log.lastIndex + 1 - r.log.committed) (r.log.committed + 1)

def preLeaderPromotionHandleConfigChange : Except Fault Node := do
  let n ← r.getPendingConfigChangeCount
  if 1 < n then panicked (.unexpected "multiple uncommitted config change entries")
  else .ok { r with pendingConfigChange := r.pendingConfigChange || n == 1 }

def becomeLeader : Except Fault Node :=
  if r.state ≠ .leader ∧ r.state ≠ .candidate then panicked (.unexpected "transitioning to leader state")
  else do
    let r := ({ r with state := .leader }.reset r.term true).setLeaderID r.replicaID
    let r ← r.preLeaderPromotionHandleConfigChange
    r.appendEntries [⟨0, 0, .application, []⟩]

/-! ### Elections -/

/-- The first answer of a replica counts. -/
def addVote (sender : ℕ) (granted : Bool) : Node :=
  { r with votes := if (r.votes.lookup sender).isSome then r.votes else r.votes ++ [(sender, granted)] }

def votedFor : ℕ := r.votes.countP (·.2)

def campaign : Except Fault Node := do
  let r ← r.becomeCandidate
  let r := r.addVote r.replicaID true
  if r.isSingleNodeQuorum then r.becomeLeader
  else
    let hint := if r.isLeaderTransferTarget then r.replicaID else 0
    let r := { r with isLeaderTransferTarget := false }
    let lastTerm ← r.log.lastTerm r.limits
    forEach (fun r k => r.send {
        type := .requestVote
        term := r.term
        target := k
        logIndex := r.log.lastIndex
        logTerm := lastTerm
        hint := hint })
      ((r.votingMembers.map (·.1)).filter (· ≠ r.replicaID)) r

def preVoteCampaign : Except Fault Node := do
  let r ← r.becomePreVoteCandidate
  let r := r.addVote r.replicaID true
  if r.isSingleNodeQuorum then r.campaign
  else
    let lastTerm ← r.log.lastTerm r.limits
    forEach (fun r k => r.send {
        type := .requestPreVote
        term := r.term + 1
        target := k
        logIndex := r.log.lastIndex
        logTerm := lastTerm })
      ((r.votingMembers.map (·.1)).filter (· ≠ r.replicaID)) r

/-! ### Membership -/

def addNode (id : ℕ) : Except Fault Node :=
  let r := { r with pendingConfigChange := false }
  if id = r.replicaID ∧ r.isWitness then panicked (.unexpected "is witness")
  else if (r.remotes.lookup id).isSome then .ok r
  else
    match r.nonVotings.lookup id with
    | some rp =>
      let r := { r with nonVotings := r.nonVotings.remove id, remotes := r.remotes.set id rp }
      if id = r.replicaID then r.becomeFollower r.term r.leaderID else .ok r
    | none =>
      if (r.witnesses.lookup id).isSome then panicked (.unexpected "could not promote witness to full member")
      else .ok { r with remotes := r.remotes.set id (newRemote 0 (r.log.lastIndex + 1)) }

def addNonVoting (id : ℕ) : Except Fault Node :=
  let r := { r with pendingConfigChange := false }
  if id = r.replicaID ∧ !r.isNonVoting then panicked (.unexpected "is not a nonVoting")
  else if (r.nonVotings.lookup id).isSome then .ok r
  else .ok { r with nonVotings := r.nonVotings.set id (newRemote 0 (r.log.lastIndex + 1)) }

def addWitness (id : ℕ) : Except Fault Node :=
  let r := { r with pendingConfigChange := false }
  if id = r.replicaID ∧ !r.isWitness then panicked (.unexpected "is not witness")
  else if (r.witnesses.lookup id).isSome then .ok r
  else .ok { r with witnesses := r.witnesses.set id (newRemote 0 (r.log.lastIndex + 1)) }

/-- The leader lets go of a replica that was removed. -/
def stepDownRemoved (id : ℕ) : Except Fault Node :=
  if r.replicaID = id ∧ r.isLeader then r.becomeFollower r.term 0 else .ok r

def removeNode (id : ℕ) : Except Fault Node := do
  let r := { r with
    remotes := r.remotes.remove id
    nonVotings := r.nonVotings.remove id
    witnesses := r.witnesses.remove id
    pendingConfigChange := false }
  let r ← r.stepDownRemoved id
  let r := if r.leaderTransfering ∧ r.leaderTransferTarget = id then r.abortLeaderTransfer else r
  if r.isLeader ∧ 0 < r.numVotingMembers then do
    let res ← r.tryCommit
    if res.2 then res.1.broadcastReplicateMessage else .ok res.1
  else .ok r

/-- A learner that a snapshot lists as a voter becomes one. -/
def promoteSelf (ids : List ℕ) : Except Fault Node :=
  if r.replicaID ∈ ids ∧ r.isNonVoting then r.becomeFollower r.term r.leaderID else .ok r

/-- A leader that a snapshot does not list steps down. -/
def stepDownUnlisted : Except Fault Node :=
  if r.selfRemoved ∧ r.isLeader then r.becomeFollower r.term 0 else .ok r

def restoreRemotes (ss : Snapshot) : Except Fault Node := do
  let r ← { r with remotes := [] }.promoteSelf ss.membership.addresses
  if ss.membership.addresses.any fun id => (r.witnesses.lookup id).isSome then
    panicked (.unexpected "Assumed witness could not promote to full member")
  else
    let r ← { r with remotes := .restore ss.membership.addresses r.replicaID r.log.lastIndex }.stepDownUnlisted
    .ok { r with
      nonVotings := .restore ss.membership.nonVotings r.replicaID r.log.lastIndex
      witnesses := .restore ss.membership.witnesses r.replicaID r.log.lastIndex }

/-! ### Handlers -/

def handleHeartbeatMessage : Except Fault Node := do
  let log ← r.log.commitTo m.commit
  ({ r with log := log } : Node).send
    { type := .heartbeatResp, target := m.sender, hint := m.hint, hintHigh := m.hintHigh }

/-- Takes a snapshot in the place of the log unless the log has it, and whether it did. -/
def restore (ss : Snapshot) : Except Fault (Node × Bool) :=
  if ss.index ≤ r.log.committed then .ok (r, false)
  else if !r.isNonVoting ∧ r.replicaID ∈ ss.membership.nonVotings then panicked (.unexpected "converting to nonVoting")
  else if !r.isWitness ∧ r.replicaID ∈ ss.membership.witnesses then panicked (.unexpected "converting to witness")
  else do
    let same ← r.log.matchTerm r.limits ss.index ss.term
    if same then do
      let log ← r.log.commitTo ss.index
      .ok ({ r with log := log }, false)
    else do
      let log ← r.log.restore ss
      .ok ({ r with log := log }, true)

def handleInstallSnapshotMessage : Except Fault Node := do
  let res ← r.restore m.snapshot
  let index := if res.2 then res.1.log.lastIndex else res.1.log.committed
  res.1.send { type := .replicateResp, target := m.sender, logIndex := index }

def handleReplicateMessage : Except Fault Node :=
  if m.logIndex < r.log.committed then
    r.send { type := .replicateResp, target := m.sender, logIndex := r.log.committed }
  else do
    let same ← r.log.matchTerm r.limits m.logIndex m.logTerm
    if same then do
      let log ← r.log.tryAppend r.limits m.logIndex m.entries
      let lastIdx := m.logIndex + m.entries.length
      let log ← log.commitTo (min lastIdx m.commit)
      ({ r with log := log } : Node).send { type := .replicateResp, target := m.sender, logIndex := lastIdx }
    else
      r.send {
        type := .replicateResp
        target := m.sender
        reject := true
        logIndex := m.logIndex
        hint := r.log.lastIndex }

def canGrantVote : Bool := r.vote = 0 ∨ r.vote = m.sender ∨ r.term < m.term

def handleNodeRequestVote : Except Fault Node := do
  let isUpToDate ← r.log.upToDate r.limits m.logIndex m.logTerm
  if r.canGrantVote m ∧ isUpToDate then
    ({ r with electionTick := 0, vote := m.sender } : Node).send { type := .requestVoteResp, target := m.sender }
  else r.send { type := .requestVoteResp, target := m.sender, reject := true }

def handleNodeRequestPreVote : Except Fault Node := do
  let isUpToDate ← r.log.upToDate r.limits m.logIndex m.logTerm
  if m.term < r.term then panicked (.unexpected "m.term < r.term")
  else if r.term < m.term ∧ isUpToDate then
    r.send { type := .requestPreVoteResp, target := m.sender, term := m.term }
  else r.send { type := .requestPreVoteResp, target := m.sender, term := r.term, reject := true }

def hasConfigChangeToApply : Bool := r.applied < r.log.committed

def handleNodeElection : Except Fault Node :=
  if r.isLeader then .ok r
  else if r.hasConfigChangeToApply then .ok r
  else if r.cfg.preVote ∧ !r.isLeaderTransferTarget then r.preVoteCampaign
  else r.campaign

/-- Kinds of membership change by their number in a message. -/
def handleNodeConfigChange : Except Fault Node :=
  if m.reject then .ok { r with pendingConfigChange := false }
  else
    match m.hintHigh with
    | 0 => r.addNode m.hint
    | 1 => r.removeNode m.hint
    | 2 => r.addNonVoting m.hint
    | 3 => r.addWitness m.hint
    | _ => panicked (.unexpected "unexpected config change type")

def reportDroppedReadIndex : Node :=
  { r with droppedReadIndexes := r.droppedReadIndexes ++ [m.ctx] }

def reportDroppedProposal : Node :=
  { r with droppedEntries := r.droppedEntries ++ m.entries }

def handleLeaderHeartbeat : Except Fault Node := r.broadcastHeartbeatMessage

/-- Counts the members that were active, and starts the count anew. -/
def leaderHasQuorum : Node × Bool :=
  let c := r.votingMembers.countP fun p => p.1 = r.replicaID ∨ p.2.active
  let clear (rs : Remotes) : Remotes := rs.map fun p =>
    (p.1, if p.1 = r.replicaID ∨ p.2.active then { p.2 with active := false } else p.2)
  ({ r with remotes := clear r.remotes, witnesses := clear r.witnesses }, r.quorum ≤ c)

def handleLeaderCheckQuorum : Except Fault Node := do
  r.mustBeLeader
  let res := r.leaderHasQuorum
  if res.2 then .ok res.1 else res.1.becomeFollower res.1.term 0

/-- A config change while another one is pending becomes an empty entry. -/
def screenEntries (pending : Bool) : List Entry → List Entry × List Entry × Bool
  | [] => ([], [], pending)
  | e :: es =>
    if e.type = .configChange then
      let rest := screenEntries true es
      if pending then (⟨0, 0, .application, []⟩ :: rest.1, e :: rest.2.1, rest.2.2)
      else (e :: rest.1, rest.2.1, rest.2.2)
    else
      let rest := screenEntries pending es
      (e :: rest.1, rest.2.1, rest.2.2)

def handleLeaderPropose : Except Fault Node := do
  r.mustBeLeader
  if r.leaderTransfering then .ok (r.reportDroppedProposal m)
  else
    let screened := screenEntries r.pendingConfigChange m.entries
    let r := { r with
      droppedEntries := r.droppedEntries ++ screened.2.1
      pendingConfigChange := screened.2.2 }
    let r ← r.appendEntries screened.1
    r.broadcastReplicateMessage

def hasCommittedEntryAtCurrentTerm : Except Fault Bool :=
  if r.term = 0 then panicked (.unexpected "not suppose to reach here")
  else do
    let t ← r.log.termOrZero r.limits r.log.committed
    .ok (t = r.term)

def addReadyToRead (index : ℕ) (ctx : SystemCtx) : Node :=
  { r with readyToRead := r.readyToRead ++ [⟨index, ctx⟩] }

def handleLeaderReadIndex : Except Fault Node := do
  r.mustBeLeader
  if (r.witnesses.lookup m.sender).isSome then .ok r
  else if r.isSingleNodeQuorum then
    let r := r.addReadyToRead r.log.committed m.ctx
    if m.sender ≠ r.replicaID ∧ (r.nonVotings.lookup m.sender).isSome then
      r.send {
        type := .readIndexResp
        target := m.sender
        logIndex := r.log.committed
        hint := m.hint
        hintHigh := m.hintHigh
        commit := m.commit }
    else .ok r
  else do
    let ready ← r.hasCommittedEntryAtCurrentTerm
    if !ready then .ok (r.reportDroppedReadIndex m)
    else do
      let q ← r.readIndex.addRequest r.log.committed m.ctx m.sender
      ({ r with readIndex := q } : Node).broadcastHeartbeatMessageWithHint m.ctx

/-- The reply to a replica whose log moved: commit and broadcast, or go on with the replica. -/
def advance (sender : ℕ) (paused : Bool) : Except Fault Node := do
  let res ← r.tryCommit
  if res.2 then res.1.broadcastReplicateMessage
  else if paused then res.1.sendReplicateMessage sender
  else .ok res.1

def handleLeaderReplicateResp (rp : Remote) : Except Fault Node := do
  r.mustBeLeader
  let rp := { rp with active := true }
  if m.reject then
    let res := rp.decreaseTo m.logIndex m.hint
    if res.2 then (r.modifyRemote m.sender fun _ => res.1.enterRetryState).sendReplicateMessage m.sender
    else .ok (r.modifyRemote m.sender fun _ => res.1)
  else
    let res := rp.tryUpdate m.logIndex
    if res.2 then do
      let r ← (r.modifyRemote m.sender fun _ => res.1.respondedTo).advance m.sender rp.isPaused
      if r.leaderTransfering ∧ m.sender = r.leaderTransferTarget ∧
          (r.remote? m.sender).map (·.matchIndex) = some r.log.lastIndex then
        r.sendTimeoutNowMessage r.leaderTransferTarget
      else .ok r
    else .ok (r.modifyRemote m.sender fun _ => res.1)

/-- A read that was confirmed is ready here, or its index goes back to who asked. -/
def releaseRead (s : ReadStatus) : Except Fault Node :=
  if s.sender = 0 ∨ s.sender = r.replicaID then .ok (r.addReadyToRead s.index s.ctx)
  else
    r.send {
      type := .readIndexResp
      target := s.sender
      logIndex := s.index
      hint := s.ctx.low
      hintHigh := s.ctx.high }

def handleReadIndexLeaderConfirmation : Except Fault Node := do
  let res ← r.readIndex.confirm m.ctx m.sender r.quorum
  forEach releaseRead res.2 { r with readIndex := res.1 }

def handleLeaderHeartbeatResp (rp : Remote) : Except Fault Node := do
  r.mustBeLeader
  let rp := { rp with active := true }.waitToRetry
  let r := r.modifyRemote m.sender fun _ => rp
  let r ← if rp.matchIndex < r.log.lastIndex then r.sendReplicateMessage m.sender else .ok r
  if m.hint ≠ 0 then r.handleReadIndexLeaderConfirmation m else .ok r

def handleLeaderTransfer : Except Fault Node := do
  r.mustBeLeader
  if m.hint = 0 then panicked (.unexpected "leader transfer target not set")
  else if r.leaderTransfering then .ok r
  else if r.replicaID = m.hint then .ok r
  else
    match r.remotes.lookup m.hint with
    | none => .ok r
    | some rp =>
      let r := { r with leaderTransferTarget := m.hint, electionTick := 0 }
      if rp.matchIndex = r.log.lastIndex then r.sendTimeoutNowMessage m.hint else .ok r

def handleLeaderSnapshotStatus (rp : Remote) : Except Fault Node :=
  if rp.state ≠ .snapshot then .ok r
  else if m.hint = 0 then
    let rp := if m.reject then rp.clearPendingSnapshot else rp
    .ok (r.modifyRemote m.sender fun _ => rp.becomeWait)
  else .ok { r.modifyRemote m.sender fun _ => { rp with delayed := ⟨m.hint, m.reject⟩ } with snapshotting := true }

def handleLeaderUnreachable (rp : Remote) : Except Fault Node :=
  .ok (r.modifyRemote m.sender fun _ => rp.enterRetryState)

/-- A handler for messages of replicas whose progress is known. -/
def lw (f : Node → Message → Remote → Except Fault Node) (r : Node) (m : Message) : Except Fault Node :=
  match r.remote? m.sender with
  | none => .ok r
  | some rp => f r m rp

def leaderIsAvailable : Node := { r with electionTick := 0 }

/-- A request goes on to the leader, if one is known. -/
def forward (drop : Node → Message → Node) : Except Fault Node :=
  if r.leaderID = 0 then .ok (drop r m) else r.send { m with target := r.leaderID }

def handleFollowerPropose : Except Fault Node := r.forward m reportDroppedProposal

def handleFollowerReadIndex : Except Fault Node := r.forward m reportDroppedReadIndex

def handleFollowerLeaderTransfer : Except Fault Node := r.forward m fun r _ => r

def handleFollowerReplicate : Except Fault Node :=
  (r.leaderIsAvailable.setLeaderID m.sender).handleReplicateMessage m

def handleFollowerHeartbeat : Except Fault Node :=
  (r.leaderIsAvailable.setLeaderID m.sender).handleHeartbeatMessage m

def handleFollowerInstallSnapshot : Except Fault Node :=
  (r.leaderIsAvailable.setLeaderID m.sender).handleInstallSnapshotMessage m

def handleFollowerReadIndexResp : Except Fault Node :=
  .ok ((r.leaderIsAvailable.setLeaderID m.sender).addReadyToRead m.logIndex m.ctx)

def handleCandidatePropose : Except Fault Node := .ok (r.reportDroppedProposal m)

/-- The dropped read is reported twice. -/
def handleCandidateReadIndex : Except Fault Node :=
  .ok ((r.reportDroppedReadIndex m).reportDroppedReadIndex m)

def handleCandidateReplicate : Except Fault Node := do
  let r ← r.becomeFollower r.term m.sender
  r.handleReplicateMessage m

def handleCandidateInstallSnapshot : Except Fault Node := do
  let r ← r.becomeFollower r.term m.sender
  r.handleInstallSnapshotMessage m

def handleCandidateHeartbeat : Except Fault Node := do
  let r ← r.becomeFollower r.term m.sender
  r.handleHeartbeatMessage m

def handleCandidateRequestVoteResp : Except Fault Node :=
  if (r.nonVotings.lookup m.sender).isSome then .ok r
  else
    let r := r.addVote m.sender !m.reject
    if r.votedFor = r.quorum then do
      let r ← r.becomeLeader
      r.broadcastReplicateMessage
    else if r.votes.length - r.votedFor = r.quorum then r.becomeFollower r.term 0
    else .ok r

def handlePreVoteCandidateRequestPreVoteResp : Except Fault Node :=
  if (r.nonVotings.lookup m.sender).isSome then .ok r
  else
    let r := r.addVote m.sender !m.reject
    if r.votedFor = r.quorum then r.campaign
    else if r.votes.length - r.votedFor = r.quorum then r.becomeFollower r.term 0
    else .ok r

/-! ### Dispatch -/

/-- The handlers for everything but ticks. -/
def handleBase : Except Fault Node :=
  match r.state, m.type with
  | .candidate, .heartbeat | .preVoteCandidate, .heartbeat => r.handleCandidateHeartbeat m
  | .candidate, .propose | .preVoteCandidate, .propose => r.handleCandidatePropose m
  | .candidate, .readIndex | .preVoteCandidate, .readIndex => r.handleCandidateReadIndex m
  | .candidate, .replicate | .preVoteCandidate, .replicate => r.handleCandidateReplicate m
  | .candidate, .installSnapshot | .preVoteCandidate, .installSnapshot => r.handleCandidateInstallSnapshot m
  | .candidate, .requestVoteResp => r.handleCandidateRequestVoteResp m
  | .preVoteCandidate, .requestPreVoteResp => r.handlePreVoteCandidateRequestPreVoteResp m
  | .follower, .propose | .nonVoting, .propose => r.handleFollowerPropose m
  | .follower, .replicate | .nonVoting, .replicate | .witness, .replicate => r.handleFollowerReplicate m
  | .follower, .heartbeat | .nonVoting, .heartbeat | .witness, .heartbeat => r.handleFollowerHeartbeat m
  | .follower, .installSnapshot | .nonVoting, .installSnapshot | .witness, .installSnapshot =>
    r.handleFollowerInstallSnapshot m
  | .follower, .readIndex | .nonVoting, .readIndex => r.handleFollowerReadIndex m
  | .follower, .readIndexResp | .nonVoting, .readIndexResp => r.handleFollowerReadIndexResp m
  | .follower, .leaderTransfer => r.handleFollowerLeaderTransfer m
  | .leader, .leaderHeartbeat => r.handleLeaderHeartbeat
  | .leader, .checkQuorum => r.handleLeaderCheckQuorum
  | .leader, .propose => r.handleLeaderPropose m
  | .leader, .readIndex => r.handleLeaderReadIndex m
  | .leader, .replicateResp => lw handleLeaderReplicateResp r m
  | .leader, .heartbeatResp => lw handleLeaderHeartbeatResp r m
  | .leader, .snapshotStatus => lw handleLeaderSnapshotStatus r m
  | .leader, .unreachable => lw handleLeaderUnreachable r m
  | .leader, .leaderTransfer => r.handleLeaderTransfer m
  | .nonVoting, .election | .witness, .election => .ok r
  | _, .election => r.handleNodeElection
  | _, .requestVote => r.handleNodeRequestVote m
  | _, .requestPreVote => r.handleNodeRequestPreVote m
  | _, .configChangeEvent => r.handleNodeConfigChange m
  | _, .snapshotReceived => r.restoreRemotes m.snapshot
  | _, _ => .ok r

def dropRequestVoteFromHighTermNode : Except Fault Bool :=
  if !isRequestVoteMessage m.type ∨ !r.cfg.checkQuorum ∨ m.term ≤ r.term then .ok false
  else if m.hint = m.sender then .ok false
  else if r.isLeader ∧ !r.quiesce ∧ r.cfg.electionTimeout ≤ r.electionTick then
    panicked (.unexpected "r.electionTick >= r.electionTimeout on leader")
  else .ok (r.leaderID ≠ 0 ∧ r.electionTick < r.cfg.electionTimeout)

def isPreVoteMessageWithExpectedHigherTerm (m : Message) : Bool :=
  m.type = .requestPreVote ∨ m.type = .requestPreVoteResp ∧ !m.reject

/-- The replica enters the term of a message from a later one. -/
def enterTerm : Except Fault Node :=
  let leaderID := if isLeaderMessage m.type then m.sender else 0
  if r.isNonVoting then r.becomeNonVoting m.term leaderID
  else if r.isWitness then r.becomeWitness m.term leaderID
  else if m.type = .requestVote then r.becomeFollowerKE m.term leaderID
  else r.becomeFollower m.term leaderID

/-- The replica after it saw the term of a message, and whether the message is ignored. -/
def onMessageTermNotMatched : Except Fault (Node × Bool) :=
  if m.term = 0 ∨ m.term = r.term then .ok (r, false)
  else do
    let drop ← r.dropRequestVoteFromHighTermNode m
    if drop then .ok (r, true)
    else if r.term < m.term then
      if isPreVoteMessageWithExpectedHigherTerm m then .ok (r, false)
      else do
        let r ← r.enterTerm m
        .ok (r, false)
    else if m.type = .requestPreVote ∨ isLeaderMessage m.type ∧ (r.cfg.checkQuorum ∨ r.cfg.preVote) then do
      let r ← r.send { type := .noOP, target := m.sender }
      .ok (r, true)
    else .ok (r, true)

/-- A message with the handlers it may reach, after its term was looked at. -/
def handleWith (h : Node → Message → Except Fault Node) (r : Node) (m : Message) : Except Fault Node :=
  if !r.cfg.preVote ∧ isPreVoteMessage m.type then
    panicked (.unexpected "received preVote message when preVote is not enabled")
  else do
    let res ← r.onMessageTermNotMatched m
    if res.2 then .ok res.1
    else if !isPreVoteMessage m.type ∧ m.term ≠ 0 ∧ res.1.term ≠ m.term then
      panicked (.unexpected "mismatched term found")
    else h res.1 m

/-- One of the messages that a tick produces. -/
def handleLocal : Except Fault Node := handleWith handleBase r m

/-! ### Ticks -/

def timeToAbortLeaderTransfer : Bool :=
  r.leaderTransfering ∧ r.cfg.electionTimeout ≤ r.electionTick

def nonLeaderTick : Except Fault Node :=
  let r := { r with electionTick := r.electionTick + 1 }
  if r.isNonVoting ∨ r.isWitness then .ok r
  else if !r.selfRemoved ∧ r.randomizedElectionTimeout ≤ r.electionTick then
    ({ r with electionTick := 0 } : Node).handleLocal { type := .election, sender := r.replicaID }
  else .ok r

def tickCheckQuorum : Except Fault Node :=
  if r.cfg.electionTimeout ≤ r.electionTick then
    let r := { r with electionTick := 0 }
    if r.cfg.checkQuorum then r.handleLocal { type := .checkQuorum, sender := r.replicaID } else .ok r
  else .ok r

def tickHeartbeat : Except Fault Node :=
  let r := { r with heartbeatTick := r.heartbeatTick + 1 }
  if r.cfg.heartbeatTimeout ≤ r.heartbeatTick then
    ({ r with heartbeatTick := 0 } : Node).handleLocal { type := .leaderHeartbeat, sender := r.replicaID }
  else .ok r

/-- Counts down to the answer about a snapshot that was sent. -/
def tickSnapshotAck (p : ℕ × Remote) : Except Fault Node :=
  if p.2.state ≠ .snapshot then .ok r
  else
    let ack := { p.2.delayed with ctick := p.2.delayed.ctick - 1 }
    let r := r.modifyRemote p.1 fun rp => { rp with delayed := ack }
    if p.2.delayed.ctick = 1 then do
      let r ← r.handleLocal { type := .snapshotStatus, sender := p.1, reject := ack.rejected }
      .ok (r.modifyRemote p.1 (·.clearSnapshotAck))
    else .ok { r with snapshotting := true }

def checkPendingSnapshotAck : Except Fault Node :=
  if r.isLeader ∧ r.snapshotting then
    forEach tickSnapshotAck (r.remotes ++ r.nonVotings ++ r.witnesses) { r with snapshotting := false }
  else .ok r

def leaderTick : Except Fault Node := do
  r.mustBeLeader
  let r := { r with electionTick := r.electionTick + 1 }
  let abort := r.timeToAbortLeaderTransfer
  let r ← r.tickCheckQuorum
  let r := if abort then r.abortLeaderTransfer else r
  let r ← r.tickHeartbeat
  r.checkPendingSnapshotAck

def tick : Except Fault Node :=
  let r := { r with quiesce := false, tickCount := r.tickCount + 1 }
  if r.isLeader then r.leaderTick else r.nonLeaderTick

def quiescedTick : Node := { r with quiesce := true, electionTick := r.electionTick + 1 }

def handleLocalTick : Except Fault Node :=
  if m.reject then .ok r.quiescedTick else r.tick

def handleFollowerTimeoutNow : Except Fault Node := do
  let r ← { r with electionTick := r.randomizedElectionTimeout, isLeaderTransferTarget := true }.tick
  .ok { r with isLeaderTransferTarget := false }

/-- The handlers of the source's table. -/
def handleAny : Except Fault Node :=
  match r.state, m.type with
  | _, .localTick => r.handleLocalTick m
  | .follower, .timeoutNow => r.handleFollowerTimeoutNow
  | _, _ => r.handleBase m

def handle (m : Message) : Except Fault Node := handleWith handleAny r m

end Node

end Armada.Raft
