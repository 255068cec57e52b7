import Armada.Raft.Moves

/-! Elections in a cluster with fixed members. Messages may be lost, repeated and reordered,
replicas stop at any moment and start again from what they persisted. A vote leaves a replica
after it was persisted, so no voter ever supports two candidates in a term. -/

namespace Armada.Raft

open Program List

/-! ### Starting a replica -/

/-- The state of `newRaft` before it takes its role. -/
def Node.unstarted (cfg : Config) (mem : Membership) (log : EntryLog) (st : State) (draws : ℕ) : Node where
  cfg := cfg
  state := if cfg.isNonVoting then .nonVoting else if cfg.isWitness then .witness else .follower
  term := st.term
  vote := st.vote
  applied := 0
  leaderID := 0
  votes := []
  log := log
  remotes := mem.addresses.map (·, newRemote 0 1)
  nonVotings := mem.nonVotings.map (·, newRemote 0 1)
  witnesses := mem.witnesses.map (·, newRemote 0 1)
  readIndex := []
  msgs := []
  droppedReadIndexes := []
  droppedEntries := []
  readyToRead := []
  leaderUpdate := none
  leaderTransferTarget := 0
  tickCount := 0
  electionTick := 0
  heartbeatTick := 0
  randomizedElectionTimeout := 0
  draws := draws
  snapshotting := false
  quiesce := false
  isLeaderTransferTarget := false
  pendingConfigChange := false

/-- The commit index of the state that was found. -/
def loadCommit (log : EntryLog) (st : State) : Except Fault EntryLog :=
  if st = emptyState then .ok log
  else if st.commit < log.committed ∨ log.lastIndex < st.commit then panicked (.unexpected "got out of range state")
  else .ok { log with committed := st.commit }

/-- `newRaft`. -/
def newRaft (cfg : Config) (mem : Membership) (logdb : LogDB) (draws : ℕ) : Except Fault Node := do
  let log ← loadCommit (newEntryLog logdb) logdb.state
  let r := Node.unstarted cfg mem log logdb.state draws
  if cfg.isNonVoting then r.becomeNonVoting r.term 0
  else if cfg.isWitness then r.becomeWitness r.term 0
  else r.becomeFollower r.term 0

/-- `Launch`. The entries that a new shard starts with are put into the log later. -/
def launch (cfg : Config) (mem : Membership) (logdb : LogDB) (draws : ℕ) (initial : Bool) : Except Fault Node := do
  let r ← newRaft cfg mem logdb draws
  if initial then r.becomeFollower 1 0 else .ok r

/-! ### The cluster -/

/-- The replicas that are running, what each has persisted, and the messages that left. -/
structure Cluster where
  nodes : ℕ → Option Node
  saved : ℕ → State
  sent : List Message

namespace Cluster

/-- Nothing is running yet. -/
def start (saved : ℕ → State) : Cluster := ⟨fun _ => none, saved, []⟩

def set (c : Cluster) (i : ℕ) (node : Option Node) : Cluster :=
  { c with nodes := fun j => if j = i then node else c.nodes j }

/-- A replica handles a message. One that panics is gone. -/
def handle (c : Cluster) (i : ℕ) (m : Message) : Option Cluster :=
  (c.nodes i).map fun r => c.set i (r.handle m).toOption

end Cluster

def Membership.members (mem : Membership) : List ℕ := mem.addresses ++ mem.nonVotings ++ mem.witnesses

def Membership.voters (mem : Membership) : List ℕ := mem.addresses ++ mem.witnesses

/-- The calls at a replica: ticks, timeouts, proposals, reads, transfers and reports. The
members are fixed: a config change is rejected or one of those a shard starts with, and
snapshots have the same members. -/
def IsCall (mem : Membership) (m : Message) : Prop :=
  m.term = 0 ∧ m.type ≠ .requestVote ∧ m.type ≠ .requestVoteResp ∧
    (m.type = .configChangeEvent → m.reject = true ∨ m.hintHigh = 0 ∧ m.hint ∈ mem.addresses) ∧
    (m.type = .snapshotReceived → m.snapshot.membership = mem)

instance (mem : Membership) (m : Message) : Decidable (IsCall mem m) := inferInstanceAs (Decidable (_ ∧ _))

inductive ClusterEvent where
  | launch (i : ℕ) (logdb : LogDB) (draws : ℕ) (initial : Bool)
  | crash (i : ℕ)
  | receive (i : ℕ) (m : Message)
  | call (i : ℕ) (m : Message)
  /-- what becomes of the log of a replica outside of its handlers -/
  | log (i : ℕ) (log : EntryLog) (applied : ℕ)
  /-- the Replicate messages of an update leave -/
  | replicate (i : ℕ)
  /-- the state of an update is persisted, and then its messages leave -/
  | save (i : ℕ)

section
variable (mem : Membership) (cfg : ℕ → Config)

/-- A replica may be launched: it is a member and does not run, the log store returns what
was persisted, and only full members of a new shard have an initial launch. -/
def MayLaunch (c : Cluster) (i : ℕ) (logdb : LogDB) (initial : Bool) : Prop :=
  i ∈ mem.members ∧ (c.nodes i).isNone ∧ logdb.state = c.saved i ∧
    (initial → c.saved i = emptyState ∧ (cfg i).isNonVoting = false ∧ (cfg i).isWitness = false)

instance (c : Cluster) (i : ℕ) (logdb : LogDB) (initial : Bool) : Decidable (MayLaunch mem cfg c i logdb initial) :=
  inferInstanceAs (Decidable (_ ∧ _))

def clusterStep : ClusterEvent → Cluster → Option Cluster
  | .launch i logdb draws initial, c =>
    if MayLaunch mem cfg c i logdb initial then
      (launch (cfg i) mem logdb draws initial).toOption.map fun r => c.set i (some r)
    else none
  | .crash i, c => some (c.set i none)
  | .receive i m, c => if m ∈ c.sent ∧ m.target = i then c.handle i m else none
  | .call i m, c => if IsCall mem m then c.handle i m else none
  | .log i log applied, c => (c.nodes i).map fun r => c.set i (some { r with log := log, applied := applied })
  | .replicate i, c => (c.nodes i).map fun r => { c with sent := c.sent ++ r.msgs.filter (·.type = .replicate) }
  | .save i, c => (c.nodes i).map fun r =>
    { c.set i (some { r with
        msgs := [], leaderUpdate := none, droppedEntries := [], droppedReadIndexes := [], readyToRead := [] }) with
      saved := fun j => if j = i then ⟨r.term, r.vote, r.log.committed⟩ else c.saved j
      sent := c.sent ++ r.msgs }

end

/-! ### Ballots -/

/-- The message says that `v` votes for `c` in a term. A candidate that asks for votes votes
for itself. -/
def Ballot (m : Message) (v term c : ℕ) : Prop :=
  m.sender = v ∧ m.term = term ∧
    (m.type = .requestVote ∧ c = v ∨ m.type = .requestVoteResp ∧ m.reject = false ∧ c = m.target)

/-- A term and a vote came after others. -/
def Follows (term vote term' vote' : ℕ) : Prop := term < term' ∨ term = term' ∧ (vote = 0 ∨ vote = vote')

/-- A vote for `c` in `t` was cast before or is the one that is held. -/
def Cast (t c term vote : ℕ) : Prop := t < term ∨ t = term ∧ vote = c

theorem Follows.refl (term vote : ℕ) : Follows term vote term vote := .inr ⟨rfl, .inr rfl⟩

theorem Follows.trans {t1 v1 t2 v2 t3 v3 : ℕ} (h1 : Follows t1 v1 t2 v2) (h2 : Follows t2 v2 t3 v3) :
    Follows t1 v1 t3 v3 := by
  unfold Follows at *
  omega

theorem Cast.follows {t c term vote term' vote' : ℕ} (h : Cast t c term vote) (hf : Follows term vote term' vote')
    (hc : c ≠ 0) : Cast t c term' vote' := by
  unfold Follows at hf
  unfold Cast at *
  omega

theorem Cast.held {t c vote : ℕ} (h : Cast t c t vote) : vote = c := by
  unfold Cast at h
  omega

variable {m : Message}

theorem Node.Plain.not_ballot (h : Node.Plain m) {v t c : ℕ} : ¬ Ballot m v t c := by
  rintro ⟨-, -, ⟨htype, -⟩ | ⟨htype, hreject, -⟩⟩
  · exact h.request htype
  · rw [h.response htype] at hreject
    cases hreject

/-- What is true of every message that replicas send. -/
structure Posted (mem : Membership) (sent : List Message) (m : Message) : Prop where
  configChange : m.type ≠ .configChangeEvent
  snapshot : m.type ≠ .snapshotReceived
  request : m.type = .requestVote → m.term ≠ 0 ∧ m.sender ≠ 0 ∧ m.target ∈ mem.voters
  response : m.type = .requestVoteResp → m.reject = false → m.term ≠ 0 ∧ m.target ≠ 0 ∧ m.sender ∈ mem.voters ∧
    ∃ q ∈ sent, q.type = .requestVote ∧ q.sender = m.target ∧ q.term = m.term

theorem Node.Plain.posted {mem : Membership} {sent : List Message} (h : Node.Plain m) : Posted mem sent m := { h with
  request htype := absurd htype h.request
  response htype hreject := by
    rw [h.response htype] at hreject
    cases hreject }

theorem Posted.mono {mem : Membership} {sent sent' : List Message} (h : Posted mem sent m)
    (hsent : sent ⊆ sent') : Posted mem sent' m := { h with
  response htype hreject := by
    obtain ⟨hterm, htarget, hsender, q, hq, hrest⟩ := h.response htype hreject
    exact ⟨hterm, htarget, hsender, q, hsent hq, hrest⟩ }

theorem Posted.ballot_ne_zero {mem : Membership} {sent : List Message} (h : Posted mem sent m) {v t c : ℕ}
    (hballot : Ballot m v t c) : c ≠ 0 := by
  obtain ⟨rfl, -, ⟨htype, rfl⟩ | ⟨htype, hreject, rfl⟩⟩ := hballot
  · exact (h.request htype).2.1
  · exact (h.response htype hreject).2.1

/-- A majority of the voters sent votes, or there is only one voter. -/
def Elected (mem : Membership) (sent : List Message) (t c : ℕ) : Prop :=
  c ∈ mem.voters ∧ (mem.voters.length = 1 ∨ ∃ supporters : List ℕ, supporters.Nodup ∧
    mem.voters.length < 2 * supporters.length ∧
    ∀ v ∈ supporters, v ∈ mem.voters ∧ ∃ m ∈ sent, Ballot m v t c)

theorem Elected.mono {mem : Membership} {sent sent' : List Message} {t c : ℕ} (h : Elected mem sent t c)
    (hsent : sent ⊆ sent') : Elected mem sent' t c := by
  obtain ⟨hvoter, hsingle | ⟨supporters, hnodup, hmajority, hvotes⟩⟩ := h
  · exact ⟨hvoter, .inl hsingle⟩
  · refine ⟨hvoter, .inr ⟨supporters, hnodup, hmajority, fun v hv => ?_⟩⟩
    obtain ⟨hv, m, hm, hballot⟩ := hvotes v hv
    exact ⟨hv, m, hsent hm, hballot⟩

/-- No voter supports two candidates in a term. -/
def Single (sent : List Message) : Prop :=
  ∀ m1 ∈ sent, ∀ m2 ∈ sent, ∀ v t c1 c2, Ballot m1 v t c1 → Ballot m2 v t c2 → c1 = c2

theorem Elected.unique {mem : Membership} {sent : List Message} (hsingle : Single sent) {t c c' : ℕ}
    (h : Elected mem sent t c) (h' : Elected mem sent t c') : c = c' := by
  obtain ⟨hc, h⟩ := h
  obtain ⟨hc', h'⟩ := h'
  have hone (hlen : mem.voters.length = 1) : c = c' := by
    obtain ⟨x, hx⟩ := length_eq_one_iff.mp hlen
    rw [hx, mem_singleton] at hc hc'
    rw [hc, hc']
  rcases h with hlen | ⟨supporters, hnodup, hmajority, hvotes⟩
  · exact hone hlen
  rcases h' with hlen | ⟨supporters', hnodup', hmajority', hvotes'⟩
  · exact hone hlen
  have hcommon : (supporters.toFinset ∩ supporters'.toFinset).Nonempty := by
    refine Finset.inter_nonempty_of_card_lt_card_add_card (s := mem.voters.toFinset) (fun v hv => ?_)
      (fun v hv => ?_) ?_
    · exact mem_toFinset.mpr (hvotes v (mem_toFinset.mp hv)).1
    · exact mem_toFinset.mpr (hvotes' v (mem_toFinset.mp hv)).1
    · have hcard := mem.voters.toFinset_card_le
      rw [toFinset_card_of_nodup hnodup, toFinset_card_of_nodup hnodup']
      omega
  obtain ⟨v, hv⟩ := hcommon
  rw [Finset.mem_inter, mem_toFinset, mem_toFinset] at hv
  obtain ⟨-, m, hm, hballot⟩ := hvotes v hv.1
  obtain ⟨-, m', hm', hballot'⟩ := hvotes' v hv.2
  exact hsingle m hm m' hm' v t c c' hballot hballot'

/-! ### A replica among the messages -/

section
variable {mem : Membership} {sent : List Message} {saved : State} {i : ℕ} {r r' : Node}

/-- The votes of a replica: it is not behind what it persisted, its own ballots that have not
left are those of its term or older, and with those that left they are for one candidate each
term. -/
structure Backed (mem : Membership) (sent : List Message) (saved : State) (i : ℕ) (r : Node) : Prop where
  ahead : Follows saved.term saved.vote r.term r.vote
  posted : ∀ m ∈ r.msgs, Posted mem sent m
  cast : ∀ m ∈ r.msgs, ∀ v t c, Ballot m v t c → v = i ∧ Cast t c r.term r.vote
  single : ∀ m1 ∈ sent ++ r.msgs, ∀ m2 ∈ sent ++ r.msgs, ∀ t c1 c2, Ballot m1 i t c1 → Ballot m2 i t c2 → c1 = c2

/-- What the messages that left say about a replica: its ballots are persisted. -/
structure Durable (mem : Membership) (sent : List Message) (saved : State) (i : ℕ) : Prop where
  posted : ∀ m ∈ sent, Posted mem sent m
  cast : ∀ m ∈ sent, ∀ t c, Ballot m i t c → Cast t c saved.term saved.vote

theorem Backed.cast_all (h : Backed mem sent saved i r) (hsent : Durable mem sent saved i) {m : Message}
    (hm : m ∈ sent ++ r.msgs) {t c : ℕ} (hballot : Ballot m i t c) : Cast t c r.term r.vote := by
  rcases mem_append.mp hm with hm | hm
  · exact (hsent.cast m hm t c hballot).follows h.ahead ((hsent.posted m hm).ballot_ne_zero hballot)
  · exact (h.cast m hm i t c hballot).2

variable {extra : List Message}

theorem Backed.extend (h : Backed mem sent saved i r) (hsent : Durable mem sent saved i)
    (hfollows : Follows r.term r.vote r'.term r'.vote) (hmsgs : r'.msgs = r.msgs ++ extra)
    (hposted : ∀ m ∈ extra, Posted mem sent m)
    (hextra : ∀ m ∈ extra, ∀ v t c, Ballot m v t c → v = i ∧ t = r'.term ∧ c = r'.vote) :
    Backed mem sent saved i r' := by
  have hposted_all : ∀ m ∈ r'.msgs, Posted mem sent m := by
    rw [hmsgs, forall_mem_append]
    exact ⟨h.posted, hposted⟩
  -- an old ballot of the present term is for the vote that is held
  have hcast : ∀ m ∈ sent ++ r.msgs, ∀ t c, Ballot m i t c → Cast t c r'.term r'.vote := fun m hm t c hballot => by
    refine (h.cast_all hsent hm hballot).follows hfollows ?_
    rcases mem_append.mp hm with hm | hm
    · exact (hsent.posted m hm).ballot_ne_zero hballot
    · exact (h.posted m hm).ballot_ne_zero hballot
  refine ⟨h.ahead.trans hfollows, hposted_all, ?_, ?_⟩
  · intro m hm v t c hballot
    rw [hmsgs, mem_append] at hm
    rcases hm with hm | hm
    · obtain ⟨rfl, -⟩ := h.cast m hm v t c hballot
      exact ⟨rfl, hcast m (mem_append_right _ hm) t c hballot⟩
    · obtain ⟨hv, rfl, rfl⟩ := hextra m hm v t c hballot
      exact ⟨hv, .inr ⟨rfl, rfl⟩⟩
  · intro m1 hm1 m2 hm2 t c1 c2 h1 h2
    rw [hmsgs, ← append_assoc, mem_append] at hm1 hm2
    rcases hm1 with hm1 | hm1 <;> rcases hm2 with hm2 | hm2
    · exact h.single m1 hm1 m2 hm2 t c1 c2 h1 h2
    · obtain ⟨-, rfl, rfl⟩ := hextra m2 hm2 i t c2 h2
      exact (hcast m1 hm1 _ c1 h1).held.symm
    · obtain ⟨-, rfl, rfl⟩ := hextra m1 hm1 i t c1 h1
      exact (hcast m2 hm2 _ c2 h2).held
    · obtain ⟨-, -, rfl⟩ := hextra m1 hm1 i t c1 h1
      obtain ⟨-, -, rfl⟩ := hextra m2 hm2 i t c2 h2
      rfl

/-- The votes a candidate counted were sent to it. -/
structure Counted (sent : List Message) (i : ℕ) (r : Node) : Prop where
  term : r.term ≠ 0
  vote : r.vote = i
  nodup : (r.votes.map (·.1)).Nodup
  sent : ∀ v, (v, true) ∈ r.votes → v = i ∨ ∃ m ∈ sent, m.type = .requestVoteResp ∧ m.reject = false ∧ m.sender = v ∧
    m.target = i ∧ m.term = r.term

structure Sound (mem : Membership) (sent : List Message) (saved : State) (i : ℕ) (r : Node) : Prop where
  id : r.replicaID = i
  among : r.Among mem
  voter : r.state ≠ .nonVoting → r.state ≠ .witness → i ∈ mem.addresses
  backed : Backed mem sent saved i r
  counted : r.state = .candidate → Counted sent i r
  elected : r.state = .leader → Elected mem sent r.term i

theorem Node.Move.follows (h : Node.Move sent r r') : Follows r.term r.vote r'.term r'.vote := by
  have hface {face : Node.Face} (heq : r'.face = face) (hf : Follows r.term r.vote face.term face.vote) :
      Follows r.term r.vote r'.term r'.vote := by
    cases heq
    exact hf
  cases h with
  | quiet h => exact hface h.face (.refl _ _)
  | @demote term _ hterm _ h _ =>
    refine hface h ?_
    rcases hterm.lt_or_eq with hlt | rfl
    · exact .inl hlt
    · exact .inr ⟨rfl, .inr (if_pos rfl).symm⟩
  | stand _ _ h _ => exact hface h (.inl (lt_add_one _))
  | ask _ h _ _ => exact hface h (.refl _ _)
  | hear _ _ h _ => exact hface h (.refl _ _)
  | hearPre _ h _ => exact hface h (.refl _ _)
  | win _ _ h _ => exact hface h (.refl _ _)
  | grant _ _ _ _ hvote h => exact hface h (.inr ⟨rfl, hvote⟩)

theorem Node.Moves.follows (h : Node.Moves sent r r') : Follows r.term r.vote r'.term r'.vote := by
  induction h with
  | refl => exact .refl _ _
  | tail _ hmove ih => exact ih.trans hmove.follows

section
variable (h : Sound mem sent saved i r)
include h

theorem Sound.voter_mem (hlearner : r.state ≠ .nonVoting) (hwitness : r.state ≠ .witness) :
    i ∈ mem.voters := mem_append_left _ (h.voter hlearner hwitness)

theorem Sound.backed_ask (hsent : Durable mem sent saved i) (hi : i ≠ 0)
    (hstate : r.state = .candidate) (hface : r'.face = r.face) (hmsgs : r'.msgs = r.msgs ++ extra)
    (hextra : ∀ m ∈ extra, m.type = .requestVote ∧ m.sender = r.replicaID ∧ m.term = r.term ∧
    m.target ∈ r.remotes.ids ++ r.witnesses.ids) : Backed mem sent saved i r' := by
  have hvote : r'.vote = r.vote := congrArg Node.Face.vote hface
  have hterm : r'.term = r.term := congrArg Node.Face.term hface
  have hfollows : Follows r.term r.vote r'.term r'.vote := .inr ⟨hterm.symm, .inr hvote.symm⟩
  refine h.backed.extend hsent hfollows hmsgs (fun m hm => ?_) fun m hm v t c hballot => ?_
  · obtain ⟨htype, hsender, hmterm, htarget⟩ := hextra m hm
    rw [h.among.remotes, h.among.witnesses] at htarget
    refine ⟨by simp [htype], by simp [htype], fun _ => ⟨?_, ?_, htarget⟩, fun h => by simp [htype] at h⟩
    · rw [hmterm]
      exact (h.counted hstate).term
    · rw [hsender, h.id]
      exact hi
  · obtain ⟨htype, hsender, hmterm, -⟩ := hextra m hm
    obtain ⟨rfl, rfl, ⟨-, rfl⟩ | ⟨hother, -⟩⟩ := hballot
    · exact ⟨hsender.trans h.id, hmterm.trans hterm.symm,
        (hsender.trans h.id).trans (hvote.trans (h.counted hstate).vote).symm⟩
    · rw [htype] at hother
      cases hother

theorem Sound.backed_grant (hsent : Durable mem sent saved i)
    (hfollows : Follows r.term r.vote r'.term r'.vote) {m resp : Message} (hm : m ∈ sent)
    (htype : m.type = .requestVote)
    (htarget : m.target = r.replicaID) (hterm : m.term = r.term) (hface : r'.face = { r.face with vote := m.sender })
    (hmsgs : r'.msgs = r.msgs ++ [resp]) (hrtype : resp.type = .requestVoteResp) (hsender : resp.sender = r.replicaID)
    (hrtarget : resp.target = m.sender) (hrterm : resp.term = r.term) : Backed mem sent saved i r' := by
  have hvote' : r'.vote = m.sender := congrArg Node.Face.vote hface
  have hterm' : r'.term = r.term := congrArg Node.Face.term hface
  obtain ⟨hne, hnonzero, hvoter⟩ := (hsent.posted m hm).request htype
  refine h.backed.extend hsent hfollows hmsgs (fun m' hm' => ?_) fun m' hm' v t c hballot => ?_
  · rw [mem_singleton.mp hm']
    refine ⟨by simp [hrtype], by simp [hrtype], fun h => by simp [hrtype] at h, fun _ _ =>
      ⟨?_, ?_, ?_, m, hm, htype, ?_, ?_⟩⟩
    · rwa [hrterm, ← hterm]
    · rwa [hrtarget]
    · rwa [hsender, ← htarget]
    · exact hrtarget.symm
    · rw [hterm, hrterm]
  · rw [mem_singleton.mp hm'] at hballot
    obtain ⟨rfl, rfl, ⟨hother, -⟩ | ⟨-, -, rfl⟩⟩ := hballot
    · rw [hrtype] at hother
      cases hother
    · exact ⟨hsender.trans h.id, hrterm.trans hterm'.symm, hrtarget.trans hvote'.symm⟩

theorem Sound.backed_move (hsent : Durable mem sent saved i) (hi : i ≠ 0)
    (hmove : Node.Move sent r r') : Backed mem sent saved i r' := by
  have hfollows := hmove.follows
  have hsilent (hmsgs : r'.msgs = r.msgs) : Backed mem sent saved i r' :=
    h.backed.extend hsent hfollows (by rw [hmsgs, append_nil]) (by simp) (by simp)
  cases hmove with
  | quiet hquiet =>
    obtain ⟨extra, hmsgs, hplain⟩ := hquiet.msgs
    exact h.backed.extend hsent hfollows hmsgs (fun m hm => (hplain m hm).posted)
      fun m hm _ _ _ hballot => absurd hballot (hplain m hm).not_ballot
  | demote _ _ _ hmsgs => exact hsilent hmsgs
  | stand _ _ _ hmsgs => exact hsilent hmsgs
  | ask hstate hface hmsgs hextra => exact h.backed_ask hsent hi hstate hface hmsgs hextra
  | hear _ _ _ hmsgs => exact hsilent hmsgs
  | hearPre _ _ hmsgs => exact hsilent hmsgs
  | win _ _ _ hmsgs => exact hsilent hmsgs
  | grant hm htype htarget hterm _ hface hmsgs hrtype _ hsender hrtarget hrterm =>
    exact h.backed_grant hsent hfollows hm htype htarget hterm hface hmsgs hrtype hsender hrtarget hrterm

end

theorem Counted.addVote (h : Counted sent i r) {sender : ℕ} {granted : Bool}
    (hgranted : granted = true → ∃ m ∈ sent, m.type = .requestVoteResp ∧ m.reject = false ∧ m.sender = sender ∧
    m.target = i ∧ m.term = r.term) : Counted sent i (r.addVote sender granted) := by
  unfold Node.addVote
  split_ifs with hfirst
  · exact h
  · refine ⟨h.term, h.vote, ?_, fun v hv => ?_⟩
    · rw [Bool.not_eq_true, Option.isSome_eq_false_iff, Option.isNone_iff_eq_none, lookup_eq_none_iff] at hfirst
      rw [map_append, nodup_append]
      refine ⟨h.nodup, by simp, fun a ha b hb => ?_⟩
      obtain ⟨p, hp, rfl⟩ := mem_map.mp ha
      obtain rfl : b = sender := by simpa using hb
      have hother := hfirst p hp
      simp only [bne_iff_ne, ne_eq] at hother
      exact fun heq => hother heq.symm
    · rcases mem_append.mp hv with hv | hv
      · exact h.sent v hv
      · obtain ⟨rfl, rfl⟩ := Prod.mk.inj (mem_singleton.mp hv)
        exact .inr (hgranted rfl)

theorem exists_ne_of_nodup {l : List ℕ} (hnodup : l.Nodup) (hlen : 2 ≤ l.length) (i : ℕ) : ∃ v ∈ l, v ≠ i := by
  by_contra hall
  have hsub : l.toFinset ⊆ {i} := fun v hv => by
    rw [Finset.mem_singleton]
    by_contra hne
    exact hall ⟨v, mem_toFinset.mp hv, hne⟩
  have hcard := Finset.card_le_card hsub
  rw [toFinset_card_of_nodup hnodup, Finset.card_singleton] at hcard
  omega

theorem Node.Among.numVotingMembers (h : r.Among mem) : r.numVotingMembers = mem.voters.length := by
  rw [Node.numVotingMembers, Membership.voters, length_append, ← h.remotes, ← h.witnesses]
  simp [Remotes.ids]

theorem Sound.elected_of_quorum (h : Sound mem sent saved i r) (hsent : Durable mem sent saved i)
    (hstate : r.state = .candidate) (hquorum : r.votedFor = r.quorum) : Elected mem sent r.term i := by
  have hcounted := h.counted hstate
  have hvoter : i ∈ mem.voters := h.voter_mem (by simp [hstate]) (by simp [hstate])
  refine ⟨hvoter, ?_⟩
  by_cases hone : mem.voters.length = 1
  · exact .inl hone
  have hnodup : ((r.votes.filter (·.2)).map (·.1)).Nodup := (filter_sublist.map _).nodup hcounted.nodup
  have hlen : ((r.votes.filter (·.2)).map (·.1)).length = mem.voters.length / 2 + 1 := by
    rw [length_map, ← countP_eq_length_filter, ← h.among.numVotingMembers]
    exact hquorum
  have hpos : 0 < mem.voters.length := length_pos_of_mem hvoter
  -- an answer from another voter shows that the candidate's own request left
  have hgranted : ∀ v ∈ (r.votes.filter (·.2)).map (·.1), v ≠ i → v ∈ mem.voters ∧
      (∃ m ∈ sent, Ballot m v r.term i) ∧ ∃ q ∈ sent, Ballot q i r.term i := fun v hv hne => by
    obtain ⟨⟨w, granted⟩, hp, rfl⟩ := mem_map.mp hv
    obtain ⟨hp, hgranted⟩ := mem_filter.mp hp
    obtain rfl : granted = true := hgranted
    obtain ⟨m, hm, htype, hreject, rfl, htarget, hterm⟩ := (hcounted.sent w hp).resolve_left hne
    obtain ⟨-, -, hw, q, hq, hqtype, hqsender, hqterm⟩ := (hsent.posted m hm).response htype hreject
    exact ⟨hw, ⟨m, hm, rfl, hterm, .inr ⟨htype, hreject, htarget.symm⟩⟩,
      q, hq, hqsender.trans htarget, hqterm.trans hterm, .inl ⟨hqtype, rfl⟩⟩
  obtain ⟨w, hw, hne⟩ := exists_ne_of_nodup hnodup (by omega) i
  refine .inr ⟨_, hnodup, by omega, fun v hv => ?_⟩
  by_cases hv' : v = i
  · rw [hv']
    exact ⟨hvoter, (hgranted w hw hne).2.2⟩
  · exact ⟨(hgranted v hv hv').1, (hgranted v hv hv').2.1⟩

theorem Counted.of_face (h : Counted sent i r) (hterm : r'.term = r.term) (hvote : r'.vote = r.vote)
    (hvotes : r'.votes = r.votes) : Counted sent i r' := by
  refine ⟨hterm ▸ h.term, hvote.trans h.vote, by rw [hvotes]; exact h.nodup, fun v hv => ?_⟩
  rw [hvotes] at hv
  rw [hterm]
  exact h.sent v hv

theorem Counted.mono {sent' : List Message} (h : Counted sent i r) (hsent : sent ⊆ sent') : Counted sent' i r := by
  refine ⟨h.term, h.vote, h.nodup, fun v hv => (h.sent v hv).imp_right fun hgranted => ?_⟩
  obtain ⟨m, hm, hrest⟩ := hgranted
  exact ⟨m, hsent hm, hrest⟩

section
variable (h : Sound mem sent saved i r)
include h

theorem Sound.counted_move (hi : i ≠ 0) (hmove : Node.Move sent r r')
    (hstate' : r'.state = .candidate) : Counted sent i r' := by
  cases hmove with
  | quiet hquiet =>
    have hstate : r.state = .candidate := (congrArg Node.Face.state hquiet.face).symm.trans hstate'
    exact (h.counted hstate).of_face (congrArg Node.Face.term hquiet.face) (congrArg Node.Face.vote hquiet.face)
      (congrArg Node.Face.votes hquiet.face)
  | demote _ hrole hface _ => exact absurd ((congrArg Node.Face.state hface).symm.trans hstate') hrole.1
  | stand _ _ hface _ =>
    have hterm : r'.term = r.term + 1 := congrArg Node.Face.term hface
    have hvote : r'.vote = r.replicaID := congrArg Node.Face.vote hface
    have hvotes : r'.votes = [(r.replicaID, true)] := congrArg Node.Face.votes hface
    refine ⟨by omega, hvote.trans h.id, by simp [hvotes], fun v hv => .inl ?_⟩
    rw [hvotes, mem_singleton] at hv
    exact (Prod.mk.inj hv).1.trans h.id
  | ask hstate hface _ _ =>
    exact (h.counted hstate).of_face (congrArg Node.Face.term hface) (congrArg Node.Face.vote hface)
      (congrArg Node.Face.votes hface)
  | hear hstate hgranted hface _ =>
    rw [h.id] at hgranted
    exact ((h.counted hstate).addVote hgranted).of_face (congrArg Node.Face.term hface) (congrArg Node.Face.vote hface)
      (congrArg Node.Face.votes hface)
  | hearPre hstate hface _ =>
    have hsame : r'.state = r.state := congrArg Node.Face.state hface
    rw [hsame, hstate] at hstate'
    cases hstate'
  | win _ _ hface _ =>
    have hleader : r'.state = .leader := congrArg Node.Face.state hface
    rw [hleader] at hstate'
    cases hstate'
  | grant _ _ _ _ hvote hface =>
    have hstate : r.state = .candidate := (congrArg Node.Face.state hface).symm.trans hstate'
    have hown := (h.counted hstate).vote
    -- a candidate votes for itself only
    refine (h.counted hstate).of_face (congrArg Node.Face.term hface) ?_ (congrArg Node.Face.votes hface)
    exact (congrArg Node.Face.vote hface).trans (hvote.resolve_left (by rw [hown]; exact hi)).symm

theorem Sound.elected_move (hsent : Durable mem sent saved i)
    (hmove : Node.Move sent r r') (hstate' : r'.state = .leader) : Elected mem sent r'.term i := by
  have hstays {face : Node.Face} (hface : r'.face = face) (hstate : face.state = r.state) (hterm : face.term = r.term) :
      Elected mem sent r'.term i := by
    cases hface
    rw [show r'.term = r.term from hterm]
    exact h.elected (hstate.symm.trans hstate')
  cases hmove with
  | quiet hquiet => exact hstays hquiet.face rfl rfl
  | demote _ hrole hface _ => exact absurd ((congrArg Node.Face.state hface).symm.trans hstate') hrole.2.1
  | stand _ _ hface _ =>
    have hcandidate : r'.state = .candidate := congrArg Node.Face.state hface
    rw [hcandidate] at hstate'
    cases hstate'
  | ask _ hface _ _ => exact hstays hface rfl rfl
  | hear _ _ hface _ => exact hstays hface rfl rfl
  | hearPre _ hface _ => exact hstays hface rfl rfl
  | win hstate hquorum hface _ =>
    rw [show r'.term = r.term from congrArg Node.Face.term hface]
    exact h.elected_of_quorum hsent hstate hquorum
  | grant _ _ _ _ _ hface => exact hstays hface rfl rfl

theorem Sound.move (hsent : Durable mem sent saved i) (hi : i ≠ 0)
    (hmove : Node.Move sent r r') : Sound mem sent saved i r' := by
  obtain ⟨hcfg, -, -, -, hlearner, hwitness⟩ := hmove.members
  have hvoter : r'.state ≠ .nonVoting → r'.state ≠ .witness → i ∈ mem.addresses := by
    rw [ne_eq, ne_eq, hlearner, hwitness]
    exact h.voter
  exact ⟨(congrArg Config.replicaID hcfg).trans h.id, hmove.among h.among, hvoter, h.backed_move hsent hi hmove,
    h.counted_move hi hmove, h.elected_move hsent hmove⟩

theorem Sound.moves (hsent : Durable mem sent saved i) (hi : i ≠ 0)
    (hmoves : Node.Moves sent r r') : Sound mem sent saved i r' := by
  induction hmoves with
  | refl => exact h
  | tail _ hmove ih => exact ih.move hsent hi hmove

end

end

/-! ### The cluster -/

/-- The replicas are configured as the members say. -/
structure Placed (mem : Membership) (cfg : ℕ → Config) : Prop where
  id : ∀ i, (cfg i).replicaID = i
  nonzero : 0 ∉ mem.members
  learner : ∀ i, (cfg i).isNonVoting = true → i ∉ mem.addresses
  voter : ∀ i ∈ mem.members, (cfg i).isNonVoting = false → (cfg i).isWitness = false → i ∈ mem.addresses

structure Safe (mem : Membership) (c : Cluster) : Prop where
  posted : ∀ m ∈ c.sent, Posted mem c.sent m
  durable : ∀ m ∈ c.sent, ∀ v t x, Ballot m v t x → Cast t x (c.saved v).term (c.saved v).vote
  single : Single c.sent
  nodes : ∀ i r, c.nodes i = some r → i ≠ 0 ∧ Sound mem c.sent (c.saved i) i r

/-- What one state of the cluster leaves to a later one: messages stay sent, and no term and
vote go back, persisted ones or those of a replica that keeps running. -/
structure Passes (c c' : Cluster) : Prop where
  sent : c.sent ⊆ c'.sent
  saved : ∀ i, Follows (c.saved i).term (c.saved i).vote (c'.saved i).term (c'.saved i).vote
  running : ∀ i r r', c.nodes i = some r → c'.nodes i = some r' → Follows r.term r.vote r'.term r'.vote

section
variable {mem : Membership} {cfg : ℕ → Config} {c c' : Cluster} {i : ℕ} {r r' : Node}

theorem Safe.toDurable (h : Safe mem c) (i : ℕ) : Durable mem c.sent (c.saved i) i :=
  ⟨h.posted, fun m hm t x => h.durable m hm i t x⟩

theorem set_nodes (c : Cluster) (i : ℕ) (node : Option Node) {j : ℕ} {r : Node}
    (h : (c.set i node).nodes j = some r) : j = i ∧ node = some r ∨ j ≠ i ∧ c.nodes j = some r := by
  simp only [Cluster.set] at h
  split_ifs at h with hj
  · exact .inl ⟨hj, h⟩
  · exact .inr ⟨hj, h⟩

variable {node : Option Node} {m : Message} {es : List ClusterEvent}

theorem Safe.set (h : Safe mem c)
    (hnode : ∀ r, node = some r → i ≠ 0 ∧ Sound mem c.sent (c.saved i) i r) : Safe mem (c.set i node) := by
  refine ⟨h.posted, h.durable, h.single, fun j r hr => ?_⟩
  obtain ⟨rfl, hnew⟩ | ⟨-, hold⟩ := set_nodes c i node hr
  · exact hnode r hnew
  · exact h.nodes j r hold

theorem Passes.set (hnode : ∀ r r', c.nodes i = some r → node = some r' → Follows r.term r.vote r'.term r'.vote) :
    Passes c (c.set i node) := by
  refine ⟨fun _ => id, fun _ => .refl _ _, fun j r r' hr hr' => ?_⟩
  obtain ⟨rfl, hnew⟩ | ⟨-, hold⟩ := set_nodes c i node hr'
  · exact hnode r r' hr hnew
  · cases hr.symm.trans hold
    exact .refl _ _

theorem handle_keeps (h : Safe mem c) (hm : Node.Arrives c.sent mem i m) (hstep : c.handle i m = some c') :
    Safe mem c' ∧ Passes c c' := by
  obtain ⟨r, hr, rfl⟩ := Option.map_eq_some_iff.mp hstep
  obtain ⟨hi, hsound⟩ := h.nodes i r hr
  have hmoves {r' : Node} (hr' : (r.handle m).toOption = some r') : Node.Moves c.sent r r' := by
    refine Node.moves_handle hsound.among ?_ r' (toOption_eq_some.mp hr')
    rw [hsound.id]
    exact hm
  refine ⟨h.set fun r' hr' => ⟨hi, hsound.moves (h.toDurable i) hi (hmoves hr')⟩, Passes.set fun r1 r' h1 hr' => ?_⟩
  cases hr.symm.trans h1
  exact (hmoves hr').follows

theorem Posted.arrives {sent : List Message} (h : Posted mem sent m) (hm : m ∈ sent) :
    Node.Arrives sent mem m.target m where
  request htype := ⟨hm, rfl, (h.request htype).1⟩
  response htype hreject := ⟨hm, rfl, (h.response htype hreject).1⟩
  configChange htype := absurd htype h.configChange
  snapshot htype := absurd htype h.snapshot

theorem IsCall.arrives {sent : List Message} (h : IsCall mem m) (i : ℕ) : Node.Arrives sent mem i m where
  request htype := absurd htype h.2.1
  response htype := absurd htype h.2.2.1
  configChange := h.2.2.2.1
  snapshot := h.2.2.2.2

theorem Sound.fresh (h : Safe mem c) (hid : r.replicaID = i) (hamong : r.Among mem)
    (hvoter : r.state ≠ .nonVoting → r.state ≠ .witness → i ∈ mem.addresses) (hterm : r.term = (c.saved i).term)
    (hvote : r.vote = (c.saved i).vote) (hmsgs : r.msgs = []) (hcandidate : r.state ≠ .candidate)
    (hleader : r.state ≠ .leader) : Sound mem c.sent (c.saved i) i r := by
  refine ⟨hid, hamong, hvoter, ⟨?_, by simp [hmsgs], by simp [hmsgs], ?_⟩, fun h =>
    absurd h hcandidate, fun h => absurd h hleader⟩
  · rw [hterm, hvote]
    exact .refl _ _
  · rw [hmsgs, append_nil]
    exact fun m1 hm1 m2 hm2 => h.single m1 hm1 m2 hm2 i

/-- The role a replica starts in. -/
def Config.role (cfg : Config) : Role :=
  if cfg.isNonVoting then .nonVoting else if cfg.isWitness then .witness else .follower

theorem Config.role_ne (cfg : Config) : cfg.role ≠ .candidate ∧ cfg.role ≠ .leader := by
  unfold Config.role
  split_ifs <;> decide

theorem Config.role_nonVoting {cfg : Config} : cfg.role = .nonVoting ↔ cfg.isNonVoting = true := by
  unfold Config.role
  split_ifs with hlearner hwitness <;> simp [hlearner]

theorem Config.role_voter {cfg : Config} (hlearner : cfg.role ≠ .nonVoting) (hwitness : cfg.role ≠ .witness) :
    cfg.isNonVoting = false ∧ cfg.isWitness = false := by
  have hfalse : cfg.isNonVoting = false := Bool.eq_false_iff.mpr fun h => hlearner (Config.role_nonVoting.mpr h)
  refine ⟨hfalse, Bool.eq_false_iff.mpr fun h => hwitness ?_⟩
  simp [Config.role, hfalse, h]

theorem face_unstarted (cfg : Config) (mem : Membership) (log : EntryLog) (st : State) (draws : ℕ) :
    (Node.unstarted cfg mem log st draws).face =
    ⟨cfg, cfg.role, st.term, st.vote, [], mem.addresses, mem.nonVotings, mem.witnesses⟩ := by
  simp [Node.face, Node.unstarted, Remotes.ids, Function.comp_def, Config.role]

theorem newRaft_yields (cfg : Config) (mem : Membership) (logdb : LogDB) (draws : ℕ) :
    Yields (newRaft cfg mem logdb draws) fun r => r.msgs = [] ∧
    r.face = ⟨cfg, cfg.role, logdb.state.term, logdb.state.vote, [], mem.addresses, mem.nonVotings, mem.witnesses⟩ := by
  unfold newRaft
  refine .skip fun log => ?_
  have hreset (r : Node) (hmsgs : r.msgs = []) (hvotes : r.votes = []) :
      ((r.reset r.term true).setLeaderID 0).msgs = [] ∧ ((r.reset r.term true).setLeaderID 0).face = r.face := by
    refine ⟨(Node.msgs_reset r r.term true).trans hmsgs, (Node.face_reset r r.term true).trans ?_⟩
    rw [if_pos rfl, ← hvotes]
    rfl
  rw [← face_unstarted cfg mem log logdb.state draws]
  refine .ite (fun _ => ?_) fun hlearner => .ite (fun _ => ?_) fun hwitness => ?_
  · exact .ite (fun _ => Node.yields_panicked _) fun _ => .ok (hreset _ rfl rfl)
  · exact .ite (fun _ => Node.yields_panicked _) fun _ => .ok (hreset _ rfl rfl)
  · refine .ite (fun _ => Node.yields_panicked _) fun _ => .ok ?_
    have hstate : (Node.unstarted cfg mem log logdb.state draws).state = .follower := by
      simp [Node.unstarted, hlearner, hwitness]
    have h := hreset { Node.unstarted cfg mem log logdb.state draws with state := .follower } rfl rfl
    refine ⟨h.1, h.2.trans ?_⟩
    rw [← hstate]

theorem launch_yields (hcfg : Placed mem cfg) (h : Safe mem c) {logdb : LogDB} (draws : ℕ) {initial : Bool}
    (hmay : MayLaunch mem cfg c i logdb initial) :
    Yields (launch (cfg i) mem logdb draws initial) fun r => i ≠ 0 ∧ Sound mem c.sent (c.saved i) i r := by
  obtain ⟨hmember, -, hstate, hinitial⟩ := hmay
  have hi : i ≠ 0 := fun h => hcfg.nonzero (h ▸ hmember)
  unfold launch
  refine (newRaft_yields _ _ _ _).bind fun r hr => ?_
  obtain ⟨hmsgs, hface⟩ := hr
  have hrole : r.state = (cfg i).role := congrArg Node.Face.state hface
  have hid : r.replicaID = i := (congrArg (fun face => face.cfg.replicaID) hface).trans (hcfg.id i)
  have hterm : r.term = (c.saved i).term := by
    rw [← hstate]
    exact congrArg Node.Face.term hface
  have hvote : r.vote = (c.saved i).vote := by
    rw [← hstate]
    exact congrArg Node.Face.vote hface
  have hsound : Sound mem c.sent (c.saved i) i r := by
    refine .fresh h hid ⟨congrArg Node.Face.remotes hface, congrArg Node.Face.nonVotings hface,
      congrArg Node.Face.witnesses hface, fun hlearner => ?_⟩ (fun hlearner hwitness => ?_) hterm hvote hmsgs ?_ ?_
    · rw [hid]
      exact hcfg.learner i (Config.role_nonVoting.mp (hrole.symm.trans hlearner))
    · obtain ⟨hlearner, hwitness⟩ := Config.role_voter (hrole ▸ hlearner) (hrole ▸ hwitness)
      exact hcfg.voter i hmember hlearner hwitness
    · exact hrole ▸ (cfg i).role_ne.1
    · exact hrole ▸ (cfg i).role_ne.2
  refine .ite (fun hnew => ?_) fun _ => .ok ⟨hi, hsound⟩
  -- a new replica enters the first term
  obtain ⟨hempty, hlearner, -⟩ := hinitial hnew
  have hmoves : Yields (r.becomeFollower 1 0) (Node.Moves c.sent r) := by
    refine Node.moves_becomeFollower ?_ ?_ 0
    · rw [hterm, hempty]
      exact Nat.zero_le 1
    · rw [hrole]
      exact fun h => Bool.false_ne_true (hlearner.symm.trans (Config.role_nonVoting.mp h))
  exact hmoves.mono fun r' hr' => ⟨hi, hsound.moves (h.toDurable i) hi hr'⟩

theorem Sound.grow {sent extra : List Message} {saved : State} (h : Sound mem sent saved i r)
    (hother : ∀ m ∈ extra, ∀ t x, ¬ Ballot m i t x) : Sound mem (sent ++ extra) saved i r := by
  have hsub : sent ⊆ sent ++ extra := subset_append_left _ _
  have hmem : ∀ m ∈ (sent ++ extra) ++ r.msgs, ∀ t x, Ballot m i t x → m ∈ sent ++ r.msgs := by
    intro m hm t x hballot
    rcases mem_append.mp hm with hm | hm
    · rcases mem_append.mp hm with hm | hm
      · exact mem_append_left _ hm
      · exact absurd hballot (hother m hm t x)
    · exact mem_append_right _ hm
  refine ⟨h.id, h.among, h.voter, ⟨h.backed.ahead, fun m hm => (h.backed.posted m hm).mono hsub, h.backed.cast, ?_⟩,
    fun hstate => (h.counted hstate).mono hsub, fun hstate => (h.elected hstate).mono hsub⟩
  intro m1 hm1 m2 hm2 t x1 x2 h1 h2
  exact h.backed.single m1 (hmem m1 hm1 t x1 h1) m2 (hmem m2 hm2 t x2 h2) t x1 x2 h1 h2

theorem replicate_keeps (h : Safe mem c) (r : Node) :
    Safe mem { c with sent := c.sent ++ r.msgs.filter (·.type = .replicate) } ∧
      Passes c { c with sent := c.sent ++ r.msgs.filter (·.type = .replicate) } := by
  have hsub : c.sent ⊆ c.sent ++ r.msgs.filter (·.type = .replicate) := subset_append_left _ _
  have hplain : ∀ m ∈ r.msgs.filter (·.type = .replicate), Node.Plain m := fun m hm => by
    have htype : m.type = .replicate := by simpa using (mem_filter.mp hm).2
    exact .of_type (by simp [Node.electoral, htype])
  have hold : ∀ m ∈ c.sent ++ r.msgs.filter (·.type = .replicate), ∀ v t x, Ballot m v t x → m ∈ c.sent :=
    fun m hm v t x hballot => (mem_append.mp hm).resolve_right fun hm => (hplain m hm).not_ballot hballot
  refine ⟨⟨?_, ?_, ?_, ?_⟩, ⟨hsub, fun _ => .refl _ _, fun j r1 r2 h1 h2 => ?_⟩⟩
  · exact forall_mem_append.mpr ⟨fun m hm => (h.posted m hm).mono hsub, fun m hm => (hplain m hm).posted⟩
  · exact fun m hm v t x hballot => h.durable m (hold m hm v t x hballot) v t x hballot
  · exact fun m1 hm1 m2 hm2 v t x1 x2 h1 h2 =>
      h.single m1 (hold m1 hm1 v t x1 h1) m2 (hold m2 hm2 v t x2 h2) v t x1 x2 h1 h2
  · intro j r' hr'
    obtain ⟨hj, hsound⟩ := h.nodes j r' hr'
    exact ⟨hj, hsound.grow fun m hm t x => (hplain m hm).not_ballot⟩
  · cases h1.symm.trans h2
    exact .refl _ _

theorem Sound.saved {sent : List Message} {saved : State} (h : Sound mem sent saved i r) (commit : ℕ)
    (hmsgs : r'.msgs = []) (hface : r'.face = r.face) : Sound mem (sent ++ r.msgs) ⟨r.term, r.vote, commit⟩ i r' := by
  have hsub : sent ⊆ sent ++ r.msgs := subset_append_left _ _
  have hstate : r'.state = r.state := congrArg Node.Face.state hface
  have hterm : r'.term = r.term := congrArg Node.Face.term hface
  have hvote : r'.vote = r.vote := congrArg Node.Face.vote hface
  have hid : r'.replicaID = r.replicaID := congrArg (fun face => face.cfg.replicaID) hface
  refine ⟨hid.trans h.id, h.among.of_face hface, ?_, ⟨?_, by simp [hmsgs], by simp [hmsgs], ?_⟩, fun hcandidate => ?_,
    fun hleader => ?_⟩
  · rw [hstate]
    exact h.voter
  · rw [hterm, hvote]
    exact .refl _ _
  · rw [hmsgs, append_nil]
    exact h.backed.single
  · exact ((h.counted (hstate ▸ hcandidate)).mono hsub).of_face hterm hvote (congrArg Node.Face.votes hface)
  · rw [hterm]
    exact (h.elected (hstate ▸ hleader)).mono hsub

theorem save_keeps (h : Safe mem c) (hr : c.nodes i = some r) (hstep : clusterStep mem cfg (.save i) c = some c') :
    Safe mem c' ∧ Passes c c' := by
  obtain ⟨r0, hr0, rfl⟩ := Option.map_eq_some_iff.mp hstep
  cases hr.symm.trans hr0
  obtain ⟨hi, hsound⟩ := h.nodes i r hr
  have hsub : c.sent ⊆ c.sent ++ r.msgs := subset_append_left _ _
  have hown : ∀ m ∈ r.msgs, ∀ v t x, Ballot m v t x → v = i := fun m hm v t x hballot =>
    (hsound.backed.cast m hm v t x hballot).1
  have hcast : ∀ m ∈ c.sent ++ r.msgs, ∀ t x, Ballot m i t x → Cast t x r.term r.vote := fun m hm t x =>
    hsound.backed.cast_all (h.toDurable i) hm
  -- ballots of other replicas left before
  have hold : ∀ m ∈ c.sent ++ r.msgs, ∀ v, v ≠ i → ∀ t x, Ballot m v t x → m ∈ c.sent := fun m hm v hv t x hballot =>
    (mem_append.mp hm).resolve_right fun hm => hv (hown m hm v t x hballot)
  refine ⟨⟨?_, ?_, ?_, ?_⟩, ⟨hsub, fun j => ?_, fun j r1 r2 h1 h2 => ?_⟩⟩
  · exact forall_mem_append.mpr ⟨fun m hm => (h.posted m hm).mono hsub, fun m hm =>
      (hsound.backed.posted m hm).mono hsub⟩
  · intro m hm v t x hballot
    by_cases hv : v = i
    · cases hv
      simpa using hcast m hm t x hballot
    · simpa [hv] using h.durable m (hold m hm v hv t x hballot) v t x hballot
  · intro m1 hm1 m2 hm2 v t x1 x2 h1 h2
    by_cases hv : v = i
    · cases hv
      exact hsound.backed.single m1 hm1 m2 hm2 t x1 x2 h1 h2
    · exact h.single m1 (hold m1 hm1 v hv t x1 h1) m2 (hold m2 hm2 v hv t x2 h2) v t x1 x2 h1 h2
  · intro j r' hr'
    obtain ⟨rfl, hnew⟩ | ⟨hj, hother⟩ := set_nodes c i _ hr'
    · cases hnew
      simp only [if_pos]
      exact ⟨hi, hsound.saved _ rfl rfl⟩
    · obtain ⟨hj', hsound'⟩ := h.nodes j r' hother
      simp only [if_neg hj]
      exact ⟨hj', hsound'.grow fun m hm t x hballot => hj (hown m hm j t x hballot)⟩
  · by_cases hj : j = i
    · cases hj
      simpa using hsound.backed.ahead
    · simpa [hj] using Follows.refl _ _
  · obtain ⟨rfl, hnew⟩ | ⟨-, hother⟩ := set_nodes c i _ h2
    · cases hnew
      cases hr.symm.trans h1
      exact .refl _ _
    · cases h1.symm.trans hother
      exact .refl _ _

theorem clusterStep_keeps (hcfg : Placed mem cfg) (h : Safe mem c) {e : ClusterEvent}
    (hstep : clusterStep mem cfg e c = some c') : Safe mem c' ∧ Passes c c' := by
  refine (?_ : Program.Leads (clusterStep mem cfg e c) fun c' => Safe mem c' ∧ Passes c c') c' hstep
  cases e with
  | launch i logdb draws initial =>
    refine .ite (fun hmay => .map fun r hr => ?_) fun _ => .none
    have hsound := launch_yields hcfg h draws hmay r (toOption_eq_some.mp hr)
    refine ⟨h.set fun r' hr' => by cases hr'; exact hsound, Passes.set fun r1 r' h1 _ => ?_⟩
    have hdown := hmay.2.1
    rw [h1] at hdown
    cases hdown
  | crash i => exact .some ⟨h.set (fun _ hr => nomatch hr), Passes.set (fun _ _ _ hr => nomatch hr)⟩
  | receive i m =>
    refine .ite (fun hm _ => ?_) fun _ => .none
    obtain ⟨hm, rfl⟩ := hm
    exact handle_keeps h ((h.posted m hm).arrives hm)
  | call i m => exact .ite (fun hm _ => handle_keeps h (hm.arrives i)) fun _ => .none
  | log i log applied =>
    refine .map fun r hr => ?_
    obtain ⟨hi, hsound⟩ := h.nodes i r hr
    refine ⟨h.set fun r' hr' => ?_, Passes.set fun r1 r' h1 hr' => ?_⟩
    · cases hr'
      exact ⟨hi, hsound.move (h.toDurable i) hi (.quiet (.same rfl rfl))⟩
    · cases hr'
      cases hr.symm.trans h1
      exact .refl _ _
  | replicate i => exact .map fun r _ => replicate_keeps h r
  | save i =>
    intro c' hstep
    obtain ⟨r, hr, -⟩ := Option.map_eq_some_iff.mp hstep
    exact save_keeps h hr hstep

theorem safe_start (mem : Membership) (saved : ℕ → State) : Safe mem (.start saved) :=
  ⟨by simp [Cluster.start], by simp [Cluster.start], by simp [Single, Cluster.start], by simp [Cluster.start]⟩

/-- The replica runs before every event. -/
def Runs (mem : Membership) (cfg : ℕ → Config) (i : ℕ) : List ClusterEvent → Cluster → Prop :=
  Throughout (clusterStep mem cfg) fun _ c => (c.nodes i).isSome

def Leads (c : Cluster) (i t : ℕ) : Prop := ∃ r, c.nodes i = some r ∧ r.state = .leader ∧ r.term = t

theorem run_safe (hcfg : Placed mem cfg) (h : Safe mem c)
    (hrun : runMachine (clusterStep mem cfg) es c = some c') : Safe mem c' :=
  runMachine_keeps (fun _ _ _ hsafe hstep => (clusterStep_keeps hcfg hsafe hstep).1) h hrun

theorem run_saved (hcfg : Placed mem cfg) (h : Safe mem c) (hrun : runMachine (clusterStep mem cfg) es c = some c') :
    c.sent ⊆ c'.sent ∧ ∀ i, Follows (c.saved i).term (c.saved i).vote (c'.saved i).term (c'.saved i).vote := by
  induction es generalizing c with
  | nil =>
    cases hrun
    exact ⟨fun _ => id, fun _ => .refl _ _⟩
  | cons e es ih =>
    obtain ⟨c1, hstep, hrest⟩ := Option.bind_eq_some_iff.mp hrun
    obtain ⟨hsafe, hpasses⟩ := clusterStep_keeps hcfg h hstep
    obtain ⟨hsent, hsaved⟩ := ih hsafe hrest
    exact ⟨fun m hm => hsent (hpasses.sent hm), fun i => (hpasses.saved i).trans (hsaved i)⟩

theorem run_running (hcfg : Placed mem cfg) (h : Safe mem c) (hruns : Runs mem cfg i es c)
    (hrun : runMachine (clusterStep mem cfg) es c = some c') (hr : c.nodes i = some r) (hr' : c'.nodes i = some r') :
    Follows r.term r.vote r'.term r'.vote := by
  induction es generalizing c r with
  | nil =>
    cases hrun
    cases hr.symm.trans hr'
    exact .refl _ _
  | cons e es ih =>
    obtain ⟨c1, hstep, hrest⟩ := Option.bind_eq_some_iff.mp hrun
    obtain ⟨hsafe, hpasses⟩ := clusterStep_keeps hcfg h hstep
    have hlater := hruns.2 c1 hstep
    cases es with
    | nil =>
      cases hrest
      exact hpasses.running i r r' hr hr'
    | cons e' es =>
      obtain ⟨r1, hr1⟩ := Option.isSome_iff_exists.mp hlater.1
      exact (hpasses.running i r r1 hr hr1).trans (ih hsafe hlater hrest hr1)

end

/-- For any two states of a run: no two replicas lead in one term; no persisted term goes
back and no persisted vote changes within a term; and the same holds for the term and the
vote of a replica while its process runs. -/
theorem one_leader_per_term (mem : Membership) (cfg : ℕ → Config) (hcfg : Placed mem cfg) (saved : ℕ → State)
    (es es' : List ClusterEvent) (c c' : Cluster) (hrun : runMachine (clusterStep mem cfg) es (.start saved) = some c)
    (hlater : runMachine (clusterStep mem cfg) es' c = some c') : (∀ i j t, Leads c i t → Leads c' j t → i = j) ∧
      (∀ i, Follows (c.saved i).term (c.saved i).vote (c'.saved i).term (c'.saved i).vote) ∧
      ∀ i r r', Runs mem cfg i es' c → c.nodes i = some r → c'.nodes i = some r' →
        Follows r.term r.vote r'.term r'.vote := by
  have hsafe : Safe mem c := run_safe hcfg (safe_start mem saved) hrun
  have hsafe' : Safe mem c' := run_safe hcfg hsafe hlater
  obtain ⟨hsent, hsaved⟩ := run_saved hcfg hsafe hlater
  refine ⟨fun i j t hi hj => ?_, hsaved, fun i r r' hruns hr hr' => run_running hcfg hsafe hruns hlater hr hr'⟩
  obtain ⟨r, hr, hstate, hterm⟩ := hi
  obtain ⟨r', hr', hstate', hterm'⟩ := hj
  have helected : Elected mem c'.sent t i := by
    rw [← hterm]
    exact ((hsafe.nodes i r hr).2.elected hstate).mono hsent
  have helected' : Elected mem c'.sent t j := by
    rw [← hterm']
    exact (hsafe'.nodes j r' hr').2.elected hstate'
  exact helected.unique hsafe'.single helected'

/-- A leader is a full member, and a majority of the voters has persisted its vote for it. -/
theorem leader_has_persisted_majority (mem : Membership) (cfg : ℕ → Config) (hcfg : Placed mem cfg) (saved : ℕ → State)
    (es : List ClusterEvent) (c : Cluster) (hrun : runMachine (clusterStep mem cfg) es (.start saved) = some c)
    (i t : ℕ)
    (hleads : Leads c i t) : i ∈ mem.addresses ∧ (mem.voters = [i] ∨ ∃ supporters : List ℕ, supporters.Nodup ∧
      mem.voters.length < 2 * supporters.length ∧
        ∀ v ∈ supporters, v ∈ mem.voters ∧ Cast t i (c.saved v).term (c.saved v).vote) := by
  have h : Safe mem c := run_safe hcfg (safe_start mem saved) hrun
  obtain ⟨r, hr, hstate, rfl⟩ := hleads
  have hsound := (h.nodes i r hr).2
  refine ⟨hsound.voter (by simp [hstate]) (by simp [hstate]), ?_⟩
  obtain ⟨hvoter, hone | ⟨supporters, hnodup, hmajority, hvotes⟩⟩ := hsound.elected hstate
  · obtain ⟨x, hx⟩ := length_eq_one_iff.mp hone
    rw [hx, mem_singleton] at hvoter
    exact .inl (hvoter ▸ hx)
  · refine .inr ⟨supporters, hnodup, hmajority, fun v hv => ?_⟩
    obtain ⟨hvoter, m, hm, hballot⟩ := hvotes v hv
    exact ⟨hvoter, h.durable m hm v _ i hballot⟩

/-! ### Three voters that start again from a snapshot -/

def threeVoters : Membership := ⟨[1, 2, 3], [], []⟩

def voterConfig (i : ℕ) : Config where
  replicaID := i
  electionTimeout := 10
  heartbeatTimeout := 1
  checkQuorum := true
  preVote := false
  isNonVoting := false
  isWitness := false
  limits := ⟨1000, 1000, 10, Nat.succ_pos 9⟩
  random := fun _ => 0

theorem threeVoters_placed : Placed threeVoters voterConfig where
  id _ := rfl
  nonzero := by decide
  learner _ h := nomatch h
  voter i hi _ _ := by simpa [threeVoters, Membership.members] using hi

/-- Three entries of the first term are in a snapshot. -/
def voterLog : LogDB := ⟨⟨1, 0, 3⟩, ⟨3, 1, threeVoters⟩, 3, 1, []⟩

/-- A replica starts, and its state machine reports the entries of the snapshot as applied. -/
def starts (i : ℕ) : List ClusterEvent := [.launch i voterLog 0 false, .log i (newEntryLog voterLog) 3]

/-- A replica asks another one for its vote in the second term. -/
def asks (candidate voter : ℕ) : List ClusterEvent :=
  [.call candidate { type := .election }, .save candidate, .receive voter
    { type := .requestVote, target := voter, sender := candidate, term := 2, logIndex := 3, logTerm := 1 }]

/-- The second replica asks the first one, which has not persisted its vote yet. -/
def firstVote : List ClusterEvent := starts 1 ++ starts 2 ++ starts 3 ++ asks 2 1

/-- The vote is persisted and arrives. -/
def firstVoteCounts : List ClusterEvent :=
  firstVote ++ [.save 1, .receive 2 { type := .requestVoteResp, target := 2, sender := 1, term := 2 }]

def ballotAfter (es : List ClusterEvent) (i : ℕ) : Option (Role × ℕ × ℕ) :=
  ((runMachine (clusterStep threeVoters voterConfig) es (.start fun _ => voterLog.state)).bind (·.nodes i)).map
    fun r => (r.state, r.term, r.vote)

/-- A vote that was not persisted is lost with the process: the term goes back, and in the
second term the replica votes for the second and then for the third replica. -/
theorem restart_loses_vote : ballotAfter firstVote 1 = some (.follower, 2, 2) ∧
    ballotAfter (firstVote ++ .crash 1 :: starts 1) 1 = some (.follower, 1, 0) ∧
    ballotAfter (firstVote ++ .crash 1 :: starts 1 ++ asks 3 1) 1 = some (.follower, 2, 3) := by
  decide +kernel

theorem second_leads : ∃ c, runMachine (clusterStep threeVoters voterConfig) firstVoteCounts
    (.start fun _ => voterLog.state) = some c ∧ Leads c 2 2 := by
  have hballot : ballotAfter firstVoteCounts 2 = some (.leader, 2, 2) := by decide +kernel
  obtain ⟨r, hr, hrole⟩ := Option.map_eq_some_iff.mp hballot
  obtain ⟨c, hrun, hnode⟩ := Option.bind_eq_some_iff.mp hr
  exact ⟨c, hrun, r, hnode, congrArg (·.1) hrole, congrArg (·.2.1) hrole⟩

/-- With a vote that was persisted the second replica leads, and no other one in its term. -/
theorem one_leader_per_term_threeVoters : ∃ c,
    runMachine (clusterStep threeVoters voterConfig) firstVoteCounts (.start fun _ => voterLog.state) = some c ∧
      Leads c 2 2 ∧ ∀ j, Leads c j 2 → 2 = j := by
  obtain ⟨c, hrun, hleads⟩ := second_leads
  have hsafe := one_leader_per_term threeVoters voterConfig threeVoters_placed _ firstVoteCounts [] c c hrun rfl
  exact ⟨c, hrun, hleads, fun j hj => hsafe.1 2 j 2 hleads hj⟩

/-- The second replica leads with the votes that two of the three have persisted. -/
theorem leader_has_persisted_majority_threeVoters : ∃ c, Leads c 2 2 ∧ 2 ∈ threeVoters.addresses ∧
    ∃ supporters : List ℕ, supporters.Nodup ∧ 2 ≤ supporters.length ∧
      ∀ v ∈ supporters, v ∈ threeVoters.voters ∧ Cast 2 2 (c.saved v).term (c.saved v).vote := by
  obtain ⟨c, hrun, hleads⟩ := second_leads
  obtain ⟨hmem, hone | ⟨supporters, hnodup, hlength, hcast⟩⟩ :=
    leader_has_persisted_majority _ _ threeVoters_placed _ firstVoteCounts c hrun 2 2 hleads
  · cases hone
  · have hthree : threeVoters.voters.length = 3 := rfl
    exact ⟨c, hleads, hmem, supporters, hnodup, by omega, hcast⟩

end Armada.Raft
