import Armada.Raft.Promises

/-! The rounds in which a replica persists its state. A round takes an update from the core, may
apply entries at once that were saved before, saves the update, and only then lets the responses
leave and applies the rest. The apply worker may change the members at any moment. -/

namespace Armada.Raft

open Program List Option

/-! ### Updates -/

structure Peer where
  raft : Node
  prevState : State

structure Update where
  state : State
  entriesToSave : List Entry
  committedEntries : List Entry
  messages : List Message
  snapshot : Snapshot
  readyToReads : List ReadyToRead
  leaderUpdate : Option LeaderUpdate
  droppedEntries : List Entry
  droppedReadIndexes : List SystemCtx
  lastApplied : ℕ
  fastApply : Bool

def Node.raftState (r : Node) : State := ⟨r.term, r.vote, r.log.committed⟩

namespace Update

def validateUpdate (ud : Update) : Except Fault Unit :=
  match ud.committedEntries.getLast?, ud.entriesToSave.getLast? with
  | none, _ => .ok ()
  | some apply, save =>
    if 0 < ud.state.commit ∧ ud.state.commit < apply.index then
      panicked (.unexpected "trying to apply not committed entry")
    else if save.any (·.index < apply.index) then panicked (.unexpected "trying to apply not saved entry")
    else .ok ()

/-- Entries are applied before the save unless the last of them is about to be saved. -/
def setFastApply (ud : Update) : Update :=
  { ud with
    fastApply :=
      if !ud.snapshot.isEmpty then false
      else
        match ud.committedEntries.getLast?, ud.entriesToSave.getLast?, ud.entriesToSave.head? with
        | some apply, some last, some first => !(first.index ≤ apply.index ∧ apply.index ≤ last.index)
        | _, _, _ => true }

def getUpdateCommit (ud : Update) : UpdateCommit where
  readyToRead := ud.readyToReads.length
  lastApplied := ud.lastApplied
  processed :=
    let processed := (ud.committedEntries.getLast?.map (·.index)).getD 0
    if ud.snapshot.isEmpty then processed else max processed ud.snapshot.index
  stableLogTo := (ud.entriesToSave.getLast?.map (·.index)).getD 0
  stableLogTerm := (ud.entriesToSave.getLast?.map (·.term)).getD 0
  stableSnapshotTo := if ud.snapshot.isEmpty then 0 else ud.snapshot.index

end Update

namespace Peer

def toApply (p : Peer) (moreToApply : Bool) : Except Fault (List Entry) :=
  if moreToApply then p.raft.log.entriesToApply p.raft.limits else .ok []

/-- What the core has to save, to send and to apply. -/
def collect (p : Peer) (committedEntries : List Entry) (lastApplied : ℕ) : Update where
  state := if p.raft.raftState = p.prevState then emptyState else p.raft.raftState
  entriesToSave := p.raft.log.entriesToSave
  committedEntries := committedEntries
  messages := p.raft.msgs
  snapshot := p.raft.log.inmem.snapshot.getD emptySnapshot
  readyToReads := p.raft.readyToRead
  leaderUpdate := p.raft.leaderUpdate
  droppedEntries := p.raft.droppedEntries
  droppedReadIndexes := p.raft.droppedReadIndexes
  lastApplied := lastApplied
  fastApply := true

def getUpdate (p : Peer) (moreToApply : Bool) (lastApplied : ℕ) : Except Fault Update := do
  let committedEntries ← p.toApply moreToApply
  let ud := p.collect committedEntries lastApplied
  ud.validateUpdate
  .ok ud.setFastApply

def commit (p : Peer) (ud : Update) : Except Fault Peer := do
  let log ← p.raft.log.commitUpdate ud.getUpdateCommit
  .ok {
    raft := { p.raft with
      log := log
      msgs := []
      leaderUpdate := none
      droppedEntries := []
      droppedReadIndexes := []
      readyToRead := if ud.readyToReads = [] then p.raft.readyToRead else [] }
    prevState := if ud.state = emptyState then p.prevState else ud.state }

/-- The entries a new shard starts with. -/
def bootstrap (r : Node) (ents : List Entry) : Except Fault Node := do
  let r ← r.becomeFollower 1 0
  let log ← r.log.append ents
  .ok { r with log := { log with committed := ents.length } }

def launch (cfg : Config) (mem : Membership) (logdb : LogDB) (draws : ℕ) (boot : Option (List Entry)) :
    Except Fault Peer := do
  let r ← newRaft cfg mem logdb draws
  let started ← match boot with
    | none => .ok r
    | some ents => bootstrap r ents
  .ok ⟨started, r.raftState⟩

end Peer

/-! ### Rounds -/

/-- How far a round has come. -/
inductive Stage where
  | taken | pushed | posted | saved | settled | sent

def Stage.isSaved : Stage → Bool
  | .taken | .pushed | .posted => false
  | .saved | .settled | .sent => true

structure Host where
  peer : Peer
  round : Option (Stage × Update)
  pushedIndex : ℕ
  /-- the term and the vote that were saved last -/
  persisted : State
  /-- every entry that was saved or was found at the start -/
  saved : List Entry
  /-- the entries that the state machine was given -/
  handed : List Entry
  /-- the messages that left -/
  left : List Message

def isFreeOrderMessage (m : Message) : Bool := m.type = .replicate ∨ m.type = .ping

/-- The entries above an index. -/
def entriesToPush (entries : List Entry) (applied : ℕ) : Except Fault (List Entry) :=
  match entries.head?, entries.getLast? with
  | some first, some last =>
    if last.index ≤ applied then panicked (.unexpected "got entries older than current state")
    else if applied + 1 < first.index then panicked (.unexpected "entry hole found")
    else .ok (entries.drop (applied + 1 - first.index))
  | _, _ => .ok entries

namespace Host

variable (c : Host)

def raft : Node := c.peer.raft

def setRaft (r : Node) : Host := { c with peer := { c.peer with raft := r } }

def setLogDB (logdb : LogDB) : Host :=
  c.setRaft { c.raft with log := { c.raft.log with logdb := logdb } }

def start (p : Peer) (logdb : LogDB) (pushedIndex : ℕ) : Host where
  peer := p
  round := none
  pushedIndex := pushedIndex
  persisted := logdb.state
  saved := logdb.entries
  handed := []
  left := []

def handle (m : Message) : Option Host := (c.raft.handle m).toOption.map c.setRaft

/-- A received snapshot goes to the log reader and to the state machine. -/
def processSnapshot (ud : Update) : Host :=
  if ud.snapshot.isEmpty then c
  else { c.setLogDB (c.raft.log.logdb.applySnapshot ud.snapshot) with pushedIndex := ud.snapshot.index }

def applyRaftUpdates (ud : Update) : Option Host :=
  (entriesToPush ud.committedEntries c.pushedIndex).toOption.map fun ents =>
    { c with handed := c.handed ++ ents, pushedIndex := (ents.getLast?.map (·.index)).getD c.pushedIndex }

def applySnapshotAndUpdate (ud : Update) (fastApply : Bool) : Option Host :=
  if ud.fastApply = fastApply then (c.processSnapshot ud).applyRaftUpdates ud else some c

/-- `SaveRaftState` makes the update durable. -/
def saveRaftState (ud : Update) : Host :=
  { c with
    persisted := if ud.state = emptyState then c.persisted else ud.state
    saved := c.saved ++ ud.entriesToSave }

def send (msgs : List Message) : Host := { c with left := c.left ++ msgs }

def processRaftUpdate (ud : Update) : Option Host :=
  (c.raft.log.logdb.append ud.entriesToSave).toOption.map fun logdb =>
    (c.setLogDB logdb).send (ud.messages.filter fun m => !isFreeOrderMessage m)

end Host

inductive RoundEvent where
  /-- a message, a tick or a request -/
  | handle (m : Message)
  /-- the apply worker changes the members -/
  | member (m : Message)
  | applied (index : ℕ)
  /-- the log reader forgets entries -/
  | compact (index : ℕ)
  | update (moreToApply : Bool) (lastApplied : ℕ)
  /-- the next step of the round -/
  | next

/-- The steps of a round, in the order of `processSteps`. -/
def roundNext (c : Host) (ud : Update) : Stage → Option Host
  | .taken => (c.applySnapshotAndUpdate ud true).map fun c => { c with round := some (.pushed, ud) }
  | .pushed => some { c.send (ud.messages.filter isFreeOrderMessage) with round := some (.posted, ud) }
  | .posted => some { c.saveRaftState ud with round := some (.saved, ud) }
  | .saved => (c.applySnapshotAndUpdate ud false).map fun c => { c with round := some (.settled, ud) }
  | .settled => (c.processRaftUpdate ud).map fun c => { c with round := some (.sent, ud) }
  | .sent => (c.peer.commit ud).toOption.map fun p => { c with peer := p, round := none }

def roundStep : RoundEvent → Host → Option Host
  | .handle m, c => if c.round.isNone ∧ WellFormed m then c.handle m else none
  | .member m, c => if m.type ∈ [MessageType.configChangeEvent, .snapshotReceived] then c.handle m else none
  | .applied index, c => some (c.setRaft { c.raft with applied := index })
  | .compact index, c => (c.raft.log.logdb.compact c.raft.limits index).toOption.map c.setLogDB
  | .update moreToApply lastApplied, c =>
    if c.round.isNone then
      (c.peer.getUpdate moreToApply lastApplied).toOption.map fun ud => { c with round := some (.taken, ud) }
    else none
  | .next, c => c.round.bind fun round => roundNext c round.2 round.1

/-! ### What holds throughout -/

/-- The same term and vote. -/
def Agree (st st' : State) : Prop := st.term = st'.term ∧ st.vote = st'.vote

/-- The state that is persisted once an update is saved. -/
def Update.written (ud : Update) (persisted : State) : State := if ud.state = emptyState then persisted else ud.state

theorem Update.written_written (ud : Update) (persisted : State) :
    ud.written (ud.written persisted) = ud.written persisted := by
  unfold written
  split_ifs <;> rfl

/-- A round that is under way. -/
structure Underway (c : Host) (stage : Stage) (ud : Update) : Prop where
  save : ud.entriesToSave = c.raft.log.entriesToSave
  apply : ∀ e ∈ ud.committedEntries, e ∈ c.saved ∨ e ∈ ud.entriesToSave
  fast : ud.fastApply = true → ∀ e ∈ ud.committedEntries, e ∈ c.saved
  within : ud.getUpdateCommit.processed < c.raft.log.inmem.markerIndex + c.raft.log.inmem.entries.length
  ahead : Follows c.persisted.term c.persisted.vote (ud.written c.persisted).term (ud.written c.persisted).vote
  behind : Follows (ud.written c.persisted).term (ud.written c.persisted).vote c.raft.term c.raft.vote
  reports : ∀ m ∈ ud.messages, Reports m → Kept m (ud.written c.persisted).term (ud.written c.persisted).vote
  saved : stage.isSaved → ud.written c.persisted = c.persisted ∧ ∀ e ∈ ud.entriesToSave, e ∈ c.saved
  prev : Agree (if stage.isSaved then ud.written c.peer.prevState else c.peer.prevState) c.persisted

structure Steady (c : Host) : Prop where
  log : Tracked c.saved c.raft.log
  ahead : Follows c.persisted.term c.persisted.vote c.raft.term c.raft.vote
  reports : ∀ m ∈ c.raft.msgs, Reports m → Kept m c.raft.term c.raft.vote
  handed : ∀ e ∈ c.handed, e ∈ c.saved
  left : ∀ m ∈ c.left, Reports m → Kept m c.persisted.term c.persisted.vote
  idle : c.round = none → Agree c.peer.prevState c.persisted
  round : ∀ stage ud, c.round = some (stage, ud) → Underway c stage ud

section
variable {c c' : Host} {ud : Update} {stage : Stage} {m : Message} {r : Node}

/-- A round depends on the entries in memory, on the saved state and on what was saved. -/
theorem Underway.of_eq (h : Underway c stage ud) (hinmem : c'.raft.log.inmem = c.raft.log.inmem)
    (hfollows : Follows c.raft.term c.raft.vote c'.raft.term c'.raft.vote) (hsaved : c'.saved = c.saved)
    (hpersisted : c'.persisted = c.persisted) (hprev : c'.peer.prevState = c.peer.prevState) :
    Underway c' stage ud where
  save := by rw [EntryLog.entriesToSave, hinmem]; exact h.save
  apply := by rw [hsaved]; exact h.apply
  fast := by rw [hsaved]; exact h.fast
  within := by rw [hinmem]; exact h.within
  ahead := by rw [hpersisted]; exact h.ahead
  behind := by rw [hpersisted]; exact h.behind.trans hfollows
  reports := by rw [hpersisted]; exact h.reports
  saved := by rw [hpersisted, hsaved]; exact h.saved
  prev := by rw [hpersisted, hprev]; exact h.prev

/-! ### Outside of the steps of a round -/

theorem Steady.handle_idle (h : Steady c) (hround : c.round = none) (hm : WellFormed m) (hstep : c.handle m = some c') :
    Steady c' := by
  obtain ⟨r, hr, rfl⟩ := map_eq_some_iff.mp hstep
  have hends : Node.Ends c.saved c.raft r := (Node.outcome_handle hm c.raft r (toOption_eq_some.mp hr)).ends
  refine ⟨hends.log h.log, h.ahead.trans hends.follows, fun m hm hreports => ?_, h.handed, h.left, h.idle,
    fun stage ud hud => ?_⟩
  · exact (hends.reports m hm hreports).elim (fun hm => (h.reports m hm hreports).follows hends.follows) id
  · exact absurd (hround.symm.trans hud) (by simp)

/-- A change that leaves the entries of the log alone may come at any moment. -/
theorem Steady.light (h : Steady c) (hlight : Node.Light c.raft r) : Steady (c.setRaft r) := by
  have hfollows := hlight.speaks.follows
  refine ⟨h.log.held hlight.held, h.ahead.trans hfollows, fun m hm hreports => ?_, h.handed, h.left, h.idle,
    fun stage ud hud => ?_⟩
  · exact (hlight.speaks.reports m hm hreports).elim (fun hm => (h.reports m hm hreports).follows hfollows) id
  · exact (h.round stage ud hud).of_eq hlight.held.inmem hfollows rfl rfl rfl

theorem Steady.member (h : Steady c) (hm : m.type ∈ [MessageType.configChangeEvent, .snapshotReceived])
    (hstep : c.handle m = some c') : Steady c' ∧ Node.Speaks c.raft c'.raft := by
  obtain ⟨r, hr, rfl⟩ := map_eq_some_iff.mp hstep
  have hwellFormed : WellFormed m := by
    simp only [mem_cons, not_mem_nil, or_false] at hm
    constructor <;> intro htype <;> simp [htype] at hm
  have houtcome : Node.Outcome c.saved m c.raft r := Node.outcome_handle hwellFormed c.raft r (toOption_eq_some.mp hr)
  exact ⟨h.light (houtcome.light hm), (houtcome.light hm).speaks⟩

theorem Steady.setLogDB (h : Steady c) {logdb : LogDB} (hlog : Tracked c.saved { c.raft.log with logdb := logdb }) :
    Steady (c.setLogDB logdb) := by
  exact ⟨hlog, h.ahead, h.reports, h.handed, h.left, h.idle, fun stage ud hud =>
    (h.round stage ud hud).of_eq rfl (.refl _ _) rfl rfl rfl⟩

/-! ### Taking an update -/

theorem Update.validateUpdate_ok (h : ud.validateUpdate = .ok ()) {apply save : Entry}
    (happly : ud.committedEntries.getLast? = some apply) (hsave : ud.entriesToSave.getLast? = some save) :
    apply.index ≤ save.index := by
  unfold validateUpdate at h
  rw [happly, hsave] at h
  dsimp only at h
  split_ifs at h with hcommit hlast
  · cases h
  · cases h
  · simpa using hlast

variable {p : Peer} {saved ents : List Entry} {lastApplied : ℕ}

/-- What is applied before the save was saved earlier: an entry above the cursor would put the
last entry to apply between the first and the last one to save. -/
theorem Drawn.fast (hents : Drawn p.raft.log ents) (h : Tracked saved p.raft.log)
    (hvalid : (p.collect ents lastApplied).validateUpdate = .ok ())
    (hfast : (p.collect ents lastApplied).setFastApply.fastApply = true) : ∀ e ∈ ents, e ∈ saved := by
  intro e he
  rcases hents e he with ⟨hstored, -⟩ | ⟨hinmem, hlast⟩
  · exact h.durable e hstored
  rcases h.cursor.saved_or hinmem with hsaved | hsave
  · exact hsaved
  exfalso
  have horder : Consecutive (p.raft.log.inmem.savedTo + 1) p.raft.log.entriesToSave := h.cursor.entriesToSave_inOrder
  have hsave : e ∈ p.raft.log.entriesToSave := hsave
  obtain ⟨apply, happly⟩ : ∃ apply, ents.getLast? = some apply :=
    ⟨_, List.getLast?_eq_some_getLast (ne_nil_of_mem he)⟩
  obtain ⟨last, hlast'⟩ : ∃ last, p.raft.log.entriesToSave.getLast? = some last :=
    ⟨_, List.getLast?_eq_some_getLast (ne_nil_of_mem hsave)⟩
  obtain ⟨first, rest, hrest⟩ := exists_cons_of_ne_nil (ne_nil_of_mem hsave)
  have hfirst : p.raft.log.entriesToSave.head? = some first := by rw [hrest]; rfl
  have hbelow : apply.index ≤ last.index := Update.validateUpdate_ok hvalid happly hlast'
  have habove : first.index ≤ apply.index := by
    rw [hrest] at horder hsave
    have := (horder.start.bounds hsave).1
    exact this.trans (hlast apply happly)
  simp only [Update.setFastApply, Peer.collect, happly, hlast', hfirst] at hfast
  simp [habove, hbelow] at hfast

theorem Peer.getUpdate_yields (h : Tracked saved p.raft.log) (moreToApply : Bool) :
    Yields (p.getUpdate moreToApply lastApplied) fun ud => ∃ ents, Drawn p.raft.log ents ∧
    (p.collect ents lastApplied).validateUpdate = .ok () ∧ ud = (p.collect ents lastApplied).setFastApply := by
  unfold getUpdate
  have htoApply : Yields (p.toApply moreToApply) (Drawn p.raft.log) := by
    unfold toApply
    exact .ite (fun _ => h.entriesToApply) fun _ => .ok .nil
  refine htoApply.bind fun ents hents => ?_
  have hvalid : Yields (p.collect ents lastApplied).validateUpdate fun _ =>
      (p.collect ents lastApplied).validateUpdate = .ok () := fun _ hok => hok
  exact hvalid.bind fun _ hok => .ok ⟨ents, hents, hok, rfl⟩

theorem Steady.written (h : Steady c) (hround : c.round = none) (ents : List Entry) (lastApplied : ℕ) :
    ((c.peer.collect ents lastApplied).written c.persisted).term = c.raft.term ∧
    ((c.peer.collect ents lastApplied).written c.persisted).vote = c.raft.vote := by
  have hagree := h.idle hround
  have hahead := h.ahead
  unfold Update.written Peer.collect
  by_cases hprev : c.peer.raft.raftState = c.peer.prevState
  · rw [if_pos (if_pos hprev)]
    rw [← hprev] at hagree
    exact ⟨hagree.1.symm, hagree.2.symm⟩
  rw [if_neg hprev]
  by_cases hempty : c.peer.raft.raftState = emptyState
  · rw [if_pos hempty]
    have hterm : c.raft.term = 0 := congrArg State.term hempty
    have hvote : c.raft.vote = 0 := congrArg State.vote hempty
    unfold Follows at hahead
    omega
  · rw [if_neg hempty]
    exact ⟨rfl, rfl⟩

theorem Steady.update (h : Steady c) (hround : c.round = none) {moreToApply : Bool}
    (hud : c.peer.getUpdate moreToApply lastApplied = .ok ud) : Steady { c with round := some (.taken, ud) } := by
  obtain ⟨ents, hents, hvalid, rfl⟩ := Peer.getUpdate_yields h.log moreToApply ud hud
  obtain ⟨hterm, hvote⟩ := h.written hround ents lastApplied
  refine ⟨h.log, h.ahead, h.reports, h.handed, h.left, (fun hnone => nomatch hnone), fun stage ud hud => ?_⟩
  cases hud
  have hwithin := h.log.cursor.within
  have hprocessed := h.log.processed
  refine ⟨rfl, fun e he => (hents.saved_or h.log he).1, fun hfast => hents.fast h.log hvalid hfast, ?_, ?_, ?_, ?_,
    (fun hsaved => nomatch hsaved), h.idle hround⟩
  · have hlast : (ents.getLast?.map (·.index)).getD 0 < c.raft.log.inmem.markerIndex +
      c.raft.log.inmem.entries.length := by
      cases hents' : ents.getLast? with
      | none => exact (Nat.zero_le _).trans_lt hwithin
      | some e => exact (hents.saved_or h.log (mem_of_getLast? hents')).2
    have hsnapshot : (c.raft.log.inmem.snapshot.getD emptySnapshot).index <
        c.raft.log.inmem.markerIndex + c.raft.log.inmem.entries.length := by
      cases hss : c.raft.log.inmem.snapshot with
      | none => exact (Nat.zero_le _).trans_lt hwithin
      | some ss => exact ((h.log.snapshot ss hss).trans hprocessed).trans_lt hwithin
    simp only [Update.getUpdateCommit]
    split_ifs
    · exact hlast
    · exact max_lt hlast hsnapshot
  · change Follows _ _ ((c.peer.collect ents lastApplied).written c.persisted).term
      ((c.peer.collect ents lastApplied).written c.persisted).vote
    rw [hterm, hvote]
    exact h.ahead
  · change Follows ((c.peer.collect ents lastApplied).written c.persisted).term
      ((c.peer.collect ents lastApplied).written c.persisted).vote c.raft.term c.raft.vote
    rw [hterm, hvote]
    exact .refl _ _
  · intro m hm hreports
    change Kept m ((c.peer.collect ents lastApplied).written c.persisted).term
      ((c.peer.collect ents lastApplied).written c.persisted).vote
    rw [hterm, hvote]
    exact h.reports m hm hreports

/-! ### The steps of a round -/

theorem entriesToPush_yields (entries : List Entry) (applied : ℕ) :
    Yields (entriesToPush entries applied) fun ents => ∀ e ∈ ents, e ∈ entries := by
  unfold entriesToPush
  split
  · exact .ite (fun _ => .error _) fun _ => .ite (fun _ => .error _) fun _ => .ok fun e he => mem_of_mem_drop he
  · exact .ok fun e he => he

theorem Steady.goOn {stage' : Stage} (h : Steady c) (hround : c.round = some (stage, ud))
    (hsame : stage'.isSaved = stage.isSaved) : Steady { c with round := some (stage', ud) } := by
  refine ⟨h.log, h.ahead, h.reports, h.handed, h.left, (fun hnone => nomatch hnone), fun stage1 ud1 hud => ?_⟩
  cases hud
  have hunder := h.round stage ud hround
  exact ⟨hunder.save, hunder.apply, hunder.fast, hunder.within, hunder.ahead, hunder.behind, hunder.reports,
    hsame ▸ hunder.saved, hsame ▸ hunder.prev⟩

variable {fastApply : Bool} {event : RoundEvent}

section
variable (h : Steady c)
include h

theorem Steady.hand (hents : ud.fastApply = fastApply → ∀ e ∈ ud.committedEntries, e ∈ c.saved)
    (hstep : c.applySnapshotAndUpdate ud fastApply = some c') : Steady c' ∧ c'.round = c.round := by
  unfold Host.applySnapshotAndUpdate at hstep
  by_cases hfast : ud.fastApply = fastApply
  swap
  · rw [if_neg hfast] at hstep
    cases hstep
    exact ⟨h, rfl⟩
  rw [if_pos hfast] at hstep
  obtain ⟨ents, hpush, rfl⟩ := map_eq_some_iff.mp hstep
  have hsub := entriesToPush_yields _ _ ents (toOption_eq_some.mp hpush)
  have hsnapshot : Steady (c.processSnapshot ud) ∧ (c.processSnapshot ud).round = c.round ∧
      (c.processSnapshot ud).saved = c.saved := by
    unfold Host.processSnapshot
    split_ifs
    · exact ⟨h, rfl, rfl⟩
    · have hset := h.setLogDB (h.log.applySnapshot ud.snapshot)
      exact ⟨⟨hset.log, hset.ahead, hset.reports, hset.handed, hset.left, hset.idle, fun stage ud hud =>
        (hset.round stage ud hud).of_eq rfl (.refl _ _) rfl rfl rfl⟩, rfl, rfl⟩
  obtain ⟨hsteady, hround, hsaved⟩ := hsnapshot
  refine ⟨⟨hsteady.log, hsteady.ahead, hsteady.reports, ?_, hsteady.left, hsteady.idle, fun stage ud hud => ?_⟩, hround⟩
  · refine forall_mem_append.mpr ⟨hsteady.handed, fun e he => ?_⟩
    rw [hsaved]
    exact hents hfast e (hsub e he)
  · exact (hsteady.round stage ud hud).of_eq rfl (.refl _ _) rfl rfl rfl

theorem Steady.send {msgs : List Message}
    (hmsgs : ∀ m ∈ msgs, Reports m → Kept m c.persisted.term c.persisted.vote) : Steady (c.send msgs) := by
  refine ⟨h.log, h.ahead, h.reports, h.handed, forall_mem_append.mpr ⟨h.left, hmsgs⟩, h.idle, fun stage ud hud => ?_⟩
  exact (h.round stage ud hud).of_eq rfl (.refl _ _) rfl rfl rfl

theorem Steady.save (hround : c.round = some (.posted, ud)) :
    Steady { c.saveRaftState ud with round := some (.saved, ud) } := by
  have hunder := h.round _ _ hround
  have hsub : c.saved ⊆ c.saved ++ ud.entriesToSave := subset_append_left _ _
  have hprev : Agree c.peer.prevState c.persisted := hunder.prev
  refine ⟨h.log.mono hsub, hunder.behind, h.reports, fun e he => hsub (h.handed e he),
    fun m hm hreports => (h.left m hm hreports).follows hunder.ahead, (fun hnone => nomatch hnone),
      fun stage ud' hud => ?_⟩
  cases hud
  have hwritten : ud.written (ud.written c.persisted) = ud.written c.persisted := ud.written_written _
  refine ⟨hunder.save, fun e he => (hunder.apply e he).imp_left fun he => hsub he, fun hfast e he =>
    hsub (hunder.fast hfast e he),
    hunder.within, ?_, ?_, fun m hm hreports => ?_, fun _ => ⟨hwritten, fun e he => mem_append_right _ he⟩, ?_⟩
  · change Follows (ud.written c.persisted).term (ud.written c.persisted).vote
      (ud.written (ud.written c.persisted)).term (ud.written (ud.written c.persisted)).vote
    rw [hwritten]
    exact .refl _ _
  · change Follows (ud.written (ud.written c.persisted)).term (ud.written (ud.written c.persisted)).vote _ _
    rw [hwritten]
    exact hunder.behind
  · change Kept m (ud.written (ud.written c.persisted)).term (ud.written (ud.written c.persisted)).vote
    rw [hwritten]
    exact hunder.reports m hm hreports
  · change Agree (ud.written c.peer.prevState) (ud.written c.persisted)
    unfold Update.written
    split_ifs
    · exact hprev
    · exact ⟨rfl, rfl⟩

theorem Steady.process (hround : c.round = some (.settled, ud)) (hstep : c.processRaftUpdate ud = some c') :
    Steady c' ∧ c'.round = c.round := by
  obtain ⟨logdb, hlogdb, rfl⟩ := map_eq_some_iff.mp hstep
  have hunder := h.round _ _ hround
  obtain ⟨hwritten, hsaved⟩ := hunder.saved rfl
  have horder : Consecutive (c.raft.log.inmem.savedTo + 1) ud.entriesToSave := by
    rw [hunder.save]
    exact h.log.cursor.entriesToSave_inOrder
  have hlog := h.log.appendLogDB horder hsaved logdb (toOption_eq_some.mp hlogdb)
  refine ⟨(h.setLogDB hlog).send fun m hm hreports => ?_, rfl⟩
  have hkept := hunder.reports m (mem_of_mem_filter hm) hreports
  rwa [hwritten] at hkept

theorem Steady.commit (hround : c.round = some (.sent, ud)) {p : Peer} (hcommit : c.peer.commit ud = .ok p) :
    Steady { c with peer := p, round := none } := by
  have hunder := h.round _ _ hround
  obtain ⟨hwritten, hsaved⟩ := hunder.saved rfl
  obtain ⟨log, hlog, hp⟩ := bind_eq_ok_iff.mp hcommit
  cases hp
  have htracked : Tracked c.saved log := by
    rw [hunder.save] at hsaved
    refine h.log.commitUpdate hsaved ?_ hunder.within log hlog
    rw [← hunder.save]
    simp only [Update.getUpdateCommit]
    cases hlast : ud.entriesToSave.getLast? with
    | none => exact .inl ⟨List.getLast?_eq_none_iff.mp hlast, rfl⟩
    | some last => exact .inr ⟨last, rfl, rfl, rfl⟩
  exact ⟨htracked, h.ahead, by simp [Host.raft], h.handed, h.left, fun _ => hunder.prev, fun stage ud hud =>
    nomatch hud⟩

theorem Steady.next (hround : c.round = some (stage, ud)) (hstep : roundNext c ud stage = some c') : Steady c' := by
  have hunder := h.round stage ud hround
  cases stage with
  | taken =>
    obtain ⟨c1, hc1, rfl⟩ := map_eq_some_iff.mp hstep
    obtain ⟨hsteady, hround1⟩ := h.hand hunder.fast hc1
    exact hsteady.goOn (hround1.trans hround) rfl
  | pushed =>
    cases hstep
    have hsend : Steady (c.send (ud.messages.filter isFreeOrderMessage)) := h.send fun m hm hreports => by
      have hfree := of_mem_filter hm
      rcases hreports with htype | htype <;> simp [isFreeOrderMessage, htype] at hfree
    exact hsend.goOn hround rfl
  | posted =>
    cases hstep
    exact h.save hround
  | saved =>
    obtain ⟨c1, hc1, rfl⟩ := map_eq_some_iff.mp hstep
    obtain ⟨hsteady, hround1⟩ := h.hand (fun _ e he => (hunder.apply e he).elim id ((hunder.saved rfl).2 e)) hc1
    exact hsteady.goOn (hround1.trans hround) rfl
  | settled =>
    obtain ⟨c1, hc1, rfl⟩ := map_eq_some_iff.mp hstep
    obtain ⟨hsteady, hround1⟩ := h.process hround hc1
    exact hsteady.goOn (hround1.trans hround) rfl
  | sent =>
    obtain ⟨p, hp, rfl⟩ := map_eq_some_iff.mp hstep
    exact h.commit hround (toOption_eq_some.mp hp)

theorem Steady.step {e : RoundEvent} (hstep : roundStep e c = some c') : Steady c' := by
  refine (?_ : Program.Leads (roundStep e c) Steady) c' hstep
  cases e with
  | handle m =>
    exact .ite (fun hm _ hstep => h.handle_idle (isNone_iff_eq_none.mp hm.1) hm.2 hstep) fun _ => .none
  | member m => exact .ite (fun hm _ hstep => (h.member hm hstep).1) fun _ => .none
  | applied index => exact .some (h.light (.same rfl))
  | compact index => exact .map fun logdb hlogdb => h.setLogDB (h.log.compact index logdb (toOption_eq_some.mp hlogdb))
  | update moreToApply lastApplied =>
    refine .ite (fun hidle => .map fun ud hud => ?_) fun _ => .none
    exact h.update (isNone_iff_eq_none.mp hidle) (toOption_eq_some.mp hud)
  | next => exact .bind fun round hround _ hnext => h.next hround hnext

end

/-! ### The start -/

/-- The log store holds consecutive entries, and only a new shard is bootstrapped. -/
structure Startable (logdb : LogDB) (boot : Option (List Entry)) : Prop where
  stored : Consecutive logdb.firstIndex logdb.entries
  fresh : ∀ ents ∈ boot, logdb.markerIndex = 0 ∧ logdb.state = emptyState ∧ Consecutive 1 ents

theorem loadCommit_held (log : EntryLog) (st : State) : Yields (loadCommit log st) (Held log) := by
  unfold loadCommit
  refine .ite (fun _ => .ok (.refl _)) fun _ => .ite (fun _ => .error _) fun hbounds => .ok ⟨rfl, ?_⟩
  exact not_lt.mp fun h => hbounds (.inl h)

theorem newRaft_voice (cfg : Config) (mem : Membership) (logdb : LogDB) (draws : ℕ) :
    Yields (newRaft cfg mem logdb draws) fun r => ∃ log, Held (newEntryLog logdb) log ∧
    r.voice = (logdb.state.term, logdb.state.vote, [], log) := by
  unfold newRaft
  refine (loadCommit_held _ _).bind fun log hlog => ?_
  have hreset (r : Node) (hr : r.voice = (logdb.state.term, logdb.state.vote, [], log)) (resetTimeout : Bool) :
      ((r.reset r.term resetTimeout).setLeaderID 0).voice = (logdb.state.term, logdb.state.vote, [], log) := by
    refine (Node.voice_reset r r.term resetTimeout).trans ?_
    rw [if_pos rfl]
    exact hr
  refine .ite (fun _ => ?_) fun _ => .ite (fun _ => ?_) fun _ => ?_
  · exact .ite (fun _ => .error _) fun _ =>
      .ok ⟨log, hlog, hreset (Node.unstarted cfg mem log logdb.state draws) rfl true⟩
  · exact .ite (fun _ => .error _) fun _ =>
      .ok ⟨log, hlog, hreset (Node.unstarted cfg mem log logdb.state draws) rfl true⟩
  · exact .ite (fun _ => .error _) fun _ => .ok ⟨log, hlog, hreset { Node.unstarted cfg mem log logdb.state draws with
      state := .follower } rfl true⟩

variable {cfg : Config} {mem : Membership} {logdb : LogDB} {draws : ℕ} {boot : Option (List Entry)}

theorem bootstrap_yields {ents : List Entry} (hents : Consecutive 1 ents) (hterm : r.term = 0)
    (hprocessed : r.log.processed = 0)
    (h : Tracked saved r.log) : Yields (Peer.bootstrap r ents) fun r' => Tracked saved r'.log ∧ Node.Speaks r r' := by
  unfold Peer.bootstrap
  refine (Node.light_becomeFollower (hterm ▸ Nat.zero_le 1) 0).bind fun r1 h1 => ?_
  have hprocessed1 : r1.log.processed = 0 := h1.held.processed.trans hprocessed
  refine ((h.held h1.held).append hents).bind fun log hlog => .ok ⟨?_, ?_⟩
  · obtain ⟨htracked, hsame, -⟩ := hlog
    exact ⟨htracked.cursor, htracked.stored, htracked.durable, htracked.processed,
      (hsame.trans hprocessed1).le.trans (Nat.zero_le _), htracked.snapshot⟩
  · exact ⟨h1.speaks.follows, h1.speaks.reports, h1.speaks.calm⟩

theorem launch_steady (hstart : Startable logdb boot) (pushedIndex : ℕ) :
    Yields (Peer.launch cfg mem logdb draws boot) fun p => Steady (.start p logdb pushedIndex) := by
  unfold Peer.launch
  refine (newRaft_voice cfg mem logdb draws).bind fun r hr => ?_
  obtain ⟨log, hheld, hvoice⟩ := hr
  obtain ⟨hterm, hvote, hmsgs, rfl⟩ : r.term = logdb.state.term ∧ r.vote = logdb.state.vote ∧ r.msgs = [] ∧
    r.log = log := by
    simpa [Node.voice] using hvoice
  have htracked : Tracked logdb.entries r.log := (tracked_newEntryLog hstart.stored).held hheld
  have hsteady (r' : Node) (hlog : Tracked logdb.entries r'.log) (hspeaks : Node.Speaks r r') :
      Steady (.start ⟨r', r.raftState⟩ logdb pushedIndex) := by
    refine ⟨hlog, ?_, fun m hm hreports => ?_, by simp [Host.start], by simp [Host.start], fun _ => ⟨hterm, hvote⟩,
      by simp [Host.start]⟩
    · have hfollows := hspeaks.follows
      rw [hterm, hvote] at hfollows
      exact hfollows
    · refine (hspeaks.reports m hm hreports).resolve_left fun hm => ?_
      rw [hmsgs] at hm
      cases hm
  cases boot with
  | none => exact .ok (hsteady r htracked (Node.Light.refl r).speaks)
  | some ents =>
    obtain ⟨hmarker, hempty, hents⟩ := hstart.fresh ents rfl
    have hzero : r.term = 0 := by rw [hterm, hempty]; rfl
    have hprocessed : r.log.processed = 0 := hheld.processed.trans hmarker
    exact (bootstrap_yields hents hzero hprocessed htracked).bind fun r' h => .ok (hsteady r' h.1 h.2)

/-! ### Promises are kept -/

theorem left_applySnapshotAndUpdate (h : c.applySnapshotAndUpdate ud fastApply = some c') :
    c'.left = c.left ∧ c'.raft.msgs = c.raft.msgs := by
  unfold Host.applySnapshotAndUpdate at h
  split_ifs at h
  · obtain ⟨ents, -, rfl⟩ := map_eq_some_iff.mp h
    unfold Host.processSnapshot
    split_ifs
    · exact ⟨rfl, rfl⟩
    · exact ⟨rfl, rfl⟩
  · cases h
    exact ⟨rfl, rfl⟩

theorem roundStep_messages (hstep : roundStep event c = some c') :
    (∀ m ∈ c'.left, m ∈ c.left ∨ isFreeOrderMessage m = true ∨ ∃ ud, c.round = some (.settled, ud)) ∧
    (c'.raft.msgs ⊆ c.raft.msgs ∨ ∃ n, c.handle n = some c' ∧
    (WellFormed n ∨ n.type ∈ [MessageType.configChangeEvent, .snapshotReceived])) := by
  have hsame (hleft : c'.left = c.left) : ∀ m ∈ c'.left, m ∈ c.left ∨ isFreeOrderMessage m = true ∨
      ∃ ud, c.round = some (.settled, ud) := fun m hm => .inl (hleft ▸ hm)
  have hleft (n : Message) (hn : c.handle n = some c') : c'.left = c.left := by
    obtain ⟨r, -, rfl⟩ := map_eq_some_iff.mp hn
    rfl
  cases event with
  | handle n =>
    rw [roundStep, ite_none_right_eq_some] at hstep
    exact ⟨hsame (hleft n hstep.2), .inr ⟨n, hstep.2, .inl hstep.1.2⟩⟩
  | member n =>
    rw [roundStep, ite_none_right_eq_some] at hstep
    exact ⟨hsame (hleft n hstep.2), .inr ⟨n, hstep.2, .inr hstep.1⟩⟩
  | applied index =>
    cases hstep
    exact ⟨hsame rfl, .inl fun _ => id⟩
  | compact index =>
    obtain ⟨logdb, -, rfl⟩ := map_eq_some_iff.mp hstep
    exact ⟨hsame rfl, .inl fun _ => id⟩
  | update moreToApply lastApplied =>
    rw [roundStep, ite_none_right_eq_some] at hstep
    obtain ⟨ud, -, rfl⟩ := map_eq_some_iff.mp hstep.2
    exact ⟨hsame rfl, .inl fun _ => id⟩
  | next =>
    obtain ⟨⟨stage, ud⟩, hround, hnext⟩ := bind_eq_some_iff.mp hstep
    cases stage with
    | taken | saved =>
      obtain ⟨c1, hc1, rfl⟩ := map_eq_some_iff.mp hnext
      obtain ⟨hleft1, hmsgs1⟩ := left_applySnapshotAndUpdate hc1
      exact ⟨hsame hleft1, .inl fun m hm => hmsgs1 ▸ hm⟩
    | pushed =>
      cases hnext
      exact ⟨fun m hm => (mem_append.mp hm).imp_right fun hm => .inl (of_mem_filter hm), .inl fun _ => id⟩
    | posted =>
      cases hnext
      exact ⟨hsame rfl, .inl fun _ => id⟩
    | settled =>
      obtain ⟨c1, hc1, rfl⟩ := map_eq_some_iff.mp hnext
      obtain ⟨logdb, -, rfl⟩ := map_eq_some_iff.mp hc1
      exact ⟨fun m hm => .inr (.inr ⟨ud, hround⟩), .inl fun _ => id⟩
    | sent =>
      obtain ⟨p, hp, rfl⟩ := map_eq_some_iff.mp hnext
      obtain ⟨log, -, hp⟩ := bind_eq_ok_iff.mp (toOption_eq_some.mp hp)
      cases hp
      exact ⟨hsame rfl, .inl fun m hm => nomatch hm⟩

theorem Steady.covered (h : Steady c) (hround : c.round = some (stage, ud)) (hstage : stage.isSaved = true) :
    ∀ e ∈ c.raft.log.logdb.entries ++ c.raft.log.inmem.entries, e ∈ c.saved := by
  have hunder := h.round stage ud hround
  refine forall_mem_append.mpr ⟨h.log.durable, fun e he => ?_⟩
  refine (h.log.cursor.saved_or he).elim id fun hsave => (hunder.saved hstage).2 e ?_
  rw [hunder.save]
  exact hsave

theorem Steady.leaves (h : Steady c) (hstep : roundStep event c = some c') (hm : m ∈ c'.left) (hreports : Reports m) :
    m ∈ c.left ∨ ∀ e ∈ c.raft.log.logdb.entries ++ c.raft.log.inmem.entries, e ∈ c.saved := by
  rcases (roundStep_messages hstep).1 m hm with hm | hfree | ⟨ud, hround⟩
  · exact .inl hm
  · rcases hreports with htype | htype <;> simp [isFreeOrderMessage, htype] at hfree
  · exact .inr (h.covered hround rfl)

theorem Steady.acks (h : Steady c) (hstep : roundStep event c = some c') (hm : m ∈ c'.raft.msgs)
    (haccepts : Accepts m) : m ∈ c.raft.msgs ∨ Reached c'.raft.log m.logIndex := by
  rcases (roundStep_messages hstep).2 with hsub | ⟨n, hn, hwellFormed | htype⟩
  · exact .inl (hsub hm)
  · obtain ⟨r, hr, rfl⟩ := map_eq_some_iff.mp hn
    have houtcome : Node.Outcome c.saved n c.raft r := Node.outcome_handle hwellFormed c.raft r (toOption_eq_some.mp hr)
    exact houtcome.ends.acks h.log m hm haccepts
  · exact .inl ((h.member htype hn).2.calm m hm haccepts)

end

/-- Along every run: what the state machine was given was saved before; the responses that left
hold for the persisted term and vote; one leaves when every entry of the log was saved; and an
index is acknowledged when the log reaches it. -/
theorem persisted_before_promised (cfg : Config) (mem : Membership) (logdb : LogDB) (draws : ℕ)
    (boot : Option (List Entry))
    (hstart : Startable logdb boot) (p : Peer) (hlaunch : Peer.launch cfg mem logdb draws boot = .ok p)
    (pushedIndex : ℕ)
    (es : List RoundEvent) (c : Host) (hrun : runMachine roundStep es (.start p logdb pushedIndex) = some c) :
    (∀ e ∈ c.handed, e ∈ c.saved) ∧ (∀ m ∈ c.left, Reports m → Kept m c.persisted.term c.persisted.vote) ∧
      ∀ event c', roundStep event c = some c' → (∀ m ∈ c'.left, Reports m → m ∈ c.left ∨
          ∀ e ∈ c.raft.log.logdb.entries ++ c.raft.log.inmem.entries, e ∈ c.saved) ∧
        ∀ m ∈ c'.raft.msgs, Accepts m → m ∈ c.raft.msgs ∨ Reached c'.raft.log m.logIndex := by
  have hsteady : Steady c :=
    runMachine_keeps (fun _ _ _ h hstep => Steady.step h hstep) (launch_steady hstart pushedIndex p hlaunch) hrun
  refine ⟨hsteady.handed, hsteady.left, fun event c' hstep => ⟨fun m hm hreports => ?_, fun m hm haccepts => ?_⟩⟩
  · exact hsteady.leaves hstep hm hreports
  · exact hsteady.acks hstep hm haccepts

/-! ### A replica behind two leaders -/

instance (m : Message) : Decidable (Accepts m) := inferInstanceAs (Decidable (_ ∧ _))

def replicates (leader term : ℕ) (entries : List Entry) (commit : ℕ) : RoundEvent :=
  .handle {
    type := .replicate
    target := 1
    sender := leader
    term := term
    logIndex := 3
    logTerm := 1
    entries := entries
    commit := commit }

/-- A round up to the point where its messages have left. -/
def wholeRound : List RoundEvent := .update true 3 :: List.replicate 5 .next

def firstReplica (es : List RoundEvent) : Option Host :=
  (Peer.launch (voterConfig 1) threeVoters voterLog 0 none).toOption.bind fun p =>
    runMachine roundStep es (.start p voterLog 3)

/-- In one round an index is acknowledged to a leader and a later leader cuts the log below
it. The acknowledgement leaves, and no save ever held an entry with that index. -/
def overtaken : List RoundEvent :=
  replicates 2 2 [⟨4, 2, .application, []⟩, ⟨5, 2, .application, []⟩] 3 ::
    replicates 3 3 [⟨4, 3, .application, []⟩] 3 :: wholeRound

theorem overtaken_ack_unsaved : (firstReplica overtaken).map (fun c =>
    (c.left.filterMap fun m => if Accepts m then some (m.term, m.logIndex) else none, c.saved.map (·.index))) =
      some ([(2, 5), (3, 4)], [4]) := by
  decide +kernel

/-- An entry that is replicated together with its commit index is saved, acknowledged and
applied in one round. -/
theorem persisted_before_promised_oneEntry : ∃ c,
    firstReplica (replicates 2 2 [⟨4, 2, .application, []⟩] 4 :: wholeRound) = some c ∧
      c.handed = [⟨4, 2, .application, []⟩] ∧ ∀ e ∈ c.handed, e ∈ c.saved := by
  have hhanded : (firstReplica (replicates 2 2 [⟨4, 2, .application, []⟩] 4 :: wholeRound)).map (·.handed) =
      some [⟨4, 2, .application, []⟩] := by decide +kernel
  obtain ⟨c, hc, hhanded⟩ := map_eq_some_iff.mp hhanded
  obtain ⟨p, hp, hrun⟩ := bind_eq_some_iff.mp hc
  have hstart : Startable voterLog none := ⟨trivial, fun _ h => nomatch h⟩
  exact ⟨c, hc, hhanded, (persisted_before_promised _ _ _ _ _ hstart p (toOption_eq_some.mp hp) _ _ c hrun).1⟩

end Armada.Raft
