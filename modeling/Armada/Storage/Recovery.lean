import Armada.Storage.Sequence

/-! Table recovery. The coordinator drives a record in the metadata store through its phases: a
snapshot is loaded into a new shard, the other members join it as learners and are promoted, and
the shard becomes the serving one. The record is written before every effect it authorises; a
coordinator may stop at any point and start again from a read of it, which may be stale. -/

namespace Armada.Storage

open Ordered Program Kv

inductive RecoveryPhase where
  | downloading
  | loading
  | seeding
  | promoting
  | swapping
  deriving DecidableEq, Inhabited

structure RecoveryRecord where
  table : String
  phase : RecoveryPhase
  recoveryID : UInt64
  coordinator : UInt64
  members : List UInt64
  learners : List UInt64
  promoted : List UInt64
  seedIndex : UInt64
  /-- The artifact is an incremental snapshot, which goes into the live shard. -/
  incremental : Bool
  deriving DecidableEq, Inhabited

structure Table where
  name : String
  clusterID : UInt64
  recoverID : UInt64
  recovered : Bool
  deriving DecidableEq

/-- The node and the members it is configured with, in ascending order. -/
structure ManagerConfig where
  nodeID : UInt64
  members : List UInt64
  nodup : members.Nodup

/-- How the values of the two kinds of keys are written. -/
structure ManagerCodec (V : Type) where
  record : Codec V RecoveryRecord
  table : Codec V Table

def recoveryKey (table : String) : String := "/recovery/" ++ table

theorem recoveryKey_ne_storedTableName (table name : String) : recoveryKey table ≠ storedTableName name := by
  intro h
  have hlist := congrArg String.toList h
  simp [recoveryKey, storedTableName, keyPrefix] at hlist

section
variable {V : Type} (codec : ManagerCodec V)

def getRecovery (m : MapStore V) (name : String) : Option (RecoveryRecord × UInt64) := do
  let pair ← m[recoveryKey name]?
  let record ← codec.record.decode pair.value
  return (record, pair.ver)

/-- `getTableVersion` where a table that is not there is no error. -/
def getTableVersion (m : MapStore V) (name : String) : Option (Table × UInt64) :=
  match m[storedTableName name]? with
  | none => some (⟨"", 0, 0, false⟩, 0)
  | some pair => (codec.table.decode pair.value).map fun tbl => (tbl, pair.ver)

def putRecovery (record : RecoveryRecord) (ver : UInt64) : Proposal V :=
  .set (recoveryKey record.table) (codec.record.encode record) ver

def setTableVersion (tbl : Table) (ver : UInt64) : Proposal V :=
  .set (storedTableName tbl.name) (codec.table.encode tbl) ver

def deleteRecovery (record : RecoveryRecord) (ver : UInt64) : Proposal V := .delete (recoveryKey record.table) ver

/-- `abandonRecoveryLocked` up to its delete. -/
def abandonRecoveryLocked (m : MapStore V) (target : RecoveryRecord) (expectedVer : UInt64) : Option (Proposal V) :=
  match getRecovery codec m target.table with
  | none => none
  | some (record, ver) =>
    if ver ≠ expectedVer ∨ record.recoveryID ≠ target.recoveryID ∨ record.coordinator ≠ target.coordinator then none
    else some (deleteRecovery record ver)

end

/-- The reports of a node that `progressOf` finds: the stored one and the gossiped one, where
there is one that can be read. -/
structure Report where
  stored : Option UInt64
  gossiped : Option UInt64

def progressOf (report : Report) : UInt64 := max (report.stored.getD 0) (report.gossiped.getD 0)

def caughtUpLearners (reports : UInt64 → Report) (record : RecoveryRecord) : List UInt64 :=
  record.learners.filter fun id => record.seedIndex ≤ progressOf (reports id)

def recoveryLearners (record : RecoveryRecord) : List UInt64 :=
  record.members.filter fun id => id ≠ record.coordinator

def recoveryQuorum (record : RecoveryRecord) : ℕ :=
  if record.members.length = 0 then 1 else record.members.length / 2 + 1

/-! ### The coordinator, step by step -/

structure Membership where
  nodes : List UInt64
  nonVotings : List UInt64
  removed : List UInt64

/-- Where the coordinator is in the phase machine. -/
inductive Stage where
  /-- `completeDownloadLocked`, with the phase set. -/
  | pin
  /-- `driveRecoveryLocked`, with the record read. -/
  | drive
  /-- `recoverySeed`, with the members set. -/
  | ensure
  /-- `recoverySeed`, in its loop over the members. -/
  | addLearner (todo learners : List UInt64) (changed : Bool)
  /-- `recoverySeed`, behind its loop. -/
  | decide
  /-- `recoveryPromote`, in its loop over the learners that have caught up. -/
  | promote (todo : List UInt64)
  /-- `recoverySwap`, with the table set. -/
  | retire
  /-- The function of the phase has returned. -/
  | finish
  deriving DecidableEq

inductive Pc where
  | idle
  | holding (stage : Stage) (record : RecoveryRecord) (ver : UInt64)
  /-- Waits for a proposal, of the record if `journal`, to go on at a stage. -/
  | waiting (ticket : ℕ) (stage : Stage) (record : RecoveryRecord) (ver : UInt64) (journal : Bool)
  deriving DecidableEq

/-- The coordinator, the members of the recovery shards, and the progress of the learners of
each as it was last read. -/
structure Coordinator where
  pc : Pc
  shards : UInt64 → Membership
  seen : UInt64 → UInt64 → UInt64

namespace Coordinator

def new : Coordinator := ⟨.idle, fun _ => ⟨[], [], []⟩, fun _ _ => 0⟩

/-- The function of a phase has been entered. -/
def driven (phase : RecoveryPhase) (l : Coordinator) : Option (RecoveryRecord × UInt64) :=
  match l.pc with
  | .holding .drive record ver => if record.phase = phase then some (record, ver) else none
  | _ => none

/-- The learners' reports are read for a record. -/
def see (record : RecoveryRecord) (reports : UInt64 → Report) (l : Coordinator) : Coordinator :=
  { l with seen := Function.update l.seen record.recoveryID fun id =>
      if id ∈ record.learners then progressOf (reports id) else l.seen record.recoveryID id }

/-- `startRecoveryShard` of a new shard. -/
def startShard (recoveryID nodeID : UInt64) (l : Coordinator) : Coordinator :=
  { l with shards := Function.update l.shards recoveryID ⟨[nodeID], [], []⟩ }

/-- `SyncRequestAddNonVoting`, when it takes effect. -/
def addNonVoting (recoveryID id : UInt64) (l : Coordinator) : Coordinator :=
  let mem := l.shards recoveryID
  let mem' := { mem with nonVotings := mem.nonVotings ++ [id] }
  { l with shards := Function.update l.shards recoveryID mem' }

/-- `SyncRequestAddReplica`, when it takes effect. -/
def addReplica (recoveryID id : UInt64) (l : Coordinator) : Coordinator :=
  let mem := l.shards recoveryID
  let mem' := { mem with nodes := mem.nodes ++ [id], nonVotings := mem.nonVotings.filter (· ≠ id) }
  { l with shards := Function.update l.shards recoveryID mem' }

section
variable {V : Type} (codec : ManagerCodec V) (cfg : ManagerConfig) (name : String)

/-- The record is written, to go on at a stage. -/
def put (ticket : ℕ) (stage : Stage) (record : RecoveryRecord) (ver : UInt64) (l : Coordinator) :
    Coordinator × Option (Proposal V) :=
  ({ l with pc := .waiting ticket stage record ver true }, some (putRecovery codec record ver))

/-- Something else than the record is proposed. -/
def propose (ticket : ℕ) (p : Proposal V) (stage : Stage) (record : RecoveryRecord) (ver : UInt64)
    (l : Coordinator) : Coordinator × Option (Proposal V) :=
  ({ l with pc := .waiting ticket stage record ver false }, some p)

def goto (stage : Stage) (record : RecoveryRecord) (ver : UInt64) (l : Coordinator) :
    Coordinator × Option (Proposal V) :=
  ({ l with pc := .holding stage record ver }, none)

/-- The function of the phase returns, or fails, or the process ends. -/
def stop (l : Coordinator) : Coordinator × Option (Proposal V) := ({ l with pc := .idle }, none)

/-- `BeginRecovery` of a table without a record. -/
def begin (ticket : ℕ) (incremental : Bool) (m : MapStore V) (l : Coordinator) :
    Option (Coordinator × Option (Proposal V)) :=
  if l.pc = .idle ∧ (m[recoveryKey name]?).isNone then
    some (l.put codec ticket .finish ⟨name, .downloading, 0, cfg.nodeID, cfg.members, [], [], 0, incremental⟩ 0)
  else none

/-- `CompleteDownload`, with the identifier that it allocates for a full snapshot. -/
def completeDownload (ticket : ℕ) (recoveryID : UInt64) (m : MapStore V) (l : Coordinator) :
    Option (Coordinator × Option (Proposal V)) := do
  let (record, ver) ← getRecovery codec m name
  if l.pc ≠ .idle ∨ record.coordinator ≠ cfg.nodeID ∨ record.phase ≠ .downloading then none
  else if record.incremental then return l.put codec ticket .pin { record with phase := .loading } ver
  else if (l.shards recoveryID).nodes ≠ [] then none
  else
    let record := { record with phase := .loading, recoveryID := recoveryID }
    return (l.startShard recoveryID cfg.nodeID).put codec ticket .pin record ver

/-- The head of the loop of `driveRecoveryLocked`. -/
def read (m : MapStore V) (l : Coordinator) : Option (Coordinator × Option (Proposal V)) := do
  let (record, ver) ← getRecovery codec m name
  if l.pc ≠ .idle ∨ record.coordinator ≠ cfg.nodeID then none else return l.goto .drive record ver

/-- `pinRecoverID`. -/
def pin (ticket : ℕ) (stage : Stage) (record : RecoveryRecord) (ver : UInt64) (m : MapStore V) (l : Coordinator) :
    Coordinator × Option (Proposal V) :=
  match getTableVersion codec m record.table with
  | none => l.stop
  | some (tbl, tblVer) =>
    if tbl.recoverID = record.recoveryID then l.goto stage record ver
    else l.propose ticket
      (setTableVersion codec { tbl with name := record.table, recoverID := record.recoveryID } tblVer) stage record ver

/-- `recoveryLoad` behind the replay of the snapshot. -/
def load (ticket : ℕ) (index : UInt64) (record : RecoveryRecord) (ver : UInt64) (m : MapStore V)
    (l : Coordinator) : Coordinator × Option (Proposal V) :=
  if record.recoveryID = 0 then
    -- An incremental snapshot goes into the live shard, which has to be there.
    if (getTableVersion codec m record.table).all (·.1.clusterID = 0) then l.stop
    else l.propose ticket (deleteRecovery record ver) .finish record ver
  else l.put codec ticket .finish { record with seedIndex := index, phase := .seeding } ver

/-- `recoveryLoad` when its source is gone. -/
def abandon (ticket : ℕ) (record : RecoveryRecord) (ver : UInt64) (m : MapStore V) (l : Coordinator) :
    Coordinator × Option (Proposal V) :=
  match abandonRecoveryLocked codec m record ver with
  | none => l.stop
  | some p => l.propose ticket p .finish record ver

/-- `recoverySeed` up to the members. -/
def seed (ticket : ℕ) (record : RecoveryRecord) (ver : UInt64) (l : Coordinator) :
    Coordinator × Option (Proposal V) :=
  if record.members.length = 0 then l.put codec ticket .ensure { record with members := cfg.members } ver
  else l.goto .ensure record ver

/-- One round of the loop of `recoverySeed`, and what follows it. -/
def addLearner (ticket : ℕ) (answer : Answer) (learners : List UInt64) (changed : Bool) (record : RecoveryRecord)
    (ver : UInt64) (l : Coordinator) : List UInt64 → Coordinator × Option (Proposal V)
  | [] =>
    if changed ∨ record.learners ≠ learners then
      l.put codec ticket .decide { record with learners := learners } ver
    else l.goto .decide record ver
  | id :: todo =>
    let mem := l.shards record.recoveryID
    if id ∈ mem.removed then l.goto (.addLearner todo learners changed) record ver
    else if id ∈ mem.nodes ∨ id ∈ mem.nonVotings then l.goto (.addLearner todo (learners ++ [id]) changed) record ver
    else match answer with
      | .failed => l.goto (.addLearner todo learners changed) record ver
      | .lost => (l.addNonVoting record.recoveryID id).goto (.addLearner todo learners changed) record ver
      | .ok => (l.addNonVoting record.recoveryID id).goto (.addLearner todo (learners ++ [id]) true) record ver

/-- `recoverySeed` behind its loop. -/
def decide (ticket : ℕ) (reports : UInt64 → Report) (timedOut : Bool) (record : RecoveryRecord) (ver : UInt64)
    (l : Coordinator) : Coordinator × Option (Proposal V) :=
  let l := l.see record reports
  let caughtUp := caughtUpLearners reports record
  if caughtUp.length = (recoveryLearners record).length then
    l.put codec ticket .finish { record with phase := .promoting } ver
  else if !timedOut then l.stop
  else if caughtUp.length + 1 < recoveryQuorum record then l.stop
  else l.put codec ticket .finish { record with phase := .promoting } ver

/-- One round of the loop of `recoveryPromote`, and what follows it. -/
def promote (ticket : ℕ) (answer : Answer) (record : RecoveryRecord) (ver : UInt64) (l : Coordinator) :
    List UInt64 → Coordinator × Option (Proposal V)
  | [] => l.put codec ticket .finish { record with phase := .swapping } ver
  | id :: todo =>
    let promoted := { record with promoted := record.promoted ++ [id] }
    if id ∈ record.promoted then l.goto (.promote todo) record ver
    else if id ∈ (l.shards record.recoveryID).nodes then l.put codec ticket (.promote todo) promoted ver
    else match answer with
      | .failed => l.stop
      | .lost => (l.addReplica record.recoveryID id).stop
      | .ok => (l.addReplica record.recoveryID id).put codec ticket (.promote todo) promoted ver

/-- `recoverySwap` up to the table. -/
def swap (ticket : ℕ) (record : RecoveryRecord) (ver : UInt64) (m : MapStore V) (l : Coordinator) :
    Coordinator × Option (Proposal V) :=
  match getTableVersion codec m record.table with
  | none => l.stop
  | some (tbl, tblVer) =>
    if tbl.clusterID ≠ record.recoveryID then
      l.propose ticket (setTableVersion codec ⟨record.table, record.recoveryID, 0, true⟩ tblVer) .retire record ver
    else l.goto .retire record ver

end

end Coordinator

inductive CoordinatorStep where
  | begin (incremental : Bool)
  | completeDownload (recoveryID : UInt64)
  | read
  | pin
  /-- The artifact is replayed, up to an index of the recovery shard. -/
  | load (index : UInt64)
  /-- The staged artifact is gone, and can be fetched again. -/
  | redownload
  /-- The artifact is gone for good. -/
  | abandon
  | seed
  | ensured
  | addLearner (answer : Answer)
  /-- The membership cannot be read again after a learner is added. -/
  | addLearnerBreak
  | decide (reports : UInt64 → Report) (timedOut : Bool)
  | promote (reports : UInt64 → Report)
  | promoteNext (answer : Answer)
  | swap
  | retire
  | stop

section
variable {V : Type} (codec : ManagerCodec V) (cfg : ManagerConfig) (name : String)

def coordinatorAct (a : CoordinatorStep) (ticket : ℕ) (m : MapStore V) (l : Coordinator) :
    Option (Coordinator × Option (Proposal V)) :=
  match a with
  | .stop => some l.stop
  | .begin incremental => l.begin codec cfg name ticket incremental m
  | .completeDownload recoveryID => l.completeDownload codec cfg name ticket recoveryID m
  | .read => l.read codec cfg name m
  | .pin =>
    match l.pc with
    | .holding .pin record ver => some (l.pin codec ticket .finish record ver m)
    | .holding .drive record ver =>
      if (record.phase = .loading ∧ record.recoveryID ≠ 0) ∨ record.phase = .promoting then
        some (l.pin codec ticket .drive record ver m)
      else none
    | .holding .ensure record ver => some (l.pin codec ticket .ensure record ver m)
    | _ => none
  | .load index => (l.driven .loading).map fun (record, ver) => l.load codec ticket index record ver m
  | .redownload =>
    (l.driven .loading).map fun (record, ver) => l.put codec ticket .finish { record with phase := .downloading } ver
  | .abandon => (l.driven .loading).map fun (record, ver) => l.abandon codec ticket record ver m
  | .seed => (l.driven .seeding).map fun (record, ver) => l.seed codec cfg ticket record ver
  | .ensured =>
    match l.pc with
    | .holding .ensure record ver => some (l.goto (.addLearner (recoveryLearners record) [] false) record ver)
    | _ => none
  | .addLearner answer =>
    match l.pc with
    | .holding (.addLearner todo learners changed) record ver =>
      some (l.addLearner codec ticket answer learners changed record ver todo)
    | _ => none
  | .addLearnerBreak =>
    match l.pc with
    | .holding (.addLearner _ learners true) record ver => some (l.goto (.addLearner [] learners true) record ver)
    | _ => none
  | .decide reports timedOut =>
    match l.pc with
    | .holding .decide record ver => some (l.decide codec ticket reports timedOut record ver)
    | _ => none
  | .promote reports => (l.driven .promoting).map fun (record, ver) =>
    (l.see record reports).goto (.promote (caughtUpLearners reports record)) record ver
  | .promoteNext answer =>
    match l.pc with
    | .holding (.promote todo) record ver => some (l.promote codec ticket answer record ver todo)
    | _ => none
  | .swap => (l.driven .swapping).map fun (record, ver) => l.swap codec ticket record ver m
  | .retire =>
    match l.pc with
    | .holding .retire record ver => some (l.propose ticket (deleteRecovery record ver) .finish record ver)
    | _ => none

/-- What the coordinator makes of the result of a proposal. -/
def coordinatorAnswer (ticket : ℕ) (r : Result V) (l : Coordinator) : Coordinator :=
  match l.pc with
  | .waiting t stage record ver journal =>
    if t ≠ ticket then l
    else if r.value = .versionMismatch ∨ stage = .finish then { l with pc := .idle }
    else { l with pc := .holding stage record (if journal then r.data.ver else ver) }
  | _ => l

/-! ### The coordinator among the other nodes -/

inductive Party where
  | coordinator
  | other
  deriving DecidableEq

inductive PartyStep (V : Type) where
  | own (a : CoordinatorStep)
  | foreign (p : Proposal V)

/-- What other nodes propose: their records name themselves as the coordinator. -/
def isForeign : Proposal V → Bool
  | .set key value _ =>
    if key = recoveryKey name then
      (codec.record.decode value).all fun record => record.coordinator != cfg.nodeID
    else true
  | .delete _ _ => true

def recoveryProtocol : Protocol V Party (PartyStep V) Coordinator where
  act n a _ ticket m l :=
    match n, a with
    | .coordinator, .own a => coordinatorAct codec cfg name a ticket m l
    | .other, .foreign p => if isForeign codec cfg name p then some (l, some p) else none
    | _, _ => none
  answer n _ ticket r l :=
    match n with
    | .coordinator => coordinatorAnswer ticket r l
    | .other => l
  elapse _ l := l

end

end Armada.Storage
