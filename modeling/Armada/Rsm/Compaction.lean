import Armada.Program.Machine
import Armada.Rsm.OnDisk

/-! When a replica lets go of its log. Snapshots are saved and recovered on one worker, the
log is removed on another, and the data of the state machine is synced by both and by a third.
A crash keeps of the data what was synced. -/

namespace Armada.Rsm

open Program StateMachine Option

structure SSRequest where
  overrideCompaction : Bool
  compactionIndex : UInt64
  compactionOverhead : ℕ
  deriving DecidableEq

def defaultSSRequest : SSRequest := ⟨false, 0, 0⟩

/-- How far the worker for snapshots is. -/
inductive Work where
  /-- the process has opened the state machine -/
  | starting
  | idle
  /-- a snapshot of the replica's own, step by step -/
  | prepared (ss : Snapshot) (req : SSRequest)
  | synced (ss : Snapshot) (req : SSRequest)
  | committed (ss : Snapshot) (req : SSRequest)
  /-- the snapshot of the log reader, step by step -/
  | recovered (index : ℕ)
  | recoverSynced (index : ℕ)
  | shrunk (index : ℕ)
  deriving DecidableEq

structure Node where
  sm : StateMachine
  /-- the data that a crash leaves in any case -/
  durable : ℕ
  /-- the newest snapshot in the log store -/
  recorded : Option Snapshot
  /-- all later entries are in the log store -/
  logFrom : ℕ
  /-- a removal that waits for the step worker, none if 0 -/
  compactTo : ℕ
  ssIndex : ℕ
  /-- the snapshot that the log reader has -/
  reader : Option Snapshot
  /-- a snapshot that was saved and not yet pushed to the apply worker -/
  received : Option Snapshot
  work : Work

inductive NodeEvent where
  /-- entries of a task, one by one -/
  | entries (count : ℕ)
  /-- commands of a task, all at once -/
  | batch (count : ℕ)
  /-- the end of a task -/
  | settle
  | sync
  | prepare (req : SSRequest)
  | saveSync
  | commit
  | abort
  | create
  /-- `SaveRaftState` with a snapshot from another replica -/
  | receive (ss : Snapshot)
  /-- `ApplySnapshot` and `pushSnapshot` after it -/
  | push
  | recover
  | recoverSync
  | shrink
  | compact
  /-- the log reader knows entries up to `last` -/
  | removeLog (last : ℕ)
  /-- the data is found again up to some index -/
  | crash (durable : ℕ)
  | start

/-- The log store and the log reader keep the newer of two snapshots. -/
def newer (recorded : Option Snapshot) (ss : Snapshot) : Snapshot :=
  match recorded with
  | none => ss
  | some old => if old.index < ss.index then ss else old

/-- The file at `index` loses its data. -/
def Snapshot.shrinkAt (index : ℕ) (ss : Snapshot) :
    Snapshot := if ss.index = index then { ss with shrunk := true } else ss

namespace Node

def getCompactionIndex (overhead : ℕ) (req : SSRequest) (index : ℕ) : Option ℕ :=
  if req.overrideCompaction then
    if 0 < req.compactionIndex then
      if (req.compactionIndex + 1).toNat ≤ index then some req.compactionIndex.toNat else none
    else if req.compactionOverhead < index then some (index - req.compactionOverhead)
    else none
  else if overhead < index then some (index - overhead)
  else none

def compactLog (s : Node) (overhead : ℕ) (req : SSRequest) (index : ℕ) : Node :=
  match getCompactionIndex overhead req index with
  | some i => { s with compactTo := i }
  | none => s

/-- Whether a snapshot replaces the data. -/
def loads (sm : StateMachine) (ss : Snapshot) (init : Bool) : Bool :=
  sm.lastApplied < ss.index && !ss.dummy && !ss.shrunk && sm.recoverRequired ss init

/-- Data that was loaded and not synced may be lost. -/
def recoverFrom (s : Node) (ss : Snapshot) (init : Bool) : Option Node :=
  (s.sm.recover ss init).map fun sm => { s with
    sm := sm
    durable := if loads s.sm ss init then 0 else s.durable
    work := if ss.index ≤ s.sm.lastApplied then .idle else .recovered ss.index }

def step (log : Log) (overhead : ℕ) : NodeEvent → Node → Option Node
  | .entries count, s =>
    if s.work = .starting then none
    else (s.sm.handleEntries (log.page (s.sm.index + 1) count)).map fun sm => { s with sm := sm }
  | .batch count, s =>
    if s.work = .starting ∨ !(log.page (s.sm.index + 1) count).all (·.kind = .application) then none
    else (s.sm.handleBatch (log.page (s.sm.index + 1) count)).map fun sm => { s with sm := sm }
  | .settle, s =>
    if s.work = .starting then none
    else some { s with sm := { s.sm with lastApplied := s.sm.index, lastAppliedTerm := s.sm.term } }
  | .sync, s => if s.work = .starting then none else some { s with durable := s.sm.onDiskIndex }
  | .prepare req, s =>
    if s.work = .idle ∧ s.ssIndex < s.sm.lastApplied then some
      { s with work := .prepared s.sm.dummySnapshot req } else none
  | .saveSync, s =>
    match s.work with
    | .prepared ss req => some { s with durable := s.sm.onDiskIndex, work := .synced ss req }
    | _ => none
  | .commit, s =>
    match s.work with
    | .synced ss req => some { s with recorded := some (newer s.recorded ss), work := .committed ss req }
    | _ => none
  | .abort, s =>
    match s.work with
    | .prepared _ _ | .synced _ _ => some { s with work := .idle }
    | _ => none
  | .create, s =>
    match s.work with
    | .committed ss req =>
      -- the log reader may have a newer snapshot by now
      if s.reader.any (ss.index ≤ ·.index) then some { s with work := .idle }
      else some { s.compactLog overhead req ss.index with reader := some ss, ssIndex := ss.index, work := .idle }
    | _ => none
  | .receive ss, s =>
    if s.work = .starting ∨ ss.dummy ∨ ss.shrunk ∨ ss.imported then none
    else some { s with
      recorded := some (newer s.recorded ss)
      logFrom := max s.logFrom ss.index
      received := some ss }
  | .push, s =>
    if s.work = .starting then none else s.received.map fun ss =>
      { s with reader := some (newer s.reader ss), ssIndex := ss.index, received := none }
  | .recover, s =>
    if s.work = .idle ∧ s.sm.lastApplied = s.sm.index then s.reader.bind fun ss => s.recoverFrom ss false else none
  | .recoverSync, s =>
    match s.work with
    | .recovered index => some { s with durable := s.sm.onDiskIndex, work := .recoverSynced index }
    | _ => none
  | .shrink, s =>
    match s.work with
    | .recoverSynced index =>
      if s.recorded.any fun ss => index ≤ ss.index ∧ !ss.dummy then
        some { s with
          recorded := s.recorded.map (Snapshot.shrinkAt index)
          reader := s.reader.map (Snapshot.shrinkAt index)
          work := .shrunk index }
      else some { s with work := .shrunk index }
    | _ => none
  | .compact, s =>
    match s.work with
    | .shrunk index => some { s.compactLog overhead defaultSSRequest index with work := .idle }
    | _ => none
  | .removeLog last, s =>
    if 0 < s.compactTo ∧ s.compactTo ≤
      last then some { s with logFrom := max s.logFrom s.compactTo, compactTo := 0 } else none
  | .crash durable, s =>
    if s.durable ≤ durable ∧ durable ≤ s.sm.onDiskIndex then
      some { s with
        sm := openOnDisk durable
        durable := durable
        compactTo := 0
        ssIndex := 0
        reader := s.recorded
        received := none
        work := .starting }
    else none
  | .start, s =>
    if s.work = .starting then
      match s.reader with
      | none => some { s with work := .idle }
      | some ss => ({ s with ssIndex := ss.index } : Node).recoverFrom ss true
    else none

/-- A replica that starts for the first time. -/
def init : Node := ⟨openOnDisk 0, 0, none, 0, 0, 0, none, none, .starting⟩

/-! ### What the steps keep -/

/-- The index of the newest snapshot on record. -/
def top (s : Node) : ℕ := (s.recorded.map (·.index)).getD 0

end Node

/-- Data that is durable up to one index has every command up to another. -/
def DurableTo (log : Log) (durable index : ℕ) : Prop := ∀ i ≤ index, log.IsApplication i → i ≤ durable

theorem DurableTo.mono {log : Log} {d d' i : ℕ} (h : DurableTo log d i) (hd : d ≤ d') : DurableTo log d' i :=
  fun j hj happ => Nat.le_trans (h j hj happ) hd

namespace Node

section

variable {log : Log} {s s' : Node}

/-- A snapshot of a replica of the shard, not brought in by hand. -/
def Sound (log : Log) (ss : Snapshot) : Prop := Valid log ss ∧ ss.imported = false

/-- What the worker for snapshots relies on between its steps. -/
def WorkKept (log : Log) (sm : StateMachine) (durable top : ℕ) : Work → Prop
  | .starting => sm.lastApplied = sm.index
  | .idle => True
  | .prepared ss _ => Sound log ss ∧ ss.index ≤ sm.index
  | .synced ss _ => Sound log ss ∧ ss.index ≤ sm.index ∧ DurableTo log durable ss.index
  | .committed ss _ => Sound log ss ∧ ss.index ≤ top
  | .recovered index => index ≤ sm.index ∧ index ≤ top
  | .recoverSynced index => DurableTo log durable index ∧ index ≤ sm.index ∧ index ≤ top
  | .shrunk index => index ≤ top

variable {work : Work} {sm sm' : StateMachine}

theorem WorkKept.mono {durable durable' top top' : ℕ}
    (h : WorkKept log sm durable top work) (hrunning : work ≠ .starting) (hindex : sm.index ≤ sm'.index)
    (hdurable : durable ≤ durable') (htop : top ≤ top') : WorkKept log sm' durable' top' work := by
  cases work with
  | starting => exact absurd rfl hrunning
  | idle => trivial
  | prepared ss req => exact ⟨h.1, Nat.le_trans h.2 hindex⟩
  | synced ss req => exact ⟨h.1, Nat.le_trans h.2.1 hindex, h.2.2.mono hdurable⟩
  | committed ss req => exact ⟨h.1, Nat.le_trans h.2 htop⟩
  | recovered index => exact ⟨Nat.le_trans h.1 hindex, Nat.le_trans h.2 htop⟩
  | recoverSynced index => exact ⟨h.1.mono hdurable, Nat.le_trans h.2.1 hindex, Nat.le_trans h.2.2 htop⟩
  | shrunk index => exact Nat.le_trans h htop

/-- The snapshots that the log reader has or is about to have. -/
def Known (s : Node) (ss : Snapshot) : Prop := s.reader = some ss ∨ s.received = some ss

/-- The last number of an index, which a sum wraps at. -/
def lastIndex : ℕ := 0xFFFFFFFFFFFFFFFF

/-- The log is never removed beyond the snapshot on record, and that snapshot has the data
unless the state machine has it durably. -/
structure Backed (log : Log) (s : Node) : Prop where
  kept : Kept log s.sm
  disk : s.durable ≤ s.sm.onDiskIndex
  valid : ∀ ss, s.recorded = some ss → Sound log ss
  known : ∀ ss, s.Known ss → Sound log ss ∧ ss.index ≤ s.top
  partly : ∀ ss, s.recorded = some ss → ss.dummy ∨ ss.shrunk →
    DurableTo log s.durable ss.index ∧ (s.work ≠ .starting → ss.index ≤ s.sm.index)
  started : s.work = .starting → s.reader = s.recorded
  logFrom : s.logFrom ≤ s.top
  compactTo : s.compactTo ≤ s.top ∨ s.compactTo = lastIndex
  work : WorkKept log s.sm s.durable s.top s.work

theorem backed_init : Backed log init where
  kept := kept_openOnDisk 0
  disk := le_rfl
  valid := by simp [init]
  known := by simp [init, Known]
  partly := by simp [init]
  started _ := rfl
  logFrom := le_rfl
  compactTo := .inl le_rfl
  work := rfl

theorem Backed.setSm (h : Backed log s) (hrunning : s.work ≠ .starting) (hkept : Kept log sm)
    (hindex : s.sm.index ≤ sm.index) (hdisk : s.sm.onDiskIndex ≤ sm.onDiskIndex) : Backed log { s with sm := sm } :=
  { h with
    kept := hkept
    disk := Nat.le_trans h.disk hdisk
    partly := fun ss hss hpart =>
      (h.partly ss hss hpart).imp_right fun hle hwork => Nat.le_trans (hle hwork) hindex
    work := h.work.mono hrunning hindex le_rfl le_rfl }

/-- The worker goes on, and the log reader gets a snapshot that it may have. -/
theorem Backed.setWork (h : Backed log s) (hrunning : s.work ≠ .starting) (work : Work)
    (hwork : WorkKept log s.sm s.durable s.top work)
    (hwork' : work ≠ .starting) {reader received : Option Snapshot} (ssIndex : ℕ)
    (hknown : ∀ ss, reader = some ss ∨ received = some ss → Sound log ss ∧ ss.index ≤ s.top) :
    Backed log { s with work := work, reader := reader, ssIndex := ssIndex, received := received } :=
  { h with
    known := hknown
    partly := fun ss hss hpart => (h.partly ss hss hpart).imp_right fun hle _ => hle hrunning
    started := fun hstarting => absurd hstarting hwork'
    work := hwork }

theorem Backed.setDurable (h : Backed log s) (hrunning : s.work ≠ .starting)
    (hwork : WorkKept log s.sm s.sm.onDiskIndex s.top work) (hwork' : work ≠ .starting) :
    Backed log { s with durable := s.sm.onDiskIndex, work := work } :=
  { h with
    disk := le_rfl
    partly := fun ss hss hpart =>
      ⟨(h.partly ss hss hpart).1.mono h.disk, fun _ => (h.partly ss hss hpart).2 hrunning⟩
    started := fun hstarting => absurd hstarting hwork'
    work := hwork }

variable {index : ℕ}

theorem Backed.durableTo (h : Backed log s) (hindex : index ≤ s.sm.index) : DurableTo log s.sm.onDiskIndex index :=
  fun i hi happ => h.kept.covered i (Nat.le_trans hi hindex) happ

theorem newer_cases (recorded : Option Snapshot) (ss : Snapshot) :
    newer recorded ss = ss ∨ recorded = some (newer recorded ss) := by
  unfold newer
  split
  · exact .inl rfl
  · split_ifs
    · exact .inl rfl
    · exact .inr rfl

theorem top_newer (s : Node) (ss : Snapshot) :
    s.top ≤ (newer s.recorded ss).index ∧ ss.index ≤ (newer s.recorded ss).index := by
  unfold newer top
  cases s.recorded with
  | none => simp
  | some old =>
    simp only [map_some, getD_some]
    split_ifs <;> omega

variable {ss : Snapshot}

/-- A snapshot is put on record; one without the data must not be ahead of it. -/
theorem Backed.record (h : Backed log s) (hrunning : s.work ≠ .starting) (hss : Sound log ss)
    (hpartly : ss.dummy ∨ ss.shrunk → DurableTo log s.durable ss.index ∧ ss.index ≤ s.sm.index)
    (hwork : WorkKept log s.sm s.durable (newer s.recorded ss).index work) (hwork' : work ≠ .starting)
    {received : Option Snapshot} (hreceived : received = s.received ∨ received = some ss) {logFrom : ℕ}
    (hlog : logFrom ≤ (newer s.recorded ss).index) : Backed log { s with
      recorded := some (newer s.recorded ss), logFrom := logFrom, received := received, work := work } := by
  obtain ⟨htop, hindex⟩ := s.top_newer ss
  refine { h with
    valid := fun ss' h' => ?_, known := fun ss' h' => ?_, partly := fun ss' h' hpart => ?_
    started := fun hstarting => absurd hstarting hwork'
    logFrom := hlog, compactTo := h.compactTo.imp_left fun hle => Nat.le_trans hle htop, work := hwork }
  · cases h'
    rcases newer_cases s.recorded ss with heq | heq
    · rwa [heq]
    · exact h.valid _ heq
  · have hold (hk : s.Known ss') : Sound log ss' ∧ ss'.index ≤ (newer s.recorded ss).index :=
      (h.known ss' hk).imp_right fun hle => Nat.le_trans hle htop
    rcases h' with h' | h'
    · exact hold (.inl h')
    · rcases hreceived with rfl | rfl
      · exact hold (.inr h')
      · cases h'
        exact ⟨hss, hindex⟩
  · cases h'
    rcases newer_cases s.recorded ss with heq | heq
    · rw [heq] at hpart ⊢
      exact ⟨(hpartly hpart).1, fun _ => (hpartly hpart).2⟩
    · exact (h.partly _ heq hpart).imp_right fun hle _ => hle hrunning

variable {req : SSRequest} {overhead : ℕ}

/-- The index is at most that of the snapshot, unless the sum in the test wraps around. -/
theorem getCompactionIndex_le {i : ℕ} (h : getCompactionIndex overhead req index = some i) :
    i ≤ index ∨ i = lastIndex := by
  unfold getCompactionIndex at h
  unfold lastIndex
  have hlt := req.compactionIndex.toNat_lt
  rw [UInt64.toNat_add, UInt64.toNat_one] at h
  split_ifs at h <;> cases h <;> omega

theorem Backed.compactLog (h : Backed log s) (hrunning : s.work ≠ .starting) (hindex : index ≤ s.top)
    (ssIndex : ℕ) {reader : Option Snapshot}
    (hknown : ∀ ss, reader = some ss ∨ s.received = some ss → Sound log ss ∧ ss.index ≤ s.top) :
    Backed log { s.compactLog overhead req index with reader := reader, ssIndex := ssIndex, work := .idle } := by
  have hset := h.setWork hrunning .idle trivial (by decide) ssIndex hknown
  unfold Node.compactLog
  split
  · next i hi =>
    exact { hset with
      compactTo := (getCompactionIndex_le hi).imp_left fun hle => Nat.le_trans hle hindex }
  · exact hset

theorem Sound.shrinkAt (h : Sound log ss) (index : ℕ) : Sound log (ss.shrinkAt index) := by
  unfold Snapshot.shrinkAt
  split_ifs
  · exact ⟨⟨h.1.term, h.1.covered, fun _ hshrunk => by cases hshrunk⟩, h.2⟩
  · exact h

theorem shrinkAt_index (ss : Snapshot) (index : ℕ) : (ss.shrinkAt index).index = ss.index := by
  unfold Snapshot.shrinkAt
  split_ifs <;> rfl

theorem Backed.shrink (h : Backed log s) (hw : s.work = .recoverSynced index) : Backed log { s with
      recorded := s.recorded.map (Snapshot.shrinkAt index)
      reader := s.reader.map (Snapshot.shrinkAt index)
      work := .shrunk index } := by
  have hwork := h.work
  rw [hw] at hwork
  obtain ⟨hdurable, hindex, hle⟩ := hwork
  have htop : ({ s with
      recorded := s.recorded.map (Snapshot.shrinkAt index)
      reader := s.reader.map (Snapshot.shrinkAt index)
      work := .shrunk index } : Node).top = s.top := by
    unfold top
    cases s.recorded with
    | none => rfl
    | some ss => simp only [map_some, getD_some, shrinkAt_index]
  refine ⟨h.kept, h.disk, fun ss hss => ?_, fun ss hss => ?_, fun ss hss hpart => ?_, (by simp),
    by rw [htop]; exact h.logFrom, by rw [htop]; exact h.compactTo, by rw [htop]; exact hle⟩
  · obtain ⟨old, hold, rfl⟩ := map_eq_some_iff.mp hss
    exact (h.valid old hold).shrinkAt index
  · rw [htop]
    rcases hss with hss | hss
    · obtain ⟨old, hold, rfl⟩ := map_eq_some_iff.mp hss
      rw [shrinkAt_index]
      exact (h.known old (.inl hold)).imp_left fun hsound => hsound.shrinkAt index
    · exact h.known ss (.inr hss)
  · obtain ⟨old, hold, rfl⟩ := map_eq_some_iff.mp hss
    rw [shrinkAt_index]
    by_cases hat : old.index = index
    · rw [hat]
      exact ⟨hdurable, fun _ => hindex⟩
    · rw [Snapshot.shrinkAt, if_neg hat] at hpart
      exact (h.partly old hold hpart).imp_right fun hle _ => hle (by simp [hw])

variable {init : Bool}

theorem recover_index (h : sm.recover ss init = some sm') (hnew : sm.lastApplied < ss.index) :
    sm'.index = ss.index := by
  rw [StateMachine.recover, if_neg (by omega)] at h
  obtain ⟨_, -, h⟩ := bind_eq_some_iff.mp h
  cases h
  rfl

theorem recover_onDiskIndex (h : sm.recover ss init = some sm')
    (hloads : loads sm ss init = false) : sm'.onDiskIndex = sm.onDiskIndex := by
  rw [StateMachine.recover] at h
  split_ifs at h with hold
  · cases h
    rfl
  · obtain ⟨sm1, h1, h⟩ := bind_eq_some_iff.mp h
    cases h
    rw [doRecover] at h1
    split_ifs at h1 with hshrunk hpartial hcheck hrequired hcheck
    · cases h1
      rfl
    · have : sm.lastApplied < ss.index := by omega
      simp_all [loads]
    · cases h1
      rfl

theorem recover_index_mono (h : sm.recover ss init = some sm') (hlast : sm.lastApplied = sm.index) :
    sm.index ≤ sm'.index := by
  by_cases hold : ss.index ≤ sm.lastApplied
  · rw [StateMachine.recover, if_pos hold] at h
    cases h
    exact le_rfl
  · rw [recover_index h (by omega)]
    omega

theorem Backed.recoverFrom (h : Backed log s) (hlast : s.sm.lastApplied = s.sm.index) (hreader : s.reader = some ss)
    (hrecover : s.recoverFrom ss init = some s') : Backed log s' := by
  obtain ⟨sm, hsm, hs'⟩ := map_eq_some_iff.mp hrecover
  cases hs'
  obtain ⟨⟨hvalid, hlocal⟩, htop⟩ := h.known ss (.inl hreader)
  have hmono := recover_index_mono hsm hlast
  -- afterwards the replica is at the snapshot or was beyond it
  have hindex : ss.index ≤ sm.index := by
    rcases Nat.lt_or_ge s.sm.lastApplied ss.index with hlt | hge
    · exact Nat.le_of_eq (recover_index hsm hlt).symm
    · omega
  have hpartly : ∀ ss', s.recorded = some ss' → ss'.dummy ∨ ss'.shrunk → loads s.sm ss init = false ∧
    ss'.index ≤ sm.index := by
    intro ss' hss' hpart
    have htop' : s.top = ss'.index := by simp [top, hss']
    by_cases hstarting : s.work = .starting
    · -- the log reader has what is on record
      rw [h.started hstarting, hss'] at hreader
      cases hreader
      refine ⟨?_, hindex⟩
      rcases hpart with hpart | hpart <;> simp [loads, hpart]
    · have hle := (h.partly ss' hss' hpart).2 hstarting
      exact ⟨by simp [loads]; omega, Nat.le_trans hle hmono⟩
  refine { h with
    kept := h.kept.recover hlast hvalid (fun _ => hlocal) hsm, disk := ?_, partly := fun ss' hss' hpart => ?_
    started := fun hstarting => ?_, work := ?_ }
  · cases hloads : loads s.sm ss init with
    | true => simp
    | false =>
      simp only [Bool.false_eq_true, if_false]
      rw [recover_onDiskIndex hsm hloads]
      exact h.disk
  · obtain ⟨hloads, hle⟩ := hpartly ss' hss' hpart
    simp only [hloads, Bool.false_eq_true, if_false]
    exact ⟨(h.partly ss' hss' hpart).1, fun _ => hle⟩
  · dsimp only at hstarting
    split_ifs at hstarting
  · by_cases hold : ss.index ≤ s.sm.lastApplied
    · simp only [if_pos hold]
      trivial
    · simp only [if_neg hold]
      exact ⟨hindex, htop⟩

theorem Backed.step {e : NodeEvent} (h : Backed log s) (hreceived : ∀ ss, e = .receive ss → Taken log ss)
    (hlast : ∀ last, e = .removeLog last → last < lastIndex)
    (hstep : Node.step log overhead e s = some s') : Backed log s' := by
  refine (?_ : Leads (Node.step log overhead e s) (Backed log)) s' hstep
  have hwork := h.work
  have hknown : ∀ ss, s.reader = some ss ∨ s.received = some ss → Sound log ss ∧ ss.index ≤ s.top := h.known
  cases e with
  | entries count =>
    refine .ite (fun _ => .none) fun hrunning => .map fun sm hsm => ?_
    obtain ⟨hkept, hindex, -, hdisk⟩ := midway_kept h.kept hsm
    exact h.setSm hrunning hkept (by omega) hdisk
  | batch count =>
    refine .ite (fun _ => .none) fun hrunning => .map fun sm hsm => ?_
    simp only [not_or, Bool.not_eq_true, Bool.not_eq_false'] at hrunning
    obtain ⟨sm', hsm', hkept, hindex, -, -, hdisk⟩ := handleBatch_kept h.kept count fun i hlo hhi => by
      have hkind := List.all_eq_true.mp hrunning.2 (log.entry i) (log.mem_page.mpr ⟨i, by omega, by omega, rfl⟩)
      rw [decide_eq_true_eq] at hkind
      exact hkind
    cases hsm.symm.trans hsm'
    exact h.setSm hrunning.1 hkept (by omega) hdisk
  | settle =>
    refine .unless fun hrunning => h.setSm hrunning ?_ le_rfl le_rfl
    exact ⟨h.kept.term, h.kept.disk, h.kept.init, h.kept.covered, h.kept.known, h.kept.mem, h.kept.sorted⟩
  | sync =>
    exact .unless fun hrunning =>
      h.setDurable hrunning (h.work.mono hrunning le_rfl h.disk le_rfl) hrunning
  | prepare req =>
    refine .guard fun hguard => h.setWork (by rw [hguard.1]; decide) _ ?_ (by simp) _ hknown
    exact ⟨⟨⟨h.kept.term, h.kept.covered, fun hdummy => by cases hdummy⟩, rfl⟩, le_rfl⟩
  | saveSync =>
    rw [Node.step]
    split
    case h_1 ss req hw =>
      rw [hw] at hwork
      exact .some (h.setDurable (by simp [hw]) ⟨hwork.1, hwork.2, h.durableTo hwork.2⟩ (by simp))
    case h_2 => exact .none
  | commit =>
    rw [Node.step]
    split
    case h_1 ss req hw =>
      rw [hw] at hwork
      obtain ⟨htop, hss⟩ := s.top_newer ss
      have hkept : WorkKept log s.sm s.durable (newer s.recorded ss).index (.committed ss req) := ⟨hwork.1, hss⟩
      exact .some (h.record (by simp [hw]) hwork.1 (fun _ => ⟨hwork.2.2, hwork.2.1⟩) hkept (by simp) (.inl rfl)
        (Nat.le_trans h.logFrom htop))
    case h_2 => exact .none
  | abort =>
    rw [Node.step]
    split
    case h_1 | h_2 => exact .some (h.setWork (by simp [*]) .idle trivial (by simp) _ hknown)
    case h_3 => exact .none
  | create =>
    rw [Node.step]
    split
    case h_1 ss req hw =>
      rw [hw] at hwork
      have hrunning : s.work ≠ .starting := by simp [hw]
      refine .ite (fun _ => .some (h.setWork hrunning .idle trivial (by simp) _ hknown)) fun _ =>
        .some (h.compactLog hrunning hwork.2 _ fun ss' hss' => ?_)
      rcases hss' with hss' | hss'
      · cases hss'
        exact hwork
      · exact hknown ss' (.inr hss')
    case h_2 => exact .none
  | receive ss =>
    refine .unless fun hguard => ?_
    simp only [not_or, Bool.not_eq_true] at hguard
    obtain ⟨hrunning, hdummy, hshrunk, himported⟩ := hguard
    obtain ⟨htop, hss⟩ := s.top_newer ss
    exact h.record hrunning ⟨(hreceived ss rfl).valid, himported⟩ (by simp [hdummy, hshrunk])
      (h.work.mono hrunning le_rfl le_rfl htop) hrunning (.inr rfl)
      (Nat.max_le.mpr ⟨Nat.le_trans h.logFrom htop, hss⟩)
  | push =>
    refine .ite (fun _ => .none) fun hrunning => .map fun ss hss => ?_
    refine h.setWork hrunning _ h.work hrunning _ fun ss' hss' => ?_
    rcases hss' with hss' | hss'
    · cases hss'
      rcases newer_cases s.reader ss with heq | heq
      · rw [heq]
        exact hknown ss (.inr hss)
      · exact hknown _ (.inl heq)
    · cases hss'
  | recover =>
    exact .ite (fun hguard => .bind fun ss hss _ hrecover => h.recoverFrom hguard.2 hss hrecover) fun _ => .none
  | recoverSync =>
    rw [Node.step]
    split
    case h_1 index hw =>
      rw [hw] at hwork
      exact .some (h.setDurable (by simp [hw]) ⟨h.durableTo hwork.1, hwork⟩ (by simp))
    case h_2 => exact .none
  | shrink =>
    rw [Node.step]
    split
    case h_1 index hw =>
      rw [hw] at hwork
      exact .ite (fun _ => .some (h.shrink hw)) fun _ =>
        .some (h.setWork (by simp [hw]) (.shrunk index) hwork.2.2 (by simp) _ hknown)
    case h_2 => exact .none
  | compact =>
    rw [Node.step]
    split
    case h_1 index hw =>
      have hreader : (s.compactLog overhead defaultSSRequest index).reader = s.reader := by
        unfold Node.compactLog
        split <;> rfl
      exact .some (h.compactLog (by simp [hw]) (by rwa [hw] at hwork) _ (by rwa [hreader]))
    case h_2 => exact .none
  | removeLog last =>
    refine .guard fun hguard => ?_
    have hlt := hlast last rfl
    have htop : s.compactTo ≤ s.top := h.compactTo.resolve_right (by omega)
    exact { h with logFrom := Nat.max_le.mpr ⟨h.logFrom, htop⟩, compactTo := .inl (Nat.zero_le _) }
  | crash durable =>
    refine .guard fun hguard => { h with
      kept := kept_openOnDisk durable, disk := le_rfl, known := fun ss hss => ?_, partly :=
        fun ss hss hpart => ?_
      started := fun _ => rfl, compactTo := .inl (Nat.zero_le _), work := rfl }
    · rcases hss with hss | hss
      · have hrecorded : s.recorded = some ss := hss
        exact ⟨h.valid ss hrecorded, by simp [top, hrecorded]⟩
      · cases hss
    · exact ⟨(h.partly ss hss hpart).1.mono hguard.1, fun hne => absurd rfl hne⟩
  | start =>
    refine .ite (fun hstarting => ?_) fun _ => .none
    have happlied : s.sm.lastApplied = s.sm.index := by rwa [hstarting] at hwork
    split
    case h_1 hnone =>
      have hrecorded : s.recorded = none := by rw [← h.started hstarting, hnone]
      exact .some { h with
        partly := by simp [hrecorded]
        started := fun hidle => by cases hidle
        work := trivial }
    case h_2 ss hss =>
      have hset : Backed log { s with ssIndex := ss.index } := { h with }
      exact fun _ => hset.recoverFrom happlied hss

end

/-- In every state, also right after a crash, an entry up to which some command is not durable
is in the log store or in a complete snapshot on record. -/
theorem log_outlives_volatile_data (log : Log) (overhead : ℕ) (es : List NodeEvent)
    (hreceived : ∀ ss, .receive ss ∈ es → Taken log ss) (hlast : ∀ last, .removeLog last ∈ es →
    last < lastIndex) (s : Node)
    (hrun : runMachine (Node.step log overhead) es init = some s) (i : ℕ) (hvolatile : ¬ DurableTo log s.durable i) :
    s.logFrom < i ∨ ∃ ss, s.recorded = some ss ∧ ss.dummy = false ∧ ss.shrunk = false ∧ i ≤ ss.index := by
  have hok : Throughout (Node.step log overhead) (fun e _ => (∀ ss, e = .receive ss → Taken log ss) ∧
      ∀ last, e = .removeLog last → last < lastIndex) es init := by
    refine throughout_of_forall (fun e he _ => ⟨fun ss heq => hreceived ss ?_, fun last heq => hlast last ?_⟩) init
    · rwa [← heq]
    · rwa [← heq]
  have hbacked : Backed log s :=
    runMachine_keeps_of (fun _ _ _ hok h hstep => h.step hok.1 hok.2 hstep) hok backed_init hrun
  refine or_iff_not_imp_left.mpr fun hremoved => ?_
  have htop : i ≤ s.top := Nat.le_trans (Nat.le_of_not_lt hremoved) hbacked.logFrom
  cases hrecorded : s.recorded with
  | none =>
    simp only [top, hrecorded, map_none, getD_none] at htop
    exact absurd (fun j hj _ => by omega) hvolatile
  | some ss =>
    simp only [top, hrecorded, map_some, getD_some] at htop
    have hfull : ¬ (ss.dummy ∨ ss.shrunk) := fun hpart =>
      hvolatile fun j hj happ => (hbacked.partly ss hrecorded hpart).1 j (Nat.le_trans hj htop) happ
    simp only [not_or, Bool.not_eq_true] at hfull
    exact ⟨ss, rfl, hfull.1, hfull.2, htop⟩

/-- A snapshot at index 5 with the log removed up to 4, two more commands, and a crash that loses them. -/
def crashedEvents : List NodeEvent :=
  [.start, .entries 5, .settle, .prepare ⟨true, 4, 0⟩, .saveSync, .commit, .create, .removeLog 7,
    .entries 2, .settle, .crash 5]

theorem log_outlives_volatile_data_crash :
    ∃ s, runMachine (Node.step mixedLog 100) crashedEvents init = some s ∧ s.durable = 5 ∧ s.sm.index = 0 ∧
      ¬ DurableTo mixedLog s.durable 6 ∧
      (s.logFrom < 6 ∨ ∃ ss, s.recorded = some ss ∧ ss.dummy = false ∧ ss.shrunk = false ∧ 6 ≤ ss.index) := by
  have hstate : (runMachine (Node.step mixedLog 100) crashedEvents init).map (fun s => (s.durable, s.sm.index)) =
      some (5, 0) := by decide +kernel
  obtain ⟨s, hs, hvalues⟩ := Option.map_eq_some_iff.mp hstate
  rw [Prod.mk.injEq] at hvalues
  have hvolatile : ¬ DurableTo mixedLog s.durable 6 := fun hd => by
    have := hd 6 le_rfl rfl
    omega
  exact ⟨s, hs, hvalues.1, hvalues.2, hvolatile, log_outlives_volatile_data mixedLog 100 crashedEvents
    (by simp [crashedEvents]) (by simp [crashedEvents, lastIndex]) s hs 6 hvolatile⟩

/-- The snapshot of the replica's own and the removal of the log reach the config change, which
is no data: it is beyond the durable index. -/
theorem log_removed_beyond_durable :
    ∃ s, runMachine (Node.step mixedLog 100) [.start, .entries 2, .settle, .prepare ⟨true, 0, 0⟩, .saveSync, .commit,
        .create, .removeLog 2] init = some s ∧ s.durable = 1 ∧ s.durable < 2 ∧
      ¬ (s.logFrom < 2 ∨ ∃ ss, s.recorded = some ss ∧ ss.dummy = false ∧ ss.shrunk = false ∧ 2 ≤ ss.index) := by
  refine ⟨_, rfl, rfl, by decide, ?_⟩
  rintro (hlog | ⟨ss, hss, hdummy, -⟩)
  · exact absurd hlog (by decide)
  · cases hss
    cases hdummy

end Node

end Armada.Rsm
