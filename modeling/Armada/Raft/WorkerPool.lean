import Mathlib.Algebra.Order.BigOperators.Group.Finset
import Armada.Program.Fallible

/-! The pool of snapshot workers. A worker that is done says only who it is; what it did is
read off tables of the shards that save, recover and stream. They agree with the jobs that the
workers were given, whatever becomes of the nodes in the meantime. -/

namespace Armada.Raft.WorkerPool

open Program Function

inductive Work where
  | recover
  | save
  | stream
  deriving DecidableEq

structure Job where
  task : Work
  instanceID : ℕ
  shardID : ℕ

inductive Panic where
  | notBusy
  | notStreaming
  | nothingCompleted
  | severalCompleted
  | busyWorker
  | savingAgain
  | recoveringAgain
  | multipleJobs

structure Pool (n : ℕ) where
  /-- the incarnation of each loaded shard -/
  nodes : ℕ → Option ℕ
  /-- the shard of the node that a worker is busy with -/
  busy : Fin n → Option ℕ
  saving : ℕ → Bool
  recovering : ℕ → Bool
  streaming : ℕ → Option ℕ
  pending : List Job
  /-- the job that a worker was sent and whose completion the pool has not seen -/
  workers : Fin n → Option Job

variable {n : ℕ}

def newWorkerPool (n : ℕ) : Pool n :=
  ⟨fun _ => none, fun _ => none, fun _ => false, fun _ => false, fun _ => none, [], fun _ => none⟩

namespace Pool

variable (p : Pool n)

def completed (w : Fin n) : Except Panic (Pool n) :=
  match p.busy w with
  | none => .error .notBusy
  | some c =>
    if p.streaming c = some 0 then .error .notStreaming
    else
      let count := (p.saving c).toNat + (p.recovering c).toNat + (p.streaming c).isSome.toNat
      if count = 0 then .error .nothingCompleted
      else if 1 < count then .error .severalCompleted
      else .ok { p with
        saving := update p.saving c false
        recovering := update p.recovering c false
        streaming := update p.streaming c (if p.streaming c = some 1 then none else (p.streaming c).map (· - 1))
        busy := update p.busy w none
        workers := update p.workers w none }

def inProgress (c : ℕ) : Bool := p.saving c || p.recovering c || (p.streaming c).isSome

def canStream (c : ℕ) : Bool := !p.saving c && !p.recovering c

def canSchedule (j : Job) : Bool :=
  match j.task with
  | .recover | .save => !p.inProgress j.shardID
  | .stream => p.canStream j.shardID

def start (j : Job) (w : Fin n) : Except Panic (Pool n) :=
  if (p.busy w).isSome then .error .busyWorker
  else
    let p := { p with busy := update p.busy w (some j.shardID) }
    match j.task with
    | .recover =>
      if p.recovering j.shardID then .error .recoveringAgain
      else .ok { p with recovering := update p.recovering j.shardID true }
    | .save =>
      if p.saving j.shardID then .error .savingAgain else .ok { p with saving := update p.saving j.shardID true }
    | .stream =>
      .ok { p with streaming := update p.streaming j.shardID (some ((p.streaming j.shardID).getD 0 + 1)) }

/-- A job of an older incarnation is dropped. The channel of a worker counts as full as long as the worker has a job. -/
def scheduleTask (j : Job) (instanceID : ℕ) (w : Fin n) : Except Panic (Pool n) :=
  if instanceID = j.instanceID then do
    let p ← p.start j w
    if (p.workers w).isSome then .error .multipleJobs else .ok { p with workers := update p.workers w (some j) }
  else .ok p

/-- The first job that can be taken or dropped. -/
def schedulePending (p : Pool n) (w : Fin n) (skipped : List Job) : List Job → Except Panic (Pool n)
  | [] => .ok p
  | j :: rest =>
    match p.nodes j.shardID with
    | none => .ok { p with pending := skipped ++ rest }
    | some instanceID =>
      if p.canSchedule j then scheduleTask { p with pending := skipped ++ rest } j instanceID w
      else p.schedulePending w (skipped ++ [j]) rest

def getWorker : Option (Fin n) := (List.finRange n).find? fun w => (p.busy w).isNone

def scheduleWorker : Except Panic (Pool n) :=
  match p.getWorker with
  | none => .ok p
  | some w => p.schedulePending w [] p.pending

end Pool

inductive Event (n : ℕ) where
  | request (c : ℕ) (task : Work)
  /-- a shard is loaded, loaded again under another incarnation, or gone -/
  | loadNode (c : ℕ) (node : Option ℕ)
  /-- one round of schedule -/
  | scheduleWorker
  /-- the worker is done, if it has a job -/
  | completed (w : Fin n)

def step (p : Pool n) : Event n → Except Panic (Pool n)
  | .request c task => .ok (match p.nodes c with
    | none => p
    | some instanceID => { p with pending := p.pending ++ [⟨task, instanceID, c⟩] })
  | .loadNode c node => .ok { p with nodes := update p.nodes c node }
  | .scheduleWorker => p.scheduleWorker
  | .completed w => if (p.workers w).isSome then p.completed w else .ok p

/-! ### The tables -/

/-- How many workers have a job of the kind for the shard. -/
def load (workers : Fin n → Option Job) (c : ℕ) (k : Work) : ℕ :=
  ∑ w, ((workers w).any fun j => j.shardID = c ∧ j.task = k).toNat

theorem load_update (workers : Fin n → Option Job) (w : Fin n) (v : Option Job) (c : ℕ) (k : Work) :
    load (update workers w v) c k + ((workers w).any fun j => j.shardID = c ∧ j.task = k).toNat =
    load workers c k + (v.any fun j => j.shardID = c ∧ j.task = k).toNat := by
  have hrest := Finset.sum_congr (rfl : Finset.univ.erase w = _) fun x hx =>
    congrArg (fun o : Option Job => (o.any fun j => j.shardID = c ∧ j.task = k).toNat)
      (update_of_ne (Finset.ne_of_mem_erase hx) v workers)
  rw [load, load, ← Finset.add_sum_erase _ _ (Finset.mem_univ w), ← Finset.add_sum_erase _ _ (Finset.mem_univ w), hrest,
    update_self]
  omega

/-- How many jobs of the kind the tables have for the shard. -/
def Pool.marks (p : Pool n) (c : ℕ) : Work → ℕ
  | .recover => (p.recovering c).toNat
  | .save => (p.saving c).toNat
  | .stream => (p.streaming c).getD 0

/-- A shard is in one table at most. -/
def Pool.Alone (p : Pool n) (c : ℕ) : Prop :=
  p.streaming c ≠ some 0 ∧ (p.saving c).toNat + (p.recovering c).toNat + (p.streaming c).isSome.toNat ≤ 1

/-- The tables say what the workers have to do. -/
structure Inv (p : Pool n) : Prop where
  busy : ∀ w, p.busy w = (p.workers w).map Job.shardID
  marked : ∀ c k, load p.workers c k = p.marks c k
  alone : ∀ c, p.Alone c

theorem Inv.new : Inv (newWorkerPool n) where
  busy _ := rfl
  marked _ k := by cases k <;> exact Finset.sum_eq_zero fun _ _ => rfl
  alone _ := ⟨by simp [newWorkerPool], Nat.zero_le _⟩

variable {p : Pool n} {w : Fin n} {j : Job}

theorem Inv.keep (h : Inv p) (nodes : ℕ → Option ℕ) (pending : List Job) :
    Inv { p with nodes := nodes, pending := pending } :=
  ⟨h.busy, fun c k => by cases k <;> exact h.marked c _, h.alone⟩

/-- The tables follow the change of one worker's job. -/
theorem Inv.change (h : Inv p) {p' : Pool n} {v : Option Job} (hworkers : p'.workers = update p.workers w v)
    (hbusy : p'.busy = update p.busy w (v.map Job.shardID)) (htables : ∀ c, (∀ k, p'.marks c k +
    ((p.workers w).any fun j => j.shardID = c ∧ j.task = k).toNat = p.marks c k +
    (v.any fun j => j.shardID = c ∧ j.task = k).toNat) ∧ p'.Alone c) : Inv p' := by
  refine ⟨fun x => ?_, fun c k => ?_, fun c => (htables c).2⟩
  · rw [hworkers, hbusy, update_apply, update_apply]
    split_ifs
    · rfl
    · exact h.busy x
  · have hload := load_update p.workers w v c k
    rw [← hworkers, h.marked] at hload
    exact Nat.add_right_cancel (hload.trans ((htables c).1 k).symm)

/-- With a job of the kind the shard is in the table of the kind and in no other. -/
theorem Pool.Alone.only {c : ℕ} {k : Work} (h : p.Alone c) (hk : 0 < p.marks c k) : ∃ m,
    p.saving c = decide (k = .save) ∧ p.recovering c = decide (k = .recover) ∧
    p.streaming c = if k = .stream then some (m + 1) else none := by
  obtain ⟨hcounted, halone⟩ := h
  rcases hst : p.streaming c with _ | _ | m <;> cases k <;> cases hs : p.saving c <;> cases hr : p.recovering c <;>
    simp_all [Pool.marks]

/-- A worker is done: the one table that its shard is in says with what. -/
theorem Inv.completed (h : Inv p) (hw : p.workers w = some j) : ∃ p', p.completed w = .ok p' ∧ Inv p' := by
  have hpos : 0 < p.marks j.shardID j.task := by
    have hload := load_update p.workers w none j.shardID j.task
    simp only [h.marked, hw, Option.any_some, and_self, decide_true, Bool.toNat_true] at hload
    exact Nat.lt_of_lt_of_eq (Nat.succ_pos _) hload
  obtain ⟨m, hs, hr, ht⟩ := (h.alone j.shardID).only hpos
  have hbusy : p.busy w = some j.shardID := by rw [h.busy, hw]; rfl
  obtain ⟨k, i, s⟩ := j
  have hone : (p.saving s).toNat + (p.recovering s).toNat + (p.streaming s).isSome.toNat = 1 := by
    rw [hs, hr, ht]
    cases k <;> rfl
  refine ⟨_, by rw [Pool.completed, hbusy]; dsimp only; rw [if_neg (h.alone _).1, if_neg (by omega),
    if_neg (by omega)], ?_⟩
  refine h.change (w := w) (v := none) rfl rfl fun c => ?_
  by_cases hc : c = s
  · refine ⟨fun k' => ?_, ?_⟩
    · cases k <;> cases k' <;> cases m <;> simp_all [Pool.marks]
    · cases k <;> cases m <;> simp_all [Pool.Alone]
  · exact ⟨fun k' => by cases k' <;> simp [Pool.marks, hc, Ne.symm hc, hw], by simpa [Pool.Alone, hc] using h.alone c⟩

/-- A worker gets a job that the tables allow, and it is marked in the table of its kind. -/
theorem Inv.scheduleTask (h : Inv p) (hw : p.busy w = none) (hcan : p.canSchedule j) (instanceID : ℕ) :
    ∃ p', p.scheduleTask j instanceID w = .ok p' ∧ Inv p' := by
  have hidle : p.workers w = none := Option.map_eq_none_iff.mp ((h.busy w).symm.trans hw)
  unfold Pool.scheduleTask
  split_ifs
  · obtain ⟨k, i, s⟩ := j
    cases k
    all_goals
      simp only [Pool.canSchedule, Pool.inProgress, Pool.canStream, Bool.not_eq_true', Bool.or_eq_false_iff,
        Bool.and_eq_true, Option.isSome_eq_false_iff, Option.isNone_iff_eq_none] at hcan
      refine ⟨_, by simp [Pool.start, hw, hcan, hidle, ok_bind]; rfl,
        h.change (w := w) (v := some _) rfl rfl fun c => ?_⟩
      have halone := h.alone c
      by_cases hc : c = s
      · exact ⟨fun k' => by cases k' <;> simp_all [Pool.marks], by simp_all [Pool.Alone]⟩
      · exact ⟨fun k' => by cases k' <;> simp [Pool.marks, hc, Ne.symm hc, hidle],
          by simpa [Pool.Alone, hc] using halone⟩
  · exact ⟨p, rfl, h⟩

theorem Inv.schedulePending (h : Inv p) (hw : p.busy w = none) (skipped rest : List Job) :
    ∃ p', p.schedulePending w skipped rest = .ok p' ∧ Inv p' := by
  induction rest generalizing skipped with
  | nil => exact ⟨p, rfl, h⟩
  | cons j rest ih =>
    rw [Pool.schedulePending]
    split
    · exact ⟨_, rfl, h.keep p.nodes _⟩
    · split_ifs with hcan
      · exact (h.keep p.nodes (skipped ++ rest)).scheduleTask hw hcan _
      · exact ih _

theorem Inv.step (h : Inv p) (event : Event n) : ∃ p', step p event = .ok p' ∧ Inv p' := by
  cases event with
  | request c task =>
    refine ⟨_, rfl, ?_⟩
    split
    · exact h
    · exact h.keep p.nodes _
  | loadNode c node => exact ⟨_, rfl, h.keep _ p.pending⟩
  | scheduleWorker =>
    rw [WorkerPool.step, Pool.scheduleWorker]
    split
    · exact ⟨p, rfl, h⟩
    · next w hworker => exact h.schedulePending (by simpa using List.find?_some hworker) [] p.pending
  | completed w =>
    rw [WorkerPool.step]
    split_ifs with hjob
    · exact h.completed (Option.isSome_iff_exists.mp hjob).choose_spec
    · exact ⟨p, rfl, h⟩

theorem Inv.run (h : Inv p) (events : List (Event n)) : ∃ p', events.foldlM WorkerPool.step p = .ok p' ∧ Inv p' := by
  induction events generalizing p with
  | nil => exact ⟨p, rfl, h⟩
  | cons event events ih =>
    obtain ⟨p1, hstep, h1⟩ := h.step event
    rw [List.foldlM_cons, hstep]
    exact ih h1

/-- Whatever is requested, loaded and done in any order, no panic of the pool is reached, and two
workers never have jobs for one shard unless both of them stream. -/
theorem snapshot_work_exclusive (n : ℕ) (events : List (Event n)) :
    ∃ p, events.foldlM step (newWorkerPool n) = .ok p ∧ ∀ w w' j j', w ≠ w' → p.workers w = some j →
      p.workers w' = some j' → j.shardID = j'.shardID → j.task = .stream ∧ j'.task = .stream := by
  obtain ⟨p, hp, h⟩ := Inv.new.run events
  refine ⟨p, hp, fun w w' j j' hne hw hw' hshard => ?_⟩
  -- both jobs are counted, in the one table that the shard is in
  have hadd (k : Work) : (decide (j.task = k)).toNat + (decide (j'.task = k)).toNat ≤ p.marks j.shardID k := by
    have hsum := Finset.add_le_sum (f := fun w => ((p.workers w).any fun i => i.shardID = j.shardID ∧ i.task = k).toNat)
      (fun _ _ => Nat.zero_le _) (Finset.mem_univ w) (Finset.mem_univ w') hne
    simpa [← h.marked, load, hw, hw', hshard] using hsum
  have hmarks := hadd j.task
  obtain ⟨m, hs, hr, ht⟩ := (h.alone j.shardID).only (k := j.task) (by simp at hmarks; omega)
  have hmarks' := hadd j'.task
  cases hk : j.task <;> cases hk' : j'.task <;> simp_all [Pool.marks]

/-! ### Pending work -/

variable {p' : Pool n}

theorem pending_scheduleTask {instanceID : ℕ} (h : p.scheduleTask j instanceID w = .ok p') :
    p'.pending = p.pending := by
  unfold Pool.scheduleTask at h
  split_ifs at h
  · obtain ⟨p1, hstart, h⟩ := bind_eq_ok_iff.mp h
    split_ifs at h
    cases h
    grind [Pool.start]
  · cases h
    rfl

/-- A job that can be taken leaves the queue, or one before it does. -/
theorem pending_schedulePending {skipped rest : List Job} (hj : j ∈ rest) (hcan : p.canSchedule j)
    (h : p.schedulePending w skipped rest = .ok p') : p'.pending.length + 1 = (skipped ++ rest).length := by
  induction rest generalizing skipped with
  | nil => cases hj
  | cons j' rest ih =>
    have hlength : (skipped ++ rest).length + 1 = (skipped ++ j' :: rest).length := by simp [Nat.add_assoc]
    rw [Pool.schedulePending] at h
    split at h
    · cases h
      exact hlength
    · split_ifs at h with hcan'
      · rw [pending_scheduleTask h]
        exact hlength
      · obtain rfl | hj := List.mem_cons.mp hj
        · exact absurd hcan hcan'
        · simpa using ih hj h

/-- Work of a shard that no worker works on waits for a free worker only. -/
theorem free_worker_takes_pending (n : ℕ) (events : List (Event n)) :
    ∃ p, events.foldlM step (newWorkerPool n) = .ok p ∧ ∀ w j, p.workers w = none → j ∈ p.pending →
      (∀ w' j', p.workers w' = some j' → j'.shardID ≠ j.shardID) →
        ∃ p', step p .scheduleWorker = .ok p' ∧ p'.pending.length + 1 = p.pending.length := by
  obtain ⟨p, hp, h⟩ := Inv.new.run events
  refine ⟨p, hp, fun w j hw hj hshard => ?_⟩
  have hmarks (k : Work) : p.marks j.shardID k = 0 := by
    rw [← h.marked]
    refine Finset.sum_eq_zero fun w' _ => ?_
    cases hw' : p.workers w' with
    | none => rfl
    | some j' => simp [hshard w' j' hw']
  have hcan : p.canSchedule j := by
    have hs := hmarks .save
    have hr := hmarks .recover
    have ht := hmarks .stream
    have hcounted := (h.alone j.shardID).1
    cases hstreaming : p.streaming j.shardID <;> cases hk : j.task <;>
      simp_all [Pool.marks, Pool.canSchedule, Pool.inProgress, Pool.canStream]
  obtain ⟨p', hstep, -⟩ := h.step .scheduleWorker
  refine ⟨p', hstep, ?_⟩
  rw [step, Pool.scheduleWorker] at hstep
  split at hstep
  · next hnone =>
    have hbusy := List.find?_eq_none.mp hnone w (List.mem_finRange w)
    simp [h.busy, hw] at hbusy
  · exact pending_schedulePending hj hcan hstep

end Armada.Raft.WorkerPool
