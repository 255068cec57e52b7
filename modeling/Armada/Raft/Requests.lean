import Mathlib.Data.Nat.Notation
import Mathlib.Tactic.SplitIfs
import Mathlib.Tactic.ByContra
import Mathlib.Tactic.Cases
import Armada.Program.Machine

/-! The book-keeping of requests at a replica. Proposals are registered by key before they
enter the input queue; reads enter theirs first and are registered in batches by the step
worker. Workers, timeouts and the end of the replica hand out the results. -/

namespace Armada.Raft

open Program Function Option

/-- A proposal as its shard and the workers see it. -/
structure Proposal where
  deadline : ℕ
  clientID : ℕ
  seriesID : ℕ
  /-- in the map of its shard -/
  pending : Bool
  /-- its call of `propose` has not returned -/
  calling : Bool
  /-- the input queue refused it -/
  refused : Bool
  accepted : Bool
  /-- out of the map, with a worker that is about to notify it -/
  taken : Bool
  results : ℕ

/-- Where a read is. -/
inductive ReadPlace where
  | queued
  /-- out of the queue, with the step worker -/
  | taken
  | batched (ctx : ℕ)
  /-- out of its batch with a result -/
  | done
  /-- dropped without a result -/
  | lost
  deriving DecidableEq

structure Read where
  deadline : ℕ
  place : ReadPlace
  results : ℕ

structure Requests where
  proposals : ℕ → Option Proposal
  /-- the shards of the proposals that were closed -/
  stopped : ℕ → Bool
  proposalsClosed : Bool
  reads : ℕ → Option Read
  /-- the index of each batch of reads, 0 until the batch is ready -/
  batches : ℕ → Option ℕ
  readsStopped : Bool
  /-- the step worker holds reads that it has not registered yet -/
  stepping : Bool

inductive RequestEvent where
  | register (key clientID seriesID deadline : ℕ)
  /-- the entry goes to the input queue, which may have no room -/
  | enqueue (key : ℕ) (room : Bool)
  /-- `propose` forgets a refused proposal and returns the error -/
  | abandon (key : ℕ)
  /-- a worker looks for a proposal that was dropped or applied -/
  | takeProposal (key clientID seriesID now : ℕ)
  | notify (key : ℕ)
  | gcShard (shard now : ℕ)
  | closeShard (shard : ℕ)
  | read (id deadline : ℕ) (room : Bool)
  /-- the reads in the queue are taken, one of them `first`; an empty queue is left alone -/
  | takeReads (first : ℕ)
  | registerReads (ctx : ℕ)
  | dropReads (ctx : ℕ)
  | addReady (ctx index : ℕ)
  /-- batches up to an index are complete -/
  | applied (index : ℕ)
  | gcReads (now : ℕ)
  | closeReads

namespace Requests

def init : Requests where
  proposals _ := none
  stopped _ := false
  proposalsClosed := false
  reads _ := none
  batches _ := none
  readsStopped := false
  stepping := false

def setProposal (s : Requests) (key : ℕ) (p : Proposal) : Requests :=
  { s with proposals := Function.update s.proposals key (some p) }

/-- Every proposal that a shard's map holds and `due` picks leaves with a result. -/
def settle (s : Requests) (due : ℕ → Proposal → Bool) (keep : Bool) : ℕ → Option Proposal := fun key =>
  (s.proposals key).map fun p =>
    if p.pending ∧ due key p then { p with pending := keep, results := p.results + 1 } else p

/-- Every read that `due` picks leaves with a result. -/
def settleReads (s : Requests) (due : Read → Bool) : ℕ → Option Read := fun id =>
  (s.reads id).map fun r => if due r then { r with place := .done, results := r.results + 1 } else r

def Read.inBatch (r : Read) (ready : ℕ → Bool) : Bool :=
  match r.place with
  | .batched ctx => ready ctx
  | _ => false

/-- One step. Proposals belong to the shard that their key says. -/
def step (shards : ℕ) : RequestEvent → Requests → Option Requests
  | .register key clientID seriesID deadline, s =>
    -- keys are random and taken as distinct
    if (s.proposals key).isSome then none
    else some (s.setProposal key ⟨deadline, clientID, seriesID, true, true, false, false, false, 0⟩)
  | .enqueue key room, s => do
    let p ← s.proposals key
    if !p.calling ∨ p.refused then none
    else if s.proposalsClosed ∨ !room then some (s.setProposal key { p with refused := true })
    else some (s.setProposal key { p with accepted := true, calling := false })
  | .abandon key, s => do
    let p ← s.proposals key
    if !p.refused ∨ !p.calling then none
    else some (s.setProposal key { p with pending := false, calling := false })
  | .takeProposal key clientID seriesID now, s =>
    match s.proposals key with
    | none => some s
    | some p =>
      if s.stopped (key % shards) then some s
      else if p.pending ∧ now ≤ p.deadline ∧ p.clientID = clientID ∧ p.seriesID = seriesID then
        some (s.setProposal key { p with pending := false, taken := true })
      else some s
  | .notify key, s => do
    let p ← s.proposals key
    if !p.taken then none
    else some (s.setProposal key { p with taken := false, results := p.results + 1 })
  | .gcShard shard now, s =>
    if s.stopped shard then some s
    else some { s with proposals := s.settle (fun key p => key % shards = shard ∧ p.deadline < now) false }
  | .closeShard shard, s =>
    if s.stopped shard then none
    else some { s with
      stopped := Function.update s.stopped shard true
      proposalsClosed := true
      proposals := s.settle (fun key _ => key % shards = shard) true }
  | .read id deadline room, s =>
    if (s.reads id).isSome then none
    else if s.readsStopped ∨ !room then some s
    else some { s with reads := Function.update s.reads id (some ⟨deadline, .queued, 0⟩) }
  | .takeReads first, s =>
    if s.stepping ∨ !(s.reads first).any (·.place = .queued) then none
    else some { s with
      stepping := true
      reads := fun id => (s.reads id).map fun r => if r.place = .queued then { r with place := .taken } else r }
  | .registerReads ctx, s =>
    if !s.stepping then none
    else if s.readsStopped then
      -- `add` returns without a word
      some { s with
        stepping := false
        reads := fun id => (s.reads id).map fun r => if r.place = .taken then { r with place := .lost } else r }
    else if (s.batches ctx).isSome then none
    else some { s with
      stepping := false
      batches := Function.update s.batches ctx (some 0)
      reads := fun id => (s.reads id).map fun r => if r.place = .taken then { r with place := .batched ctx } else r }
  | .dropReads ctx, s =>
    if s.readsStopped then some s
    else some { s with
      reads := s.settleReads (Read.inBatch · (· = ctx))
      batches := Function.update s.batches ctx none }
  | .addReady ctx index, s =>
    some { s with batches := Function.update s.batches ctx ((s.batches ctx).map fun _ => index) }
  | .applied index, s =>
    if s.readsStopped then some s
    else
      let ready (ctx : ℕ) : Bool := (s.batches ctx).any fun i => 0 < i ∧ i ≤ index
      some { s with
        reads := s.settleReads (Read.inBatch · ready)
        batches := fun ctx => if ready ctx then none else s.batches ctx }
  | .gcReads now, s =>
    if s.readsStopped then some s
    else some { s with reads := s.settleReads fun r => r.deadline < now ∧ Read.inBatch r fun _ => true }
  | .closeReads, s =>
    if s.readsStopped then none
    else some { s with
      readsStopped := true
      reads := s.settleReads fun r => r.place = .queued ∨ Read.inBatch r fun _ => true }

/-- Nothing is under way: no call of `propose`, no worker with a proposal or a read. -/
def Quiet (s : Requests) : Prop :=
  s.stepping = false ∧ ∀ key p, s.proposals key = some p → p.calling = false ∧ p.taken = false

/-- All shards of the proposals and the reads were closed. -/
def Closed (shards : ℕ) (s : Requests) : Prop := s.readsStopped = true ∧ ∀ key, s.stopped (key % shards) = true

/-- The reads are not closed while the step worker holds some that are not registered. -/
def ClosedBetweenSteps : RequestEvent → Requests → Prop
  | .closeReads, s => s.stepping = false
  | _, _ => True

instance ClosedBetweenSteps.decidable : (e : RequestEvent) → (s : Requests) → Decidable (ClosedBetweenSteps e s) :=
  fun e s => by cases e <;> first | exact isTrue trivial | exact inferInstanceAs (Decidable (s.stepping = false))

/-- What holds of a proposal whose shard is open or stopped. -/
structure ProposalFair (stopped closed : Bool) (p : Proposal) : Prop where
  once : p.results ≤ 1
  fresh : p.pending → stopped = false → p.results = 0
  taken : p.taken → p.results = 0 ∧ p.pending = false
  calling : p.calling → p.accepted = false
  /-- a proposal that is or may still be accepted has a result or will get one -/
  kept : p.accepted ∨ p.calling ∧ closed = false → p.pending ∧ stopped = false ∨ p.taken ∨ p.results = 1
  late : stopped → p.pending → p.results = 1 ∨ p.calling ∧ p.results = 0

/-- What holds of a read. -/
def ReadFair (stopped stepping : Bool) (r : Read) : Prop :=
  match r.place with
  | .queued => stopped = false ∧ r.results = 0
  | .taken => stopped = false ∧ stepping = true ∧ r.results = 0
  | .batched _ => stopped = false ∧ r.results = 0
  | .done => r.results = 1
  | .lost => False

structure Fair (shards : ℕ) (s : Requests) : Prop where
  proposals : ∀ key p, s.proposals key = some p → ProposalFair (s.stopped (key % shards)) s.proposalsClosed p
  closed : ∀ shard, s.stopped shard → s.proposalsClosed
  reads : ∀ id r, s.reads id = some r → ReadFair s.readsStopped s.stepping r

theorem fair_init (shards : ℕ) : Fair shards init where
  proposals _ _ h := by cases h
  closed _ h := by cases h
  reads _ _ h := by cases h

section
variable {shards : ℕ} {s s' : Requests} {key : ℕ} {p : Proposal}

theorem Fair.setProposal (h : Fair shards s)
    (hp : ProposalFair (s.stopped (key % shards)) s.proposalsClosed p) : Fair shards (s.setProposal key p) := { h with
  proposals k q hq := by
    by_cases hk : k = key
    · subst hk
      simp only [Requests.setProposal, update_self, Option.some.injEq] at hq
      subst hq
      exact hp
    · simp only [Requests.setProposal, update_of_ne hk] at hq
      exact h.proposals k q hq }

theorem Fair.of_reads (h : Fair shards s) (hproposals : s'.proposals = s.proposals) (hstopped : s'.stopped = s.stopped)
    (hclosed : s'.proposalsClosed = s.proposalsClosed)
    (hreads : ∀ id r, s'.reads id = some r → ReadFair s'.readsStopped s'.stepping r) : Fair shards s' where
  proposals := by rw [hproposals, hstopped, hclosed]; exact h.proposals
  closed := by rw [hstopped, hclosed]; exact h.closed
  reads := hreads

theorem Fair.settle (h : Fair shards s) {stopped : ℕ → Bool} {closed : Bool} {due : ℕ → Proposal → Bool} {keep : Bool}
    (hclosed : ∀ shard, stopped shard → closed)
    (hdue : ∀ key p, ProposalFair (s.stopped (key % shards)) s.proposalsClosed p → p.pending → due key p →
    ProposalFair (stopped (key % shards)) closed { p with pending := keep, results := p.results + 1 })
    (hrest : ∀ key p, ProposalFair (s.stopped (key % shards)) s.proposalsClosed p → ¬(p.pending ∧ due key p) →
      ProposalFair (stopped (key % shards)) closed p) :
    Fair shards { s with stopped := stopped, proposalsClosed := closed, proposals := s.settle due keep } where
  proposals key p hp := by
    obtain ⟨q, hq, rfl⟩ := map_eq_some_iff.mp hp
    have hfair := h.proposals key q hq
    by_cases hd : q.pending ∧ due key q
    · rw [if_pos hd]
      exact hdue key q hfair hd.1 hd.2
    · rw [if_neg hd]
      exact hrest key q hfair hd
  closed := hclosed
  reads := h.reads

theorem Fair.settleReads (h : Fair shards s) {due : Read → Bool} {batches : ℕ → Option ℕ} {stopped : Bool}
    (hdue : ∀ r, ReadFair s.readsStopped s.stepping r → due r → r.results = 0)
    (hrest : ∀ r, ReadFair s.readsStopped s.stepping r → due r = false → ReadFair stopped s.stepping r) :
    Fair shards { s with readsStopped := stopped, batches := batches, reads := s.settleReads due } := by
  refine h.of_reads rfl rfl rfl fun id r hr => ?_
  obtain ⟨q, hq, rfl⟩ := map_eq_some_iff.mp hr
  have hfair := h.reads id q hq
  cases hd : due q with
  | true => simp [ReadFair, hdue q hfair hd]
  | false => simpa [hd] using hrest q hfair hd

theorem ReadFair.inBatch {stopped stepping : Bool} {r : Read} {ready : ℕ → Bool} (h : ReadFair stopped stepping r)
    (hr : Read.inBatch r ready) : r.results = 0 := by
  cases hplace : r.place with
  | batched ctx =>
    simp only [ReadFair, hplace] at h
    exact h.2
  | _ => simp [Read.inBatch, hplace] at hr

theorem Fair.moveReads (h : Fair shards s) {source dest : ReadPlace} {stepping : Bool} {batches : ℕ → Option ℕ}
    (hmoved : ∀ r, r.place = source → ReadFair s.readsStopped s.stepping r →
    ReadFair s.readsStopped stepping { r with place := dest })
    (hrest : ∀ r, r.place ≠ source → ReadFair s.readsStopped s.stepping r → ReadFair s.readsStopped stepping r) :
    Fair shards { s with
      stepping := stepping
      batches := batches
      reads := fun id => (s.reads id).map fun r => if r.place = source then { r with place := dest } else r } := by
  refine h.of_reads rfl rfl rfl fun id r hr => ?_
  obtain ⟨q, hq, rfl⟩ := map_eq_some_iff.mp hr
  have hfair := h.reads id q hq
  by_cases hplace : q.place = source
  · rw [if_pos hplace]
    exact hmoved q hplace hfair
  · rw [if_neg hplace]
    exact hrest q hplace hfair

theorem Fair.shard_open (h : Fair shards s) (hclosed : s.proposalsClosed = false) (shard : ℕ) :
    s.stopped shard = false := by
  by_contra hstopped
  rw [Bool.not_eq_false] at hstopped
  rw [h.closed _ hstopped] at hclosed
  cases hclosed

/-- A proposal of an open shard's map gets its result. It stays in the map only of a shard
that stops with it. -/
theorem ProposalFair.settled {stopped closed closed' keep : Bool} (h : ProposalFair false closed p)
    (hpending : p.pending) (hkeep : keep → stopped) :
    ProposalFair stopped closed' { p with pending := keep, results := p.results + 1 } := by
  have hzero := h.fresh hpending rfl
  have hnot : p.taken = false := by
    by_contra htaken
    have := (h.taken (by simpa using htaken)).2
    simp [hpending] at this
  refine ⟨by simp [hzero], fun hk hopen => ?_, by simp [hnot], h.calling, fun _ => .inr (.inr (by simp [hzero])),
    fun _ _ => .inl (by simp [hzero])⟩
  rw [hkeep hk] at hopen
  cases hopen

/-- The input queue closes; the shard of the proposal stays as it was, or has it no longer
in its map. -/
theorem ProposalFair.queue_closed {stopped stopped' closed : Bool} (h : ProposalFair stopped closed p)
    (hsame : stopped' = stopped ∨ p.pending = false) : ProposalFair stopped' true p := by
  have hkept : p.accepted ∨ p.calling ∧ true = false → p.pending ∧ stopped = false ∨ p.taken ∨ p.results = 1 := by
    rintro (hacc | ⟨-, hc⟩)
    · exact h.kept (.inl hacc)
    · cases hc
  obtain rfl | hnot := hsame
  · exact ⟨h.once, h.fresh, h.taken, h.calling, hkept, h.late⟩
  · refine ⟨h.once, by simp [hnot], h.taken, h.calling, fun hacc => ?_, by simp [hnot]⟩
    simpa [hnot] using hkept hacc

theorem Fair.step {e : RequestEvent} (hok : ClosedBetweenSteps e s) (h : Fair shards s)
    (hstep : Requests.step shards e s = some s') : Fair shards s' := by
  refine (?_ : Leads (Requests.step shards e s) (Fair shards)) s' hstep
  cases e with
  | register key clientID seriesID deadline =>
    refine .unless fun hfree => h.setProposal ⟨by simp, by simp, by simp, by simp, ?_, by simp⟩
    rintro (hacc | ⟨-, hclosed⟩)
    · cases hacc
    · exact .inl ⟨rfl, h.shard_open hclosed _⟩
  | enqueue key room =>
    refine .bind fun p hp => .ite (fun _ => .none) fun hcall => .ite (fun hfull => .some ?_) fun hroom => .some ?_
    · have hfair := h.proposals key p hp
      exact h.setProposal ⟨hfair.once, hfair.fresh, hfair.taken, hfair.calling, hfair.kept, hfair.late⟩
    · have hfair := h.proposals key p hp
      have hcalling : p.calling = true := by simp_all
      have hclosed : s.proposalsClosed = false := by simp_all
      refine h.setProposal ⟨hfair.once, hfair.fresh, hfair.taken, by simp, fun _ => ?_, ?_⟩
      · exact hfair.kept (.inr ⟨hcalling, hclosed⟩)
      · rw [h.shard_open hclosed]
        simp
  | abandon key =>
    refine .bind fun p hp => .unless fun hcall => ?_
    have hfair := h.proposals key p hp
    have hcalling : p.calling = true := by simp_all
    have hacc := hfair.calling hcalling
    refine h.setProposal ⟨hfair.once, by simp, fun ht => ⟨(hfair.taken ht).1, rfl⟩, by simp, ?_, by simp⟩
    rintro (h1 | ⟨h1, -⟩)
    · simp only [hacc] at h1
      cases h1
    · cases h1
  | takeProposal key clientID seriesID now =>
    rw [Requests.step]
    split
    · exact .some h
    next p hp =>
      have hfair := h.proposals key p hp
      refine .ite (fun _ => .some h) fun hstopped => .ite (fun hmatch => .some ?_) fun _ => .some h
      rw [Bool.not_eq_true] at hstopped
      have hzero := hfair.fresh hmatch.1 hstopped
      exact h.setProposal ⟨hfair.once, by simp, fun _ => ⟨hzero, rfl⟩, hfair.calling, fun _ => .inr (.inl rfl), by simp⟩
  | notify key =>
    refine .bind fun p hp => .unless fun htaken => ?_
    have hfair := h.proposals key p hp
    have ht := hfair.taken (by simpa using htaken)
    refine h.setProposal ⟨?_, ?_, by simp, hfair.calling, fun _ => .inr (.inr ?_), ?_⟩
    · simp only [ht.1]; omega
    · simp [ht.2]
    · simp only [ht.1]
    · simp [ht.2]
  | gcShard shard now =>
    refine .ite (fun _ => .some h) fun hstopped => .some ?_
    rw [Bool.not_eq_true] at hstopped
    refine h.settle h.closed (fun key p hfair hpending hdue => ?_) fun key p hfair _ => hfair
    have hshard : key % shards = shard := by simp_all
    rw [hshard, hstopped] at hfair
    exact hfair.settled hpending nofun
  | closeShard shard =>
    refine .unless fun hstopped => ?_
    rw [Bool.not_eq_true] at hstopped
    refine h.settle (fun _ _ => rfl) (fun key p hfair hpending hdue => ?_) fun key p hfair hrest => ?_
    · have hshard : key % shards = shard := by simpa using hdue
      rw [hshard, hstopped] at hfair
      rw [hshard, update_self]
      exact hfair.settled hpending fun _ => rfl
    · refine hfair.queue_closed ?_
      by_cases hshard : key % shards = shard
      · exact .inr (by simp_all)
      · exact .inl (update_of_ne hshard ..)
  | read id deadline room =>
    refine .ite (fun _ => .none) fun hfree => .ite (fun _ => .some h) fun hfull => .some ?_
    refine h.of_reads rfl rfl rfl fun k r hr => ?_
    by_cases hk : k = id
    · subst hk
      simp only [update_self, Option.some.injEq] at hr
      subst hr
      simp_all [ReadFair]
    · simp only [update_of_ne hk] at hr
      exact h.reads k r hr
  | takeReads first =>
    refine .unless fun hbusy => h.moveReads (fun r hplace hfair => ?_) fun r hplace hfair => ?_
    · simp_all [ReadFair]
    · cases hp : r.place <;> simp_all [ReadFair]
  | registerReads ctx =>
    refine .ite (fun _ => .none) fun hbusy => .ite (fun hstopped => .some ?_) fun hstopped => .unless fun hctx => ?_
    all_goals
      refine h.moveReads (fun r hplace hfair => ?_) fun r hplace hfair => ?_
      · simp_all [ReadFair]
      · cases hp : r.place <;> simp_all [ReadFair]
  | dropReads ctx =>
    exact .ite (fun _ => .some h) fun _ => .some (h.settleReads (fun r hfair => hfair.inBatch) fun r hfair _ => hfair)
  | addReady ctx index => exact .some (h.of_reads rfl rfl rfl h.reads)
  | applied index =>
    exact .ite (fun _ => .some h) fun _ => .some (h.settleReads (fun r hfair => hfair.inBatch) fun r hfair _ => hfair)
  | gcReads now =>
    refine .ite (fun _ => .some h) fun _ => .some (h.settleReads (fun r hfair hdue => ?_) fun r hfair _ => hfair)
    have hin : Read.inBatch r (fun _ => true) = true := by simp_all
    exact hfair.inBatch hin
  | closeReads =>
    refine .unless fun hstopped => h.settleReads (fun r hfair hdue => ?_) fun r hfair hrest => ?_
    · cases hp : r.place <;> simp_all [ReadFair, Read.inBatch]
    · have hidle : s.stepping = false := hok
      cases hp : r.place <;> simp_all [ReadFair, Read.inBatch]

end

/-- No request gets two results, and once everything is closed and no call is under way,
every accepted request has one, if the reads are closed between two steps of the worker. -/
theorem requests_get_one_result (shards : ℕ) (es : List RequestEvent) (s : Requests)
    (hok : Throughout (step shards) ClosedBetweenSteps es init) (hrun : runMachine (step shards) es init = some s) :
    (∀ key p, s.proposals key = some p → p.results ≤ 1) ∧ (∀ id r, s.reads id = some r → r.results ≤ 1) ∧
      (s.Closed shards → s.Quiet → (∀ key p, s.proposals key = some p → p.accepted → p.results = 1) ∧
          ∀ id r, s.reads id = some r → r.results = 1) := by
  have h : Fair shards s :=
    runMachine_keeps_of (fun _ _ _ he hs hstep => hs.step he hstep) hok (fair_init shards) hrun
  refine ⟨fun key p hp => (h.proposals key p hp).once, fun id r hr => ?_, fun hclosed hquiet => ⟨?_, ?_⟩⟩
  · have := h.reads id r hr
    cases hp : r.place <;> simp_all [ReadFair]
  · intro key p hp hacc
    have hfair := h.proposals key p hp
    have hq := hquiet.2 key p hp
    have hkept := hfair.kept (.inl hacc)
    simpa [hclosed.2 key, hq.2] using hkept
  · intro id r hr
    have hfair := h.reads id r hr
    have hstopped := hclosed.1
    cases hp : r.place <;> simp_all [ReadFair]

/-- A proposal and a read that both end with the replica. -/
def closing : List RequestEvent := [.register 3 1 0 20, .read 5 20 true, .enqueue 3 true, .takeReads 5,
  .registerReads 9, .closeShard 0, .closeReads]

theorem requests_get_one_result_closing :
    ∃ s, runMachine (step 1) closing init = some s ∧ (∀ key p, s.proposals key = some p → p.results ≤ 1) ∧
      (∀ id r, s.reads id = some r → r.results ≤ 1) ∧
      (s.Closed 1 → s.Quiet → (∀ key p, s.proposals key = some p → p.accepted → p.results = 1) ∧
        ∀ id r, s.reads id = some r → r.results = 1) := by
  obtain ⟨s, hs⟩ : ∃ s, runMachine (step 1) closing init = some s := isSome_iff_exists.mp (by decide +kernel)
  exact ⟨s, hs, requests_get_one_result 1 closing s (by decide +kernel) hs⟩

/-- The step worker takes a read out of the queue, the reads are closed, and the worker's
`add` finds them closed: the read that was accepted never gets a result. -/
theorem read_lost_at_close :
    ∃ (es : List RequestEvent) (s : Requests) (r : Read), runMachine (step 1) es init = some s ∧ s.Closed 1 ∧ s.Quiet ∧
      s.reads 5 = some r ∧ r.results = 0 := by
  let es : List RequestEvent := [.read 5 20 true, .takeReads 5, .closeReads, .closeShard 0, .registerReads 9]
  obtain ⟨s, hs⟩ : ∃ s, runMachine (step 1) es init = some s := isSome_iff_exists.mp (by decide +kernel)
  cases hs
  exact ⟨es, _, ⟨20, .lost, 0⟩, rfl, ⟨rfl, fun key => by rw [Nat.mod_one]; rfl⟩,
    ⟨rfl, fun key p hp => by cases hp⟩, rfl, rfl⟩

end Requests

end Armada.Raft
