import Mathlib.Algebra.Order.BigOperators.Group.Finset
import Mathlib.Data.Fintype.BigOperators
import Mathlib.Tactic.FinCases
import Armada.Program.Machine

/-! The budget for inbound frames. A stream takes its tokens one at a time from a pool
that all streams share, works on its frame and gives the tokens back. -/

namespace Armada.Transport

open Program Function Option

def frameBudgetUnit : ℕ := 64 * 1024

def maxRaftFrameSize : ℕ := 64 * 1024 * 1024 + 1024 * 1024

def inboundFrameBudget : ℕ := 256 * 1024 * 1024

/-- How many tokens a frame needs. -/
def frameTokens (size : ℕ) : ℕ := (size + frameBudgetUnit - 1) / frameBudgetUnit

/-- Where a stream is between two frames. -/
inductive Stream where
  /-- reads the length of its next frame -/
  | idle
  /-- in the loop of `acquire` -/
  | acquiring (count acquired : ℕ)
  /-- reads the frame or is in its handler -/
  | working (count : ℕ)
  /-- in the loop of the release function -/
  | releasing (left : ℕ)

namespace Stream

/-- The tokens a stream has taken and not given back. -/
def held : Stream → ℕ
  | idle => 0
  | acquiring _ acquired => acquired
  | working count => count
  | releasing left => left

def isAcquiring : Stream → Bool
  | acquiring _ _ => true
  | _ => false

/-- The most tokens a stream can hold while it still waits for more. -/
def mostWhileWaiting : Stream → ℕ
  | acquiring count _ => count - 1
  | _ => 0

end Stream

/-- The pool and the streams that use it. -/
structure FrameBudget (n : ℕ) where
  tokens : ℕ
  streams : Fin n → Stream

inductive FrameEvent (n : ℕ) where
  /-- a stream has read the length of a frame -/
  | readLength (i : Fin n) (size : ℕ)
  | takeToken (i : Fin n)
  /-- the frame was read and dispatched, or could not be -/
  | finish (i : Fin n)
  | giveBack (i : Fin n)

variable {n : ℕ}

namespace FrameBudget

def init : FrameBudget n := ⟨0, fun _ => .idle⟩

def set (b : FrameBudget n) (i : Fin n) (s : Stream) (tokens : ℕ) : FrameBudget n :=
  ⟨tokens, Function.update b.streams i s⟩

/-- One step of a stream. A frame of no bytes or above the limit of its stream ends the
stream before it takes a token. -/
def step (capacity : ℕ) (limit : Fin n → ℕ) : FrameEvent n → FrameBudget n → Option (FrameBudget n)
  | .readLength i size, b =>
    match b.streams i with
    | .idle =>
      if 0 < size ∧ size ≤ limit i then some (b.set i (.acquiring (frameTokens size) 0) b.tokens) else none
    | _ => none
  | .takeToken i, b =>
    match b.streams i with
    | .acquiring count acquired =>
      if b.tokens < capacity then
        some (b.set i (if acquired + 1 = count then .working count else .acquiring count (acquired + 1)) (b.tokens + 1))
      else none
    | _ => none
  | .finish i, b =>
    match b.streams i with
    | .working count => some (b.set i (.releasing count) b.tokens)
    | _ => none
  | .giveBack i, b =>
    match b.streams i with
    | .releasing (left + 1) =>
      some (b.set i (if left = 0 then .idle else .releasing left) (b.tokens - 1))
    | _ => none

def total (b : FrameBudget n) (f : Stream → ℕ) : ℕ := ∑ i, f (b.streams i)

/-- A stream waits for a token, there is none, and every token in use is held by a stream
that waits for more. -/
def Stuck (capacity : ℕ) (b : FrameBudget n) : Prop :=
  (∃ i, (b.streams i).isAcquiring) ∧ b.tokens = capacity ∧
    ∀ i, 0 < (b.streams i).held → (b.streams i).isAcquiring

/-- The frames that streams take tokens for, the next one included, cannot use up the pool
before one of them has all of its tokens. -/
def Modest (capacity : ℕ) : FrameEvent n → FrameBudget n → Prop
  | .readLength _ size, b => b.total Stream.mostWhileWaiting + (frameTokens size - 1) < capacity
  | _, _ => True

instance Modest.decidable (capacity : ℕ) : (e : FrameEvent n) → (b : FrameBudget n) → Decidable (Modest capacity e b)
  | .readLength _ size, b =>
    inferInstanceAs (Decidable (b.total Stream.mostWhileWaiting + (frameTokens size - 1) < capacity))
  | .takeToken _, _ | .finish _, _ | .giveBack _, _ => isTrue trivial

@[simp]
theorem streams_set_self (b : FrameBudget n) (i : Fin n) (s : Stream) (tokens : ℕ) :
    (b.set i s tokens).streams i = s := update_self ..

variable {i : Fin n}

theorem streams_set_of_ne (b : FrameBudget n) {j : Fin n} (h : j ≠ i) (s : Stream) (tokens : ℕ) :
    (b.set i s tokens).streams j = b.streams j := update_of_ne h ..

variable {size : ℕ}

theorem frameTokens_pos (h : 0 < size) : 0 < frameTokens size :=
  Nat.div_pos (by unfold frameBudgetUnit; omega) (by decide)

theorem total_set (b : FrameBudget n) (i : Fin n) (s : Stream) (tokens : ℕ) (f : Stream → ℕ) :
    (b.set i s tokens).total f + f (b.streams i) = b.total f + f s := by
  have hrest : ∑ j ∈ Finset.univ.erase i, f (Function.update b.streams i s j) =
      ∑ j ∈ Finset.univ.erase i, f (b.streams j) :=
    Finset.sum_congr rfl fun j hj => by rw [update_of_ne (Finset.ne_of_mem_erase hj)]
  have hnew := Finset.add_sum_erase Finset.univ (fun j => f (Function.update b.streams i s j)) (Finset.mem_univ i)
  have hold := Finset.add_sum_erase Finset.univ (fun j => f (b.streams j)) (Finset.mem_univ i)
  simp only [update_self] at hnew
  simp only [total, set]
  omega

theorem le_total (b : FrameBudget n) (f : Stream → ℕ) (i : Fin n) : f (b.streams i) ≤ b.total f :=
  Finset.single_le_sum (f := fun j => f (b.streams j)) (fun _ _ => Nat.zero_le _) (Finset.mem_univ i)

/-- The pool counts what the streams hold, within its capacity, and the waiting streams
cannot use it up. -/
structure Accounted (capacity : ℕ) (b : FrameBudget n) : Prop where
  tokens : b.tokens = b.total Stream.held
  bounded : b.tokens ≤ capacity
  wants : ∀ i count acquired, b.streams i = .acquiring count acquired → acquired < count
  modest : (∃ i, (b.streams i).isAcquiring) → b.total Stream.mostWhileWaiting < capacity

variable {capacity : ℕ}

theorem accounted_init : Accounted capacity (init : FrameBudget n) where
  tokens := by simp [init, total, Stream.held]
  bounded := Nat.zero_le _
  wants i count acquired h := by cases h
  modest := by rintro ⟨i, hi⟩; cases hi

section
variable {capacity : ℕ} {b : FrameBudget n} {i : Fin n} {s : Stream} {tokens : ℕ}

theorem Accounted.set (h : Accounted capacity b) (htokens : tokens + (b.streams i).held = b.tokens + s.held)
    (hbounded : tokens ≤ capacity) (hwants : ∀ count acquired, s = .acquiring count acquired → acquired < count)
    (hmodest : s.isAcquiring → b.total Stream.mostWhileWaiting + s.mostWhileWaiting <
      capacity + (b.streams i).mostWhileWaiting)
    (hless : s.isAcquiring = false → s.mostWhileWaiting ≤ (b.streams i).mostWhileWaiting) :
    Accounted capacity (b.set i s tokens) where
  tokens := by
    have hheld := total_set b i s tokens Stream.held
    have := h.tokens
    simp only [FrameBudget.set] at hheld ⊢
    omega
  bounded := hbounded
  wants j count acquired hj := by
    by_cases hji : j = i
    · subst hji
      rw [streams_set_self] at hj
      exact hwants count acquired hj
    · rw [streams_set_of_ne b hji] at hj
      exact h.wants j count acquired hj
  modest := by
    rintro ⟨j, hj⟩
    have htotal := total_set b i s tokens Stream.mostWhileWaiting
    cases hs : s.isAcquiring with
    | true =>
      have := hmodest hs
      omega
    | false =>
      -- the waiting stream is another one, so it waited before
      have hji : j ≠ i := by
        rintro rfl
        rw [streams_set_self, hs] at hj
        cases hj
      rw [streams_set_of_ne b hji] at hj
      have := h.modest ⟨j, hj⟩
      have := hless hs
      omega

theorem Accounted.step {limit : Fin n → ℕ} {e : FrameEvent n} {b' : FrameBudget n} (hok : Modest capacity e b)
    (h : Accounted capacity b) (hstep : FrameBudget.step capacity limit e b = some b') : Accounted capacity b' := by
  refine (?_ : Leads (FrameBudget.step capacity limit e b) (Accounted capacity)) b' hstep
  cases e with
  | readLength i size =>
    rw [FrameBudget.step]
    split
    next hi =>
      refine .guard fun hsize => h.set (by simp [hi, Stream.held]) h.bounded ?_ ?_ (by simp [Stream.isAcquiring])
      · rintro _ _ ⟨⟩
        exact frameTokens_pos hsize.1
      · intro _
        rw [hi]
        exact hok
    next => exact .none
  | takeToken i =>
    rw [FrameBudget.step]
    split
    next count acquired hi =>
      refine .ite (fun hroom => .some ?_) fun _ => .none
      split_ifs with hlast
      · refine h.set ?_ hroom (by simp) (by simp [Stream.isAcquiring]) (by simp [Stream.mostWhileWaiting])
        simp only [hi, Stream.held]
        omega
      · have hwants := h.wants i count acquired hi
        refine h.set ?_ hroom ?_ ?_ (by simp [Stream.isAcquiring])
        · simp only [hi, Stream.held]
          omega
        · rintro _ _ ⟨⟩
          omega
        · intro _
          have := h.modest ⟨i, by rw [hi]; rfl⟩
          simp only [hi, Stream.mostWhileWaiting]
          omega
    next => exact .none
  | finish i =>
    rw [FrameBudget.step]
    split
    next count hi =>
      exact .some (h.set (by simp [hi, Stream.held]) h.bounded (by simp) (by simp [Stream.isAcquiring])
        (by simp [Stream.mostWhileWaiting]))
    next => exact .none
  | giveBack i =>
    rw [FrameBudget.step]
    split
    next left hi =>
      have hle := le_total b Stream.held i
      have htokens := h.tokens
      simp only [hi, Stream.held] at hle
      refine .some (h.set ?_ ((Nat.sub_le _ _).trans h.bounded) ?_ ?_ ?_)
      · split_ifs with hleft <;> simp only [hi, Stream.held] <;> omega
      all_goals split_ifs <;> simp [Stream.isAcquiring, Stream.mostWhileWaiting]
    next => exact .none

/-- With every token held by a stream that waits, the waiting streams hold all of the pool,
which is more than they can. -/
theorem Accounted.not_stuck (h : Accounted capacity b) : ¬Stuck capacity b := by
  rintro ⟨hwaiting, hfull, hheld⟩
  have hmost : b.total Stream.held ≤ b.total Stream.mostWhileWaiting := by
    refine Finset.sum_le_sum fun i _ => ?_
    cases hi : b.streams i with
    | acquiring count acquired =>
      have := h.wants i count acquired hi
      simp only [Stream.held, Stream.mostWhileWaiting]
      omega
    | idle => simp [Stream.held]
    | working count =>
      have := hheld i
      rw [hi] at this
      simpa [Stream.held, Stream.isAcquiring, Stream.mostWhileWaiting] using this
    | releasing left =>
      have := hheld i
      rw [hi] at this
      simpa [Stream.held, Stream.isAcquiring, Stream.mostWhileWaiting] using this
  have := h.modest hwaiting
  have := h.tokens
  omega

end

/-- The pool is never overdrawn, all tokens are back when no stream works on a frame, and
the streams do not block each other, if the frames they start on are modest. -/
theorem frames_do_not_deadlock (n capacity : ℕ) (limit : Fin n → ℕ) (es : List (FrameEvent n)) (b : FrameBudget n)
    (hok : Throughout (step capacity limit) (Modest capacity) es init)
    (hrun : runMachine (step capacity limit) es init = some b) :
    b.tokens ≤ capacity ∧ ((∀ i, b.streams i = .idle) → b.tokens = 0) ∧ ¬Stuck capacity b := by
  have h : Accounted capacity b :=
    runMachine_keeps_of (fun _ _ _ he hb hstep => hb.step he hstep) hok accounted_init hrun
  refine ⟨h.bounded, fun hidle => ?_, h.not_stuck⟩
  rw [h.tokens]
  exact Finset.sum_eq_zero fun i _ => by rw [hidle i]; rfl

/-- Two streams with frames of three tokens, for a pool of five. -/
def twoFrames : List (FrameEvent 2) := [.readLength 0 196608, .takeToken 0, .readLength 1 196608, .takeToken 1,
  .takeToken 0, .takeToken 1, .takeToken 0, .finish 0, .giveBack 0]

theorem frames_do_not_deadlock_twoStreams :
    ∃ b, runMachine (step 5 fun _ => maxRaftFrameSize) twoFrames init = some b ∧
      b.tokens ≤ 5 ∧ ((∀ i, b.streams i = .idle) → b.tokens = 0) ∧ ¬Stuck 5 b := by
  obtain ⟨b, hb⟩ : ∃ b, runMachine (step 5 fun _ => maxRaftFrameSize) twoFrames init = some b :=
    isSome_iff_exists.mp (by decide +kernel)
  exact ⟨b, hb, frames_do_not_deadlock 2 5 _ twoFrames b (by decide +kernel) hb⟩

variable {b : FrameBudget n} {limit : Fin n → ℕ}

theorem run_takeTokens {count : ℕ} (k : ℕ) {acquired : ℕ}
    (hi : b.streams i = .acquiring count acquired) (hk : acquired + k < count) (hroom : b.tokens + k ≤ capacity) :
    runMachine (step capacity limit) (List.replicate k (.takeToken i)) b =
    some (b.set i (.acquiring count (acquired + k)) (b.tokens + k)) := by
  induction k generalizing acquired b with
  | zero => simp [runMachine, FrameBudget.set, ← hi]
  | succ k ih =>
    have hstep : step capacity limit (.takeToken i) b =
        some (b.set i (.acquiring count (acquired + 1)) (b.tokens + 1)) := by
      rw [step, hi]
      simp only
      rw [if_pos (by omega), if_neg (by omega)]
    rw [List.replicate_succ, runMachine, hstep, bind_some,
      ih (streams_set_self b i (.acquiring count (acquired + 1)) _) (by omega) (by simp only [FrameBudget.set]; omega)]
    simp only [FrameBudget.set, update_idem, Option.some.injEq, FrameBudget.mk.injEq]
    exact ⟨by omega, by rw [Nat.add_right_comm, Nat.add_assoc]⟩

theorem run_turn (k : ℕ) (hi : b.streams i = .idle) (hsize : 0 < size ∧ size ≤ limit i) (hk : k < frameTokens size)
    (hroom : b.tokens + k ≤ capacity) :
    runMachine (step capacity limit) (.readLength i size :: .replicate k (.takeToken i)) b =
    some (b.set i (.acquiring (frameTokens size) k) (b.tokens + k)) := by
  have hstep : step capacity limit (.readLength i size) b =
      some (b.set i (.acquiring (frameTokens size) 0) b.tokens) := by
    rw [step, hi]
    simp only
    rw [if_pos hsize]
  rw [runMachine, hstep, bind_some, run_takeTokens k (streams_set_self ..) (by omega) hroom]
  simp [FrameBudget.set, update_idem]

/-- Four streams, each with a frame of the largest size, take 1024 of the 1040 tokens that
they need: the pool of 4096 is empty and every token is held by a stream that waits. -/
theorem frames_deadlock_fourStreams : ∃ (es : List (FrameEvent 4)) (b : FrameBudget 4),
      runMachine (step (inboundFrameBudget / frameBudgetUnit) fun _ => maxRaftFrameSize) es init = some b ∧
        Stuck (inboundFrameBudget / frameBudgetUnit) b := by
  have hcap : inboundFrameBudget / frameBudgetUnit = 4096 := by decide
  have hsize : 0 < maxRaftFrameSize ∧ maxRaftFrameSize ≤ maxRaftFrameSize := ⟨by decide, le_rfl⟩
  have hneed : 1024 < frameTokens maxRaftFrameSize := by decide
  rw [hcap]
  let turn (i : Fin 4) : List (FrameEvent 4) := .readLength i maxRaftFrameSize :: .replicate 1024 (.takeToken i)
  let waiting : Stream := .acquiring (frameTokens maxRaftFrameSize) 1024
  let b1 : FrameBudget 4 := init.set 0 waiting 1024
  let b2 := b1.set 1 waiting 2048
  let b3 := b2.set 2 waiting 3072
  let b4 := b3.set 3 waiting 4096
  have h1 : runMachine (step 4096 fun _ => maxRaftFrameSize) (turn 0) init = some b1 :=
    run_turn 1024 rfl hsize hneed (by decide)
  have h2 : runMachine (step 4096 fun _ => maxRaftFrameSize) (turn 1) b1 = some b2 :=
    run_turn 1024 rfl hsize hneed (by decide)
  have h3 : runMachine (step 4096 fun _ => maxRaftFrameSize) (turn 2) b2 = some b3 :=
    run_turn 1024 rfl hsize hneed (by decide)
  have h4 : runMachine (step 4096 fun _ => maxRaftFrameSize) (turn 3) b3 = some b4 :=
    run_turn 1024 rfl hsize hneed (by decide)
  have hwaiting : ∀ i, b4.streams i = waiting := fun i => by fin_cases i <;> rfl
  refine ⟨turn 0 ++ (turn 1 ++ (turn 2 ++ turn 3)), b4, ?_, ⟨0, by rw [hwaiting]; rfl⟩, rfl, fun i _ =>
    by rw [hwaiting]; rfl⟩
  rw [runMachine_append, h1, bind_some, runMachine_append, h2, bind_some, runMachine_append, h3,
    bind_some, h4]

section
variable {b' : FrameBudget n} {e : FrameEvent n} (hstep : step capacity limit e b = some b')
  (h : ∀ i, (b.streams i).mostWhileWaiting ≤ frameTokens (limit i) - 1)
include hstep h

theorem mostWhileWaiting_step (j : Fin n) : (b'.streams j).mostWhileWaiting ≤ frameTokens (limit j) - 1 := by
  have hj := h j
  have hmono (size : ℕ) (hsize : size ≤ limit j) : frameTokens size ≤ frameTokens (limit j) :=
    Nat.div_le_div_right (by omega)
  cases e <;> simp only [step] at hstep <;> split at hstep <;>
    grind [streams_set_self, streams_set_of_ne, Stream.mostWhileWaiting]

theorem modest_of_step (hfit : ∑ i, (frameTokens (limit i) - 1) < capacity) : Modest capacity e b := by
  have hsum := Finset.sum_le_sum fun j (_ : j ∈ Finset.univ) => mostWhileWaiting_step hstep h j
  cases e with
  | readLength i size =>
    have htotal := total_set b i (.acquiring (frameTokens size) 0) b.tokens Stream.mostWhileWaiting
    grind [step, total, Modest, Stream.mostWhileWaiting]
  | _ => trivial

end

/-- Streams never block each other if the pool has more tokens than they can hold while they wait. -/
theorem limited_streams_never_stuck (n capacity : ℕ) (limit : Fin n → ℕ)
    (hfit : ∑ i, (frameTokens (limit i) - 1) < capacity) (es : List (FrameEvent n)) (b : FrameBudget n)
    (hrun : runMachine (step capacity limit) es init = some b) : ¬Stuck capacity b := by
  have h := runMachine_keeps
    (P := fun b => Accounted capacity b ∧ ∀ i, (b.streams i).mostWhileWaiting ≤ frameTokens (limit i) - 1)
    (fun _ _ _ hb hstep => ⟨hb.1.step (modest_of_step hstep hb.2 hfit) hstep, mostWhileWaiting_step hstep hb.2⟩)
    ⟨accounted_init, fun _ => Nat.zero_le _⟩ hrun
  exact h.1.not_stuck

/-- Three streams of messages, which are few enough, take tokens in turn. -/
def threeFrames : List (FrameEvent 3) := [.readLength 0 maxRaftFrameSize, .takeToken 0, .readLength 1 maxRaftFrameSize,
  .takeToken 1, .takeToken 0, .readLength 2 196608, .takeToken 2, .takeToken 2, .takeToken 2, .finish 2]

theorem limited_streams_never_stuck_three : ∃ b,
    runMachine (step (inboundFrameBudget / frameBudgetUnit) fun _ => maxRaftFrameSize) threeFrames init = some b ∧
      ¬Stuck (inboundFrameBudget / frameBudgetUnit) b := by
  obtain ⟨b, hb⟩ : ∃ b, runMachine (step (inboundFrameBudget / frameBudgetUnit) fun _ => maxRaftFrameSize)
      threeFrames init = some b := isSome_iff_exists.mp (by decide +kernel)
  exact ⟨b, hb, limited_streams_never_stuck 3 _ _ (by decide) threeFrames b hb⟩

end FrameBudget

end Armada.Transport
