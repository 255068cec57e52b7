import Armada.Ordered.Bytes

/-! What the consensus core and its log store exchange: log entries, the state a replica
keeps across restarts, snapshots by their position, and updates. -/

namespace Armada.Raft

open Ordered List

inductive EntryType where
  | application
  | configChange
  | metadata
  deriving DecidableEq

structure Entry where
  index : ℕ
  term : ℕ
  type : EntryType
  cmd : Bytes
  deriving DecidableEq

/-- The part of a replica's state that it must find again after a restart. -/
structure State where
  term : ℕ
  vote : ℕ
  commit : ℕ
  deriving DecidableEq

def emptyState : State := ⟨0, 0, 0⟩

/-- The replicas of a shard: voters with a state machine, learners, and voters without one. -/
structure Membership where
  addresses : List ℕ
  nonVotings : List ℕ
  witnesses : List ℕ
  deriving DecidableEq

/-- A snapshot by the index and the term of the last entry it holds and the membership there. -/
structure Snapshot where
  index : ℕ
  term : ℕ
  membership : Membership
  deriving DecidableEq

def emptySnapshot : Snapshot := ⟨0, 0, ⟨[], [], []⟩⟩

def Snapshot.isEmpty (ss : Snapshot) : Bool := ss.index = 0

/-- The entries have consecutive indexes from `first` on. -/
def Consecutive : ℕ → List Entry → Prop
  | _, [] => True
  | first, e :: es => e.index = first ∧ Consecutive (first + 1) es

instance Consecutive.decidable : (first : ℕ) → (es : List Entry) → Decidable (Consecutive first es)
  | _, [] => isTrue trivial
  | first, e :: es =>
    have : Decidable (Consecutive (first + 1) es) := Consecutive.decidable (first + 1) es
    inferInstanceAs (Decidable (e.index = first ∧ Consecutive (first + 1) es))

section
variable {first : ℕ} {es es' : List Entry}

theorem consecutive_iff : Consecutive first es ↔ ∀ k, (h : k < es.length) → es[k].index = first + k := by
  induction es generalizing first with
  | nil => simp [Consecutive]
  | cons e es ih =>
    rw [Consecutive, ih]
    constructor
    · rintro ⟨he, hes⟩ k hk
      cases k with
      | zero => exact he
      | succ k =>
        have := hes k (by simpa using hk)
        simp only [getElem_cons_succ]
        omega
    · intro h
      refine ⟨h 0 (by simp), fun k hk => ?_⟩
      have := h (k + 1) (by simpa using hk)
      simp only [getElem_cons_succ] at this
      omega

theorem consecutive_append :
    Consecutive first (es ++ es') ↔ Consecutive first es ∧ Consecutive (first + es.length) es' := by
  induction es generalizing first with
  | nil => simp [Consecutive]
  | cons e es ih => simp only [cons_append, Consecutive, ih, length_cons, and_assoc, Nat.add_assoc, Nat.add_comm 1]

theorem Consecutive.take (h : Consecutive first es) (n : ℕ) : Consecutive first (es.take n) := by
  rw [← take_append_drop n es, consecutive_append] at h
  exact h.1

theorem Consecutive.drop (h : Consecutive first es) {n : ℕ} (hn : n ≤ es.length) :
    Consecutive (first + n) (es.drop n) := by
  rw [← take_append_drop n es, consecutive_append, length_take, Nat.min_eq_left hn] at h
  exact h.2

end

end Armada.Raft
