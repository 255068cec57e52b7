import Armada.Program.Fallible

/-! What holds of the result of a fallible computation if it has one, and the rules to
establish it along the computation. -/

namespace Armada.Program

variable {ε α β : Type}

/-- A result satisfies `P`. Nothing is said about failures. -/
def Yields (x : Except ε α) (P : α → Prop) : Prop := ∀ a, x = .ok a → P a

namespace Yields

variable {P Q : α → Prop} {R : β → Prop} {x y : Except ε α}

theorem ok {a : α} (h : P a) : Yields (.ok a : Except ε α) P := by
  intro b hb
  cases hb
  exact h

theorem error (e : ε) : Yields (.error e : Except ε α) P := fun _ h => nomatch h

theorem mono (h : Yields x P) (hPQ : ∀ a, P a → Q a) : Yields x Q := fun a ha => hPQ a (h a ha)

theorem bind {f : α → Except ε β} (hx : Yields x P) (hf : ∀ a, P a → Yields (f a) R) : Yields (x >>= f) R := by
  intro b hb
  obtain ⟨a, ha, hfa⟩ := bind_eq_ok_iff.mp hb
  exact hf a (hx a ha) b hfa

/-- The first part has no influence on what the rest yields. -/
theorem skip {f : α → Except ε β} (hf : ∀ a, Yields (f a) R) : Yields (x >>= f) R :=
  bind (fun _ _ => trivial : Yields x fun _ => True) fun a _ => hf a

theorem ite {c : Prop} [Decidable c] (hx : c → Yields x P) (hy : ¬ c → Yields y P) : Yields (if c then x else y) P := by
  by_cases h : c
  · rw [if_pos h]
    exact hx h
  · rw [if_neg h]
    exact hy h

end Yields

end Armada.Program
