import Mathlib.Data.List.Forall2

/-! Fallible computations side by side. Two runs agree when they fail alike or when
both succeed with related outcomes; agreement composes along the steps of two
programs of the same shape. -/

namespace Armada.Program

open List

variable {ε α β γ δ : Type}

@[simp]
theorem ok_bind (a : α) (f : α → Except ε β) : (Except.ok a >>= f) = f a := rfl

@[simp]
theorem error_bind (e : ε) (f : α → Except ε β) : (Except.error e >>= f) = .error e := rfl

variable {x : Except ε α}

theorem bind_eq_ok_iff {f : α → Except ε β} {b : β} : (x >>= f) = .ok b ↔ ∃ a, x = .ok a ∧ f a = .ok b := by
  cases x with
  | error e => simp
  | ok a => simp

variable {a : α}

theorem toOption_eq_some : x.toOption = some a ↔ x = .ok a := by
  cases x <;> simp [Except.toOption]

theorem pure_eq_ok_iff {b : α} : (pure a : Except ε α) = .ok b ↔ a = b :=
  ⟨fun h => Except.ok.inj h, fun h => congrArg _ h⟩

theorem map_eq_ok_iff {g : α → β} {b : β} : (x >>= fun a => pure (g a)) = .ok b ↔ ∃ a, x = .ok a ∧ g a = b := by
  simp only [bind_eq_ok_iff, pure_eq_ok_iff]

/-- Both fail with the same error, or both succeed with outcomes related by `Q`. -/
def Agree (Q : α → β → Prop) : Except ε α → Except ε β → Prop
  | .ok a, .ok b => Q a b
  | .error e, .error e' => e = e'
  | _, _ => False

section
variable {Q : α → β → Prop}

variable {b : β} {a : α}

@[simp]
theorem agree_ok : Agree Q (.ok a : Except ε α) (.ok b) ↔ Q a b := Iff.rfl

@[simp]
theorem agree_error {e e' : ε} : Agree Q (.error e) (.error e') ↔ e = e' := Iff.rfl

@[simp]
theorem agree_pure : Agree Q (pure a : Except ε α) (pure b) ↔ Q a b := Iff.rfl

variable {y : Except ε β} {x : Except ε α}

/-- Agreement of two programs step by step. -/
theorem Agree.bind {R : γ → δ → Prop} {f : α → Except ε γ} {g : β → Except ε δ} (hxy : Agree Q x y)
    (hfg : ∀ a b, x = .ok a → y = .ok b → Q a b → Agree R (f a) (g b)) : Agree R (x >>= f) (y >>= g) := by
  cases x with
  | error e => cases y with
    | error e' => exact hxy
    | ok b => exact hxy.elim
  | ok a => cases y with
    | error e' => exact hxy.elim
    | ok b => exact hfg a b rfl rfl hxy

theorem Agree.mono {R : α → β → Prop} (h : Agree Q x y) (hQR : ∀ a b, Q a b → R a b) : Agree R x y := by
  cases x <;> cases y <;> simp_all [Agree]

theorem Agree.ok_left (h : Agree Q (.ok a) y) : ∃ b, y = .ok b ∧ Q a b := by
  cases y with
  | error e => exact h.elim
  | ok b => exact ⟨b, rfl, h⟩

theorem Agree.ok_right (h : Agree Q x (.ok b)) : ∃ a, x = .ok a ∧ Q a b := by
  cases x with
  | error e => exact h.elim
  | ok a => exact ⟨a, rfl, h⟩

end

theorem Agree.eq {y : Except ε α} (h : Agree Eq x y) : x = y := by
  cases x <;> cases y <;> simp_all [Agree]

variable {y : Except ε β} {Q : α → β → Prop}

theorem Agree.symm (h : Agree Q x y) : Agree (fun b a => Q a b) y x := by
  cases x <;> cases y <;> simp_all [Agree]

theorem Agree.trans {R : β → γ → Prop} {z : Except ε γ} (hxy : Agree Q x y) (hyz : Agree R y z) :
    Agree (fun a c => ∃ b, Q a b ∧ R b c) x z := by
  cases x <;> cases y <;> cases z <;> simp_all [Agree]
  exact ⟨_, hxy, hyz⟩

/-! ### A list of steps

A step takes a state to a result and a new state, or fails. -/

section
variable {σ τ : Type} {f : α → σ → Except ε (β × σ)}

/-- One step for each element, in order. -/
def runAll (f : α → σ → Except ε (β × σ)) : List α → σ → Except ε (List β × σ)
  | [], x => .ok ([], x)
  | a :: as, x => do
    let r ← f a x
    let rs ← runAll f as r.2
    return (r.1 :: rs.1, rs.2)

/-- Every element meets `ok` in the state its step starts from. -/
def Along (ok : α → σ → Prop) (f : α → σ → Except ε (β × σ)) : List α → σ → Prop
  | [], _ => True
  | a :: as, x => ok a x ∧ ∀ r, f a x = .ok r → Along ok f as r.2

theorem runAll_cons_iff {a : α} {as : List α} {x : σ} {b : List β × σ} : runAll f (a :: as) x = .ok b ↔
    ∃ r, f a x = .ok r ∧ ∃ rs, runAll f as r.2 = .ok rs ∧ (r.1 :: rs.1, rs.2) = b := by
  simp only [runAll, bind_eq_ok_iff, pure_eq_ok_iff]

theorem runAll_append (as bs : List α) (x : σ) : runAll f (as ++ bs) x = do
      let rs ← runAll f as x
      let rs' ← runAll f bs rs.2
      return (rs.1 ++ rs'.1, rs'.2) := by
  induction as generalizing x with
  | nil => simp [runAll]
  | cons a as ih => simp [runAll, ih, bind_assoc]

variable {as : List α} {ok : α → σ → Prop}

theorem Along.of_forall (h : ∀ a ∈ as, ∀ x, ok a x) (x : σ) : Along ok f as x := by
  induction as generalizing x with
  | nil => trivial
  | cons a as ih =>
    rw [forall_mem_cons] at h
    exact ⟨h.1 x, fun r _ => ih h.2 r.2⟩

variable {x : σ}

theorem Along.append {bs : List α} : Along ok f (as ++ bs) x ↔
    Along ok f as x ∧ ∀ r, runAll f as x = .ok r → Along ok f bs r.2 := by
  induction as generalizing x with
  | nil => simp [Along, runAll]
  | cons a as ih =>
    simp only [cons_append, Along, ih, runAll, bind_eq_ok_iff, pure_eq_ok_iff, and_assoc, and_congr_right_iff]
    intro _
    constructor
    · intro h
      refine ⟨fun r hr => (h r hr).1, ?_⟩
      rintro _ ⟨r, hr, rs, hrs, rfl⟩
      exact (h r hr).2 rs hrs
    · exact fun h r hr => ⟨h.1 r hr, fun rs hrs => h.2 (r.1 :: rs.1, rs.2) ⟨r, hr, rs, hrs, rfl⟩⟩

variable {I : σ → Prop}

/-- A list of steps succeeds when each does, where an invariant holds that they keep. -/
theorem runAll_ok (h : ∀ a ∈ as, ∀ x, I x → ∃ r, f a x = .ok r ∧ I r.2)
    (hx : I x) : ∃ rs, runAll f as x = .ok rs ∧ I rs.2 := by
  induction as generalizing x with
  | nil => exact ⟨_, rfl, hx⟩
  | cons a as ih =>
    rw [forall_mem_cons] at h
    obtain ⟨r, hr, hI⟩ := h.1 x hx
    obtain ⟨rs, hrs, hIs⟩ := ih h.2 hI
    exact ⟨(r.1 :: rs.1, rs.2), by rw [runAll, hr, ok_bind, hrs]; rfl, hIs⟩

/-- Two lists of steps agree when, from related states, each step agrees with its
counterpart and leaves related states. -/
theorem runAll_agree {R : σ → τ → Prop} {V : β → γ → Prop} {g : α → τ → Except ε (γ × τ)}
    (hstep : ∀ a ∈ as, ∀ x y, R x y → ok a x → Agree (fun r r' => V r.1 r'.1 ∧ R r.2 r'.2) (f a x) (g a y))
    {y : τ} (hxy : R x y) (hok : Along ok f as x) :
    Agree (fun r r' => List.Forall₂ V r.1 r'.1 ∧ R r.2 r'.2) (runAll f as x) (runAll g as y) := by
  induction as generalizing x y with
  | nil => exact ⟨.nil, hxy⟩
  | cons a as ih =>
    rw [forall_mem_cons] at hstep
    refine (hstep.1 x y hxy hok.1).bind fun r r' hr _ h => ?_
    refine (ih hstep.2 h.2 (hok.2 r hr)).bind fun rs rs' _ _ hs => ?_
    exact ⟨.cons h.1 hs.1, hs.2⟩

/-- What every step keeps holds along the whole list and after it. -/
theorem Along.of_invariant (hstep : ∀ a ∈ as, ∀ x, I x → ok a x ∧ ∀ r, f a x = .ok r → I r.2) (hx : I x) :
    Along ok f as x ∧ ∀ rs, runAll f as x = .ok rs → I rs.2 := by
  induction as generalizing x with
  | nil => exact ⟨trivial, fun rs hrs => by cases hrs; exact hx⟩
  | cons a as ih =>
    rw [forall_mem_cons] at hstep
    obtain ⟨hok, hkeep⟩ := hstep.1 x hx
    refine ⟨⟨hok, fun r hr => (ih hstep.2 (hkeep r hr)).1⟩, fun rs hrs => ?_⟩
    obtain ⟨r, hr, tail, htail, rfl⟩ := runAll_cons_iff.mp hrs
    exact (ih hstep.2 (hkeep r hr)).2 tail htail

instance Along.decidable {ok : α → σ → Prop} [∀ a x, Decidable (ok a x)] :
    (as : List α) → (x : σ) → Decidable (Along ok f as x)
  | [], _ => isTrue trivial
  | a :: as, x =>
    match h : f a x with
    | .error _ => decidable_of_iff (ok a x) (by simp [Along, h])
    | .ok r =>
      have : Decidable (Along ok f as r.2) := Along.decidable as r.2
      decidable_of_iff (ok a x ∧ Along ok f as r.2) (by simp [Along, h])

/-- What every step keeps, the list keeps. -/
theorem runAll_keeps (hstep : ∀ a ∈ as, ∀ x, I x → ∀ r, f a x = .ok r → I r.2)
    (hx : I x) {rs : List β × σ} (hrun : runAll f as x = .ok rs) : I rs.2 := by
  have hall : Along (fun _ _ => True) f as x ∧ ∀ rs, runAll f as x = .ok rs → I rs.2 :=
    Along.of_invariant (fun a ha x hx => ⟨trivial, hstep a ha x hx⟩) hx
  exact hall.2 rs hrun

end

end Armada.Program
