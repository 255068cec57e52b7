import Mathlib.Control.Lawful
import Mathlib.Data.Nat.Notation
import Armada.Program.Machine

/-! Procedures whose operations may fail, take effect without their caller learning of it, or be
cut short by a crash. What becomes of each operation is written in a script; a procedure crashes
where its script ends, so every script covers every crash point and every pattern of failures.
-/

namespace Armada.Program

variable {σ α β : Type}

/-- Why a procedure came to no result. Only failures can be handled. -/
inductive Stop where
  | crashed
  | failed (err : String)

structure World (σ : Type) where
  state : σ
  script : List Answer

abbrev Proc (σ α : Type) := ExceptT Stop (StateM (World σ)) α

namespace Proc

/-- One operation on the state, which may also fail for a reason of its own. -/
def perform (f : σ → Except String (α × σ)) : Proc σ α := fun w =>
  match w.script, f w.state with
  | [], _ => (.error .crashed, w)
  | .ok :: rest, .ok (a, s) => (.ok a, ⟨s, rest⟩)
  | .ok :: rest, .error e => (.error (.failed e), ⟨w.state, rest⟩)
  | .failed :: rest, _ => (.error (.failed "i/o error"), ⟨w.state, rest⟩)
  | .lost :: rest, .ok (_, s) => (.error (.failed "i/o error"), ⟨s, rest⟩)
  | .lost :: rest, .error _ => (.error (.failed "i/o error"), ⟨w.state, rest⟩)

/-- An operation that only changes the state. -/
def change (f : σ → Except String σ) : Proc σ Unit := perform fun s => (f s).map ((), ·)

/-- An operation that only reads the state. -/
def ask (f : σ → Except String α) : Proc σ α := perform fun s => (f s).map (·, s)

def fail (err : String) : Proc σ α := fun w => (.error (.failed err), w)

def refuse (b : Bool) (err : String) : Proc σ Unit := if b then fail err else pure ()

/-- The outcome of a procedure that is allowed to fail. -/
def attempt (p : Proc σ α) : Proc σ (Except String α) := fun w =>
  match p w with
  | (.ok a, w) => (.ok (.ok a), w)
  | (.error (.failed e), w) => (.ok (.error e), w)
  | (.error .crashed, w) => (.error .crashed, w)

def resume : Except String α → Proc σ α
  | .ok a => pure a
  | .error e => fail e

/-- A result comes with `Q`, a failure or a crash with `E`. -/
def Ends (Q : α → σ → Prop) (E : σ → Prop) : Except Stop α × World σ → Prop
  | (.ok a, w) => Q a w.state
  | (.error _, w) => E w.state

variable {w : World σ} {E : σ → Prop} {Q : α → σ → Prop}

@[simp]
theorem ends_ok {a : α} : Ends Q E (.ok a, w) ↔ Q a w.state := Iff.rfl

@[simp]
theorem ends_error {e : Stop} : Ends Q E (.error e, w) ↔ E w.state := Iff.rfl

/-- From a state with `P`, a result leaves `Q` and a failure or a crash leaves `E`. -/
def Triple (P : σ → Prop) (p : Proc σ α) (Q : α → σ → Prop) (E : σ → Prop) : Prop :=
  ∀ w, P w.state → Ends Q E (p w)

theorem bind_apply (p : Proc σ α) (f : α → Proc σ β) (w : World σ) :
    (p >>= f) w = ExceptT.bindCont f (p w).1 (p w).2 := rfl

namespace Triple

variable {P P' : σ → Prop} {Q Q' : α → σ → Prop} {E E' : σ → Prop} {p : Proc σ α}

/-- What holds of the state after a procedure. -/
theorem after {R : σ → Prop} (h : Triple P p (fun _ => R) R) (w : World σ) (hw : P w.state) : R (p w).2.state := by
  have hp : Ends (fun _ => R) R (p w) := h w hw
  revert hp
  match p w with
  | (.ok _, _) => exact id
  | (.error _, _) => exact id

/-- What holds where a procedure returns. -/
theorem returned (h : Triple P p Q E) {w : World σ} {a : α} (hw : P w.state) (hok : (p w).1 = .ok a) :
    Q a (p w).2.state := by
  have hp : Ends Q E (p w) := h w hw
  revert hp hok
  match p w with
  | (.ok b, w') =>
    intro hok hp
    cases hok
    exact hp
  | (.error _, w') => exact fun hok => nomatch hok

theorem mono (h : Triple P p Q E) (hP : ∀ s, P' s → P s) (hQ : ∀ a s, Q a s → Q' a s)
    (hE : ∀ s, E s → E' s) : Triple P' p Q' E' := by
  intro w hw
  have hp : Ends Q E (p w) := h w (hP _ hw)
  revert hp
  match p w with
  | (.ok a, _) => exact hQ a _
  | (.error _, _) => exact hE _

theorem pure (a : α) (h : ∀ s, P s → Q a s) : Triple P (pure a) Q E := fun _ hw => h _ hw

theorem fail (err : String) (h : ∀ s, P s → E s) : Triple P (Proc.fail err) Q E := fun _ hw => h _ hw

theorem refuse (b : Bool) (err : String) {Q : Unit → σ → Prop} (hQ : ∀ s, P s → Q () s) (hE : ∀ s, P s → E s) :
    Triple P (refuse b err) Q E := by
  cases b with
  | true => exact fail err hE
  | false => exact pure () hQ

theorem bind {R : β → σ → Prop} {f : α → Proc σ β} (hp : Triple P p Q E)
    (hf : ∀ a, Triple (Q a) (f a) R E) : Triple P (p >>= f) R E := by
  intro w hw
  have hpw : Ends Q E (p w) := hp w hw
  rw [bind_apply]
  revert hpw
  match p w with
  | (.ok a, w') => exact hf a w'
  | (.error _, _) => exact id

theorem perform {f : σ → Except String (α × σ)} (hE : ∀ s, P s → E s)
    (hf : ∀ s a s', P s → f s = .ok (a, s') → Q a s' ∧ E s') : Triple P (perform f) Q E := by
  intro w hw
  obtain ⟨s, script⟩ := w
  match script, hfs : f s with
  | [], _ => exact hE s hw
  | .ok :: rest, .ok (a, s') => simpa [Proc.perform, hfs] using (hf s a s' hw hfs).1
  | .ok :: rest, .error e => simpa [Proc.perform, hfs] using hE s hw
  | .failed :: rest, _ => simpa [Proc.perform, hfs] using hE s hw
  | .lost :: rest, .ok (a, s') => simpa [Proc.perform, hfs] using (hf s a s' hw hfs).2
  | .lost :: rest, .error e => simpa [Proc.perform, hfs] using hE s hw

theorem change {f : σ → Except String σ} {Q : Unit → σ → Prop} (hE : ∀ s, P s → E s)
    (hf : ∀ s s', P s → f s = .ok s' → Q () s' ∧ E s') : Triple P (change f) Q E := by
  refine perform hE fun s a s' hs h => ?_
  obtain ⟨t, ht, rfl⟩ : ∃ t, f s = .ok t ∧ t = s' := by
    cases hfs : f s with
    | error e => simp [hfs, Except.map] at h
    | ok t => exact ⟨t, rfl, by simpa [hfs, Except.map] using h⟩
  exact hf s t hs ht

theorem ask {f : σ → Except String α} (hE : ∀ s, P s → E s) (hf : ∀ s a, P s → f s = .ok a → Q a s) :
    Triple P (ask f) Q E := by
  refine perform hE fun s a s' hs h => ?_
  obtain ⟨hfs, rfl⟩ : f s = .ok a ∧ s = s' := by
    cases hfs : f s with
    | error e => simp [hfs, Except.map] at h
    | ok b => simpa [hfs, Except.map] using h
  exact ⟨hf s a hs hfs, hE s hs⟩

theorem attempt (h : Triple P p Q E) :
    Triple P (attempt p) (fun r s => match r with | .ok a => Q a s | .error _ => E s) E := by
  intro w hw
  have hp : Ends Q E (p w) := h w hw
  unfold Proc.attempt
  revert hp
  match p w with
  | (.ok a, w') => exact id
  | (.error .crashed, w') => exact id
  | (.error (.failed _), w') => exact id

theorem resume {r : Except String α} (hok : ∀ a s, r = .ok a → P s → Q a s) (hE : ∀ s, P s → E s) :
    Triple P (resume r) Q E := by
  cases r with
  | ok a => exact pure a fun s => hok a s rfl
  | error e => exact fail e hE

/-- A fact that has nothing to do with the state. -/
theorem given {φ : Prop} (h : φ → Triple P p Q E) : Triple (fun s => P s ∧ φ) p Q E :=
  fun w hw => h hw.2 w hw.1

end Triple

/-- What holds before holds after, whatever becomes of the procedure. -/
def Preserves (I : σ → Prop) (p : Proc σ α) : Prop := Triple I p (fun _ => I) I

namespace Preserves

variable {I : σ → Prop} {p : Proc σ α}

theorem after (h : Preserves I p) (w : World σ) (hw : I w.state) : I (p w).2.state := Triple.after h w hw

theorem pure (a : α) : Preserves I (Pure.pure a : Proc σ α) := Triple.pure a fun _ => id

theorem fail (err : String) : Preserves I (Proc.fail err : Proc σ α) := Triple.fail err fun _ => id

theorem refuse (b : Bool) (err : String) : Preserves I (Proc.refuse b err) := by
  cases b with
  | true => exact fail err
  | false => exact pure ()

theorem bind {f : α → Proc σ β} (hp : Preserves I p) (hf : ∀ a, Preserves I (f a)) : Preserves I (p >>= f) :=
  Triple.bind hp hf

theorem change {f : σ → Except String σ} (h : ∀ s s', I s → f s = .ok s' → I s') : Preserves I (Proc.change f) :=
  Triple.change (fun _ => id) fun s s' hs hf => ⟨h s s' hs hf, h s s' hs hf⟩

theorem ask (f : σ → Except String α) : Preserves I (Proc.ask f) := Triple.ask (fun _ => id) fun _ _ hs _ => hs

theorem attempt (h : Preserves I p) : Preserves I (Proc.attempt p) :=
  (Triple.attempt h).mono (fun _ => id) (fun r _ hr => by cases r <;> exact hr) fun _ => id

theorem resume (r : Except String α) : Preserves I (Proc.resume r) :=
  Triple.resume (fun _ _ _ => id) fun _ => id

theorem forM {f : β → Proc σ PUnit} {bs : List β} (h : ∀ b ∈ bs, Preserves I (f b)) : Preserves I (bs.forM f) := by
  induction bs with
  | nil => exact pure _
  | cons b bs ih =>
    rw [List.forall_mem_cons] at h
    exact h.1.bind fun _ => ih h.2

end Preserves

/-! ### Scripts without a failure -/

/-- When none of the first `k` answers is a failure, the procedure takes these and returns
from a state with `P` to one with `Q`, unless the script ends before. -/
def Smooth (P : σ → Prop) (k : ℕ) (p : Proc σ α) (Q : σ → Prop) : Prop :=
  ∀ w, P w.state → (∀ a ∈ w.script.take k, a = .ok) → (p w).1 = .error .crashed ∨
    ∃ a s, p w = (.ok a, ⟨s, w.script.drop k⟩) ∧ Q s

namespace Smooth

variable {P Q R : σ → Prop} {k j : ℕ} {p : Proc σ α}

theorem pure (a : α) (h : ∀ s, P s → Q s) : Smooth P 0 (Pure.pure a : Proc σ α) Q :=
  fun w hw _ => .inr ⟨a, w.state, rfl, h w.state hw⟩

theorem perform {f : σ → Except String (α × σ)} (hf : ∀ s, P s → ∃ a s', f s = .ok (a, s') ∧ Q s') :
    Smooth P 1 (perform f) Q := by
  rintro ⟨s, script⟩ hs hscript
  cases script with
  | nil => exact .inl rfl
  | cons answer rest =>
    obtain rfl : answer = .ok := hscript answer (by simp)
    obtain ⟨a, s', hfs, hQ⟩ := hf s hs
    exact .inr ⟨a, s', by simp [Proc.perform, hfs], hQ⟩

theorem bind {f : α → Proc σ β} (hp : Smooth P k p Q) (hf : ∀ a, Smooth Q j (f a) R) :
    Smooth P (k + j) (p >>= f) R := by
  intro w hw hscript
  rw [List.take_add] at hscript
  rw [bind_apply]
  rcases hp w hw fun a ha => hscript a (List.mem_append_left _ ha) with hcrash | ⟨a, s, hpw, hQ⟩
  · revert hcrash
    match p w with
    | (.error _, w') =>
      intro hcrash
      cases hcrash
      exact .inl rfl
    | (.ok _, w') => exact fun hcrash => nomatch hcrash
  · rw [hpw]
    rw [← List.drop_drop]
    exact hf a ⟨s, w.script.drop k⟩ hQ fun a ha => hscript a (List.mem_append_right _ ha)

end Smooth

end Proc

end Armada.Program
