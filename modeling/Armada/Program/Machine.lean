import Mathlib.Data.Option.Basic

/-! Machines that take one event at a time. An event may be impossible in a state; what
every possible event preserves holds after every run, and so does what is preserved by
the events that meet a condition on the state they find. -/

namespace Armada.Program

/-- What comes of a call: it may take effect without its caller learning of it. -/
inductive Answer where
  | ok
  | failed
  | lost
  deriving DecidableEq

/-! ### One event -/

section
variable {α β : Type} {P : α → Prop} {Q : β → Prop} {x y : Option α} {a : α} {c : Prop} [Decidable c]

/-- Where an event leads, if it is possible, satisfies `P`. -/
def Leads (x : Option α) (P : α → Prop) : Prop := ∀ a, x = some a → P a

theorem Leads.some (h : P a) : Leads (some a) P := by
  intro b hb
  cases hb
  exact h

theorem Leads.none : Leads Option.none P := fun _ h => nomatch h

theorem Leads.ite (hx : c → Leads x P) (hy : ¬ c → Leads y P) : Leads (if c then x else y) P := by
  by_cases h : c
  · rw [if_pos h]
    exact hx h
  · rw [if_neg h]
    exact hy h

theorem Leads.guard (h : c → P a) : Leads (if c then Option.some a else Option.none) P :=
  ite (fun hc => .some (h hc)) fun _ => .none

theorem Leads.unless (h : ¬ c → P a) : Leads (if c then Option.none else Option.some a) P :=
  ite (fun _ => .none) fun hc => .some (h hc)

theorem Leads.bind {f : α → Option β} (h : ∀ a, x = Option.some a → Leads (f a) Q) : Leads (x >>= f) Q := by
  intro b hb
  obtain ⟨a, ha, hb⟩ := Option.bind_eq_some_iff.mp hb
  exact h a ha b hb

theorem Leads.map {f : α → β} (h : ∀ a, x = Option.some a → Q (f a)) : Leads (x.map f) Q := by
  intro b hb
  obtain ⟨a, ha, rfl⟩ := Option.map_eq_some_iff.mp hb
  exact h a ha

end

/-! ### Runs -/

variable {ε σ : Type*} (step : ε → σ → Option σ)

/-- The state after a list of events, if all of them were possible. -/
def runMachine : List ε → σ → Option σ
  | [], s => some s
  | e :: es, s => (step e s).bind (runMachine es)

/-- Every event meets `ok` in the state it finds. -/
def Throughout (ok : ε → σ → Prop) : List ε → σ → Prop
  | [], _ => True
  | e :: es, s => ok e s ∧ ∀ s', step e s = some s' → Throughout ok es s'

variable {step}

theorem runMachine_append (es es' : List ε) (s : σ) :
    runMachine step (es ++ es') s = (runMachine step es s).bind (runMachine step es') := by
  induction es generalizing s with
  | nil => rfl
  | cons e es ih => simp only [List.cons_append, runMachine, Option.bind_assoc, ih]

variable {s : σ} {es : List ε}

theorem runMachine_concat {e : ε} {s1 s2 : σ} (hrun : runMachine step es s = some s1)
    (h : step e s1 = some s2) : runMachine step (es ++ [e]) s = some s2 := by
  rw [runMachine_append, hrun]
  simp [runMachine, h]

variable {ok : ε → σ → Prop}

variable {s' : σ} {P : σ → Prop}

/-- A run keeps what its events keep. -/
theorem runMachine_keeps_of (hstep : ∀ e s s', ok e s → P s → step e s = some s' → P s')
    (hok : Throughout step ok es s) (hs : P s) (hrun : runMachine step es s = some s') : P s' := by
  induction es generalizing s with
  | nil => exact Option.some.inj hrun ▸ hs
  | cons e es ih =>
    obtain ⟨t, ht, hrest⟩ := Option.bind_eq_some_iff.mp hrun
    exact ih (hok.2 t ht) (hstep e s t hok.1 hs ht) hrest

/-- What follows from an invariant holds all along a run that keeps it. -/
theorem Throughout.of_keeps {prop : ε → σ → Prop}
    (hstep : ∀ e s s', ok e s → P s → step e s = some s' → P s') (hprop : ∀ e s, ok e s → P s → prop e s)
    (hok : Throughout step ok es s) (hs : P s) : Throughout step prop es s := by
  induction es generalizing s with
  | nil => trivial
  | cons e es ih => exact ⟨hprop e s hok.1 hs, fun t ht => ih (hok.2 t ht) (hstep e s t hok.1 hs ht)⟩

/-- A condition that the events of a run meet in any state. -/
theorem throughout_of_forall (h : ∀ e ∈ es, ∀ s, ok e s) (s : σ) : Throughout step ok es s := by
  induction es generalizing s with
  | nil => trivial
  | cons e es ih =>
    exact ⟨h e (List.mem_cons_self ..) s, fun t _ => ih (fun e' he' => h e' (List.mem_cons_of_mem _ he')) t⟩

theorem throughout_true (es : List ε) (s : σ) : Throughout step (fun _ _ => True) es s :=
  throughout_of_forall (fun _ _ _ => trivial) s

theorem runMachine_keeps (hstep : ∀ e s s', P s → step e s = some s' → P s')
    (hs : P s) (hrun : runMachine step es s = some s') : P s' :=
  runMachine_keeps_of (fun e s s' _ => hstep e s s') (throughout_true es s) hs hrun

instance Throughout.decidable {ok : ε → σ → Prop} [∀ e s, Decidable (ok e s)] :
    (es : List ε) → (s : σ) → Decidable (Throughout step ok es s)
  | [], _ => isTrue trivial
  | e :: es, s =>
    match h : step e s with
    | none =>
      decidable_of_iff (ok e s) ⟨fun ho => ⟨ho, fun t ht => by rw [h] at ht; cases ht⟩, fun ho => ho.1⟩
    | some t =>
      have : Decidable (Throughout step ok es t) := Throughout.decidable es t
      decidable_of_iff (ok e s ∧ Throughout step ok es t)
        ⟨fun ho => ⟨ho.1, fun u hu => by rw [h] at hu; cases hu; exact ho.2⟩, fun ho => ⟨ho.1, ho.2 t h⟩⟩

end Armada.Program
