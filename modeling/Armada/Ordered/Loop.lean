import Mathlib

/-! Cursor loops. A loop that only moves a cursor visits a list of states; its
body is then a fold over that list. Two loops whose steps correspond visit
corresponding states. The loop that skips to the next group of a list sorted by
key visits exactly the first element of every group. -/

namespace Armada.Ordered

open List

section Visits

variable {σ τ : Type*}

/-- The states at which the body of `for ; valid s; s = next s` runs, in order,
for at most the given number of rounds. -/
def visits (valid : σ → Bool) (next : σ → σ) : ℕ → σ → List σ
  | 0, _ => []
  | n + 1, s => if valid s then s :: visits valid next n (next s) else []

variable {valid : σ → Bool} {next : σ → σ}

variable {s : σ}

theorem visits_done (h : valid s = false) (n : ℕ) : visits valid next n s = [] := by
  cases n <;> simp [visits, h]

/-- While a measure decreases under an invariant the bound on the rounds is
not felt. -/
theorem visits_enough (I : σ → Prop) (μ : σ → ℕ) (hstep : ∀ s, I s → valid s = true → I (next s) ∧ μ (next s) < μ s)
    {n m : ℕ} (hs : I s) (hn : μ s ≤ n) (hm : μ s ≤ m) : visits valid next n s = visits valid next m s := by
  induction n generalizing m s with
  | zero =>
    have hf : valid s = false := by
      by_contra hc
      have := (hstep s hs (by simpa using hc)).2
      omega
    rw [visits_done hf, visits_done hf]
  | succ n ih =>
    by_cases hv : valid s = true
    · obtain ⟨hi, hlt⟩ := hstep s hs hv
      obtain ⟨m, rfl⟩ : ∃ k, m = k + 1 := ⟨m - 1, by omega⟩
      simp only [visits, hv, if_true]
      rw [ih hi (by omega) (show μ (next s) ≤ m by omega)]
    · have hf : valid s = false := by simpa using hv
      rw [visits_done hf, visits_done hf]

/-- Loops whose guards agree and whose steps commute with a map of the states
visit corresponding states. -/
theorem visits_map (f : σ → τ) {valid' : τ → Bool} {next' : τ → τ} (I : σ → Prop)
    (hvalid : ∀ s, I s → valid' (f s) = valid s)
    (hnext : ∀ s, I s → valid s = true → I (next s) ∧ next' (f s) = f (next s)) (n : ℕ) (hs : I s) :
    visits valid' next' n (f s) = (visits valid next n s).map f := by
  induction n generalizing s with
  | zero => rfl
  | succ n ih =>
    simp only [visits, hvalid s hs]
    by_cases hv : valid s = true
    · obtain ⟨hi, he⟩ := hnext s hs hv
      simp only [hv, if_true, map_cons]
      rw [he, ih hi]
    · simp [hv]

end Visits

/-! ### Groups of a list sorted by key -/

section Groups

variable {γ κ : Type*} [LinearOrder κ] (key : γ → κ)

/-- Moves past the group of the first element. -/
def skipGroup : List γ → List γ
  | [] => []
  | a :: l => l.dropWhile (fun b => key b = key a)

def nonempty (l : List γ) : Bool := !l.isEmpty

/-- The suffixes at which a group starts. -/
def groupStarts (l : List γ) : List (List γ) := visits nonempty (skipGroup key) l.length l

theorem skipGroup_length (a : γ) (l : List γ) : (skipGroup key (a :: l)).length ≤ l.length :=
  (dropWhile_suffix (l := l) (fun b => decide (key b = key a))).length_le

omit [LinearOrder κ] in
/-- A loop whose step shortens the list takes as many rounds as the list is long. -/
theorem visits_shrinking {step : List γ → List γ}
    (hstep : ∀ l, nonempty l = true → (step l).length < l.length) (a : γ) (l : List γ) :
    visits nonempty step (a :: l).length (a :: l) =
    (a :: l) :: visits nonempty step (step (a :: l)).length (step (a :: l)) := by
  have hlen : (step (a :: l)).length ≤ l.length := Nat.lt_succ_iff.mp (hstep (a :: l) rfl)
  rw [length_cons, visits, if_pos (by simp [nonempty]),
    visits_enough (fun _ => True) List.length (fun s _ hs => ⟨trivial, hstep s hs⟩) trivial hlen le_rfl]

@[simp] theorem groupStarts_nil : groupStarts key ([] : List γ) = [] := rfl

theorem groupStarts_cons (a : γ) (l : List γ) :
    groupStarts key (a :: l) = (a :: l) :: groupStarts key (l.dropWhile (fun b => key b = key a)) := by
  apply visits_shrinking
  intro s hs
  cases s with
  | nil => simp [nonempty] at hs
  | cons a l => exact Nat.lt_succ_of_le (skipGroup_length key a l)

theorem visits_valid {σ : Type*} {valid : σ → Bool} {next : σ → σ} (n : ℕ) (s : σ) :
    ∀ t ∈ visits valid next n s, valid t = true := by
  induction n generalizing s with
  | zero => simp [visits]
  | succ n ih =>
    rw [visits]
    split
    · next hs =>
      rw [forall_mem_cons]
      exact ⟨hs, ih _⟩
    · simp

theorem groupStarts_nonempty (l : List γ) : ∀ r ∈ groupStarts key l, nonempty r = true :=
  visits_valid _ _

variable {l : List γ}

theorem suffix_of_mem_groupStarts {r : List γ} (hr : r ∈ groupStarts key l) : r <:+ l := by
  induction hn : l.length using Nat.strong_induction_on generalizing l with
  | _ n ih =>
    cases l with
    | nil => simp at hr
    | cons a l =>
      rw [groupStarts_cons, mem_cons] at hr
      rcases hr with rfl | hr
      · exact suffix_refl _
      · have hlen := skipGroup_length key a l
        have hdrop := ih _ (by rw [← hn, length_cons]; exact Nat.lt_succ_of_le hlen) hr rfl
        exact (hdrop.trans (dropWhile_suffix _)).trans (suffix_cons a l)

/-- Every group starts behind the first element of the ones before it. -/
theorem groupStarts_pairwise (l : List γ) : (groupStarts key l).Pairwise (fun r r' => r' <:+ r.tail) := by
  induction hn : l.length using Nat.strong_induction_on generalizing l with
  | _ n ih =>
    cases l with
    | nil => simp
    | cons a l =>
      have hlen := skipGroup_length key a l
      rw [groupStarts_cons, pairwise_cons]
      refine ⟨fun r hr => (suffix_of_mem_groupStarts key hr).trans (dropWhile_suffix _), ?_⟩
      exact ih _ (by rw [← hn, length_cons]; exact Nat.lt_succ_of_le hlen) _ rfl

/-- The first element of every group. -/
def firsts (l : List γ) : List γ := (groupStarts key l).filterMap List.head?

@[simp] theorem firsts_nil : firsts key ([] : List γ) = [] := rfl

theorem firsts_cons (a : γ) (l : List γ) :
    firsts key (a :: l) = a :: firsts key (l.dropWhile (fun b => key b = key a)) := by
  simp [firsts, groupStarts_cons]

omit [LinearOrder κ] in
/-- Dropping while a predicate holds that no later element brings back is filtering. -/
theorem dropWhile_eq_filter_not {p : γ → Bool}
    (h : l.Pairwise (fun a b => p b = true → p a = true)) : l.dropWhile p = l.filter (fun a => !p a) := by
  induction l with
  | nil => rfl
  | cons a l ih =>
    rw [pairwise_cons] at h
    by_cases ha : p a = true
    · rw [dropWhile_cons_of_pos ha, filter_cons_of_neg (by simp [ha]), ih h.2]
    · rw [dropWhile_cons_of_neg ha, filter_cons_of_pos (by simpa using ha)]
      have hall : ∀ b ∈ l, (!p b) = true := by
        intro b hb
        by_contra hpb
        exact ha (h.1 b hb (by simpa using hpb))
      rw [filter_eq_self.mpr hall]

theorem dropWhile_eq_filter {a : γ} (hl : l.Pairwise (fun b c => key b ≤ key c)) (ha : ∀ b ∈ l, key a ≤ key b) :
    l.dropWhile (fun b => key b = key a) = l.filter (fun b => key a < key b) := by
  have hdown : l.Pairwise (fun b c => decide (key c = key a) = true → decide (key b = key a) = true) := by
    apply hl.imp_of_mem
    intro b c hb _ hbc hc
    simp only [decide_eq_true_eq] at hc ⊢
    exact le_antisymm (hc ▸ hbc) (ha b hb)
  rw [dropWhile_eq_filter_not hdown]
  apply filter_congr
  intro b hb
  rw [Bool.eq_iff_iff, Bool.not_eq_true', decide_eq_false_iff_not, decide_eq_true_iff]
  exact ⟨fun h => lt_of_le_of_ne (ha b hb) (Ne.symm h), fun h => h.ne'⟩

/-- An element starts its group when it is the first one with its key. -/
theorem mem_firsts (hl : l.Pairwise (fun b c => key b ≤ key c)) (a : γ) :
    a ∈ firsts key l ↔ l.find? (fun b => key b = key a) = some a := by
  induction hn : l.length using Nat.strong_induction_on generalizing l with
  | _ n ih =>
    cases l with
    | nil => simp
    | cons b l =>
      have hp := pairwise_cons.mp hl
      have hd := dropWhile_eq_filter key (a := b) hp.2 hp.1
      have hlen := skipGroup_length key b l
      have hi := ih (l.dropWhile (fun c => key c = key b)).length
        (by rw [← hn, length_cons]; simp only [skipGroup] at hlen; omega)
        (by rw [hd]; exact hp.2.filter _) rfl
      rw [firsts_cons, mem_cons, hi, hd, List.find?_filter, List.find?_cons]
      by_cases hba : key b = key a
      · simp only [hba, decide_true]
        constructor
        · rintro (rfl | hf)
          · rfl
          · have := List.find?_some hf
            simp at this
        · intro he
          exact Or.inl (Option.some.inj he).symm
      · have hne : a ≠ b := fun h => hba (by rw [h])
        simp only [hba, decide_false, hne, false_or]
        have hiff : ∀ c ∈ l, decide (decide (key b < key c) = true ∧ decide (key c = key a) = true) =
            decide (key c = key a) := by
          intro c hc
          have hlt : key c = key a → key b < key c := fun hca =>
            lt_of_le_of_ne (hp.1 c hc) (fun h => hba (h.trans hca))
          simpa using hlt
        rw [List.find?_congr hiff]

/-- The groups start at strictly ascending keys. -/
theorem firsts_ascending (hl : l.Pairwise (fun b c => key b ≤ key c)) :
    (firsts key l).Pairwise (fun b c => key b < key c) := by
  induction hn : l.length using Nat.strong_induction_on generalizing l with
  | _ n ih =>
    cases l with
    | nil => simp
    | cons b l =>
      have hp := pairwise_cons.mp hl
      have hd := dropWhile_eq_filter key (a := b) hp.2 hp.1
      have hlen := skipGroup_length key b l
      rw [firsts_cons, pairwise_cons]
      have hs : (l.dropWhile (fun c => key c = key b)).Pairwise (fun c d => key c ≤ key d) := by
        rw [hd]; exact hp.2.filter _
      refine ⟨?_, ih _ (by rw [← hn, length_cons]; simp only [skipGroup] at hlen; omega) hs rfl⟩
      intro c hc
      have hm := mem_of_find?_eq_some ((mem_firsts key hs c).mp hc)
      rw [hd] at hm
      simpa using (mem_filter.mp hm).2

end Groups

end Armada.Ordered
