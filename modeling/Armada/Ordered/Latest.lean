import Mathlib

/-! The newest version. A history of one key is a partial function from sequence numbers to
values. Writing a version bumps the newest one unless a larger number is there already, and
dropping versions that are not the newest changes nothing a reader sees. The last section is
about a loop that keeps the candidate with the largest key. -/

namespace Armada.Ordered

open List Function

variable {σ ν : Type*} [LinearOrder σ]

/-- `o` is the newest version of the history `f`. -/
def IsLatest (f : σ → Option ν) : Option (σ × ν) → Prop
  | none => ∀ s, f s = none
  | some (s, v) => f s = some v ∧ ∀ t, s < t → f t = none

/-- The newest version after the value `v` was written at `s`. -/
def bump (o : Option (σ × ν)) (s : σ) (v : ν) : Option (σ × ν) :=
  match o with
  | none => some (s, v)
  | some (t, w) => if t ≤ s then some (s, v) else some (t, w)

@[simp] theorem bump_none (s : σ) (v : ν) : bump none s v = some (s, v) := rfl

variable {t s : σ}

theorem bump_of_le (h : t ≤ s) (w v : ν) : bump (some (t, w)) s v = some (s, v) := by
  simp [bump, h]

theorem bump_of_lt (h : s < t) (w v : ν) : bump (some (t, w)) s v = some (t, w) := by
  simp [bump, h]

/-- No version newer than `s`. -/
def AtMost (s : σ) (o : Option (σ × ν)) : Prop := ∀ v ∈ o, v.1 ≤ s

variable {o : Option (σ × ν)}

theorem bump_of_atMost (h : AtMost s o) (v : ν) : bump o s v = some (s, v) := by
  rcases o with _ | ⟨t, w⟩
  · rfl
  · exact bump_of_le (h (t, w) rfl) w v

theorem atMost_none (s : σ) : AtMost s (none : Option (σ × ν)) := fun _ hv => nomatch hv

theorem atMost_or_gt (s : σ) (o : Option (σ × ν)) : AtMost s o ∨ ∃ v, o = some v ∧ s < v.1 := by
  rcases o with _ | v
  · exact Or.inl fun v hv => nomatch hv
  · rcases le_or_gt v.1 s with h | h
    · exact Or.inl fun w hw => Option.some.inj hw ▸ h
    · exact Or.inr ⟨v, rfl, h⟩

variable {f : σ → Option ν}

theorem IsLatest.unique {o1 o2 : Option (σ × ν)} (h1 : IsLatest f o1) (h2 : IsLatest f o2) : o1 = o2 := by
  rcases o1 with _ | ⟨s, v⟩ <;> rcases o2 with _ | ⟨t, w⟩
  · rfl
  · exact absurd (h1 t) (by simp [h2.1])
  · exact absurd (h2 s) (by simp [h1.1])
  · have hst : s = t := by
      rcases lt_trichotomy s t with h | h | h
      · exact absurd (h1.2 t h) (by simp [h2.1])
      · exact h
      · exact absurd (h2.2 s h) (by simp [h1.1])
    subst hst
    have hv : some v = some w := h1.1.symm.trans h2.1
    rw [Option.some.inj hv]

theorem IsLatest.update (h : IsLatest f o) (s : σ) (v : ν) : IsLatest (Function.update f s (some v)) (bump o s v) := by
  rcases o with _ | ⟨t, w⟩
  · refine ⟨by simp, fun u hu => ?_⟩
    rw [update_of_ne hu.ne']
    exact h u
  · rcases le_or_gt t s with hts | hst
    · rw [bump_of_le hts]
      refine ⟨by simp, fun u hu => ?_⟩
      rw [update_of_ne hu.ne']
      exact h.2 u (hts.trans_lt hu)
    · rw [bump_of_lt hst]
      refine ⟨by rw [update_of_ne hst.ne']; exact h.1, fun u hu => ?_⟩
      rw [update_of_ne (hst.trans hu).ne']
      exact h.2 u hu

/-! ### The best candidate -/

section
variable {α κ : Type*} [LinearOrder κ] (p : α → Bool) (key : α → κ)

/-- One round of a loop that keeps a candidate until one with a larger key comes. -/
def better (best : Option α) (a : α) : Option α :=
  if p a then
    match best with
    | none => some a
    | some b => if key b < key a then some a else some b
  else best

/-- The best of the candidates, or there is none. -/
def IsBest (l : List α) : Option α → Prop
  | none => ∀ a ∈ l, p a = false
  | some b => b ∈ l ∧ p b = true ∧ ∀ a ∈ l, p a = true → key a ≤ key b

variable {p key}

theorem IsBest.better {l : List α} {best : Option α} (h : IsBest p key l best) (a : α) :
    IsBest p key (l ++ [a]) (better p key best a) := by
  unfold Ordered.better
  by_cases ha : p a = true
  · rw [if_pos ha]
    cases best with
    | none =>
      refine ⟨by simp, ha, fun b hb hpb => ?_⟩
      rcases mem_append.mp hb with hb | hb
      · rw [h b hb] at hpb
        cases hpb
      · exact (congrArg key (mem_singleton.mp hb)).le
    | some b =>
      obtain ⟨hmem, hpb, hmax⟩ := h
      dsimp only
      split_ifs with hlt
      · refine ⟨by simp, ha, fun c hc hpc => ?_⟩
        rcases mem_append.mp hc with hc | hc
        · exact (hmax c hc hpc).trans hlt.le
        · exact (congrArg key (mem_singleton.mp hc)).le
      · refine ⟨mem_append_left _ hmem, hpb, fun c hc hpc => ?_⟩
        rcases mem_append.mp hc with hc | hc
        · exact hmax c hc hpc
        · rw [mem_singleton.mp hc]
          exact not_lt.mp hlt
  · rw [if_neg ha]
    have hpa : p a = false := by simpa using ha
    cases best with
    | none =>
      intro b hb
      rcases mem_append.mp hb with hb | hb
      · exact h b hb
      · rw [mem_singleton.mp hb]
        exact hpa
    | some b =>
      refine ⟨mem_append_left _ h.1, h.2.1, fun c hc hpc => ?_⟩
      rcases mem_append.mp hc with hc | hc
      · exact h.2.2 c hc hpc
      · rw [mem_singleton.mp hc] at hpc
        exact absurd hpc ha

theorem isBest_foldl (l : List α) : IsBest p key l (l.foldl (better p key) none) := by
  induction l using List.reverseRecOn with
  | nil => exact fun a ha => nomatch ha
  | append_singleton l a ih =>
    rw [foldl_append]
    exact ih.better a

end

end Armada.Ordered
