import Mathlib

/-! Finite ordered maps: the entries of a key interval in ascending order, the
deletion of a key interval, and the writing of a list of entries one after the
other. Lists sorted by key are determined by their members, so two scans that
find the same entries are equal. -/

namespace Armada.Ordered

open List

variable {α β : Type*} [LinearOrder α]

/-- A finite map with linearly ordered keys. -/
abbrev OrdMap (α β : Type*) [LinearOrder α] := Std.ExtTreeMap α β (compare : α → α → Ordering)

/-- Strictly ascending keys. -/
abbrev Ascending (l : List (α × β)) : Prop := l.Pairwise (fun a b => a.1 < b.1)

/-- Sorted lists with the same members are equal. -/
theorem eq_of_pairwise_of_mem {γ : Type*} {r : γ → γ → Prop} (hr : ∀ a b, r a b → ¬ r b a)
    {l1 l2 : List γ} (h1 : l1.Pairwise r) (h2 : l2.Pairwise r) (h : ∀ a, a ∈ l1 ↔ a ∈ l2) : l1 = l2 := by
  have hn : ∀ {l : List γ}, l.Pairwise r → l.Nodup := by
    intro l hl
    refine List.Pairwise.imp ?_ hl
    rintro a b hab rfl
    exact hr a a hab hab
  have hp : l1.Perm l2 := (perm_ext_iff_of_nodup (hn h1) (hn h2)).mpr h
  exact hp.eq_of_pairwise (fun a b _ _ hab hba => absurd hba (hr a b hab)) h1 h2

theorem ascending_ext {l1 l2 : List (α × β)} (h1 : Ascending l1) (h2 : Ascending l2)
    (h : ∀ e, e ∈ l1 ↔ e ∈ l2) : l1 = l2 :=
  eq_of_pairwise_of_mem (fun _ _ hab hba => lt_asymm hab hba) h1 h2 h

/-- The first key at or above `lo` in an ascending list is the least such key. -/
theorem find?_ge_eq_some_iff {l : List (α × β)} (hl : Ascending l) (lo : α) (e : α × β) :
    l.find? (fun a => lo ≤ a.1) = some e ↔ e ∈ l ∧ lo ≤ e.1 ∧ ∀ a ∈ l, lo ≤ a.1 → e.1 ≤ a.1 := by
  induction l with
  | nil => simp
  | cons b l ih =>
    rw [Ascending, pairwise_cons] at hl
    by_cases hb : lo ≤ b.1
    · rw [List.find?_cons_of_pos (by simpa using hb)]
      constructor
      · rintro h
        cases h
        refine ⟨by simp, hb, fun a ha _ => ?_⟩
        rcases mem_cons.mp ha with rfl | ha
        · exact le_rfl
        · exact (hl.1 a ha).le
      · rintro ⟨he, -, hmin⟩
        rcases mem_cons.mp he with rfl | he
        · rfl
        · exact absurd (hmin b (by simp) hb) (not_le.mpr (hl.1 e he))
    · rw [List.find?_cons_of_neg (by simpa using hb), ih hl.2]
      simp only [mem_cons, forall_eq_or_imp]
      constructor
      · rintro ⟨he, hlo, hmin⟩
        exact ⟨Or.inr he, hlo, fun h => absurd h hb, hmin⟩
      · rintro ⟨he | he, hlo, -, hmin⟩
        · exact absurd (he ▸ hlo) hb
        · exact ⟨he, hlo, hmin⟩

theorem dropWhile_lt_head? {p : α × β → Bool} {lo : α} (hp : ∀ a, p a = true ↔ a.1 < lo)
    (l : List (α × β)) : (l.dropWhile p).head? = l.find? (fun a => lo ≤ a.1) := by
  induction l with
  | nil => rfl
  | cons b l ih =>
    rcases lt_or_ge b.1 lo with hb | hb
    · rw [dropWhile_cons_of_pos ((hp b).mpr hb), List.find?_cons_of_neg (by simpa using hb), ih]
    · rw [dropWhile_cons_of_neg (by rw [hp]; exact not_lt.mpr hb),
        List.find?_cons_of_pos (by simpa using hb), List.head?_cons]

namespace OrdMap

variable (m : OrdMap α β)

@[simp] theorem getElem?_insert (k a : α) (v : β) :
    (m.insert k v)[a]? = if k = a then some v else m[a]? := by
  simp [Std.ExtTreeMap.getElem?_insert]

@[simp] theorem getElem?_erase (k a : α) : (m.erase k)[a]? = if k = a then none else m[a]? := by
  simp [Std.ExtTreeMap.getElem?_erase]

theorem getElem?_alter (k a : α) (f : Option β → Option β) :
    (m.alter k f)[a]? = if k = a then f m[a]? else m[a]? := by
  rw [Std.ExtTreeMap.getElem?_alter]
  by_cases h : k = a
  · simp [h]
  · simp [h]

theorem getElem?_filterMap {γ : Type*} (m : OrdMap α β) (f : α → β → Option γ) (a : α) :
    (m.filterMap f)[a]? = m[a]?.bind (f a) :=
  Std.ExtTreeMap.getElem?_filterMap'

@[simp] theorem getElem?_empty (a : α) : (∅ : OrdMap α β)[a]? = none := by simp

theorem mem_toList (k : α) (v : β) : (k, v) ∈ m.toList ↔ m[k]? = some v :=
  Std.ExtTreeMap.mem_toList_iff_getElem?_eq_some

theorem toList_ascending : Ascending m.toList := by
  have h := Std.ExtTreeMap.ordered_keys_toList (t := m)
  exact h.imp (fun hab => compare_lt_iff_lt.mp hab)

/-- Deletes every key `k` with `lo ≤ k < hi`. -/
def deleteRange (lo hi : α) : OrdMap α β :=
  ((m.toList.map Prod.fst).filter (fun k => decide (lo ≤ k ∧ k < hi))).foldl Std.ExtTreeMap.erase m

theorem getElem?_foldl_erase (l : List α) (m : OrdMap α β) (a : α) :
    (l.foldl Std.ExtTreeMap.erase m : OrdMap α β)[a]? = if a ∈ l then none else m[a]? := by
  induction l generalizing m with
  | nil => simp
  | cons k l ih =>
    rw [foldl_cons, ih, getElem?_erase]
    by_cases hal : a ∈ l
    · simp [hal]
    · by_cases hak : k = a
      · simp [hak]
      · have : a ≠ k := fun h => hak h.symm
        simp [hal, hak, this]

/-- A range deletion removes the keys of the range and nothing else. -/
@[simp] theorem getElem?_deleteRange (lo hi a : α) :
    (deleteRange m lo hi)[a]? = if lo ≤ a ∧ a < hi then none else m[a]? := by
  rw [deleteRange, getElem?_foldl_erase]
  by_cases hr : lo ≤ a ∧ a < hi
  · rw [if_pos hr]
    split
    · rfl
    · next hm =>
      cases hv : m[a]? with
      | none => rfl
      | some v =>
        have : (a, v) ∈ m.toList := (mem_toList m a v).mpr hv
        have hk : a ∈ m.toList.map Prod.fst := mem_map_of_mem (f := Prod.fst) this
        exact absurd (mem_filter.mpr ⟨hk, by simp [hr]⟩) hm
  · rw [if_neg hr, if_neg]
    simp [hr]

theorem getElem?_foldl_deleteRange (ranges : List (α × α)) (m : OrdMap α β) (a : α) :
    (ranges.foldl (fun m r => deleteRange m r.1 r.2) m : OrdMap α β)[a]? =
    if ∃ r ∈ ranges, r.1 ≤ a ∧ a < r.2 then none else m[a]? := by
  induction ranges generalizing m with
  | nil => simp
  | cons r ranges ih =>
    rw [foldl_cons, ih, getElem?_deleteRange]
    by_cases hr : r.1 ≤ a ∧ a < r.2
    · simp [hr]
    · have hiff : (∃ r' ∈ r :: ranges, r'.1 ≤ a ∧ a < r'.2) ↔ ∃ r' ∈ ranges, r'.1 ≤ a ∧ a < r'.2 := by
        rw [exists_mem_cons_iff]
        exact or_iff_right hr
      simp only [hr, if_false, hiff]

/-- The entries written one after the other. -/
def insertAll (l : List (α × β)) : OrdMap α β :=
  l.foldl (fun m e => m.insert e.1 e.2) m

@[simp] theorem insertAll_nil : insertAll m [] = m := rfl

@[simp] theorem insertAll_append (l1 l2 : List (α × β)) :
    insertAll m (l1 ++ l2) = insertAll (insertAll m l1) l2 := foldl_append

@[simp] theorem insertAll_cons (e : α × β) (l : List (α × β)) :
    insertAll m (e :: l) = insertAll (m.insert e.1 e.2) l := rfl

end OrdMap

/-- The values in the order of their keys. -/
theorem values_eq (t : OrdMap α β) : t.values = t.toList.map Prod.snd := by
  obtain ⟨⟨q⟩⟩ := t
  induction q using Quotient.ind with
  | _ m =>
    change Std.DTreeMap.Internal.Impl.values m.inner = (Std.DTreeMap.Internal.Impl.Const.toList m.inner).map Prod.snd
    rw [Std.DTreeMap.Internal.Impl.values_eq_map_snd,
      Std.DTreeMap.Internal.Impl.Const.toList_eq_toListModel_map, map_map]
    rfl

end Armada.Ordered
