import Mathlib

/-! Binary heaps in a slice. The element at position `i` has its children at `2 * i + 1` and
`2 * i + 2`. `up` and `down` move one element that is out of order; every other pair of a
parent and a child has to be in order before, and all pairs are after. -/

namespace Armada.Heap

open List

variable {E : Type}

section
variable (less : E → E → Bool)

/-- `Less` of the elements at two positions. -/
def lessAt (l : List E) (i j : ℕ) : Bool :=
  match l[i]?, l[j]? with
  | some x, some y => less x y
  | _, _ => false

abbrev parent (j : ℕ) : ℕ := (j - 1) / 2

def up (l : List E) (j : ℕ) : List E :=
  if parent j = j ∨ !lessAt less l j (parent j) then l else up (l.swap (parent j) j) (parent j)
termination_by j
decreasing_by
  simp only [not_or, parent] at *
  omega

/-- The smaller child of the element at `i` below the bound `n`. -/
def minChild (l : List E) (n i : ℕ) : ℕ :=
  if 2 * i + 2 < n ∧ lessAt less l (2 * i + 2) (2 * i + 1) then 2 * i + 2 else 2 * i + 1

/-- The loop of `down`, with the position it ends at. -/
def downLoop (n : ℕ) (l : List E) (i : ℕ) : List E × ℕ :=
  if n ≤ 2 * i + 1 ∨ !lessAt less l (minChild less l n i) i then (l, i)
  else downLoop n (l.swap i (minChild less l n i)) (minChild less l n i)
termination_by n - i
decreasing_by
  simp only [not_or, minChild] at *
  split <;> omega

def down (l : List E) (i0 n : ℕ) : List E × Bool :=
  let r := downLoop less n l i0
  (r.1, i0 < r.2)

def peek (l : List E) : Option E := l[0]?

def push (l : List E) (item : E) : List E := up less (l ++ [item]) l.length

def pop (l : List E) : Option (E × List E) :=
  match l with
  | [] => none
  | x :: _ =>
    let n := l.length - 1
    some (x, (down less (l.swap 0 n) 0 n).1.take n)

def fix (l : List E) (i : ℕ) : List E :=
  match down less l i l.length with
  | (l, true) => l
  | (l, false) => up less l i

end

/-! ### The elements stay the same -/

section
variable {less : E → E → Bool}

theorem up_perm (l : List E) (j : ℕ) : (up less l j).Perm l := by
  fun_induction up less l j with
  | case1 l j => exact .refl _
  | case2 l j _ ih => exact ih.trans (swap_perm ..)

theorem downLoop_perm (n : ℕ) (l : List E) (i : ℕ) : (downLoop less n l i).1.Perm l := by
  fun_induction downLoop less n l i with
  | case1 l i => exact .refl _
  | case2 l i _ ih => exact ih.trans (swap_perm ..)

theorem push_perm (l : List E) (item : E) : (push less l item).Perm (item :: l) :=
  (up_perm ..).trans (perm_append_singleton ..)

theorem fix_perm (l : List E) (i : ℕ) : (fix less l i).Perm l := by
  have hdown : (down less l i l.length).1.Perm l := downLoop_perm ..
  unfold fix
  split
  · next h => rwa [h] at hdown
  · next h =>
    rw [h] at hdown
    exact (up_perm ..).trans hdown

variable {i j : ℕ} {l : List E}

theorem getElem?_swap (hi : i < l.length) (hj : j < l.length) (k : ℕ) :
    (l.swap i j)[k]? = if k = i then l[j]? else if k = j then l[i]? else l[k]? := by
  rcases lt_or_ge k l.length with hk | hk
  · rw [List.getElem?_eq_getElem (by simpa using hk), getElem_swap]
    split_ifs <;> simp_all
  · rw [List.getElem?_eq_none (by simpa using hk), if_neg (by omega), if_neg (by omega), List.getElem?_eq_none hk]

theorem lt_length_of_lessAt (h : lessAt less l i j) : i < l.length ∧ j < l.length := by
  unfold lessAt at h
  split at h
  · next hx hy => exact ⟨(List.getElem?_eq_some_iff.mp hx).1, (List.getElem?_eq_some_iff.mp hy).1⟩
  · cases h

theorem minChild_lt {n : ℕ} (h : 2 * i + 1 < n) : minChild less l n i < n := by
  unfold minChild
  split <;> omega

/-- The loop of `down` leaves what is at its bound and behind. -/
theorem downLoop_getElem? (n : ℕ) (l : List E) (i k : ℕ) (hk : n ≤ k) : (downLoop less n l i).1[k]? = l[k]? := by
  fun_induction downLoop less n l i with
  | case1 l i => rfl
  | case2 l i h ih =>
    simp only [not_or, Bool.not_eq_true', Bool.not_eq_false, not_le] at h
    have hc : minChild less l n i < n := minChild_lt h.1
    obtain ⟨hlc, hli⟩ := lt_length_of_lessAt h.2
    rw [ih, getElem?_swap hli hlc, if_neg (by omega), if_neg (by omega)]

/-- The slice that `pop` cuts its last element off. -/
def popped (less : E → E → Bool) (y : E) (tail : List E) : List E :=
  (downLoop less tail.length ((y :: tail).swap 0 tail.length) 0).1

theorem pop_cons (y : E) (tail : List E) : pop less (y :: tail) = some (y, (popped less y tail).take tail.length) := rfl

theorem popped_eq (y : E) (tail : List E) : popped less y tail = (popped less y tail).take tail.length ++ [y] := by
  have hlen : (popped less y tail).length = tail.length + 1 :=
    ((downLoop_perm ..).trans (swap_perm ..)).length_eq
  have hlast : (popped less y tail)[tail.length]? = some y := by
    rw [popped, downLoop_getElem? _ _ _ _ le_rfl, getElem?_swap (by simp) (by simp)]
    by_cases h0 : tail.length = 0
    · simp [h0]
    · rw [if_neg h0, if_pos rfl]
      rfl
  obtain ⟨hlt, hget⟩ := List.getElem?_eq_some_iff.mp hlast
  calc popped less y tail = (popped less y tail).take (tail.length + 1) := (take_of_length_le hlen.le).symm
    _ = (popped less y tail).take tail.length ++ [y] := by rw [← take_concat_get' _ _ hlt, hget]

theorem pop_perm {l' : List E} {x : E} (h : pop less l = some (x, l')) : l.Perm (x :: l') := by
  cases l with
  | nil => cases h
  | cons y tail =>
    obtain ⟨rfl, rfl⟩ := Prod.mk.inj (Option.some.inj ((pop_cons y tail).symm.trans h))
    have hperm : (popped less y tail).Perm (y :: tail) := (downLoop_perm ..).trans (swap_perm ..)
    rw [popped_eq] at hperm
    exact hperm.symm.trans (perm_append_singleton ..)

end

/-! ### The order -/

section
variable {K : Type} [LinearOrder K] (key : E → K)

/-- `Less` by a key. -/
def byKey (x y : E) : Bool := key x < key y

/-- The elements at two positions are in order, if both are there. -/
def Le (l : List E) (i j : ℕ) : Prop := ∀ x y, l[i]? = some x → l[j]? = some y → key x ≤ key y

/-- Every child below `n` is in order with its parent. -/
def OrderedTo (n : ℕ) (l : List E) : Prop := ∀ c, 0 < c → c < n → Le key l (parent c) c

abbrev IsHeap (l : List E) : Prop := OrderedTo key l.length l

/-- Only the element at `j` may come too late. -/
structure UpOrder (l : List E) (j : ℕ) : Prop where
  except : ∀ c, 0 < c → c ≠ j → Le key l (parent c) c
  grand : 0 < j → ∀ c, 0 < c → parent c = j → Le key l (parent j) c

/-- Of the elements below `n`, only the one at `i` may come too early. -/
structure DownOrder (n : ℕ) (l : List E) (i : ℕ) : Prop where
  except : ∀ c, 0 < c → c < n → parent c ≠ i → Le key l (parent c) c
  grand : 0 < i → ∀ c, 0 < c → c < n → parent c = i → Le key l (parent i) c

variable {key} {l : List E} {i j k n : ℕ}

theorem Le.trans (hij : Le key l i j) (hjk : Le key l j k) (hj : j < l.length) : Le key l i k :=
  fun x y hx hy => (hij x _ hx (List.getElem?_eq_getElem hj)).trans (hjk _ y (List.getElem?_eq_getElem hj) hy)

theorem le_of_lessAt (h : lessAt (byKey key) l i j) : Le key l i j := by
  intro x y hx hy
  simp only [lessAt, hx, hy, byKey, decide_eq_true_eq] at h
  exact h.le

theorem le_of_not_lessAt (h : lessAt (byKey key) l i j = false) : Le key l j i := by
  intro y x hy hx
  simp only [lessAt, hx, hy, byKey, decide_eq_false_iff_not, not_lt] at h
  exact h

variable {l' : List E}

/-- The order between two positions of a slice is that between two positions of another
one with the same elements there. -/
theorem Le.congr {i' j' : ℕ} (h : Le key l i j) (hi : l'[i']? = l[i]?) (hj : l'[j']? = l[j]?) : Le key l' i' j' :=
  fun x y hx hy => h x y (hi ▸ hx) (hj ▸ hy)

theorem parent_lt (hj : 0 < j) : parent j < j := by
  simp only [parent]
  omega

theorem UpOrder.move (h : UpOrder key l j) (hj : parent j ≠ j) (hless : lessAt (byKey key) l j (parent j)) :
    UpOrder key (l.swap (parent j) j) (parent j) := by
  obtain ⟨hjl, hpl⟩ := lt_length_of_lessAt hless
  have hpos : 0 < j := Nat.pos_of_ne_zero fun h0 => hj (h0 ▸ rfl)
  have hget := getElem?_swap hpl hjl
  have hle := le_of_lessAt hless
  -- The new parent of the siblings of `j` is smaller than their old one.
  have hsibling : ∀ c, 0 < c → c ≠ j → parent c = parent j → Le key l (parent j) c :=
    fun c hc hcj hpc => hpc ▸ h.except c hc hcj
  refine ⟨fun c hc hcp => ?_, fun hp c hc hpc => ?_⟩
  · by_cases hcj : c = j
    · exact hle.congr (by rw [hget, hcj, if_pos rfl]) (by rw [hget, if_neg hcp, if_pos hcj])
    have hc' : (l.swap (parent j) j)[c]? = l[c]? := by rw [hget, if_neg hcp, if_neg hcj]
    by_cases hpc : parent c = j
    · exact (h.grand hpos c hc hpc).congr (by rw [hget, if_neg (by omega), if_pos hpc]) hc'
    by_cases hpp : parent c = parent j
    · exact (hle.trans (hsibling c hc hcj hpp) hpl).congr (by rw [hget, if_pos hpp]) hc'
    · exact (h.except c hc hcj).congr (by rw [hget, if_neg hpp, if_neg hpc]) hc'
  · have hup := h.except (parent j) hp (by omega)
    have hpj := parent_lt hpos
    have hppj := parent_lt hp
    have hpp : (l.swap (parent j) j)[parent (parent j)]? = l[parent (parent j)]? := by
      rw [hget, if_neg (by omega), if_neg (by omega)]
    by_cases hcj : c = j
    · exact hup.congr hpp (by rw [hget, if_neg (by omega), if_pos hcj])
    · exact (hup.trans (hsibling c hc hcj hpc) hpl).congr hpp
        (by rw [hget, if_neg (hpc ▸ (parent_lt hc).ne'), if_neg hcj])

theorem UpOrder.up (h : UpOrder key l j) : IsHeap key (up (byKey key) l j) := by
  fun_induction Heap.up (byKey key) l j with
  | case1 l j hstop =>
    intro c hc _
    by_cases hcj : c = j
    · subst hcj
      simp only [parent, Bool.not_eq_true'] at hstop
      exact le_of_not_lessAt (hstop.resolve_left (by omega))
    · exact h.except c hc hcj
  | case2 l j hmove ih =>
    simp only [not_or, Bool.not_eq_true', Bool.not_eq_false] at hmove
    exact ih (h.move hmove.1 hmove.2)

theorem minChild_cases (n i : ℕ) : minChild (byKey key) l n i = 2 * i + 1 ∨ minChild (byKey key) l n i = 2 * i + 2 := by
  unfold minChild
  split <;> simp

/-- The smaller child is in order with every child. -/
theorem le_minChild (hc : 0 < k) (hk : k < n) (hi : parent k = i) : Le key l (minChild (byKey key) l n i) k := by
  have hk' : k = 2 * i + 1 ∨ k = 2 * i + 2 := by simp only [parent] at hi; omega
  have hself : ∀ m, Le key l m m := fun m x y hx hy => (Option.some.inj (hx.symm.trans hy)) ▸ le_rfl
  unfold minChild
  split
  · next h =>
    rcases hk' with rfl | rfl
    · exact le_of_lessAt h.2
    · exact hself _
  · next h =>
    rcases hk' with rfl | rfl
    · exact hself _
    · exact le_of_not_lessAt (by simpa [hk] using h)

theorem DownOrder.move (h : DownOrder key n l i) (hn : 2 * i + 1 < n)
    (hless : lessAt (byKey key) l (minChild (byKey key) l n i) i) :
    DownOrder key n (l.swap i (minChild (byKey key) l n i)) (minChild (byKey key) l n i) := by
  have hmin : ∀ c, 0 < c → c < n → parent c = i → Le key l (minChild (byKey key) l n i) c :=
    fun c hc hcn hpc => le_minChild hc hcn hpc
  have hlt : minChild (byKey key) l n i < n := minChild_lt hn
  have hm : parent (minChild (byKey key) l n i) = i ∧ i < minChild (byKey key) l n i := by
    have hcases : minChild (byKey key) l n i = 2 * i + 1 ∨ _ := minChild_cases n i
    rcases hcases with h | h <;> simp only [parent, h] <;> omega
  generalize minChild (byKey key) l n i = m at hless hmin hlt hm
  obtain ⟨hml, hil⟩ := lt_length_of_lessAt hless
  have hget := getElem?_swap hil hml
  refine ⟨fun c hc hcn hpc => ?_, fun _ c hc hcn hpc => ?_⟩
  · by_cases hpi : parent c = i
    · have hp' : (l.swap i m)[parent c]? = l[m]? := by rw [hget, if_pos hpi]
      by_cases hcm : c = m
      · exact (le_of_lessAt hless).congr hp' (by rw [hget, if_neg (by omega), if_pos hcm])
      · exact (hmin c hc hcn hpi).congr hp' (by rw [hget, if_neg (by simp only [parent] at hpi; omega), if_neg hcm])
    have hp' : (l.swap i m)[parent c]? = l[parent c]? := by rw [hget, if_neg hpi, if_neg hpc]
    by_cases hci : c = i
    · subst hci
      exact (h.grand hc m (by omega) hlt hm.1).congr hp' (by rw [hget, if_pos rfl])
    · have hcm : c ≠ m := fun hcm => hpi (hcm ▸ hm.1)
      exact (h.except c hc hcn hpi).congr hp' (by rw [hget, if_neg hci, if_neg hcm])
  · rw [hm.1]
    have hcm : m < c := by simp only [parent] at hpc; omega
    exact (hpc ▸ h.except c hc hcn (by omega) : Le key l m c).congr (by rw [hget, if_pos rfl])
      (by rw [hget, if_neg (by omega), if_neg (by omega)])

theorem DownOrder.downLoop (h : DownOrder key n l i) : OrderedTo key n (downLoop (byKey key) n l i).1 := by
  fun_induction Heap.downLoop (byKey key) n l i with
  | case1 l i hstop =>
    intro c hc hcn
    by_cases hpc : parent c = i
    · rcases hstop with hn | hless
      · simp only [parent] at hpc
        omega
      · have hm : Le key l _ c := le_minChild hc hcn hpc
        rw [Bool.not_eq_true'] at hless
        rw [hpc]
        intro x y hx hy
        refine ((le_of_not_lessAt hless).trans hm ?_) x y hx hy
        have hcl : c < l.length := (List.getElem?_eq_some_iff.mp hy).1
        unfold minChild
        split
        · next h => exact (lt_length_of_lessAt h.2).1
        · simp only [parent] at hpc
          omega
    · exact h.except c hc hcn hpc
  | case2 l i hmove ih =>
    simp only [not_or, Bool.not_eq_true', Bool.not_eq_false, not_le] at hmove
    exact ih (h.move hmove.1 hmove.2)

/-- The root is the least element. -/
theorem IsHeap.root_le (h : IsHeap key l) (i : ℕ) : Le key l 0 i := by
  induction i using Nat.strong_induction_on with
  | _ i ih =>
    intro x y hx hy
    have hi : i < l.length := (List.getElem?_eq_some_iff.mp hy).1
    rcases Nat.eq_zero_or_pos i with rfl | hpos
    · exact (Option.some.inj (hx.symm.trans hy)) ▸ le_rfl
    · have hp := parent_lt hpos
      exact ((ih (parent i) hp).trans (h i hpos hi) (by omega)) x y hx hy

variable {x : E}

theorem IsHeap.peek_le (h : IsHeap key l) {y : E} (hx : peek l = some x) (hy : y ∈ l) : key x ≤ key y := by
  obtain ⟨i, hi⟩ := mem_iff_getElem?.mp hy
  exact h.root_le i x y hx hi

theorem isHeap_nil : IsHeap key ([] : List E) := fun _ _ h => absurd h (Nat.not_lt_zero _)

theorem IsHeap.push (h : IsHeap key l) (item : E) : IsHeap key (push (byKey key) l item) := by
  refine UpOrder.up ⟨fun c hc hne => ?_, fun _ c hc hpc => ?_⟩
  · intro x y hx hy
    have hcl := (List.getElem?_eq_some_iff.mp hy).1
    rw [length_append, length_singleton] at hcl
    have hp := parent_lt hc
    refine h c hc (by omega) x y ?_ ?_
    · rwa [List.getElem?_append_left (by omega)] at hx
    · rwa [List.getElem?_append_left (by omega)] at hy
  · intro x y _ hy
    have hcl := (List.getElem?_eq_some_iff.mp hy).1
    rw [length_append, length_singleton] at hcl
    have hp := parent_lt hc
    omega

/-- A slice that is in order except at the root is a heap once `down` has moved the root. -/
theorem isHeap_fix (h : ∀ c, 2 < c → c < l.length → Le key l (parent c) c) : IsHeap key (fix (byKey key) l 0) := by
  have hdown : DownOrder key l.length l 0 :=
    ⟨fun c hc hcl hpc => h c (by simp only [parent] at hpc; omega) hcl, fun h0 => absurd h0 (lt_irrefl 0)⟩
  have hlen : (downLoop (byKey key) l.length l 0).1.length = l.length := (downLoop_perm ..).length_eq
  have hheap : IsHeap key (downLoop (byKey key) l.length l 0).1 := by
    rw [IsHeap, hlen]
    exact hdown.downLoop
  unfold fix
  split
  · next heq => rwa [← (Prod.mk.inj heq).1]
  · next heq =>
    rw [← (Prod.mk.inj heq).1]
    rwa [up, if_pos (.inl rfl)]

theorem IsHeap.pop (h : IsHeap key l) (hpop : pop (byKey key) l = some (x, l')) : IsHeap key l' := by
  cases l with
  | nil => cases hpop
  | cons y tail =>
    obtain ⟨rfl, rfl⟩ := Prod.mk.inj (Option.some.inj ((pop_cons y tail).symm.trans hpop))
    have hdown : DownOrder key tail.length ((y :: tail).swap 0 tail.length) 0 := by
      refine ⟨fun c hc hcl hpc => ?_, fun h0 => absurd h0 (lt_irrefl 0)⟩
      have hp := parent_lt hc
      have hget : ∀ k, k ≠ 0 → k < tail.length → ((y :: tail).swap 0 tail.length)[k]? = (y :: tail)[k]? :=
        fun k h0 hk => by rw [getElem?_swap (by simp) (by simp), if_neg h0, if_neg hk.ne]
      exact (h c hc (by simp; omega)).congr (hget _ hpc (by omega)) (hget _ hc.ne' hcl)
    intro c hc hcl
    rw [length_take] at hcl
    have hp := parent_lt hc
    refine (hdown.downLoop c hc (by omega)).congr ?_ ?_
    all_goals
      rw [List.getElem?_take, if_pos (by omega)]
      rfl

end

end Armada.Heap
