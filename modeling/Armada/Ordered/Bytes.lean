import Mathlib

/-! Byte strings under the lexicographic order, and fixed-width big-endian
numbers. A separator byte below every letter makes the order of separated pairs
the lexicographic order of the pairs, and big-endian words of one width are
ordered as the numbers they spell; complementing every byte turns that order
around. -/

namespace Armada.Ordered

open List

instance uint8LinearOrder : LinearOrder UInt8 where
  le_refl _ := UInt8.le_refl _
  le_trans _ _ _ := UInt8.le_trans
  lt_iff_le_not_ge _ _ := by simp only [UInt8.lt_iff_toNat_lt, UInt8.le_iff_toNat_le]; omega
  le_antisymm _ _ := UInt8.le_antisymm
  le_total _ _ := UInt8.le_total _ _
  toDecidableLE := inferInstance
  toDecidableLT := inferInstance
  toDecidableEq := inferInstance
  compare_eq_compareOfLessAndEq _ _ := rfl

instance uint64LinearOrder : LinearOrder UInt64 where
  le_refl _ := UInt64.le_refl _
  le_trans _ _ _ := UInt64.le_trans
  lt_iff_le_not_ge _ _ := by simp only [UInt64.lt_iff_toNat_lt, UInt64.le_iff_toNat_le]; omega
  le_antisymm _ _ := UInt64.le_antisymm
  le_total _ _ := UInt64.le_total _ _
  toDecidableLE := inferInstance
  toDecidableLT := inferInstance
  toDecidableEq := inferInstance
  compare_eq_compareOfLessAndEq _ _ := rfl

abbrev Bytes := List UInt8

instance bytesTransCmp : Std.TransCmp (@compare Bytes LinearOrder.toOrd) := inferInstance

section Lex

variable {α : Type*} [LinearOrder α]

theorem append_lt_append_iff (p a b : List α) : p ++ a < p ++ b ↔ a < b := by
  induction p with
  | nil => rfl
  | cons x p ih => simp [ih]

/-- Separated pairs compare as pairs: the separator lies below every letter of
the first components. -/
theorem separated_lt_iff {sep : α} {a b : List α} (ha : ∀ c ∈ a, sep < c) (hb : ∀ c ∈ b, sep < c)
    (x y : List α) : a ++ sep :: x < b ++ sep :: y ↔ a < b ∨ (a = b ∧ x < y) := by
  induction a generalizing b with
  | nil =>
    cases b with
    | nil => simp
    | cons c b =>
      have hc : sep < c := hb c (by simp)
      simp [cons_lt_cons_iff, hc]
  | cons d a ih =>
    cases b with
    | nil =>
      have hd : sep < d := ha d (by simp)
      simp [cons_lt_cons_iff, hd.not_gt, hd.ne']
    | cons c b =>
      have hi := ih (b := b) (fun e he => ha e (by simp [he])) (fun e he => hb e (by simp [he]))
      simp only [cons_append, cons_lt_cons_iff, hi, List.cons.injEq]
      tauto

/-- A word below one that extends `p` either extends `p` itself or lies below
every extension of `p`. -/
theorem prefix_of_between {p x y z : List α} (hx : p ++ x ≤ z) (hy : z < p ++ y) : p <+: z := by
  induction p generalizing z with
  | nil => exact nil_prefix
  | cons c p ih =>
    cases z with
    | nil => exact absurd hx (by simp [← not_lt])
    | cons d z =>
      simp only [cons_append, ← not_lt, cons_lt_cons_iff, not_or, not_and] at hx hy
      obtain hd | ⟨rfl, hz⟩ := hy
      · exact absurd hd hx.1
      · obtain ⟨w, hw⟩ := ih (not_lt.mp (hx.2 rfl)) hz
        exact ⟨w, by simp [hw]⟩

end Lex

/-! ### Big-endian words -/

/-- The eight bytes of a word, most significant first. -/
def bigEndian (x : UInt64) : Bytes :=
  [(x >>> 56).toUInt8, (x >>> 48).toUInt8, (x >>> 40).toUInt8, (x >>> 32).toUInt8,
    (x >>> 24).toUInt8, (x >>> 16).toUInt8, (x >>> 8).toUInt8, x.toUInt8]

/-- The number a byte string spells in base 256. -/
def beNat (l : Bytes) : ℕ := l.foldl (fun n b => n * 256 + b.toNat) 0

/-- The word spelled by the first eight bytes. -/
def ofBigEndian (l : Bytes) : UInt64 := UInt64.ofNat (beNat (l.take 8))

@[simp] theorem bigEndian_length (x : UInt64) : (bigEndian x).length = 8 := rfl

theorem beNat_bigEndian (x : UInt64) : beNat (bigEndian x) = x.toNat := by
  have := x.toNat_lt
  simp only [beNat, bigEndian, foldl_cons, foldl_nil, UInt64.toNat_toUInt8,
    UInt64.toNat_shiftRight, Nat.shiftRight_eq_div_pow]
  simp
  omega

theorem foldl_beNat (l : Bytes) (n : ℕ) : l.foldl (fun n b => n * 256 + b.toNat) n = n * 256 ^ l.length + beNat l := by
  induction l generalizing n with
  | nil => simp [beNat]
  | cons b l ih =>
    simp only [beNat, foldl_cons, length_cons]
    rw [ih, ih (0 * 256 + b.toNat)]
    ring

theorem beNat_cons (b : UInt8) (l : Bytes) : beNat (b :: l) = b.toNat * 256 ^ l.length + beNat l := by
  have := foldl_beNat l (0 * 256 + b.toNat)
  simpa [beNat] using this

theorem beNat_lt (l : Bytes) : beNat l < 256 ^ l.length := by
  induction l with
  | nil => simp [beNat]
  | cons b l ih =>
    rw [beNat_cons, length_cons, pow_succ]
    have := b.toNat_lt
    nlinarith

/-- Words of one length are ordered as the numbers they spell. -/
theorem lt_iff_beNat_lt {a b : Bytes} (h : a.length = b.length) : a < b ↔ beNat a < beNat b := by
  induction a generalizing b with
  | nil =>
    cases b with
    | nil => simp
    | cons c b => simp at h
  | cons d a ih =>
    cases b with
    | nil => simp at h
    | cons c b =>
      have hl : a.length = b.length := by simpa using h
      have ha := beNat_lt a
      have hb := beNat_lt b
      rw [cons_lt_cons_iff, ih hl, beNat_cons, beNat_cons, hl, UInt8.lt_iff_toNat_lt, ← UInt8.toNat_inj]
      rw [hl] at ha
      rcases lt_trichotomy d.toNat c.toNat with hdc | hdc | hdc
      · have : (d.toNat + 1) * 256 ^ b.length ≤ c.toNat * 256 ^ b.length := Nat.mul_le_mul_right _ hdc
        constructor
        · intro _; nlinarith
        · intro _; exact Or.inl hdc
      · simp [hdc]
      · have : (c.toNat + 1) * 256 ^ b.length ≤ d.toNat * 256 ^ b.length := Nat.mul_le_mul_right _ hdc
        constructor
        · intro hh; omega
        · intro hh; nlinarith

theorem beNat_inj {a b : Bytes} (h : a.length = b.length) (hv : beNat a = beNat b) : a = b := by
  rcases lt_trichotomy a b with hab | hab | hab
  · have := (lt_iff_beNat_lt h).mp hab; omega
  · exact hab
  · have := (lt_iff_beNat_lt h.symm).mp hab; omega

@[simp] theorem ofBigEndian_bigEndian (x : UInt64) : ofBigEndian (bigEndian x) = x := by
  rw [ofBigEndian, take_of_length_le (by simp), beNat_bigEndian, UInt64.ofNat_toNat]

/-- Every byte complemented. -/
def complement (l : Bytes) : Bytes := l.map (~~~ ·)

@[simp] theorem complement_length (l : Bytes) : (complement l).length = l.length := by simp [complement]

@[simp] theorem complement_complement (l : Bytes) : complement (complement l) = l := by
  simp [complement, Function.comp_def]

theorem toNat_not (b : UInt8) : (~~~b).toNat = 255 - b.toNat := by
  simp

theorem beNat_complement (l : Bytes) : beNat (complement l) + beNat l + 1 = 256 ^ l.length := by
  induction l with
  | nil => simp [complement, beNat]
  | cons b l ih =>
    have hb := b.toNat_lt
    have hc : complement (b :: l) = (~~~b) :: complement l := rfl
    rw [hc, beNat_cons, beNat_cons, toNat_not, complement_length, length_cons, pow_succ]
    have hs : (255 - b.toNat) * 256 ^ l.length + b.toNat * 256 ^ l.length = 255 * 256 ^ l.length := by
      rw [← add_mul]; congr 1; omega
    nlinarith

/-- Complementing every byte of two words of one length reverses their order. -/
theorem complement_lt_iff {a b : Bytes} (h : a.length = b.length) : complement a < complement b ↔ b < a := by
  rw [lt_iff_beNat_lt (by simp [h]), lt_iff_beNat_lt h.symm]
  have ha := beNat_complement a
  have hb := beNat_complement b
  rw [h] at ha
  omega

theorem bigEndian_lt_iff (x y : UInt64) : bigEndian x < bigEndian y ↔ x < y := by
  rw [lt_iff_beNat_lt (by simp), beNat_bigEndian, beNat_bigEndian, UInt64.lt_iff_toNat_lt]

theorem complement_bigEndian_lt_iff (x y : UInt64) : complement (bigEndian x) < complement (bigEndian y) ↔ y < x := by
  rw [complement_lt_iff (by simp), bigEndian_lt_iff]

theorem bigEndian_inj {x y : UInt64} (h : bigEndian x = bigEndian y) : x = y := by
  rw [← ofBigEndian_bigEndian x, h, ofBigEndian_bigEndian]

end Armada.Ordered
