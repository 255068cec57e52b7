import Armada.Fsm.UserKeys
import Armada.Ordered.Latest

/-! The versions a database holds. In a database whose user keys have no null bytes the
user records are the versions of the user keys, sorted by key and newest first. A
point read finds the newest version of its key, and the cursor that skips to the next
user key stops at the newest version of every key. -/

namespace Armada.Fsm

open Ordered Keys Pebble Proto Program List Option

structure Version where
  key : Bytes
  seqno : UInt64
  value : Bytes

namespace Version

/-- The physical record of a version. -/
def record (v : Version) : Bytes × Bytes := (encodeUserKey v.key v.seqno, v.value)

/-- By user key, newest first. -/
def Before (v w : Version) : Prop := v.key < w.key ∨ (v.key = w.key ∧ w.seqno < v.seqno)

variable {v w : Version}

theorem record_lt_iff (hv : (0 : UInt8) ∉ v.key) (hw : (0 : UInt8) ∉ w.key) :
    v.record.1 < w.record.1 ↔ v.Before w := encodeUserKey_lt_iff hv hw _ _

theorem Before.key_le (h : v.Before w) : v.key ≤ w.key := by
  rcases h with h | h
  · exact h.le
  · exact h.1.le

end Version

def systemKeys : List Bytes := [sysLocalIndex, sysLeaderIndex, sysGCHorizon]

/-- Every key is a system key or the key of a version, of a user key without nulls. -/
def NullFree (m : DB) : Prop :=
  ∀ p x, m[p]? = some x → (∃ k s, (0 : UInt8) ∉ k ∧ p = encodeUserKey k s) ∨ p ∈ systemKeys

/-- The value of a version. -/
def ver (m : DB) (key : Bytes) (s : UInt64) : Option Bytes := m[encodeUserKey key s]?

/-- The version a record holds, if it is a user record. -/
def versionOf (e : Bytes × Bytes) : Option Version :=
  match decodeBytes e.1 with
  | .ok k => if k.keyType = typeUser then some ⟨k.key, k.seqno, e.2⟩ else none
  | .error _ => none

def versions (m : DB) : List Version := m.toList.filterMap versionOf

theorem versionOf_record (v : Version) : versionOf v.record = some v := by
  simp [versionOf, Version.record, decodeBytes_encodeUserKey]

variable {p key k : Bytes} {s : UInt64}

theorem versionOf_systemKey (hp : p ∈ systemKeys) (x : Bytes) : versionOf (p, x) = none := by
  simp only [systemKeys, mem_cons, not_mem_nil, or_false] at hp
  rcases hp with rfl | rfl | rfl <;> rfl

theorem not_header_of_mem_systemKeys (hp : p ∈ systemKeys) : ¬ userHeader <+: p := by
  simp only [systemKeys, mem_cons, not_mem_nil, or_false] at hp
  rcases hp with rfl | rfl | rfl
  · exact not_header_sysLocalIndex
  · exact not_header_sysLeaderIndex
  · exact not_header_sysGCHorizon

theorem encodeUserKey_notMem_systemKeys (key : Bytes) (s : UInt64) : encodeUserKey key s ∉ systemKeys :=
  fun h => not_header_of_mem_systemKeys h (header_encodeUserKey key s)

theorem encodeUserKey_lt_systemKey (key : Bytes) (s : UInt64) (hp : p ∈ systemKeys) : encodeUserKey key s < p := by
  have hlt : ∀ x : Bytes, encodeUserKey key s < encodeSystemKey x := by
    intro x
    change [v2, 0, 0, 0] ++ typeUser :: (key ++ 0x00 :: storedSeqno s) <
      [v2, 0, 0, 0] ++ typeSystem :: (x ++ 0x00 :: storedSeqno 0)
    rw [append_lt_append_iff, cons_lt_cons_iff]
    exact Or.inl (by decide)
  simp only [systemKeys, mem_cons, not_mem_nil, or_false] at hp
  rcases hp with rfl | rfl | rfl <;> exact hlt _

section
variable {m : DB} (hm : NullFree m)
include hm

variable {k : Bytes} {v : Version}

theorem noNull_of_ver {s : UInt64} {x : Bytes} (h : ver m k s = some x) : (0 : UInt8) ∉ k := by
  rcases hm _ x h with ⟨k', s', hk', heq⟩ | hsys
  · rw [(encodeUserKey_inj heq).1]
    exact hk'
  · exact absurd hsys (encodeUserKey_notMem_systemKeys k s)

theorem ver_eq_none (hk : (0 : UInt8) ∈ k) (s : UInt64) : ver m k s = none := by
  by_contra hne
  obtain ⟨x, hx⟩ := ne_none_iff_exists'.mp hne
  exact noNull_of_ver hm hx hk

theorem mem_versions (v : Version) : v ∈ versions m ↔ ver m v.key v.seqno = some v.value := by
  rw [versions, mem_filterMap]
  constructor
  · rintro ⟨⟨p, x⟩, he, hv⟩
    rw [m.mem_toList] at he
    rcases hm p x he with ⟨k, s, -, rfl⟩ | hsys
    · have hrecord := versionOf_record ⟨k, s, x⟩
      obtain rfl : v = ⟨k, s, x⟩ := Option.some.inj (hv.symm.trans hrecord)
      exact he
    · rw [versionOf_systemKey hsys] at hv
      cases hv
  · intro h
    exact ⟨v.record, (m.mem_toList _ _).mpr h, versionOf_record v⟩

theorem eq_of_mem_versions {w : Version} (hv : v ∈ versions m) (hw : w ∈ versions m)
    (hkey : v.key = w.key) (hs : v.seqno = w.seqno) : v = w := by
  obtain ⟨k, s, x⟩ := v
  obtain ⟨k', s', y⟩ := w
  obtain rfl : k = k' := hkey
  obtain rfl : s = s' := hs
  rw [mem_versions hm] at hv hw
  obtain rfl : x = y := Option.some.inj (hv.symm.trans hw)
  rfl

theorem noNull_of_mem_versions (h : v ∈ versions m) : (0 : UInt8) ∉ v.key :=
  noNull_of_ver hm ((mem_versions hm v).mp h)

theorem versions_sorted : (versions m).Pairwise Version.Before := by
  rw [versions, pairwise_filterMap]
  apply m.toList_ascending.imp_of_mem
  rintro ⟨p, x⟩ ⟨q, y⟩ hp hq hlt v hv w hw
  have hvm := noNull_of_mem_versions hm (mem_filterMap.mpr ⟨_, hp, hv⟩)
  have hwm := noNull_of_mem_versions hm (mem_filterMap.mpr ⟨_, hq, hw⟩)
  rw [← Version.record_lt_iff hvm hwm]
  rw [m.mem_toList] at hp hq
  rcases hm p x hp with ⟨k, s, -, rfl⟩ | hsys
  · obtain rfl : v = ⟨k, s, x⟩ := Option.some.inj (hv.symm.trans (versionOf_record ⟨k, s, x⟩))
    rcases hm q y hq with ⟨k', s', -, rfl⟩ | hsys
    · obtain rfl : w = ⟨k', s', y⟩ := Option.some.inj (hw.symm.trans (versionOf_record ⟨k', s', y⟩))
      exact hlt
    · rw [versionOf_systemKey hsys] at hw
      cases hw
  · rw [versionOf_systemKey hsys] at hv
    cases hv

end

/-! ### The newest version of a key -/

/-- The newest version of a key, with the number it carries. -/
def latest (m : DB) (key : Bytes) : Option (UInt64 × Bytes) :=
  ((versions m).find? (fun v => v.key = key)).map fun v => (v.seqno, v.value)

/-- What a reader sees of a newest version. -/
def live (o : Option (UInt64 × Bytes)) : Option Bytes :=
  o.bind fun v => if isTombstone v.2 then none else some v.2

theorem find?_eq_newest {l : List Version} (hl : l.Pairwise Version.Before) {p : Version → Bool}
    (key : Bytes) (hp : ∀ w, p w = true ↔ w.key = key) (v : Version) :
    l.find? p = some v ↔ v ∈ l ∧ v.key = key ∧ ∀ w ∈ l, w.key = key → w.seqno ≤ v.seqno := by
  induction l with
  | nil => simp
  | cons a l ih =>
    rw [pairwise_cons] at hl
    rw [forall_mem_cons]
    by_cases ha : a.key = key
    · rw [List.find?_cons_of_pos ((hp a).mpr ha), some_inj]
      constructor
      · rintro rfl
        refine ⟨by simp, ha, fun _ => le_rfl, fun w hw hkey => ?_⟩
        rcases hl.1 w hw with hlt | heq
        · exact absurd hlt (by rw [ha, hkey]; exact lt_irrefl _)
        · exact heq.2.le
      · rintro ⟨hv, hkey, hle, -⟩
        rcases mem_cons.mp hv with rfl | hv
        · rfl
        · rcases hl.1 v hv with hlt | heq
          · exact absurd hlt (by rw [ha, hkey]; exact lt_irrefl _)
          · exact absurd (hle ha) (not_le.mpr heq.2)
    · rw [List.find?_cons_of_neg (by rw [hp]; exact ha), ih hl.2, mem_cons]
      constructor
      · rintro ⟨hv, hkey, hmax⟩
        exact ⟨Or.inr hv, hkey, fun h => absurd h ha, hmax⟩
      · rintro ⟨rfl | hv, hkey, -, hmax⟩
        · exact absurd hkey ha
        · exact ⟨hv, hkey, hmax⟩

variable {m : DB}

theorem latest_isLatest (hm : NullFree m) (key : Bytes) : IsLatest (ver m key) (latest m key) := by
  rw [latest]
  cases hfind : (versions m).find? (fun v => v.key = key) with
  | none =>
    intro s
    rw [List.find?_eq_none] at hfind
    by_contra hne
    obtain ⟨x, hx⟩ := ne_none_iff_exists'.mp hne
    exact hfind ⟨key, s, x⟩ ((mem_versions hm _).mpr hx) (by simp)
  | some v =>
    obtain ⟨hmem, rfl, hmax⟩ := (find?_eq_newest (versions_sorted hm) key (by simp) v).mp hfind
    refine ⟨(mem_versions hm v).mp hmem, fun t ht => ?_⟩
    by_contra hne
    obtain ⟨x, hx⟩ := ne_none_iff_exists'.mp hne
    exact absurd (hmax ⟨v.key, t, x⟩ ((mem_versions hm _).mpr hx) rfl) (not_le.mpr ht)

theorem latest_eq_iff (hm : NullFree m) {o : Option (UInt64 × Bytes)} : latest m key = o ↔ IsLatest (ver m key) o :=
  ⟨fun h => h ▸ latest_isLatest hm key, fun h => (latest_isLatest hm key).unique h⟩

/-- A version is the newest of its key when no version of the key is newer. -/
theorem latest_eq_some_iff (hm : NullFree m) (v : Version) : latest m v.key = some (v.seqno, v.value) ↔
    v ∈ versions m ∧ ∀ w ∈ versions m, w.key = v.key → w.seqno ≤ v.seqno := by
  rw [latest_eq_iff hm, mem_versions hm]
  apply and_congr_right
  intro _
  constructor
  · intro h w hw hkey
    by_contra hlt
    have hnone := h w.seqno (not_le.mp hlt)
    rw [← hkey, (mem_versions hm w).mp hw] at hnone
    cases hnone
  · intro h t ht
    by_contra hne
    obtain ⟨x, hx⟩ := ne_none_iff_exists'.mp hne
    exact absurd (h ⟨v.key, t, x⟩ ((mem_versions hm _).mpr hx) rfl) (not_le.mpr ht)

theorem maxUint64_le (h : maxUint64 ≤ s) : s = maxUint64 := by
  apply le_antisymm _ h
  rw [UInt64.le_iff_toNat_le]
  have := s.toNat_lt
  simp only [maxUint64, UInt64.reduceToNat]
  omega

theorem le_encodeUserKey_max (hk : (0 : UInt8) ∉ k) (s : UInt64) : encodeUserKey k maxUint64 ≤ encodeUserKey k s := by
  rw [← not_lt, encodeUserKey_lt_iff hk hk]
  rintro (h | ⟨-, h⟩)
  · exact lt_irrefl _ h
  · exact absurd (maxUint64_le h.le) h.ne'

theorem encodeUserKey_le_iff (hk : (0 : UInt8) ∉ k) (s t : UInt64) : encodeUserKey k s ≤ encodeUserKey k t ↔ t ≤ s := by
  rw [← not_lt, encodeUserKey_lt_iff hk hk]
  simp

/-- Nothing at or after the newest possible version of a key comes before its newest
one. -/
theorem newest_le (hm : NullFree m) (hkey : (0 : UInt8) ∉ key)
    {v : UInt64 × Bytes} (hv : IsLatest (ver m key) (some v)) {x : Bytes} (hp : m[p]? = some x)
    (hle : encodeUserKey key maxUint64 ≤ p) : encodeUserKey key v.1 ≤ p := by
  rcases hm p x hp with ⟨k', s', hk', rfl⟩ | hsys
  · rcases lt_trichotomy k' key with hlt | rfl | hgt
    · have hbelow : encodeUserKey k' s' < encodeUserKey key maxUint64 :=
        (encodeUserKey_lt_iff hk' hkey _ _).mpr (Or.inl hlt)
      exact absurd hle (not_le.mpr hbelow)
    · rw [encodeUserKey_le_iff hkey]
      by_contra hlt
      have hnone := hv.2 s' (not_le.mp hlt)
      rw [ver, hp] at hnone
      cases hnone
    · exact ((encodeUserKey_lt_iff hkey hk' _ _).mpr (Or.inl hgt)).le
  · exact (encodeUserKey_lt_systemKey key v.1 hsys).le

theorem seekLatest_eq (hm : NullFree m) (hne : key ≠ []) (hkey : (0 : UInt8) ∉ key) :
    seekLatest m key = (latest m key).map fun v => (encodeUserKey key v.1, v.2) := by
  cases hseek : seekLatest m key with
  | some e =>
    rw [seekLatest_eq_some_iff] at hseek
    obtain ⟨he, hlo, hpre, hmin⟩ := hseek
    obtain ⟨s, heq⟩ : ∃ s, e.1 = encodeUserKey key s := by
      rcases hm e.1 e.2 he with ⟨k', s', hk', heq⟩ | hsys
      · rw [heq] at hpre
        exact ⟨s', by rw [heq, (keyPrefix_eq_iff hne hkey ..).mp hpre.symm]⟩
      · exact absurd (header_of_keyPrefix_eq hpre) (not_header_of_mem_systemKeys hsys)
    have hlatest : latest m key = some (s, e.2) := by
      rw [latest_eq_iff hm]
      refine ⟨by rw [ver, ← heq]; exact he, fun t ht => ?_⟩
      by_contra hne'
      obtain ⟨x, hx⟩ := ne_none_iff_exists'.mp hne'
      have hle := hmin _ x hx (le_encodeUserKey_max hkey t)
      rw [heq, encodeUserKey_le_iff hkey] at hle
      exact absurd hle (not_le.mpr ht)
    simp [hlatest, ← heq]
  | none =>
    cases hlatest : latest m key with
    | none => rfl
    | some v =>
      have hv := (latest_eq_iff hm).mp hlatest
      have hsome : seekLatest m key = some (encodeUserKey key v.1, v.2) := by
        rw [seekLatest_eq_some_iff]
        refine ⟨hv.1, le_encodeUserKey_max hkey _, ?_, fun p x hp hle => ?_⟩
        · rw [keyPrefix_encodeUserKey hne, keyPrefix_encodeUserKey hne]
        · exact newest_le hm hkey hv hp hle
      rw [hseek] at hsome
      cases hsome

end Armada.Fsm
