import Armada.Fsm.Sweep

/-! Garbage collection as readers see it. A sweep removes only versions below its horizon of
keys it has seen, and leaves the newest version of every key unless it is an old tombstone,
whatever was written in the meantime. A sweep that sees everything leaves at most one version
below the horizon of a key, a live one. -/

namespace Armada.Fsm

open Ordered Keys Pebble Proto Program List

/-- The database has everything the snapshot has, and below the horizon nothing else. -/
structure AddsAbove (H : UInt64) (snap db : DB) : Prop where
  nullFree : NullFree db
  below : ∀ k s, s < H → ver db k s = ver snap k s
  above : ∀ k s, ver snap k s ≠ none → ver db k s ≠ none

variable {snap : DB}

theorem AddsAbove.refl (hsnap : NullFree snap) (H : UInt64) : AddsAbove H snap snap :=
  ⟨hsnap, fun _ _ _ => rfl, fun _ _ h => h⟩

variable {v : Version} {H : UInt64}

theorem AddsAbove.insert {db : DB} (h : AddsAbove H snap db) (hnull : (0 : UInt8) ∉ v.key) (hv : H ≤ v.seqno) :
    AddsAbove H snap (db.insert v.record.1 v.record.2) := by
  have hver : ∀ k s, ver (db.insert v.record.1 v.record.2) k s =
      if v.key = k ∧ v.seqno = s then some v.value else ver db k s := by
    intro k s
    rw [Version.record, ver_insert]
    by_cases hk : v.key = k
    · simp only [hk, if_true, true_and, Function.update_apply, eq_comm (a := s)]
    · simp [hk]
  refine ⟨?_, fun k s hs => ?_, fun k s hks => ?_⟩
  · intro p x hp
    rw [OrdMap.getElem?_insert] at hp
    split at hp
    · next heq => exact Or.inl ⟨v.key, v.seqno, hnull, heq.symm⟩
    · exact h.nullFree p x hp
  · rw [hver, if_neg fun heq : v.key = k ∧ v.seqno = s => absurd (heq.2 ▸ hs) (not_lt.mpr hv), h.below k s hs]
  · rw [hver]
    split
    · simp
    · exact h.above k s hks

theorem insertAll_addsAbove (hsnap : NullFree snap) {writes : List Version}
    (hwrites : ∀ v ∈ writes, (0 : UInt8) ∉ v.key ∧ H ≤ v.seqno) :
    AddsAbove H snap (OrdMap.insertAll snap (writes.map Version.record)) := by
  have hall : ∀ {db : DB}, AddsAbove H snap db →
      AddsAbove H snap (OrdMap.insertAll db (writes.map Version.record)) := by
    induction writes with
    | nil => exact fun h => h
    | cons v writes ih =>
      intro db h
      rw [forall_mem_cons] at hwrites
      exact ih hwrites.2 (h.insert hwrites.1.1 hwrites.1.2)
  exact hall (.refl hsnap H)

/-! ### The newest version -/

section
variable {H : UInt64} {snap db db' : DB} {hides : Bytes → Bool} (hsnap : NullFree snap) (hadds : AddsAbove H snap db)
include hsnap hadds

theorem seqno_le_of_mem_visible {v : Version} (hv : v ∈ visible hides snap) {w : UInt64 × Bytes}
    (hw : latest db v.key = some w) : v.seqno ≤ w.1 := by
  have hnewest := (latest_eq_iff hadds.nullFree).mp hw
  have hver := (mem_versions hsnap v).mp (mem_filter.mp hv).1
  by_contra hgt
  exact hadds.above v.key v.seqno (by simp [hver]) (hnewest.2 _ (not_le.mp hgt))

variable (h : Without (Removes H (visible hides snap)) db db')
include h

/-- A sweep leaves the newest version of a key, unless it is a tombstone below the
horizon. -/
theorem Without.latest_eq (k : Bytes) : latest db' k = latest db k ∨
    latest db' k = none ∧ ∃ t, t < H ∧ latest db k = some (t, tombstoneValue) := by
  have hnewest := latest_isLatest hadds.nullFree k
  cases hl : latest db k with
  | none =>
    rw [hl] at hnewest
    exact Or.inl ((latest_eq_iff h.nullFree).mpr fun s => h.eq_none (hnewest s))
  | some w =>
    obtain ⟨t, x⟩ := w
    rw [hl] at hnewest
    by_cases hr : Removes H (visible hides snap) k t
    · obtain ⟨v, hv, rfl, hle, heq⟩ := hr
      obtain ⟨hvis, hlt, -⟩ := (mem_firstOld (visible_sorted hsnap hides) v).mp hv
      -- the removal starts at the newest version, so that is a tombstone
      obtain rfl : t = v.seqno := le_antisymm hle (seqno_le_of_mem_visible hsnap hadds hvis hl)
      have hx := hnewest.1
      rw [hadds.below _ _ hlt, (mem_versions hsnap v).mp (mem_filter.mp hvis).1] at hx
      cases hx
      have habove : hasAbove H (visible hides snap) v.key = false := by
        rw [hasAbove, any_eq_false]
        intro w hw
        simp only [Bool.and_eq_true, decide_eq_true_eq, not_and, not_le]
        rintro hkey
        exact (seqno_le_of_mem_visible hsnap hadds hw (hkey ▸ hl)).trans_lt hlt
      have htomb : isTombstone v.value = true := (heq rfl).resolve_left (by simp [habove])
      refine Or.inr ⟨(latest_eq_iff h.nullFree).mpr fun s => ?_, v.seqno, hlt, ?_⟩
      · rcases le_or_gt s v.seqno with hs | hs
        · exact h.gone v.key s ⟨v, hv, rfl, hs, fun _ => Or.inr htomb⟩
        · exact h.eq_none (hnewest.2 s hs)
      · rw [show v.value = tombstoneValue by simpa [isTombstone] using htomb]
    · left
      rw [latest_eq_iff h.nullFree]
      exact ⟨by rw [h.kept k t hr]; exact hnewest.1, fun s hs => h.eq_none (hnewest.2 s hs)⟩

end

/-! ### Safety and exactness -/

/-- A sweep of `snap` at `H`, committed to `db`, is invisible: it keeps every version at
or above the horizon and what readers see of every key, removes versions only, and those
only because of a version of the same key, below the horizon and not older, that the
snapshot holds. -/
structure Invisible (H : UInt64) (snap db db' : DB) : Prop where
  onlyRemoves : ∀ v ∈ versions db', v ∈ versions db
  keepsAbove : ∀ v ∈ versions db, H ≤ v.seqno → v ∈ versions db'
  sameView : ∀ k, live (latest db' k) = live (latest db k)
  ownKey : ∀ v ∈ versions db, v ∉ versions db' →
    ∃ w ∈ versions snap, w.key = v.key ∧ w.seqno < H ∧ v.seqno ≤ w.seqno

/-- Below the horizon every key has at most one version, which is no tombstone and not
shadowed by a version that the snapshot holds. -/
structure Exact (H : UInt64) (snap db' : DB) : Prop where
  single : ∀ v ∈ versions db', ∀ w ∈ versions db', v.key = w.key → v.seqno < H → w.seqno < H → v = w
  noTombstone : ∀ v ∈ versions db', v.seqno < H → isTombstone v.value = false
  notShadowed : ∀ v ∈ versions db', v.seqno < H → ∀ w ∈ versions snap, w.key = v.key → w.seqno < H

section
variable {H : UInt64} {snap db db' : DB} {hides : Bytes → Bool} (hsnap : NullFree snap)
  (hadds : AddsAbove H snap db) (h : Without (Removes H (visible hides snap)) db db')
include hsnap hadds h

omit hsnap in
theorem Without.mem_versions_of {v : Version} (hv : v ∈ versions db') :
    v ∈ versions db ∧ ¬ Removes H (visible hides snap) v.key v.seqno := by
  rw [mem_versions h.nullFree] at hv
  have hnot : ¬ Removes H (visible hides snap) v.key v.seqno := by
    intro hr
    rw [h.gone _ _ hr] at hv
    cases hv
  exact ⟨(mem_versions hadds.nullFree v).mpr (by rw [← h.kept _ _ hnot]; exact hv), hnot⟩

theorem Without.invisible : Invisible H snap db db' where
  onlyRemoves _ hv := (h.mem_versions_of hadds hv).1
  keepsAbove v hv hge := by
    rw [mem_versions hadds.nullFree] at hv
    rw [mem_versions h.nullFree, h.kept, hv]
    rintro ⟨w, hw, -, hle, -⟩
    rw [mem_firstOld (visible_sorted hsnap hides)] at hw
    exact absurd (hge.trans hle) (not_le.mpr hw.2.1)
  sameView k := by
    rcases h.latest_eq hsnap hadds k with heq | ⟨hnone, t, -, htomb⟩
    · rw [heq]
    · rw [hnone, htomb]
      rfl
  ownKey v hv hnot := by
    have hr : Removes H (visible hides snap) v.key v.seqno := by
      by_contra hr
      rw [mem_versions h.nullFree, h.kept _ _ hr, ← mem_versions hadds.nullFree] at hnot
      exact hnot hv
    obtain ⟨w, hw, hkey, hle, -⟩ := hr
    rw [mem_firstOld (visible_sorted hsnap hides)] at hw
    exact ⟨w, (mem_filter.mp hw.1).1, hkey, hw.2.1, hle⟩

theorem Without.exact (hvis : ∀ v ∈ versions snap, v ∈ visible hides snap) : Exact H snap db' := by
  -- a version left below the horizon is where the removal of its key started
  have hleft : ∀ v ∈ versions db', v.seqno < H → v ∈ firstOld H (visible hides snap) ∧
      hasAbove H (visible hides snap) v.key = false ∧ isTombstone v.value = false := by
    intro v hv hlt
    obtain ⟨hdb, hnot⟩ := h.mem_versions_of hadds hv
    rw [mem_versions hadds.nullFree, hadds.below _ _ hlt, ← mem_versions hsnap] at hdb
    obtain ⟨w, hw⟩ := exists_firstOld (visible_sorted hsnap hides) (hvis v hdb) hlt
    have hmem := (mem_firstOld (visible_sorted hsnap hides) w).mp hw.1
    have hle : v.seqno ≤ w.seqno := hmem.2.2 v (hvis v hdb) hw.2.symm hlt
    have heq : v.seqno = w.seqno ∧ ¬ (hasAbove H (visible hides snap) v.key = true ∨
        isTombstone w.value = true) := by
      by_contra hne
      refine hnot ⟨w, hw.1, hw.2, hle, fun hs => ?_⟩
      by_contra hna
      exact hne ⟨hs, hna⟩
    obtain rfl : v = w := eq_of_mem_versions hsnap hdb (mem_filter.mp hmem.1).1 hw.2.symm heq.1
    simpa [hw.1] using heq.2
  refine ⟨fun v hv w hw hkey hv' hw' => ?_, fun v hv hlt => (hleft v hv hlt).2.2, fun v hv hlt w hw hkey => ?_⟩
  · obtain ⟨hvis', -, hvmax⟩ := (mem_firstOld (visible_sorted hsnap hides) v).mp (hleft v hv hv').1
    obtain ⟨hwis, -, hwmax⟩ := (mem_firstOld (visible_sorted hsnap hides) w).mp (hleft w hw hw').1
    exact eq_of_mem_versions hsnap (mem_filter.mp hvis').1 (mem_filter.mp hwis).1 hkey
      (le_antisymm (hwmax v hvis' hkey hv') (hvmax w hwis hkey.symm hw'))
  · have habove := (hleft v hv hlt).2.1
    rw [hasAbove, any_eq_false] at habove
    simpa [hkey] using habove w (hvis w hw)

end

theorem mem_visible_of_admitted {hides : Bytes → Bool} (hv : v ∈ versions snap)
    (hshown : hides v.record.1 = false) (hkey : Admitted v.key) : v ∈ visible hides snap := by
  have hwithin := (within_iff (Or.inr rfl) (Or.inr rfl) hkey v.seqno).mpr ⟨wildcard_le hkey, Or.inl rfl⟩
  rw [visible, mem_filter, hshown]
  exact ⟨hv, by simpa [Version.record] using hwithin⟩

/-- A sweep of a snapshot, committed after the versions `writes` above its horizon were
written, is invisible whatever the filter hides from it, and exact when nothing is
hidden and the keys are admitted ones. -/
theorem runGC_correct (snap : DB) (hsnap : NullFree snap) (hpos : ∀ v ∈ versions snap, 1 ≤ v.seqno)
    (H : UInt64) (hides : Bytes → Bool) (writes : List Version)
    (hwrites : ∀ v ∈ writes, (0 : UInt8) ∉ v.key ∧ H ≤ v.seqno) :
    ∃ db', runGC hides snap (OrdMap.insertAll snap (writes.map Version.record)) H = .ok db' ∧
      Invisible H snap (OrdMap.insertAll snap (writes.map Version.record)) db' ∧
      ((∀ v ∈ versions snap, hides v.record.1 = false ∧ Admitted v.key) → Exact H snap db') := by
  have hadds := insertAll_addsAbove hsnap hwrites
  obtain ⟨db', hrun, hwithout⟩ := runGC_removes hsnap hides hpos hadds.nullFree H
  exact ⟨db', hrun, hwithout.invisible hsnap hadds, fun hall => hwithout.exact hsnap hadds fun v hv =>
    mem_visible_of_admitted hv (hall v hv).1 (hall v hv).2⟩

/-- Versions of a key, a tombstone among them, and of a longer key that it begins. -/
def sampleVersions : List Version :=
  [⟨[0x61], 1, [0x31]⟩, ⟨[0x61], 3, tombstoneValue⟩, ⟨[0x61], 7, [0x32]⟩, ⟨[0x61, 0x62], 2, [0x33]⟩,
    ⟨[0x61, 0x62], 4, [0x34]⟩]

def sampleSnapshot : DB := OrdMap.insertAll ∅ (sampleVersions.map Version.record)

theorem sampleSnapshot_nullFree : NullFree sampleSnapshot :=
  (insertAll_addsAbove (H := 0) wellFormed_empty.nullFree (by decide)).nullFree

theorem runGC_correct_sampleSnapshot : ∃ db', runGC (fun p => p = encodeUserKey [0x61] 7) sampleSnapshot
        (OrdMap.insertAll sampleSnapshot ([⟨[0x61], 6, [0x35]⟩].map Version.record)) 5 = .ok db' ∧
      Invisible 5 sampleSnapshot (OrdMap.insertAll sampleSnapshot ([⟨[0x61], 6, [0x35]⟩].map Version.record)) db' ∧
      ((∀ v ∈ versions sampleSnapshot, decide (v.record.1 = encodeUserKey [0x61] 7) = false ∧ Admitted v.key) →
        Exact 5 sampleSnapshot db') :=
  runGC_correct sampleSnapshot sampleSnapshot_nullFree (by decide) 5 _ [⟨[0x61], 6, [0x35]⟩] (by decide)

set_option maxRecDepth 20000 in
/-- A version below the horizon that is newest in the snapshot stays, although a version
above the horizon was written before the sweep committed. -/
theorem runGC_leaves_shadowed : ∃ db', runGC (fun _ => false) (OrdMap.insertAll ∅ [(encodeUserKey [0x61] 1, [0x31])])
        (OrdMap.insertAll ∅ [(encodeUserKey [0x61] 1, [0x31]), (encodeUserKey [0x61] 6, [0x32])]) 5 = .ok db' ∧
      ver db' [0x61] 1 = some [0x31] ∧ ver db' [0x61] 6 = some [0x32] :=
  ⟨_, rfl, by decide, by decide⟩

end Armada.Fsm
