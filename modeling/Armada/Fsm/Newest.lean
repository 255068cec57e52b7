import Armada.Fsm.Collection
import Armada.Fsm.View

/-! The newest versions alone. A table that forgets all but the newest version of every
key, and never sweeps, is what all replicas agree on: a database tracks it when it has
the same newest versions, but for old tombstones that a sweep may have removed. -/

namespace Armada.Fsm

open Ordered Keys Pebble Proto Program

/-- The newest version of every key. -/
abbrev Newest := OrdMap Bytes (UInt64 × Bytes)

def Newest.view (n : Newest) : OrdMap Bytes Bytes := n.filterMap fun _ v => live (some v)

/-- Writes and deletions of newest versions. -/
def newest : Store Newest :=
  Store.ofView Newest.view (fun n key s value => n.alter key fun o => bump o s value)
    (fun n key s => n.alter key fun o => bump o s tombstoneValue)

theorem Newest.getElem?_view (n : Newest) (k : Bytes) : n.view[k]? = live n[k]? := by
  rw [Newest.view, OrdMap.getElem?_filterMap]
  cases n[k]? <;> rfl

theorem Newest.getElem?_removeAll (n : Newest) (keys : List Bytes) (s : UInt64) (k : Bytes) :
    (newest.removeAll s keys n)[k]? = if k ∈ keys then bump n[k]? s tombstoneValue else n[k]? := by
  induction keys generalizing n with
  | nil => simp [Store.removeAll]
  | cons key keys ih =>
    rw [Store.removeAll, List.foldl_cons]
    refine (ih _).trans ?_
    simp only [newest, Store.ofView, OrdMap.getElem?_alter]
    by_cases hk : key = k
    · simp [hk, bump_bump]
    · simp [hk, Ne.symm hk]

/-- The newest versions of a database. -/
def newestOf (m : DB) : Newest :=
  (versions m).foldr (fun v n => n.insert v.key (v.seqno, v.value)) ∅

theorem getElem?_newestOf (m : DB) (k : Bytes) : (newestOf m)[k]? = latest m k := by
  rw [newestOf, latest]
  induction versions m with
  | nil => simp
  | cons v l ih =>
    rw [List.foldr_cons, OrdMap.getElem?_insert, ih]
    by_cases hk : v.key = k
    · simp [hk]
    · simp [hk]

/-! ### Swept tombstones -/

/-- The newest version of a key, or none in place of a tombstone below `H`. -/
def Swept (H : UInt64) (o n : Option (UInt64 × Bytes)) : Prop :=
  o = n ∨ o = none ∧ ∃ t, t < H ∧ n = some (t, tombstoneValue)

namespace Swept

variable {H : UInt64} {o n : Option (UInt64 × Bytes)}

theorem live_eq (h : Swept H o n) : live o = live n := by
  rcases h with rfl | ⟨rfl, t, -, rfl⟩ <;> rfl

theorem mono (h : Swept H o n) {H' : UInt64} (hle : H ≤ H') : Swept H' o n := by
  rcases h with h | ⟨h, t, ht, hn⟩
  · exact Or.inl h
  · exact Or.inr ⟨h, t, ht.trans_le hle, hn⟩

theorem eq_of_live (h : Swept H o n) (hlive : (live o).isSome) : o = n := by
  rcases h with h | ⟨rfl, -⟩
  · exact h
  · cases hlive

theorem bump_eq (h : Swept H o n) {s : UInt64} (hs : H ≤ s) (value : Bytes) : bump o s value = bump n s value := by
  rcases h with rfl | ⟨rfl, t, ht, rfl⟩
  · rfl
  · rw [bump_none, bump_of_le (ht.le.trans hs)]

end Swept

/-- Every version has a positive number. -/
def Positive (m : DB) : Prop := ∀ k s x, ver m k s = some x → 1 ≤ s

variable {s : UInt64} {m : DB}

theorem Positive.insert (hm : Positive m) (hs : 1 ≤ s) (key value : Bytes) :
    Positive (m.insert (encodeUserKey key s) value) := by
  intro k t x hx
  rw [ver_insert] at hx
  split at hx
  · rw [Function.update_apply] at hx
    split at hx
    · next ht => exact ht ▸ hs
    · exact hm k t x hx
  · exact hm k t x hx

theorem Positive.insert_system (hm : Positive m) {p : Bytes} (hp : p ∈ systemKeys) (value : Bytes) :
    Positive (m.insert p value) := by
  intro k t x hx
  rw [ver_insert_system m hp] at hx
  exact hm k t x hx

theorem Positive.of_sameTable {m' : DB} (hm : Positive m) (h : SameTable m' m) : Positive m' := by
  intro k s x hx
  rw [ver, h.sameUser _ (header_encodeUserKey k s)] at hx
  exact hm k s x hx

theorem Positive.removeAll (hm : Positive m) (hs : 1 ≤ s) (keys : List Bytes) :
    Positive (physical.removeAll s keys m) := by
  induction keys generalizing m with
  | nil => exact hm
  | cons key keys ih => exact ih (hm.insert hs key tombstoneValue)

/-- The database has the newest versions, but for tombstones below `H`. -/
structure Tracks (H : UInt64) (m : DB) (n : Newest) : Prop where
  wellFormed : WellFormed m
  positive : Positive m
  swept : ∀ k, Swept H (latest m k) n[k]?

variable {n : Newest} {H : UInt64}

theorem Tracks.shows (h : Tracks H m n) : Shows m n.view :=
  ⟨h.wellFormed, fun k => by rw [n.getElem?_view, (h.swept k).live_eq]⟩

theorem Tracks.runGC (h : Tracks H m n) (hides : Bytes → Bool)
    (H' : UInt64) : ∃ m', runGC hides m m H' = .ok m' ∧ Tracks (max H H') m' n := by
  have hadds := AddsAbove.refl h.wellFormed.nullFree H'
  obtain ⟨m', hrun, hwithout⟩ := runGC_removes h.wellFormed.nullFree hides
    (fun v hv => h.positive _ _ _ ((mem_versions h.wellFormed.nullFree v).mp hv)) h.wellFormed.nullFree H'
  have hsub : ∀ k s x, ver m' k s = some x → ver m k s = some x := by
    intro k s x hx
    by_contra hne
    have hkept := hwithout.kept k s fun hr => by rw [hwithout.gone k s hr] at hx; cases hx
    exact hne (hkept ▸ hx)
  refine ⟨m', hrun, ⟨hwithout.nullFree, fun k s x hx => h.wellFormed.admitted k s x (hsub k s x hx)⟩,
    fun k s x hx => h.positive k s x (hsub k s x hx), fun k => ?_⟩
  rcases hwithout.latest_eq h.wellFormed.nullFree hadds k with heq | ⟨hnone, t, ht, htomb⟩
  · rw [heq]
    exact (h.swept k).mono (le_max_left _ _)
  · rcases h.swept k with hs | ⟨hs, -⟩
    · exact Or.inr ⟨hnone, t, ht.trans_le (le_max_right _ _), hs ▸ htomb⟩
    · rw [hs] at htomb
      cases htomb

/-! ### The simulation -/

namespace Tracks

variable {H : UInt64} {m : DB} {n : Newest} (h : Tracks H m n) {s : UInt64} (hs : 1 ≤ s)
include h

theorem livePage_eq {op : RangeOp} (hflag : FlagSettled m op) :
    let pairs := mapRange n.view op.key (op.rangeEnd.getD [])
    livePage op (moreFollows m op) pairs = livePage op (mapMore op pairs) pairs := by
  intro pairs
  have hpairs : liveScan m op.key (op.rangeEnd.getD []) = pairs := h.shows.liveScan_eq _ _
  apply congrArg (List.headD · _)
  apply fillPages_congr
  intro hpos hlt
  rcases Nat.lt_or_ge (op.limit.toNat + 1) pairs.length with hgt | hle
  · rw [moreFollows_of_lt (by rw [hpairs]; exact hgt), mapMore, decide_eq_true hgt]
  · rw [hflag hpos (by rw [hpairs]; omega), mapMore, decide_eq_false (by omega)]

theorem setHorizon (s : UInt64) : Tracks H (physical.setHorizon m s) n where
  wellFormed := h.wellFormed.insert_system (by simp [systemKeys]) _
  positive := h.positive.insert_system (by simp [systemKeys]) _
  swept k := by
    have hk := h.wellFormed.latest_insert_system (p := sysGCHorizon) (by simp [systemKeys]) (littleEndian s) k
    exact hk ▸ h.swept k

include hs

theorem write {key : Bytes} (hkey : Admitted key) (hH : H ≤ s) (value : Bytes) :
    Tracks H (physical.write m key s value) (newest.write n key s value) where
  wellFormed := h.wellFormed.insert hkey s value
  positive := h.positive.insert hs key value
  swept k := by
    simp only [physical, newest, Store.ofView]
    rw [h.wellFormed.latest_insert hkey, OrdMap.getElem?_alter]
    split
    · next hk => exact Or.inl (hk ▸ (h.swept key).bump_eq hH value)
    · exact h.swept k

theorem removeAll {keys : List Bytes} (hkeys : ∀ k ∈ keys, Admitted k ∧ (live (latest m k)).isSome) :
    Tracks H (physical.removeAll s keys m) (newest.removeAll s keys n) where
  wellFormed := removeAll_wellFormed h.wellFormed (fun k hk => (hkeys k hk).1) s
  positive := h.positive.removeAll hs keys
  swept k := by
    rw [latest_removeAll h.wellFormed (fun k hk => (hkeys k hk).1), n.getElem?_removeAll]
    split
    · next hk => exact Or.inl (by rw [(h.swept k).eq_of_live (hkeys k hk).2])
    · exact h.swept k

end Tracks

/-- Operations a sweep at or below `H` cannot disturb: writes at or above it, range
compares and flags of range reads that are settled. -/
def settledAbove (H : UInt64) : Guard DB where
  put s op _ := Admitted op.key ∧ 1 ≤ s ∧ H ≤ s
  delete s del _ := IsTarget del.key del.rangeEnd ∧ 1 ≤ s
  compare cmp m := IsTarget cmp.key cmp.rangeEnd ∧ ∀ high ∈ cmp.rangeEnd, Settled m cmp high
  range op m := IsTarget op.key op.rangeEnd ∧ (op.rangeEnd.isSome → FlagSettled m op)
  gc _ _ := True

theorem physical_simulates_newest (H : UInt64) : Simulates physical newest (Tracks H) (settledAbove H) Eq := by
  apply physical_simulates_ofView
  · exact fun m n h => h.shows
  · rintro s op m n h ⟨hkey, hs, hH⟩
    exact ⟨hkey, h.write hs hkey hH op.value⟩
  · rintro s del m n h ⟨hdel, hs⟩
    exact ⟨hdel, fun found hfound => h.removeAll hs (live_of_targets h.wellFormed hdel hfound)⟩
  · exact fun cmp m n h hcmp => hcmp
  · intro op m n h hop
    exact ⟨hop.1, fun r => rfl, fun hrange => h.livePage_eq (hop.2 hrange)⟩
  · exact fun s m n h _ => h.setHorizon s

end Armada.Fsm
