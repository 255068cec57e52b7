import Armada.Replication.Artefacts

/-! Garbage collection of snapshot artefacts. A follower that starts from nothing loads a full
snapshot and goes on by incrementals that begin at or below where it is. The collector keeps the
newest full snapshot and the incrementals from its tip on; an older one that bridges the tip may
have led further. -/

namespace Armada.Replication

open Ordered Program List

/-- The fulls from the newest on, as `gcTable` sorts them. -/
def sortedFulls (artefacts : List Meta) : List Meta :=
  (artefacts.filter fun a => a.type = .full).insertionSort fun a b => b.tipIndex ≤ a.tipIndex

def latestFullTip (artefacts : List Meta) : UInt64 :=
  match sortedFulls artefacts with
  | [] => 0
  | a :: _ => a.tipIndex

/-- An artefact old enough, whose deletion succeeds. -/
def deletes (cutoff : ℕ) (deleteArtefact : Meta → Bool) (a : Meta) : Bool :=
  !decide (cutoff < a.createdAt) && deleteArtefact a

/-- `gcTable`: the artefacts left, and the number deleted. `deleteArtefact` tells of which
artefact the snapshot object gets deleted. -/
def gcTable (leased : String → Bool) (cutoff : ℕ) (deleteArtefact : Meta → Bool) (artefacts : List Meta) :
    List Meta × ℕ :=
  match artefacts with
  | [] => ([], 0)
  | first :: _ =>
    if leased ("snapshots/" ++ first.table) then (artefacts, 0)
    else
      let fulls := sortedFulls artefacts
      let incrs := artefacts.filter fun a => a.type = .incremental
      let oldFulls := fulls.drop 1
      let inactive := fun a : Meta => decide (a.baseIndex < latestFullTip artefacts) && deletes cutoff deleteArtefact a
      (fulls.take 1 ++ oldFulls.filter (fun a => !deletes cutoff deleteArtefact a) ++
        incrs.filter (fun a => !inactive a),
        (oldFulls.filter fun a => deletes cutoff deleteArtefact a).length + (incrs.filter fun a => inactive a).length)

/-- Where a follower can get to from nothing. -/
inductive Reachable (artefacts : List Meta) : UInt64 → Prop
  | full {a : Meta} (ha : a ∈ artefacts) (htype : a.type = .full) : Reachable artefacts a.tipIndex
  | incremental {i : UInt64} {a : Meta} (hi : Reachable artefacts i) (ha : a ∈ artefacts)
    (htype : a.type = .incremental)
    (hbase : a.baseIndex ≤ i) (htip : i < a.tipIndex) : Reachable artefacts a.tipIndex

def Highest (artefacts : List Meta) (i : UInt64) : Prop := IsGreatest {i | Reachable artefacts i} i

/-- An incremental that the collector deletes. -/
def Collected (leased : String → Bool) (cutoff : ℕ) (deleteArtefact : Meta → Bool) (artefacts : List Meta) (a : Meta) :
    Prop :=
  a ∈ artefacts ∧ a.type = .incremental ∧ (∀ first ∈ artefacts.head?, leased ("snapshots/" ++ first.table) = false) ∧
    a.baseIndex < latestFullTip artefacts ∧ deletes cutoff deleteArtefact a = true

/-- Where the newest full leads by the incrementals that are not deleted. -/
inductive Chain (keep : Meta → Prop) (artefacts : List Meta) : UInt64 → Prop
  | full : Chain keep artefacts (latestFullTip artefacts)
  | incremental {i : UInt64} {a : Meta} (hi : Chain keep artefacts i) (ha : a ∈ artefacts)
    (htype : a.type = .incremental) (hkeep : keep a) (hbase : a.baseIndex ≤ i) (htip : i < a.tipIndex) :
    Chain keep artefacts a.tipIndex

section
variable {artefacts kept : List Meta}

theorem mem_sortedFulls {a : Meta} : a ∈ sortedFulls artefacts ↔ a ∈ artefacts ∧ a.type = .full := by
  simp [sortedFulls]

theorem pairwise_sortedFulls (artefacts : List Meta) :
    (sortedFulls artefacts).Pairwise fun a b => b.tipIndex ≤ a.tipIndex := by
  have : Std.Total fun a b : Meta => b.tipIndex ≤ a.tipIndex := ⟨fun a b => le_total _ _⟩
  have : IsTrans Meta fun a b => b.tipIndex ≤ a.tipIndex := ⟨fun a b c hab hbc => hbc.trans hab⟩
  exact pairwise_insertionSort _ _

theorem le_latestFullTip {a : Meta} (ha : a ∈ artefacts) (htype : a.type = .full) :
    a.tipIndex ≤ latestFullTip artefacts := by
  have hmem := mem_sortedFulls.mpr ⟨ha, htype⟩
  have hsorted := pairwise_sortedFulls artefacts
  unfold latestFullTip
  cases hfulls : sortedFulls artefacts with
  | nil =>
    rw [hfulls] at hmem
    cases hmem
  | cons first rest =>
    rw [hfulls] at hmem hsorted
    rcases mem_cons.mp hmem with rfl | hrest
    · exact le_rfl
    · exact rel_of_pairwise_cons hsorted hrest

variable {i : UInt64}

theorem Reachable.mono (hsub : ∀ a ∈ kept, a ∈ artefacts) (h : Reachable kept i) : Reachable artefacts i := by
  induction h with
  | full ha htype => exact .full (hsub _ ha) htype
  | incremental _ ha htype hbase htip ih => exact .incremental ih (hsub _ ha) htype hbase htip

theorem Reachable.exists_tip (h : Reachable artefacts i) : i ∈ artefacts.map (·.tipIndex) := by
  cases h with
  | full ha => exact mem_map_of_mem ha
  | incremental _ ha => exact mem_map_of_mem ha

theorem exists_highest (h : Reachable artefacts i) : ∃ j, Highest artefacts j ∧ i ≤ j := by
  have htips : {i | Reachable artefacts i} ⊆ {i | i ∈ artefacts.map (·.tipIndex)} := fun j hj => hj.exists_tip
  have hfinite : {i | Reachable artefacts i}.Finite := (finite_toSet _).subset htips
  obtain ⟨j, hj, hmax⟩ := Set.exists_max_image _ id hfinite ⟨i, h⟩
  exact ⟨j, ⟨hj, fun k hk => hmax k hk⟩, hmax i h⟩

theorem highest_iff (hsub : ∀ i, Reachable kept i → Reachable artefacts i)
    (hpass : ∀ i, Reachable artefacts i → ∃ j, Reachable kept j ∧ i ≤ j) (i : UInt64) :
    Highest artefacts i ↔ Highest kept i := by
  constructor
  · rintro ⟨hi, hmax⟩
    obtain ⟨j, hj, hij⟩ := hpass i hi
    obtain rfl := le_antisymm hij (hmax (hsub j hj))
    exact ⟨hj, fun k hk => hmax (hsub k hk)⟩
  · rintro ⟨hi, hmax⟩
    refine ⟨hsub i hi, fun k hk => ?_⟩
    obtain ⟨j, hj, hkj⟩ := hpass k hk
    exact hkj.trans (hmax hj)

end

section
variable {leased : String → Bool} {cutoff : ℕ} {deleteArtefact : Meta → Bool} {artefacts : List Meta} {a : Meta}

theorem mem_of_mem_gcTable (h : a ∈ (gcTable leased cutoff deleteArtefact artefacts).1) : a ∈ artefacts := by
  unfold gcTable at h
  split at h
  · exact h
  · split at h
    · exact h
    · simp only [mem_append, mem_filter] at h
      rcases h with (h | h) | h
      · exact (mem_sortedFulls.mp (mem_of_mem_take h)).1
      · exact (mem_sortedFulls.mp (mem_of_mem_drop h.1)).1
      · exact h.1.1

theorem mem_gcTable_incremental (ha : a ∈ artefacts) (htype : a.type = .incremental) :
    a ∈ (gcTable leased cutoff deleteArtefact artefacts).1 ↔ ¬ Collected leased cutoff deleteArtefact artefacts a := by
  have hfull : a ∉ sortedFulls artefacts := fun h => by
    rw [mem_sortedFulls, htype] at h
    cases h.2
  cases artefacts with
  | nil => cases ha
  | cons first rest =>
    unfold gcTable
    cases hleased : leased ("snapshots/" ++ first.table) with
    | true => simp [Collected, hleased, ha]
    | false =>
      have htake : a ∉ (sortedFulls (first :: rest)).take 1 := fun h => hfull (mem_of_mem_take h)
      have htail : a ∉ (sortedFulls (first :: rest)).tail := fun h => hfull (mem_of_mem_tail h)
      have hiff : (latestFullTip (first :: rest) ≤ a.baseIndex ∨ deletes cutoff deleteArtefact a = false) ↔
          (a.baseIndex < latestFullTip (first :: rest) → deletes cutoff deleteArtefact a = false) := by
        rw [← not_lt]
        exact Decidable.imp_iff_not_or.symm
      simpa [Collected, ha, htype, hleased, htake, htail] using hiff

theorem exists_mem_gcTable_full (leased : String → Bool) (cutoff : ℕ) (deleteArtefact : Meta → Bool)
    (ha : a ∈ artefacts) (htype : a.type = .full) :
    ∃ newest ∈ (gcTable leased cutoff deleteArtefact artefacts).1, newest.type = .full ∧
    newest.tipIndex = latestFullTip artefacts := by
  have hmem := mem_sortedFulls.mpr ⟨ha, htype⟩
  cases hfulls : sortedFulls artefacts with
  | nil =>
    rw [hfulls] at hmem
    cases hmem
  | cons newest old =>
    have hnewest : newest ∈ artefacts ∧ newest.type = .full := by
      rw [← mem_sortedFulls, hfulls]
      exact mem_cons_self ..
    refine ⟨newest, ?_, hnewest.2, by rw [latestFullTip, hfulls]⟩
    cases artefacts with
    | nil => cases ha
    | cons first rest =>
      unfold gcTable
      dsimp only
      split
      · exact hnewest.1
      · simp [hfulls]

variable {i : UInt64}

theorem Chain.reachable (hfull : a ∈ artefacts) (htype : a.type = .full)
    (h : Chain (fun a => ¬ Collected leased cutoff deleteArtefact artefacts a) artefacts i) :
    Reachable (gcTable leased cutoff deleteArtefact artefacts).1 i := by
  induction h with
  | full =>
    obtain ⟨newest, hmem, hnewest, htip⟩ := exists_mem_gcTable_full leased cutoff deleteArtefact hfull
      htype
    exact htip ▸ .full hmem hnewest
  | incremental _ ha htype hkeep hbase htip ih =>
    exact .incremental ih ((mem_gcTable_incremental ha htype).mpr hkeep) htype hbase htip

theorem exists_chain (h : Reachable (gcTable leased cutoff deleteArtefact artefacts).1 i) :
    ∃ j, Chain (fun a => ¬ Collected leased cutoff deleteArtefact artefacts a) artefacts j ∧ i ≤ j := by
  induction h with
  | full ha htype => exact ⟨_, .full, le_latestFullTip (mem_of_mem_gcTable ha) htype⟩
  | @incremental i a _ ha htype hbase htip ih =>
    obtain ⟨j, hj, hij⟩ := ih
    by_cases hpassed : a.tipIndex ≤ j
    · exact ⟨j, hj, hpassed⟩
    · have hmem := mem_of_mem_gcTable ha
      exact ⟨a.tipIndex, .incremental hj hmem htype ((mem_gcTable_incremental hmem htype).mp ha) (hbase.trans hij)
        (not_le.mp hpassed), le_rfl⟩

theorem exists_full_of_lt (h : i < latestFullTip artefacts) : ∃ a ∈ artefacts, a.type = .full := by
  cases hfulls : sortedFulls artefacts with
  | nil =>
    have hzero : latestFullTip artefacts = 0 := by rw [latestFullTip, hfulls]
    rw [hzero] at h
    exact absurd h (not_lt.mpr (UInt64.le_iff_toNat_le.mpr (Nat.zero_le _)))
  | cons newest old =>
    refine ⟨newest, mem_sortedFulls.mp ?_⟩
    rw [hfulls]
    exact mem_cons_self ..

theorem exists_full (h : Reachable artefacts i) : ∃ a ∈ artefacts, a.type = .full := by
  induction h with
  | full ha htype => exact ⟨_, ha, htype⟩
  | incremental _ _ _ _ _ ih => exact ih

end

/-- The highest index that a follower can recover to is the same after a collection if and
only if no incremental is deleted that ends above where the newest full and the incrementals
left lead. -/
theorem gcTable_keeps_highest_iff (leased : String → Bool) (cutoff : ℕ) (deleteArtefact : Meta → Bool)
    (artefacts : List Meta) :
    (∀ i, Highest artefacts i ↔ Highest (gcTable leased cutoff deleteArtefact artefacts).1 i) ↔
      ∀ a, Collected leased cutoff deleteArtefact artefacts a →
        ∃ i, Chain (fun a => ¬ Collected leased cutoff deleteArtefact artefacts a) artefacts i ∧ a.tipIndex ≤ i := by
  constructor
  · intro hsame a hcollected
    obtain ⟨ha, htype, -, hbase, -⟩ := hcollected
    obtain ⟨full, hmem, hfull⟩ := exists_full_of_lt hbase
    have hnewest : Reachable (gcTable leased cutoff deleteArtefact artefacts).1 (latestFullTip artefacts) :=
      Chain.full.reachable hmem hfull
    obtain ⟨i, hi, hle⟩ := exists_highest hnewest
    obtain ⟨j, hj, hij⟩ := exists_chain hi.1
    refine ⟨j, hj, le_trans ?_ hij⟩
    -- If it ended above, a follower could have taken it from the newest full.
    by_contra hpast
    have hreached : Reachable artefacts a.tipIndex :=
      .incremental (hnewest.mono fun a ha => mem_of_mem_gcTable ha) ha htype hbase.le (hle.trans_lt (not_le.mp hpast))
    exact hpast (((hsame i).mpr hi).2 hreached)
  · intro hpassed
    refine highest_iff (fun i h => h.mono fun a ha => mem_of_mem_gcTable ha) fun i h => ?_
    obtain ⟨first, hfirst, hfull⟩ := exists_full h
    -- A follower without the collection is never above one with it.
    suffices ∃ j, Chain (fun a => ¬ Collected leased cutoff deleteArtefact artefacts a) artefacts j ∧ i ≤ j by
      obtain ⟨j, hj, hij⟩ := this
      exact ⟨j, hj.reachable hfirst hfull, hij⟩
    induction h with
    | full ha htype => exact ⟨_, .full, le_latestFullTip ha htype⟩
    | @incremental i a _ ha htype hbase htip ih =>
      obtain ⟨j, hj, hij⟩ := ih
      by_cases hcollected : Collected leased cutoff deleteArtefact artefacts a
      · exact hpassed a hcollected
      · by_cases hle : a.tipIndex ≤ j
        · exact ⟨j, hj, hle⟩
        · exact ⟨a.tipIndex, .incremental hj ha htype hcollected (hbase.trans hij) (not_le.mp hle), le_rfl⟩

/-! ### An incremental over the newest full -/

def artefact (type : SnapshotType) (baseIndex tipIndex : UInt64) (createdAt : ℕ) : Meta :=
  ⟨"t", type, baseIndex, tipIndex, 0, "", createdAt, "1", "armada-command-v1", 0⟩

/-- An old incremental begins below the tip of the newest full and ends above: nothing else
leads there. -/
def bridgedArtefacts : List Meta :=
  [artefact .full 0 10 0, artefact .incremental 15 30 0, artefact .full 0 20 5]

theorem gcTable_lowers_highest : Highest bridgedArtefacts 30 ∧
      Highest (gcTable (fun _ => false) 3 (fun _ => true) bridgedArtefacts).1 20 := by
  have hgc : (gcTable (fun _ => false) 3 (fun _ => true) bridgedArtefacts).1 = [artefact .full 0 20 5] := by
    decide +kernel
  have htwenty : Reachable bridgedArtefacts 20 := .full (a := artefact .full 0 20 5) (by decide) rfl
  refine ⟨⟨.incremental (a := artefact .incremental 15 30 0) htwenty (by decide) rfl (by decide) (by decide),
    fun i hi => ?_⟩, ?_⟩
  · have htip := hi.exists_tip
    simp only [bridgedArtefacts, map_cons, map_nil, mem_cons, not_mem_nil, or_false] at htip
    rcases htip with rfl | rfl | rfl <;> decide
  · rw [hgc]
    refine ⟨.full (mem_singleton_self _) rfl, fun i hi => ?_⟩
    exact (mem_singleton.mp hi.exists_tip).le

end Armada.Replication
