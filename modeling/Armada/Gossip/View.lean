import Armada.Ordered.Bytes
import Armada.Ordered.Map

/-! Gossiped shard views. A node merges the reports it gets, and the views of other nodes as
if they were reports. What it ends up with of a shard sums up the reports that have gone
into it: the replicas of the highest configuration and the leader of the highest term. -/

namespace Armada.Gossip

open Ordered

@[ext] structure ShardView where
  shardID : UInt64
  replicas : OrdMap UInt64 String
  configChangeIndex : UInt64
  leaderID : UInt64
  term : UInt64

def noLeader : UInt64 := 0

def mergeShardInfo (current update : ShardView) : ShardView :=
  let current :=
    if current.configChangeIndex < update.configChangeIndex then
      { current with replicas := update.replicas, configChangeIndex := update.configChangeIndex }
    else current
  if update.leaderID ≠ noLeader ∧ (current.leaderID = noLeader ∨ current.term < update.term) then
    { current with leaderID := update.leaderID, term := update.term }
  else current

/-- The shards of a view by their identifiers. -/
abbrev View := OrdMap UInt64 ShardView

def newView : View := ∅

/-- One round of the loop of `shardView.update`. -/
def updateShard (v : View) (u : ShardView) : View :=
  let current := (v[u.shardID]?).getD ⟨u.shardID, ∅, 0, 0, 0⟩
  v.insert u.shardID (mergeShardInfo current u)

def update (v : View) (updates : List ShardView) : View := updates.foldl updateShard v

/-- A result of `shardView.copy`: the shards in any order. -/
def IsCopy (v : View) (copy : List ShardView) : Prop := copy.Perm (v.toList.map Prod.snd)

/-- The view of a node that has received a set of reports, from its own shards or in the
views of other nodes. -/
inductive Received : Set ShardView → View → Prop
  | new : Received ∅ newView
  | direct {S : Set ShardView} {v : View} (hv : Received S v) (reports : List ShardView) :
    Received (S ∪ {r | r ∈ reports}) (update v reports)
  | exchange {S T : Set ShardView} {v w : View} (hv : Received S v) (hw : Received T w) {copy : List ShardView}
    (hcopy : IsCopy w copy) : Received (S ∪ T) (update v copy)

/-! ### Summaries -/

/-- An entry sums up a set of reports. -/
structure Summary (S : Set ShardView) (u : ShardView) : Prop where
  config_le : ∀ r ∈ S, r.configChangeIndex ≤ u.configChangeIndex
  config_mem : 0 < u.configChangeIndex → ∃ r ∈ S, r.configChangeIndex = u.configChangeIndex ∧ r.replicas = u.replicas
  term_le : ∀ r ∈ S, r.leaderID ≠ noLeader → u.leaderID ≠ noLeader ∧ r.term ≤ u.term
  leader_mem : u.leaderID ≠ noLeader → ∃ r ∈ S, r.leaderID = u.leaderID ∧ r.term = u.term

theorem summary_singleton (r : ShardView) : Summary {r} r where
  config_le _ h := (congrArg ShardView.configChangeIndex (Set.mem_singleton_iff.mp h)).le
  config_mem _ := ⟨r, rfl, rfl, rfl⟩
  term_le _ h hleader := by
    obtain rfl := Set.mem_singleton_iff.mp h
    exact ⟨hleader, le_rfl⟩
  leader_mem _ := ⟨r, rfl, rfl, rfl⟩

theorem summary_empty (shardID : UInt64) : Summary ∅ ⟨shardID, ∅, 0, 0, 0⟩ where
  config_le := nofun
  config_mem h := absurd h (lt_irrefl _)
  term_le := nofun
  leader_mem h := absurd rfl h

theorem mergeShardInfo_config (current u : ShardView) : (current.configChangeIndex < u.configChangeIndex ∧
    (mergeShardInfo current u).configChangeIndex = u.configChangeIndex ∧
    (mergeShardInfo current u).replicas = u.replicas) ∨ (u.configChangeIndex ≤ current.configChangeIndex ∧
    (mergeShardInfo current u).configChangeIndex = current.configChangeIndex ∧
    (mergeShardInfo current u).replicas = current.replicas) := by
  by_cases h : current.configChangeIndex < u.configChangeIndex
  · refine Or.inl ⟨h, ?_⟩
    simp only [mergeShardInfo, if_pos h]
    split <;> exact ⟨rfl, rfl⟩
  · refine Or.inr ⟨not_lt.mp h, ?_⟩
    simp only [mergeShardInfo, if_neg h]
    split <;> exact ⟨rfl, rfl⟩

theorem mergeShardInfo_leader (current u : ShardView) :
    (u.leaderID ≠ noLeader ∧ (current.leaderID = noLeader ∨ current.term < u.term) ∧
    (mergeShardInfo current u).leaderID = u.leaderID ∧ (mergeShardInfo current u).term = u.term) ∨
    (¬ (u.leaderID ≠ noLeader ∧ (current.leaderID = noLeader ∨ current.term < u.term)) ∧
    (mergeShardInfo current u).leaderID = current.leaderID ∧ (mergeShardInfo current u).term = current.term) := by
  have hsame : ∀ c : ShardView, c = (if current.configChangeIndex < u.configChangeIndex then
      { current with replicas := u.replicas, configChangeIndex := u.configChangeIndex } else current) →
      c.leaderID = current.leaderID ∧ c.term = current.term := by
    rintro c rfl
    split <;> exact ⟨rfl, rfl⟩
  obtain ⟨hleader, hterm⟩ := hsame _ rfl
  unfold mergeShardInfo
  dsimp only
  rw [hleader, hterm]
  split
  · next h => exact Or.inl ⟨h.1, h.2, rfl, rfl⟩
  · next h => exact Or.inr ⟨h, hleader, hterm⟩

variable {u r c c' : ShardView} {S T : Set ShardView} {id : UInt64} {v : View}

theorem Summary.merge {current : ShardView} (hS : Summary S current) (hT : Summary T u) :
    Summary (S ∪ T) (mergeShardInfo current u) := by
  constructor
  · rintro r hr
    rcases mergeShardInfo_config current u with ⟨hlt, hconfig, -⟩ | ⟨hle, hconfig, -⟩
    · rw [hconfig]
      exact hr.elim (fun h => (hS.config_le r h).trans hlt.le) (hT.config_le r)
    · rw [hconfig]
      exact hr.elim (hS.config_le r) fun h => (hT.config_le r h).trans hle
  · intro hpos
    rcases mergeShardInfo_config current u with ⟨-, hconfig, hreplicas⟩ | ⟨-, hconfig, hreplicas⟩
    · rw [hconfig] at hpos ⊢
      rw [hreplicas]
      obtain ⟨r, hr, hrest⟩ := hT.config_mem hpos
      exact ⟨r, Or.inr hr, hrest⟩
    · rw [hconfig] at hpos ⊢
      rw [hreplicas]
      obtain ⟨r, hr, hrest⟩ := hS.config_mem hpos
      exact ⟨r, Or.inl hr, hrest⟩
  · intro r hr hknown
    rcases mergeShardInfo_leader current u with ⟨hu, hnewer, hleader, hterm⟩ | ⟨hold, hleader, hterm⟩
    · rw [hleader, hterm]
      refine ⟨hu, hr.elim (fun h => ?_) fun h => (hT.term_le r h hknown).2⟩
      obtain ⟨hcurrent, hle⟩ := hS.term_le r h hknown
      exact hle.trans (hnewer.resolve_left hcurrent).le
    · rw [hleader, hterm]
      rcases hr with h | h
      · exact hS.term_le r h hknown
      · obtain ⟨hu, hle⟩ := hT.term_le r h hknown
        have hkept : current.leaderID ≠ noLeader ∧ ¬ current.term < u.term := by
          rw [not_and, not_or] at hold
          exact hold hu
        exact ⟨hkept.1, hle.trans (not_lt.mp hkept.2)⟩
  · intro hknown
    rcases mergeShardInfo_leader current u with ⟨hu, -, hleader, hterm⟩ | ⟨-, hleader, hterm⟩
    · rw [hleader, hterm]
      obtain ⟨r, hr, hrest⟩ := hT.leader_mem hu
      exact ⟨r, Or.inr hr, hrest⟩
    · rw [hleader, hterm]
      rw [hleader] at hknown
      obtain ⟨r, hr, hrest⟩ := hS.leader_mem hknown
      exact ⟨r, Or.inl hr, hrest⟩

/-! ### Views -/

/-- The reports about a shard. -/
def about (S : Set ShardView) (id : UInt64) : Set ShardView := {r | r ∈ S ∧ r.shardID = id}

/-- A view sums up a set of reports, shard by shard. -/
structure Covers (S : Set ShardView) (v : View) : Prop where
  absent : ∀ r ∈ S, (v[r.shardID]?).isSome
  present : ∀ id u, v[id]? = some u → u.shardID = id ∧ Summary (about S id) u

theorem mergeShardInfo_shardID (current u : ShardView) : (mergeShardInfo current u).shardID = current.shardID := by
  unfold mergeShardInfo
  dsimp only
  split <;> split <;> rfl

theorem about_union (S T : Set ShardView) (id : UInt64) : about (S ∪ T) id = about S id ∪ about T id := by
  ext r
  exact or_and_right

theorem about_eq_empty (h : ∀ r ∈ S, r.shardID ≠ id) : about S id = ∅ :=
  Set.eq_empty_of_forall_notMem fun r hr => h r hr.1 hr.2

theorem about_eq_self (h : ∀ r ∈ S, r.shardID = id) : about S id = S :=
  Set.ext fun r => ⟨fun hr => hr.1, fun hr => ⟨hr, h r hr⟩⟩

theorem Covers.updateShard (hv : Covers S v) (hu : Summary T u)
    (hT : ∀ r ∈ T, r.shardID = u.shardID) : Covers (S ∪ T) (updateShard v u) := by
  have hcurrent : ∀ current, (v[u.shardID]?).getD ⟨u.shardID, ∅, 0, 0, 0⟩ = current →
      current.shardID = u.shardID ∧ Summary (about S u.shardID) current := by
    rintro current rfl
    cases hentry : v[u.shardID]? with
    | some e => exact hv.present u.shardID e hentry
    | none =>
      have hnone : ∀ r ∈ S, r.shardID ≠ u.shardID := by
        intro r hr heq
        have hsome := hv.absent r hr
        rw [heq, hentry] at hsome
        cases hsome
      rw [about_eq_empty hnone]
      exact ⟨rfl, summary_empty _⟩
  obtain ⟨hid, hsummary⟩ := hcurrent _ rfl
  refine ⟨fun r hr => ?_, fun id e he => ?_⟩
  · rw [Gossip.updateShard, OrdMap.getElem?_insert]
    split
    · rfl
    · next hne => exact hr.elim (hv.absent r) fun h => absurd (hT r h).symm hne
  · rw [Gossip.updateShard, OrdMap.getElem?_insert] at he
    rw [about_union]
    split at he
    · next heq =>
      obtain rfl := heq
      cases he
      rw [about_eq_self hT]
      exact ⟨(mergeShardInfo_shardID _ _).trans hid, hsummary.merge hu⟩
    · next hne =>
      rw [about_eq_empty fun r hr heq => hne ((hT r hr).symm.trans heq), Set.union_empty]
      exact hv.present id e he

theorem Covers.update (hv : Covers S v) (F : ShardView → Set ShardView)
    (updates : List ShardView) (hF : ∀ u ∈ updates, Summary (F u) u ∧ ∀ r ∈ F u, r.shardID = u.shardID) :
    Covers (S ∪ {r | ∃ u ∈ updates, r ∈ F u}) (update v updates) := by
  induction updates generalizing S v with
  | nil =>
    have hnone : {r | ∃ u ∈ ([] : List ShardView), r ∈ F u} = ∅ := by simp
    rw [hnone, Set.union_empty]
    exact hv
  | cons u updates ih =>
    obtain ⟨hu, hid⟩ := hF u (List.mem_cons_self ..)
    have hstep := ih (hv.updateShard hu hid) fun u' hu' => hF u' (List.mem_cons_of_mem _ hu')
    have hset : {r | ∃ u' ∈ u :: updates, r ∈ F u'} = F u ∪ {r | ∃ u' ∈ updates, r ∈ F u'} := by
      ext r
      simp
    rw [hset, ← Set.union_assoc]
    exact hstep

theorem mem_copy {copy : List ShardView} (hcopy : IsCopy v copy) (u : ShardView) :
    u ∈ copy ↔ ∃ id : UInt64, v[id]? = some u := by
  rw [hcopy.mem_iff, List.mem_map]
  constructor
  · rintro ⟨⟨id, u⟩, hmem, rfl⟩
    exact ⟨id, (OrdMap.mem_toList v id u).mp hmem⟩
  · rintro ⟨id, hid⟩
    exact ⟨(id, u), (OrdMap.mem_toList v id u).mpr hid, rfl⟩

theorem Received.covers (h : Received S v) : Covers S v := by
  induction h with
  | new =>
    refine ⟨nofun, fun id u hu => ?_⟩
    have hempty : newView[id]? = none := OrdMap.getElem?_empty id
    rw [hempty] at hu
    cases hu
  | @direct S v _ reports ih =>
    have hcovers := ih.update (fun r => {r}) reports fun r _ => ⟨summary_singleton r, fun r' hr' => by rw [hr']⟩
    have hset : {r | ∃ u ∈ reports, r ∈ ({u} : Set ShardView)} = {r | r ∈ reports} := by
      ext r
      simp
    rwa [hset] at hcovers
  | @exchange S T v w _ _ copy hcopy ihv ihw =>
    have hentries : ∀ u ∈ copy, w[u.shardID]? = some u := by
      intro u hu
      obtain ⟨id, hid⟩ := (mem_copy hcopy u).mp hu
      rw [(ihw.present id u hid).1]
      exact hid
    have hcovers := ihv.update (fun u => about T u.shardID) copy fun u hu =>
      ⟨(ihw.present _ u (hentries u hu)).2, fun r hr => hr.2⟩
    have hset : {r | ∃ u ∈ copy, r ∈ about T u.shardID} = T := by
      ext r
      constructor
      · rintro ⟨u, -, hr⟩
        exact hr.1
      · intro hr
        obtain ⟨u, hu⟩ := Option.isSome_iff_exists.mp (ihw.absent r hr)
        exact ⟨u, (mem_copy hcopy u).mpr ⟨_, hu⟩, hr, (ihw.present _ u hu).1.symm⟩
    rwa [hset] at hcovers

/-- Reports of one configuration have the same replicas, and reports of a leader in one
term the same leader. -/
structure Consistent (S : Set ShardView) : Prop where
  replicas : ∀ r ∈ S, ∀ r' ∈ S, r.shardID = r'.shardID → r.configChangeIndex = r'.configChangeIndex →
    r.replicas = r'.replicas
  leader : ∀ r ∈ S, ∀ r' ∈ S, r.shardID = r'.shardID → r.term = r'.term → r.leaderID ≠ noLeader →
    r'.leaderID ≠ noLeader → r.leaderID = r'.leaderID

/-- A report of the highest configuration of its shard. -/
def HighestConfig (S : Set ShardView) (id : UInt64) (r : ShardView) : Prop :=
  r ∈ about S id ∧ ∀ r' ∈ about S id, r'.configChangeIndex ≤ r.configChangeIndex

/-- A report of a leader in the highest term of its shard. -/
def HighestTerm (S : Set ShardView) (id : UInt64) (r : ShardView) : Prop :=
  r ∈ about S id ∧ r.leaderID ≠ noLeader ∧ ∀ r' ∈ about S id, r'.leaderID ≠ noLeader → r'.term ≤ r.term

theorem Summary.exists_highestConfig (h : Summary (about S id) u) (hr : r ∈ about S id)
    (hpos : 0 < r.configChangeIndex) :
    ∃ c, HighestConfig S id c ∧ u.replicas = c.replicas ∧ u.configChangeIndex = c.configChangeIndex := by
  obtain ⟨c, hc, hconfig, hreplicas⟩ := h.config_mem (hpos.trans_le (h.config_le r hr))
  exact ⟨c, ⟨hc, fun r' hr' => (h.config_le r' hr').trans hconfig.ge⟩, hreplicas.symm, hconfig.symm⟩

theorem Summary.exists_highestTerm (h : Summary (about S id) u) (hr : r ∈ about S id) (hknown : r.leaderID ≠ noLeader) :
    ∃ c, HighestTerm S id c ∧ u.leaderID = c.leaderID ∧ u.term = c.term := by
  have hu := (h.term_le r hr hknown).1
  obtain ⟨c, hc, hleader, hterm⟩ := h.leader_mem hu
  refine ⟨c, ⟨hc, hleader ▸ hu, fun r' hr' hknown' => ?_⟩, hleader.symm, hterm.symm⟩
  exact ((h.term_le r' hr' hknown').2).trans hterm.ge

theorem HighestConfig.eq (hS : Consistent S) (hc : HighestConfig S id c) (hc' : HighestConfig S id c') :
    c.configChangeIndex = c'.configChangeIndex ∧ c.replicas = c'.replicas := by
  have hconfig := le_antisymm (hc'.2 c hc.1) (hc.2 c' hc'.1)
  exact ⟨hconfig, hS.replicas c hc.1.1 c' hc'.1.1 (hc.1.2.trans hc'.1.2.symm) hconfig⟩

theorem HighestTerm.eq (hS : Consistent S)
    (hc : HighestTerm S id c) (hc' : HighestTerm S id c') : c.term = c'.term ∧ c.leaderID = c'.leaderID := by
  have hterm := le_antisymm (hc'.2.2 c hc.1 hc.2.1) (hc.2.2 c' hc'.1 hc'.2.1)
  exact ⟨hterm, hS.leader c hc.1.1 c' hc'.1.1 (hc.1.2.trans hc'.1.2.symm) hterm hc.2.1 hc'.2.1⟩

/-- Two nodes that have received the same reports have the same entry of every shard with a
report of a configuration and of a leader: the replicas of the highest configuration, and
the leader of the highest term with its term. -/
theorem views_converge (S : Set ShardView) (hS : Consistent S) (v w : View) (hv : Received S v) (hw : Received S w)
    (r : ShardView) (hr : r ∈ S) (hconfig : 0 < r.configChangeIndex) (hleader : r.leaderID ≠ noLeader) :
    ∃ u, v[r.shardID]? = some u ∧ w[r.shardID]? = some u ∧
      (∃ c, HighestConfig S r.shardID c ∧ u.replicas = c.replicas ∧ u.configChangeIndex = c.configChangeIndex) ∧
      ∃ c, HighestTerm S r.shardID c ∧ u.leaderID = c.leaderID ∧ u.term = c.term := by
  have habout : r ∈ about S r.shardID := ⟨hr, rfl⟩
  obtain ⟨u, hu⟩ := Option.isSome_iff_exists.mp (hv.covers.absent r hr)
  obtain ⟨u', hu'⟩ := Option.isSome_iff_exists.mp (hw.covers.absent r hr)
  obtain ⟨hid, hsummary⟩ := hv.covers.present _ u hu
  obtain ⟨hid', hsummary'⟩ := hw.covers.present _ u' hu'
  obtain ⟨c, hc, hreplicas, hindex⟩ := hsummary.exists_highestConfig habout hconfig
  obtain ⟨c', hc', hreplicas', hindex'⟩ := hsummary'.exists_highestConfig habout hconfig
  obtain ⟨t, ht, hleaderID, hterm⟩ := hsummary.exists_highestTerm habout hleader
  obtain ⟨t', ht', hleaderID', hterm'⟩ := hsummary'.exists_highestTerm habout hleader
  have heq : u' = u := by
    obtain ⟨hcc, hcr⟩ := hc'.eq hS hc
    obtain ⟨htt, htl⟩ := ht'.eq hS ht
    apply ShardView.ext
    · exact hid'.trans hid.symm
    · exact hreplicas'.trans (hcr.trans hreplicas.symm)
    · exact hindex'.trans (hcc.trans hindex.symm)
    · exact hleaderID'.trans (htl.trans hleaderID.symm)
    · exact hterm'.trans (htt.trans hterm.symm)
  exact ⟨u, hu, heq ▸ hu', ⟨c, hc, hreplicas, hindex⟩, t, ht, hleaderID, hterm⟩

/-! ### Two reports -/

def earlierReport : ShardView := ⟨1, (∅ : OrdMap UInt64 String).insert 1 "a:1", 5, 1, 1⟩

def laterReport : ShardView := ⟨1, ((∅ : OrdMap UInt64 String).insert 1 "a:1").insert 2 "b:1", 10, 2, 5⟩

theorem consistent_reports : Consistent {earlierReport, laterReport} := by
  constructor
  · rintro r (rfl | rfl) r' (rfl | rfl) - h
    · rfl
    · exact absurd h (by decide)
    · exact absurd h (by decide)
    · rfl
  · rintro r (rfl | rfl) r' (rfl | rfl) - h - -
    · rfl
    · exact absurd h (by decide)
    · exact absurd h (by decide)
    · rfl

/-- One node gets both reports, another one the later one and then the view of a node that
has got the earlier one. -/
theorem views_converge_reports :
    ∃ v w u, Received {earlierReport, laterReport} v ∧ Received {earlierReport, laterReport} w ∧
      v[(1 : UInt64)]? = some u ∧ w[(1 : UInt64)]? = some u ∧
      ∃ c, HighestTerm {earlierReport, laterReport} 1 c ∧ u.leaderID = c.leaderID ∧ u.term = c.term := by
  have hv : Received {earlierReport, laterReport} (update newView [earlierReport, laterReport]) := by
    have hdirect := Received.new.direct [earlierReport, laterReport]
    have hset : (∅ ∪ {r | r ∈ [earlierReport, laterReport]} : Set ShardView) = {earlierReport, laterReport} := by
      ext r
      simp
    rwa [hset] at hdirect
  have hw : Received {earlierReport, laterReport} (update (update newView [laterReport])
      ((update newView [earlierReport]).toList.map Prod.snd)) := by
    have hexchange := (Received.new.direct [laterReport]).exchange (Received.new.direct [earlierReport])
      (List.Perm.refl _ : IsCopy (update newView [earlierReport]) _)
    have hset : (∅ ∪ {r | r ∈ [laterReport]} ∪ (∅ ∪ {r | r ∈ [earlierReport]}) : Set ShardView) =
        {earlierReport, laterReport} := by
      ext r
      simp [or_comm]
    rwa [hset] at hexchange
  obtain ⟨u, hu, hu', -, hleader⟩ :=
    views_converge _ consistent_reports _ _ hv hw earlierReport (Or.inl rfl) (by decide)
    (by decide)
  exact ⟨_, _, u, hv, hw, hu, hu', hleader⟩

/-- No report takes a shard back to an older configuration or leader. -/
theorem update_never_goes_back (v : View) (updates : List ShardView) (id : UInt64) :
    let before := v[id]?.getD ⟨id, ∅, 0, 0, 0⟩
    let after := (update v updates)[id]?.getD ⟨id, ∅, 0, 0, 0⟩
    before.configChangeIndex ≤ after.configChangeIndex ∧
      (before.leaderID ≠ noLeader → after.leaderID ≠ noLeader ∧ before.term ≤ after.term) := by
  induction updates generalizing v with
  | nil => exact ⟨le_rfl, fun h => ⟨h, le_rfl⟩⟩
  | cons u updates ih =>
    have h := ih (updateShard v u)
    rw [updateShard, OrdMap.getElem?_insert] at h
    split_ifs at h with hid
    · subst hid
      have hmerge := (summary_singleton (v[u.shardID]?.getD ⟨u.shardID, ∅, 0, 0, 0⟩)).merge (summary_singleton u)
      refine ⟨(hmerge.config_le _ (.inl rfl)).trans h.1, fun hknown => ?_⟩
      obtain ⟨hleader, hterm⟩ := hmerge.term_le _ (.inl rfl) hknown
      exact ⟨(h.2 hleader).1, hterm.trans (h.2 hleader).2⟩
    · exact h

end Armada.Gossip
