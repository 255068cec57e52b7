import Armada.Ordered.Latest
import Armada.Replication.Artefacts

/-! Which artefact a follower recovers from. The leader offers the artefact with the highest
base among those that apply to the follower and end where the log can take over. The
follower then asks for the entry behind the tip, and the leader refuses that only at or
below its horizon. -/

namespace Armada.Replication

open Ordered

structure SnapshotSelectionOptions where
  followerIndex : UInt64
  liveGCHorizon : UInt64
  requireKnownIncrementalHorizon : Bool
  followerCanTail : Bool

/-- The horizon that an incremental is held against: the one of its export if it is known. -/
def incrementalHorizon (m : Meta) (options : SnapshotSelectionOptions) : UInt64 :=
  if m.gcHorizon = 0 then options.liveGCHorizon else m.gcHorizon

def validIncremental (m : Meta) (options : SnapshotSelectionOptions) : Bool :=
  if m.gcHorizon = 0 ∧ options.requireKnownIncrementalHorizon then false
  else incrementalHorizon m options = 0 ∨ incrementalHorizon m options < m.baseIndex

/-- The artefacts that the loop of `SelectRecoverableSnapshot` does not skip. -/
def candidate (options : SnapshotSelectionOptions) (m : Meta) : Bool :=
  if 0 < options.liveGCHorizon ∧ m.tipIndex < options.liveGCHorizon then false
  else if m.tipIndex ≤ options.followerIndex ∨ options.followerIndex < m.baseIndex then false
  else if m.type = .incremental ∧ !validIncremental m options then false
  else true

/-- A higher base is better, and so is a higher tip over the same base. -/
def rank (m : Meta) : UInt64 ×ₗ UInt64 := toLex (m.baseIndex, m.tipIndex)

def selectRecoverableSnapshot (metas : List Meta) (options : SnapshotSelectionOptions) : Option Meta :=
  if options.followerCanTail ∧ 0 < options.liveGCHorizon ∧ options.liveGCHorizon ≤ options.followerIndex then none
  else metas.foldl (better (candidate options) rank) none

/-- The selection of `SnapshotServer.Query`. -/
def querySnapshot (metas : List Meta) (followerIndex horizon : UInt64) : Option Meta :=
  selectRecoverableSnapshot metas ⟨followerIndex, horizon, false, true⟩

/-- What `LogServer.Replicate` does with a request before it reads the log. -/
inductive ReplicateStart where
  | leaderBehind
  | useSnapshot
  | logRange (firstIndex lastIndex : UInt64)

def replicateStart (appliedIndex gcHorizon leaderIndex : UInt64) : ReplicateStart :=
  if appliedIndex + 1 < leaderIndex then .leaderBehind
  else if 0 < gcHorizon ∧ leaderIndex ≤ gcHorizon then .useSnapshot
  else .logRange leaderIndex (appliedIndex + 1)

/-- The index that the worker of a follower asks for. -/
def requestIndex (leaderIndex : UInt64) : UInt64 := leaderIndex + 1

/-! ### What an offered artefact is good for -/

/-- The artefact has all that was written above its base: it is full, or nothing was
collected above its base when it was made. -/
def CompleteFromBase (horizon : UInt64) (m : Meta) : Prop :=
  m.type = .incremental → if m.gcHorizon = 0 then horizon ≠ 0 → horizon < m.baseIndex else m.gcHorizon < m.baseIndex

/-- It takes the follower forward, to where the log can take over. -/
structure Recovers (followerIndex horizon : UInt64) (m : Meta) : Prop where
  base : m.baseIndex ≤ followerIndex
  tip : followerIndex < m.tipIndex
  complete : CompleteFromBase horizon m
  resumes : horizon.toNat < m.tipIndex.toNat + 1

section
variable {followerIndex horizon : UInt64} {m : Meta}

theorem validIncremental_iff : validIncremental m ⟨followerIndex, horizon, false, true⟩ = true ↔
    if m.gcHorizon = 0 then horizon ≠ 0 → horizon < m.baseIndex else m.gcHorizon < m.baseIndex := by
  unfold validIncremental incrementalHorizon
  by_cases hknown : m.gcHorizon = 0
  · simp [hknown, or_iff_not_imp_left]
  · simp [hknown]

theorem candidate_iff :
    candidate ⟨followerIndex, horizon, false, true⟩ m = true ↔ Recovers followerIndex horizon m := by
  have hresumes : ¬ (0 < horizon ∧ m.tipIndex < horizon) ↔ horizon.toNat < m.tipIndex.toNat + 1 := by
    rw [UInt64.lt_iff_toNat_lt, UInt64.lt_iff_toNat_lt, UInt64.toNat_zero]
    omega
  have happlies : ¬ (m.tipIndex ≤ followerIndex ∨ followerIndex < m.baseIndex) ↔
      m.baseIndex ≤ followerIndex ∧ followerIndex < m.tipIndex := by
    rw [not_or, not_le, not_lt, and_comm]
  have hcomplete : ¬ (m.type = .incremental ∧ validIncremental m ⟨followerIndex, horizon, false, true⟩ = false) ↔
      CompleteFromBase horizon m := by
    have hvalid : validIncremental m ⟨followerIndex, horizon, false, true⟩ = true ↔ _ := validIncremental_iff
    rw [CompleteFromBase, ← hvalid, not_and]
    simp
  unfold candidate
  simp only [Bool.if_false_left, Bool.and_true, Bool.and_eq_true, Bool.not_eq_true', decide_eq_false_iff_not]
  rw [hresumes, happlies, hcomplete]
  exact ⟨fun h => ⟨h.2.1.1, h.2.1.2, h.2.2, h.1⟩, fun h => ⟨h.resumes, ⟨h.base, h.tip⟩, h.complete⟩⟩

/-- The request that follows a recovery is above the horizon, unless the tip is the last
index there is. -/
theorem Recovers.request (h : Recovers followerIndex horizon m) (hlast : m.tipIndex.toNat + 1 < 2 ^ 64)
    (appliedIndex : UInt64) : replicateStart appliedIndex horizon (requestIndex m.tipIndex) ≠ .useSnapshot := by
  have hrequest : (requestIndex m.tipIndex).toNat = m.tipIndex.toNat + 1 := by
    rw [requestIndex, UInt64.toNat_add, UInt64.toNat_one]
    exact Nat.mod_eq_of_lt hlast
  have hresumes := h.resumes
  unfold replicateStart
  split_ifs with hbehind hhorizon
  · simp
  · have hle := UInt64.le_iff_toNat_le.mp hhorizon.2
    omega
  · simp

theorem rank_le_iff {m' : Meta} :
    rank m' ≤ rank m ↔ m'.baseIndex < m.baseIndex ∨ m'.baseIndex = m.baseIndex ∧ m'.tipIndex ≤ m.tipIndex :=
  Prod.Lex.toLex_le_toLex

end

/-- An artefact that is offered takes the follower forward, is complete from its base, is not
refused afterwards, and is the best of all that would do so. If none is offered, the follower
can tail the log, or there is no such artefact. -/
theorem querySnapshot_offers_best (metas : List Meta) (followerIndex horizon : UInt64) :
    match querySnapshot metas followerIndex horizon with
    | some m => m ∈ metas ∧ Recovers followerIndex horizon m ∧
        (m.tipIndex.toNat + 1 < 2 ^ 64 → ∀ appliedIndex,
          replicateStart appliedIndex horizon (requestIndex m.tipIndex) ≠ .useSnapshot) ∧
        ∀ m' ∈ metas, Recovers followerIndex horizon m' →
          m'.baseIndex < m.baseIndex ∨ m'.baseIndex = m.baseIndex ∧ m'.tipIndex ≤ m.tipIndex
    | none => (0 < horizon ∧ horizon ≤ followerIndex) ∨ ∀ m ∈ metas, ¬ Recovers followerIndex horizon m := by
  unfold querySnapshot selectRecoverableSnapshot
  by_cases htail : 0 < horizon ∧ horizon ≤ followerIndex
  · rw [if_pos ⟨rfl, htail⟩]
    exact .inl htail
  rw [if_neg fun h => htail h.2]
  have hbest : IsBest (candidate ⟨followerIndex, horizon, false, true⟩) rank metas _ := isBest_foldl metas
  cases hselected : metas.foldl (better (candidate ⟨followerIndex, horizon, false, true⟩) rank) none with
  | none =>
    rw [hselected] at hbest
    refine .inr fun m hm hrecovers => ?_
    have hskipped := hbest m hm
    rw [candidate_iff.mpr hrecovers] at hskipped
    cases hskipped
  | some m =>
    rw [hselected] at hbest
    obtain ⟨hm, hcandidate, hmax⟩ := hbest
    have hrecovers := candidate_iff.mp hcandidate
    exact ⟨hm, hrecovers, hrecovers.request, fun m' hm' h' => rank_le_iff.mp (hmax m' hm' (candidate_iff.mpr h'))⟩

/-- An incremental from the beginning on, made while nothing had been collected. -/
def firstIncremental : Meta := ⟨"t", .incremental, 0, 5, 0, "", 0, "1", "armada-command-v1", 0⟩

/-- It is offered while nothing is collected, although its base is not above the horizon. -/
theorem first_incremental_offered :
    querySnapshot [firstIncremental] 0 0 = some firstIncremental ∧ firstIncremental.gcHorizon = 0 ∧
      ¬ (0 : UInt64) < firstIncremental.baseIndex := by
  decide

end Armada.Replication
