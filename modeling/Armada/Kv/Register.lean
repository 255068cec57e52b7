import Armada.Kv.Store

/-! The metadata store as a register that is compared and swapped. A proposal names the
version it expects; on a key that is there the store keeps the law of such a register,
on an absent key it takes any version. -/

namespace Armada.Kv

open Ordered Program

variable {V : Type}

/-- The version of a key; an absent key has the version 0. -/
def version (m : MapStore V) (key : String) : UInt64 := (m[key]?.map Pair.ver).getD 0

/-- The law of compare and swap for a proposal at an index, from the store `m` to the store
`m'`; `used` are the indexes, hence the versions, of the entries before it. -/
structure IsCas (used : List UInt64) (index : UInt64) (p : Proposal V) (m : MapStore V) (r : Result V)
    (m' : MapStore V) : Prop where
  taken : p.ver = version m p.key → m' = p.effect index m ∧ p.reply r = .ok ()
  refused : p.ver ≠ version m p.key → m' = m ∧ p.reply r = .error .versionMismatch
  fresh : p.reply r = .ok () → index ∉ 0 :: used

def entriesOf [Inhabited V] (log : List (UInt64 × Proposal V)) : List (Entry V) :=
  log.map fun a => ⟨a.1, some a.2.update⟩

variable {key : String} {m : MapStore V}

theorem version_of_some {pair : Pair V} (h : m[key]? = some pair) : version m key = pair.ver := by
  rw [version, h]
  rfl

theorem version_of_none (h : m[key]? = none) : version m key = 0 := by
  rw [version, h]
  rfl

variable {p : Proposal V}

theorem passes_iff (h : m[p.key]?.isSome) : Passes m p ↔ p.ver = version m p.key := by
  obtain ⟨pair, hpair⟩ := Option.isSome_iff_exists.mp h
  rw [version_of_some hpair, Passes]
  simp only [hpair, Option.some.injEq, forall_eq', eq_comm]

theorem passes_of_none (h : m[p.key]? = none) : Passes m p := by
  intro pair hpair
  rw [h] at hpair
  cases hpair

section
variable [Inhabited V]

theorem update_entriesOf (log : List (UInt64 × Proposal V)) (m : MapStore V) :
    ∃ r, update (entriesOf log) m = .ok r := by
  induction log generalizing m with
  | nil => exact ⟨_, rfl⟩
  | cons a log ih =>
    obtain ⟨index, p⟩ := a
    have hhead : ∃ r, updateEntry ⟨index, some p.update⟩ m = .ok r := by
      by_cases hp : Passes m p
      · obtain ⟨r, hr, -⟩ := updateEntry_of_passes hp index
        exact ⟨_, hr⟩
      · obtain ⟨r, hr, -⟩ := updateEntry_of_not_passes hp index
        exact ⟨_, hr⟩
    obtain ⟨r, hr⟩ := hhead
    obtain ⟨rs, hrs⟩ := ih r.2
    refine ⟨(r.1 :: rs.1, rs.2), ?_⟩
    rw [update] at hrs
    rw [update, entriesOf, List.map_cons, runAll, hr, ok_bind]
    change (runAll updateEntry (entriesOf log) r.2 >>= _) = _
    rw [hrs]
    rfl

theorem updateEntry_isCas_iff {used : List UInt64} {index : UInt64} (hfresh : index ∉ 0 :: used)
    (p : Proposal V) (m : MapStore V) : ∃ r m', updateEntry ⟨index, some p.update⟩ m = .ok (r, m') ∧
    (IsCas used index p m r m' ↔ m[p.key]?.isSome ∨ p.ver = 0) := by
  by_cases hp : Passes m p
  · obtain ⟨r, hr, hreply, -⟩ := updateEntry_of_passes hp index
    refine ⟨r, _, hr, ?_⟩
    constructor
    · intro hcas
      by_contra hnot
      rw [not_or, Option.not_isSome_iff_eq_none] at hnot
      have hmismatch := (hcas.refused (by rw [version_of_none hnot.1]; exact hnot.2)).2
      rw [hreply] at hmismatch
      cases hmismatch
    · intro hknown
      have hver : p.ver = version m p.key := by
        by_cases hsome : m[p.key]?.isSome
        · exact (passes_iff hsome).mp hp
        · rw [version_of_none (Option.not_isSome_iff_eq_none.mp hsome)]
          exact hknown.resolve_left hsome
      exact ⟨fun _ => ⟨rfl, hreply⟩, fun hne => absurd hver hne, fun _ => hfresh⟩
  · obtain ⟨r, hr, hreply, -⟩ := updateEntry_of_not_passes hp index
    have hsome : m[p.key]?.isSome := by
      by_contra hnone
      exact hp (passes_of_none (Option.not_isSome_iff_eq_none.mp hnone))
    refine ⟨r, m, hr, iff_of_true ?_ (Or.inl hsome)⟩
    refine ⟨fun hver => absurd ((passes_iff hsome).mpr hver) hp, fun _ => ⟨rfl, hreply⟩, fun hok => ?_⟩
    rw [hreply] at hok
    cases hok

/-- In every log the store is a register compared and swapped, at every entry whose key is
there or that names the version 0; any other entry breaks the law. -/
theorem update_isCas_iff (log : List (UInt64 × Proposal V)) (index : UInt64) (p : Proposal V)
    (hlog : (0 :: (log.map Prod.fst ++ [index])).Pairwise (· < ·)) :
    ∃ rs m r m', update (entriesOf log) ∅ = .ok (rs, m) ∧
      update (entriesOf (log ++ [(index, p)])) ∅ = .ok (rs ++ [r], m') ∧
      (IsCas (log.map Prod.fst) index p m r m' ↔ m[p.key]?.isSome ∨ p.ver = 0) := by
  obtain ⟨⟨rs, m⟩, hrun⟩ := update_entriesOf log ∅
  have hfresh : index ∉ 0 :: log.map Prod.fst := by
    rw [← List.cons_append, List.pairwise_append] at hlog
    intro hmem
    exact lt_irrefl index (hlog.2.2 index hmem index (List.mem_singleton_self index))
  obtain ⟨r, m', hstep, hiff⟩ := updateEntry_isCas_iff hfresh p m
  refine ⟨rs, m, r, m', hrun, ?_, hiff⟩
  rw [update] at hrun
  have hentries : entriesOf (log ++ [(index, p)]) = entriesOf log ++ [⟨index, some p.update⟩] := by
    simp [entriesOf]
  rw [update, hentries, runAll_append, hrun, ok_bind, runAll, hstep]
  rfl

/-- A key that is set, and set again with its version. -/
theorem update_isCas_iff_setTwice : ∃ (rs : List (Result ℕ)) (m : MapStore ℕ) (r : Result ℕ) (m' : MapStore ℕ),
      update (entriesOf [(1, .set "k" 5 0)]) ∅ = .ok (rs, m) ∧
      update (entriesOf [(1, .set "k" 5 0), (3, .set "k" 6 1)]) ∅ = .ok (rs ++ [r], m') ∧
      (IsCas [1] 3 (.set "k" 6 1) m r m' ↔ m[(Proposal.set "k" 6 1).key]?.isSome ∨ (1 : UInt64) = 0) :=
  update_isCas_iff [(1, .set "k" 5 0)] 3 (.set "k" 6 1) (by decide)

/-- A key is set and deleted; a write that still names its old version takes effect. -/
theorem deletedKey_takes_oldVersion : ∃ (rs : List (Result ℕ)) (m : MapStore ℕ) (r : Result ℕ) (m' : MapStore ℕ),
      update (entriesOf [(1, .set "k" 5 0), (2, .delete "k" 1)]) ∅ = .ok (rs, m) ∧
      update (entriesOf [(1, .set "k" 5 0), (2, .delete "k" 1), (3, .set "k" 6 1)]) ∅ = .ok (rs ++ [r], m') ∧
      (1 : UInt64) ≠ version m "k" ∧ m'[("k" : String)]? = some ⟨"k", 6, 3⟩ ∧
      (Proposal.set "k" 6 1).reply r = .ok () :=
  ⟨_, _, _, _, rfl, rfl, by decide, rfl, rfl⟩

end

end Armada.Kv
