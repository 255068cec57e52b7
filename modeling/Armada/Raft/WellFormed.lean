import Armada.Raft.Members

/-! The rules for config changes keep the membership in order: whatever is asked for, the
kinds of members stay apart, no address is used twice, a voter remains, and a replica that
was removed stays out. Addresses are compared without surrounding space and without case. -/

namespace Armada.Raft

open Program Ordered List Std.ExtTreeMap

/-! ### Addresses -/

/-- Go's `unicode.IsSpace`. -/
def isSpace (c : Char) : Bool :=
  (9 ≤ c.toNat ∧ c.toNat ≤ 13) ∨ c.toNat = 0x20 ∨ c.toNat = 0x85 ∨ c.toNat = 0xA0 ∨ c.toNat = 0x1680 ∨
    (0x2000 ≤ c.toNat ∧ c.toNat ≤ 0x200a) ∨ c.toNat = 0x2028 ∨ c.toNat = 0x2029 ∨ c.toNat = 0x202f ∨
    c.toNat = 0x205f ∨ c.toNat = 0x3000

def trimSpace (s : List Char) : List Char := ((s.dropWhile isSpace).reverse.dropWhile isSpace).reverse

/-- Characters that differ only in case have the same image under `fold`. -/
def addressEqual (fold : Char → Char) (addr1 addr2 : List Char) : Bool :=
  (trimSpace addr1).map fold = (trimSpace addr2).map fold

variable {a b : List Char}

theorem addressEqual_symm {fold : Char → Char} (h : addressEqual fold a b) : addressEqual fold b a := by
  simp only [addressEqual, decide_eq_true_eq] at h ⊢
  exact h.symm

theorem addressEqual_trans {fold : Char → Char} {c : List Char} (h1 : addressEqual fold a b)
    (h2 : addressEqual fold b c) : addressEqual fold a c := by
  simp only [addressEqual, decide_eq_true_eq] at h1 h2 ⊢
  exact h1.trans h2

/-! ### Memberships in order -/

namespace Members

/-- The replica is a member with the address. -/
def HasAddress {A : Type} (m : Members A) (id : ℕ) (a : A) : Prop :=
  m.addresses[id]? = some a ∨ m.nonVotings[id]? = some a ∨ m.witnesses[id]? = some a

structure WellFormed (fold : Char → Char) (m : Members (List Char)) : Prop where
  disjoint : m.Disjoint
  voter : 0 < m.addresses.size
  distinct : ∀ id id' a a', m.HasAddress id a → m.HasAddress id' a' → addressEqual fold a a' → id = id'

section
variable {fold : Char → Char} {m m' : Members (List Char)} {cc : ConfigChange (List Char)} {ordered : Bool} {index : ℕ}

variable {a b : List Char} {id id' : ℕ} {t : OrdMap ℕ (List Char)}

theorem mem_values (h : t[id]? = some a) : a ∈ t.values := by
  rw [values_eq]
  exact mem_map_of_mem (mem_toList_iff_getElem?_eq_some.mpr h)

theorem HasAddress.mem_values (h : m.HasAddress id a) :
    a ∈ m.addresses.values ++ m.nonVotings.values ++ m.witnesses.values := by
  rw [mem_append, mem_append]
  obtain h | h | h := h
  · exact .inl (.inl (Members.mem_values h))
  · exact .inl (.inr (Members.mem_values h))
  · exact .inr (Members.mem_values h)

/-- The address of a change that adds a replica is new, or it is that of the learner that
the change promotes. -/
theorem accepts_address (h : m.accepts (addressEqual fold) ordered cc) (hadd : cc.type.isAdd)
    (ha : m.HasAddress id a) (heq : addressEqual fold a cc.address) :
    ∃ oa, m.nonVotings[cc.replicaID]? = some oa ∧ addressEqual fold oa cc.address := by
  simp only [accepts, isAddExistingMember, Bool.and_eq_true, Bool.not_eq_true', Bool.or_eq_false_iff] at h
  have hexisting := h.1.1.1.1.1.1.1.2.2
  have hany : (m.addresses.values ++ m.nonVotings.values ++ m.witnesses.values).any
      (fun addr => addressEqual fold addr cc.address) = true := any_eq_true.mpr ⟨a, ha.mem_values, heq⟩
  rw [hany, hadd, Bool.and_true, Bool.and_true, Bool.not_eq_false'] at hexisting
  simp only [isPromoteNonVoting, Bool.and_eq_true] at hexisting
  cases hoa : m.nonVotings[cc.replicaID]? with
  | none => simp [hoa] at hexisting
  | some oa => exact ⟨oa, rfl, by simpa [hoa] using hexisting.2⟩

/-- A change that adds a replica keeps the addresses apart if all the others stay as they were. -/
theorem distinct_add (hm : m.WellFormed fold) (h : m.accepts (addressEqual fold) ordered cc) (hadd : cc.type.isAdd)
    (hself : ∀ a, m'.HasAddress cc.replicaID a → a = cc.address)
    (hothers : ∀ id a, id ≠ cc.replicaID → m'.HasAddress id a → m.HasAddress id a) :
    ∀ id id' a a', m'.HasAddress id a → m'.HasAddress id' a' → addressEqual fold a a' → id = id' := by
  have hnew : ∀ id a, id ≠ cc.replicaID → m'.HasAddress id a → ¬ addressEqual fold a cc.address := by
    intro id a hne ha heq
    have ha := hothers id a hne ha
    obtain ⟨oa, hoa, heq'⟩ := accepts_address h hadd ha heq
    exact hne (hm.distinct id cc.replicaID a oa ha (.inr (.inl hoa)) (addressEqual_trans heq (addressEqual_symm heq')))
  intro id id' a a' ha ha' heq
  by_cases hid : id = cc.replicaID
  · by_cases hid' : id' = cc.replicaID
    · rw [hid, hid']
    · subst hid
      rw [hself a ha] at heq
      exact absurd (addressEqual_symm heq) (hnew id' a' hid' ha')
  · by_cases hid' : id' = cc.replicaID
    · subst hid'
      rw [hself a' ha'] at heq
      exact absurd heq (hnew id a hid ha)
    · exact hm.distinct id id' a a' (hothers id a hid ha) (hothers id' a' hid' ha') heq

theorem getElem?_of_erase (h : (t.erase id)[id']? = some a) : t[id']? = some a := by
  rw [Std.ExtTreeMap.getElem?_erase] at h
  split_ifs at h
  exact h

theorem WellFormed.added (hm : m.WellFormed fold) (h : m.accepts (addressEqual fold) ordered cc) (hadd : cc.type.isAdd)
    (happly : m.apply cc index = .ok m') (hsize : 0 < m'.addresses.size)
    (hself : ∀ a, m'.HasAddress cc.replicaID a → a = cc.address)
    (hothers : ∀ id a, id ≠ cc.replicaID → m'.HasAddress id a → m.HasAddress id a) :
    ∃ m', m.apply cc index = .ok m' ∧ m'.WellFormed fold :=
  ⟨m', happly, (apply_keeps hm.disjoint h happly).1, hsize, distinct_add hm h hadd hself hothers⟩

theorem apply_wellFormed (hm : m.WellFormed fold) (htype : cc.type ≠ .other)
    (haccepts : m.accepts (addressEqual fold) ordered cc) (index : ℕ) :
    ∃ m', m.apply cc index = .ok m' ∧ m'.WellFormed fold := by
  cases ht : cc.type
  case other => exact absurd ht htype
  case removeNode =>
    have happly : m.apply cc index = .ok {
        configChangeId := index
        addresses := m.addresses.erase cc.replicaID
        nonVotings := m.nonVotings.erase cc.replicaID
        witnesses := m.witnesses.erase cc.replicaID
        removed := m.removed.insert cc.replicaID () } := by
      simp only [apply, ht]
    refine ⟨_, happly, (apply_keeps hm.disjoint haccepts happly).1, ?_, fun id id' a a' ha ha' => ?_⟩
    · -- the only voter is not removed
      simp only [accepts, isDeleteOnlyNode, Bool.and_eq_true, Bool.not_eq_true', ht] at haccepts
      have hnotOnly := haccepts.1.2
      have hvoter := hm.voter
      dsimp only
      rw [size_erase]
      split_ifs with hc
      · simp [hc] at hnotOnly
        omega
      · exact hvoter
    · have hold : ∀ id a, _ → m.HasAddress id a := fun id a (h : (m.addresses.erase cc.replicaID)[id]? = some a ∨
          (m.nonVotings.erase cc.replicaID)[id]? = some a ∨ (m.witnesses.erase cc.replicaID)[id]? = some a) =>
        h.imp getElem?_of_erase (Or.imp getElem?_of_erase getElem?_of_erase)
      exact hm.distinct id id' a a' (hold id a ha) (hold id' a' ha')
  all_goals
    have hisAdd : cc.type.isAdd := by simp [ConfigChangeType.isAdd, ht]
    obtain ⟨-, haddress, hnonVoting, hwitness⟩ := accepts_add haccepts hisAdd
    apply hm.added haccepts hisAdd
    · simp only [apply, ht, Std.ExtTreeMap.contains_iff_mem]
      refine if_neg ?_
      simp_all
    · first | exact hm.voter |
        (rw [Std.ExtTreeMap.size_insert, contains_eq_false_iff.mpr haddress]; exact Nat.succ_pos _)
    · intro a ha
      simp_all [HasAddress]
    · intro id a hne ha
      simp_all [HasAddress, Std.ExtTreeMap.getElem?_insert, Std.ExtTreeMap.getElem?_erase, Ne.symm hne]

theorem handleConfigChange_wellFormed (hm : m.WellFormed fold) (htype : cc.type ≠ .other) (ordered : Bool) (index : ℕ) :
    ∃ res, m.handleConfigChange (addressEqual fold) ordered cc index = .ok res ∧ res.1.WellFormed fold ∧
    (res.2 = false → res.1 = m) := by
  rw [handleConfigChange]
  split_ifs with haccepts
  · obtain ⟨m', happly, hm'⟩ := apply_wellFormed hm htype haccepts index
    exact ⟨(m', true), by rw [happly]; rfl, hm', fun h => by cases h⟩
  · exact ⟨(m, false), rfl, hm, fun _ => rfl⟩

theorem applyAll_wellFormed (ordered : Bool) {ccs : List (ConfigChange (List Char) × ℕ)} (hm : m.WellFormed fold)
    (htypes : ∀ c ∈ ccs, c.1.type ≠ .other) :
    ∃ m', m.applyAll (addressEqual fold) ordered ccs = .ok m' ∧ m'.WellFormed fold := by
  induction ccs generalizing m with
  | nil => exact ⟨m, rfl, hm⟩
  | cons c ccs ih =>
    rw [forall_mem_cons] at htypes
    obtain ⟨res, hres, hwf, -⟩ := handleConfigChange_wellFormed hm htypes.1 ordered c.2
    obtain ⟨m', hrest, hm'⟩ := ih hwf htypes.2
    exact ⟨m', by rw [applyAll, hres]; exact hrest, hm'⟩

theorem WellFormed.not_has (hm : m.WellFormed fold) (hid : id ∈ m.removed) : ¬ m.Has id := by
  rintro (h | h | h)
  · exact (hm.disjoint.addresses id h).2.2 hid
  · exact (hm.disjoint.nonVotings id h).2 hid
  · exact hm.disjoint.witnesses id h hid

end

/-- From a membership in order every sequence of config changes, ordered or not, is applied
without a panic and leaves a membership in order; what was removed stays removed and is no
member, and a change that is rejected changes nothing. -/
theorem config_changes_keep_order (fold : Char → Char) (ordered : Bool) (ccs : List (ConfigChange (List Char) × ℕ))
    (m : Members (List Char)) (hm : m.WellFormed fold) (htypes : ∀ c ∈ ccs, c.1.type ≠ .other) :
    ∃ m', m.applyAll (addressEqual fold) ordered ccs = .ok m' ∧ m'.WellFormed fold ∧
      (∀ id ∈ m.removed, id ∈ m'.removed ∧ ¬ m'.Has id) ∧
      ∀ cc index, cc.type ≠ .other → ∃ res, m'.handleConfigChange (addressEqual fold) ordered cc index = .ok res ∧
        (res.2 = false → res.1 = m') := by
  obtain ⟨m', happly, hm'⟩ := applyAll_wellFormed ordered hm htypes
  have hlater := (applyAll_keeps hm.disjoint happly).2
  refine ⟨m', happly, hm', fun id hid => ⟨hlater.removed id hid, hm'.not_has (hlater.removed id hid)⟩,
    fun cc index htype => ?_⟩
  obtain ⟨res, hres, -, hrejected⟩ := handleConfigChange_wellFormed hm' htype ordered index
  exact ⟨res, hres, hrejected⟩

/-- Two voters. -/
def twoVoters : Members (List Char) := ⟨1, (∅ : OrdMap ℕ (List Char)).insert 1 ['a'] |>.insert 2 ['b'], ∅, ∅, ∅⟩

theorem wellFormed_twoVoters : twoVoters.WellFormed Char.toLower := by
  have haddress : ∀ id a, twoVoters.HasAddress id a → id = 1 ∧ a = ['a'] ∨ id = 2 ∧ a = ['b'] := by
    rintro id a (ha | ha | ha)
    · simp only [twoVoters, Std.ExtTreeMap.getElem?_insert, Std.compare_eq_iff_eq] at ha
      split_ifs at ha with htwo hone
      · exact .inr ⟨htwo.symm, (Option.some.inj ha).symm⟩
      · exact .inl ⟨hone.symm, (Option.some.inj ha).symm⟩
      · simp at ha
    · simp [twoVoters] at ha
    · simp [twoVoters] at ha
  refine ⟨⟨by simp [twoVoters], by simp [twoVoters], by simp [twoVoters]⟩, by decide, fun id id' a a' ha ha' heq => ?_⟩
  obtain ⟨rfl, rfl⟩ | ⟨rfl, rfl⟩ := haddress id a ha
  · obtain ⟨rfl, rfl⟩ | ⟨rfl, rfl⟩ := haddress id' a' ha'
    · rfl
    · revert heq
      decide
  · obtain ⟨rfl, rfl⟩ | ⟨rfl, rfl⟩ := haddress id' a' ha'
    · revert heq
      decide
    · rfl

/-- A learner is added and promoted under the same address in other letters, the first voter
is removed and asked for again, and the second voter is asked to go. -/
theorem config_changes_keep_order_promotion :
    let ccs : List (ConfigChange (List Char) × ℕ) :=
      [(⟨0, .addNonVoting, 3, ['C'], false⟩, 2), (⟨0, .addNode, 3, [' ', 'c'], false⟩, 3),
        (⟨0, .removeNode, 1, [], false⟩, 4), (⟨0, .addNode, 1, ['a'], false⟩, 5), (⟨0, .removeNode, 2, [], false⟩, 6)]
    ∃ m', twoVoters.applyAll (addressEqual Char.toLower) false ccs = .ok m' ∧ m'.WellFormed Char.toLower ∧
      (∀ id ∈ twoVoters.removed, id ∈ m'.removed ∧ ¬ m'.Has id) ∧
      ∀ cc index, cc.type ≠ .other → ∃ res, m'.handleConfigChange (addressEqual Char.toLower) false cc index = .ok res ∧
        (res.2 = false → res.1 = m') :=
  config_changes_keep_order Char.toLower false _ twoVoters wellFormed_twoVoters (by decide)

end Members

end Armada.Raft
