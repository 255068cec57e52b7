import Armada.Fsm.Simulation

/-! Reads stay among the user records. The bounds of every scan share the header of
the user keys, and so does the prefix a point read seeks, so two databases with the
same user records answer every command alike. -/

namespace Armada.Fsm

open Ordered Keys Pebble Proto Program List

/-! ### The upper bound of the wildcard -/

theorem incrementReversed_replicate (n : ℕ) {b : UInt8} (hb : b + 1 ≠ 0) (bs : Bytes) :
    incrementReversed (List.replicate n 0xFF ++ b :: bs) = List.replicate n 0 ++ (b + 1) :: bs := by
  induction n with
  | zero => simp [incrementReversed, hb]
  | succ n ih =>
    rw [replicate_succ, cons_append, incrementReversed, if_neg (by decide), ih]
    rfl

theorem storedSeqno_zero : storedSeqno 0 = List.replicate 8 0xFF := by decide

theorem wildcardUpper_eq :
    incrementRightmostByte maxEncodedUserKey = userHeader ++ (latestMaxKey ++ 1 :: List.replicate 8 0) := by
  have hrev : maxEncodedUserKey.reverse =
      List.replicate 8 0xFF ++ (0 : UInt8) :: (userHeader ++ latestMaxKey).reverse := by
    simp [maxEncodedUserKey, encodeUserKey, storedSeqno_zero]
  rw [incrementRightmostByte, hrev, incrementReversed_replicate 8 (by decide)]
  simp [maxEncodedUserKey, encodeUserKey]

variable {p : Bytes}

theorem within_header {low high : Bytes} (h : (iterOptionsForBounds low high).within p = true) : userHeader <+: p := by
  simp only [IterOptions.within, iterOptionsForBounds, Bool.and_eq_true, decide_eq_true_eq] at h
  obtain ⟨hlo, hhi⟩ := h
  rw [encodeUserKey] at hlo
  split at hhi
  · rw [wildcardUpper_eq] at hhi
    exact prefix_of_between hlo hhi
  · rw [encodeUserKey] at hhi
    exact prefix_of_between hlo hhi

theorem not_header_sysLocalIndex : ¬ userHeader <+: sysLocalIndex := by decide

theorem not_header_sysLeaderIndex : ¬ userHeader <+: sysLeaderIndex := by decide

theorem not_header_sysGCHorizon : ¬ userHeader <+: sysGCHorizon := by decide

/-! ### Point reads -/

/-- A point read finds the first record at or after the newest possible version of
the key, provided it has the prefix of the key. -/
theorem seekLatest_eq_some_iff (m : DB) (key : Bytes) (e : Bytes × Bytes) : seekLatest m key = some e ↔
    m[e.1]? = some e.2 ∧ encodeUserKey key maxUint64 ≤ e.1 ∧ keyPrefix e.1 = keyPrefix (encodeUserKey key maxUint64) ∧
    ∀ p v, m[p]? = some v → encodeUserKey key maxUint64 ≤ p → e.1 ≤ p := by
  have hkeys : (newIter m .unbounded).keys = m.toList := by
    simp [newIter, IterOptions.within, IterOptions.unbounded]
  rw [seekLatest, Iterator.seekPrefixGE]
  simp only [hkeys, List.head?_takeWhile, Option.filter_eq_some_iff, decide_eq_true_eq]
  rw [dropWhile_lt_head? (fun _ => decide_eq_true_iff), find?_ge_eq_some_iff m.toList_ascending, m.mem_toList]
  simp only [Prod.forall, OrdMap.mem_toList]
  tauto

theorem header_encodeUserKey (key : Bytes) (s : UInt64) : userHeader <+: encodeUserKey key s :=
  prefix_append _ _

theorem header_keyPrefix (key : Bytes) (s : UInt64) : userHeader <+: keyPrefix (encodeUserKey key s) := by
  rcases eq_or_ne key [] with rfl | hkey
  · rw [keyPrefix_encodeUserKey_nil]
    exact header_encodeUserKey [] s
  · rw [keyPrefix_encodeUserKey hkey, append_assoc]
    exact prefix_append _ _

variable {s : UInt64}

theorem header_of_keyPrefix_eq {key : Bytes} (h : keyPrefix p = keyPrefix (encodeUserKey key s)) : userHeader <+: p :=
  (h ▸ header_keyPrefix key s).trans ( take_prefix _ _)

/-! ### Databases with the same user records -/

def SameUser (m m' : DB) : Prop := ∀ p, userHeader <+: p → m[p]? = m'[p]?

variable {m m' : DB}

theorem SameUser.symm (h : SameUser m m') : SameUser m' m := fun p hp => (h p hp).symm

theorem SameUser.newIter_eq (h : SameUser m m') (low high : Bytes) :
    newIter m (iterOptionsForBounds low high) = newIter m' (iterOptionsForBounds low high) := by
  have hkeys : m.toList.filter (fun e => (iterOptionsForBounds low high).within e.1) =
      m'.toList.filter (fun e => (iterOptionsForBounds low high).within e.1) := by
    refine ascending_ext (m.toList_ascending.filter _) (m'.toList_ascending.filter _) fun e => ?_
    rw [mem_filter, mem_filter]
    refine and_congr_left fun hw => ?_
    rw [m.mem_toList, m'.mem_toList, h e.1 (within_header hw)]
  rw [newIter, newIter, hkeys]

theorem SameUser.seekLatest_eq (h : SameUser m m') (key : Bytes) : seekLatest m key = seekLatest m' key := by
  have hle : ∀ {m m' : DB}, SameUser m m' → ∀ e, seekLatest m key = some e → seekLatest m' key = some e := by
    intro m m' h e he
    rw [seekLatest_eq_some_iff] at he ⊢
    obtain ⟨hm, hlo, hpre, hmin⟩ := he
    have hheader := header_of_keyPrefix_eq hpre
    refine ⟨by rw [← h e.1 hheader]; exact hm, hlo, hpre, fun p v hp hle => ?_⟩
    -- a record of `m'` in between would be a user record, and so one of `m`
    by_contra hlt
    obtain ⟨x, hx⟩ := header_encodeUserKey key maxUint64
    obtain ⟨y, hy⟩ := hheader
    have hp' : userHeader <+: p := prefix_of_between (by rw [hx]; exact hle) (by rw [hy]; exact not_le.mp hlt)
    exact hlt (hmin p v (by rw [h p hp']; exact hp) hle)
  exact Option.ext fun e => ⟨hle h e, hle h.symm e⟩

theorem SameUser.point_eq (h : SameUser m m') (key : Bytes) : physical.point m key = physical.point m' key := by
  rw [physical_point, physical_point, h.seekLatest_eq]

theorem SameUser.scan_eq (h : SameUser m m') (low high : Bytes) :
    physical.scan m low high = physical.scan m' low high := by
  simp only [physical, h.newIter_eq]

theorem SameUser.compareOne_eq (h : SameUser m m') (cmp : Compare) :
    physical.compareOne m cmp = physical.compareOne m' cmp := by
  simp only [Store.compareOne, h.point_eq]
  simp only [physical, txnCompareRange, h.newIter_eq]

theorem SameUser.lookup_eq (h : SameUser m m') (req : RangeOp) : physical.lookup m req = physical.lookup m' req := by
  simp only [Store.lookup, h.point_eq]
  simp only [physical, rangeLookup, iterate, h.newIter_eq]

/-- The databases differ at most in the stamped indexes. -/
def SameTable (m m' : DB) : Prop :=
  ∀ p, p ≠ sysLocalIndex → p ≠ sysLeaderIndex → m[p]? = m'[p]?

theorem SameTable.refl (m : DB) : SameTable m m := fun _ _ _ => rfl

theorem SameTable.symm (h : SameTable m m') : SameTable m' m :=
  fun p h1 h2 => (h p h1 h2).symm

theorem SameTable.trans {m'' : DB} (h : SameTable m m') (h' : SameTable m' m'') :
    SameTable m m'' := fun p h1 h2 => (h p h1 h2).trans (h' p h1 h2)

theorem SameTable.sameUser (h : SameTable m m') : SameUser m m' := by
  intro p hp
  refine h p ?_ ?_
  · rintro rfl
    exact not_header_sysLocalIndex hp
  · rintro rfl
    exact not_header_sysLeaderIndex hp

theorem SameTable.insert (h : SameTable m m') (k v : Bytes) : SameTable (m.insert k v) (m'.insert k v) := by
  intro p h1 h2
  rw [OrdMap.getElem?_insert, OrdMap.getElem?_insert, h p h1 h2]

theorem SameTable.removeAll (h : SameTable m m') (s : UInt64) (keys : List Bytes) :
    SameTable (physical.removeAll s keys m) (physical.removeAll s keys m') := by
  induction keys generalizing m m' with
  | nil => exact h
  | cons key keys ih => exact ih (h.insert _ _)

theorem sameTable_stampIndexes (m : DB) (updates : List Entry) : SameTable (stampIndexes m updates) m := by
  intro p h1 h2
  unfold stampIndexes
  cases lastLeaderIndex updates <;> simp [h1.symm, h2.symm]

/-- The guard that asks for `P` at the GC commands and for nothing else. -/
def Guard.atGC (S : Type) (P : Prop) : Guard S :=
  ⟨fun _ _ _ => True, fun _ _ _ => True, fun _ _ => True, fun _ _ => True, fun _ _ => P⟩

theorem Guard.atGC_leaf {S : Type} (X : Store S) {P : Prop} {a : UInt64 × Command}
    (h : a.2.type = .gc → P) (x : S) : (Guard.atGC S P).leaf X a x := by
  obtain ⟨s, cmd⟩ := a
  unfold Guard.leaf
  split
  · exact fun _ _ => trivial
  · exact fun _ _ => trivial
  · exact .of_forall (fun _ _ _ => trivial) x
  · exact .of_forall (fun _ _ _ => trivial) x
  · refine fun t _ => ⟨fun _ _ => trivial, .of_forall (fun op _ _ => ?_) x⟩
    cases op <;> trivial
  · next hgc => exact h hgc
  all_goals trivial

abbrev Guard.always (S : Type) : Guard S := Guard.atGC S True

theorem Guard.always_entries {S : Type} (X : Store S) (updates : List Entry) (x : S) :
    (Guard.always S).entries X updates x :=
  .of_forall (fun _ _ x => Guard.atGC_leaf X (fun _ => trivial) x) x

/-- Databases that differ in the stamped indexes only cannot be told apart by a
command. -/
theorem sameTable_simulates : Simulates physical physical SameTable (Guard.always DB) Eq where
  put _ op _ _ h _ := ⟨fun _ => h.sameUser.point_eq op.key, h.insert _ _⟩
  delete s del m m' h _ := by
    have htargets : physical.targets del m = physical.targets del m' := by
      simp only [Store.targets, h.sameUser.point_eq, h.sameUser.scan_eq]
    rw [htargets]
    cases physical.targets del m' with
    | error e => rfl
    | ok live => exact ⟨rfl, h.removeAll s _⟩
  compare cmp _ _ h _ := h.sameUser.compareOne_eq cmp
  range op m m' h _ := by
    rw [h.sameUser.lookup_eq]
    cases physical.lookup m' op with
    | error e => rfl
    | ok r => rfl
  gc s _ _ h _ := h.insert _ _

theorem SameTable.applyEntries (h : SameTable m m') (updates : List Entry) :
    Agree (fun r r' => r.1 = r'.1 ∧ SameTable r.2 r'.2)
    (physical.applyEntries updates m) (physical.applyEntries updates m') := by
  refine (sameTable_simulates.applyEntries_agree updates h (Guard.always_entries _ _ _)).mono ?_
  rintro r r' ⟨hres, hR⟩
  have hrel : EntryResultRel Eq = Eq := by
    funext a b
    exact propext entryResultRel_eq
  rw [hrel, forall₂_eq_eq_eq] at hres
  exact ⟨hres, hR⟩

variable {k : Bytes}

/-- A key that is not a user key is left alone, the GC horizon by all but the GC
commands. -/
theorem untouched_simulates (hk : ¬ userHeader <+: k) (v : Option Bytes) :
    Simulates physical physical (fun m m' => m = m' ∧ m[k]? = v) (Guard.atGC DB (k ≠ sysGCHorizon)) Eq := by
  have hne : ∀ key s, encodeUserKey key s ≠ k := fun key s h => hk (h ▸ header_encodeUserKey key s)
  have hremove : ∀ (keys : List Bytes) (s : UInt64) (m : DB), (physical.removeAll s keys m)[k]? = m[k]? := by
    intro keys s
    induction keys with
    | nil => exact fun m => rfl
    | cons key keys ih =>
      intro m
      rw [Store.removeAll, foldl_cons]
      exact (ih _).trans (by simp [physical, hne])
  constructor
  · rintro s op m _ ⟨rfl, hv⟩ -
    exact ⟨fun _ => rfl, rfl, by simp [physical, hne, hv]⟩
  · rintro s del m _ ⟨rfl, hv⟩ -
    cases physical.targets del m with
    | error e => rfl
    | ok live => exact ⟨rfl, rfl, (hremove _ s m).trans hv⟩
  · rintro cmp m _ ⟨rfl, -⟩ -
    rfl
  · rintro op m _ ⟨rfl, -⟩ -
    cases physical.lookup m op <;> rfl
  · rintro s m _ ⟨rfl, hv⟩ hgc
    have hgc : k ≠ sysGCHorizon := hgc
    exact ⟨rfl, by simp [physical, hgc.symm, hv]⟩

theorem handle_untouched (hk : ¬ userHeader <+: k) {cmd : Command}
    (hgc : ∀ a ∈ leaves s cmd, a.2.type = .gc → k ≠ sysGCHorizon)
    {r : (UpdateResult × CommandResult) × DB} (h : physical.handle s cmd m = .ok r) : r.2[k]? = m[k]? := by
  have hagree := (untouched_simulates hk m[k]?).handle_agree cmd s ⟨rfl, rfl⟩
    (.of_forall (fun a ha x => Guard.atGC_leaf _ (hgc a ha) x) m)
  rw [h] at hagree
  exact hagree.2.2

theorem applyEntries_untouched (hk : ¬ userHeader <+: k) (hgc : k ≠ sysGCHorizon)
    {updates : List Entry} {r : List EntryResult × DB} (h : physical.applyEntries updates m = .ok r) :
    r.2[k]? = m[k]? := by
  have hagree := (untouched_simulates hk m[k]?).applyEntries_agree updates ⟨rfl, rfl⟩
    (.of_forall (fun _ _ x => Guard.atGC_leaf _ (fun _ => hgc) x) m)
  rw [h] at hagree
  exact hagree.2.2

end Armada.Fsm
