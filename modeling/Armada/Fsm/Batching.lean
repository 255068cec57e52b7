import Armada.Fsm.UserKeys

/-! Cutting the committed log into batches. The commands of a batch do not see where
it begins or ends. The stamped indexes do: they are those of the last entry, and the
leader index is stamped only when that entry carries one. -/

namespace Armada.Fsm

open Ordered Keys Pebble Proto Program

/-- The same user records and the same values under the system keys. -/
structure SamePersisted (m m' : DB) : Prop where
  user : SameUser m m'
  localIndex : m[sysLocalIndex]? = m'[sysLocalIndex]?
  leaderIndex : m[sysLeaderIndex]? = m'[sysLeaderIndex]?
  gcHorizon : m[sysGCHorizon]? = m'[sysGCHorizon]?

/-- A batch may be cut in two: the second part is not empty, unless the first ends at
index zero; and its last entry carries a leader index, unless the first part ends
without one or with the one that is persisted already. -/
structure CutIsSafe (db : DB) (xs ys : List Entry) : Prop where
  localIndex : ys = [] → lastIndex xs = 0
  leaderIndex : ys ≠ [] → lastLeaderIndex ys = none → ∀ leaderIdx, lastLeaderIndex xs = some leaderIdx →
    db[sysLeaderIndex]? = some (littleEndian leaderIdx)

theorem lastIndex_append {xs ys : List Entry} (h : ys ≠ []) : lastIndex (xs ++ ys) = lastIndex ys := by
  rw [lastIndex, lastIndex, List.getLast?_append, List.getLast?_eq_some_getLast h]
  rfl

theorem lastLeaderIndex_append {xs ys : List Entry} (h : ys ≠ []) :
    lastLeaderIndex (xs ++ ys) = lastLeaderIndex ys := by
  rw [lastLeaderIndex, lastLeaderIndex, List.getLast?_append, List.getLast?_eq_some_getLast h]
  rfl

theorem stampIndexes_localIndex (m : DB) (updates : List Entry) :
    (stampIndexes m updates)[sysLocalIndex]? = some (littleEndian (lastIndex updates)) := by
  simp [stampIndexes]

theorem stampIndexes_leaderIndex (m : DB) (updates : List Entry) : (stampIndexes m updates)[sysLeaderIndex]? =
      match lastLeaderIndex updates with
      | some leaderIdx => some (littleEndian leaderIdx)
      | none => m[sysLeaderIndex]? := by
  have hne : sysLocalIndex ≠ sysLeaderIndex := by decide
  unfold stampIndexes
  cases lastLeaderIndex updates with
  | none => rw [OrdMap.getElem?_insert, if_neg hne]
  | some leaderIdx => rw [OrdMap.getElem?_insert, if_neg hne, OrdMap.getElem?_insert, if_pos rfl]

theorem littleEndian_inj {x y : UInt64} (h : littleEndian x = littleEndian y) : x = y :=
  bigEndian_inj (List.reverse_injective h)

@[simp]
theorem ofLittleEndian_littleEndian (x : UInt64) : ofLittleEndian (littleEndian x) = x := by
  have hlen : (bigEndian x).reverse.length = 8 := by simp
  rw [ofLittleEndian, littleEndian, ← hlen, List.take_length, List.reverse_reverse, ofBigEndian_bigEndian]

theorem update_ok {p p' : FSM} {updates : List Entry} {results : List EntryResult}
    (h : p.update updates = .ok (p', results)) :
    ∃ m, physical.applyEntries updates p.db = .ok (results, m) ∧ p'.db = stampIndexes m updates := by
  rw [update_eq] at h
  simp only [bind_eq_ok_iff, pure_eq_ok_iff, Prod.mk.injEq] at h
  obtain ⟨⟨rs, m⟩, hrun, rfl, rfl⟩ := h
  exact ⟨m, hrun, rfl⟩

theorem update_update {p p1 p2 : FSM} {xs ys : List Entry} {rs1 rs2 : List EntryResult} {m : DB}
    {rs : List EntryResult} (happ : physical.applyEntries (xs ++ ys) p.db = .ok (rs, m))
    (h1 : p.update xs = .ok (p1, rs1)) (h2 : p1.update ys = .ok (p2, rs2)) : rs = rs1 ++ rs2 ∧ SameTable m p2.db ∧
    p2.db[sysLeaderIndex]? = (stampIndexes (stampIndexes m xs) ys)[sysLeaderIndex]? := by
  obtain ⟨m1, hxs, hp1⟩ := update_ok h1
  obtain ⟨m2, hys, hp2⟩ := update_ok h2
  rw [Store.applyEntries, runAll_append, bind_eq_ok_iff] at happ
  obtain ⟨a, ha, happ⟩ := happ
  rw [bind_eq_ok_iff] at happ
  obtain ⟨b, hb, happ⟩ := happ
  rw [pure_eq_ok_iff, Prod.mk.injEq] at happ
  obtain ⟨rfl, rfl⟩ := happ
  obtain rfl : (rs1, m1) = a := Except.ok.inj (hxs.symm.trans ha)
  have hsame : SameTable m1 p1.db := by
    rw [hp1]
    exact (sameTable_stampIndexes m1 xs).symm
  have hagree := hsame.applyEntries ys
  rw [hys, show physical.applyEntries ys m1 = .ok b from hb] at hagree
  obtain ⟨hres, htable⟩ := hagree
  refine ⟨by rw [hres], htable.trans ?_, ?_⟩
  · rw [hp2]
    exact (sameTable_stampIndexes m2 ys).symm
  · have hleader : ∀ {es : List Entry} {m : DB} {r : List EntryResult × DB},
        physical.applyEntries es m = .ok r → r.2[sysLeaderIndex]? = m[sysLeaderIndex]? :=
      applyEntries_untouched not_header_sysLeaderIndex (by decide)
    rw [hp2, stampIndexes_leaderIndex, stampIndexes_leaderIndex, stampIndexes_leaderIndex, hleader hys,
      hp1, stampIndexes_leaderIndex, hleader (show physical.applyEntries ys m1 = .ok b from hb)]

theorem stampIndexes_localIndex_eq_iff (m m' : DB) (xs ys : List Entry) :
    (stampIndexes m (xs ++ ys))[sysLocalIndex]? = (stampIndexes m' ys)[sysLocalIndex]? ↔
    (ys = [] → lastIndex xs = 0) := by
  rw [stampIndexes_localIndex, stampIndexes_localIndex]
  rcases eq_or_ne ys [] with rfl | hys
  · simp only [List.append_nil, forall_true_left, Option.some.injEq]
    exact ⟨fun h => littleEndian_inj h, fun h => by rw [h]; rfl⟩
  · simp [lastIndex_append hys, hys]

theorem stampIndexes_leaderIndex_eq_iff (m : DB) (xs ys : List Entry) : (stampIndexes m (xs ++ ys))[sysLeaderIndex]? =
    (stampIndexes (stampIndexes m xs) ys)[sysLeaderIndex]? ↔
    (ys ≠ [] → lastLeaderIndex ys = none → ∀ leaderIdx, lastLeaderIndex xs = some leaderIdx →
    m[sysLeaderIndex]? = some (littleEndian leaderIdx)) := by
  simp only [stampIndexes_leaderIndex]
  rcases eq_or_ne ys [] with rfl | hys
  · have hnil : lastLeaderIndex [] = none := rfl
    simp [hnil]
  · rw [lastLeaderIndex_append hys]
    cases lastLeaderIndex ys with
    | some leaderIdx => simp
    | none => cases lastLeaderIndex xs <;> simp [hys]

/-- Where the log is cut into batches is observable exactly in the stamped indexes. -/
theorem update_append_iff (p p1 p2 p3 : FSM) (xs ys : List Entry) (rs rs1 rs2 : List EntryResult)
    (h : p.update (xs ++ ys) = .ok (p3, rs)) (h1 : p.update xs = .ok (p1, rs1)) (h2 : p1.update ys = .ok (p2, rs2)) :
    (rs = rs1 ++ rs2 ∧ SamePersisted p3.db p2.db) ↔ CutIsSafe p.db xs ys := by
  obtain ⟨m, happ, hp3⟩ := update_ok h
  obtain ⟨hres, hsame, hleader2⟩ := update_update happ h1 h2
  obtain ⟨m2, -, hp2⟩ := update_ok h2
  have htable : SameTable p3.db p2.db := by
    rw [hp3]
    exact (sameTable_stampIndexes m _).trans hsame
  have hlocal := stampIndexes_localIndex_eq_iff m m2 xs ys
  have hleader := stampIndexes_leaderIndex_eq_iff m xs ys
  rw [← hp3, ← hp2] at hlocal
  rw [← hp3, ← hleader2, applyEntries_untouched not_header_sysLeaderIndex (by decide) happ] at hleader
  constructor
  · rintro ⟨-, hpersisted⟩
    exact ⟨hlocal.mp hpersisted.localIndex, hleader.mp hpersisted.leaderIndex⟩
  · intro hcut
    refine ⟨hres, htable.sameUser, hlocal.mpr hcut.localIndex, hleader.mpr hcut.leaderIndex, ?_⟩
    exact htable _ (by decide) (by decide)

/-- A put at leader index 5 and one without a leader index. -/
def replicatedThenLocal : List Entry × List Entry :=
  ([⟨1, some { Command.ofType .put with kv := some ⟨[0x61], [0x31]⟩, leaderIndex := some 5 }⟩],
    [⟨2, some { Command.ofType .put with kv := some ⟨[0x62], [0x32]⟩ }⟩])

theorem update_append_iff_replicatedThenLocal : ∃ p1 p2 p3 rs rs1 rs2,
      FSM.fresh.update (replicatedThenLocal.2 ++ replicatedThenLocal.1) = .ok (p3, rs) ∧
      FSM.fresh.update replicatedThenLocal.2 = .ok (p1, rs1) ∧ p1.update replicatedThenLocal.1 = .ok (p2, rs2) ∧
      ((rs = rs1 ++ rs2 ∧ SamePersisted p3.db p2.db) ↔
        CutIsSafe FSM.fresh.db replicatedThenLocal.2 replicatedThenLocal.1) :=
  ⟨_, _, _, _, _, _, rfl, rfl, rfl, update_append_iff FSM.fresh _ _ _ _ _ _ _ _ rfl rfl rfl⟩

/-- In one batch the leader index of the first entry is not persisted, in two it is. -/
theorem update_append_loses_leaderIndex : ∃ p1 p2 p3 rs rs1 rs2,
      FSM.fresh.update (replicatedThenLocal.1 ++ replicatedThenLocal.2) = .ok (p3, rs) ∧
      FSM.fresh.update replicatedThenLocal.1 = .ok (p1, rs1) ∧ p1.update replicatedThenLocal.2 = .ok (p2, rs2) ∧
      readLocalIndex p3.db sysLeaderIndex = 0 ∧ readLocalIndex p2.db sysLeaderIndex = 5 :=
  ⟨_, _, _, _, _, _, rfl, rfl, rfl, by decide, by decide⟩

end Armada.Fsm
