import Armada.Fsm.Paging
import Armada.Fsm.Snapshots

/-! What reads and compares see of what was written. A point read, a range read, a snapshot
and a counted delete all go by the newest version of a key, and a value of the single byte
zero is a deletion to each of them. A range compare also looks at older versions. -/

namespace Armada.Fsm

open Ordered Keys Pebble Proto Program List

/-! ### Range compares -/

/-- A range compare answers by the live view: the range has a live key, and the latest value
of every live key in it satisfies the comparison. -/
def ComparesLive (m : DB) (cmp : Compare) (high : Bytes) : Prop :=
  txnCompare m [cmp] = true ↔
    (∃ k v, InRange cmp.key high k ∧ live (latest m k) = some v) ∧
      ∀ k v, InRange cmp.key high k → live (latest m k) = some v → txnCompareSingle cmp v = true

theorem liveCompare_eq_true_iff {m : DB} (hm : WellFormed m) (cmp : Compare) (high : Bytes) :
    liveCompare cmp (liveScan m cmp.key high) = true ↔ (∃ k v, InRange cmp.key high k ∧ live (latest m k) = some v) ∧
    ∀ k v, InRange cmp.key high k → live (latest m k) = some v → txnCompareSingle cmp v = true := by
  have hex : nonempty (liveScan m cmp.key high) = true ↔ ∃ kv, kv ∈ liveScan m cmp.key high := by
    cases liveScan m cmp.key high <;> simp [nonempty]
  rw [liveCompare, Bool.and_eq_true, hex, all_eq_true]
  simp only [mem_liveScan hm]
  constructor
  · rintro ⟨⟨kv, hkv⟩, hall⟩
    exact ⟨⟨kv.key, kv.value, hkv⟩, fun k v hin hlive => hall ⟨k, v⟩ ⟨hin, hlive⟩⟩
  · rintro ⟨⟨k, v, hkv⟩, hall⟩
    exact ⟨⟨⟨k, v⟩, hkv⟩, fun kv hkv => hall kv.key kv.value hkv.1 hkv.2⟩

/-- A range compare answers by the live view if and only if the range is settled: it has a
live key unless it has no version at all, and when its live values pass so do the older
values above the newest tombstone of their key. -/
theorem comparesLive_iff (m : DB) (hm : WellFormed m) (cmp : Compare) (high : Bytes) (hend : cmp.rangeEnd = some high)
    (hlow : IsBound cmp.key) (hhigh : IsBound high) : ComparesLive m cmp high ↔ Settled m cmp high := by
  have hone : txnCompare m [cmp] = physical.compareRange m cmp high := by
    rw [txnCompare_eq, Store.compare, all_cons, all_nil, Bool.and_true, Store.compareOne, hend]
  rw [ComparesLive, hone, ← liveCompare_eq_true_iff hm, ← Bool.eq_iff_iff]
  exact compareRange_eq_liveCompare_iff hm hlow hhigh

/-- A compare of every value from a key on. -/
def compareFrom (targetUnion : Option Bytes) : Compare := ⟨.equal, .value, [0x61], targetUnion, some wildcard⟩

theorem comparesLive_iff_twoKeys : ComparesLive twoKeys (compareFrom none) wildcard :=
  (comparesLive_iff twoKeys twoKeys_wellFormed (compareFrom none) wildcard rfl (by decide) (by decide)).mpr
    ⟨fun _ => by decide, fun _ _ _ => rfl⟩

/-- A key written twice. -/
def overwritten : DB := ((∅ : DB).insert (encodeUserKey [0x61] 1) [0x31]).insert (encodeUserKey [0x61] 2) [0x32]

/-- A key that was only ever deleted. -/
def onlyDeleted : DB := (∅ : DB).insert (encodeUserKey [0x61] 1) tombstoneValue

/-- The only key has the value asked for, but had another one before. A range with nothing
but a tombstone passes an existence test. -/
theorem not_comparesLive :
    (live (latest overwritten [0x61]) = some [0x32] ∧ txnCompare overwritten [compareFrom (some [0x32])] = false ∧
      ¬ ComparesLive overwritten (compareFrom (some [0x32])) wildcard) ∧
    (liveScan onlyDeleted [0x61] wildcard = [] ∧ txnCompare onlyDeleted [compareFrom none] = true ∧
      ¬ ComparesLive onlyDeleted (compareFrom none) wildcard) := by
  have hoverwritten : WellFormed overwritten := (wellFormed_empty.insert (by decide) 1 _).insert (by decide) 2 _
  have hdeleted : WellFormed onlyDeleted := wellFormed_empty.insert (by decide) 1 _
  have hfalse : txnCompare overwritten [compareFrom (some [0x32])] = false := by decide +kernel
  have htrue : txnCompare onlyDeleted [compareFrom none] = true := by decide +kernel
  refine ⟨⟨rfl, hfalse, fun h => ?_⟩, ⟨rfl, htrue, fun h => ?_⟩⟩
  · rw [ComparesLive, hfalse, ← liveCompare_eq_true_iff hoverwritten] at h
    exact absurd (h.mpr (by decide)) Bool.false_ne_true
  · rw [ComparesLive, ← liveCompare_eq_true_iff hdeleted] at h
    exact absurd (h.mp htrue) (by decide)

/-! ### Reading back -/

/-- A command that puts one pair. -/
def putCommand (leaderIndex : Option UInt64) (k v : Bytes) (prevKvs : Bool) : Command :=
  { Command.ofType .put with leaderIndex, kv := some ⟨k, v⟩, prevKvs }

/-- A command that deletes one key and counts what it deleted. -/
def countedDelete (leaderIndex : Option UInt64) (k : Bytes) (prevKvs : Bool) : Command :=
  { Command.ofType .delete with leaderIndex, kv := some ⟨k, []⟩, prevKvs, count := true }

/-- Every way to read finds the pair: a lookup of the key, a read of every range with the
key, a snapshot, and a delete of the key that counts. -/
structure ReadsBack (p : FSM) (k v : Bytes) (s : UInt64) : Prop where
  lookup : singleLookup p.db ⟨k, none, 0, false, false⟩ = ⟨[⟨k, v⟩], false, 1⟩
  range : ∀ low high, IsBound low → IsBound high → InRange low high k →
    ∃ pages, iterate p.db ⟨low, some high, 0, false, false⟩ = .ok pages ∧ ⟨k, v⟩ ∈ pages.flatMap RangeResponse.kvs
  snapshot : ∀ tableName, ∃ records index, commandSnapshot p.db tableName = .ok (records, index) ∧
    writeCommand tableName k v s ∈ records
  delete : ∀ index leaderIndex prevKvs, ∃ p' deleted revision,
    p.update [⟨index, some (countedDelete leaderIndex k prevKvs)⟩] =
        .ok (p', [⟨.success, ⟨[.deleteRange deleted], revision⟩⟩]) ∧ deleted.deleted = 1

section
variable {p : FSM} (hp : WellFormed p.db) {k : Bytes} (hk : Admitted k) {v : Bytes} {s : UInt64}
include hp hk

theorem singleLookup_latest : singleLookup p.db ⟨k, none, 0, false, false⟩ =
    pointResponse ⟨k, none, 0, false, false⟩ (live (latest p.db k)) := by
  rw [singleLookup_eq, point_eq hp hk]

theorem readsBack_of_latest (hlatest : latest p.db k = some (s, v)) (hv : isTombstone v = false) :
    ReadsBack p k v s where
  lookup := by
    rw [singleLookup_latest hp hk, hlatest]
    simp [live, hv, pointResponse]
  range low high hlow hhigh hin := by
    refine ⟨_, iterate_eq hp _ hlow hhigh, ?_⟩
    change _ ∈ (fillPages .kvPair 0 _ (liveScan p.db low high) 0 0 .empty).flatMap RangeResponse.kvs
    rw [fillPages_kvs]
    apply mem_append_right
    rw [mem_liveScan hp, hlatest]
    exact ⟨hin, by simp [live, hv]⟩
  snapshot tableName := by
    refine ⟨_, _, commandSnapshot_eq hp.nullFree tableName, ?_⟩
    have hfirst := (mem_firsts_versions hp.nullFree ⟨k, s, v⟩).mpr hlatest
    rw [mem_map]
    exact ⟨_, mem_filter.mpr ⟨hfirst, by simp [hv]⟩, by simp [changeCommand, hv]⟩
  delete index leaderIndex prevKvs := by
    have hpoint : physical.point p.db k = some v := by
      rw [point_eq hp hk, hlatest]
      simp [live, hv]
    have htargets : physical.targets ⟨k, none, prevKvs, true⟩ p.db = .ok [⟨k, v⟩] := by
      rw [Store.targets, hpoint]
      rfl
    rw [update_eq]
    simp only [Store.applyEntries, runAll, Store.applyEntry, countedDelete, Command.ofType, Store.handle,
      Store.commandDelete, Store.delete, htargets, ok_bind, pure_bind]
    exact ⟨_, _, _, rfl, by simp [deleteRangeResponse]⟩

theorem readsBack_iff (hlatest : latest p.db k = some (s, v)) : ReadsBack p k v s ↔ v ≠ [0] := by
  constructor
  · rintro hback rfl
    have hfound := hback.lookup
    rw [singleLookup_latest hp hk, hlatest, show live (some (s, [0])) = none from rfl] at hfound
    exact absurd (congrArg RangeResponse.count hfound) Nat.zero_ne_one
  · intro hv
    exact readsBack_of_latest hp hk hlatest (decide_eq_false hv)

end

theorem update_put (p : FSM) (index : UInt64) (leaderIndex : Option UInt64) (k v : Bytes) (prevKvs : Bool) :
    ∃ p' results, p.update [⟨index, some (putCommand leaderIndex k v prevKvs)⟩] = .ok (p', results) ∧
    p'.db = stampIndexes (p.db.insert (encodeUserKey k (leaderIndex.getD index)) v)
    [⟨index, some (putCommand leaderIndex k v prevKvs)⟩] := by
  rw [update_eq]
  simp only [Store.applyEntries, runAll, Store.applyEntry, putCommand, Command.ofType, Store.handle,
    Store.commandPut, Store.put, ok_bind, pure_bind]
  exact ⟨_, _, rfl, rfl⟩

/-- A put at a sequence number above those of its key succeeds, and what it wrote is read
back if and only if the value is not the single byte zero. -/
theorem put_readsBack_iff (p : FSM) (hp : WellFormed p.db) (k : Bytes) (hk : Admitted k) (v : Bytes)
    (index : UInt64) (leaderIndex : Option UInt64) (prevKvs : Bool)
    (habove : ∀ s x, ver p.db k s = some x → s < leaderIndex.getD index) :
    ∃ p' results, p.update [⟨index, some (putCommand leaderIndex k v prevKvs)⟩] = .ok (p', results) ∧
      (ReadsBack p' k v (leaderIndex.getD index) ↔ v ≠ [0]) := by
  obtain ⟨p', results, hupdate, hdb⟩ := update_put p index leaderIndex k v prevKvs
  refine ⟨p', results, hupdate, ?_⟩
  have hwf := hp.insert hk (leaderIndex.getD index) v
  have hlatest : latest p'.db k = some (leaderIndex.getD index, v) := by
    rw [hdb, hwf.latest_stampIndexes, hp.latest_insert hk, if_pos rfl]
    apply bump_of_atMost
    intro w hw
    exact (habove w.1 w.2 ((latest_eq_iff hp.nullFree).mp hw).1).le
  exact readsBack_iff (hdb ▸ hwf.stampIndexes _) hk hlatest

theorem put_readsBack_iff_text : ∃ p' results,
    FSM.fresh.update [⟨1, some (putCommand none [0x61] [0x31] false)⟩] = .ok (p', results) ∧
      (ReadsBack p' [0x61] [0x31] 1 ↔ ([0x31] : Bytes) ≠ [0]) :=
  put_readsBack_iff FSM.fresh wellFormed_empty [0x61] (by decide) [0x31] 1 none false (by
    intro s x hx
    simp [FSM.fresh, ver] at hx)

/-- A put of the single byte zero succeeds, and the key is not there. -/
theorem zero_byte_lost : ∃ p' results,
    FSM.fresh.update [⟨1, some (putCommand none [0x61] [0] false)⟩] = .ok (p', results) ∧
      results.map EntryResult.value = [.success] ∧
      singleLookup p'.db ⟨[0x61], none, 0, false, false⟩ = .empty ∧ ¬ ReadsBack p' [0x61] [0] 1 := by
  refine ⟨_, _, rfl, rfl, rfl, fun h => ?_⟩
  exact absurd (congrArg RangeResponse.count h.lookup) (by decide)

end Armada.Fsm
