import Armada.Fsm.Runs
import Armada.Fsm.View

/-! The table as a plain ordered map. While sequence numbers do not decrease, every write
becomes the newest version of its key and every tombstone hides it, so a list of entries
leaves the map, and returns the results, that the same commands have on a plain map. -/

namespace Armada.Fsm

open Ordered Keys Pebble Proto Program List

/-- The plain ordered map. -/
def plain : Store (OrdMap Bytes Bytes) :=
  Store.ofView id (fun n key _ value => n.insert key value) (fun n key _ => n.erase key)

/-- No version is newer than `s`. -/
def Below (m : DB) (s : UInt64) : Prop := ∀ k v, latest m k = some v → v.1 ≤ s

variable {s : UInt64} {m : DB}

theorem Below.bump_eq (h : Below m s) (k value : Bytes) : bump (latest m k) s value = some (s, value) := by
  cases hl : latest m k with
  | none => rfl
  | some v => exact bump_of_le (h k v hl) _ _

theorem Below.mono {t : UInt64} (h : Below m s) (hst : s ≤ t) : Below m t :=
  fun k v hv => (h k v hv).trans hst

theorem Below.insert (hm : WellFormed m) (h : Below m s) {key : Bytes}
    (hkey : Admitted key) (value : Bytes) : Below (m.insert (encodeUserKey key s) value) s := by
  intro k v hv
  rw [hm.latest_insert hkey] at hv
  split at hv
  · rw [h.bump_eq] at hv
    exact (Option.some.inj hv) ▸ le_rfl
  · exact h k v hv

theorem Below.removeAll (hm : WellFormed m) (h : Below m s) {keys : List Bytes}
    (hkeys : ∀ k ∈ keys, Admitted k) : Below (physical.removeAll s keys m) s := by
  intro k v hv
  rw [latest_removeAll hm hkeys] at hv
  split at hv
  · rw [h.bump_eq] at hv
    exact (Option.some.inj hv) ▸ le_rfl
  · exact h k v hv

/-! ### One operation -/

namespace Shows

variable {m : DB} {view : OrdMap Bytes Bytes} (h : Shows m view) {s : UInt64} (hs : Below m s)
include h hs

theorem write {key value : Bytes} (hkey : Admitted key) (hvalue : value ≠ tombstoneValue) :
    Shows (m.insert (encodeUserKey key s) value) (view.insert key value) := by
  refine ⟨h.wellFormed.insert hkey s value, fun k => ?_⟩
  rw [h.wellFormed.latest_insert hkey, OrdMap.getElem?_insert]
  by_cases hk : key = k
  · rw [if_pos hk, if_pos hk, hs.bump_eq]
    simp [Fsm.live, isTombstone, hvalue]
  · rw [if_neg hk, if_neg hk, h.live]

theorem removeAll {keys : List Bytes} (hkeys : ∀ k ∈ keys, Admitted k) :
    Shows (physical.removeAll s keys m) (plain.removeAll s keys view) := by
  refine ⟨removeAll_wellFormed h.wellFormed hkeys s, fun k => ?_⟩
  have hplain : (plain.removeAll s keys view)[k]? = if k ∈ keys then none else view[k]? :=
    (OrdMap.getElem?_foldl_erase keys view k).trans (by congr)
  rw [latest_removeAll h.wellFormed hkeys, hplain]
  split
  · rw [hs.bump_eq]
    rfl
  · rw [h.live]

end Shows

/-- Operations at or above every version, on admitted keys, with values that are not
taken for tombstones and compares of single keys. -/
def inOrder : Guard DB where
  put s op m := (Admitted op.key ∧ op.value ≠ tombstoneValue) ∧ Below m s
  delete s del m := IsTarget del.key del.rangeEnd ∧ Below m s
  compare cmp _ := Admitted cmp.key ∧ cmp.rangeEnd = none
  range op _ := IsTarget op.key op.rangeEnd
  gc _ _ := True

theorem physical_simulates_plain : Simulates physical plain Shows inOrder SameButMore := by
  apply physical_simulates_ofView
  · exact fun m view h => h
  · rintro s op m view h ⟨hop, hs⟩
    exact ⟨hop.1, h.write hs hop.1 hop.2⟩
  · rintro s del m view h ⟨hdel, hs⟩
    exact ⟨hdel, fun found hfound => h.removeAll hs fun k hk => (live_of_targets h.wellFormed hdel hfound k hk).1⟩
  · rintro cmp m view h ⟨hkey, hsingle⟩
    rw [hsingle]
    exact ⟨hkey, fun high hhigh => nomatch hhigh⟩
  · intro op m view h hop
    exact ⟨hop, fun r => ⟨rfl, rfl⟩, fun _ => livePage_sameButMore _ _ _ _⟩
  · intro s m view h _
    refine ⟨h.wellFormed.insert_system (by simp [systemKeys]) _, fun k => ?_⟩
    rw [← h.live]
    exact congrArg live (h.wellFormed.latest_insert_system (by simp [systemKeys]) _ k)

/-! ### A list of entries -/

/-- Admitted keys, values that are not taken for tombstones, compares of single keys. -/
def mapLike : Shape where
  put op := Admitted op.key ∧ op.value ≠ tombstoneValue
  delete del := IsTarget del.key del.rangeEnd
  compare cmp := Admitted cmp.key ∧ cmp.rangeEnd = none
  range op := IsTarget op.key op.rangeEnd

instance (cmd : Command) : Decidable (mapLike.leaf cmd) :=
  have : DecidablePred mapLike.put := fun op =>
    inferInstanceAs (Decidable (Admitted op.key ∧ op.value ≠ tombstoneValue))
  have : DecidablePred mapLike.delete := fun del => inferInstanceAs (Decidable (IsTarget del.key del.rangeEnd))
  have : DecidablePred mapLike.compare := fun cmp =>
    inferInstanceAs (Decidable (Admitted cmp.key ∧ cmp.rangeEnd = none))
  have : DecidablePred mapLike.range := fun op => inferInstanceAs (Decidable (IsTarget op.key op.rangeEnd))
  inferInstance

theorem mapLike_keeps (s : UInt64) : Keeps physical inOrder mapLike (fun m => WellFormed m ∧ Below m s) s where
  put op m hop hm := ⟨⟨hop, hm.2⟩, hm.1.insert hop.1 s op.value, hm.2.insert hm.1 hop.1 op.value⟩
  delete del m hdel hm := ⟨⟨hdel, hm.2⟩, fun found hfound =>
    have hkeys := fun k hk => (live_of_targets hm.1 hdel hfound k hk).1
    ⟨removeAll_wellFormed hm.1 hkeys s, hm.2.removeAll hm.1 hkeys⟩⟩
  compare _ _ hcmp _ := hcmp
  range _ _ hop _ := hop
  gc m hm := ⟨trivial, hm.1.insert_system (by simp [systemKeys]) _, fun k v hv => hm.2 k v (by
    rw [← hv]
    exact (hm.1.latest_insert_system (by simp [systemKeys]) _ k).symm)⟩

/-- The sequence numbers of the commands in a list of entries, but for dummies. -/
def dataSeqnos (leaves : List (UInt64 × Command)) : List UInt64 :=
  (leaves.filter fun a => a.2.type ≠ .dummy).map Prod.fst

theorem inOrder_along {leaves : List (UInt64 × Command)} (hleaves : ∀ a ∈ leaves, a.2.type ≠ .sequence)
    (hshape : ∀ a ∈ leaves, mapLike.leaf a.2) (horder : (dataSeqnos leaves).Pairwise (· ≤ ·))
    (hm : WellFormed m) (hbelow : ∀ s ∈ dataSeqnos leaves, Below m s) :
    Along (inOrder.leaf physical) physical.handleLeaf leaves m := by
  induction leaves generalizing m with
  | nil => trivial
  | cons a leaves ih =>
    rw [forall_mem_cons] at hleaves hshape
    by_cases hdummy : a.2.type = .dummy
    · obtain ⟨s, cmd⟩ := a
      cases cmd
      cases hdummy
      refine ⟨trivial, fun r hr => ?_⟩
      cases hr
      exact ih hleaves.2 hshape.2 horder hm hbelow
    · have hseqnos : dataSeqnos (a :: leaves) = a.1 :: dataSeqnos leaves := by
        simp [dataSeqnos, hdummy]
      rw [hseqnos, pairwise_cons] at horder
      rw [hseqnos, forall_mem_cons] at hbelow
      obtain ⟨hguard, hkeep⟩ := (mapLike_keeps a.1).leaf_step hleaves.1 hshape.1 ⟨hm, hbelow.1⟩
      refine ⟨hguard, fun r hr => ?_⟩
      obtain ⟨hr1, hr2⟩ := hkeep r hr
      exact ih hleaves.2 hshape.2 horder.2 hr1 fun s hs => hr2.mono (horder.1 s hs)

/-! ### What readers see -/

/-- The read of one key. -/
def getRequest (key : Bytes) : RangeOp := ⟨key, none, 0, false, false⟩

/-- The read of every key. -/
def wildcardRequest : RangeOp := ⟨wildcard, some wildcard, 0, false, false⟩

/-- Point reads of every key and the range read of all keys give the map. -/
structure ReadsAs (m : DB) (view : OrdMap Bytes Bytes) : Prop where
  point : ∀ k, Admitted k → singleLookup m (getRequest k) = pointResponse (getRequest k) view[k]?
  range : ∃ pages, iterate m wildcardRequest = .ok pages ∧
    pages.flatMap RangeResponse.kvs = view.toList.map fun e => ⟨e.1, e.2⟩

theorem Shows.readsAs {view : OrdMap Bytes Bytes} (h : Shows m view) : ReadsAs m view := by
  have hbound : IsBound wildcard := Or.inr rfl
  have hall : ∀ e ∈ view.toList, InRange wildcard wildcard e.1 := by
    intro e he
    rw [view.mem_toList] at he
    exact ⟨wildcard_le (admitted_of_live h.wellFormed (by rw [h.live, he]; rfl)), Or.inl rfl⟩
  have hpairs : liveScan m wildcard wildcard = view.toList.map fun e => ⟨e.1, e.2⟩ := by
    rw [h.liveScan_eq, mapRange, filter_eq_self.mpr fun e he => decide_eq_true (hall e he)]
  refine ⟨fun k hk => ?_, _, iterate_eq h.wellFormed wildcardRequest hbound hbound, ?_⟩
  · rw [singleLookup_eq]
    exact congrArg _ (h.point_eq hk)
  · exact (fillPages_kvs _ _ _ _ _).trans hpairs

/-! ### Commands that do not fail -/

/-- The command is of a known type and has the parts its handler dereferences. -/
def complete (cmd : Command) : Bool :=
  match cmd.type with
  | .put | .delete => cmd.kv.isSome
  | .txn => cmd.txn.isSome
  | .unrecognized => false
  | .dummy | .putBatch | .deleteBatch | .sequence | .gc => true

/-- Operations of the shape at `s` succeed where the invariant holds, and keep it. -/
structure Succeeds {S : Type} (X : Store S) (C : Shape) (I : S → Prop) (s : UInt64) : Prop where
  put : ∀ op x, C.put op → I x → I (X.write x op.key s op.value)
  delete : ∀ del x, C.delete del → I x →
    ∃ found, X.targets del x = .ok found ∧ I (X.removeAll s (found.map KeyValue.key) x)
  range : ∀ op x, C.range op → I x → ∃ r, X.lookup x op = .ok r
  gc : ∀ x, I x → I (X.setHorizon x s)

namespace Succeeds

variable {S : Type} {X : Store S} {C : Shape} {I : S → Prop} {s : UInt64} (h : Succeeds X C I s)
include h

variable {x : S}

theorem put_ok {op : PutOp} (hop : C.put op) (hx : I x) : ∃ r, X.put s op x = .ok r ∧ I r.2 :=
  ⟨_, rfl, h.put op x hop hx⟩

theorem delete_ok {del : DeleteRangeOp} (hdel : C.delete del) (hx : I x) : ∃ r, X.delete s del x = .ok r ∧ I r.2 := by
  obtain ⟨found, hfound, hkept⟩ := h.delete del x hdel hx
  exact ⟨_, by rw [Store.delete, hfound]; rfl, hkept⟩

theorem txnOp_ok {op : RequestOp} (hop : C.txnOp op) (hx : I x) : ∃ r, X.txnOp s op x = .ok r ∧ I r.2 := by
  cases op with
  | range op =>
    obtain ⟨r, hr⟩ := h.range op x hop hx
    exact ⟨_, by rw [Store.txnOp, hr]; rfl, hx⟩
  | put op => exact ⟨_, rfl, h.put op x hop hx⟩
  | deleteRange op =>
    obtain ⟨r, hr, hkept⟩ := h.delete_ok hop hx
    exact ⟨_, by rw [Store.txnOp, hr]; rfl, hkept⟩
  | unset => exact ⟨_, rfl, hx⟩

theorem leaf_ok {cmd : Command} (hs : cmd.type ≠ .sequence) (hcomplete : complete cmd = true)
    (hcmd : C.leaf cmd) (hx : I x) : ∃ r, X.handleLeaf (s, cmd) x = .ok r ∧ I r.2 := by
  obtain ⟨table, type, kv, leaderIndex, batch, txn, rangeEnd, prevKvs, sequence, count⟩ := cmd
  unfold Store.handleLeaf Store.handle
  cases type with
  | put =>
    obtain ⟨kv, rfl⟩ := Option.isSome_iff_exists.mp hcomplete
    exact ⟨_, rfl, h.put _ x (hcmd kv rfl) hx⟩
  | delete =>
    obtain ⟨kv, rfl⟩ := Option.isSome_iff_exists.mp hcomplete
    obtain ⟨r, hr, hkept⟩ := h.delete_ok (hcmd kv rfl) hx
    exact ⟨_, by simp only [Store.commandDelete, hr, ok_bind]; rfl, hkept⟩
  | putBatch =>
    obtain ⟨rs, hrs, hkept⟩ := runAll_ok (f := X.put s) (fun op hop x hx => by
      obtain ⟨kv, hkv, rfl⟩ := mem_map.mp hop
      exact h.put_ok (hcmd kv hkv) hx) hx
    exact ⟨_, by simp only [Store.commandPutBatch, hrs, ok_bind]; rfl, hkept⟩
  | deleteBatch =>
    obtain ⟨rs, hrs, hkept⟩ := runAll_ok (f := X.delete s) (fun del hdel x hx => by
      obtain ⟨kv, hkv, rfl⟩ := mem_map.mp hdel
      exact h.delete_ok (hcmd kv hkv) hx) hx
    exact ⟨_, by simp only [Store.commandDeleteBatch, hrs, ok_bind]; rfl, hkept⟩
  | txn =>
    obtain ⟨t, rfl⟩ := Option.isSome_iff_exists.mp hcomplete
    obtain ⟨rs, hrs, hkept⟩ := runAll_ok (fun op hop y hy =>
      h.txnOp_ok ((hcmd t rfl).2 (X.compare x t.compare) op hop) hy) hx
    exact ⟨_, by simp only [Store.commandTxn, Store.txn, hrs, ok_bind, pure_bind]; rfl, hkept⟩
  | dummy => exact ⟨_, rfl, hx⟩
  | gc => exact ⟨_, rfl, h.gc x hx⟩
  | unrecognized => cases hcomplete
  | sequence => exact absurd rfl hs

end Succeeds

theorem plain_succeeds (s : UInt64) : Succeeds plain mapLike (fun _ => True) s where
  put _ _ _ _ := trivial
  delete del view _ _ := by
    obtain ⟨key, _ | rangeEnd, prevKv, count⟩ := del <;> exact ⟨_, rfl, trivial⟩
  range op view _ _ := by
    obtain ⟨key, _ | rangeEnd, limit, keysOnly, countOnly⟩ := op <;> exact ⟨_, rfl⟩
  gc _ _ := trivial

theorem plain_applyEntries_ok {updates : List Entry} (hdec : ∀ e ∈ updates, e.cmd ≠ none)
    (hshape : ∀ a ∈ updates.flatMap Entry.leaves, complete a.2 = true ∧ mapLike.leaf a.2)
    (view : OrdMap Bytes Bytes) : ∃ r, plain.applyEntries updates view = .ok r := by
  obtain ⟨rs, hrs, -⟩ := runAll_ok (f := plain.handleLeaf) (I := fun _ => True) (fun a ha x hx =>
    (plain_succeeds a.1).leaf_ok (type_of_mem_flatMap_leaves ha) (hshape a ha).1 (hshape a ha).2 hx)
    (x := view) trivial
  have hagree := applyEntries_agree_leaves plain hdec view
  rw [hrs] at hagree
  obtain ⟨r, hr, -⟩ := hagree.ok_right
  exact ⟨r, hr⟩

/-! ### The refinement -/

theorem shows_fresh : Shows FSM.fresh.db ∅ :=
  ⟨wellFormed_empty, fun k => by rw [FSM.fresh, latest_empty]; simp [live]⟩

/-- Entries applied by `Update` succeed, leave the map, and return the results, of the
same commands on a plain map. The sequence numbers of successive commands may even be
equal. -/
theorem update_refines_plain (p : FSM) (view : OrdMap Bytes Bytes) (hp : Shows p.db view)
    (updates : List Entry) (hdec : ∀ e ∈ updates, e.cmd ≠ none)
    (hshape : ∀ a ∈ updates.flatMap Entry.leaves, complete a.2 = true ∧ mapLike.leaf a.2)
    (horder : (dataSeqnos (updates.flatMap Entry.leaves)).Pairwise (· ≤ ·))
    (hbelow : ∀ s ∈ dataSeqnos (updates.flatMap Entry.leaves), Below p.db s) :
    ∃ p' results results' view', p.update updates = .ok (p', results) ∧
      plain.applyEntries updates view = .ok (results', view') ∧
      List.Forall₂ (EntryResultRel SameButMore) results results' ∧ ReadsAs p'.db view' := by
  have hguard : inOrder.entries physical updates p.db :=
    inOrder_along (fun a ha => type_of_mem_flatMap_leaves ha) (fun a ha => (hshape a ha).2) horder
      hp.wellFormed hbelow
  obtain ⟨r', hr'⟩ := plain_applyEntries_ok hdec hshape view
  have hagree := physical_simulates_plain.applyEntries_agree updates hp hguard
  rw [hr'] at hagree
  obtain ⟨r, hr, hresults, hshows⟩ := hagree.ok_right
  have hupdate := update_eq p updates
  rw [hr, ok_bind] at hupdate
  refine ⟨_, _, _, _, hupdate, hr', hresults, Shows.readsAs ⟨hshows.wellFormed.stampIndexes updates, ?_⟩⟩
  intro k
  rw [hshows.wellFormed.latest_stampIndexes, hshows.live]

/-- A put, a transaction that puts and deletes one key, a range delete in a nested
sequence with a put of the same index, and a dummy. -/
def sampleUpdates : List Entry :=
  let put (key value : Bytes) : Command := { Command.ofType .put with kv := some ⟨key, value⟩ }
  let txn : Txn := ⟨[⟨.equal, .value, [0x61], some [0x31], none⟩],
    [.put ⟨[0x62], [0x32], true⟩, .deleteRange ⟨[0x62], none, true, true⟩, .put ⟨[0x63], [0x33], false⟩],
    [.range wildcardRequest]⟩
  let clear : Command :=
    { Command.ofType .delete with kv := some ⟨[0x61], []⟩, rangeEnd := some [0x63], count := true }
  [⟨1, some (put [0x61] [0x31])⟩,
    ⟨2, some { Command.ofType .txn with txn := some txn }⟩,
    ⟨3, some { Command.ofType .sequence with
      sequence := [{ Command.ofType .sequence with sequence := [clear, put [0x62] [0x34]] }] }⟩,
    ⟨4, some (Command.ofType .dummy)⟩]

theorem update_refines_plain_sampleUpdates :
    ∃ p' results results' view', FSM.fresh.update sampleUpdates = .ok (p', results) ∧
      plain.applyEntries sampleUpdates ∅ = .ok (results', view') ∧
      List.Forall₂ (EntryResultRel SameButMore) results results' ∧ ReadsAs p'.db view' :=
  update_refines_plain FSM.fresh ∅ shows_fresh sampleUpdates (by decide) (by decide) (by decide)
    fun s _ k v hv => by rw [FSM.fresh, latest_empty] at hv; cases hv

end Armada.Fsm
