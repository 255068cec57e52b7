import Armada.Fsm.Pages
import Armada.Fsm.Shape

/-! What a command does to the versions. A write bumps the newest version of its key;
a delete bumps it to a tombstone when the key is live; nothing else happens. Given the
branch its transaction takes, a command is therefore, for every user key, a list of
operations on the newest version of that key. -/

namespace Armada.Fsm

open Ordered Keys Pebble Proto Program List

/-! ### Writing a version -/

theorem ver_insert (m : DB) (key : Bytes) (s : UInt64) (value k : Bytes) :
    ver (m.insert (encodeUserKey key s) value) k =
    if key = k then Function.update (ver m k) s (some value) else ver m k := by
  funext t
  rw [ver, OrdMap.getElem?_insert]
  by_cases hk : key = k
  · by_cases ht : s = t
    · simp [hk, ht]
    · simp [hk, ht, Function.update_of_ne (Ne.symm ht), ver]
  · simp [hk, ver]

theorem ver_insert_system (m : DB) {p : Bytes} (hp : p ∈ systemKeys) (value k : Bytes) :
    ver (m.insert p value) k = ver m k := by
  funext t
  have hne : p ≠ encodeUserKey k t := fun h => encodeUserKey_notMem_systemKeys k t (h ▸ hp)
  rw [ver, OrdMap.getElem?_insert, if_neg hne, ver]

variable {m m' : DB}

theorem latest_congr (hm : NullFree m) (hm' : NullFree m') {k : Bytes}
    (h : ver m k = ver m' k) : latest m k = latest m' k := by
  rw [latest_eq_iff hm, h]
  exact latest_isLatest hm' k

namespace WellFormed

variable {m : DB} (hm : WellFormed m)
include hm

variable {key p : Bytes}

theorem insert (hkey : Admitted key) (s : UInt64) (value : Bytes) :
    WellFormed (m.insert (encodeUserKey key s) value) := by
  constructor
  · intro p x hp
    rw [OrdMap.getElem?_insert] at hp
    split at hp
    · next heq => exact Or.inl ⟨key, s, hkey.noNull, heq.symm⟩
    · exact hm.nullFree p x hp
  · intro k t x hk
    rw [ver_insert] at hk
    split at hk
    · next heq => exact heq ▸ hkey
    · exact hm.admitted k t x hk

theorem insert_system (hp : p ∈ systemKeys) (value : Bytes) : WellFormed (m.insert p value) := by
  constructor
  · intro q x hq
    rw [OrdMap.getElem?_insert] at hq
    split at hq
    · next heq => exact Or.inr (heq ▸ hp)
    · exact hm.nullFree q x hq
  · intro k t x hk
    rw [ver_insert_system m hp] at hk
    exact hm.admitted k t x hk

theorem latest_insert (hkey : Admitted key) (s : UInt64) (value k : Bytes) :
    latest (m.insert (encodeUserKey key s) value) k = if key = k then bump (latest m k) s value else latest m k := by
  rw [latest_eq_iff (hm.insert hkey s value).nullFree, ver_insert]
  split
  · exact (latest_isLatest hm.nullFree k).update s value
  · exact latest_isLatest hm.nullFree k

theorem latest_insert_system (hp : p ∈ systemKeys) (value k : Bytes) : latest (m.insert p value) k = latest m k :=
  latest_congr (hm.insert_system hp value).nullFree hm.nullFree (ver_insert_system m hp value k)

variable {m' : DB}

theorem of_sameTable (h : SameTable m' m) : WellFormed m' := by
  constructor
  · intro p x hp
    by_cases hsys : p ∈ systemKeys
    · exact Or.inr hsys
    · simp only [systemKeys, mem_cons, not_mem_nil, or_false, not_or] at hsys
      rw [h p hsys.1 hsys.2.1] at hp
      exact hm.nullFree p x hp
  · intro k s x hx
    rw [ver, h.sameUser _ (header_encodeUserKey k s)] at hx
    exact hm.admitted k s x hx

theorem latest_sameTable (h : SameTable m' m) (k : Bytes) : latest m' k = latest m k := by
  apply latest_congr (hm.of_sameTable h).nullFree hm.nullFree
  funext t
  exact h.sameUser _ (header_encodeUserKey k t)

theorem stampIndexes (updates : List Entry) : WellFormed (stampIndexes m updates) :=
  hm.of_sameTable (sameTable_stampIndexes m updates)

theorem latest_stampIndexes (updates : List Entry) (k : Bytes) : latest (Fsm.stampIndexes m updates) k = latest m k :=
  hm.latest_sameTable (sameTable_stampIndexes m updates) k

end WellFormed

theorem wellFormed_empty : WellFormed ∅ :=
  ⟨fun p x h => by simp at h, fun k s x h => by simp [ver] at h⟩

theorem latest_empty (k : Bytes) : latest ∅ k = none :=
  (latest_eq_iff wellFormed_empty.nullFree).mpr fun s => by simp [ver]

/-! ### Requests as the API admits them -/

/-- A key, or the bounds of a range. -/
def IsTarget (key : Bytes) : Option Bytes → Prop
  | none => Admitted key
  | some rangeEnd => IsBound key ∧ IsBound rangeEnd

instance (key : Bytes) (rangeEnd : Option Bytes) : Decidable (IsTarget key rangeEnd) :=
  match rangeEnd with
  | none => inferInstanceAs (Decidable (Admitted key))
  | some _ => inferInstanceAs (Decidable (_ ∧ _))

def admitted : Shape where
  put op := Admitted op.key
  delete del := IsTarget del.key del.rangeEnd
  compare cmp := IsTarget cmp.key cmp.rangeEnd
  range op := IsTarget op.key op.rangeEnd

instance (cmd : Command) : Decidable (admitted.leaf cmd) :=
  have : DecidablePred admitted.put := fun op => inferInstanceAs (Decidable (Admitted op.key))
  have : DecidablePred admitted.delete := fun del => inferInstanceAs (Decidable (IsTarget del.key del.rangeEnd))
  have : DecidablePred admitted.compare := fun cmp => inferInstanceAs (Decidable (IsTarget cmp.key cmp.rangeEnd))
  have : DecidablePred admitted.range := fun op => inferInstanceAs (Decidable (IsTarget op.key op.rangeEnd))
  inferInstance

/-! ### Operations on one user key -/

inductive KeyOp where
  | put (value : Bytes)
  | delete
  deriving DecidableEq

/-- The newest version of a key after an operation at `s`. -/
def keyStep (s : UInt64) (o : Option (UInt64 × Bytes)) : KeyOp → Option (UInt64 × Bytes)
  | .put value => bump o s value
  | .delete => if (live o).isSome then bump o s tombstoneValue else o

def putOps (op : PutOp) (k : Bytes) : List KeyOp := if op.key = k then [.put op.value] else []

/-- The user keys a key or a range stands for. -/
def Covers (key : Bytes) (rangeEnd : Option Bytes) (k : Bytes) : Prop :=
  match rangeEnd with
  | none => key = k
  | some high => InRange key high k

instance (key : Bytes) (rangeEnd : Option Bytes) (k : Bytes) : Decidable (Covers key rangeEnd k) :=
  match rangeEnd with
  | none => inferInstanceAs (Decidable (key = k))
  | some high => inferInstanceAs (Decidable (InRange key high k))

def deleteOps (del : DeleteRangeOp) (k : Bytes) : List KeyOp :=
  if Covers del.key del.rangeEnd k then [.delete] else []

def requestOps (op : RequestOp) (k : Bytes) : List KeyOp :=
  match op with
  | .put op => putOps op k
  | .deleteRange del => deleteOps del k
  | .range _ | .unset => []

/-- The operations of a command, when its transaction takes the branch `ok`. -/
def commandOps (ok : Bool) (cmd : Command) (k : Bytes) : List KeyOp :=
  match cmd.type with
  | .put => cmd.kv.toList.flatMap fun kv => putOps ⟨kv.key, kv.value, cmd.prevKvs⟩ k
  | .delete => cmd.kv.toList.flatMap fun kv => deleteOps ⟨kv.key, cmd.rangeEnd, cmd.prevKvs, cmd.count⟩ k
  | .putBatch => cmd.batch.flatMap fun kv => putOps ⟨kv.key, kv.value, false⟩ k
  | .deleteBatch => cmd.batch.flatMap fun kv => deleteOps ⟨kv.key, none, false, false⟩ k
  | .txn => cmd.txn.toList.flatMap fun t => (if ok then t.success else t.failure).flatMap fun op =>
    requestOps op k
  | .dummy | .gc | .sequence | .unrecognized => []

/-- The branch the transaction of a command takes. -/
def branch (m : DB) (cmd : Command) : Bool := cmd.txn.all fun t => physical.compare m t.compare

/-- The step took the newest version of every key through its operations. -/
structure Effect (s : UInt64) (ops : Bytes → List KeyOp) (m m' : DB) : Prop where
  wellFormed : WellFormed m'
  latest : ∀ k, latest m' k = (ops k).foldl (keyStep s) (latest m k)

theorem Effect.refl (hm : WellFormed m) (s : UInt64) : Effect s (fun _ => []) m m :=
  ⟨hm, fun _ => rfl⟩

variable {ops ops' : Bytes → List KeyOp} {s : UInt64}

theorem Effect.congr (h : Effect s ops m m') (heq : ∀ k, ops k = ops' k) : Effect s ops' m m' := by
  obtain rfl : ops = ops' := funext heq
  exact h

theorem Effect.trans {m'' : DB}
    (h : Effect s ops m m') (h' : Effect s ops' m' m'') : Effect s (fun k => ops k ++ ops' k) m m'' :=
  ⟨h'.wellFormed, fun k => by rw [foldl_append, ← h.latest k, h'.latest k]⟩

theorem runAll_effect {α β : Type} {f : α → DB → Except FsmError (β × DB)} (ops : α → Bytes → List KeyOp) {as : List α}
    (hstep : ∀ a ∈ as, ∀ m r, WellFormed m → f a m = .ok r → Effect s (ops a) m r.2)
    {rs : List β × DB} (hm : WellFormed m) (hrun : runAll f as m = .ok rs) :
    Effect s (fun k => as.flatMap fun a => ops a k) m rs.2 := by
  induction as generalizing m rs with
  | nil => cases hrun; exact .refl hm s
  | cons a as ih =>
    rw [forall_mem_cons] at hstep
    obtain ⟨r, hr, tail, htail, rfl⟩ := runAll_cons_iff.mp hrun
    have hhead := hstep.1 m r hm hr
    have hrest := hhead.trans (ih hstep.2 hhead.wellFormed htail)
    simpa only [flatMap_cons] using hrest

/-! ### The operations of the handlers -/

theorem bump_bump (o : Option (UInt64 × Bytes)) (s : UInt64) (v w : Bytes) : bump (bump o s v) s w = bump o s w := by
  rcases o with _ | ⟨t, x⟩
  · exact bump_of_le le_rfl _ _
  · rcases le_or_gt t s with h | h
    · rw [bump_of_le h, bump_of_le le_rfl, bump_of_le h]
    · rw [bump_of_lt h, bump_of_lt h]

section
variable {m : DB} (hm : WellFormed m)
include hm

theorem admitted_of_live {k : Bytes} (h : (live (latest m k)).isSome) : Admitted k := by
  cases hl : latest m k with
  | none => simp [hl, live] at h
  | some v => exact hm.admitted k v.1 v.2 ((latest_eq_iff hm.nullFree).mp hl).1

variable {keys : List Bytes} {del : DeleteRangeOp} {found : List KeyValue} {s : UInt64}

theorem removeAll_wellFormed (hkeys : ∀ k ∈ keys, Admitted k) (s : UInt64) :
    WellFormed (physical.removeAll s keys m) := by
  induction keys generalizing m with
  | nil => exact hm
  | cons key keys ih =>
    rw [forall_mem_cons] at hkeys
    exact ih (hm.insert hkeys.1 s tombstoneValue) hkeys.2

theorem latest_removeAll (hkeys : ∀ k ∈ keys, Admitted k) (s : UInt64) (k : Bytes) :
    latest (physical.removeAll s keys m) k = if k ∈ keys then bump (latest m k) s tombstoneValue else latest m k := by
  induction keys generalizing m with
  | nil => simp [Store.removeAll]
  | cons key keys ih =>
    rw [forall_mem_cons] at hkeys
    have hrest := ih (hm.insert hkeys.1 s tombstoneValue) hkeys.2
    rw [hm.latest_insert hkeys.1] at hrest
    rw [Store.removeAll, foldl_cons]
    refine hrest.trans ?_
    by_cases hk : key = k
    · simp [hk, bump_bump]
    · simp [hk, Ne.symm hk]

section
variable (hdel : IsTarget del.key del.rangeEnd)
include hdel

theorem targets_eq : ∃ live', physical.targets del m = .ok live' ∧
    ∀ kv, kv ∈ live' ↔ Covers del.key del.rangeEnd kv.key ∧ live (latest m kv.key) = some kv.value := by
  obtain ⟨key, rangeEnd, prevKv, count⟩ := del
  cases rangeEnd with
  | some high => exact ⟨_, scan_eq hm hdel.1 hdel.2, fun kv => mem_liveScan hm kv⟩
  | none =>
    refine ⟨_, rfl, fun kv => ?_⟩
    rw [point_eq hm hdel, Option.mem_toList, Option.map_eq_some_iff]
    constructor
    · rintro ⟨value, hvalue, rfl⟩
      exact ⟨rfl, hvalue⟩
    · rintro ⟨hkey, hvalue⟩
      obtain rfl : key = kv.key := hkey
      exact ⟨kv.value, hvalue, rfl⟩

theorem mem_targets (h : physical.targets del m = .ok found) (k : Bytes) :
    k ∈ found.map KeyValue.key ↔ Covers del.key del.rangeEnd k ∧ (live (latest m k)).isSome := by
  obtain ⟨found', hfound', hmem⟩ := targets_eq hm hdel
  obtain rfl : found' = found := Except.ok.inj (hfound'.symm.trans h)
  rw [mem_map]
  constructor
  · rintro ⟨kv, hkv, rfl⟩
    rw [hmem] at hkv
    exact ⟨hkv.1, by simp [hkv.2]⟩
  · rintro ⟨hcov, hlive⟩
    obtain ⟨value, hvalue⟩ := Option.isSome_iff_exists.mp hlive
    exact ⟨⟨k, value⟩, (hmem _).mpr ⟨hcov, hvalue⟩, rfl⟩

theorem live_of_targets (h : physical.targets del m = .ok found) :
    ∀ k ∈ found.map KeyValue.key, Admitted k ∧ (live (latest m k)).isSome := by
  intro k hk
  have hlive := ((mem_targets hm hdel h k).mp hk).2
  exact ⟨admitted_of_live hm hlive, hlive⟩

end

theorem put_effect {op : PutOp} (hop : Admitted op.key) {r : PutResponse × DB}
    (h : physical.put s op m = .ok r) : Effect s (putOps op) m r.2 := by
  cases h
  refine ⟨hm.insert hop s op.value, fun k => (hm.latest_insert hop s op.value k).trans ?_⟩
  by_cases hk : op.key = k
  · simp [putOps, hk, keyStep]
  · simp [putOps, hk]

theorem delete_effect (hdel : IsTarget del.key del.rangeEnd)
    {r : DeleteRangeResponse × DB} (h : physical.delete s del m = .ok r) : Effect s (deleteOps del) m r.2 := by
  obtain ⟨found, htargets, -⟩ := targets_eq hm hdel
  rw [Store.delete, htargets] at h
  cases h
  have hmem := mem_targets hm hdel htargets
  have hkeys := fun k hk => (live_of_targets hm hdel htargets k hk).1
  refine ⟨removeAll_wellFormed hm hkeys s, fun k => (latest_removeAll hm hkeys s k).trans ?_⟩
  by_cases hcov : Covers del.key del.rangeEnd k
  · rw [deleteOps, if_pos hcov, foldl_cons, foldl_nil, keyStep]
    exact if_congr ((hmem k).trans (and_iff_right hcov)) rfl rfl
  · rw [deleteOps, if_neg hcov, foldl_nil, if_neg fun hk => hcov ((hmem k).mp hk).1]

theorem txnOp_effect {op : RequestOp} (hop : admitted.txnOp op)
    {r : List ResponseOp × DB} (h : physical.txnOp s op m = .ok r) : Effect s (requestOps op) m r.2 := by
  cases op with
  | range op =>
    obtain ⟨_, _, rfl⟩ := map_eq_ok_iff.mp h
    exact .refl hm s
  | put op =>
    obtain ⟨r', hr', rfl⟩ := map_eq_ok_iff.mp h
    exact put_effect hm hop hr'
  | deleteRange op =>
    obtain ⟨r', hr', rfl⟩ := map_eq_ok_iff.mp h
    exact delete_effect hm hop hr'
  | unset =>
    cases h
    exact .refl hm s

/-- A command that is no sequence takes the newest version of every key through its
operations. -/
theorem handle_effect {cmd : Command} (hs : cmd.type ≠ .sequence) (hcmd : admitted.leaf cmd)
    {r : (UpdateResult × CommandResult) × DB} (h : physical.handle s cmd m = .ok r) :
    Effect s (commandOps (branch m cmd) cmd) m r.2 := by
  obtain ⟨_, type, kv, _, batch, txn⟩ := cmd
  unfold Store.handle at h
  cases type with
  | put =>
    cases kv with
    | none => cases h
    | some kv =>
      obtain ⟨r', hr', rfl⟩ := map_eq_ok_iff.mp h
      exact (put_effect hm (hcmd kv rfl) hr').congr fun k => (flatMap_singleton _ _).symm
  | delete =>
    cases kv with
    | none => cases h
    | some kv =>
      obtain ⟨r', hr', rfl⟩ := map_eq_ok_iff.mp h
      exact (delete_effect hm (hcmd kv rfl) hr').congr fun k => (flatMap_singleton _ _).symm
  | putBatch =>
    obtain ⟨rs, hrs, rfl⟩ := map_eq_ok_iff.mp h
    have heffect := runAll_effect putOps (fun op hop m r hm hr => by
      obtain ⟨kv, hkv, rfl⟩ := mem_map.mp hop
      exact put_effect hm (hcmd kv hkv) hr) hm hrs
    exact heffect.congr fun k => flatMap_map ..
  | deleteBatch =>
    obtain ⟨rs, hrs, rfl⟩ := map_eq_ok_iff.mp h
    have heffect := runAll_effect deleteOps (fun del hdel m r hm hr => by
      obtain ⟨kv, hkv, rfl⟩ := mem_map.mp hdel
      exact delete_effect hm (show IsTarget kv.key none from hcmd kv hkv) hr) hm hrs
    exact heffect.congr fun k => flatMap_map ..
  | txn =>
    cases txn with
    | none => cases h
    | some t =>
      simp only [Store.commandTxn, Store.txn, bind_eq_ok_iff, pure_eq_ok_iff] at h
      obtain ⟨_, ⟨rs, hrs, rfl⟩, rfl⟩ := h
      have heffect := runAll_effect requestOps (fun op hop m r hm hr =>
        txnOp_effect hm ((hcmd t rfl).2 _ op hop) hr) hm hrs
      exact heffect.congr fun k => (flatMap_singleton _ _).symm
  | dummy => cases h; exact .refl hm s
  | gc =>
    cases h
    exact ⟨hm.insert_system (by simp [systemKeys]) _, fun k =>
      hm.latest_insert_system (by simp [systemKeys]) _ k⟩
  | unrecognized => cases h
  | sequence => exact absurd rfl hs

end

end Armada.Fsm
