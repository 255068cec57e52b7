import Armada.Fsm.Snapshots
import Armada.Fsm.KeySteps

/-! Loading changes. A change writes or deletes user keys at a number of its own. Changes of
different keys do not see each other, and a change applied twice is applied once, so a list that
names no key twice leaves the same versions however it is cut, grouped and repeated. -/

namespace Armada.Fsm

open Ordered Keys Pebble Proto Program List

/-- A put of one key, or a delete of a key or a range, as the API admits them. -/
structure IsChange (cmd : Command) : Prop where
  type : cmd.type = .put ∨ cmd.type = .delete
  kv : cmd.kv ≠ none
  admitted : admitted.leaf cmd

/-- What a change does to a key. -/
def opOn (cmd : Command) (k : Bytes) : Option KeyOp := (commandOps true cmd k).head?

/-- The versions of a key after an operation at `s`, when the newest one was `o`. -/
def verStep (s : UInt64) (o : Option (UInt64 × Bytes)) (op : KeyOp) (h : UInt64 → Option Bytes) :
    UInt64 → Option Bytes :=
  match op with
  | .put value => Function.update h s (some value)
  | .delete => if (live o).isSome then Function.update h s (some tombstoneValue) else h

theorem verStep_verStep (s : UInt64) (o : Option (UInt64 × Bytes)) (op : KeyOp) (h : UInt64 → Option Bytes) :
    verStep s (keyStep s o op) op (verStep s o op h) = verStep s o op h := by
  cases op with
  | put value => exact Function.update_idem _ _ _
  | delete =>
    by_cases ho : (live o).isSome
    · simp only [verStep, keyStep, ho, if_true]
      split
      · exact Function.update_idem _ _ _
      · rfl
    · rw [keyStep, if_neg ho, verStep, verStep, if_neg ho]

variable {s : UInt64} {k : Bytes} {changes : List (UInt64 × Command)} {cmd : Command}

variable {m m' : DB}

theorem latest_verStep (hm : NullFree m) (hm' : NullFree m') {op : KeyOp}
    (h : ver m' k = verStep s (latest m k) op (ver m k)) : latest m' k = keyStep s (latest m k) op := by
  have hlatest := latest_isLatest hm k
  rw [latest_eq_iff hm', h]
  cases op with
  | put value => exact hlatest.update s value
  | delete =>
    rw [verStep, keyStep]
    split
    · exact hlatest.update s tombstoneValue
    · exact hlatest

theorem ver_removeAll (s : UInt64) (keys : List Bytes) (m : DB) (k : Bytes) : ver (physical.removeAll s keys m) k =
    if k ∈ keys then Function.update (ver m k) s (some tombstoneValue) else ver m k := by
  induction keys generalizing m with
  | nil => simp [Store.removeAll]
  | cons key keys ih =>
    have hrest := ih (m.insert (encodeUserKey key s) tombstoneValue)
    rw [ver_insert] at hrest
    rw [Store.removeAll, foldl_cons]
    refine hrest.trans ?_
    by_cases hk : key = k
    · simp [hk]
    · simp [hk, Ne.symm hk]

/-! ### One change -/

theorem handleLeaf_change (hm : WellFormed m) {a : UInt64 × Command} (ha : IsChange a.2) :
    ∃ r, physical.handleLeaf a m = .ok r ∧ WellFormed r.2 ∧ ∀ k, ver r.2 k = match opOn a.2 k with
      | none => ver m k
      | some op => verStep a.1 (latest m k) op (ver m k) := by
  obtain ⟨s, table, type, kv, leaderIndex, batch, txn, rangeEnd, prevKvs, sequence, count⟩ := a
  obtain ⟨htype, hkv, hadmitted⟩ := ha
  obtain ⟨kv, rfl⟩ := Option.ne_none_iff_exists'.mp hkv
  unfold Store.handleLeaf Store.handle
  rcases htype with rfl | rfl
  · refine ⟨_, rfl, hm.insert (hadmitted kv rfl) s kv.value, fun k => (ver_insert m _ s _ k).trans ?_⟩
    by_cases hk : kv.key = k
    · simp [opOn, commandOps, putOps, hk, verStep]
    · simp [opOn, commandOps, putOps, hk]
  · have hdel : IsTarget kv.key rangeEnd := hadmitted kv rfl
    obtain ⟨found, hfound⟩ : ∃ found, physical.targets ⟨kv.key, rangeEnd, prevKvs, count⟩ m = .ok found :=
      (targets_eq hm hdel).imp fun _ h => h.1
    have hkeys := fun k hk => (live_of_targets hm hdel hfound k hk).1
    simp only [Store.commandDelete, Store.delete, hfound, ok_bind]
    refine ⟨_, rfl, removeAll_wellFormed hm hkeys s, fun k => (ver_removeAll s _ m k).trans ?_⟩
    have hk := mem_targets hm hdel hfound k
    by_cases hcov : Covers kv.key rangeEnd k
    · simp only [hk, hcov, true_and]
      simp [opOn, commandOps, deleteOps, hcov, verStep]
    · simp [hk, hcov, opOn, commandOps, deleteOps]

/-! ### A list of changes -/

/-- What a list of changes did: a key that it names once, or always in the same way, went
through that operation, and a key it does not name was left alone. -/
structure Applied (changes : List (UInt64 × Command)) (m m' : DB) : Prop where
  wellFormed : WellFormed m'
  untouched : ∀ k, (∀ a ∈ changes, opOn a.2 k = none) → ver m' k = ver m k
  touched : ∀ k, ∀ a ∈ changes, ∀ op, opOn a.2 k = some op →
    (∀ b ∈ changes, ∀ op', opOn b.2 k = some op' → b.1 = a.1 ∧ op' = op) →
    ver m' k = verStep a.1 (latest m k) op (ver m k)

theorem runAll_changes (h : ∀ a ∈ changes, IsChange a.2) (hm : WellFormed m) :
    ∃ rs, runAll physical.handleLeaf changes m = .ok rs ∧ Applied changes m rs.2 := by
  induction changes generalizing m with
  | nil => exact ⟨_, rfl, hm, fun _ _ => rfl, fun _ a ha => nomatch ha⟩
  | cons b changes ih =>
    rw [forall_mem_cons] at h
    obtain ⟨r, hr, hwell, hver⟩ := handleLeaf_change hm h.1
    obtain ⟨rs, hrs, happlied⟩ := ih h.2 hwell
    refine ⟨(r.1 :: rs.1, rs.2), by rw [runAll, hr, ok_bind, hrs]; rfl, happlied.wellFormed, ?_, ?_⟩
    · intro k hk
      rw [forall_mem_cons] at hk
      rw [happlied.untouched k hk.2, hver, hk.1]
    · intro k a ha op hop hunique
      rw [forall_mem_cons] at hunique
      have hfirst : ∀ op', opOn b.2 k = some op' →
          ver r.2 k = verStep a.1 (latest m k) op (ver m k) := by
        intro op' hop'
        obtain ⟨hs, rfl⟩ := hunique.1 op' hop'
        rw [hver, hop', hs]
      by_cases hlater : ∃ c ∈ changes, ∃ op', opOn c.2 k = some op'
      · -- the key is named again: its operation is repeated on what the first step left
        obtain ⟨c, hc, op', hop'⟩ := hlater
        obtain ⟨hs, rfl⟩ := hunique.2 c hc op' hop'
        have hrest := happlied.touched k c hc op' hop' fun d hd op hop => hs ▸ hunique.2 d hd op hop
        rw [hrest, hs]
        cases hb : opOn b.2 k with
        | none =>
          have hsame : ver r.2 k = ver m k := by rw [hver, hb]
          rw [hsame, latest_congr hwell.nullFree hm.nullFree hsame]
        | some op =>
          have hstep := hfirst op hb
          rw [latest_verStep hm.nullFree hwell.nullFree hstep, hstep, verStep_verStep]
      · have hnone : ∀ c ∈ changes, opOn c.2 k = none := by
          intro c hc
          by_contra hne
          exact hlater ⟨c, hc, Option.ne_none_iff_exists'.mp hne⟩
        rw [happlied.untouched k hnone]
        rcases mem_cons.mp ha with rfl | ha
        · exact hfirst op hop
        · rw [hnone a ha] at hop
          cases hop

theorem Applied.of_sameTable {m'' : DB} (h : Applied changes m m') (hsame : SameTable m'' m') :
    Applied changes m m'' := by
  have hver : ∀ k, ver m'' k = ver m' k := by
    intro k
    funext s
    exact hsame.sameUser _ (header_encodeUserKey k s)
  refine ⟨h.wellFormed.of_sameTable hsame, fun k hk => ?_, fun k a ha op hop hunique => ?_⟩
  · rw [hver, h.untouched k hk]
  · rw [hver, h.touched k a ha op hop hunique]

theorem runBatches_changes (hchanges : ∀ a ∈ changes, IsChange a.2)
    {batches : List (List Entry)} (hdec : ∀ e ∈ batches.flatten, e.cmd ≠ none)
    (hleaves : (runLeaves batches).filter (fun a => a.2.type ≠ .dummy) = changes) {p : FSM} (hp : WellFormed p.db) :
    ∃ r, runAll updateStep batches p = .ok r ∧ Applied changes p.db r.2.db := by
  obtain ⟨rs, hrs, happlied⟩ := runAll_changes hchanges hp
  have hagree := (runBatches_agree hdec (.refl p.db)).trans
    (runAll_without_dummies physical (runLeaves batches) p.db)
  rw [hleaves, hrs] at hagree
  obtain ⟨r, hr, b, hsame, hb⟩ := hagree.ok_right
  rw [hb] at hsame
  exact ⟨r, hr, happlied.of_sameTable hsame⟩

/-- A command as it is run at the leader index it carries. -/
def ownLeaf (cmd : Command) : UInt64 × Command :=
  (cmd.leaderIndex.getD 0, { cmd with leaderIndex := none })

theorem IsChange.ownLeaf (h : IsChange cmd) : IsChange (ownLeaf cmd).2 :=
  ⟨h.type, h.kv, h.admitted⟩

theorem opOn_ownLeaf (cmd : Command) (k : Bytes) : opOn (ownLeaf cmd).2 k = opOn cmd k := rfl

theorem leaves_eq_ownLeaf (h : cmd.type = .put ∨ cmd.type = .delete) :
    leaves (cmd.leaderIndex.getD 0) cmd = [ownLeaf cmd] :=
  leaves_of_ne (by rcases h with h | h <;> simp [h]) _

/-! ### The changes of a snapshot -/

/-- The operation of the command emitted for a version. -/
def changeOp (value : Bytes) : KeyOp := if isTombstone value then .delete else .put value

theorem changeCommand_leaderIndex (tableName : Bytes) (v : Version) :
    (changeCommand tableName v).leaderIndex = some v.seqno := by
  unfold changeCommand
  split <;> rfl

theorem isChange_changeCommand {tableName : Bytes} {v : Version} (hkey : Admitted v.key) :
    IsChange (changeCommand tableName v) := by
  unfold changeCommand
  split
  · exact ⟨Or.inr rfl, by simp [writeDeleteCommand], fun kv hkv => Option.some.inj hkv ▸ hkey⟩
  · exact ⟨Or.inl rfl, by simp [writeCommand], fun kv hkv => Option.some.inj hkv ▸ hkey⟩

theorem opOn_changeCommand (tableName : Bytes) (v : Version) (k : Bytes) :
    opOn (changeCommand tableName v) k = if v.key = k then some (changeOp v.value) else none := by
  unfold changeCommand changeOp
  by_cases ht : isTombstone v.value = true <;> by_cases hk : v.key = k <;>
    simp [ht, hk, opOn, commandOps, writeDeleteCommand, writeCommand, Command.ofType, deleteOps, putOps, Covers]

/-- The newest versions of the table `src` that a snapshot keeps, loaded over `m`. -/
structure Loaded (keep : Version → Bool) (src m m' : DB) : Prop where
  wellFormed : WellFormed m'
  kept : ∀ k s x, latest src k = some (s, x) → keep ⟨k, s, x⟩ = true →
    ver m' k = verStep s (latest m k) (changeOp x) (ver m k)
  other : ∀ k, (∀ s x, latest src k = some (s, x) → keep ⟨k, s, x⟩ = false) → ver m' k = ver m k

variable {src : DB} {keep : Version → Bool}

theorem Loaded.latest_kept (hm : WellFormed m) (h : Loaded keep src m m') {x : Bytes} (hk : latest src k = some (s, x))
    (hkeep : keep ⟨k, s, x⟩ = true) : latest m' k = keyStep s (latest m k) (changeOp x) :=
  latest_verStep hm.nullFree h.wellFormed.nullFree (h.kept k s x hk hkeep)

theorem Loaded.latest_other (hm : WellFormed m) (h : Loaded keep src m m')
    (hk : ∀ s x, latest src k = some (s, x) → keep ⟨k, s, x⟩ = false) : latest m' k = latest m k :=
  latest_congr h.wellFormed.nullFree hm.nullFree (h.other k hk)

/-- The commands of a snapshot that keeps some of the newest versions. -/
def snapshotCommands (tableName : Bytes) (keep : Version → Bool) (src : DB) : List Command :=
  ((firsts Version.key (versions src)).filter keep).map (changeCommand tableName)

section
variable {src : DB} (hsrc : WellFormed src) {tableName : Bytes} {keep : Version → Bool}
include hsrc

variable {cmd : Command}

theorem mem_snapshotCommands (h : cmd ∈ snapshotCommands tableName keep src) :
    ∃ v, cmd = changeCommand tableName v ∧ latest src v.key = some (v.seqno, v.value) ∧ keep v = true := by
  obtain ⟨v, hv, rfl⟩ := mem_map.mp h
  rw [mem_filter, mem_firsts_versions hsrc.nullFree] at hv
  exact ⟨v, rfl, hv⟩

theorem isChange_of_mem_snapshotCommands (h : cmd ∈ snapshotCommands tableName keep src) : IsChange cmd := by
  obtain ⟨v, rfl, hv, -⟩ := mem_snapshotCommands hsrc h
  exact isChange_changeCommand (hsrc.admitted _ _ _ ((latest_eq_iff hsrc.nullFree).mp hv).1)

theorem snapshotCommands_pairwise :
    (snapshotCommands tableName keep src).Pairwise fun c d => ∀ k, opOn c k = none ∨ opOn d k = none := by
  have hdistinct := (firsts_ascending Version.key ((versions_sorted hsrc.nullFree).imp fun h => h.key_le)).filter keep
  rw [snapshotCommands, pairwise_map]
  apply hdistinct.imp
  intro v w hlt k
  rw [opOn_changeCommand, opOn_changeCommand]
  by_cases hk : v.key = k
  · right
    rw [if_neg (hk ▸ hlt.ne')]
  · left
    rw [if_neg hk]

theorem Applied.loaded {m m' : DB}
    (h : Applied ((snapshotCommands tableName keep src).map ownLeaf) m m') : Loaded keep src m m' := by
  refine ⟨h.wellFormed, fun k s x hk hkeep => ?_, fun k hk => h.untouched k fun a ha => ?_⟩
  · have hmem : changeCommand tableName ⟨k, s, x⟩ ∈ snapshotCommands tableName keep src :=
      mem_map_of_mem (mem_filter.mpr ⟨(mem_firsts_versions hsrc.nullFree _).mpr hk, hkeep⟩)
    have hop : opOn (ownLeaf (changeCommand tableName ⟨k, s, x⟩)).2 k = some (changeOp x) := by
      rw [opOn_ownLeaf, opOn_changeCommand, if_pos rfl]
    have hfirst : (ownLeaf (changeCommand tableName ⟨k, s, x⟩)).1 = s := by
      rw [ownLeaf, changeCommand_leaderIndex]
      rfl
    have htouched := h.touched k _ (mem_map_of_mem hmem) _ hop fun b hb op' hop' => by
      obtain ⟨cmd, hcmd, rfl⟩ := mem_map.mp hb
      obtain ⟨v, rfl, hv, -⟩ := mem_snapshotCommands hsrc hcmd
      rw [opOn_ownLeaf, opOn_changeCommand] at hop'
      split at hop'
      · next hkey =>
        -- the key has one newest version
        rw [hkey, hk] at hv
        cases hv
        rw [hfirst, ownLeaf, changeCommand_leaderIndex]
        exact ⟨rfl, (Option.some.inj hop').symm⟩
      · cases hop'
    rw [hfirst] at htouched
    exact htouched
  · obtain ⟨cmd, hcmd, rfl⟩ := mem_map.mp ha
    obtain ⟨v, rfl, hv, hkeep⟩ := mem_snapshotCommands hsrc hcmd
    rw [opOn_ownLeaf, opOn_changeCommand, if_neg]
    rintro rfl
    rw [hk _ _ hv] at hkeep
    cases hkeep

end

end Armada.Fsm
