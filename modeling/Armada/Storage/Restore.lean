import Armada.Storage.Loads
import Armada.Fsm.PlainMap

/-! Restoring a backup. A restored shard counts its own Raft index from 1, but the commands of
the backup keep the numbers the source gave them. A later write to a restored key is the newest
one exactly when the index of the new shard has come up to that number. -/

namespace Armada.Storage

open Ordered Keys Pebble Proto Program Fsm

/-- What a full snapshot keeps. -/
def isLive (v : Version) : Bool := !isTombstone v.value

theorem streamFull_eq {src : DB} (hsrc : WellFormed src) (tableName : Bytes) :
    streamFull src tableName = .ok ((snapshotCommands tableName isLive src ++
    [terminalMarker tableName (readLocalIndex src sysLocalIndex)]).map .command) := by
  rw [streamFull, commandSnapshot_eq hsrc.nullFree]
  rfl

theorem latest_loaded_empty {src m : DB} (h : Loaded isLive src ∅ m) (k : Bytes) :
    latest m k = (latest src k).filter fun v => !isTombstone v.2 := by
  cases hk : latest src k with
  | none =>
    rw [h.latest_other wellFormed_empty (by simp [hk]), latest_empty]
    rfl
  | some v =>
    obtain ⟨s, x⟩ := v
    cases hx : isTombstone x with
    | true =>
      have hother : ∀ s' x', latest src k = some (s', x') → isLive ⟨k, s', x'⟩ = false := by
        intro s' x' hs
        rw [hk] at hs
        cases hs
        simp [isLive, hx]
      rw [h.latest_other wellFormed_empty hother, latest_empty]
      simp [Option.filter, hx]
    | false =>
      rw [h.latest_kept wellFormed_empty hk (by simp [isLive, hx]), latest_empty]
      simp [changeOp, hx, keyStep, Option.filter]

/-! ### Later writes -/

variable {p : FSM} {i : UInt64} {k : Bytes} {wanted : Option Bytes}

/-- Commands numbered at most `i` leave alone what is newer than `i`, and leave nothing
newer otherwise. -/
theorem later_latest {later : List (List Entry)} (hdec : ∀ e ∈ later.flatten, e.cmd ≠ none)
    (hlater : ∀ a ∈ runLeaves later, admitted.leaf a.2 ∧ a.1 ≤ i) (hp : WellFormed p.db)
    {r : List (List EntryResult) × FSM} (hrun : runAll updateStep later p = .ok r) :
    WellFormed r.2.db ∧ ∀ k, latest r.2.db k = latest p.db k ∨ AtMost i (latest p.db k) ∧
    AtMost i (latest r.2.db k) := by
  refine runBatches_latest (P := fun k o => o = latest p.db k ∨ AtMost i (latest p.db k) ∧ AtMost i o) hdec
    (fun a ha => (hlater a ha).1) ?_ hp (fun k => Or.inl rfl) hrun
  rintro a ha k o ops (rfl | ⟨hmost, hmost'⟩)
  · rcases atMost_or_gt i (latest p.db k) with hmost | ⟨v, hv, hlt⟩
    · exact Or.inr ⟨hmost, atMost_foldl_keyStep (hlater a ha).2 hmost ops⟩
    · rw [hv]
      exact Or.inl (foldl_keyStep_of_lt ((hlater a ha).2.trans_lt hlt) v.2 ops)
  · exact Or.inr ⟨hmost, atMost_foldl_keyStep (hlater a ha).2 hmost' ops⟩

theorem update_change (hp : WellFormed p.db) {cmd : Command} (hcmd : IsChange cmd)
    (hown : cmd.leaderIndex = none) {op : KeyOp} (hop : opOn cmd k = some op) :
    ∃ r, p.update [⟨i, some cmd⟩] = .ok r ∧ WellFormed r.1.db ∧ latest r.1.db k = keyStep i (latest p.db k) op := by
  have hchange : IsChange (ownLeaf cmd).2 := hcmd.ownLeaf
  have hleaves : (runLeaves [[⟨i, some cmd⟩]]).filter (fun a => a.2.type ≠ .dummy) = [(i, (ownLeaf cmd).2)] := by
    have hne : cmd.type ≠ .sequence := by rcases hcmd.type with h | h <;> simp [h]
    have hdata : cmd.type ≠ .dummy := by rcases hcmd.type with h | h <;> simp [h]
    simp [runLeaves, Entry.leaves, hown, leaves_of_ne hne, ownLeaf, hdata]
  obtain ⟨r, hr, happlied⟩ := runBatches_changes (fun a ha => by
    rw [List.mem_singleton.mp ha]
    exact hchange) (by simp) hleaves hp
  simp only [runAll, updateStep, bind_eq_ok_iff, pure_eq_ok_iff] at hr
  obtain ⟨_, ⟨r', hr', rfl⟩, tail, htail, rfl⟩ := hr
  cases htail
  refine ⟨r', hr', happlied.wellFormed, latest_verStep hp.nullFree happlied.wellFormed.nullFree ?_⟩
  apply happlied.touched k (i, (ownLeaf cmd).2) (by simp) op hop
  intro b hb op' hop'
  obtain rfl := List.mem_singleton.mp hb
  exact ⟨rfl, Option.some.inj (hop'.symm.trans hop)⟩

theorem singleLookup_kvs {m : DB} (hm : WellFormed m) (hk : Admitted k) :
    (singleLookup m (getRequest k)).kvs = (live (latest m k)).toList.map fun value => ⟨k, value⟩ := by
  rw [singleLookup_eq]
  change (pointResponse (getRequest k) (physical.point m k)).kvs = _
  rw [point_eq hm hk]
  cases live (latest m k) <;> rfl

/-- The key was restored with a number above `i` and a value other than `wanted`. -/
def Shadowed (src : DB) (k : Bytes) (i : UInt64) (wanted : Option Bytes) : Prop :=
  ∃ s x, latest src k = some (s, x) ∧ isTombstone x = false ∧ i < s ∧ some x ≠ wanted

theorem shadowed_iff {src m : DB} (h : Loaded isLive src ∅ m) :
    Shadowed src k i wanted ↔ ∃ v, latest m k = some v ∧ i < v.1 ∧ live (latest m k) ≠ wanted := by
  have hm := latest_loaded_empty h k
  constructor
  · rintro ⟨s, x, hk, hx, hlt, hne⟩
    have hsome : latest m k = some (s, x) := by simp [hm, hk, Option.filter, hx]
    exact ⟨(s, x), hsome, hlt, by simpa [hsome, live, hx] using hne⟩
  · rintro ⟨⟨s, x⟩, hsome, hlt, hne⟩
    have hk := hm.symm.trans hsome
    rw [Option.filter_eq_some_iff] at hk
    have hx : isTombstone x = false := by simpa using hk.2
    exact ⟨s, x, hk.1, hx, hlt, by simpa [hsome, live, hx] using hne⟩

theorem not_shadowed_iff {src m : DB} (h : Loaded isLive src ∅ m)
    {o : Option (UInt64 × Bytes)} (ho : o = latest m k ∨ AtMost i (latest m k) ∧ AtMost i o) :
    ¬ Shadowed src k i wanted ↔ AtMost i o ∨ live o = wanted := by
  rw [shadowed_iff h]
  rcases ho with rfl | ⟨hmost, hmost'⟩
  · rcases atMost_or_gt i (latest m k) with hmost | ⟨v, hv, hlt⟩
    · refine iff_of_true ?_ (Or.inl hmost)
      rintro ⟨v, hv, hlt, -⟩
      exact absurd (hmost v hv) (not_le.mpr hlt)
    · have hnot : ¬ AtMost i (latest m k) := fun hmost => absurd (hmost v hv) (not_le.mpr hlt)
      simp only [hnot, false_or, not_exists, not_and, not_not]
      exact ⟨fun h => h v hv hlt, fun h w _ _ => h⟩
  · refine iff_of_true ?_ (Or.inl hmost')
    rintro ⟨v, hv, hlt, -⟩
    exact absurd (hmost v hv) (not_le.mpr hlt)

/-- The marker of the backup, which carries the local index, is not behind a record. -/
def Restorable (src : DB) : Prop :=
  ∀ k s x, latest src k = some (s, x) → isTombstone x = false → s ≤ readLocalIndex src sysLocalIndex

theorem isStream_of_restorable {src : DB} (hsrc : WellFormed src) (h : Restorable src) (tableName : Bytes) :
    IsStream tableName (readLocalIndex src sysLocalIndex) (snapshotCommands tableName isLive src) :=
  isStream_snapshotCommands hsrc tableName fun v hv hlive => h v.key v.seqno v.value hv (by simpa [isLive] using hlive)

theorem readSnapshot_restorable_iff {src : DB} (hsrc : WellFormed src) (sizeVT : Command → ℕ) (tableName : Bytes)
    (maxBatchSize : ℕ) (requireTerminal : Bool) :
    (readSnapshotWithTerminal sizeVT tableName maxBatchSize requireTerminal ((snapshotCommands tableName isLive src ++
        [terminalMarker tableName (readLocalIndex src sysLocalIndex)]).map .command) .start).2 = none ↔
        Restorable src := by
  constructor
  · intro hnone k s x hk hx
    by_contra hlt
    have hstream : IsStream tableName 0xFFFFFFFFFFFFFFFF (snapshotCommands tableName isLive src) :=
      isStream_snapshotCommands hsrc tableName fun v _ _ =>
        UInt64.le_iff_toNat_le.mpr (Nat.le_of_lt_succ v.seqno.toNat_lt)
    refine readSnapshot_behind sizeVT tableName maxBatchSize requireTerminal rfl hstream.record
      (Or.inr ⟨changeCommand tableName ⟨k, s, x⟩, ?_, ?_⟩) hnone
    · exact List.mem_map_of_mem
        (List.mem_filter.mpr ⟨(mem_firsts_versions hsrc.nullFree _).mpr hk, by simp [isLive, hx]⟩)
    · rw [changeCommand_leaderIndex]
      exact not_le.mp hlt
  · intro h
    obtain ⟨batches, -, hread⟩ :=
      readSnapshot_stream (isStream_of_restorable hsrc h tableName) sizeVT maxBatchSize requireTerminal
    rw [hread]

/-- A restored backup, and what later writes at `i` show. The restore is refused exactly when a
record is ahead of the local index. Otherwise a write shows exactly when no restored version of
the key is numbered above `i`, unless that one happens to have the value put. -/
theorem restore_lastWrite_iff (src : DB) (hsrc : WellFormed src) (sizeVT : Command → ℕ)
    (tableName : Bytes) (maxBatchSize : ℕ) (requireTerminal : Bool) :
    ∃ stream proposed failure, streamFull src tableName = .ok stream ∧
      readSnapshotWithTerminal sizeVT tableName maxBatchSize requireTerminal stream .start = (proposed, failure) ∧
      (failure = none ↔ Restorable src) ∧ (failure = none →
      ∀ load : List (List Entry), load.flatten.map Entry.cmd = proposed.map some →
        ∃ r, runAll updateStep load FSM.fresh = .ok r ∧
          ∀ (i : UInt64) (later : List (List Entry)), (∀ e ∈ later.flatten, e.cmd ≠ none) →
            (∀ a ∈ runLeaves later, admitted.leaf a.2 ∧ a.1 ≤ i) →
            ∀ r', runAll updateStep later r.2 = .ok r' → ∀ cmd, IsChange cmd → cmd.leaderIndex = none →
            ∀ k, Admitted k → (∀ value, value ≠ tombstoneValue → opOn cmd k = some (.put value) →
                ∃ p, r'.2.update [⟨i, some cmd⟩] = .ok p ∧ ((singleLookup p.1.db (getRequest k)).kvs = [⟨k, value⟩] ↔
                    ¬ Shadowed src k i (some value))) ∧ (opOn cmd k = some .delete →
                ∃ p, r'.2.update [⟨i, some cmd⟩] = .ok p ∧
                  ((singleLookup p.1.db (getRequest k)).kvs = [] ↔ ¬ Shadowed src k i none))) := by
  have hiff := readSnapshot_restorable_iff hsrc sizeVT tableName maxBatchSize requireTerminal
  refine ⟨_, _, _, streamFull_eq hsrc tableName, rfl, hiff, fun hnone load hload => ?_⟩
  have hstream := isStream_of_restorable hsrc (hiff.mp hnone) tableName
  obtain ⟨batches, hflat, hread⟩ := readSnapshot_stream hstream sizeVT maxBatchSize requireTerminal
  rw [hread] at hload
  have hfresh : WellFormed FSM.fresh.db := wellFormed_empty
  obtain ⟨r, hr, happlied, -⟩ := load_complete hstream (fun c hc => hflat ▸ hc) hload hfresh
  rw [hflat] at happlied
  have hloaded := happlied.loaded hsrc
  refine ⟨r, hr, fun i later hdec hlater r' hr' cmd hcmd hnone k hk => ?_⟩
  obtain ⟨hwell, hlatest⟩ := later_latest hdec hlater hloaded.wellFormed hr'
  refine ⟨fun value hvalue hop => ?_, fun hop => ?_⟩
  · obtain ⟨p, hp, hwell', hstep⟩ := update_change hwell hcmd hnone hop
    refine ⟨p, hp, ?_⟩
    rw [singleLookup_kvs hwell' hk, hstep, not_shadowed_iff hloaded (hlatest k), ← live_put_iff hvalue]
    cases live (keyStep i (latest r'.2.db k) (.put value)) <;> simp
  · obtain ⟨p, hp, hwell', hstep⟩ := update_change hwell hcmd hnone hop
    refine ⟨p, hp, ?_⟩
    rw [singleLookup_kvs hwell' hk, hstep, not_shadowed_iff hloaded (hlatest k), ← live_delete_iff]
    cases live (keyStep i (latest r'.2.db k) .delete) <;> simp

/-- A table of ten entries, the last of which wrote its one key. -/
def backupSource : DB :=
  ((∅ : DB).insert (encodeUserKey [0x61] 10) [0x31]).insert sysLocalIndex (littleEndian 10)

theorem backupSource_wellFormed : WellFormed backupSource :=
  (wellFormed_empty.insert (by decide) 10 [0x31]).insert_system (by decide) (littleEndian 10)

theorem backupSource_restorable : Restorable backupSource := fun k s x hk _ =>
  seqno_le_of_latest backupSource_wellFormed (by decide) (fun _ => true) ⟨k, s, x⟩ hk rfl

theorem restore_lastWrite_iff_backupSource : ∃ stream proposed, streamFull backupSource [0x74] = .ok stream ∧
      readSnapshotWithTerminal (fun c => c.sequence.length) [0x74] 1 true stream .start = (proposed, none) ∧
      Restorable backupSource ∧ ∀ load : List (List Entry), load.flatten.map Entry.cmd = proposed.map some →
        ∃ r, runAll updateStep load FSM.fresh = .ok r ∧
          ∀ r', runAll updateStep [[⟨11, some (Command.ofType .dummy)⟩]] r.2 = .ok r' →
            ∃ p, r'.2.update [⟨12, some { Command.ofType .put with kv := some ⟨[0x61], [0x32]⟩ }⟩] = .ok p ∧
              ((singleLookup p.1.db (getRequest [0x61])).kvs = [⟨[0x61], [0x32]⟩] ↔
                ¬ Shadowed backupSource [0x61] 12 (some [0x32])) := by
  obtain ⟨stream, proposed, failure, hstream, hread, haccepted, hrest⟩ := restore_lastWrite_iff backupSource
    backupSource_wellFormed (fun c => c.sequence.length) [0x74] 1 true
  obtain rfl := haccepted.mpr backupSource_restorable
  refine ⟨stream, proposed, hstream, hread, backupSource_restorable, fun load hload => ?_⟩
  obtain ⟨r, hr, hlater⟩ := hrest rfl load hload
  refine ⟨r, hr, fun r' hr' => ?_⟩
  have hput : IsChange { Command.ofType .put with kv := some ⟨[0x61], [0x32]⟩ } :=
    ⟨Or.inl rfl, by decide, fun kv hkv => by rw [← Option.some.inj hkv]; exact (by decide : Admitted [0x61])⟩
  exact (hlater 12 _ (by decide) (by decide) r' hr' _ hput rfl [0x61] (by decide)).1 [0x32] (by decide) (by decide)

set_option maxRecDepth 20000 in
/-- Restored with the number 10, the key does not show a put at index 3 of the new shard. -/
theorem restored_hides_put : ∃ stream proposed r p, streamFull backupSource [0x74] = .ok stream ∧
      readSnapshotWithTerminal (fun c => c.sequence.length) [0x74] 1 true stream .start = (proposed, none) ∧
      FSM.fresh.update (proposed.zipWith (fun c n => ⟨n, some c⟩) [1, 2]) = .ok r ∧
      r.1.update [⟨3, some { Command.ofType .put with kv := some ⟨[0x61], [0x32]⟩ }⟩] = .ok p ∧
      (singleLookup p.1.db (getRequest [0x61])).kvs = [⟨[0x61], [0x31]⟩] :=
  ⟨_, _, _, _, rfl, rfl, rfl, rfl, by decide⟩

end Armada.Storage
