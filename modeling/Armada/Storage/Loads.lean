import Armada.Storage.Manager

/-! Loads of a snapshot. What a stream proposes applies its changes one by one and ends with the
marker, which alone moves the leader index. A load that was cut short can therefore be started
again from the beginning, any number of times. -/

namespace Armada.Storage

open Ordered Keys Pebble Proto Program Fsm List

variable {dummies : List Command} {batches : List (List Command)} {p : FSM} {load : List (List Entry)}

variable {cmds : List Command} {tableName : Bytes}

/-- Entries that hold changes in sequences, and dummies after them, hold these changes
one by one. -/
theorem snapshot_leaves {entries : List Entry}
    (hcmd : entries.map Entry.cmd = (batches.map (snapshotBatch tableName) ++ dummies).map some)
    (hbatches : batches.flatten = cmds) (hcmds : ∀ cmd ∈ cmds, IsChange cmd ∧ cmd.leaderIndex ≠ none)
    (hdummies : ∀ c ∈ dummies, c.type = .dummy) :
    (entries.flatMap Entry.leaves).filter (fun a => a.2.type ≠ .dummy) = cmds.map ownLeaf := by
  rw [map_append] at hcmd
  obtain ⟨es, fs, rfl, hes, hfs⟩ := map_eq_append_iff.mp hcmd
  have hcontents : (batches.map (snapshotBatch tableName)).flatMap Command.sequence = cmds := by
    rw [flatMap_map, ← hbatches, ← flatMap_id]
    rfl
  have hdata : es.flatMap Entry.leaves = cmds.map ownLeaf := by
    rw [sequences_leaves hes, hcontents, map_eq_flatMap]
    · exact flatMap_congr fun cmd hc => leaves_eq_ownLeaf (hcmds cmd hc).1.type
    · intro p hp
      obtain ⟨batch, -, rfl⟩ := mem_map.mp hp
      rfl
    · rw [hcontents]
      exact fun cmd hc => (hcmds cmd hc).2
  have hkept : ∀ a ∈ cmds.map ownLeaf, decide (a.2.type ≠ .dummy) = true := by
    intro a ha
    obtain ⟨cmd, hc, rfl⟩ := mem_map.mp ha
    rcases (hcmds cmd hc).1.ownLeaf.type with h | h <;> simp [h]
  have hdropped : ∀ a ∈ fs.flatMap Entry.leaves, ¬ decide (a.2.type ≠ .dummy) = true := by
    intro a ha
    obtain ⟨e, he, ha⟩ := mem_flatMap.mp ha
    have hmem : e.cmd ∈ dummies.map some := hfs ▸ mem_map_of_mem he
    obtain ⟨c, hc, hec⟩ := mem_map.mp hmem
    rw [Entry.leaves, ← hec] at ha
    dsimp only at ha
    rw [leaves_of_ne (by rw [hdummies c hc]; simp), mem_singleton] at ha
    simp [ha, hdummies c hc]
  rw [flatMap_append, filter_append, hdata, filter_eq_self.mpr hkept, filter_eq_nil_iff.mpr hdropped, append_nil]

/-- The data commands of a stream that the loader accepts, on keys as the API admits
them. -/
structure IsStream (tableName : Bytes) (tip : UInt64) (cmds : List Command) : Prop where
  record : ∀ cmd ∈ cmds, IsRecord tableName tip cmd
  change : ∀ cmd ∈ cmds, IsChange cmd

variable {tip : UInt64}

theorem IsStream.numbered (h : IsStream tableName tip cmds) : ∀ cmd ∈ cmds, IsChange cmd ∧ cmd.leaderIndex ≠ none := by
  intro cmd hc
  obtain ⟨leaderIndex, hindex, -⟩ := (h.record cmd hc).leaderIndex
  exact ⟨h.change cmd hc, by simp [hindex]⟩

/-- The commands proposed for the stream with its marker at `tip`. -/
def proposals (sizeVT : Command → ℕ) (tableName : Bytes) (maxBatchSize : ℕ) (requireTerminal : Bool)
    (cmds : List Command) (tip : UInt64) : List Command :=
  (readSnapshotWithTerminal sizeVT tableName maxBatchSize requireTerminal
    ((cmds ++ [terminalMarker tableName tip]).map .command) .start).1

section
variable {tableName : Bytes} {tip : UInt64} {cmds : List Command} (hstream : IsStream tableName tip cmds)
  (sizeVT : Command → ℕ) (maxBatchSize : ℕ) (requireTerminal : Bool)
include hstream

theorem readSnapshot_stream : ∃ batches : List (List Command), batches.flatten = cmds ∧
    readSnapshotWithTerminal sizeVT tableName maxBatchSize requireTerminal
    ((cmds ++ [terminalMarker tableName tip]).map .command) .start =
    (batches.map (snapshotBatch tableName) ++ [terminalMarker tableName tip], none) :=
  readSnapshot_proposes sizeVT tableName maxBatchSize requireTerminal
    (show Loading.start.terminal = none from rfl) UInt64.zero_le hstream.record

theorem proposals_eq : ∃ batches : List (List Command), batches.flatten = cmds ∧
    proposals sizeVT tableName maxBatchSize requireTerminal cmds tip =
    batches.map (snapshotBatch tableName) ++ [terminalMarker tableName tip] := by
  obtain ⟨batches, hflat, hread⟩ := readSnapshot_stream hstream sizeVT maxBatchSize requireTerminal
  exact ⟨batches, hflat, by rw [proposals, hread]⟩

theorem take_dropLast_proposals (n : ℕ) : ∃ batches : List (List Command),
    (proposals sizeVT tableName maxBatchSize requireTerminal cmds tip).dropLast.take n =
    batches.map (snapshotBatch tableName) ∧ ∀ cmd ∈ batches.flatten, cmd ∈ cmds := by
  obtain ⟨batches, hflat, heq⟩ := proposals_eq hstream sizeVT maxBatchSize requireTerminal
  refine ⟨batches.take n, by rw [heq, dropLast_concat, map_take], fun cmd hc => ?_⟩
  rw [← hflat]
  obtain ⟨batch, hbatch, hc⟩ := mem_flatten.mp hc
  exact mem_flatten.mpr ⟨batch, mem_of_mem_take hbatch, hc⟩

end

theorem load_applied (hbatches : ∀ cmd ∈ batches.flatten, IsChange cmd ∧ cmd.leaderIndex ≠ none)
    (hdummies : ∀ c ∈ dummies, c.type = .dummy)
    (hload : load.flatten.map Entry.cmd = (batches.map (snapshotBatch tableName) ++ dummies).map some)
    (hp : WellFormed p.db) :
    ∃ r, runAll updateStep load p = .ok r ∧ Applied (batches.flatten.map ownLeaf) p.db r.2.db := by
  have hleaves := snapshot_leaves hload rfl hbatches hdummies
  apply runBatches_changes _ _ hleaves hp
  · intro a ha
    obtain ⟨cmd, hc, rfl⟩ := mem_map.mp ha
    exact (hbatches cmd hc).1.ownLeaf
  · intro e he hnone
    have hmem := mem_map_of_mem (f := Entry.cmd) he
    rw [hload, hnone] at hmem
    simp at hmem

theorem load_complete (hstream : IsStream tableName tip cmds) (hbatches : ∀ cmd ∈ batches.flatten, cmd ∈ cmds)
    (hload : load.flatten.map Entry.cmd =
    (batches.map (snapshotBatch tableName) ++ [terminalMarker tableName tip]).map some) (hp : WellFormed p.db) :
    ∃ r, runAll updateStep load p = .ok r ∧ Applied (batches.flatten.map ownLeaf) p.db r.2.db ∧
    readLocalIndex r.2.db sysLeaderIndex = tip := by
  obtain ⟨r, hr, happlied⟩ := load_applied (fun cmd hc => hstream.numbered cmd (hbatches cmd hc))
    (fun c hc => by rw [mem_singleton.mp hc]; rfl) hload hp
  rw [map_append] at hload
  obtain ⟨front, last, hflat, -, hlast⟩ := map_eq_append_iff.mp hload
  obtain ⟨e, rest, rfl, he, hnil⟩ := map_eq_cons_iff.mp hlast
  obtain rfl := map_eq_nil_iff.mp hnil
  have hindex : e.leaderIndex = some tip := by
    rw [Entry.leaderIndex, he]
    rfl
  exact ⟨r, hr, happlied, runBatches_leaderIndex_last hflat hindex hr⟩

theorem isStream_snapshotCommands {src : DB} (hsrc : WellFormed src) (tableName : Bytes) {keep : Version → Bool}
    (htip : ∀ v, latest src v.key = some (v.seqno, v.value) → keep v = true → v.seqno ≤ tip) :
    IsStream tableName tip (snapshotCommands tableName keep src) := by
  refine ⟨fun cmd hc => ?_, fun cmd hc => isChange_of_mem_snapshotCommands hsrc hc⟩
  obtain ⟨v, rfl, hv, hkeep⟩ := mem_snapshotCommands hsrc hc
  have hver := ((latest_eq_iff hsrc.nullFree).mp hv).1
  have hchange := isChange_of_mem_snapshotCommands hsrc hc
  refine ⟨?_, hchange.type, ?_, v.seqno, changeCommand_leaderIndex tableName v, htip v hv hkeep⟩
  · unfold changeCommand
    split <;> rfl
  · have hkey := (hsrc.admitted _ _ _ hver).nonempty
    unfold changeCommand
    split <;> exact hkey

theorem seqno_le_of_latest {src : DB} (hsrc : WellFormed src) (hown : ∀ v ∈ versions src, v.seqno ≤ tip)
    (keep : Version → Bool) (v : Version) (hv : latest src v.key = some (v.seqno, v.value)) (_ : keep v = true) :
    v.seqno ≤ tip :=
  hown v ((mem_versions hsrc.nullFree v).mpr ((latest_eq_iff hsrc.nullFree).mp hv).1)

/-! ### Starting again -/

/-- No user key is named by two commands. -/
def NamedOnce (cmds : List Command) : Prop :=
  cmds.Pairwise fun c d => ∀ k, opOn c k = none ∨ opOn d k = none

theorem NamedOnce.eq (h : NamedOnce cmds) {c d : Command} (hc : c ∈ cmds)
    (hd : d ∈ cmds) {k : Bytes} {op op' : KeyOp} (hop : opOn c k = some op) (hop' : opOn d k = some op') : c = d := by
  by_contra hne
  have : Std.Symm fun c d : Command => ∀ k, opOn c k = none ∨ opOn d k = none :=
    ⟨fun c d hcd k => (hcd k).symm⟩
  rcases List.Pairwise.forall h hc hd hne k with hnone | hnone
  · rw [hop] at hnone
    cases hnone
  · rw [hop'] at hnone
    cases hnone

theorem Applied.ver_eq (honce : NamedOnce cmds) {as bs : List Command}
    (has : ∀ c, c ∈ as ↔ c ∈ cmds) (hbs : ∀ c, c ∈ bs ↔ c ∈ cmds) {m m1 m2 : DB}
    (h1 : Applied (as.map ownLeaf) m m1) (h2 : Applied (bs.map ownLeaf) m m2) (k : Bytes) : ver m1 k = ver m2 k := by
  by_cases hnamed : ∃ c ∈ cmds, ∃ op, opOn c k = some op
  · obtain ⟨c, hc, op, hop⟩ := hnamed
    have hunique : ∀ cs : List Command, (∀ d, d ∈ cs ↔ d ∈ cmds) → ∀ b ∈ cs.map ownLeaf, ∀ op',
        opOn b.2 k = some op' → b.1 = (ownLeaf c).1 ∧ op' = op := by
      intro cs hcs b hb op' hop'
      obtain ⟨d, hd, rfl⟩ := mem_map.mp hb
      obtain rfl := honce.eq hc ((hcs d).mp hd) hop hop'
      exact ⟨rfl, Option.some.inj (hop'.symm.trans hop)⟩
    rw [h1.touched k _ (mem_map_of_mem ((has c).mpr hc)) op hop (hunique as has),
      h2.touched k _ (mem_map_of_mem ((hbs c).mpr hc)) op hop (hunique bs hbs)]
  · have hnone : ∀ cs : List Command, (∀ d, d ∈ cs ↔ d ∈ cmds) → ∀ b ∈ cs.map ownLeaf, opOn b.2 k = none := by
      intro cs hcs b hb
      obtain ⟨d, hd, rfl⟩ := mem_map.mp hb
      by_contra hne
      exact hnamed ⟨d, (hcs d).mp hd, Option.ne_none_iff_exists'.mp hne⟩
    rw [h1.untouched k (hnone as has), h2.untouched k (hnone bs hbs)]

/-- The sequences that partial attempts propose, each cut at a batch size of its own and
stopped after a number of sequences. -/
def attempted (sizeVT : Command → ℕ) (tableName : Bytes) (requireTerminal : Bool) (cmds : List Command)
    (tip : UInt64) (attempts : List (ℕ × ℕ)) : List Command :=
  attempts.flatMap fun a => (proposals sizeVT tableName a.1 requireTerminal cmds tip).dropLast.take a.2

theorem attempted_eq (hstream : IsStream tableName tip cmds) (sizeVT : Command → ℕ) (requireTerminal : Bool)
    (attempts : List (ℕ × ℕ)) :
    ∃ batches : List (List Command), attempted sizeVT tableName requireTerminal cmds tip attempts =
    batches.map (snapshotBatch tableName) ∧ ∀ cmd ∈ batches.flatten, cmd ∈ cmds := by
  induction attempts with
  | nil => exact ⟨[], rfl, by simp⟩
  | cons a attempts ih =>
    obtain ⟨rest, hrest, hmem⟩ := ih
    obtain ⟨batches, hbatches, hmem'⟩ := take_dropLast_proposals hstream sizeVT a.1 requireTerminal a.2
    refine ⟨batches ++ rest, ?_, ?_⟩
    · rw [map_append, ← hbatches, ← hrest]
      rfl
    · rw [flatten_append, forall_mem_append]
      exact ⟨hmem', hmem⟩

/-- Any number of partial attempts and then a complete load leave the versions and the
leader index of one complete load, and partial attempts alone leave the leader index as
it was. Each load may cut the stream at a size of its own. -/
theorem load_restartable (sizeVT : Command → ℕ) (tableName : Bytes) (requireTerminal : Bool)
    (cmds : List Command) (tip : UInt64) (hstream : IsStream tableName tip cmds) (honce : NamedOnce cmds)
    (attempts : List (ℕ × ℕ)) (maxBatchSize maxBatchSize' : ℕ) (p : FSM) (hp : WellFormed p.db) :
    (∀ partials : List (List Entry), partials.flatten.map Entry.cmd =
        (attempted sizeVT tableName requireTerminal cmds tip attempts).map some →
      ∃ r, runAll updateStep partials p = .ok r ∧
        readLocalIndex r.2.db sysLeaderIndex = readLocalIndex p.db sysLeaderIndex) ∧
    ∀ restarted once : List (List Entry),
      restarted.flatten.map Entry.cmd = (attempted sizeVT tableName requireTerminal cmds tip attempts ++
        proposals sizeVT tableName maxBatchSize requireTerminal cmds tip).map some →
      once.flatten.map Entry.cmd = (proposals sizeVT tableName maxBatchSize' requireTerminal cmds tip).map some →
      ∃ r r', runAll updateStep restarted p = .ok r ∧ runAll updateStep once p = .ok r' ∧
        (∀ k s, ver r.2.db k s = ver r'.2.db k s) ∧
        readLocalIndex r.2.db sysLeaderIndex = readLocalIndex r'.2.db sysLeaderIndex := by
  obtain ⟨batches, hbatches, hmem⟩ := attempted_eq hstream sizeVT requireTerminal attempts
  constructor
  · intro partials hpartials
    rw [hbatches, ← append_nil (batches.map _)] at hpartials
    obtain ⟨r, hr, -⟩ := load_applied (fun cmd hc => hstream.numbered cmd (hmem cmd hc)) (by simp) hpartials hp
    refine ⟨r, hr, runBatches_leaderIndex_none (fun e he => ?_) hr⟩
    have hcmd := mem_map_of_mem (f := Entry.cmd) he
    rw [hpartials, append_nil, mem_map] at hcmd
    obtain ⟨c, hc, hec⟩ := hcmd
    obtain ⟨batch, -, rfl⟩ := mem_map.mp hc
    rw [Entry.leaderIndex, ← hec]
    rfl
  · intro restarted once hrestarted honce'
    obtain ⟨whole, hwhole, hprop⟩ := proposals_eq hstream sizeVT maxBatchSize requireTerminal
    obtain ⟨whole', hwhole', hprop'⟩ := proposals_eq hstream sizeVT maxBatchSize' requireTerminal
    rw [hbatches, hprop, ← append_assoc, ← map_append] at hrestarted
    rw [hprop'] at honce'
    have hall : ∀ c, c ∈ (batches ++ whole).flatten ↔ c ∈ cmds := by
      intro c
      rw [flatten_append, mem_append, hwhole]
      exact ⟨fun h => h.elim (hmem c) id, Or.inr⟩
    obtain ⟨r, hr, happlied, hindex⟩ := load_complete hstream (fun c hc => (hall c).mp hc) hrestarted hp
    obtain ⟨r', hr', happlied', hindex'⟩ := load_complete hstream (fun c hc => hwhole' ▸ hc) honce' hp
    refine ⟨r, r', hr, hr', fun k s => ?_, hindex.trans hindex'.symm⟩
    rw [Applied.ver_eq honce hall (fun c => by rw [hwhole']) happlied happlied' k]

/-- A key written and a key deleted, and a table in which the deleted key is live. -/
def restartedSource : DB :=
  OrdMap.insertAll ∅ ([⟨[0x61], 3, [0x31]⟩, ⟨[0x62], 4, tombstoneValue⟩].map Version.record)

theorem restartedSource_wellFormed : WellFormed restartedSource :=
  (wellFormed_empty.insert (by decide) 3 [0x31]).insert (by decide) 4 tombstoneValue

def restartedTarget : FSM := ⟨(∅ : DB).insert (encodeUserKey [0x62] 1) [0x32], 0, 1⟩

theorem load_restartable_restartedSource :
    let cmds := snapshotCommands [0x74] (fun _ => true) restartedSource
    let load (proposed : List Command) : List (List Entry) := [proposed.map fun c => ⟨9, some c⟩]
    ∃ r r', runAll updateStep (load (attempted (fun c => c.sequence.length) [0x74] true cmds 4 [(1, 1), (2, 1)] ++
        proposals (fun c => c.sequence.length) [0x74] 1 true cmds 4)) restartedTarget = .ok r ∧
      runAll updateStep (load (proposals (fun c => c.sequence.length) [0x74] 0 true cmds 4)) restartedTarget =
        .ok r' ∧ (∀ k s, ver r.2.db k s = ver r'.2.db k s) ∧
      readLocalIndex r.2.db sysLeaderIndex = readLocalIndex r'.2.db sysLeaderIndex :=
  (load_restartable (fun c => c.sequence.length) [0x74] true _ 4
    (isStream_snapshotCommands restartedSource_wellFormed [0x74]
      (seqno_le_of_latest restartedSource_wellFormed (by decide) _))
    (snapshotCommands_pairwise restartedSource_wellFormed) [(1, 1), (2, 1)] 1 0 restartedTarget
    (wellFormed_empty.insert (by decide) 1 [0x32])).2 _ _
    (by rw [flatten_singleton, map_map]; rfl) (by rw [flatten_singleton, map_map]; rfl)

end Armada.Storage
