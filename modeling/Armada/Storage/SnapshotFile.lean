import Armada.Storage.Restore

/-! Snapshot files. A file holds every record behind its length in eight bytes; what is
written is read back record by record, so a full snapshot carried through a file and
loaded into an empty table gives every live key its value and its number. -/

namespace Armada.Storage

open Ordered Keys Pebble Proto Program Fsm List

/-- The size of the buffer that a record is read into. -/
def maxSnapshotRecordSize : ℕ := 4 * 1024 * 1024

/-- `snapshotFile.Write`: what a write adds to the file. -/
def writeRecord (p : Bytes) : Bytes :=
  if p = [] then [] else littleEndian (UInt64.ofNat p.length) ++ p

inductive FileRead where
  | eof
  | failed
  | data (p rest : Bytes)

/-- `snapshotFile.Read` into a buffer of the given size, at the rest of a file. A length
beyond the buffer makes the read panic; a file that ends behind a length ends there. -/
def readRecord (capacity : ℕ) (file : Bytes) : FileRead :=
  if file = [] then .eof
  else if file.length < 8 then .failed
  else
    let size := (ofLittleEndian (file.take 8)).toNat
    let rest := file.drop 8
    if capacity < size then .failed
    else if rest.length < size then if rest = [] then .eof else .failed
    else .data (rest.take size) (rest.drop size)

/-- What the loader reads from a file, in at most the given number of reads; nothing is
read after a record that ends the load. -/
def fileRecords (decode : Bytes → Option Command) : ℕ → Bytes → List Record
  | 0, _ => []
  | n + 1, file =>
    match readRecord maxSnapshotRecordSize file with
    | .eof => []
    | .failed => [.failure]
    | .data p rest =>
      if p = [] then [.nothing]
      else match decode p with
        | none => [.garbage]
        | some cmd => .command cmd :: fileRecords decode n rest

/-- `readSnapshot` of a file. -/
def readSnapshot (sizeVT : Command → ℕ) (decode : Bytes → Option Command) (tableName : Bytes)
    (maxBatchSize : ℕ) (file : Bytes) : List Command × Option SnapshotError :=
  readSnapshotWithTerminal sizeVT tableName maxBatchSize true (fileRecords decode file.length file) .start

/-- The file that a list of commands is written to. -/
def fileOf (encode : Command → Bytes) (cmds : List Command) : Bytes :=
  cmds.flatMap fun cmd => writeRecord (encode cmd)

theorem fileOf_cons (encode : Command → Bytes) (cmd : Command) (cmds : List Command) :
    fileOf encode (cmd :: cmds) = writeRecord (encode cmd) ++ fileOf encode cmds := rfl

/-- What is assumed of the encoding of a command: it is lossless and not empty, and it
fits into the buffer. -/
structure Carried (encode : Command → Bytes) (decode : Bytes → Option Command) (cmd : Command) : Prop where
  lossless : decode (encode cmd) = some cmd
  nonempty : encode cmd ≠ []
  fits : (encode cmd).length ≤ maxSnapshotRecordSize

variable {p part : Bytes} {cmds : List Command} {encode : Command → Bytes} {done : List Bytes}

theorem toNat_length (hlen : p.length ≤ maxSnapshotRecordSize) : (UInt64.ofNat p.length).toNat = p.length := by
  simp only [UInt64.toNat_ofNat']
  exact Nat.mod_eq_of_lt (by simp only [maxSnapshotRecordSize] at hlen; omega)

theorem readRecord_writeRecord (hne : p ≠ []) (hlen : p.length ≤ maxSnapshotRecordSize)
    (rest : Bytes) : readRecord maxSnapshotRecordSize (writeRecord p ++ rest) = .data p rest := by
  have hsize := toNat_length hlen
  have hprefix : (littleEndian (UInt64.ofNat p.length)).length = 8 := by simp [littleEndian]
  have htake : (littleEndian (UInt64.ofNat p.length) ++ (p ++ rest)).take 8 = littleEndian (UInt64.ofNat p.length) :=
    take_left' hprefix
  have hdrop : (littleEndian (UInt64.ofNat p.length) ++ (p ++ rest)).drop 8 = p ++ rest :=
    drop_left' hprefix
  rw [writeRecord, if_neg hne, append_assoc, readRecord, htake, hdrop, ofLittleEndian_littleEndian, hsize]
  have hnil : littleEndian (UInt64.ofNat p.length) ++ (p ++ rest) ≠ [] := by simp [hne]
  rw [if_neg hnil, if_neg (by rw [length_append, hprefix]; omega)]
  simp [hlen.not_gt]

theorem fileRecords_fileOf {decode : Bytes → Option Command}
    (h : ∀ cmd ∈ cmds, Carried encode decode cmd) {n : ℕ} (hn : cmds.length ≤ n) :
    fileRecords decode n (fileOf encode cmds) = cmds.map .command := by
  induction cmds generalizing n with
  | nil => cases n <;> rfl
  | cons cmd cmds ih =>
    rw [forall_mem_cons] at h
    obtain ⟨n, rfl⟩ : ∃ k, n = k + 1 := ⟨n - 1, by simp only [length_cons] at hn; omega⟩
    have hread := readRecord_writeRecord h.1.nonempty h.1.fits (fileOf encode cmds)
    rw [fileOf_cons, fileRecords, hread]
    dsimp only
    rw [if_neg h.1.nonempty, h.1.lossless, ih h.2 (by simp only [length_cons] at hn; omega), map_cons]

theorem length_le_fileOf (h : ∀ cmd ∈ cmds, encode cmd ≠ []) : cmds.length ≤ (fileOf encode cmds).length := by
  induction cmds with
  | nil => exact le_rfl
  | cons cmd cmds ih =>
    rw [forall_mem_cons] at h
    have hpos : 0 < (encode cmd).length := length_pos_iff.mpr h.1
    have hrest := ih h.2
    rw [fileOf_cons, length_append, length_cons, writeRecord, if_neg h.1, length_append]
    omega

theorem ver_loaded_empty {src m : DB} (h : Loaded isLive src ∅ m) (k : Bytes) (s : UInt64) (x : Bytes) :
    ver m k s = some x ↔ latest src k = some (s, x) ∧ isTombstone x = false := by
  have hempty : ∀ t, ver ∅ k t = none := fun t => OrdMap.getElem?_empty _
  by_cases hkept : ∃ s' x', latest src k = some (s', x') ∧ isTombstone x' = false
  · obtain ⟨s', x', hk, hx'⟩ := hkept
    rw [h.kept k s' x' hk (by simp [isLive, hx']), hk]
    simp only [changeOp, hx', Bool.false_eq_true, if_false, verStep]
    by_cases hs : s = s'
    · subst hs
      simp only [Function.update_self, Option.some.injEq, Prod.mk.injEq, true_and]
      constructor
      · rintro rfl
        exact ⟨rfl, hx'⟩
      · exact fun hx => hx.1
    · simp [Function.update_of_ne hs, hempty, Ne.symm hs]
  · have hother : ∀ s' x', latest src k = some (s', x') → isLive ⟨k, s', x'⟩ = false := by
      intro s' x' hk
      by_contra hne
      exact hkept ⟨s', x', hk, by simpa [isLive] using hne⟩
    rw [h.other k hother, hempty]
    exact iff_of_false (by simp) fun hk => hkept ⟨s, x, hk⟩

/-- A full snapshot written to a file, read back and loaded into an empty table: every
live key has its value and its number there, nothing else is there, and the leader index
is the index of the snapshot. -/
theorem snapshot_transfer (src : DB) (hsrc : WellFormed src)
    (hown : ∀ v ∈ versions src, v.seqno ≤ readLocalIndex src sysLocalIndex) (tableName : Bytes)
    (encode : Command → Bytes) (decode : Bytes → Option Command)
    (hcodec : ∀ cmds index, commandSnapshot src tableName = .ok (cmds, index) →
      ∀ cmd ∈ cmds ++ [terminalMarker tableName index], Carried encode decode cmd)
    (sizeVT : Command → ℕ) (maxBatchSize : ℕ) :
    ∃ cmds index proposed, commandSnapshot src tableName = .ok (cmds, index) ∧
      readSnapshot sizeVT decode tableName maxBatchSize
        (fileOf encode (cmds ++ [terminalMarker tableName index])) = (proposed, none) ∧
      ∀ load : List (List Entry), load.flatten.map Entry.cmd = proposed.map some →
        ∃ r, runAll updateStep load FSM.fresh = .ok r ∧
          (∀ k s x, ver r.2.db k s = some x ↔ latest src k = some (s, x) ∧ isTombstone x = false) ∧
          readLocalIndex r.2.db sysLeaderIndex = index := by
  have hsnapshot := commandSnapshot_eq hsrc.nullFree tableName
  have hcarried := hcodec _ _ hsnapshot
  have hstream := isStream_snapshotCommands hsrc tableName (seqno_le_of_latest hsrc hown isLive)
  obtain ⟨batches, hflat, hread⟩ := readSnapshot_stream hstream sizeVT maxBatchSize true
  refine ⟨_, _, (batches.map (snapshotBatch tableName) ++
    [terminalMarker tableName (readLocalIndex src sysLocalIndex)]), hsnapshot, ?_, fun load hload => ?_⟩
  · rw [readSnapshot, fileRecords_fileOf hcarried (length_le_fileOf fun cmd hc => (hcarried cmd hc).nonempty)]
    exact hread
  · have hfresh : WellFormed FSM.fresh.db := wellFormed_empty
    obtain ⟨r, hr, happlied, hindex⟩ := load_complete hstream (fun c hc => hflat ▸ hc) hload hfresh
    rw [hflat] at happlied
    exact ⟨r, hr, ver_loaded_empty (happlied.loaded hsrc), hindex⟩

theorem snapshot_transfer_backupSource :
    let put := changeCommand [0x74] ⟨[0x61], 10, [0x31]⟩
    let encode (cmd : Command) : Bytes := if cmd.type = .put then [1] else [2]
    let decode (p : Bytes) : Option Command := some (if p = [1] then put else terminalMarker [0x74] 10)
    ∃ cmds index proposed, commandSnapshot backupSource [0x74] = .ok (cmds, index) ∧
      readSnapshot (fun c => c.sequence.length) decode [0x74] 1
        (fileOf encode (cmds ++ [terminalMarker [0x74] index])) = (proposed, none) ∧
      ∀ load : List (List Entry), load.flatten.map Entry.cmd = proposed.map some →
        ∃ r, runAll updateStep load FSM.fresh = .ok r ∧
          (∀ k s x, ver r.2.db k s = some x ↔ latest backupSource k = some (s, x) ∧ isTombstone x = false) ∧
          readLocalIndex r.2.db sysLeaderIndex = index := by
  refine snapshot_transfer backupSource backupSource_wellFormed (by decide) [0x74] _ _ (fun cmds index h => ?_) _ 1
  have hsnapshot : commandSnapshot backupSource [0x74] =
      .ok ([changeCommand [0x74] ⟨[0x61], 10, [0x31]⟩], 10) := rfl
  obtain ⟨rfl, rfl⟩ := Prod.mk.inj (Except.ok.inj (hsnapshot.symm.trans h))
  simp only [cons_append, nil_append, mem_cons, not_mem_nil, or_false]
  rintro cmd (rfl | rfl)
  · exact ⟨rfl, by decide, by decide⟩
  · exact ⟨rfl, by decide, by decide⟩

/-- A transaction puts the empty key. -/
def putEmptyKey : Command :=
  { Command.ofType .txn with txn := some ⟨[], [.put ⟨[], [0x31], false⟩], []⟩ }

set_option maxRecDepth 20000 in
/-- The empty key is in the snapshot and is refused by the reader. -/
theorem empty_key_refused : ∃ r cmds, FSM.fresh.update [⟨1, some putEmptyKey⟩] = .ok r ∧
    commandSnapshot r.1.db [0x74] = .ok (cmds, 1) ∧
    (∀ v ∈ versions r.1.db, v.seqno ≤ readLocalIndex r.1.db sysLocalIndex) ∧
      ∀ encode decode, (∀ cmd ∈ cmds ++ [terminalMarker [0x74] 1], Carried encode decode cmd) →
        ∀ sizeVT maxBatchSize, readSnapshot sizeVT decode [0x74] maxBatchSize
          (fileOf encode (cmds ++ [terminalMarker [0x74] 1])) = ([], some (.withoutKeyValue .put)) := by
  refine ⟨_, _, rfl, rfl, by decide, fun encode decode hcarried sizeVT maxBatchSize => ?_⟩
  rw [readSnapshot, fileRecords_fileOf hcarried (length_le_fileOf fun cmd hc => (hcarried cmd hc).nonempty)]
  rfl

/-! ### Streams that are cut -/

/-- How the reading of a stream ends: with `io.EOF`, or with another error. -/
inductive FileEnd where
  | eof
  | failed
  deriving DecidableEq

/-- The records that are read until a read fails, in at most the given number of reads. -/
def readRecords : ℕ → Bytes → List Bytes × Option FileEnd
  | 0, _ => ([], none)
  | n + 1, file =>
    match readRecord maxSnapshotRecordSize file with
    | .eof => ([], some .eof)
    | .failed => ([], some .failed)
    | .data p rest =>
      let r := readRecords n rest
      (p :: r.1, r.2)

/-- Every read takes a byte, so one more read than there are bytes is never needed. -/
def readStream (file : Bytes) : List Bytes × Option FileEnd := readRecords (file.length + 1) file

/-- The stream that records are written to. -/
def framed (ps : List Bytes) : Bytes := ps.flatMap writeRecord

/-- The records `done` are whole in the stream, and the next one is cut. -/
def Cut (ps : List Bytes) (file : Bytes) (done : List Bytes) : Prop :=
  ∃ p todo part, ps = done ++ p :: todo ∧ file = framed done ++ part ∧ part <+: writeRecord p ∧ part ≠ writeRecord p

/-- The stream ends right behind the length of a record. -/
def EndsBehindLength (ps : List Bytes) (file : Bytes) : Prop :=
  ∃ done p todo, ps = done ++ p :: todo ∧ file = framed done ++ littleEndian (UInt64.ofNat p.length)

theorem length_littleEndian (x : UInt64) : (littleEndian x).length = 8 := by simp [littleEndian]

theorem prefix_framed {ps : List Bytes} {file : Bytes} (h : file <+: framed ps) :
    (∃ done, done <+: ps ∧ file = framed done) ∨ ∃ done, Cut ps file done := by
  induction ps generalizing file with
  | nil => exact .inl ⟨[], prefix_rfl, prefix_nil.mp h⟩
  | cons p ps ih =>
    rw [framed, flatMap_cons] at h
    rcases prefix_or_prefix_of_prefix h (prefix_append _ _) with hle | ⟨rest, rfl⟩
    · by_cases heq : file = writeRecord p
      · exact .inl ⟨[p], by simp, by simp [framed, heq]⟩
      · exact .inr ⟨[], p, ps, file, rfl, rfl, hle, heq⟩
    · rw [prefix_append_right_inj] at h
      obtain ⟨done, hdone, rfl⟩ | ⟨done, q, todo, part, rfl, rfl, hpart, hne⟩ := ih h
      · exact .inl ⟨p :: done, (prefix_cons_inj p).mpr hdone, rfl⟩
      · exact .inr ⟨p :: done, q, todo, part, rfl, by simp [framed], hpart, hne⟩

section
variable (h : ∀ p ∈ done, p ≠ [] ∧ p.length ≤ maxSnapshotRecordSize)
include h

theorem readRecords_framed (n : ℕ) (part : Bytes) : readRecords (done.length + n) (framed done ++ part) =
    (done ++ (readRecords n part).1, (readRecords n part).2) := by
  induction done with
  | nil => simp [framed]
  | cons p done ih =>
    rw [forall_mem_cons] at h
    rw [length_cons, show done.length + 1 + n = done.length + n + 1 by omega, framed, flatMap_cons,
      append_assoc, readRecords, readRecord_writeRecord h.1.1 h.1.2]
    have hrest := ih h.2
    rw [framed] at hrest
    dsimp only
    rw [hrest, cons_append]

theorem length_le_framed : done.length ≤ (framed done).length := by
  induction done with
  | nil => exact Nat.zero_le _
  | cons p done ih =>
    rw [forall_mem_cons] at h
    have hrest := ih h.2
    rw [framed, flatMap_cons, length_append, length_cons, writeRecord, if_neg h.1.1, length_append, length_littleEndian]
    rw [framed] at hrest
    omega

theorem readStream_framed {e : FileEnd} (hpart : ∀ n, readRecords (n + 1) part = ([], some e)) :
    readStream (framed done ++ part) = (done, some e) := by
  have hlen := length_le_framed h
  obtain ⟨n, hn⟩ : ∃ n, (framed done ++ part).length + 1 = done.length + (n + 1) :=
    ⟨(framed done ++ part).length - done.length, by rw [length_append]; omega⟩
  rw [readStream, hn, readRecords_framed h, hpart, append_nil]

end

theorem readRecord_length {q : Bytes} (hlen : p.length ≤ maxSnapshotRecordSize) (hq : q.length < p.length) :
    readRecord maxSnapshotRecordSize (littleEndian (UInt64.ofNat p.length) ++ q) =
    if q = [] then .eof else .failed := by
  have hL := length_littleEndian (UInt64.ofNat p.length)
  have hnil : littleEndian (UInt64.ofNat p.length) ++ q ≠ [] := by
    intro h
    rw [(append_eq_nil_iff.mp h).1] at hL
    cases hL
  rw [readRecord, if_neg hnil, if_neg (by rw [length_append]; omega), take_left' hL, drop_left' hL,
    ofLittleEndian_littleEndian, toNat_length hlen]
  simp only [if_neg (not_lt.mpr hlen), if_pos hq]

/-- What a read makes of a record that is cut: where nothing but the length is left, it takes
the end of the stream for the end of the records. -/
theorem readRecord_part (hne : p ≠ []) (hlen : p.length ≤ maxSnapshotRecordSize)
    (hpart : part <+: writeRecord p) (hcut : part ≠ writeRecord p) : readRecord maxSnapshotRecordSize part =
    if part = [] ∨ part = littleEndian (UInt64.ofNat p.length) then .eof else .failed := by
  rw [writeRecord, if_neg hne] at hpart hcut
  have hL := length_littleEndian (UInt64.ofNat p.length)
  by_cases hshort : part.length < 8
  · have hother : part ≠ littleEndian (UInt64.ofNat p.length) := by
      rintro rfl
      omega
    rw [readRecord, if_pos hshort]
    simp only [hother, or_false]
  · obtain ⟨q, rfl⟩ : littleEndian (UInt64.ofNat p.length) <+: part :=
      prefix_of_prefix_length_le (prefix_append _ _) hpart (by omega)
    rw [prefix_append_right_inj] at hpart
    have hq : q.length < p.length := by
      refine lt_of_le_of_ne hpart.length_le fun heq => hcut ?_
      rw [hpart.eq_of_length heq]
    rw [readRecord_length hlen hq]
    have hlong : littleEndian (UInt64.ofNat p.length) ++ q ≠ [] := by
      intro h
      rw [h] at hshort
      exact hshort (by decide)
    simp only [hlong, false_or, append_right_eq_self]

/-- What was written is read back record by record and then ends. A stream that is cut
inside a record gives the records before and an error if and only if it does not end right
behind a length. -/
theorem framing_detects_cuts (ps : List Bytes) (hps : ∀ p ∈ ps, p ≠ [] ∧ p.length ≤ maxSnapshotRecordSize) :
    readStream (framed ps) = (ps, some .eof) ∧
      ∀ file, file <+: framed ps → (∀ done, done <+: ps → file ≠ framed done) →
        ((∃ done, Cut ps file done ∧ readStream file = (done, some .failed)) ↔ ¬ EndsBehindLength ps file) := by
  constructor
  · have hread : readStream (framed ps ++ []) = (ps, some .eof) := readStream_framed hps fun n => rfl
    rwa [append_nil] at hread
  · intro file hfile hinside
    obtain ⟨done, hdone, heq⟩ | ⟨done, p, todo, part, rfl, rfl, hpart, hcut⟩ := prefix_framed hfile
    · exact absurd heq (hinside done hdone)
    · have hp := hps p (by simp)
      have hwhole : ∀ q ∈ done, q ≠ [] ∧ q.length ≤ maxSnapshotRecordSize := fun q hq => hps q (by simp [hq])
      have hread := readRecord_part hp.1 hp.2 hpart hcut
      have hne : part ≠ [] := by
        rintro rfl
        exact hinside done (prefix_append _ _) (append_nil _)
      constructor
      · rintro ⟨done', -, hfailed⟩ ⟨done'', q, todo', hps', heq⟩
        have hq := hps q (by simp [hps'])
        -- a stream that ends behind a length reads as if it were whole
        have hlength := readRecord_length hq.2 (q := []) (length_pos_iff.mpr hq.1)
        rw [append_nil, if_pos rfl] at hlength
        have hbefore : ∀ r ∈ done'', r ≠ [] ∧ r.length ≤ maxSnapshotRecordSize := fun r hr =>
          hps r (by simp [hps', hr])
        have heof : readStream (framed done'' ++ littleEndian (UInt64.ofNat q.length)) = (done'', some .eof) :=
          readStream_framed hbefore fun n => by rw [readRecords, hlength]
        rw [heq, heof] at hfailed
        cases (Prod.mk.inj hfailed).2
      · intro hbehind
        have hother : part ≠ littleEndian (UInt64.ofNat p.length) := fun heq =>
          hbehind ⟨done, p, todo, rfl, by rw [heq]⟩
        rw [if_neg (by simp [hne, hother])] at hread
        refine ⟨done, ⟨p, todo, part, rfl, rfl, hpart, hcut⟩, readStream_framed hwhole fun n => ?_⟩
        rw [readRecords, hread]

theorem framing_detects_cuts_pair : readStream (framed [[0x61], [0x62, 0x63]]) = ([[0x61], [0x62, 0x63]], some .eof) ∧
      ((∃ done, Cut [[0x61], [0x62, 0x63]] [1, 0, 0] done ∧ readStream [1, 0, 0] = (done, some .failed)) ↔
        ¬ EndsBehindLength [[0x61], [0x62, 0x63]] [1, 0, 0]) :=
  have hboundary : ∀ done ∈ List.inits [[0x61], [0x62, 0x63]], [1, 0, 0] ≠ framed done := by decide
  have h := framing_detects_cuts [[0x61], [0x62, 0x63]] (by decide)
  ⟨h.1, h.2 [1, 0, 0] (by decide) fun done hdone => hboundary done ((mem_inits _ _).mpr hdone)⟩

/-- A stream of one record that is cut right behind its length reads as an empty stream that
is whole. -/
theorem cut_behind_length_unnoticed : [1, 0, 0, 0, 0, 0, 0, 0] <+: framed [[0x61]] ∧
      (∀ done ∈ List.inits [[0x61]], [1, 0, 0, 0, 0, 0, 0, 0] ≠ framed done) ∧
      readStream [1, 0, 0, 0, 0, 0, 0, 0] = ([], some .eof) := by
  decide

end Armada.Storage
