import Armada.Storage.Manager

/-! The calls of the loader to its reader and to `propose`. A read may return data together with
the end of the stream or an error, and a proposal may fail; the loader ends at the first failure
of either. The marker of a whole stream is the only proposal with a leader index. -/

namespace Armada.Storage

open Ordered Keys Pebble Proto Program Fsm List

/-! ### The loop -/

/-- The error of a read. -/
inductive ReadError where
  | eof
  | other

/-- The bytes of a read: none, bytes that are no command, or a command. -/
abbrev Data := Option (Option Command)

/-- What a reader returns: reads without an error, and a last one with an error, which may
come with data too. -/
structure Reads where
  reads : List Data
  lastData : Data
  lastError : ReadError

inductive LoadError where
  | stream (e : SnapshotError)
  | propose

section
variable (sizeVT : Command → ℕ) (tableName : Bytes) (maxBatchSize : ℕ) (accepts : ℕ → Bool)

/-- The loader at the data of a read. It stops with what it proposed so far, the proposal
that failed included; `accepts` tells which proposals do not fail. -/
def takeData (data : Data) (st : Loading) : Except (List Command × LoadError) Loading :=
  match data with
  | none => .ok st
  | some none =>
    .error (st.proposed, .stream (if st.terminal.isSome then .recordAfterTerminal else .unmarshal))
  | some (some cmd) =>
    match readCommand sizeVT tableName maxBatchSize true cmd st with
    | .error e => .error (st.proposed, .stream e)
    | .ok st' =>
      if st.proposed.length < st'.proposed.length ∧ accepts st.proposed.length = false
      then .error (st'.proposed, .propose) else .ok st'

/-- The loader at the error of a read. -/
def takeError (err : ReadError) (st : Loading) : List Command × Option LoadError :=
  match err with
  | .other => (st.proposed, some (.stream .read))
  | .eof =>
    match st.terminal with
    | none => (st.proposed, some (.stream .missingTerminal))
    | some terminal =>
      let st' := st.flush tableName
      if st.proposed.length < st'.proposed.length ∧ accepts st.proposed.length = false
      then (st'.proposed, some .propose)
      else (st'.proposed ++ [terminal], if accepts st'.proposed.length then none else some .propose)

/-- The loop of the loader: the commands it proposed, and the error it returned. -/
def loadLoop : List Data → Data → ReadError → Loading → List Command × Option LoadError
  | [], lastData, err, st =>
    match takeData sizeVT tableName maxBatchSize accepts lastData st with
    | .error e => (e.1, some e.2)
    | .ok st => takeError tableName accepts err st
  | data :: reads, lastData, err, st =>
    match takeData sizeVT tableName maxBatchSize accepts data st with
    | .error e => (e.1, some e.2)
    | .ok st =>
      if data = none then (st.proposed, some (.stream .noProgress))
      else loadLoop reads lastData err st

/-- `readSnapshot`. -/
def load (r : Reads) : List Command × Option LoadError :=
  loadLoop sizeVT tableName maxBatchSize accepts r.reads r.lastData r.lastError .start

end

/-! ### Whole streams -/

/-- The marker of a stream whose records are numbered up to `tip`. -/
structure IsMarker (tableName : Bytes) (tip : UInt64) (cmd : Command) : Prop where
  table : cmd.table = tableName
  type : cmd.type = .dummy
  empty : carriesData cmd = false
  leaderIndex : ∃ leaderIndex, cmd.leaderIndex = some leaderIndex ∧ tip ≤ leaderIndex

/-- The data of a read that is a command. -/
def commandData (cmd : Command) : Data := some (some cmd)

/-- The data of the last read, if there is any. -/
def lastRead (data : Data) : List Data := if data = none then [] else [data]

/-- The data of all reads. -/
def Reads.data (r : Reads) : List Data := r.reads ++ lastRead r.lastData

/-- The stream has the records of the table, each with a key and a number, then a marker
numbered at least as high, and then ends. -/
structure Whole (tableName : Bytes) (r : Reads) (records : List Command) (marker : Command) : Prop where
  data : r.data = (records ++ [marker]).map commandData
  ends : r.lastError = .eof
  valid : ∃ tip, (∀ cmd ∈ records, IsRecord tableName tip cmd) ∧ IsMarker tableName tip marker

/-- The records the loader has taken are in the sequences it proposed and in the one it is
filling. -/
structure Sequenced (tableName : Bytes) (st : Loading) (batches : List (List Command)) (records : List Command) :
    Prop where
  proposed : st.proposed = batches.map (snapshotBatch tableName)
  sequence : batches.flatten ++ st.sequence = records
  valid : ∀ cmd ∈ records, IsRecord tableName st.maxDataLeaderIndex cmd

/-- What the loader knows after it took some commands: they are records, or records and then
the marker. -/
def Taken (tableName : Bytes) (st : Loading) (taken : List Command) : Prop :=
  ∃ batches records, Sequenced tableName st batches records ∧
    match st.terminal with
    | none => taken = records
    | some marker => taken = records ++ [marker] ∧ IsMarker tableName st.maxDataLeaderIndex marker

theorem IsRecord.mono {tableName : Bytes} {tip tip' : UInt64} {cmd : Command} (h : IsRecord tableName tip cmd)
    (hle : tip ≤ tip') : IsRecord tableName tip' cmd := by
  obtain ⟨leaderIndex, hindex, hbelow⟩ := h.leaderIndex
  exact ⟨h.table, h.type, h.key, leaderIndex, hindex, hbelow.trans hle⟩

theorem taken_start (tableName : Bytes) : Taken tableName .start [] := ⟨[], [], ⟨rfl, rfl, by simp⟩, rfl⟩

section
variable {sizeVT : Command → ℕ} {tableName : Bytes} {maxBatchSize : ℕ} {accepts : ℕ → Bool} {st st' : Loading}
  {cmd : Command} {taken : List Command}

theorem recordStep_ok (hterminal : st.terminal = none) (htable : cmd.table = tableName)
    (htype : cmd.type = .put ∨ cmd.type = .delete) (h : recordStep sizeVT tableName maxBatchSize true cmd st =
    .ok st') : IsRecord tableName st'.maxDataLeaderIndex cmd ∧ st.maxDataLeaderIndex ≤ st'.maxDataLeaderIndex ∧
    st'.terminal = none ∧ (st'.proposed = st.proposed ∧ st'.sequence = st.sequence ++ [cmd] ∨
    st'.proposed = st.proposed ++ [snapshotBatch tableName (st.sequence ++ [cmd])] ∧ st'.sequence = []) := by
  unfold recordStep at h
  by_cases hkey : (cmd.kv.map KeyValue.key).getD [] = []
  · rw [if_pos hkey] at h
    cases h
  cases hindex : cmd.leaderIndex with
  | none =>
    rw [if_neg hkey, if_pos ⟨hindex, rfl⟩] at h
    cases h
  | some leaderIndex =>
    rw [if_neg hkey, if_neg (by simp [hindex]), hindex, Option.getD_some] at h
    have hrecord : IsRecord tableName (max st.maxDataLeaderIndex leaderIndex) cmd :=
      ⟨htable, htype, hkey, leaderIndex, hindex, le_max_right _ _⟩
    dsimp only at h
    split_ifs at h
    · rw [Loading.flush, if_neg (by simp)] at h
      cases h
      exact ⟨hrecord, le_max_left _ _, hterminal, .inr ⟨rfl, rfl⟩⟩
    · cases h
      exact ⟨hrecord, le_max_left _ _, hterminal, .inl ⟨rfl, rfl⟩⟩

/-- What the loader accepts: the marker, or a record, with which it may propose the sequence. -/
theorem readCommand_ok (h : readCommand sizeVT tableName maxBatchSize true cmd st = .ok st') : st.terminal = none ∧
    (IsMarker tableName st.maxDataLeaderIndex cmd ∧ st' = { st with terminal := some cmd } ∨
        IsRecord tableName st'.maxDataLeaderIndex cmd ∧ st.maxDataLeaderIndex ≤ st'.maxDataLeaderIndex ∧
          st'.terminal = none ∧ (st'.proposed = st.proposed ∧ st'.sequence = st.sequence ++ [cmd] ∨
            st'.proposed = st.proposed ++ [snapshotBatch tableName (st.sequence ++ [cmd])] ∧ st'.sequence = [])) := by
  unfold Storage.readCommand at h
  by_cases hterminal : st.terminal.isSome = true
  · rw [if_pos hterminal] at h
    cases h
  by_cases htable : cmd.table = tableName
  · rw [if_neg hterminal, if_neg (not_not.mpr htable)] at h
    rw [Bool.not_eq_true, Option.isSome_eq_false_iff, Option.isNone_iff_eq_none] at hterminal
    refine ⟨hterminal, ?_⟩
    cases htype : cmd.type with
    | put => exact .inr (recordStep_ok hterminal htable (.inl htype) (by simpa only [htype] using h))
    | delete => exact .inr (recordStep_ok hterminal htable (.inr htype) (by simpa only [htype] using h))
    | dummy =>
      simp only [htype] at h
      cases hindex : cmd.leaderIndex with
      | none =>
        rw [hindex] at h
        cases h
      | some leaderIndex =>
        simp only [hindex] at h
        split_ifs at h with hdata hbehind
        cases h
        exact .inl ⟨⟨htable, htype, by simpa using hdata, leaderIndex, hindex, not_lt.mp hbehind⟩, rfl⟩
    | _ =>
      simp only [htype] at h
      cases h
  · rw [if_neg hterminal, if_pos htable] at h
    cases h

theorem Taken.readCommand (h : Taken tableName st taken)
    (hread : readCommand sizeVT tableName maxBatchSize true cmd st = .ok st') :
    Taken tableName st' (taken ++ [cmd]) := by
  obtain ⟨batches, records, hseq, htaken⟩ := h
  obtain ⟨hterminal, ⟨hmarker, rfl⟩ | ⟨hrecord, hle, hterminal', hstep⟩⟩ := readCommand_ok hread
  · rw [hterminal] at htaken
    obtain rfl : taken = records := htaken
    exact ⟨batches, taken, ⟨hseq.proposed, hseq.sequence, hseq.valid⟩, rfl, hmarker⟩
  · rw [hterminal] at htaken
    obtain rfl : taken = records := htaken
    have hvalid : ∀ c ∈ taken ++ [cmd], IsRecord tableName st'.maxDataLeaderIndex c := by
      intro c hc
      rcases mem_append.mp hc with hc | hc
      · exact (hseq.valid c hc).mono hle
      · rw [mem_singleton.mp hc]
        exact hrecord
    have hsequence := hseq.sequence
    rcases hstep with ⟨hp, hs⟩ | ⟨hp, hs⟩
    · refine ⟨batches, taken ++ [cmd], ⟨hp.trans hseq.proposed, ?_, hvalid⟩, by rw [hterminal']⟩
      rw [hs, ← append_assoc, hsequence]
    · refine ⟨batches ++ [st.sequence ++ [cmd]], taken ++ [cmd], ⟨?_, ?_, hvalid⟩, by rw [hterminal']⟩
      · rw [hp, hseq.proposed, map_append]
        rfl
      · rw [hs, flatten_append, ← hsequence]
        simp

theorem Taken.proposed (h : Taken tableName st taken) : ∀ c ∈ st.proposed, c.leaderIndex = none := by
  obtain ⟨batches, records, hseq, -⟩ := h
  intro c hc
  rw [hseq.proposed] at hc
  obtain ⟨batch, -, rfl⟩ := mem_map.mp hc
  rfl

variable (sizeVT maxBatchSize accepts) in
theorem Taken.takeData (h : Taken tableName st taken) (data : Data) :
    match takeData sizeVT tableName maxBatchSize accepts data st with
    | .error e => ∀ c ∈ e.1, c.leaderIndex = none
    | .ok st' => data = none ∧ st' = st ∨ ∃ cmd, data = some (some cmd) ∧ Taken tableName st' (taken ++ [cmd]) := by
  match data with
  | none => exact .inl ⟨rfl, rfl⟩
  | some none => exact h.proposed
  | some (some cmd) =>
    unfold Storage.takeData
    dsimp only
    cases hread : Storage.readCommand sizeVT tableName maxBatchSize true cmd st with
    | error e => exact h.proposed
    | ok st' =>
      have hnext := h.readCommand hread
      dsimp only
      split_ifs
      · exact hnext.proposed
      · exact .inr ⟨cmd, rfl, hnext⟩

theorem Sequenced.flush {batches : List (List Command)} {records : List Command}
    (h : Sequenced tableName st batches records) : ∃ batches' : List (List Command), batches'.flatten = records ∧
    (st.flush tableName).proposed = batches'.map (snapshotBatch tableName) := by
  rw [Loading.flush]
  by_cases hempty : st.sequence = []
  · refine ⟨batches, ?_, by rw [if_pos hempty, h.proposed]⟩
    rw [← h.sequence, hempty, append_nil]
  · refine ⟨batches ++ [st.sequence], ?_, ?_⟩
    · rw [← h.sequence, flatten_append]
      simp
    · rw [if_neg hempty, h.proposed, map_append]
      rfl

/-- How a load can end: the stream was whole and the marker was the last proposal, or there
was an error and no proposal has a leader index. -/
def EndsRight (tableName : Bytes) (whole : List Command → Command → Prop) (r : List Command × Option LoadError) :
    Prop :=
  (∃ (batches : List (List Command)) (records : List Command) (marker : Command),
      whole records marker ∧ batches.flatten = records ∧
        r.1 = batches.map (snapshotBatch tableName) ++ [marker]) ∨
    r.2 ≠ none ∧ ∀ c ∈ r.1, c.leaderIndex = none

theorem EndsRight.imp {whole whole' : List Command → Command → Prop} {r : List Command × Option LoadError}
    (h : EndsRight tableName whole r) (hwhole : ∀ records marker, whole records marker → whole' records marker) :
    EndsRight tableName whole' r := by
  rcases h with ⟨batches, records, marker, hw, hflat, hr⟩ | h
  · exact .inl ⟨batches, records, marker, hwhole _ _ hw, hflat, hr⟩
  · exact .inr h

theorem Taken.takeError (h : Taken tableName st taken) (err : ReadError) :
    EndsRight tableName (fun records marker => taken = records ++ [marker] ∧ err = .eof ∧
    ∃ tip, (∀ cmd ∈ records, IsRecord tableName tip cmd) ∧ IsMarker tableName tip marker)
    (takeError tableName accepts err st) := by
  unfold Storage.takeError
  cases err with
  | other => exact .inr ⟨by simp, h.proposed⟩
  | eof =>
    dsimp only
    obtain ⟨batches, records, hseq, htaken⟩ := id h
    cases hterminal : st.terminal with
    | none => exact .inr ⟨by simp, h.proposed⟩
    | some marker =>
      rw [hterminal] at htaken
      obtain ⟨batches', hflat, hprop⟩ := hseq.flush
      dsimp only
      split_ifs
      · refine .inr ⟨by simp, fun c hc => ?_⟩
        rw [hprop] at hc
        obtain ⟨batch, -, rfl⟩ := mem_map.mp hc
        rfl
      all_goals exact .inl ⟨batches', records, marker, ⟨htaken.1, rfl, _, hseq.valid, htaken.2⟩, hflat, by rw [hprop]⟩

theorem Taken.loadLoop (h : Taken tableName st taken) (reads : List Data) (lastData : Data) (err : ReadError) :
    EndsRight tableName (fun records marker =>
    taken.map commandData ++ (reads ++ lastRead lastData) = (records ++ [marker]).map commandData ∧ err = .eof ∧
    ∃ tip, (∀ cmd ∈ records, IsRecord tableName tip cmd) ∧ IsMarker tableName tip marker)
    (loadLoop sizeVT tableName maxBatchSize accepts reads lastData err st) := by
  induction reads generalizing st taken with
  | nil =>
    have hdata := h.takeData sizeVT maxBatchSize accepts lastData
    rw [Storage.loadLoop]
    cases hstep : Storage.takeData sizeVT tableName maxBatchSize accepts lastData st with
    | error e =>
      rw [hstep] at hdata
      exact .inr ⟨by simp, hdata⟩
    | ok st' =>
      rw [hstep] at hdata
      rcases hdata with ⟨rfl, rfl⟩ | ⟨cmd, rfl, hnext⟩
      · refine (h.takeError err).imp fun records marker hwhole => ?_
        rw [hwhole.1]
        exact ⟨append_nil _, hwhole.2⟩
      · refine (hnext.takeError err).imp fun records marker hwhole => ?_
        rw [← hwhole.1, map_append]
        exact ⟨rfl, hwhole.2⟩
  | cons data reads ih =>
    have hdata := h.takeData sizeVT maxBatchSize accepts data
    rw [Storage.loadLoop]
    cases hstep : Storage.takeData sizeVT tableName maxBatchSize accepts data st with
    | error e =>
      rw [hstep] at hdata
      exact .inr ⟨by simp, hdata⟩
    | ok st' =>
      rw [hstep] at hdata
      rcases hdata with ⟨rfl, rfl⟩ | ⟨cmd, rfl, hnext⟩
      · exact .inr ⟨by simp, h.proposed⟩
      · refine (ih hnext).imp fun records marker hwhole => ?_
        rw [← hwhole.1, map_append, append_assoc]
        exact ⟨rfl, hwhole.2⟩

end

/-! ### Streams that load -/

section
variable {sizeVT : Command → ℕ} {tableName : Bytes} {maxBatchSize : ℕ} {accepts : ℕ → Bool}
  (haccepts : ∀ n, accepts n = true) {tip : UInt64} {st : Loading} (hterminal : st.terminal = none)
  (hmax : st.maxDataLeaderIndex ≤ tip)

include hterminal hmax in
theorem readCommand_marker {marker : Command} (h : IsMarker tableName tip marker) :
    readCommand sizeVT tableName maxBatchSize true marker st = .ok { st with terminal := some marker } := by
  obtain ⟨leaderIndex, hindex, hle⟩ := h.leaderIndex
  simp [readCommand, hterminal, h.table, h.type, hindex, h.empty, not_lt.mpr (hmax.trans hle)]

include haccepts in
theorem takeData_command {cmd : Command} {st' : Loading}
    (h : readCommand sizeVT tableName maxBatchSize true cmd st = .ok st') :
    takeData sizeVT tableName maxBatchSize accepts (commandData cmd) st = .ok st' := by
  simp [takeData, commandData, h, haccepts]

include haccepts in
theorem takeError_marker {marker : Command} (h : st.terminal = some marker) :
    (takeError tableName accepts .eof st).2 = none := by
  simp [takeError, h, haccepts]

include haccepts hterminal hmax in
theorem loadLoop_whole {records : List Command} {marker : Command}
    (hrecords : ∀ cmd ∈ records, IsRecord tableName tip cmd) (hmarker : IsMarker tableName tip marker)
    {reads : List Data} {lastData : Data} (hdata : reads ++ lastRead lastData = (records ++ [marker]).map commandData) :
    (loadLoop sizeVT tableName maxBatchSize accepts reads lastData .eof st).2 = none := by
  induction reads generalizing st records with
  | nil =>
    obtain ⟨rfl, rfl⟩ : records = [] ∧ lastData = commandData marker := by
      cases lastData with
      | none => simp [lastRead] at hdata
      | some d => cases records <;> simp_all [lastRead]
    rw [loadLoop, takeData_command haccepts (readCommand_marker hterminal hmax hmarker)]
    exact takeError_marker haccepts rfl
  | cons data reads ih =>
    rw [cons_append] at hdata
    cases records with
    | nil =>
      obtain ⟨rfl, hrest⟩ := List.cons.inj hdata
      obtain ⟨rfl, hlast⟩ := append_eq_nil_iff.mp hrest
      obtain rfl : lastData = none := by
        cases lastData <;> simp_all [lastRead]
      rw [loadLoop, takeData_command haccepts (readCommand_marker hterminal hmax hmarker)]
      change (takeError tableName accepts .eof { st with terminal := some marker }).2 = none
      exact takeError_marker haccepts rfl
    | cons cmd records =>
      obtain ⟨rfl, hrest⟩ := List.cons.inj hdata
      rw [forall_mem_cons] at hrecords
      obtain ⟨st', hst', hterminal', hmax', -⟩ :=
        readCommand_record sizeVT tableName maxBatchSize true hterminal hrecords.1
      obtain ⟨leaderIndex, hindex, hle⟩ := hrecords.1.leaderIndex
      rw [hindex] at hmax'
      rw [loadLoop, takeData_command haccepts hst']
      exact ih hterminal' (hmax'.trans_le (max_le hmax hle)) hrecords.2 hrest

end

/-- The commands proposed for a stream: its records in sequences, and then its marker. -/
def Proposed (tableName : Bytes) (records : List Command) (marker : Command) (proposed : List Command) : Prop :=
  ∃ batches : List (List Command), batches.flatten = records ∧
    proposed = batches.map (snapshotBatch tableName) ++ [marker]

theorem Proposed.marker_last {tableName : Bytes} {records : List Command} {marker : Command} {proposed : List Command}
    (h : Proposed tableName records marker proposed) {front back : List Command} {cmd : Command}
    (hr : proposed = front ++ cmd :: back) (hindex : cmd.leaderIndex ≠ none) :
    back = [] ∧ cmd = marker ∧ front.flatMap Command.sequence = records ∧ ∀ c ∈ front, c.leaderIndex = none := by
  obtain ⟨batches, hflat, hbatches⟩ := h
  have hbatch : ∀ c ∈ batches.map (snapshotBatch tableName), c.leaderIndex = none := by
    intro c hc
    obtain ⟨batch, -, rfl⟩ := mem_map.mp hc
    rfl
  obtain ⟨rfl, rfl, rfl⟩ : front = batches.map (snapshotBatch tableName) ∧ cmd = marker ∧ back = [] := by
    rw [hbatches] at hr
    rcases append_eq_append_iff.mp hr with ⟨cs, hfront, hcs⟩ | ⟨as, hmap, has⟩
    · cases cs with
      | nil => simp_all
      | cons c cs => simp at hcs
    · cases as with
      | nil => simp_all
      | cons a as =>
        -- a sequence has no leader index
        obtain ⟨rfl, -⟩ := List.cons.inj has
        exact absurd (hbatch cmd (by rw [hmap]; simp)) hindex
  refine ⟨rfl, rfl, ?_, hbatch⟩
  rw [flatMap_map, ← hflat]
  exact flatMap_id'

theorem Whole.unique {tableName : Bytes} {r : Reads} {records records' : List Command} {marker marker' : Command}
    (h : Whole tableName r records marker) (h' : Whole tableName r records' marker') :
    records = records' ∧ marker = marker' := by
  have heq := h.data.symm.trans h'.data
  have hinj := map_injective_iff.mpr (fun a b (hab : commandData a = commandData b) => by
    simpa [commandData] using hab) heq
  simpa using append_inj' hinj rfl

theorem load_endsRight (sizeVT : Command → ℕ) (tableName : Bytes) (maxBatchSize : ℕ) (accepts : ℕ → Bool) (r : Reads) :
    (∃ records marker, Whole tableName r records marker ∧
    Proposed tableName records marker (load sizeVT tableName maxBatchSize accepts r).1) ∨
    (load sizeVT tableName maxBatchSize accepts r).2 ≠ none ∧
    ∀ c ∈ (load sizeVT tableName maxBatchSize accepts r).1, c.leaderIndex = none := by
  have h : EndsRight tableName _ (load sizeVT tableName maxBatchSize accepts r) :=
    (taken_start tableName).loadLoop r.reads r.lastData r.lastError
  rcases h with ⟨batches, records, marker, ⟨hdata, hends, hvalid⟩, hflat, hr⟩ | h
  · exact .inl ⟨records, marker, ⟨hdata, hends, hvalid⟩, batches, hflat, hr⟩
  · exact .inr h

/-- The source progress a stream makes. A proposal with a leader index is the marker of a whole
stream, the last proposal, and follows all its records; without an error the stream was whole
and is proposed; and a whole stream has no error when every proposal is accepted. -/
theorem load_advances_whole (sizeVT : Command → ℕ) (tableName : Bytes) (maxBatchSize : ℕ) (accepts : ℕ → Bool)
    (r : Reads) : (∀ front cmd back, (load sizeVT tableName maxBatchSize accepts r).1 = front ++ cmd :: back →
        cmd.leaderIndex ≠ none →
          back = [] ∧ Whole tableName r (front.flatMap Command.sequence) cmd ∧ ∀ c ∈ front, c.leaderIndex = none) ∧
      ((load sizeVT tableName maxBatchSize accepts r).2 = none → ∃ records marker, Whole tableName r records marker ∧
          Proposed tableName records marker (load sizeVT tableName maxBatchSize accepts r).1) ∧
      ∀ records marker, Whole tableName r records marker → (∀ n, accepts n = true) →
        (load sizeVT tableName maxBatchSize accepts r).2 = none ∧
          Proposed tableName records marker (load sizeVT tableName maxBatchSize accepts r).1 := by
  have hends := load_endsRight sizeVT tableName maxBatchSize accepts r
  have hnoError : (load sizeVT tableName maxBatchSize accepts r).2 = none → ∃ records marker,
      Whole tableName r records marker ∧
        Proposed tableName records marker (load sizeVT tableName maxBatchSize accepts r).1 := fun hnone =>
    hends.resolve_right fun h => h.1 hnone
  refine ⟨fun front cmd back hr hindex => ?_, hnoError, fun records marker hwhole haccepts => ?_⟩
  · rcases hends with ⟨records, marker, hwhole, hproposed⟩ | ⟨-, hnone⟩
    · obtain ⟨rfl, rfl, rfl, hfront⟩ := hproposed.marker_last hr hindex
      exact ⟨rfl, hwhole, hfront⟩
    · exact absurd (hnone cmd (by rw [hr]; simp)) hindex
  · have hnone : (load sizeVT tableName maxBatchSize accepts r).2 = none := by
      obtain ⟨tip, hrecords, hmarker⟩ := hwhole.valid
      rw [load, hwhole.ends]
      exact loadLoop_whole haccepts rfl UInt64.zero_le hrecords hmarker hwhole.data
    obtain ⟨records', marker', hwhole', hproposed⟩ := hnoError hnone
    obtain ⟨rfl, rfl⟩ := hwhole.unique hwhole'
    exact ⟨hnone, hproposed⟩

/-- A put and a marker, the marker read together with the end of the stream. -/
def sampleReads : Reads :=
  ⟨[commandData { Command.ofType .put with table := [0x74], kv := some ⟨[0x61], [0x31]⟩, leaderIndex := some 3 }],
    commandData (terminalMarker [0x74] 4), .eof⟩

theorem load_advances_whole_sampleReads :
    (load (fun c => c.sequence.length) [0x74] 1 (fun _ => true) sampleReads).2 = none ∧ Proposed [0x74]
        [{ Command.ofType .put with table := [0x74], kv := some ⟨[0x61], [0x31]⟩, leaderIndex := some 3 }]
        (terminalMarker [0x74] 4) (load (fun c => c.sequence.length) [0x74] 1 (fun _ => true) sampleReads).1 := by
  refine (load_advances_whole (fun c => c.sequence.length) [0x74] 1 (fun _ => true) sampleReads).2.2 _ _ ?_
    fun _ => rfl
  refine ⟨rfl, rfl, 3, ?_, ⟨rfl, rfl, rfl, 4, rfl, by decide⟩⟩
  intro cmd hcmd
  rw [mem_singleton.mp hcmd]
  exact ⟨rfl, .inl rfl, by decide, 3, rfl, by decide⟩

end Armada.Storage
