import Armada.Fsm.Loading

/-! Loading a command snapshot into a shard. The manager reads a stream of commands, checks each
one, proposes the data commands in sequences of a bounded size and then the terminal marker, a
dummy that carries the source's index. -/

namespace Armada.Storage

open Ordered Keys Pebble Proto Program Fsm List

/-- What one read of the stream gives. -/
inductive Record where
  | command (cmd : Command)
  | garbage
  | nothing
  | failure

inductive SnapshotError where
  | recordAfterTerminal | unmarshal
  | wrongTable (table expected : Bytes)
  | terminalWithoutLeaderIndex | terminalWithData
  | terminalBehind (terminal data : UInt64)
  | withoutKeyValue (type : CommandType)
  | withoutLeaderIndex (type : CommandType)
  | unsupportedType (type : CommandType)
  | missingTerminal | noProgress | read

/-- The variables of the loop, and the commands proposed so far. -/
structure Loading where
  proposed : List Command
  sequence : List Command
  terminal : Option Command
  maxDataLeaderIndex : UInt64

def Loading.start : Loading := ⟨[], [], none, 0⟩

/-- The sequence proposed for data commands. It has no leader index of its own. -/
def snapshotBatch (tableName : Bytes) (sequence : List Command) : Command :=
  { Command.ofType .sequence with table := tableName, sequence := sequence }

def Loading.flush (st : Loading) (tableName : Bytes) : Loading :=
  if st.sequence = [] then st
  else { st with proposed := st.proposed ++ [snapshotBatch tableName st.sequence], sequence := [] }

/-- A terminal marker has nothing but a table and a leader index. -/
def carriesData (cmd : Command) : Bool :=
  cmd.kv.isSome || !cmd.batch.isEmpty || cmd.txn.isSome || !cmd.sequence.isEmpty ||
    !(cmd.rangeEnd.getD []).isEmpty || cmd.prevKvs || cmd.count

/-- The body of the loop for a record. -/
def recordStep (sizeVT : Command → ℕ) (tableName : Bytes) (maxBatchSize : ℕ) (requireTerminal : Bool)
    (cmd : Command) (st : Loading) : Except SnapshotError Loading :=
  if (cmd.kv.map KeyValue.key).getD [] = [] then .error (.withoutKeyValue cmd.type)
  else if cmd.leaderIndex = none ∧ requireTerminal then .error (.withoutLeaderIndex cmd.type)
  else
    let st := { st with
      maxDataLeaderIndex := max st.maxDataLeaderIndex (cmd.leaderIndex.getD 0)
      sequence := st.sequence ++ [cmd] }
    if maxBatchSize > 0 ∧ sizeVT (snapshotBatch tableName st.sequence) ≥ maxBatchSize
    then .ok (st.flush tableName) else .ok st

/-- The body of the loop for a command that was read. -/
def readCommand (sizeVT : Command → ℕ) (tableName : Bytes) (maxBatchSize : ℕ) (requireTerminal : Bool)
    (cmd : Command) (st : Loading) : Except SnapshotError Loading :=
  if st.terminal.isSome then .error .recordAfterTerminal
  else if cmd.table ≠ tableName then .error (.wrongTable cmd.table tableName)
  else match cmd.type with
    | .dummy =>
      match cmd.leaderIndex with
      | none => .error .terminalWithoutLeaderIndex
      | some leaderIndex =>
        if carriesData cmd then .error .terminalWithData
        else if leaderIndex < st.maxDataLeaderIndex then
          .error (.terminalBehind leaderIndex st.maxDataLeaderIndex)
        else .ok { st with terminal := some cmd }
    | .put | .delete => recordStep sizeVT tableName maxBatchSize requireTerminal cmd st
    | _ => .error (.unsupportedType cmd.type)

/-- The commands proposed for a stream, in order, and the error that ended it.
`sizeVT` is the encoded size of a command. -/
def readSnapshotWithTerminal (sizeVT : Command → ℕ) (tableName : Bytes) (maxBatchSize : ℕ)
    (requireTerminal : Bool) : List Record → Loading → List Command × Option SnapshotError
  | [], st =>
    match st.terminal with
    | none => if requireTerminal then (st.proposed, some .missingTerminal)
      else ((st.flush tableName).proposed, none)
    | some terminal => ((st.flush tableName).proposed ++ [terminal], none)
  | .command cmd :: stream, st =>
    match readCommand sizeVT tableName maxBatchSize requireTerminal cmd st with
    | .error e => (st.proposed, some e)
    | .ok st => readSnapshotWithTerminal sizeVT tableName maxBatchSize requireTerminal stream st
  | .garbage :: _, st =>
    (st.proposed, some (if st.terminal.isSome then .recordAfterTerminal else .unmarshal))
  | .nothing :: _, st => (st.proposed, some .noProgress)
  | .failure :: _, st => (st.proposed, some .read)

/-- The marker that ends a stream. -/
def terminalMarker (tableName : Bytes) (leaderIndex : UInt64) : Command :=
  { Command.ofType .dummy with table := tableName, leaderIndex := some leaderIndex }

/-- The stream of a full snapshot: a backup, or a snapshot for a follower. -/
def streamFull (db : DB) (tableName : Bytes) : Except FsmError (List Record) := do
  let (records, index) ← commandSnapshot db tableName
  return (records ++ [terminalMarker tableName index]).map .command

/-! ### Streams that load -/

/-- A data command of a stream for the table, numbered at most `tip`. -/
structure IsRecord (tableName : Bytes) (tip : UInt64) (cmd : Command) : Prop where
  table : cmd.table = tableName
  type : cmd.type = .put ∨ cmd.type = .delete
  key : (cmd.kv.map KeyValue.key).getD [] ≠ []
  leaderIndex : ∃ leaderIndex, cmd.leaderIndex = some leaderIndex ∧ leaderIndex ≤ tip

section
variable (sizeVT : Command → ℕ) (tableName : Bytes) (maxBatchSize : ℕ) (requireTerminal : Bool)
  {tip : UInt64} {st : Loading} (hterminal : st.terminal = none)
include hterminal

theorem readCommand_record {cmd : Command} (hcmd : IsRecord tableName tip cmd) :
    ∃ st', readCommand sizeVT tableName maxBatchSize requireTerminal cmd st = .ok st' ∧
    st'.terminal = none ∧ st'.maxDataLeaderIndex = max st.maxDataLeaderIndex (cmd.leaderIndex.getD 0) ∧
    (st'.proposed = st.proposed ∧ st'.sequence = st.sequence ++ [cmd] ∨
    st'.proposed = st.proposed ++ [snapshotBatch tableName (st.sequence ++ [cmd])] ∧ st'.sequence = []) := by
  obtain ⟨htable, htype, hkey, leaderIndex, hindex, -⟩ := hcmd
  have hread : readCommand sizeVT tableName maxBatchSize requireTerminal cmd st =
      let st' : Loading := { st with
        maxDataLeaderIndex := max st.maxDataLeaderIndex (cmd.leaderIndex.getD 0)
        sequence := st.sequence ++ [cmd] }
      if maxBatchSize > 0 ∧ sizeVT (snapshotBatch tableName st'.sequence) ≥ maxBatchSize
      then .ok (st'.flush tableName) else .ok st' := by
    rcases htype with htype | htype <;> simp [readCommand, recordStep, hterminal, htable, htype, hkey, hindex]
  rw [hread]
  dsimp only
  split
  · rw [Loading.flush, if_neg (by simp)]
    exact ⟨_, rfl, hterminal, rfl, Or.inr ⟨rfl, rfl⟩⟩
  · exact ⟨_, rfl, hterminal, rfl, Or.inl ⟨rfl, rfl⟩⟩

/-- A stream whose marker is behind a data command is refused. -/
theorem readSnapshot_behind {cmds : List Command} {top : UInt64} (hcmds : ∀ cmd ∈ cmds, IsRecord tableName top cmd)
    (hbehind : tip < st.maxDataLeaderIndex ∨ ∃ cmd ∈ cmds, tip < cmd.leaderIndex.getD 0) :
    (readSnapshotWithTerminal sizeVT tableName maxBatchSize requireTerminal
    ((cmds ++ [terminalMarker tableName tip]).map .command) st).2 ≠ none := by
  induction cmds generalizing st with
  | nil =>
    have hlt : tip < st.maxDataLeaderIndex := hbehind.resolve_right (by simp)
    simp [readSnapshotWithTerminal, readCommand, hterminal, terminalMarker, Command.ofType, carriesData, hlt]
  | cons cmd cmds ih =>
    rw [forall_mem_cons] at hcmds
    obtain ⟨st', hst', hterminal', hmax, -⟩ :=
      readCommand_record sizeVT tableName maxBatchSize requireTerminal hterminal hcmds.1
    rw [cons_append, map_cons, readSnapshotWithTerminal, hst']
    refine ih hterminal' hcmds.2 ?_
    rw [hmax, lt_max_iff, or_assoc]
    simpa using hbehind

variable (hmax : st.maxDataLeaderIndex ≤ tip)
include hmax

theorem readCommand_terminal :
    readCommand sizeVT tableName maxBatchSize requireTerminal (terminalMarker tableName tip) st =
    .ok { st with terminal := some (terminalMarker tableName tip) } := by
  simp [readCommand, hterminal, terminalMarker, Command.ofType, carriesData, not_lt.mpr hmax]

/-- A stream of data commands and a marker not behind them is proposed whole, in
sequences that hold the commands in order, and then the marker. -/
theorem readSnapshot_proposes {cmds : List Command} (hcmds : ∀ cmd ∈ cmds, IsRecord tableName tip cmd) :
    ∃ batches : List (List Command), batches.flatten = st.sequence ++ cmds ∧
    readSnapshotWithTerminal sizeVT tableName maxBatchSize requireTerminal
    ((cmds ++ [terminalMarker tableName tip]).map .command) st =
    (st.proposed ++ batches.map (snapshotBatch tableName) ++ [terminalMarker tableName tip], none) := by
  induction cmds generalizing st with
  | nil =>
    simp only [nil_append, map_cons, map_nil, readSnapshotWithTerminal,
      readCommand_terminal sizeVT tableName maxBatchSize requireTerminal hterminal hmax, Loading.flush]
    by_cases hseq : st.sequence = []
    · exact ⟨[], by simp [hseq], by simp [hseq]⟩
    · exact ⟨[st.sequence], by simp, by simp [hseq]⟩
  | cons cmd cmds ih =>
    rw [forall_mem_cons] at hcmds
    obtain ⟨st', hst', hterminal', hmax', hstep⟩ :=
      readCommand_record sizeVT tableName maxBatchSize requireTerminal hterminal hcmds.1
    obtain ⟨leaderIndex, hindex, hle⟩ := hcmds.1.leaderIndex
    rw [hindex] at hmax'
    obtain ⟨batches, hflat, hread⟩ := ih hterminal' (hmax'.trans_le (max_le hmax hle)) hcmds.2
    rw [cons_append, map_cons, readSnapshotWithTerminal, hst']
    rcases hstep with ⟨hprop, hseq⟩ | ⟨hprop, hseq⟩
    · exact ⟨batches, by rw [hflat, hseq]; simp, by rw [← hprop]; exact hread⟩
    · refine ⟨(st.sequence ++ [cmd]) :: batches, by rw [flatten_cons, hflat, hseq]; simp, ?_⟩
      refine hread.trans ?_
      rw [hprop]
      simp

end

end Armada.Storage
