import Armada.Fsm.Runs

/-! Log replication. The leader sends the entries of its Raft log as commands stamped
with their index; the follower's worker checks that no index is missing, groups the
commands of a message into sequences below a proposal size, and proposes each under
the index of its last command. -/

namespace Armada.Replication

open Ordered Keys Pebble Proto Program Fsm

/-- What a Raft entry carries: the bytes of a command, with what they decode to, or
something the state machine is not handed. -/
inductive Payload where
  | encoded (cmd : Option Command)
  | other

/-- A Raft entry. -/
structure RaftEntry where
  index : UInt64
  payload : Payload

inductive ReplicateError where
  | unmarshal | emptyBatch | emptyCommand
  | unexpectedIndex (got expected : UInt64)
  | mismatchedIndexes (outer inner : UInt64)

def entryToCommand (e : RaftEntry) : Except ReplicateError Command :=
  match e.payload with
  | .other => .ok { Command.ofType .dummy with leaderIndex := some e.index }
  | .encoded none => .error .unmarshal
  | .encoded (some cmd) => .ok { cmd with leaderIndex := some e.index }

structure ReplicateCommand where
  command : Option Command
  leaderIndex : UInt64

/-- The commands of one replication message. -/
def replicateCommands (entries : List RaftEntry) : Except ReplicateError (List ReplicateCommand) :=
  entries.mapM fun e => do return ⟨some (← entryToCommand e), e.index⟩

def desiredProposalSize : ℕ := 256 * 1024

/-- The sequence proposed for the commands gathered up to `leaderIndex`. -/
def sequenceOf (leaderIndex : UInt64) (sequence : List Command) : Command :=
  { Command.ofType .sequence with leaderIndex := some leaderIndex, sequence := sequence }

/-- What became of a message: the sequences proposed, the last index applied, and the
error that ended it. -/
structure Proposals where
  proposed : List Command
  lastApplied : UInt64
  failure : Option ReplicateError

/-- The loop of `proposeBatch`; `sizeVT` is the encoded size of a command. -/
def proposeLoop (sizeVT : Command → ℕ) :
    List ReplicateCommand → UInt64 → List Command → UInt64 → Proposals
  | [], _, _, lastApplied => ⟨[], lastApplied, none⟩
  | c :: commands, expectedLeaderIndex, sequence, lastApplied =>
    match c.command with
    | none => ⟨[], lastApplied, some .emptyCommand⟩
    | some cmd =>
      if c.leaderIndex = 0 ∨ c.leaderIndex ≠ expectedLeaderIndex then
        ⟨[], lastApplied, some (.unexpectedIndex c.leaderIndex expectedLeaderIndex)⟩
      else if cmd.leaderIndex.getD c.leaderIndex ≠ c.leaderIndex then
        ⟨[], lastApplied,
          some (.mismatchedIndexes c.leaderIndex (cmd.leaderIndex.getD c.leaderIndex))⟩
      else
        let sequence := sequence ++ [{ cmd with leaderIndex := some c.leaderIndex }]
        let seq := sequenceOf c.leaderIndex sequence
        if sizeVT seq ≥ desiredProposalSize ∨ commands = [] then
          let rest := proposeLoop sizeVT commands (expectedLeaderIndex + 1) [] c.leaderIndex
          { rest with proposed := seq :: rest.proposed }
        else proposeLoop sizeVT commands (expectedLeaderIndex + 1) sequence lastApplied

def proposeBatch (sizeVT : Command → ℕ) (commands : List ReplicateCommand)
    (expectedLeaderIndex : UInt64) : Proposals :=
  if commands = [] then ⟨[], 0, some .emptyBatch⟩
  else proposeLoop sizeVT commands expectedLeaderIndex [] 0

/-- The message loop of `worker.do`: the sequences proposed for a stream of messages
from `nextLeaderIndex` on. -/
def receive (sizeVT : Command → ℕ) : List (List ReplicateCommand) → UInt64 → Proposals
  | [], nextLeaderIndex => ⟨[], nextLeaderIndex - 1, none⟩
  | commands :: stream, nextLeaderIndex =>
    let r := proposeBatch sizeVT commands nextLeaderIndex
    match r.failure with
    | some _ => r
    | none =>
      let rest := receive sizeVT stream (r.lastApplied + 1)
      { rest with proposed := r.proposed ++ rest.proposed }

end Armada.Replication
