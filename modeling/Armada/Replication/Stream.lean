import Armada.Replication.Worker

/-! The stream of a replication worker, failures included. The worker reads messages from the
leader, keeps the index it expects next, and proposes their commands in sequences; the context
can end and a proposal can fail at any command. What it has proposed is the received commands in
order, without a gap and without a repetition. -/

namespace Armada.Replication

open Ordered Keys Pebble Proto Program Fsm List

/-! ### The worker -/

/-- What becomes of a proposal: the engine accepts it, it does not get to the engine, or the
engine returns an error and may have accepted it all the same. -/
inductive ProposeOutcome where
  | accepted
  | refused
  | lost

/-- A received command, with what the worker meets at it: whether its context has ended, and
what becomes of the proposal if it makes one there. -/
structure Received where
  command : ReplicateCommand
  cancelled : Bool
  outcome : ProposeOutcome

inductive WorkerError where
  | openStream | readStream | cancelled | notProposed | unknownErrorResponse
  | batch (e : ReplicateError)

/-- What `proposeBatch` did: the sequences the engine accepted, the one it returned an error
for, and what it returned. -/
structure BatchResult where
  proposed : List Command
  lost : Option Command
  lastApplied : UInt64
  failure : Option WorkerError

/-- The checks of a command; one that passes carries its own source index from there on. -/
def checkCommand (c : ReplicateCommand) (expectedLeaderIndex : UInt64) : Except ReplicateError Command :=
  match c.command with
  | none => .error .emptyCommand
  | some cmd =>
    if c.leaderIndex = 0 ∨ c.leaderIndex ≠ expectedLeaderIndex then
      .error (.unexpectedIndex c.leaderIndex expectedLeaderIndex)
    else if cmd.leaderIndex.getD c.leaderIndex ≠ c.leaderIndex then
      .error (.mismatchedIndexes c.leaderIndex (cmd.leaderIndex.getD c.leaderIndex))
    else .ok { cmd with leaderIndex := some c.leaderIndex }

section
variable (sizeVT : Command → ℕ)

/-- The loop of `proposeBatch`. -/
def proposeReceivedLoop : List Received → UInt64 → List Command → UInt64 → BatchResult
  | [], _, _, lastApplied => ⟨[], none, lastApplied, none⟩
  | r :: received, expectedLeaderIndex, sequence, lastApplied =>
    if r.cancelled then ⟨[], none, lastApplied, some .cancelled⟩
    else match checkCommand r.command expectedLeaderIndex with
      | .error e => ⟨[], none, lastApplied, some (.batch e)⟩
      | .ok cmd =>
        let sequence := sequence ++ [cmd]
        let seq := sequenceOf r.command.leaderIndex sequence
        if sizeVT seq ≥ desiredProposalSize ∨ received = [] then
          match r.outcome with
          | .refused => ⟨[], none, lastApplied, some .notProposed⟩
          | .lost => ⟨[], some seq, lastApplied, some .notProposed⟩
          | .accepted =>
            let rest := proposeReceivedLoop received (expectedLeaderIndex + 1) [] r.command.leaderIndex
            { rest with proposed := seq :: rest.proposed }
        else proposeReceivedLoop received (expectedLeaderIndex + 1) sequence lastApplied

/-- `proposeBatch`. -/
def proposeReceived (received : List Received) (expectedLeaderIndex : UInt64) : BatchResult :=
  if received = [] then ⟨[], none, 0, some (.batch .emptyBatch)⟩
  else proposeReceivedLoop sizeVT received expectedLeaderIndex [] 0

inductive ErrorResponse where
  | leaderBehind | useSnapshot | unknown

/-- A message of the stream: commands, an error response, or only the leader's index. -/
inductive Message where
  | commands (received : List Received)
  | error (response : ErrorResponse)
  | index (leaderIndex : UInt64)

/-- How the stream ends. -/
inductive RecvEnd where
  | eof | notFound | failedPrecondition | other

inductive ReplicateResult where
  | unknown | tableNotExists | backoff | leaderBehind | leaderAhead | followerLagging | followerTailing

/-- What `worker.do` did and what it returned. -/
structure DoResult where
  proposed : List Command
  lost : Option Command
  result : ReplicateResult
  failure : Option WorkerError

/-- The loop of `worker.do`. -/
def workerDoLoop : List Message → RecvEnd → UInt64 → UInt64 → DoResult
  | [], ending, _, _ =>
    match ending with
    | .eof => ⟨[], none, .unknown, none⟩
    | .notFound => ⟨[], none, .tableNotExists, some .readStream⟩
    | .failedPrecondition => ⟨[], none, .backoff, some .readStream⟩
    | .other => ⟨[], none, .unknown, some .readStream⟩
  | .commands received :: messages, ending, _, nextLeaderIndex =>
    let b := proposeReceived sizeVT received nextLeaderIndex
    match b.failure with
    | some e => ⟨b.proposed, b.lost, .unknown, some e⟩
    | none =>
      let rest := workerDoLoop messages ending b.lastApplied (b.lastApplied + 1)
      { rest with proposed := b.proposed ++ rest.proposed }
  | .error response :: _, _, _, _ =>
    match response with
    | .leaderBehind => ⟨[], none, .leaderBehind, none⟩
    | .useSnapshot => ⟨[], none, .leaderAhead, none⟩
    | .unknown => ⟨[], none, .unknown, some .unknownErrorResponse⟩
  | .index leaderIndex :: _, _, applied, _ =>
    ⟨[], none, if applied ≠ 0 ∧ applied < leaderIndex then .followerLagging else .followerTailing, none⟩

/-- How the stream opens. -/
inductive Opening where
  | opened | unavailable | failed

/-- `worker.do` from a leader index on. -/
def workerDo (opening : Opening) (leaderIndex : UInt64) (messages : List Message) (ending : RecvEnd) : DoResult :=
  match opening with
  | .unavailable => ⟨[], none, .tableNotExists, some .openStream⟩
  | .failed => ⟨[], none, .unknown, some .openStream⟩
  | .opened => workerDoLoop sizeVT messages ending 0 (leaderIndex + 1)

end

/-- The commands a worker receives: those before the first message of another kind. -/
def receivedCommands : List Message → List ReplicateCommand
  | .commands received :: messages => received.map Received.command ++ receivedCommands messages
  | _ => []

/-! ### Commands in place -/

/-- The command numbered `n`, if that is what was received. -/
def inPlace (n : ℕ) (c : ReplicateCommand) : Option Command :=
  c.command.bind fun cmd =>
    if c.leaderIndex.toNat = n ∧ cmd.leaderIndex.getD c.leaderIndex = c.leaderIndex
    then some { cmd with leaderIndex := some c.leaderIndex } else none

/-- The received commands numbered `n`, `n + 1` and so on, up to the first that is not. -/
def consecutive (n : ℕ) : List ReplicateCommand → List Command
  | [] => []
  | c :: cs =>
    match inPlace n c with
    | some cmd => cmd :: consecutive (n + 1) cs
    | none => []

/-- The commands in proposed sequences. -/
def children (proposed : List Command) : List Command := proposed.flatMap Command.sequence

/-- The index of the last of some commands, or `last` if there are none. -/
def lastIndexOr (last : UInt64) (cmds : List Command) : UInt64 :=
  match cmds.getLast? with
  | none => last
  | some cmd => cmd.leaderIndex.getD 0

/-- A sequence of commands under the index of the last one. -/
structure IsSequence (p : Command) : Prop where
  type : p.type = .sequence
  nonempty : p.sequence ≠ []
  leaderIndex : p.leaderIndex = p.sequence.getLast?.bind Command.leaderIndex

variable {n : ℕ}

theorem expected_iff (hn : 1 ≤ n) (hle : n ≤ 2 ^ 64) (x : UInt64) : (x = 0 ∨ x ≠ UInt64.ofNat n) ↔ x.toNat ≠ n := by
  have hx := x.toNat_lt
  rw [← UInt64.toNat_inj, ne_eq, ← UInt64.toNat_inj, UInt64.toNat_ofNat']
  rcases Nat.lt_or_ge n (2 ^ 64) with h | h
  · rw [Nat.mod_eq_of_lt h, UInt64.toNat_zero]
    omega
  · obtain rfl : n = 2 ^ 64 := le_antisymm hle h
    rw [Nat.mod_self, UInt64.toNat_zero]
    omega

/-- A command passes the checks when it is the one numbered as expected. The indexes end at
`2 ^ 64`: there the worker expects the index zero, which no command may have. -/
theorem checkCommand_eq (hn : 1 ≤ n) (hle : n ≤ 2 ^ 64) (c : ReplicateCommand) :
    (checkCommand c (UInt64.ofNat n)).toOption = inPlace n c := by
  rw [checkCommand, inPlace]
  cases c.command with
  | none => rfl
  | some cmd =>
    simp only [expected_iff hn hle, Option.bind_some]
    by_cases hindex : c.leaderIndex.toNat = n
    · rw [if_neg (not_not.mpr hindex)]
      by_cases hown : cmd.leaderIndex.getD c.leaderIndex = c.leaderIndex
      · rw [if_neg (not_not.mpr hown), if_pos ⟨hindex, hown⟩]
        rfl
      · rw [if_pos hown, if_neg fun h => hown h.2]
        rfl
    · rw [if_pos hindex, if_neg fun h => hindex h.1]
      rfl

variable {cmd : Command} {c : ReplicateCommand}

theorem inPlace_eq_some (h : inPlace n c = some cmd) : c.leaderIndex.toNat = n ∧ cmd.leaderIndex = some c.leaderIndex ∧
    c.command.map (fun own => { own with leaderIndex := some c.leaderIndex }) = some cmd := by
  rw [inPlace, Option.bind_eq_some_iff] at h
  obtain ⟨own, hown, h⟩ := h
  split_ifs at h with hindex
  rw [hown, ← Option.some.inj h]
  exact ⟨hindex.1, rfl, rfl⟩

theorem lt_of_inPlace (h : inPlace n c = some cmd) : n < 2 ^ 64 := by
  rw [← (inPlace_eq_some h).1]
  exact c.leaderIndex.toNat_lt

/-! ### Batches -/

/-- What a batch that starts at `n` with the commands `gathered` before it proposes. -/
structure Consumed (n : ℕ) (gathered : List Command) (received : List ReplicateCommand) (last : UInt64)
    (b : BatchResult) : Prop where
  sequences : ∀ p ∈ b.proposed ++ b.lost.toList, IsSequence p
  inOrder : children (b.proposed ++ b.lost.toList) <+: gathered ++ consecutive n received
  lastApplied : b.lastApplied = lastIndexOr last (children b.proposed)
  complete : b.failure = none → b.lost = none ∧ (consecutive n received).length = received.length ∧
    (received ≠ [] → children b.proposed = gathered ++ consecutive n received)

variable {e : WorkerError} {received : List ReplicateCommand} {result : ReplicateResult}
    {failure : Option WorkerError} {proposed : List Command}

variable {last : UInt64} {gathered : List Command}

theorem Consumed.nothing : Consumed n gathered received last ⟨[], none, last, some e⟩ where
  sequences := by simp
  inOrder := by simp [children]
  lastApplied := rfl
  complete h := by cases h

variable {x : UInt64}

theorem isSequence_sequenceOf (h : cmd.leaderIndex = some x) : IsSequence (sequenceOf x (gathered ++ [cmd])) :=
  ⟨rfl, by simp [sequenceOf], by simp [sequenceOf, h]⟩

theorem children_cons (p : Command) (proposed : List Command) :
    children (p :: proposed) = p.sequence ++ children proposed := rfl

theorem lastIndexOr_append {cmds : List Command}
    (h : cmd.leaderIndex = some x) : lastIndexOr last (gathered ++ [cmd] ++ cmds) = lastIndexOr x cmds := by
  rw [lastIndexOr, lastIndexOr, List.getLast?_append]
  cases cmds.getLast? with
  | none => simp [h]
  | some c => rfl

section
variable {n : ℕ} {gathered : List Command} {c : ReplicateCommand} {cs : List ReplicateCommand} {last : UInt64}
  {cmd : Command} (hplace : inPlace n c = some cmd)
include hplace

theorem append_consecutive : gathered ++ consecutive n (c :: cs) = gathered ++ [cmd] ++ consecutive (n + 1) cs := by
  rw [consecutive, hplace, append_assoc, singleton_append]

theorem length_consecutive :
    (consecutive n (c :: cs)).length = (c :: cs).length ↔ (consecutive (n + 1) cs).length = cs.length := by
  rw [consecutive, hplace, length_cons, length_cons, Nat.add_right_cancel_iff]

theorem Consumed.lostAt {e : WorkerError} : Consumed n gathered (c :: cs) last
    ⟨[], some (sequenceOf c.leaderIndex (gathered ++ [cmd])), last, some e⟩ where
  sequences := by
    simpa using isSequence_sequenceOf (inPlace_eq_some hplace).2.1
  inOrder := by
    rw [append_consecutive hplace]
    exact (prefix_append_right_inj _).mpr nil_prefix
  lastApplied := rfl
  complete h := by cases h

variable {rest : BatchResult}

theorem Consumed.accepted (hrest : Consumed (n + 1) [] cs c.leaderIndex rest) : Consumed n gathered (c :: cs) last
      { rest with proposed := sequenceOf c.leaderIndex (gathered ++ [cmd]) :: rest.proposed } where
  sequences := by
    rw [cons_append, forall_mem_cons]
    exact ⟨isSequence_sequenceOf (inPlace_eq_some hplace).2.1, hrest.sequences⟩
  inOrder := by
    rw [append_consecutive hplace, cons_append, children_cons]
    exact (prefix_append_right_inj _).mpr hrest.inOrder
  lastApplied := hrest.lastApplied.trans (lastIndexOr_append (inPlace_eq_some hplace).2.1).symm
  complete hnone := by
    obtain ⟨hlost, hlength, hall⟩ := hrest.complete hnone
    refine ⟨hlost, (length_consecutive hplace).mpr hlength, fun _ => ?_⟩
    rw [append_consecutive hplace, children_cons]
    congr 1
    by_cases hcs : cs = []
    · have hnil := hrest.inOrder
      rw [hcs, consecutive, append_nil, prefix_nil, children, flatMap_append] at hnil
      rw [hcs, consecutive]
      exact (append_eq_nil_iff.mp hnil).1
    · exact hall hcs

theorem Consumed.gather (hcs : cs ≠ []) (hrest : Consumed (n + 1) (gathered ++ [cmd]) cs last rest) :
    Consumed n gathered (c :: cs) last rest where
  sequences := hrest.sequences
  inOrder := by
    rw [append_consecutive hplace]
    exact hrest.inOrder
  lastApplied := hrest.lastApplied
  complete hnone := by
    obtain ⟨hlost, hlength, hall⟩ := hrest.complete hnone
    refine ⟨hlost, (length_consecutive hplace).mpr hlength, fun _ => ?_⟩
    rw [append_consecutive hplace]
    exact hall hcs

end

theorem proposeReceivedLoop_consumed (sizeVT : Command → ℕ) (received : List Received) (hn : 1 ≤ n)
    (hle : n ≤ 2 ^ 64) (gathered : List Command) (last : UInt64) :
    Consumed n gathered (received.map Received.command) last
    (proposeReceivedLoop sizeVT received (UInt64.ofNat n) gathered last) := by
  induction received generalizing n gathered last with
  | nil =>
    exact ⟨by simp [proposeReceivedLoop], by simp [proposeReceivedLoop, children], rfl, fun _ => ⟨rfl, rfl, by simp⟩⟩
  | cons r received ih =>
    rw [proposeReceivedLoop, map_cons]
    have hcheck := checkCommand_eq hn hle r.command
    by_cases hcancelled : r.cancelled = true
    · rw [if_pos hcancelled]
      exact Consumed.nothing
    rw [if_neg hcancelled]
    cases hcmd : checkCommand r.command (UInt64.ofNat n) with
    | error e => exact Consumed.nothing
    | ok cmd =>
      rw [hcmd] at hcheck
      have hplace : inPlace n r.command = some cmd := hcheck.symm
      have hnext : UInt64.ofNat n + 1 = UInt64.ofNat (n + 1) := by simp
      dsimp only
      rw [hnext]
      split
      · cases r.outcome with
        | refused => exact Consumed.nothing
        | lost => exact Consumed.lostAt hplace
        | accepted => exact Consumed.accepted hplace (ih (Nat.le_add_left 1 n) (lt_of_inPlace hplace) _ _)
      · next hmore =>
        exact Consumed.gather hplace (by simpa using fun h => hmore (.inr h))
          (ih (Nat.le_add_left 1 n) (lt_of_inPlace hplace) _ _)

theorem proposeReceived_consumed (sizeVT : Command → ℕ) (received : List Received) (hn : 1 ≤ n) (hle : n ≤ 2 ^ 64) :
    Consumed n [] (received.map Received.command) 0 (proposeReceived sizeVT received (UInt64.ofNat n)) := by
  rw [proposeReceived]
  split
  · exact Consumed.nothing
  · exact proposeReceivedLoop_consumed sizeVT received hn hle [] 0

/-! ### Streams -/

theorem consecutive_append_le (n : ℕ) (cs ds : List ReplicateCommand) :
    consecutive n cs <+: consecutive n (cs ++ ds) := by
  induction cs generalizing n with
  | nil => exact nil_prefix
  | cons c cs ih =>
    rw [cons_append, consecutive, consecutive]
    cases inPlace n c with
    | none => exact prefix_rfl
    | some cmd => exact (prefix_cons_inj cmd).mpr (ih (n + 1))

variable {cs : List ReplicateCommand}

theorem inPlace_of_length (h : (consecutive n (c :: cs)).length = (c :: cs).length) :
    ∃ cmd, inPlace n c = some cmd := by
  rw [consecutive] at h
  cases hplace : inPlace n c with
  | none =>
    rw [hplace] at h
    cases h
  | some cmd => exact ⟨cmd, rfl⟩

theorem consecutive_append (h : (consecutive n cs).length = cs.length)
    (ds : List ReplicateCommand) : consecutive n (cs ++ ds) = consecutive n cs ++ consecutive (n + cs.length) ds := by
  induction cs generalizing n with
  | nil => rfl
  | cons c cs ih =>
    obtain ⟨cmd, hplace⟩ := inPlace_of_length h
    have hrest := ih ((length_consecutive hplace).mp h)
    rw [cons_append, consecutive, consecutive, hplace]
    dsimp only
    rw [hrest, cons_append, length_cons, show n + 1 + cs.length = n + (cs.length + 1) by omega]

theorem lastIndexOr_consecutive (h : (consecutive n cs).length = cs.length) (hne : cs ≠ []) (last : UInt64) :
    lastIndexOr last (consecutive n cs) + 1 = UInt64.ofNat (n + cs.length) ∧ n + cs.length ≤ 2 ^ 64 := by
  induction cs generalizing n last with
  | nil => exact absurd rfl hne
  | cons c cs ih =>
    obtain ⟨cmd, hplace⟩ := inPlace_of_length h
    obtain ⟨hnumber, hindex, -⟩ := inPlace_eq_some hplace
    have hrest := (length_consecutive hplace).mp h
    rw [← nil_append (consecutive n (c :: cs)), append_consecutive hplace, lastIndexOr_append hindex, length_cons]
    by_cases hcs : cs = []
    · have hlt := c.leaderIndex.toNat_lt
      rw [hcs, consecutive, lastIndexOr]
      refine ⟨?_, by rw [length_nil]; omega⟩
      rw [← hnumber]
      simp
    · obtain ⟨hlast, hle⟩ := ih hrest hcs c.leaderIndex
      rw [show n + (cs.length + 1) = n + 1 + cs.length by omega]
      exact ⟨hlast, hle⟩

/-- What a worker that starts at `n` proposes of the commands it receives. -/
structure Streamed (n : ℕ) (received : List ReplicateCommand) (r : DoResult) : Prop where
  sequences : ∀ p ∈ r.proposed ++ r.lost.toList, IsSequence p
  inOrder : children (r.proposed ++ r.lost.toList) <+: consecutive n received
  complete : r.failure = none → (consecutive n received).length = received.length ∧ r.lost = none ∧
    children r.proposed = consecutive n received

theorem Streamed.nothing : Streamed n received ⟨[], none, result, some e⟩ :=
  ⟨by simp, by simp [children], fun h => by cases h⟩

theorem Streamed.over : Streamed n [] ⟨[], none, result, failure⟩ :=
  ⟨by simp, by simp [children], fun _ => ⟨rfl, rfl, rfl⟩⟩

theorem Streamed.append {ds : List ReplicateCommand} {rest : DoResult}
    (hlength : (consecutive n cs).length = cs.length) (hproposed : children proposed = consecutive n cs)
    (hsequences : ∀ p ∈ proposed, IsSequence p) (hrest : Streamed (n + cs.length) ds rest) :
    Streamed n (cs ++ ds) { rest with proposed := proposed ++ rest.proposed } where
  sequences := by
    rw [append_assoc, forall_mem_append]
    exact ⟨hsequences, hrest.sequences⟩
  inOrder := by
    rw [consecutive_append hlength, append_assoc, children, flatMap_append]
    change children proposed ++ children (rest.proposed ++ rest.lost.toList) <+: _
    rw [hproposed]
    exact (prefix_append_right_inj _).mpr hrest.inOrder
  complete hnone := by
    obtain ⟨hlen, hlost, hall⟩ := hrest.complete hnone
    rw [consecutive_append hlength, length_append, length_append, hlength, hlen, children, flatMap_append]
    change _ ∧ _ ∧ children proposed ++ children rest.proposed = _
    rw [hproposed, hall]
    exact ⟨rfl, hlost, rfl⟩

theorem workerDoLoop_streamed (sizeVT : Command → ℕ) (messages : List Message) (ending : RecvEnd) (applied : UInt64)
    (hn : 1 ≤ n) (hle : n ≤ 2 ^ 64) :
    Streamed n (receivedCommands messages) (workerDoLoop sizeVT messages ending applied (UInt64.ofNat n)) := by
  induction messages generalizing applied n with
  | nil =>
    cases ending <;> exact Streamed.over
  | cons message messages ih =>
    cases message with
    | error response => cases response <;> exact Streamed.over
    | index leaderIndex => exact Streamed.over
    | commands received =>
      have hbatch := proposeReceived_consumed sizeVT received hn hle
      rw [workerDoLoop, receivedCommands]
      generalize hb : proposeReceived sizeVT received (UInt64.ofNat n) = b at hbatch
      dsimp only
      cases hfailure : b.failure with
      | some e =>
        exact ⟨hbatch.sequences, hbatch.inOrder.trans (consecutive_append_le n _ _), fun h => by cases h⟩
      | none =>
        obtain ⟨hlost, hlength, hall⟩ := hbatch.complete hfailure
        have hne : received ≠ [] := by
          rintro rfl
          rw [← hb] at hfailure
          cases hfailure
        have hne' : received.map Received.command ≠ [] := by simpa using hne
        obtain ⟨hnext, hbelow⟩ := lastIndexOr_consecutive hlength hne' 0
        have happlied : b.lastApplied + 1 = UInt64.ofNat (n + (received.map Received.command).length) := by
          rw [hbatch.lastApplied, hall hne', nil_append, hnext]
        have hrest := ih b.lastApplied (by omega) hbelow
        rw [← happlied] at hrest
        generalize workerDoLoop sizeVT messages ending b.lastApplied (b.lastApplied + 1) = rest at hrest
        have hchildren : children b.proposed = consecutive n (received.map Received.command) := hall hne'
        exact Streamed.append hlength hchildren (fun p hp => hbatch.sequences p (by simp [hp])) hrest

/-! ### No gap and no repetition -/

variable {i : ℕ}

theorem consecutive_getElem?
    (h : (consecutive n cs)[i]? = some cmd) : ∃ c, cs[i]? = some c ∧ inPlace (n + i) c = some cmd := by
  induction cs generalizing n i with
  | nil => cases h
  | cons c cs ih =>
    rw [consecutive] at h
    cases hplace : inPlace n c with
    | none =>
      rw [hplace] at h
      cases h
    | some own =>
      rw [hplace] at h
      cases i with
      | zero => exact ⟨c, rfl, hplace.trans h⟩
      | succ i =>
        obtain ⟨d, hd, hin⟩ := ih (n := n + 1) h
        exact ⟨d, hd, by rw [← hin, show n + 1 + i = n + (i + 1) by omega]⟩

theorem getElem?_of_inOrder {α : Type} {xs ys : List α} (h : xs <+: ys) {x : α} (hx : xs[i]? = some x) :
    ys[i]? = some x := by
  obtain ⟨zs, rfl⟩ := h
  obtain ⟨hi, -⟩ := List.getElem?_eq_some_iff.mp hx
  rwa [List.getElem?_append_left hi]

/-- The log from `L` is consumed in order: the proposed commands are the received ones from `L +
1` on, every sequence has the index of its last command, at a command out of place there is an
error and neither it nor one after it is proposed, and without an error all of them are. -/
structure Contiguous (L : ℕ) (received : List ReplicateCommand) (proposed : List Command)
    (failure : Option WorkerError) : Prop where
  sequences : ∀ p ∈ proposed, IsSequence p
  numbered : ∀ i cmd, (children proposed)[i]? = some cmd →
    ∃ c, received[i]? = some c ∧ c.leaderIndex.toNat = L + 1 + i ∧
      c.command.map (fun own => { own with leaderIndex := some c.leaderIndex }) = some cmd
  offending : ∀ i c, received[i]? = some c → inPlace (L + 1 + i) c = none →
    failure ≠ none ∧ (children proposed).length ≤ i
  complete : failure = none → (children proposed).length = received.length

theorem Contiguous.of_inOrder {L : ℕ} (hsequences : ∀ p ∈ proposed, IsSequence p)
    (hinOrder : children proposed <+: consecutive (L + 1) received)
    (hcomplete : failure = none → (consecutive (L + 1) received).length = received.length ∧
      children proposed = consecutive (L + 1) received) : Contiguous L received proposed failure where
  sequences := hsequences
  numbered i cmd h := by
    obtain ⟨c, hc, hplace⟩ := consecutive_getElem? (getElem?_of_inOrder hinOrder h)
    obtain ⟨hnumber, -, hown⟩ := inPlace_eq_some hplace
    exact ⟨c, hc, hnumber, hown⟩
  offending i c hc hplace := by
    -- the commands in place end at or before the one that is not
    have hshort : (consecutive (L + 1) received).length ≤ i := by
      by_contra hlong
      obtain ⟨d, hd, hin⟩ := consecutive_getElem? (List.getElem?_eq_getElem (not_le.mp hlong))
      rw [Option.some.inj (hc.symm.trans hd), hin] at hplace
      cases hplace
    refine ⟨fun hnone => ?_, hinOrder.length_le.trans hshort⟩
    have hlen := (hcomplete hnone).1
    have hi := (List.getElem?_eq_some_iff.mp hc).1
    omega
  complete hnone := by
    rw [(hcomplete hnone).2, (hcomplete hnone).1]

theorem ofNat_toNat_add_one (L : UInt64) : L + 1 = UInt64.ofNat (L.toNat + 1) := by
  rw [UInt64.ofNat_add, UInt64.ofNat_toNat]
  rfl

/-- For every leader index and every list of messages, whatever fails, the worker and each of
its batches consume the leader's log without a gap and without a repetition; the index a
batch returns is that of the last command the engine accepted, zero if it accepted none. -/
theorem worker_contiguous (sizeVT : Command → ℕ) (L : UInt64) :
    (∀ opening messages ending, Contiguous L.toNat (receivedCommands messages)
        ((workerDo sizeVT opening L messages ending).proposed ++
          (workerDo sizeVT opening L messages ending).lost.toList)
        (workerDo sizeVT opening L messages ending).failure) ∧
      ∀ received, Contiguous L.toNat (received.map Received.command)
          ((proposeReceived sizeVT received (L + 1)).proposed ++
            (proposeReceived sizeVT received (L + 1)).lost.toList) (proposeReceived sizeVT received (L + 1)).failure ∧
        (proposeReceived sizeVT received (L + 1)).lastApplied =
          lastIndexOr 0 (children (proposeReceived sizeVT received (L + 1)).proposed) := by
  have hn : 1 ≤ L.toNat + 1 := Nat.le_add_left 1 _
  have hle : L.toNat + 1 ≤ 2 ^ 64 := L.toNat_lt
  rw [ofNat_toNat_add_one L]
  constructor
  · intro opening messages ending
    have hstreamed : Streamed (L.toNat + 1) (receivedCommands messages)
        (workerDo sizeVT opening L messages ending) := by
      cases opening with
      | unavailable => exact Streamed.nothing
      | failed => exact Streamed.nothing
      | opened =>
        rw [workerDo, ofNat_toNat_add_one L]
        exact workerDoLoop_streamed sizeVT messages ending 0 hn hle
    refine .of_inOrder hstreamed.sequences hstreamed.inOrder fun hnone => ?_
    obtain ⟨hlength, hlost, hall⟩ := hstreamed.complete hnone
    rw [hlost]
    exact ⟨hlength, by simpa using hall⟩
  · intro received
    have hbatch := proposeReceived_consumed sizeVT received hn hle
    refine ⟨.of_inOrder hbatch.sequences hbatch.inOrder fun hnone => ?_, hbatch.lastApplied⟩
    obtain ⟨hlost, hlength, hall⟩ := hbatch.complete hnone
    have hne : received.map Received.command ≠ [] := by
      rintro hnil
      rw [map_eq_nil_iff.mp hnil] at hnone
      cases hnone
    rw [hlost]
    exact ⟨hlength, by simpa using hall hne⟩

end Armada.Replication
