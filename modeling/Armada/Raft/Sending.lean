import Armada.Program.Outcome
import Armada.Raft.Core

/-! Sending from the consensus core. A relation that single messages and notes about remotes
keep to is kept to by everything that sends Replicate messages, and by a change of the members
if the roles follow it as well. -/

namespace Armada.Raft.Node

open Program

/-- The types of the messages that elections and members depend on. -/
def electoral : List MessageType := [.requestVote, .requestVoteResp, .configChangeEvent, .snapshotReceived]

/-- A message of another type, and no answer to a Replicate or an InstallSnapshot message. -/
def Bland (m : Message) : Prop := m.type ∉ .replicateResp :: electoral

theorem yields_panicked {α : Type} {P : α → Prop} (p : Panic) : Yields (panicked p) P := .error _

variable {r r' : Node} {x : Except Fault Node}

theorem bland_makeReplicateMessage (r : Node) (dest next maxSize : ℕ) :
    Yields (r.makeReplicateMessage dest next maxSize) Bland := by
  unfold makeReplicateMessage
  exact .skip fun _ => .skip fun _ => .ite (fun _ => yields_panicked _) fun _ =>
    .ok (by simp [Bland, electoral])

theorem yields_forEach {R : Node → Node → Prop} (hrefl : ∀ r, R r r) (htrans : ∀ {r1 r2 r3}, R r1 r2 → R r2 r3 →
    R r1 r3)
    {α : Type} {f : Node → α → Except Fault Node} (hf : ∀ r a, Yields (f r a) (R r)) (as : List α) (r : Node) :
    Yields (forEach f as r) (R r) := by
  induction as generalizing r with
  | nil => exact .ok (hrefl r)
  | cons a as ih => exact (hf r a).bind fun r' h => (ih r').mono fun _ h' => htrans h h'

/-- What sending bland messages and noting it in the remotes keeps to, however often. -/
structure Sends (R : Node → Node → Prop) : Prop where
  refl (r : Node) : R r r
  trans {r1 r2 r3 : Node} : R r1 r2 → R r2 r3 → R r1 r3
  modifyRemote (r : Node) (id : ℕ) (f : Remote → Remote) : R r (r.modifyRemote id f)
  send (r : Node) {m : Message} : Bland m → Yields (r.send m) (R r)

namespace Sends

variable {R : Node → Node → Prop} (hR : Sends R)

include hR

theorem yields (h : R r r') (hx : Yields x (R r')) : Yields x (R r) := hx.mono fun _ h' => hR.trans h h'

theorem forEach {α : Type} {f : Node → α → Except Fault Node} (hf : ∀ r a, Yields (f r a) (R r))
    (as : List α) (r : Node) : Yields (forEach f as r) (R r) := yields_forEach hR.refl hR.trans hf as r

theorem sendInstallSnapshot (dest : ℕ) : Yields (r.sendInstallSnapshot dest) (R r) := by
  unfold Node.sendInstallSnapshot
  exact .ite (fun _ => yields_panicked _) fun _ =>
    hR.yields (hR.modifyRemote r _ _) (hR.send _ (by simp [Bland, electoral]))

theorem sendReplicate {rp : Remote} {m : Message} (hm : Bland m) : Yields (r.sendReplicate rp m) (R r) := by
  unfold Node.sendReplicate
  split
  · exact hR.send r hm
  · exact .skip fun rp => hR.yields (hR.modifyRemote r _ _) (hR.send _ hm)

theorem sendReplicateMessage (r : Node) (dest : ℕ) : Yields (r.sendReplicateMessage dest) (R r) := by
  unfold Node.sendReplicateMessage
  split
  · exact yields_panicked _
  · refine .ite (fun _ => .ok (hR.refl r)) fun _ => ?_
    split
    · exact yields_panicked _
    · exact .ite (fun _ => hR.sendInstallSnapshot dest) fun _ => .ok (hR.refl r)
    · next m hm => exact hR.sendReplicate (bland_makeReplicateMessage r _ _ _ m hm)

theorem broadcastReplicateMessage (r : Node) : Yields r.broadcastReplicateMessage (R r) := by
  unfold Node.broadcastReplicateMessage
  exact .skip fun _ => .ite (fun _ => yields_panicked _) fun _ => hR.forEach hR.sendReplicateMessage _ r

end Sends

/-- What a change of the members keeps to, whatever the new remotes are. -/
structure Reconfigures (R : Node → Node → Prop) : Prop extends Sends R where
  set (r : Node) (remotes nonVotings witnesses : Remotes) (pending : Bool) (target : ℕ) : R r { r with
    remotes := remotes, nonVotings := nonVotings, witnesses := witnesses, pendingConfigChange := pending,
    leaderTransferTarget := target }
  becomeFollower (r : Node) (leaderID : ℕ) : Yields (r.becomeFollower r.term leaderID) (R r)
  tryCommit (r : Node) : Yields r.tryCommit fun res => R r res.1

namespace Reconfigures

variable {R : Node → Node → Prop} (hR : Reconfigures R)

include hR

theorem addNode (r : Node) (id : ℕ) : Yields (r.addNode id) (R r) := by
  unfold Node.addNode
  refine .ite (fun _ => .error _) fun _ => .ite (fun _ => .ok (hR.set r _ _ _ _ _)) fun _ => ?_
  split
  · refine .ite (fun _ => ?_) fun _ => .ok (hR.set r _ _ _ _ _)
    exact (hR.becomeFollower _ _).mono fun _ h => hR.trans (hR.set r _ _ _ _ _) h
  · exact .ite (fun _ => .error _) fun _ => .ok (hR.set r _ _ _ _ _)

theorem removeNode (r : Node) (id : ℕ) : Yields (r.removeNode id) (R r) := by
  unfold Node.removeNode
  have hstepDown (r' : Node) (h : R r r') : Yields (r'.stepDownRemoved id) (R r) :=
    .ite (fun _ => hR.yields h (hR.becomeFollower r' 0)) fun _ => .ok h
  refine (hstepDown _ (hR.set r _ _ _ _ _)).bind fun r1 h1 => ?_
  have habort (b : Prop) [Decidable b] : R r (if b then r1.abortLeaderTransfer else r1) := by
    split_ifs
    · exact hR.trans h1 (hR.set r1 _ _ _ _ _)
    · exact h1
  refine .ite (fun _ => (hR.tryCommit _).bind fun res hres => ?_) fun _ => .ok (habort _)
  have hcommit := hR.trans (habort _) hres
  exact .ite (fun _ => hR.yields hcommit (hR.broadcastReplicateMessage _)) fun _ => .ok hcommit

theorem handleNodeConfigChange (r : Node) (m : Message) : Yields (r.handleNodeConfigChange m) (R r) := by
  unfold Node.handleNodeConfigChange
  refine .ite (fun _ => .ok (hR.set r _ _ _ _ _)) fun _ => ?_
  split
  · exact hR.addNode r _
  · exact hR.removeNode r _
  · exact .ite (fun _ => .error _) fun _ => .ite (fun _ => .ok (hR.set r _ _ _ _ _)) fun _ => .ok (hR.set r _ _ _ _ _)
  · exact .ite (fun _ => .error _) fun _ => .ite (fun _ => .ok (hR.set r _ _ _ _ _)) fun _ => .ok (hR.set r _ _ _ _ _)
  · exact .error _

end Reconfigures

end Armada.Raft.Node
