import Armada.Fsm.Repeats
import Armada.Replication.LogShipping

/-! Proposals that are applied again, when an answer was lost or a worker without its lease
still had one under way. The sequence runs on a follower that has moved on: its leader index is
written back whatever the follower has, and its transactions are decided again. -/

namespace Armada.Replication

open Ordered Keys Pebble Proto Program Fsm List

/-- The sequence proposed for the entries `i` to `j` of a log. -/
def proposalOf (log : List RaftEntry) (i j : ℕ) : Command :=
  sequenceOf (UInt64.ofNat j) (((log.take j).drop (i - 1)).map RaftEntry.stamped)

/-- The elementary commands of a log, each at its leader index. -/
def logLeaves (log : List RaftEntry) : List (UInt64 × Command) := log.flatMap fun e => leaves e.index e.stamped

theorem leaves_proposalOf (log : List RaftEntry) (i j : ℕ) (index : UInt64) :
    Entry.leaves ⟨index, some (proposalOf log i j)⟩ = logLeaves ((log.take j).drop (i - 1)) := by
  rw [Entry.leaves]
  dsimp only
  rw [leaves_sequence rfl, leavesAll_eq, proposalOf, sequenceOf, logLeaves, flatMap_map]
  simp only [RaftEntry.stamped_leaderIndex, Option.getD_some]

/-- A proposal for the entries `i` to `j` that is applied again, by a follower that has applied
the whole log and swept wherever it did, lowers the leader index unless it ends the log. If it
does, the numbers of the log do not go down, and every transaction in it takes the branch it
took, every key shows what it showed. -/
theorem stale_proposal_harmless (log : List RaftEntry) (hlog : IsLeaderLog log)
    (hlogged : ∀ a ∈ logLeaves log, IsLogged a) (proposals : Proposals) (hcovers : Covers proposals [] log)
    (events : List Event) (hcmd : (events.flatMap Event.entries).map Entry.cmd = proposals.proposed.map some)
    (r : List (List EntryResult) × FSM) (hrun : runAll Event.step events FSM.fresh = .ok r)
    (i j : ℕ) (hj : j ≤ log.length) (index : UInt64) :
    ∃ r', updateStep [⟨index, some (proposalOf log i j)⟩] r.2 = .ok r' ∧
      (readLocalIndex r.2.db sysLeaderIndex ≤ readLocalIndex r'.2.db sysLeaderIndex ↔ j = log.length) ∧
      (j = log.length → Increasing (logLeaves log) → ∀ taken, Followed taken events FSM.fresh →
        Along (Took taken) physical.handleLeaf (logLeaves (log.drop (i - 1))) r.2.db →
        ∀ k, live (latest r'.2.db k) = live (latest r.2.db k)) := by
  have hleaves : events.flatMap Event.leaves = logLeaves log := by
    rw [logLeaves, ← hcovers.leaves hcmd, flatMap_assoc]
    rfl
  have hfresh : Kept (fun _ _ => True) FSM.fresh.db := .empty fun _ => trivial
  have hcomplete := runEvents_complete hrun
  rw [← hleaves] at hlogged
  have hwell := (runEvents_kept hfresh hlogged (fun _ _ _ _ _ _ _ => trivial)
    (fun _ _ _ _ _ _ _ => trivial) hrun).wellFormed
  have hbefore : readLocalIndex r.2.db sysLeaderIndex = UInt64.ofNat log.length := by
    rw [runEvents_leaderIndex hfresh hlogged (fun e he => (hcovers.cmd_ne_none hcmd e he).2) hrun]
    exact hcovers.lastLeaderIndex hcmd hlog.index
  -- the proposal is a part of the log, which succeeded once
  have hpart : ∀ a ∈ logLeaves ((log.take j).drop (i - 1)), a ∈ events.flatMap Event.leaves := by
    intro a ha
    obtain ⟨e, he, ha⟩ := mem_flatMap.mp ha
    rw [hleaves]
    exact mem_flatMap.mpr ⟨e, mem_of_mem_take (mem_of_mem_drop he), ha⟩
  have htype : ∀ a ∈ events.flatMap Event.leaves, a.2.type ≠ .sequence := by
    intro a ha
    obtain ⟨e, -, ha⟩ := mem_flatMap.mp ha
    exact Event.type_of_mem_leaves ha
  obtain ⟨rs, hrs⟩ := runAll_complete (fun a ha => hlogged a (hpart a ha)) (fun a ha => htype a (hpart a ha))
    (fun a ha => hcomplete a (hpart a ha)) hwell
  have hdec : ∀ e ∈ [(⟨index, some (proposalOf log i j)⟩ : Entry)], e.cmd ≠ none := by simp
  have hagree := updateStep_agree hdec (.refl r.2.db)
  rw [flatMap_singleton, leaves_proposalOf, hrs] at hagree
  obtain ⟨r', hr', hsame⟩ := hagree.ok_right
  have hafter : readLocalIndex r'.2.db sysLeaderIndex = UInt64.ofNat j := by
    rw [updateStep_leaderIndex hr']
    rfl
  refine ⟨r', hr', ?_, ?_⟩
  · have hlength := hlog.length_lt
    rw [hbefore, hafter, UInt64.le_iff_toNat_le, UInt64.toNat_ofNat_of_lt' hlength,
      UInt64.toNat_ofNat_of_lt' (hj.trans_lt hlength)]
    omega
  · rintro rfl hincreasing taken hfollowed htook k
    rw [take_length] at hpart hrs
    have hsplit : logLeaves log = logLeaves (log.take (i - 1)) ++ logLeaves (log.drop (i - 1)) := by
      rw [logLeaves, logLeaves, logLeaves, ← flatMap_append, take_append_drop]
    rw [← hleaves] at hincreasing
    have hstart : Kept (fun k o => Decided taken [] k o ∧ Ahead (events.flatMap Event.leaves) o) FSM.fresh.db :=
      .empty fun k => ⟨fun s op h => (nomatch h), fun a _ _ => atMost_none a.1⟩
    have hdecided := runEvents_decided hstart hlogged hincreasing hfollowed hrun
    rw [nil_append, hleaves, hsplit] at hdecided
    rw [hleaves, hsplit] at hincreasing
    have hsettled := repeat_settles hdecided (fun a ha => hlogged a (hpart a ha))
      (fun a ha => htype a (hpart a ha)) (Increasing.append.mp hincreasing).2.1 htook hrs
    exact (hsettled.of_sameTable hsame).latest k

/-- A put, a transaction that looks for its key, and a put. -/
def repeatedLog : List RaftEntry :=
  let txn : Txn := ⟨[⟨.equal, .value, [0x61], none, none⟩], [.put ⟨[0x62], [0x31], false⟩],
    [.put ⟨[0x61], [0x32], false⟩]⟩
  [⟨1, .encoded (some { Command.ofType .put with kv := some ⟨[0x61], [0x31]⟩ })⟩,
    ⟨2, .encoded (some { Command.ofType .txn with txn := some txn })⟩,
    ⟨3, .encoded (some { Command.ofType .put with kv := some ⟨[0x63], [0x31]⟩ })⟩]

theorem isLeaderLog_of_plain {log : List RaftEntry} (hlength : log.length < 2 ^ 64) (hindex : Numbered 1 log)
    (hplain : ∀ e ∈ log, ∃ cmd, e.payload = .encoded (some cmd) ∧ cmd.leaderIndex = none) : IsLeaderLog log where
  length_lt := hlength
  index := hindex
  decodes e he hnone := by
    obtain ⟨cmd, hcmd, -⟩ := hplain e he
    rw [hnone] at hcmd
    cases hcmd
  own e he cmd hcmd leaderIndex hl := by
    obtain ⟨cmd', hcmd', hnone⟩ := hplain e he
    rw [hcmd] at hcmd'
    cases hcmd'
    rw [hnone] at hl
    cases hl

theorem repeatedLog_isLeaderLog : IsLeaderLog repeatedLog :=
  isLeaderLog_of_plain (by decide) ⟨rfl, rfl, rfl, trivial⟩ (by simp [repeatedLog, Command.ofType])

/-- The log in two proposals, with a sweep between them. -/
def repeatedEvents : List Event :=
  [.update [⟨1, some (proposalOf repeatedLog 1 2)⟩], .sweep (fun _ => false) 1,
    .update [⟨2, some (proposalOf repeatedLog 3 3)⟩]]

def repeatedProposals : Proposals := ⟨[proposalOf repeatedLog 1 2, proposalOf repeatedLog 3 3], 3, none⟩

theorem repeatedProposals_covers : Covers repeatedProposals [] repeatedLog where
  failure := rfl
  sequences := by simp [repeatedProposals, proposalOf]
  contents := rfl
  lastApplied := by simp [repeatedProposals, repeatedLog]
  watermark := rfl

theorem stale_proposal_harmless_repeatedLog : ∃ r r', runAll Event.step repeatedEvents FSM.fresh = .ok r ∧
      updateStep [⟨9, some (proposalOf repeatedLog 2 3)⟩] r.2 = .ok r' ∧
      readLocalIndex r.2.db sysLeaderIndex ≤ readLocalIndex r'.2.db sysLeaderIndex ∧
      ∀ k, live (latest r'.2.db k) = live (latest r.2.db k) := by
  obtain ⟨r, hr, htook⟩ : ∃ r, runAll Event.step repeatedEvents FSM.fresh = .ok r ∧
      Along (Took fun _ => true) physical.handleLeaf (logLeaves (repeatedLog.drop 1)) r.2.db := by
    have hvalue : (do
        let r ← runAll Event.step repeatedEvents FSM.fresh
        return decide (Along (Took fun _ => true) physical.handleLeaf (logLeaves (repeatedLog.drop 1)) r.2.db)) =
          Except.ok true := by decide +kernel
    simpa only [bind_eq_ok_iff, pure_eq_ok_iff, decide_eq_true_eq] using hvalue
  obtain ⟨r', hr', hindex, hview⟩ := stale_proposal_harmless repeatedLog repeatedLog_isLeaderLog (by decide)
    repeatedProposals repeatedProposals_covers repeatedEvents rfl r hr 2 3 (by decide) 9
  exact ⟨r, r', hr, hr', hindex.mpr rfl, hview rfl (by decide) (fun _ => true) (by decide +kernel) htook⟩

/-- A transaction that creates its key, or, once that is there, another one, and a put. -/
def decidedLog : List RaftEntry :=
  let txn : Txn := ⟨[⟨.equal, .value, [0x61], none, none⟩], [.put ⟨[0x62], [0x31], false⟩],
    [.put ⟨[0x61], [0x31], false⟩]⟩
  [⟨1, .encoded (some { Command.ofType .txn with txn := some txn })⟩,
    ⟨2, .encoded (some { Command.ofType .put with kv := some ⟨[0x63], [0x31]⟩ })⟩]

def decidedProposals : Proposals := ⟨[proposalOf decidedLog 1 1, proposalOf decidedLog 2 2], 2, none⟩

/-- The first proposal is applied again after the second: the leader index falls, and the
transaction takes its other branch. -/
theorem stale_proposal_harmful : IsLeaderLog decidedLog ∧ Covers decidedProposals [] decidedLog ∧
      ∃ r r', runAll updateStep [[⟨1, some (proposalOf decidedLog 1 1)⟩], [⟨2, some (proposalOf decidedLog 2 2)⟩]]
          FSM.fresh = .ok r ∧ updateStep [⟨3, some (proposalOf decidedLog 1 1)⟩] r.2 = .ok r' ∧
        readLocalIndex r.2.db sysLeaderIndex = 2 ∧ readLocalIndex r'.2.db sysLeaderIndex = 1 ∧
        live (latest r.2.db [0x62]) = none ∧ live (latest r'.2.db [0x62]) = some [0x31] := by
  refine ⟨isLeaderLog_of_plain (by decide) ⟨rfl, rfl, trivial⟩ (by simp [decidedLog, Command.ofType]),
    ⟨rfl, by simp [decidedProposals, proposalOf], rfl, by simp [decidedProposals, decidedLog], rfl⟩, ?_⟩
  have hvalues : (do
      let r ← runAll updateStep [[⟨1, some (proposalOf decidedLog 1 1)⟩], [⟨2, some (proposalOf decidedLog 2 2)⟩]]
        FSM.fresh
      let r' ← updateStep [⟨3, some (proposalOf decidedLog 1 1)⟩] r.2
      return (readLocalIndex r.2.db sysLeaderIndex, readLocalIndex r'.2.db sysLeaderIndex,
        live (latest r.2.db [0x62]), live (latest r'.2.db [0x62]))) =
        Except.ok (2, 1, none, some [0x31]) := by decide +kernel
  simpa only [bind_eq_ok_iff, pure_eq_ok_iff, Prod.mk.injEq, exists_and_left] using hvalues

end Armada.Replication
