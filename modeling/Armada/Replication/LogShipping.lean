import Armada.Replication.Worker

/-! Shipping the log of a leader. However the log is cut into messages and the
commands of a message are grouped into sequences, the follower runs the elementary
commands of the leader, each at the index the leader ran it at, and ends with the
leader's versions. -/

namespace Armada.Replication

open Ordered Keys Pebble Proto Program Fsm List

/-- Entries at `n`, `n + 1` and so on. -/
def Numbered : ℕ → List RaftEntry → Prop
  | _, [] => True
  | n, e :: es => e.index = UInt64.ofNat n ∧ Numbered (n + 1) es

variable {es : List RaftEntry} {n : ℕ} {e : RaftEntry} {messages : List (List RaftEntry)} {batches : List (List Entry)}

theorem numbered_append {fs : List RaftEntry} :
    Numbered n (es ++ fs) ↔ Numbered n es ∧ Numbered (n + es.length) fs := by
  induction es generalizing n with
  | nil => simp [Numbered]
  | cons e es ih =>
    simp only [cons_append, Numbered, ih, length_cons, and_assoc]
    rw [show n + 1 + es.length = n + (es.length + 1) by omega]

/-- The log of a leader: entries at 1, 2, 3 and so on that decode, with no command at
the index of another entry. The children of a sequence may carry any leader index. -/
structure IsLeaderLog (log : List RaftEntry) : Prop where
  length_lt : log.length < 2 ^ 64
  index : Numbered 1 log
  decodes : ∀ e ∈ log, e.payload ≠ .encoded none
  own : ∀ e ∈ log, ∀ cmd, e.payload = .encoded (some cmd) → ∀ leaderIndex ∈ cmd.leaderIndex,
    leaderIndex = e.index

/-- What the state machine of the leader is handed for an entry. -/
def RaftEntry.applied (e : RaftEntry) : Option Entry :=
  match e.payload with
  | .encoded cmd => some ⟨e.index, cmd⟩
  | .other => none

/-- The command sent for an entry that decodes. -/
def RaftEntry.stamped (e : RaftEntry) : Command :=
  match e.payload with
  | .encoded (some cmd) => { cmd with leaderIndex := some e.index }
  | _ => { Command.ofType .dummy with leaderIndex := some e.index }

theorem RaftEntry.stamped_leaderIndex (e : RaftEntry) : e.stamped.leaderIndex = some e.index := by
  unfold RaftEntry.stamped
  split <;> rfl

theorem entryToCommand_eq (h : e.payload ≠ .encoded none) : entryToCommand e = .ok e.stamped := by
  obtain ⟨index, (_ | cmd) | _⟩ := e
  · exact absurd rfl h
  · rfl
  · rfl

def RaftEntry.sent (e : RaftEntry) : ReplicateCommand := ⟨some e.stamped, e.index⟩

theorem replicateCommands_eq (h : ∀ e ∈ es, e.payload ≠ .encoded none) :
    replicateCommands es = .ok (es.map RaftEntry.sent) := by
  induction es with
  | nil => rfl
  | cons e es ih =>
    rw [forall_mem_cons] at h
    have htail := ih h.2
    unfold replicateCommands at htail ⊢
    rw [mapM_cons, entryToCommand_eq h.1, htail]
    rfl

/-! ### Grouping -/

/-- The commands that a list of proposed sequences holds. -/
def contents (proposed : List Command) : List Command := proposed.flatMap Command.sequence

/-- What the proposals for entries of a log are: sequences that hold the gathered
commands and those of the entries in order, the last under the last index. -/
structure Covers (r : Proposals) (gathered : List Command) (es : List RaftEntry) : Prop where
  failure : r.failure = none
  sequences : ∀ p ∈ r.proposed, ∃ leaderIndex seq, p = sequenceOf leaderIndex seq
  contents : contents r.proposed = gathered ++ es.map RaftEntry.stamped
  lastApplied : ∀ e ∈ es.getLast?, r.lastApplied = e.index
  watermark : r.proposed.getLast?.bind Command.leaderIndex = es.getLast?.map RaftEntry.index

variable {r : Proposals}

theorem Covers.proposed_ne_nil {gathered : List Command} (h : Covers r gathered es) (hes : es ≠ []) :
    r.proposed ≠ [] := by
  intro hnil
  have hlast := h.watermark
  rw [hnil, List.getLast?_eq_some_getLast hes] at hlast
  cases hlast

theorem ofNat_ne_zero (hpos : 0 < n) (hlt : n < 2 ^ 64) : UInt64.ofNat n ≠ 0 := by
  intro h
  have := congrArg UInt64.toNat h
  simp only [UInt64.toNat_ofNat', UInt64.toNat_zero] at this
  omega

theorem proposeLoop_covers (sizeVT : Command → ℕ) (hn : 0 < n)
    (hlt : n + es.length ≤ 2 ^ 64) (hnum : Numbered n es) (gathered : List Command) (lastApplied : UInt64)
    (hne : es ≠ [] ∨ gathered = []) :
    Covers (proposeLoop sizeVT (es.map RaftEntry.sent) (UInt64.ofNat n) gathered lastApplied) gathered es := by
  induction es generalizing n gathered lastApplied with
  | nil =>
    obtain rfl : gathered = [] := hne.resolve_left (fun h => h rfl)
    exact ⟨rfl, by simp [proposeLoop], rfl, by simp, rfl⟩
  | cons e es ih =>
    obtain ⟨hindex, hnum⟩ := hnum
    simp only [length_cons] at hlt
    have hzero := ofNat_ne_zero hn (by omega)
    have hnext : UInt64.ofNat n + 1 = UInt64.ofNat (n + 1) := (UInt64.ofNat_add n 1).symm
    have hstamped : { e.stamped with leaderIndex := some e.index } = e.stamped := by
      have := e.stamped_leaderIndex
      cases h : e.stamped
      simp_all
    rw [map_cons, proposeLoop]
    simp only [RaftEntry.sent, e.stamped_leaderIndex, Option.getD_some, ne_eq, not_true_eq_false,
      if_false, hindex, hzero, or_self, hnext]
    rw [← hindex, hstamped]
    split
    · next hpropose =>
      -- a sequence ends here
      have hrest := ih (by omega) (by omega) hnum [] e.index (Or.inr rfl)
      refine ⟨hrest.failure, ?_, ?_, ?_, ?_⟩
      · intro p hp
        rcases mem_cons.mp hp with rfl | hp
        · exact ⟨_, _, rfl⟩
        · exact hrest.sequences p hp
      · change (gathered ++ [e.stamped]) ++ contents _ = _
        rw [hrest.contents]
        simp
      · cases es with
        | nil => simp [proposeLoop]
        | cons e' es => exact hrest.lastApplied
      · cases es with
        | nil => simp [proposeLoop, sequenceOf]
        | cons e' es =>
          rw [List.getLast?_cons_cons, ← hrest.watermark]
          exact congrArg (Option.bind · _)
            (List.getLast?_append_of_ne_nil [_] (hrest.proposed_ne_nil (by simp)))
    · next hmore =>
      have hes : es ≠ [] := fun h => hmore (Or.inr (by rw [h]; rfl))
      have hrest := ih (by omega) (by omega) hnum (gathered ++ [e.stamped]) lastApplied (Or.inl hes)
      obtain ⟨e', es, rfl⟩ := exists_cons_of_ne_nil hes
      exact ⟨hrest.failure, hrest.sequences, by rw [hrest.contents]; simp, hrest.lastApplied, hrest.watermark⟩

theorem numbered_last (h : Numbered n es) : ∀ e ∈ es.getLast?, e.index + 1 = UInt64.ofNat (n + es.length) := by
  induction es generalizing n with
  | nil => simp
  | cons e es ih =>
    obtain ⟨hindex, hnum⟩ := h
    cases es with
    | nil => simp [hindex, UInt64.ofNat_add]
    | cons e' es =>
      intro x hx
      rw [ih hnum x hx, length_cons (a := e)]
      congr 1
      omega

theorem receive_covers (sizeVT : Command → ℕ) (hn : 0 < n)
    (hlt : n + messages.flatten.length ≤ 2 ^ 64) (hnum : Numbered n messages.flatten) (hne : ∀ m ∈ messages, m ≠ []) :
    Covers (receive sizeVT (messages.map (List.map RaftEntry.sent)) (UInt64.ofNat n)) [] messages.flatten := by
  induction messages generalizing n with
  | nil => exact ⟨rfl, by simp [receive], rfl, by simp, rfl⟩
  | cons m messages ih =>
    rw [flatten_cons, numbered_append] at hnum
    rw [forall_mem_cons] at hne
    simp only [flatten_cons, length_append] at hlt
    have hbatch := proposeLoop_covers sizeVT hn (by omega) hnum.1 [] 0 (Or.inl hne.1)
    have hlast := numbered_last hnum.1
    rw [List.getLast?_eq_some_getLast hne.1] at hlast
    have happlied := hbatch.lastApplied _ (List.getLast?_eq_some_getLast hne.1)
    have hrest := ih (n := n + m.length) (by omega) (by omega) hnum.2 hne.2
    rw [← hlast _ rfl, ← happlied] at hrest
    have hm : m.map RaftEntry.sent ≠ [] := by simpa using hne.1
    rw [map_cons, receive, proposeBatch, if_neg hm]
    simp only [hbatch.failure, flatten_cons]
    refine ⟨hrest.failure, ?_, ?_, ?_, ?_⟩
    · intro p hp
      rcases mem_append.mp hp with hp | hp
      · exact hbatch.sequences p hp
      · exact hrest.sequences p hp
    · change List.flatMap _ (_ ++ _) = _
      rw [flatMap_append]
      change contents _ ++ contents _ = _
      rw [hbatch.contents, hrest.contents]
      simp
    · intro e he
      cases messages with
      | nil =>
        rw [flatten_nil, append_nil] at he
        simp [receive, hbatch.lastApplied e he]
      | cons m' messages =>
        rw [List.getLast?_append_of_ne_nil _ (by simp [hne.2 m' (by simp)])] at he
        exact hrest.lastApplied e he
    · cases messages with
      | nil => simpa [receive] using hbatch.watermark
      | cons m' messages =>
        have hm' : (m' :: messages).flatten ≠ [] := by simp [hne.2 m' (by simp)]
        rw [List.getLast?_append_of_ne_nil _ hm', ← hrest.watermark,
          List.getLast?_append_of_ne_nil _ (hrest.proposed_ne_nil hm')]

/-! ### Elementary commands on both sides -/

theorem leaves_leaderIndex (s : UInt64) (cmd : Command) (leaderIndex : Option UInt64) :
    leaves s { cmd with leaderIndex := leaderIndex } = leaves s cmd := by
  cases cmd
  unfold leaves
  rfl

theorem applied_leaves (hdec : e.payload ≠ .encoded none)
    (hown : ∀ cmd, e.payload = .encoded (some cmd) → ∀ leaderIndex ∈ cmd.leaderIndex, leaderIndex = e.index) :
    (e.applied.toList.flatMap Entry.leaves).filter (fun a => a.2.type ≠ .dummy) =
    (leaves e.index e.stamped).filter (fun a => a.2.type ≠ .dummy) := by
  obtain ⟨index, (_ | cmd) | _⟩ := e
  · exact absurd rfl hdec
  · have hseqno : cmd.leaderIndex.getD index = index := by
      cases hl : cmd.leaderIndex with
      | none => rfl
      | some leaderIndex => exact hown cmd rfl leaderIndex hl
    simp [RaftEntry.applied, RaftEntry.stamped, Entry.leaves, hseqno, leaves_leaderIndex]
  · simp [RaftEntry.applied, RaftEntry.stamped, leaves_of_ne, Command.ofType]

variable {log : List RaftEntry}

theorem shipped_leaves (hlog : IsLeaderLog log) :
    ((log.filterMap RaftEntry.applied).flatMap Entry.leaves).filter (fun a => a.2.type ≠ .dummy) =
    (log.flatMap fun e => leaves e.index e.stamped).filter (fun a => a.2.type ≠ .dummy) := by
  obtain ⟨-, -, hdec, hown⟩ := hlog
  induction log with
  | nil => rfl
  | cons e log ih =>
    rw [forall_mem_cons] at hdec hown
    have hhead := applied_leaves hdec.1 hown.1
    have htail := ih hdec.2 hown.2
    rw [flatMap_cons, filter_append, ← hhead, ← htail, ← filter_append, ← flatMap_append]
    cases h : e.applied with
    | none => simp [h]
    | some entry => simp [h]

theorem mapM_replicateCommands (h : ∀ e ∈ messages.flatten, e.payload ≠ .encoded none) :
    messages.mapM replicateCommands = .ok (messages.map (List.map RaftEntry.sent)) := by
  induction messages with
  | nil => rfl
  | cons m messages ih =>
    rw [flatten_cons, forall_mem_append] at h
    rw [mapM_cons, replicateCommands_eq h.1, ih h.2]
    rfl

theorem lastLeaderIndex_eq {entries : List Entry} {proposed : List Command}
    (h : entries.map Entry.cmd = proposed.map some) :
    lastLeaderIndex entries = proposed.getLast?.bind Command.leaderIndex := by
  have hlast := congrArg List.getLast? h
  rw [List.getLast?_map, List.getLast?_map] at hlast
  rw [lastLeaderIndex]
  cases he : entries.getLast? with
  | none => cases hp : proposed.getLast? with
    | none => rfl
    | some p => simp [he, hp] at hlast
  | some e => cases hp : proposed.getLast? with
    | none => simp [he, hp] at hlast
    | some p =>
      have hcmd : e.cmd = some p := by simpa [he, hp] using hlast
      simp [Entry.leaderIndex, hcmd]

theorem runBatches_sameTable {batches' : List (List Entry)}
    (hdec : ∀ e ∈ batches.flatten, e.cmd ≠ none) (hdec' : ∀ e ∈ batches'.flatten, e.cmd ≠ none)
    (h : (runLeaves batches).filter (fun a => a.2.type ≠ .dummy) =
    (runLeaves batches').filter (fun a => a.2.type ≠ .dummy)) (p : FSM) :
    Agree (fun r r' => SameTable r.2.db r'.2.db) (runAll updateStep batches p) (runAll updateStep batches' p) := by
  have hrun := (runBatches_agree hdec (SameTable.refl p.db)).trans
    (runAll_without_dummies physical (runLeaves batches) p.db)
  have hrun' := (runBatches_agree hdec' (SameTable.refl p.db)).trans
    (runAll_without_dummies physical (runLeaves batches') p.db)
  rw [h] at hrun
  refine (hrun.trans hrun'.symm).mono ?_
  rintro r r' ⟨x, ⟨y, hry, hyx⟩, z, hr'z, hzx⟩
  rw [hyx] at hry
  rw [hzx] at hr'z
  exact hry.trans hr'z.symm

theorem applied_cmd (hdec : ∀ e ∈ log, e.payload ≠ .encoded none) :
    ∀ entry ∈ log.filterMap RaftEntry.applied, entry.cmd ≠ none := by
  intro entry hentry
  obtain ⟨⟨index, (_ | cmd) | _⟩, he, happlied⟩ := mem_filterMap.mp hentry
  · exact absurd rfl (hdec _ he)
  · cases happlied
    simp
  · cases happlied

section
variable {r : Proposals} {log : List RaftEntry} (h : Covers r [] log) {entries : List Entry}
  (hcmd : entries.map Entry.cmd = r.proposed.map some)
include h hcmd

/-- Entries that hold what was proposed for a log run the elementary commands of the
log, each at its own index. -/
theorem Covers.leaves : entries.flatMap Entry.leaves = log.flatMap fun e => leaves e.index e.stamped := by
  have hcontents : r.proposed.flatMap Command.sequence = log.map RaftEntry.stamped := h.contents
  have hseq : ∀ p ∈ r.proposed, p.type = .sequence := by
    intro p hp
    obtain ⟨leaderIndex, seq, rfl⟩ := h.sequences p hp
    rfl
  have hown : ∀ c ∈ r.proposed.flatMap Command.sequence, c.leaderIndex ≠ none := by
    rw [hcontents]
    intro c hc
    obtain ⟨e, -, rfl⟩ := mem_map.mp hc
    simp [e.stamped_leaderIndex]
  have hall := sequences_leaves hcmd hseq hown
  rw [hcontents] at hall
  rw [hall]
  simp [flatMap_map, RaftEntry.stamped_leaderIndex]

theorem Covers.cmd_ne_none : ∀ e ∈ entries, e.cmd ≠ none ∧ e.leaderIndex ≠ none := by
  intro e he
  have hmem := mem_map_of_mem (f := Entry.cmd) he
  rw [hcmd, mem_map] at hmem
  obtain ⟨p, hp, heq⟩ := hmem
  obtain ⟨leaderIndex, seq, rfl⟩ := h.sequences p hp
  simp [Entry.leaderIndex, ← heq, sequenceOf]

theorem Covers.lastLeaderIndex (hlog : Numbered 1 log) :
    (lastLeaderIndex entries).getD 0 = UInt64.ofNat log.length := by
  rw [lastLeaderIndex_eq hcmd, h.watermark]
  cases hlast : log.getLast? with
  | none =>
    rw [List.getLast?_eq_none_iff.mp hlast]
    rfl
  | some e =>
    have hindex := numbered_last hlog e hlast
    rw [Nat.add_comm, UInt64.ofNat_add] at hindex
    exact add_right_cancel hindex

end

theorem Covers.follower (h : Covers r [] log) (hlog : IsLeaderLog log) {leaderBatches : List (List Entry)}
    (hbatches : leaderBatches.flatten = log.filterMap RaftEntry.applied) {leader : FSM} {rs : List (List EntryResult)}
    (hleader : runAll updateStep leaderBatches FSM.fresh = .ok (rs, leader))
    (hcmd : batches.flatten.map Entry.cmd = r.proposed.map some) :
    ∃ rs' follower, runAll updateStep batches FSM.fresh = .ok (rs', follower) ∧ SameTable follower.db leader.db ∧
    readLocalIndex follower.db sysLeaderIndex = UInt64.ofNat log.length := by
  have hcmds := h.cmd_ne_none hcmd
  have hagree := runBatches_sameTable (fun e he => (hcmds e he).1)
    (by rw [hbatches]; exact applied_cmd hlog.decodes)
    (by rw [runLeaves, h.leaves hcmd, ← shipped_leaves hlog, runLeaves, hbatches]) FSM.fresh
  rw [hleader] at hagree
  obtain ⟨⟨rs', follower⟩, hfollower, hsame⟩ := hagree.ok_right
  refine ⟨rs', follower, hfollower, hsame, ?_⟩
  rw [runBatches_leaderIndex (fun e he => (hcmds e he).2) hfollower]
  exact h.lastLeaderIndex hcmd hlog.index

/-- A follower that starts empty and applies what the worker proposes for the log of a leader,
however it is cut into messages, sequences and batches, ends with the versions of the leader and
the length of the log as its leader index. -/
theorem follower_matches_leader (sizeVT : Command → ℕ) (log : List RaftEntry) (hlog : IsLeaderLog log)
    (messages : List (List RaftEntry)) (hcut : messages.flatten = log) (hne : ∀ m ∈ messages, m ≠ [])
    (leaderBatches : List (List Entry)) (hbatches : leaderBatches.flatten = log.filterMap RaftEntry.applied)
    (leader : FSM) (rs : List (List EntryResult))
    (hleader : runAll updateStep leaderBatches FSM.fresh = .ok (rs, leader)) :
    ∃ stream, messages.mapM replicateCommands = .ok stream ∧ (receive sizeVT stream 1).failure = none ∧
      ∀ batches : List (List Entry), batches.flatten.map Entry.cmd = (receive sizeVT stream 1).proposed.map some →
        ∃ rs' follower, runAll updateStep batches FSM.fresh = .ok (rs', follower) ∧ SameUser follower.db leader.db ∧
          readLocalIndex follower.db sysLeaderIndex = UInt64.ofNat log.length := by
  subst hcut
  have hcovers := receive_covers sizeVT (n := 1) Nat.one_pos (by have := hlog.length_lt; omega)
    hlog.index hne
  refine ⟨_, mapM_replicateCommands hlog.decodes, hcovers.failure, fun batches hcmd => ?_⟩
  obtain ⟨rs', follower, hrun, hsame, hindex⟩ := hcovers.follower hlog hbatches hleader hcmd
  exact ⟨rs', follower, hrun, hsame.sameUser, hindex⟩

/-- A put, an entry that is not for the state machine, and a sequence whose second
child carries a leader index of its own. -/
def sampleLog : List RaftEntry :=
  [⟨1, .encoded (some { Command.ofType .put with kv := some ⟨[0x61], [0x31]⟩ })⟩,
    ⟨2, .other⟩,
    ⟨3, .encoded (some { Command.ofType .sequence with
      sequence := [{ Command.ofType .delete with kv := some ⟨[0x61], []⟩ },
        { Command.ofType .put with kv := some ⟨[0x62], [0x32]⟩, leaderIndex := some 7 }] })⟩]

theorem sampleLog_isLeaderLog : IsLeaderLog sampleLog where
  length_lt := by decide
  index := ⟨rfl, rfl, rfl, trivial⟩
  decodes := by simp [sampleLog]
  own := by
    simp only [sampleLog, forall_mem_cons, Payload.encoded.injEq, Option.some.injEq]
    refine ⟨?_, ?_, ?_, by simp⟩
    · rintro cmd rfl leaderIndex h
      cases h
    · rintro cmd h
      cases h
    · rintro cmd rfl leaderIndex h
      cases h

theorem follower_matches_leader_sampleLog :
    ∃ leader rs, runAll updateStep [sampleLog.filterMap RaftEntry.applied] FSM.fresh = .ok (rs, leader) ∧
      ∃ stream, [sampleLog.take 1, sampleLog.drop 1].mapM replicateCommands = .ok stream ∧
        (receive (fun _ => 0) stream 1).failure = none ∧ ∀ batches : List (List Entry),
          batches.flatten.map Entry.cmd = (receive (fun _ => 0) stream 1).proposed.map some →
          ∃ rs' follower, runAll updateStep batches FSM.fresh = .ok (rs', follower) ∧ SameUser follower.db leader.db ∧
            readLocalIndex follower.db sysLeaderIndex = UInt64.ofNat sampleLog.length :=
  ⟨_, _, rfl, follower_matches_leader (fun _ => 0) sampleLog sampleLog_isLeaderLog
    [sampleLog.take 1, sampleLog.drop 1] rfl (by simp [sampleLog])
    [sampleLog.filterMap RaftEntry.applied] rfl _ _ rfl⟩

end Armada.Replication
