import Mathlib.Data.List.Range
import Mathlib.Tactic.Cases

/-! A replicated state machine that keeps its data on disk. The data is durable up to an
index of its own when the process starts, the log is handed out again from an earlier index
and in overlapping pages, and snapshots move the replica forward with or without replacing
the data. -/

namespace Armada.Rsm

inductive EntryKind where
  /-- a command for the state machine -/
  | application
  | empty
  | configChange
  deriving DecidableEq

structure Entry where
  index : ℕ
  term : ℕ
  kind : EntryKind

/-- The committed log. Terms do not go down along it. -/
structure Log where
  term : ℕ → ℕ
  kind : ℕ → EntryKind
  term_pos : ∀ i, 0 < term i
  term_mono : ∀ i, term i ≤ term (i + 1)

namespace Log

def entry (log : Log) (i : ℕ) : Entry := ⟨i, log.term i, log.kind i⟩

/-- A page of the log as it is handed out. -/
def page (log : Log) (first count : ℕ) : List Entry := (List.range' first count).map log.entry

def IsApplication (log : Log) (i : ℕ) : Prop := log.kind i = .application

end Log

structure Snapshot where
  index : ℕ
  term : ℕ
  /-- how far the data was when the snapshot was taken -/
  onDiskIndex : ℕ
  /-- without the data, as a replica saves for itself -/
  dummy : Bool
  /-- without the data, which was removed after it was loaded -/
  shrunk : Bool
  /-- brought in by hand -/
  imported : Bool
  deriving DecidableEq

structure StateMachine where
  index : ℕ
  term : ℕ
  lastApplied : ℕ
  lastAppliedTerm : ℕ
  onDiskInitIndex : ℕ
  onDiskIndex : ℕ
  /-- the index up to which the data was there when it was opened or loaded -/
  base : ℕ
  /-- the indexes passed to `Update` since then -/
  updates : List ℕ
  deriving DecidableEq

/-- The entries of a page that were not applied before. A page that leaves a hole is an error. -/
def entriesToApply (entries : List Entry) (applied : ℕ) : Option (List Entry) :=
  match entries.head?, entries.getLast? with
  | some first, some last =>
    if last.index ≤ applied then some []
    else if applied + 1 < first.index then none
    else some (entries.drop (applied + 1 - first.index))
  | _, _ => some []

namespace StateMachine

variable (s : StateMachine)

/-- Open returns how far the data is durable. -/
def openOnDisk (index : ℕ) : StateMachine := ⟨0, 0, 0, 0, index, index, index, []⟩

def entryInInitDiskSM (index : ℕ) : Bool := index ≤ s.onDiskInitIndex

def setApplied (e : Entry) : Option StateMachine :=
  if s.index + 1 ≠ e.index then none
  else if e.term < s.term then none
  else some { s with index := e.index, term := e.term }

def setAppliedAll (s : StateMachine) : List Entry → Option StateMachine
  | [] => some s
  | e :: es => do
    let s ← s.setApplied e
    s.setAppliedAll es

def setOnDiskIndex (first last : ℕ) : Option StateMachine :=
  if last < first then none
  else if first ≤ s.onDiskInitIndex then none
  else if first ≤ s.onDiskIndex then none
  else some { s with onDiskIndex := last }

def update (e : Entry) : Option StateMachine := do
  let s ← { s with updates := s.updates ++ [e.index] }.setOnDiskIndex e.index e.index
  s.setApplied e

def handleEntry (e : Entry) : Option StateMachine :=
  match e.kind with
  | .configChange => s.setApplied e
  | .empty => s.setApplied e
  | .application =>
    if !s.entryInInitDiskSM e.index then s.update e
    -- the data has it already
    else s.setApplied e

def handleEntries (s : StateMachine) : List Entry → Option StateMachine
  | [] => some s
  | e :: es => do
    let s ← s.handleEntry e
    s.handleEntries es

/-- The entries that the data has already only move the index, the rest is one update. -/
def handleBatch (input : List Entry) : Option StateMachine := do
  let s ← s.setAppliedAll (input.filter fun e : Entry => s.entryInInitDiskSM e.index)
  let ents : List Entry := input.filter fun e => !s.entryInInitDiskSM e.index
  match ents.head?, ents.getLast? with
  | some first, some last => do
    let s ← { s with updates := s.updates ++ ents.map Entry.index }.setAppliedAll ents
    s.setOnDiskIndex first.index last.index
  | _, _ => some s

/-- Indexes and terms of a task, one after the other. -/
def Aligned : List Entry → Bool
  | e :: e' :: es => e'.index = e.index + 1 ∧ e.term ≤ e'.term ∧ Aligned (e' :: es)
  | _ => true

def setLastApplied (entries : List Entry) : Option StateMachine :=
  match entries.head?, entries.getLast? with
  | some first, some last =>
    if entries.any (fun e => e.index = 0 ∨ e.term = 0) ∨ !Aligned entries then none
    else if s.lastApplied + 1 ≠ first.index ∨ first.term < s.lastAppliedTerm then none
    else some { s with lastApplied := last.index, lastAppliedTerm := last.term }
  | _, _ => some s

def handleAll (entries : List Entry) : Option StateMachine :=
  if entries.all (·.kind = .application) then s.handleBatch entries else s.handleEntries entries

/-- One task of entries. -/
def handleTask (task : List Entry) : Option StateMachine := do
  let entries ← entriesToApply task s.index
  let s ← s.handleAll entries
  s.setLastApplied entries

def recoverRequired (ss : Snapshot) (init : Bool) : Bool :=
  if init then ss.imported || s.onDiskInitIndex < ss.onDiskIndex else s.onDiskIndex < ss.onDiskIndex

def checkRecoverOnDiskSM (ss : Snapshot) (init : Bool) : Bool :=
  ss.imported && init || s.onDiskInitIndex < ss.onDiskIndex && s.onDiskIndex < ss.onDiskIndex

def checkPartialSnapshotApplyOnDiskSM (ss : Snapshot) (init : Bool) : Bool :=
  if init then ss.onDiskIndex ≤ s.onDiskInitIndex else ss.onDiskIndex ≤ s.onDiskIndex

def applyOnDisk (ss : Snapshot) (init : Bool) : StateMachine :=
  { s with
    onDiskIndex := ss.onDiskIndex
    onDiskInitIndex := if ss.imported && init then ss.onDiskIndex else s.onDiskInitIndex
    base := ss.onDiskIndex
    updates := [] }

/-- The data after a snapshot, which it may have already. -/
def doRecover (ss : Snapshot) (init : Bool) : Option StateMachine :=
  if !init ∧ ss.shrunk ∧ !ss.dummy then none
  else if ss.dummy ∨ ss.shrunk then
    if s.checkPartialSnapshotApplyOnDiskSM ss init then some s else none
  else if s.recoverRequired ss init then
    if s.checkRecoverOnDiskSM ss init then some (s.applyOnDisk ss init) else none
  else some s

def apply (ss : Snapshot) : StateMachine :=
  { s with index := ss.index, term := ss.term, lastApplied := ss.index, lastAppliedTerm := ss.term }

/-- A snapshot that is out of date is refused and changes nothing. -/
def recover (ss : Snapshot) (init : Bool) : Option StateMachine :=
  if ss.index ≤ s.lastApplied then some s
  else do
    let s ← s.doRecover ss init
    some (s.apply ss)

def readyToStream : Bool := s.onDiskInitIndex ≤ s.lastApplied

def dummySnapshot : Snapshot := ⟨s.index, s.term, s.onDiskIndex, true, false, false⟩

def fullSnapshot (shrunk imported : Bool) : Snapshot :=
  ⟨s.index, s.term, s.onDiskIndex, false, shrunk, imported⟩

end StateMachine

open StateMachine List

mutual

/-- The states of the replicas of a shard. -/
inductive Reachable (log : Log) : StateMachine → Prop
  /-- a process starts without a snapshot, on data that is durable up to any index -/
  | opened (durable : ℕ) : Reachable log (openOnDisk durable)
  | restarted (durable : ℕ) {ss : Snapshot} {s : StateMachine} (hss : Taken log ss)
      (h : (openOnDisk durable).recover ss true = some s) : Reachable log s
  | handled {s s' : StateMachine} (first count : ℕ) (hs : Reachable log s) (hfirst : 0 < first)
      (h : s.handleTask (log.page first count) = some s') : Reachable log s'
  | recovered {s s' : StateMachine} {ss : Snapshot} (hs : Reachable log s) (hss : Taken log ss)
    (hlocal : ss.imported = false)
      (h : s.recover ss false = some s') : Reachable log s'

/-- The snapshots that a replica takes, possibly between two entries of a task. -/
inductive Taken (log : Log) : Snapshot → Prop
  | dummy {s mid : StateMachine} (count : ℕ) (hs : Reachable log s)
      (h : s.handleEntries (log.page (s.index + 1) count) = some mid) : Taken log mid.dummySnapshot
  | streamed {s mid : StateMachine} (count : ℕ) (shrunk : Bool) (hs : Reachable log s)
      (h : s.handleEntries (log.page (s.index + 1) count) = some mid) (hready : mid.readyToStream) :
      Taken log (mid.fullSnapshot shrunk false)
  | exported {s mid : StateMachine} (count : ℕ) (shrunk : Bool) (hs : Reachable log s)
      (h : s.handleEntries (log.page (s.index + 1) count) = some mid) : Taken log (mid.fullSnapshot shrunk true)

end

/-! ### Pages -/

namespace Log

variable (log : Log)

@[simp] theorem page_zero (first : ℕ) : log.page first 0 = [] := rfl

theorem page_succ (first count : ℕ) : log.page first (count + 1) = log.entry first :: log.page (first + 1) count := by
  simp [page, List.range'_succ]

theorem head?_page_succ (first count : ℕ) : (log.page first (count + 1)).head? = some (log.entry first) := by
  simp [page_succ]

theorem getLast?_page_succ (first count : ℕ) :
    (log.page first (count + 1)).getLast? = some (log.entry (first + count)) := by
  simp [page, List.range'_concat]

theorem drop_page (first count n : ℕ) : (log.page first count).drop n = log.page (first + n) (count - n) := by
  simp [page, ← map_drop, drop_range']

variable {first count applied : ℕ}

theorem mem_page {e : Entry} : e ∈ log.page first count ↔ ∃ i, first ≤ i ∧ i < first + count ∧ e = log.entry i := by
  simp [page, mem_range'_1, and_assoc, eq_comm]

theorem page_append (first m n : ℕ) : log.page first (m + n) = log.page first m ++ log.page (first + m) n := by
  simp [page, ← map_append, List.range'_append_1]

theorem map_index_page (first count : ℕ) : (log.page first count).map Entry.index = List.range' first count := by
  simp [page, Function.comp_def, entry]

theorem entriesToApply_page {entries : List Entry}
    (h : entriesToApply (log.page first count) applied = some entries) : ∃ n, entries = log.page (applied + 1) n := by
  cases count with
  | zero =>
    cases h
    exact ⟨0, rfl⟩
  | succ count =>
    simp only [entriesToApply, head?_page_succ, getLast?_page_succ] at h
    split_ifs at h with hold hhole
    · cases h
      exact ⟨0, rfl⟩
    · cases h
      rw [drop_page]
      simp only [entry] at hhole ⊢
      exact ⟨_, by rw [show first + (applied + 1 - first) = applied + 1 by omega]⟩

/-- A page that starts no later than the next index is applied up to its end. -/
theorem entriesToApply_page_eq (h : first ≤ applied + 1) :
    entriesToApply (log.page first count) applied = some (log.page (applied + 1) (first + count - (applied + 1))) := by
  cases count with
  | zero =>
    rw [show first + 0 - (applied + 1) = 0 by omega]
    rfl
  | succ count =>
    simp only [entriesToApply, head?_page_succ, getLast?_page_succ]
    split_ifs with hold hhole
    · simp only [entry] at hold
      rw [show first + (count + 1) - (applied + 1) = 0 by omega]
      rfl
    · simp only [entry] at hhole
      omega
    · simp only [drop_page, entry]
      rw [show first + (applied + 1 - first) = applied + 1 by omega,
        show count + 1 - (applied + 1 - first) = first + (count + 1) - (applied + 1) by omega]

theorem aligned_page (first count : ℕ) : Aligned (log.page first count) := by
  induction count generalizing first with
  | zero => rfl
  | succ count ih =>
    cases count with
    | zero => rfl
    | succ count =>
      have := ih (first + 1)
      rw [page_succ] at this ⊢
      rw [page_succ]
      simpa [Aligned, entry, log.term_mono first] using this

end Log

/-! ### What every step keeps -/

section

variable {log : Log} {s s' : StateMachine}

/-- The cursors of a state machine and what its data has seen. -/
structure Kept (log : Log) (s : StateMachine) : Prop where
  term : s.term ≤ log.term (s.index + 1)
  disk : s.onDiskIndex ≤ max s.onDiskInitIndex s.index
  init : s.onDiskInitIndex ≤ s.onDiskIndex
  covered : ∀ i ≤ s.index, log.IsApplication i → i ≤ s.onDiskIndex
  /-- what is skipped from here on is what the data had from the start -/
  known : ∀ i, s.index < i → log.IsApplication i → (i ≤ s.onDiskInitIndex ↔ i ≤ s.base)
  mem : ∀ i, i ∈ s.updates ↔ s.base < i ∧ i ≤ s.index ∧ log.IsApplication i
  sorted : s.updates.Pairwise (· < ·)

/-- No task is half done. -/
structure Settled (log : Log) (s : StateMachine) : Prop where
  lastApplied : s.lastApplied = s.index
  term : s.lastAppliedTerm ≤ log.term (s.index + 1)

theorem kept_openOnDisk (durable : ℕ) : Kept log (openOnDisk durable) where
  term := Nat.zero_le _
  disk := by simp [openOnDisk]
  init := by simp [openOnDisk]
  covered i hi _ := by
    simp only [openOnDisk] at hi ⊢
    omega
  known i _ _ := by simp [openOnDisk]
  mem i := by
    simp only [openOnDisk, not_mem_nil, false_iff]
    omega
  sorted := List.Pairwise.nil

variable {n t k count : ℕ} {ss : Snapshot} {init : Bool}

theorem Kept.skip (h : Kept log s) (ht : t ≤ log.term (s.index + n + 1))
    (hskip : ∀ i, s.index < i → i ≤ s.index + n → log.IsApplication i → i ≤ s.onDiskInitIndex) :
    Kept log { s with index := s.index + n, term := t } := { h with
  term := ht
  disk := by
    have := h.disk
    simp only
    omega
  covered i hi happ := by
    by_cases hold : i ≤ s.index
    · exact h.covered i hold happ
    · have := hskip i (by omega) hi happ
      have := h.init
      simp only
      omega
  known i hi happ := h.known i (by simp only at hi; omega) happ
  mem i := by
    rw [h.mem i]
    refine ⟨fun ⟨hbase, hi, happ⟩ => ⟨hbase, by simp only; omega, happ⟩, fun ⟨hbase, hi, happ⟩ => ⟨hbase, ?_, happ⟩⟩
    by_contra hnew
    have hle := (h.known i (by omega) happ).mp (hskip i (by omega) hi happ)
    simp only at hbase
    omega }

theorem Kept.block (h : Kept log s) (hn : 0 < n) (ht : t ≤ log.term (s.index + n + 1))
    (hall : ∀ i, s.index < i → i ≤ s.index + n → log.IsApplication i ∧ s.onDiskInitIndex < i) : Kept log { s with
      index := s.index + n
      term := t
      onDiskIndex := s.index + n
      updates := s.updates ++ List.range' (s.index + 1) n } where
  term := ht
  disk := Nat.le_max_right _ _
  init := by
    have := (hall (s.index + n) (by omega) le_rfl).2
    simp only
    omega
  covered i hi _ := hi
  known i hi happ := h.known i (by simp only at hi; omega) happ
  mem i := by
    simp only [mem_append, h.mem i, mem_range'_1]
    constructor
    · rintro (⟨hbase, hi, happ⟩ | ⟨hlo, hhi⟩)
      · exact ⟨hbase, by omega, happ⟩
      · obtain ⟨happ, hinit⟩ := hall i (by omega) (by omega)
        have := h.known i (by omega) happ
        exact ⟨by omega, by omega, happ⟩
    · rintro ⟨hbase, hi, happ⟩
      by_cases hold : i ≤ s.index
      · exact .inl ⟨hbase, hold, happ⟩
      · exact .inr ⟨by omega, by omega⟩
  sorted := by
    refine pairwise_append.mpr ⟨h.sorted, pairwise_lt_range', fun a ha b hb => ?_⟩
    have := ((h.mem a).mp ha).2.1
    rw [mem_range'_1] at hb
    omega

theorem setApplied_next {e : Entry} (hindex : e.index = s.index + 1) (hterm : s.term ≤ e.term) :
    s.setApplied e = some { s with index := e.index, term := e.term } := by
  rw [setApplied, if_neg (by omega), if_neg (by omega)]

theorem setAppliedAll_page (n : ℕ) (h : s.term ≤ log.term (s.index + 1)) : ∃ t ≤ log.term (s.index + n + 1),
    s.setAppliedAll (log.page (s.index + 1) n) = some { s with index := s.index + n, term := t } := by
  induction n generalizing s with
  | zero => exact ⟨s.term, h, rfl⟩
  | succ n ih =>
    have hnext := setApplied_next (s := s) (e := log.entry (s.index + 1)) rfl h
    obtain ⟨t, ht, hrest⟩ := @ih { s with index := s.index + 1, term := log.term (s.index + 1) } (log.term_mono _)
    refine ⟨t, by simpa only [Nat.add_assoc, Nat.add_comm 1] using ht, ?_⟩
    rw [Log.page_succ, setAppliedAll, hnext]
    simpa [Log.entry, Nat.add_right_comm, Nat.add_assoc] using hrest

theorem handleEntry_kept (h : Kept log s) :
    ∃ s', s.handleEntry (log.entry (s.index + 1)) = some s' ∧ Kept log s' ∧ s'.index = s.index + 1 ∧
    s'.lastApplied = s.lastApplied ∧ s'.lastAppliedTerm = s.lastAppliedTerm ∧ s.onDiskIndex ≤ s'.onDiskIndex := by
  have hnext := setApplied_next (s := s) (e := log.entry (s.index + 1)) rfl h.term
  have hterm : log.term (s.index + 1) ≤ log.term (s.index + 1 + 1) := log.term_mono _
  by_cases hskip : log.IsApplication (s.index + 1) → s.index + 1 ≤ s.onDiskInitIndex
  · refine ⟨_, ?_, h.skip (n := 1) hterm fun i hlo hhi happ => ?_, rfl, rfl, rfl, le_rfl⟩
    · rw [handleEntry]
      split
      · exact hnext
      · exact hnext
      · rename_i hkind
        have hin : s.entryInInitDiskSM (log.entry (s.index + 1)).index = true := decide_eq_true (hskip hkind)
        rw [if_neg (by simp [hin])]
        exact hnext
    · obtain rfl : i = s.index + 1 := by omega
      exact hskip happ
  · rw [Classical.not_imp] at hskip
    obtain ⟨happ, hinit⟩ := hskip
    have hdisk := h.disk
    refine ⟨_, ?_, h.block (n := 1) (by decide) hterm fun i hlo hhi => ?_, rfl, rfl, rfl, by simp only; omega⟩
    · rw [handleEntry, show (log.entry (s.index + 1)).kind = .application from happ]
      have hin : s.entryInInitDiskSM (log.entry (s.index + 1)).index = false := decide_eq_false hinit
      simp only
      rw [if_pos (by simp [hin]), update, setOnDiskIndex, if_neg (by omega),
        if_neg (by simp only [Log.entry]; omega), if_neg (by simp only [Log.entry]; omega)]
      exact setApplied_next rfl h.term
    · obtain rfl : i = s.index + 1 := by omega
      exact ⟨happ, by omega⟩

theorem handleEntries_kept (h : Kept log s) (n : ℕ) :
    ∃ s', s.handleEntries (log.page (s.index + 1) n) = some s' ∧ Kept log s' ∧ s'.index = s.index + n ∧
    s'.lastApplied = s.lastApplied ∧ s'.lastAppliedTerm = s.lastAppliedTerm ∧ s.onDiskIndex ≤ s'.onDiskIndex := by
  induction n generalizing s with
  | zero => exact ⟨s, rfl, h, rfl, rfl, rfl, le_rfl⟩
  | succ n ih =>
    obtain ⟨s1, h1, hkept, hindex, hlast, hlastTerm, hdisk⟩ := handleEntry_kept h
    obtain ⟨s2, h2, hkept', hindex', hlast', hlastTerm', hdisk'⟩ := ih hkept
    refine ⟨s2, ?_, hkept', by omega, hlast'.trans hlast, hlastTerm'.trans hlastTerm, Nat.le_trans hdisk hdisk'⟩
    rw [Log.page_succ, handleEntries, h1]
    rw [hindex] at h2
    exact h2

theorem entryInInitDiskSM_entry (s : StateMachine) (log : Log) (i : ℕ) :
    s.entryInInitDiskSM (log.entry i).index = decide (i ≤ s.onDiskInitIndex) := rfl

theorem filter_entryInInitDiskSM_page (log : Log) (hk : k = min n (s.onDiskInitIndex - s.index)) :
    (log.page (s.index + 1) n).filter (fun e => s.entryInInitDiskSM e.index) = log.page (s.index + 1) k := by
  rw [show n = k + (n - k) by omega, Log.page_append, filter_append, filter_eq_self.mpr, filter_eq_nil_iff.mpr,
    append_nil]
  all_goals
    intro e he
    obtain ⟨i, hlo, hhi, rfl⟩ := log.mem_page.mp he
    simp only [entryInInitDiskSM_entry, decide_eq_true_eq]
    omega

theorem filter_not_entryInInitDiskSM_page (log : Log) (hk : k = min n (s.onDiskInitIndex - s.index)) :
    (log.page (s.index + 1) n).filter (fun e => !s.entryInInitDiskSM e.index) = log.page (s.index + k + 1) (n - k) := by
  rw [show n = k + (n - k) by omega, Log.page_append, filter_append, filter_eq_nil_iff.mpr, filter_eq_self.mpr,
    nil_append, Nat.add_sub_cancel_left, Nat.add_right_comm]
  all_goals
    intro e he
    obtain ⟨i, hlo, hhi, rfl⟩ := log.mem_page.mp he
    simp only [entryInInitDiskSM_entry, Bool.not_eq_true', decide_eq_false_iff_not]
    omega

theorem handleBatch_kept (h : Kept log s) (n : ℕ) (hall : ∀ i, s.index < i → i ≤ s.index + n → log.IsApplication i) :
    ∃ s', s.handleBatch (log.page (s.index + 1) n) = some s' ∧ Kept log s' ∧ s'.index = s.index + n ∧
    s'.lastApplied = s.lastApplied ∧ s'.lastAppliedTerm = s.lastAppliedTerm ∧ s.onDiskIndex ≤ s'.onDiskIndex := by
  obtain ⟨k, hk⟩ : ∃ k, k = min n (s.onDiskInitIndex - s.index) := ⟨_, rfl⟩
  have hout := filter_not_entryInInitDiskSM_page log hk
  obtain ⟨t, ht, hskipped⟩ := setAppliedAll_page k h.term
  have hkept := h.skip ht fun i hlo hhi _ => by omega
  have hbatch : s.handleBatch (log.page (s.index + 1) n) =
      match (log.page (s.index + k + 1) (n - k)).head?, (log.page (s.index + k + 1) (n - k)).getLast? with
      | some first, some last => do
        let s' ← ({ s with
          index := s.index + k
          term := t
          updates := s.updates ++ List.range' (s.index + k + 1) (n - k) } : StateMachine).setAppliedAll
            (log.page (s.index + k + 1) (n - k))
        s'.setOnDiskIndex first.index last.index
      | _, _ => some { s with index := s.index + k, term := t } := by
    rw [handleBatch, filter_entryInInitDiskSM_page log hk, hskipped]
    simp only [Option.bind_eq_bind, Option.bind_some, entryInInitDiskSM] at hout ⊢
    rw [hout, Log.map_index_page]
  rw [hbatch]
  cases hm : n - k with
  | zero => exact ⟨_, rfl, hkept, by simp only; omega, rfl, rfl, le_rfl⟩
  | succ m =>
    obtain ⟨t', ht', hrest⟩ := setAppliedAll_page (s := { s with
      index := s.index + k
      term := t
      updates := s.updates ++ List.range' (s.index + k + 1) (m + 1) }) (m + 1) ht
    have hdisk := h.disk
    refine ⟨_, ?_, hkept.block (n := m + 1) (by omega) ht' fun i hlo hhi => ⟨hall i ?_ ?_, ?_⟩, ?_, rfl, rfl, ?_⟩
    · simp only [Log.head?_page_succ, Log.getLast?_page_succ, Option.bind_eq_bind]
      simp only at hrest
      rw [hrest, Option.bind_some, setOnDiskIndex, if_neg (by simp only [Log.entry]; omega),
        if_neg (by simp only [Log.entry]; omega), if_neg (by simp only [Log.entry]; omega)]
      simp only [Log.entry, Option.some.injEq, StateMachine.mk.injEq, true_and, and_true]
      omega
    · simp only at hlo
      omega
    · simp only at hhi
      omega
    · simp only at hlo ⊢
      omega
    · simp only
      omega
    · simp only
      omega

theorem handleAll_kept (h : Kept log s) (n : ℕ) :
    ∃ s', s.handleAll (log.page (s.index + 1) n) = some s' ∧ Kept log s' ∧ s'.index = s.index + n ∧
    s'.lastApplied = s.lastApplied ∧ s'.lastAppliedTerm = s.lastAppliedTerm ∧ s.onDiskIndex ≤ s'.onDiskIndex := by
  rw [handleAll]
  split_ifs with hall
  · refine handleBatch_kept h n fun i hlo hhi => ?_
    rw [all_eq_true] at hall
    have hkind := hall (log.entry i) (log.mem_page.mpr ⟨i, by omega, by omega, rfl⟩)
    rw [decide_eq_true_eq] at hkind
    exact hkind
  · exact handleEntries_kept h n

theorem setLastApplied_page (h : s.lastAppliedTerm ≤ log.term (s.lastApplied + 1)) :
    ∃ t ≤ log.term (s.lastApplied + n + 1), s.setLastApplied (log.page (s.lastApplied + 1) n) =
    some { s with lastApplied := s.lastApplied + n, lastAppliedTerm := t } := by
  cases n with
  | zero => exact ⟨s.lastAppliedTerm, h, rfl⟩
  | succ n =>
    have hvalid : ¬ ((log.page (s.lastApplied + 1) (n + 1)).any (fun e => e.index = 0 ∨ e.term = 0) ∨
        !Aligned (log.page (s.lastApplied + 1) (n + 1))) := by
      rw [Log.aligned_page]
      simp only [Bool.not_true, Bool.false_eq_true, or_false, any_eq_true, decide_eq_true_eq, not_exists, not_and]
      intro e he
      obtain ⟨i, hlo, hhi, rfl⟩ := log.mem_page.mp he
      have := log.term_pos i
      simp only [Log.entry]
      omega
    refine ⟨log.term (s.lastApplied + 1 + n), ?_, ?_⟩
    · have := log.term_mono (s.lastApplied + 1 + n)
      rwa [show s.lastApplied + (n + 1) + 1 = s.lastApplied + 1 + n + 1 by omega]
    · simp only [setLastApplied, Log.head?_page_succ, Log.getLast?_page_succ]
      rw [if_neg hvalid, if_neg (by simp only [Log.entry]; omega)]
      simp only [Log.entry, Nat.add_assoc, Nat.add_comm 1]

/-- A task that leaves no hole is handled, whatever of it was applied before. -/
theorem handleTask_kept (h : Kept log s) (hsettled : Settled log s) {task : List Entry}
    (htask : entriesToApply task s.index = some (log.page (s.index + 1) n)) :
    ∃ s', s.handleTask task = some s' ∧ Kept log s' ∧ Settled log s' ∧ s'.index = s.index + n ∧
    s.onDiskIndex ≤ s'.onDiskIndex := by
  obtain ⟨s1, h1, hkept, hindex, hlast, hlastTerm, hdisk⟩ := handleAll_kept h n
  have hlast' : s1.lastApplied = s.index := hlast.trans hsettled.lastApplied
  obtain ⟨t, ht, hset⟩ := setLastApplied_page (s := s1) (n := n) (by
    rw [hlast', hlastTerm]
    exact hsettled.term)
  rw [hlast'] at hset ht
  refine ⟨{ s1 with lastApplied := s.index + n, lastAppliedTerm := t }, ?_,
    ⟨hkept.term, hkept.disk, hkept.init, hkept.covered, hkept.known, hkept.mem, hkept.sorted⟩,
    ⟨hindex.symm, by rwa [hindex]⟩, hindex, hdisk⟩
  rw [handleTask, htask, Option.bind_eq_bind, Option.bind_some, h1]
  exact hset

/-! ### Snapshots -/

/-- What a snapshot says of the log and of the data. -/
structure Valid (log : Log) (ss : Snapshot) : Prop where
  term : ss.term ≤ log.term (ss.index + 1)
  covered : ∀ i ≤ ss.index, log.IsApplication i → i ≤ ss.onDiskIndex
  full : ss.dummy = false → ss.shrunk = false → ss.imported = false → ss.onDiskIndex ≤ ss.index

theorem Kept.jump (h : Kept log s) (hss : Valid log ss) (hdisk : ss.onDiskIndex ≤ s.onDiskIndex)
    (hindex : s.index < ss.index) : Kept log (s.apply ss) where
  term := hss.term
  disk := by
    have := h.disk
    simp only [apply]
    omega
  init := h.init
  covered i hi happ := Nat.le_trans (hss.covered i hi happ) hdisk
  known i hi happ := h.known i (by simp only [apply] at hi; omega) happ
  mem i := by
    simp only [apply, h.mem i]
    refine ⟨fun ⟨hbase, hi, happ⟩ => ⟨hbase, by omega, happ⟩, fun ⟨hbase, hi, happ⟩ => ⟨hbase, ?_, happ⟩⟩
    by_contra hnew
    have hcovered := hss.covered i hi happ
    have hmax := h.disk
    have := h.known i (by omega) happ
    omega
  sorted := h.sorted

theorem kept_applyOnDisk (hss : Valid log ss) (hfull : ss.dummy = false ∧ ss.shrunk = false)
    (hlocal : init = false → ss.imported = false) (hcheck : s.checkRecoverOnDiskSM ss init) :
    Kept log ((s.applyOnDisk ss init).apply ss) := by
  have hmem : ∀ i, i ∈ ([] : List ℕ) ↔ ss.onDiskIndex < i ∧ i ≤ ss.index ∧ log.IsApplication i := fun i => by
    simp only [not_mem_nil, false_iff]
    rintro ⟨hlo, hhi, happ⟩
    have := hss.covered i hhi happ
    omega
  by_cases himported : ss.imported ∧ init
  · have hcond : (ss.imported && init) = true := by simp [himported.1, himported.2]
    simp only [applyOnDisk, apply, hcond, if_true]
    exact ⟨hss.term, Nat.le_max_left _ _, le_rfl, hss.covered, fun _ _ _ => Iff.rfl, hmem, List.Pairwise.nil⟩
  · have hcond : (ss.imported && init) = false := by simpa using himported
    have hours : ss.imported = false := by
      cases init with
      | false => exact hlocal rfl
      | true => simpa using himported
    have hle := hss.full hfull.1 hfull.2 hours
    simp only [checkRecoverOnDiskSM, hcond, Bool.false_or, Bool.and_eq_true, decide_eq_true_eq] at hcheck
    simp only [applyOnDisk, apply, hcond]
    refine ⟨hss.term, Nat.le_trans hle (Nat.le_max_right _ _), Nat.le_of_lt hcheck.1, hss.covered, fun i hi _ =>
      ?_, hmem, List.Pairwise.nil⟩
    simp only [Bool.false_eq_true, if_false] at hi ⊢
    omega

theorem Kept.recover (h : Kept log s) (hlast : s.lastApplied = s.index) (hss : Valid log ss)
    (hlocal : init = false → ss.imported = false) (hrecover : s.recover ss init = some s') : Kept log s' := by
  rw [StateMachine.recover] at hrecover
  split_ifs at hrecover with hold
  · cases hrecover
    exact h
  · obtain ⟨s1, h1, hrecover⟩ := Option.bind_eq_some_iff.mp hrecover
    cases hrecover
    have hjump : ss.onDiskIndex ≤ s.onDiskIndex → Kept log (s.apply ss) := fun hdisk => h.jump hss hdisk (by omega)
    have hinit := h.init
    rw [doRecover] at h1
    split_ifs at h1 with hshrunk hpartial hcheck hrequired hcheck
    · cases h1
      refine hjump ?_
      simp only [checkPartialSnapshotApplyOnDiskSM] at hcheck
      cases init <;> simp at hcheck <;> omega
    · cases h1
      exact kept_applyOnDisk hss (by simpa using hpartial) hlocal hcheck
    · cases h1
      refine hjump ?_
      simp only [recoverRequired] at hrequired
      cases init <;> simp at hrequired <;> omega

theorem Settled.recover (h : Settled log s) (hss : Valid log ss)
    (hrecover : s.recover ss init = some s') : Settled log s' := by
  rw [StateMachine.recover] at hrecover
  split_ifs at hrecover
  · cases hrecover
    exact h
  · obtain ⟨s1, -, hrecover⟩ := Option.bind_eq_some_iff.mp hrecover
    cases hrecover
    exact ⟨rfl, hss.term⟩

theorem recover_kept (h : Kept log s) (hsettled : Settled log s) (hss : Valid log ss)
    (hlocal : init = false → ss.imported = false) (hrecover : s.recover ss init = some s') :
    Kept log s' ∧ Settled log s' :=
  ⟨h.recover hsettled.lastApplied hss hlocal hrecover, hsettled.recover hss hrecover⟩

theorem midway_kept (h : Kept log s) {mid : StateMachine}
    (hmid : s.handleEntries (log.page (s.index + 1) count) = some mid) :
    Kept log mid ∧ mid.index = s.index + count ∧ mid.lastApplied = s.lastApplied ∧ s.onDiskIndex ≤ mid.onDiskIndex := by
  obtain ⟨s', hs', hkept, hindex, hlast, -, hdisk⟩ := handleEntries_kept h count
  cases hmid.symm.trans hs'
  exact ⟨hkept, hindex, hlast, hdisk⟩

theorem handled_kept (h : Kept log s) (hsettled : Settled log s) {first : ℕ}
    (hhandle : s.handleTask (log.page first count) = some s') :
    Kept log s' ∧ Settled log s' ∧ s.index ≤ s'.index ∧ s.onDiskIndex ≤ s'.onDiskIndex := by
  obtain ⟨entries, hentries, -⟩ := Option.bind_eq_some_iff.mp hhandle
  obtain ⟨n, rfl⟩ := log.entriesToApply_page hentries
  obtain ⟨s1, hs1, hkept, hsettled', hindex, hdisk⟩ := handleTask_kept h hsettled hentries
  cases hhandle.symm.trans hs1
  exact ⟨hkept, hsettled', by omega, hdisk⟩

mutual

theorem Reachable.kept : ∀ {s : StateMachine}, Reachable log s → Kept log s ∧ Settled log s
  | _, .opened durable => ⟨kept_openOnDisk durable, rfl, Nat.zero_le _⟩
  | _, .restarted durable hss h =>
    recover_kept (kept_openOnDisk durable) ⟨rfl, Nat.zero_le _⟩ hss.valid (fun hinit => by cases hinit) h
  | _, .handled first count hs hfirst h => by
    obtain ⟨hkept, hsettled, -⟩ := handled_kept hs.kept.1 hs.kept.2 h
    exact ⟨hkept, hsettled⟩
  | _, .recovered hs hss hlocal h => recover_kept hs.kept.1 hs.kept.2 hss.valid (fun _ => hlocal) h

theorem Taken.valid : ∀ {ss : Snapshot}, Taken log ss → Valid log ss
  | _, .dummy count hs h => by
    obtain ⟨hkept, -⟩ := midway_kept hs.kept.1 h
    exact ⟨hkept.term, hkept.covered, fun hdummy => by cases hdummy⟩
  | _, .streamed count shrunk hs h hready => by
    obtain ⟨hkept, hindex, hlast, -⟩ := midway_kept hs.kept.1 h
    refine ⟨hkept.term, hkept.covered, fun _ _ _ => ?_⟩
    have hdisk := hkept.disk
    have hsettled := hs.kept.2.lastApplied
    simp only [readyToStream, decide_eq_true_eq] at hready
    simp only [fullSnapshot]
    omega
  | _, .exported count shrunk hs h => by
    obtain ⟨hkept, -⟩ := midway_kept hs.kept.1 h
    exact ⟨hkept.term, hkept.covered, fun _ _ himported => by cases himported⟩

end

end

/-- In every state the indexes passed to `Update` in this life of the data are those of the
application entries, each once and in order, the last applied index is that of the last entry
handled, and the next page of the log is handled without a fault. -/
theorem updates_are_applications (log : Log) (s : StateMachine) (h : Reachable log s) :
    s.updates.Pairwise (· < ·) ∧ (∀ i, i ∈ s.updates ↔ s.base < i ∧ i ≤ s.index ∧ log.IsApplication i) ∧
      s.lastApplied = s.index ∧ ∀ first count, first ≤ s.index + 1 →
        ∃ s', s.handleTask (log.page first count) = some s' ∧ s'.index = max s.index (first + count - 1) := by
  obtain ⟨hkept, hsettled⟩ := h.kept
  refine ⟨hkept.sorted, hkept.mem, hsettled.lastApplied, fun first count hfirst => ?_⟩
  obtain ⟨s', hs', -, -, hindex, -⟩ := handleTask_kept hkept hsettled (log.entriesToApply_page_eq hfirst)
  exact ⟨s', hs', by omega⟩

/-- A log of commands with a config change at index 2. -/
def mixedLog : Log := ⟨fun _ => 1, fun i => if i = 2 then .configChange else .application, by simp, by simp⟩

/-- The data is durable up to 3 and a page of five entries is handed out. -/
theorem updates_are_applications_reopened : (⟨5, 1, 5, 1, 3, 5, 3, [4, 5]⟩ : StateMachine).updates.Pairwise (· < ·) ∧
      ∃ s', (⟨5, 1, 5, 1, 3, 5, 3, [4, 5]⟩ : StateMachine).handleTask (mixedLog.page 4 4) = some s' ∧ s'.index = 7 := by
  have h := updates_are_applications mixedLog _ (.handled 1 5 (.opened 3) (by decide)
    (show (openOnDisk 3).handleTask (mixedLog.page 1 5) = some ⟨5, 1, 5, 1, 3, 5, 3, [4, 5]⟩ by decide +kernel))
  exact ⟨h.1, h.2.2.2 4 4 (by decide)⟩

end Armada.Rsm
