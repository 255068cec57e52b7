import Mathlib.Order.Basic
import Mathlib.Tactic.ByContra
import Armada.Program.Machine

/-! The directory of a replica's snapshots. A snapshot is written or received in a temporary
directory, gets a flag file, is renamed to its final directory and recorded in the log store,
and loses its flag file. A start removes the directories that are neither recorded nor complete.
-/

namespace Armada.Raft

open Program Function Option

inductive DirName where
  | final (index : ℕ)
  | generating (index sender : ℕ)
  | receiving (index sender : ℕ)
  deriving DecidableEq

/-- A temporary directory, of either kind. -/
structure TempDir where
  index : ℕ
  sender : ℕ
  received : Bool
  deriving DecidableEq

def TempDir.name (t : TempDir) : DirName :=
  if t.received then .receiving t.index t.sender else .generating t.index t.sender

/-- What is in a directory: all files of the snapshot, and the flag file, which holds the
snapshot's own record. -/
structure DirContent where
  complete : Bool
  flag : Bool

/-- How far the process has got with a temporary directory. -/
inductive SaveStage where
  | writing
  | written
  | flagged
  deriving DecidableEq

structure SnapshotDir where
  dirs : DirName → Option DirContent
  /-- the index of the snapshot that the log store has on record -/
  recorded : Option ℕ
  /-- the process runs; what follows is lost when it dies -/
  running : Bool
  stages : TempDir → Option SaveStage
  /-- snapshots in their final directory that wait for their record -/
  finalized : ℕ → Bool

/-- How far the removal of a directory has come. -/
inductive Removal where
  | gone
  /-- some files are left -/
  | torn (flag : Bool)

inductive SnapshotEvent where
  /-- `CreateTempDir`, or the first chunk of a snapshot -/
  | createTemp (t : TempDir)
  /-- the last file is written and synced -/
  | writeFiles (t : TempDir)
  | createFlagFile (t : TempDir)
  /-- `FinalizeSnapshot` after the flag file -/
  | finalize (t : TempDir)
  /-- the temporary directory is given up -/
  | removeTemp (t : TempDir) (r : Removal)
  /-- `SaveSnapshots` of a local snapshot, `SaveRaftState` of a received one -/
  | record (index : ℕ)
  /-- the core has no use for a received snapshot -/
  | ignore (index : ℕ)
  | removeFlagFile (index : ℕ)
  /-- the directory of an older snapshot is removed -/
  | compact (index : ℕ) (r : Removal)
  | crash
  /-- `processOrphans` got some of the way before the process died -/
  | startPartly (done : DirName → Option Removal)
  | start

namespace SnapshotDir

def init : SnapshotDir := ⟨fun _ => none, none, true, fun _ => none, fun _ => false⟩

def setDir (s : SnapshotDir) (name : DirName) (c : Option DirContent) : SnapshotDir :=
  { s with dirs := Function.update s.dirs name c }

def setStage (s : SnapshotDir) (t : TempDir) (stage : Option SaveStage) : SnapshotDir :=
  { s with stages := Function.update s.stages t stage }

def Removal.apply : Removal → Option DirContent
  | .gone => none
  | .torn flag => some ⟨false, flag⟩

/-- What `processOrphans` makes of a directory: a flagged or an unflagged snapshot stays,
without the flag, if it is the recorded one; a temporary directory goes. -/
def processOrphan (mrss : Option ℕ) : DirName → DirContent → Option DirContent
  | .final index, c =>
    if c.flag then
      if mrss ≠ some index then none else some { c with flag := false }
    else if mrss ≠ some index then none
    else some c
  | .generating _ _, _ | .receiving _ _, _ => none

def processOrphans (s : SnapshotDir) : SnapshotDir :=
  { s with dirs := fun name => (s.dirs name).bind (processOrphan s.recorded name) }

/-- `processOrphans` up to some point: a directory is untouched, done with, or half removed. -/
def processSome (s : SnapshotDir) (done : DirName → Option Removal) : SnapshotDir :=
  { s with dirs := fun name => (s.dirs name).bind fun c =>
      match done name with
      | none => some c
      | some r => (processOrphan s.recorded name c).or (Removal.apply r) }

def step : SnapshotEvent → SnapshotDir → Option SnapshotDir
  | .createTemp t, s =>
    if s.running then some ((s.setDir t.name (some ⟨false, false⟩)).setStage t (some .writing)) else none
  | .writeFiles t, s =>
    if s.running ∧ s.stages t =
      some .writing then some ((s.setDir t.name (some ⟨true, false⟩)).setStage t (some .written))
    else none
  | .createFlagFile t, s =>
    if s.running ∧ s.stages t =
      some .written then some ((s.setDir t.name (some ⟨true, true⟩)).setStage t (some .flagged))
    else none
  | .finalize t, s =>
    if s.running ∧ s.stages t = some .flagged then
      -- an existing final directory makes the snapshot out of date
      if (s.dirs (.final t.index)).isSome then some s
      else some { ((s.setDir (.final t.index) (s.dirs t.name)).setDir t.name none).setStage t none with
        finalized := Function.update s.finalized t.index true }
    else none
  | .removeTemp t r, s =>
    if s.running then some ((s.setDir t.name (Removal.apply r)).setStage t none) else none
  | .record index, s =>
    if s.running ∧ s.finalized index then some { s with recorded := some (max index (s.recorded.getD 0)) } else none
  | .ignore index, s =>
    if s.running then some { s with finalized := Function.update s.finalized index false } else none
  | .removeFlagFile index, s =>
    if s.running then
      some (s.setDir (.final index) ((s.dirs (.final index)).map fun c => { c with flag := false }))
    else none
  | .compact index r, s =>
    -- `Compact` panics unless the record is newer
    if s.running ∧ s.recorded.any (index < ·) then some (s.setDir (.final index) (Removal.apply r)) else none
  | .crash, s => some { s with running := false, stages := fun _ => none, finalized := fun _ => false }
  | .startPartly done, s => if s.running then none else some (s.processSome done)
  | .start, s => if s.running then none else some { s.processOrphans with running := true }

def HasComplete (s : SnapshotDir) (index : ℕ) : Prop := ∃ c, s.dirs (.final index) = some c ∧ c.complete

/-- The snapshot on record and every newer one that waits for its record have a complete
directory, and the process knows what it has written. -/
structure Kept (s : SnapshotDir) : Prop where
  recorded : ∀ index, s.recorded = some index → s.HasComplete index
  finalized : ∀ index, s.finalized index → (∀ r, s.recorded = some r → r < index) → s.HasComplete index
  flagged : ∀ t, s.stages t = some .flagged → s.dirs t.name = some ⟨true, true⟩
  idle : s.running = false → (∀ t, s.stages t = none) ∧ ∀ index, s.finalized index = false

theorem kept_init : Kept init := ⟨by simp [init], by simp [init], by simp [init], by simp [init]⟩

theorem name_ne_final (t : TempDir) (index : ℕ) : t.name ≠ .final index := by
  unfold TempDir.name
  split_ifs <;> simp

theorem name_injective : Function.Injective TempDir.name := by
  rintro ⟨i, x, a⟩ ⟨j, y, b⟩ h
  cases a <;> cases b <;> simp_all [TempDir.name]

section
variable {s s' : SnapshotDir}

theorem Kept.of_final (h : Kept s) (hrecorded : s'.recorded = s.recorded)
    (hfinalized : ∀ index, s'.finalized index → s.finalized index)
    (hdirs : ∀ index, s.HasComplete index → s'.HasComplete index)
    (hflagged : ∀ t, s'.stages t = some .flagged → s'.dirs t.name = some ⟨true, true⟩)
    (hidle : s'.running = false → (∀ t, s'.stages t = none) ∧ ∀ index, s'.finalized index = false) : Kept s' where
  recorded index hindex := hdirs index (h.recorded index (hrecorded ▸ hindex))
  finalized index hindex hnew := hdirs index (h.finalized index (hfinalized index hindex) (hrecorded ▸ hnew))
  flagged := hflagged
  idle := hidle

theorem Kept.setTemp (h : Kept s) (hrunning : s.running) (t : TempDir) (c : Option DirContent)
    (stage : Option SaveStage)
    (hstage : stage = some .flagged → c = some ⟨true, true⟩) : Kept ((s.setDir t.name c).setStage t stage) := by
  refine h.of_final rfl (fun _ hi => hi) ?_ (fun u hu => ?_) (by simp [setStage, setDir, hrunning])
  · rintro index ⟨d, hd, hcomplete⟩
    refine ⟨d, ?_, hcomplete⟩
    simp only [setStage, setDir]
    rw [update_of_ne (name_ne_final t index).symm, hd]
  · simp only [setStage, setDir] at hu ⊢
    by_cases hut : u = t
    · subst hut
      rw [update_self] at hu ⊢
      exact hstage hu
    · rw [update_of_ne hut] at hu
      rw [update_of_ne (name_injective.ne hut)]
      exact h.flagged u hu

theorem Kept.finalize (h : Kept s) (hrunning : s.running) {t : TempDir} (hstage : s.stages t = some .flagged)
    (hfree : (s.dirs (.final t.index)).isNone) :
    Kept { ((s.setDir (.final t.index) (s.dirs t.name)).setDir t.name none).setStage t none with
      finalized := Function.update s.finalized t.index true } := by
  have hat : ∀ index, (Function.update (Function.update s.dirs (.final t.index) (s.dirs t.name)) t.name none)
      (.final index) = if index = t.index then some ⟨true, true⟩ else s.dirs (.final index) := by
    intro index
    rw [update_of_ne (name_ne_final t index).symm]
    split_ifs with hindex
    · rw [hindex, update_self, h.flagged t hstage]
    · rw [update_of_ne (by simpa using hindex)]
  have hkeep : ∀ index, s.HasComplete index ∨ index = t.index → ∃ c, (Function.update
      (Function.update s.dirs (.final t.index) (s.dirs t.name)) t.name none) (.final index) = some c ∧ c.complete := by
    intro index hindex
    rw [hat]
    split_ifs with heq
    · exact ⟨_, rfl, rfl⟩
    · exact hindex.resolve_right heq
  refine ⟨fun index hindex => hkeep index (.inl (h.recorded index hindex)), fun index hindex hnew => ?_, fun u hu => ?_,
    by simp [setStage, setDir, hrunning]⟩
  · by_cases heq : index = t.index
    · exact hkeep index (.inr heq)
    · simp only [update_of_ne heq] at hindex
      exact hkeep index (.inl (h.finalized index hindex hnew))
  · simp only [setStage, setDir] at hu ⊢
    by_cases hut : u = t
    · subst hut
      rw [update_self] at hu
      cases hu
    · rw [update_of_ne hut] at hu
      rw [update_of_ne (name_injective.ne hut), update_of_ne (name_ne_final u t.index)]
      exact h.flagged u hu

theorem Kept.setFinal (h : Kept s) (hrunning : s.running) (index : ℕ) (c : Option DirContent)
    (hc : s.HasComplete index → (∀ r, s.recorded = some r → r ≤ index) → ∃ d, c = some d ∧ d.complete) :
    Kept (s.setDir (.final index) c) := by
  have hkeep : ∀ i, s.HasComplete i → (∀ r, s.recorded = some r → r ≤ i) →
    (s.setDir (.final index) c).HasComplete i := by
    intro i hi hle
    simp only [HasComplete, setDir]
    by_cases heq : i = index
    · subst heq
      rw [update_self]
      exact hc hi hle
    · rw [update_of_ne (by simpa using heq)]
      exact hi
  refine ⟨fun i hi => hkeep i (h.recorded i hi) fun r hr => ?_, fun i hi hnew => ?_, fun t ht => ?_,
    by simp [setDir, hrunning]⟩
  · rw [show s.recorded = some i from hi] at hr
    exact Nat.le_of_eq (Option.some.inj hr).symm
  · exact hkeep i (h.finalized i hi hnew) fun r hr => Nat.le_of_lt (hnew r hr)
  · simp only [setDir]
    rw [update_of_ne (name_ne_final t index)]
    exact h.flagged t ht

theorem processOrphan_recorded {mrss : Option ℕ} {index : ℕ} (h : mrss = some index) (c : DirContent) :
    processOrphan mrss (.final index) c = some { c with flag := false } := by
  rw [processOrphan, h]
  cases hc : c.flag <;> simp [← hc]

theorem Kept.record (h : Kept s) {index : ℕ} (hindex : s.finalized index) :
    Kept { s with recorded := some (max index (s.recorded.getD 0)) } := by
  -- a newer snapshot takes the place of the record, an older one does not
  have hcases : (∃ r, s.recorded = some r ∧ index ≤ r) ∨ ∀ r, s.recorded = some r → r < index := by
    cases hr : s.recorded with
    | none => exact .inr (by simp)
    | some r =>
      by_cases hle : index ≤ r
      · exact .inl ⟨r, rfl, hle⟩
      · exact .inr fun q hq => by cases hq; omega
  rcases hcases with ⟨r, hr, hle⟩ | hnew
  · have heq : some (max index (s.recorded.getD 0)) = s.recorded := by simp [hr, hle]
    exact h.of_final heq (fun _ hi => hi) (fun _ hi => hi) h.flagged h.idle
  · have heq : max index (s.recorded.getD 0) = index := by
      cases hr : s.recorded with
      | none => simp
      | some r => simpa using Nat.max_eq_left (Nat.le_of_lt (hnew r hr))
    refine ⟨fun i hi => ?_, fun i hi hlt => ?_, h.flagged, h.idle⟩
    · rw [heq] at hi
      cases hi
      exact h.finalized index hindex hnew
    · have hi' := hlt _ rfl
      rw [heq] at hi'
      exact h.finalized i hi fun r hr => Nat.lt_trans (hnew r hr) hi'

/-- Nothing is under way when the process is not running, so that a start has only to keep
the directory of the record. -/
theorem Kept.restart (h : Kept s) (hidle : s.running = false) {dirs : DirName → Option DirContent} {running : Bool}
    (hdirs : ∀ index c, s.recorded = some index → s.dirs (.final index) = some c → c.complete →
    ∃ d, dirs (.final index) = some d ∧ d.complete) : Kept { s with dirs := dirs, running := running } := by
  obtain ⟨hstages, hfinalized⟩ := h.idle hidle
  refine ⟨fun index hindex => ?_, fun index hi => ?_, fun t ht => ?_, fun _ => ⟨hstages, hfinalized⟩⟩
  · obtain ⟨c, hc, hcomplete⟩ := h.recorded index hindex
    exact hdirs index c hindex hc hcomplete
  · cases (hfinalized index).symm.trans hi
  · cases (hstages t).symm.trans ht

theorem Kept.step {e : SnapshotEvent} (h : Kept s) (hstep : SnapshotDir.step e s = some s') : Kept s' := by
  refine (?_ : Leads (SnapshotDir.step e s) Kept) s' hstep
  cases e with
  | createTemp t => exact .guard fun hguard => h.setTemp hguard t _ _ (by simp)
  | writeFiles t => exact .guard fun hguard => h.setTemp hguard.1 t _ _ (by simp)
  | createFlagFile t => exact .guard fun hguard => h.setTemp hguard.1 t _ _ fun _ => rfl
  | finalize t =>
    refine .ite (fun hstage => .ite (fun _ => .some h) fun hexists => .some ?_) fun _ => .none
    exact h.finalize hstage.1 hstage.2 (by simpa using hexists)
  | removeTemp t r => exact .guard fun hguard => h.setTemp hguard t _ _ (by simp)
  | record index => exact .guard fun hindex => h.record hindex.2
  | ignore index =>
    refine .guard fun hguard => h.of_final rfl (fun i hi => ?_) (fun _ hi => hi) h.flagged (by simp [hguard])
    by_cases heq : i = index
    · subst heq
      simp only [update_self] at hi
      cases hi
    · simpa only [update_of_ne heq] using hi
  | removeFlagFile index =>
    refine .guard fun hguard => h.setFinal hguard index _ fun ⟨c, hc, hcomplete⟩ _ =>
      ⟨{ c with flag := false }, ?_, hcomplete⟩
    rw [hc]
    rfl
  | compact index r =>
    refine .guard fun hnewer => h.setFinal hnewer.1 index _ fun _ hle => ?_
    cases hr : s.recorded with
    | none => simp [hr] at hnewer
    | some r =>
      have := hle r hr
      simp only [hr, any_some, decide_eq_true_eq] at hnewer
      omega
  | crash => exact .some (h.of_final rfl (by simp) (fun _ hi => hi) (by simp) (by simp))
  | startPartly done =>
    refine .unless fun hrunning => ?_
    rw [Bool.not_eq_true] at hrunning
    refine h.restart hrunning fun index c hindex hc hcomplete => ?_
    simp only [hc, bind_some]
    cases done (.final index) with
    | none => exact ⟨c, rfl, hcomplete⟩
    | some r =>
      refine ⟨{ c with flag := false }, ?_, hcomplete⟩
      simp only [processOrphan_recorded hindex]
      rfl
  | start =>
    refine .unless fun hrunning => ?_
    rw [Bool.not_eq_true] at hrunning
    refine h.restart hrunning fun index c hindex hc hcomplete => ⟨{ c with flag := false }, ?_, hcomplete⟩
    simp only [processOrphans, hc, bind_some]
    exact processOrphan_recorded hindex c

end

/-- After a crash at any point, and any number of starts that were cut short, `processOrphans`
leaves the complete directory of the snapshot on record and nothing else. -/
theorem processOrphans_leaves_recorded (es : List SnapshotEvent) (s : SnapshotDir)
    (hrun : runMachine step es init = some s) :
    (∀ index, s.recorded = some index → s.processOrphans.dirs (.final index) = some ⟨true, false⟩) ∧
      ∀ name, (∀ index, s.recorded = some index → name ≠ .final index) → s.processOrphans.dirs name = none := by
  have h : Kept s := runMachine_keeps (fun _ _ _ hs hstep => hs.step hstep) kept_init hrun
  refine ⟨fun index hindex => ?_, fun name hname => ?_⟩
  · obtain ⟨⟨complete, flag⟩, hc, hcomplete⟩ := h.recorded index hindex
    simp only [processOrphans, hc, bind_some]
    rw [processOrphan_recorded hindex]
    simp only at hcomplete
    rw [hcomplete]
  · cases name with
    | generating index sender =>
      cases hc : s.dirs (.generating index sender) <;> simp [processOrphans, hc, processOrphan]
    | receiving index sender => cases hc : s.dirs (.receiving index sender) <;> simp [processOrphans, hc, processOrphan]
    | final index =>
      have hne : s.recorded ≠ some index := fun hr => hname index hr rfl
      cases hc : s.dirs (.final index) with
      | none => simp [processOrphans, hc]
      | some c => simp [processOrphans, hc, processOrphan, hne]

/-- A local snapshot on record, a received one that is not, and a crash. -/
theorem processOrphans_leaves_recorded_twoSnapshots :
    ∃ s : SnapshotDir, s.recorded = some 7 ∧ (s.dirs (.final 9)).isSome ∧
      (∀ index, s.recorded = some index → s.processOrphans.dirs (.final index) = some ⟨true, false⟩) ∧
      ∀ name, (∀ index, s.recorded = some index → name ≠ .final index) → s.processOrphans.dirs name = none := by
  let mine : TempDir := ⟨7, 1, false⟩
  let received : TempDir := ⟨9, 2, true⟩
  let es : List SnapshotEvent := [.createTemp mine, .writeFiles mine, .createTemp received, .createFlagFile mine,
    .finalize mine, .record 7, .writeFiles received, .createFlagFile received, .finalize received, .crash]
  obtain ⟨s, hs⟩ : ∃ s, runMachine step es init = some s := isSome_iff_exists.mp (by decide +kernel)
  have hrecorded : (runMachine step es init).map (·.recorded) = some (some 7) := by decide +kernel
  have hleft : (runMachine step es init).map (fun s => (s.dirs (.final 9)).isSome) = some true := by decide +kernel
  rw [hs] at hrecorded hleft
  exact ⟨s, Option.some.inj hrecorded, Option.some.inj hleft, processOrphans_leaves_recorded es s hs⟩

end SnapshotDir

end Armada.Raft
