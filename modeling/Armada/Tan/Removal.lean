import Armada.Tan.Replay

/-! Removing the data of a replica. The index forgets everything and the closed log files
go, but the current file keeps its records and the state written last stays cached. -/

namespace Armada.Tan

open Raft Program List

/-- What `RemoveNodeData` does to the store. -/
def DB.removeAll (d : DB) : DB := { d with index := .init, files := [] }

inductive Operation where
  | event (e : Event)
  | removeNodeData

def Operation.run (opts : Options) : Operation → DB → Except Fault DB
  | event e, d => e.run opts d
  | removeNodeData, d => .ok d.removeAll

def runOperations (opts : Options) : List Operation → DB → Except Fault DB
  | [], d => .ok d
  | op :: ops, d => op.run opts d >>= runOperations opts ops

/-- The store shows nothing of the replica. -/
structure DB.Nothing (opts : Options) (d : DB) : Prop where
  state : ∀ lastIndex, d.getRaftState lastIndex = .error .noSavedLog
  snapshot : d.getSnapshot = .ok emptySnapshot
  entries : ∀ low high maxSize, d.getEntries opts low high maxSize = .ok ([], 0)

/-- The store shows all that was saved. -/
structure Stored (opts : Options) (d : DB) (c : Saved) : Prop where
  state : c.state ≠ emptyState → d.readState = .ok c.state
  noState : c.state = emptyState → ∀ lastIndex, d.getRaftState lastIndex = .error .noSavedLog
  snapshot : d.getSnapshot = .ok c.snapshot
  entries : ∀ low high, c.snapshot.index < low → low < high → high ≤ c.lastIndex + 1 →
    ∃ size, d.getEntries opts low high 0 = .ok (slice c.get low high, size)

/-- The update says nothing. -/
def Update.Blank (u : Update) : Prop := u.state = emptyState ∧ u.snapshot.isEmpty ∧ u.entriesToSave = []

instance Update.Blank.decidable (u : Update) : Decidable u.Blank := by
  unfold Update.Blank
  infer_instance

/-- The event does not meet what the removal left behind in the file `num`: the process does not
die while that file is the current one, and an update that is only a state is not the state that
was cached when no state is indexed. -/
def DB.Clear (num : ℕ) (dead : List Record) (d : DB) : Event → Prop
  | .saveRaftState u => d.index.state = .none → u.state = d.state → u.snapshot.isEmpty →
    u.entriesToSave = [] → u.state = emptyState
  | .reopen closed => closed = false → d.logNum = num → ∀ r ∈ dead, r.update.Blank
  | _ => True

/-- Every event of the run is clear. -/
def Clear (opts : Options) (num : ℕ) (dead : List Record) : List Event → DB → Prop
  | [], _ => True
  | e :: es, d => d.Clear num dead e ∧
    match e.run opts d with
    | .ok d' => Clear opts num dead es d'
    | .error _ => True

instance DB.Clear.decidable (num : ℕ) (dead : List Record) (d : DB) (e : Event) : Decidable (d.Clear num dead e) := by
  cases e <;> unfold DB.Clear <;> infer_instance

instance Clear.decidable (opts : Options) (num : ℕ) (dead : List Record) (es : List Event) (d : DB) :
    Decidable (Clear opts num dead es d) := by
  induction es generalizing d with
  | nil => exact isTrue trivial
  | cons e es ih =>
    unfold Clear
    cases e.run opts d <;> infer_instance

/-! ### Reopening right after the removal -/

section
variable {d : DB} {opts : Options}

theorem updateIndex_blank {u : Update} (h : u.Blank) (n : NodeIndex) (pos num : ℕ) : updateIndex n u pos num = n := by
  obtain ⟨hst, hss, hes⟩ := h
  have hnone : isCompactionUpdate u = none := isCompactionUpdate_of_ne (by rw [hst]; decide)
  simp [updateIndex, hnone, hes, entriesRun, hss, hst]

theorem foldl_updateIndex_blank {rs : List Record} (h : ∀ r ∈ rs, r.update.Blank) (n : NodeIndex) (num : ℕ) :
    rs.foldl (fun n r => updateIndex n r.update r.offset num) n = n := by
  induction rs generalizing n with
  | nil => rfl
  | cons r rs ih =>
    rw [forall_mem_cons] at h
    rw [foldl_cons, updateIndex_blank h.1, ih h.2]

theorem DB.nothing_of_index (h : d.index = .init) : d.Nothing opts := by
  refine ⟨fun lastIndex => ?_, ?_, fun low high maxSize => ?_⟩
  · rw [DB.getRaftState, h]
    rfl
  · rw [DB.getSnapshot, h]
    rfl
  · rw [DB.getEntries, h]
    rfl

theorem reopen_removeAll (closed : Bool) (h : closed = false → ∀ r ∈ d.records, r.update.Blank) :
    ∃ d', d.removeAll.reopen closed = .ok d' ∧ d'.Nothing opts := by
  cases closed with
  | true => exact ⟨_, rfl, DB.nothing_of_index rfl⟩
  | false =>
    have hindex := foldl_updateIndex_blank (h rfl) .init d.logNum
    refine ⟨⟨[⟨d.logNum, d.records, some ⟨.empty, .none, .none⟩⟩], d.nextFileNum, [], 0, d.nextFileNum + 1, .init,
      emptyState⟩, ?_, DB.nothing_of_index rfl⟩
    simp only [DB.reopen, openDB, loadFiles, DB.onDisk, DB.removeAll, nil_append, filterMap_cons,
      filterMap_nil, foldl_nil, Bool.false_eq_true, if_false, Option.isNone_none, filter_cons_of_pos,
      filter_nil, rebuildIndex, hindex]
    rfl

end

/-! ### Records from before the removal -/

section
variable {num base : ℕ} {dead : List Record} {s : State} {d : DB} {opts : Options} {u : Update} {c : Saved}

/-- The records of a file over those that were there before the removal. -/
def overDead (num : ℕ) (dead : List Record) (n : ℕ) (records : List Record) : List Record :=
  if n = num then dead ++ records else records

def LogFile.withDead (num : ℕ) (dead : List Record) (f : LogFile) : LogFile :=
  { f with records := overDead num dead f.num f.records }

/-- The store with old records in one of its files, and with another cached state. -/
def DB.withDead (num : ℕ) (dead : List Record) (s : State) (d : DB) : DB :=
  { d with
    files := d.files.map (LogFile.withDead num dead)
    records := overDead num dead d.logNum d.records
    state := s }

theorem overDead_of_ne {n : ℕ} (h : n ≠ num) (records : List Record) : overDead num dead n records = records := if_neg h

theorem overDead_append (n : ℕ) (rs rs' : List Record) :
    overDead num dead n (rs ++ rs') = overDead num dead n rs ++ rs' := by
  unfold overDead
  split_ifs
  · exact (append_assoc _ _ _).symm
  · rfl

/-- Nothing of what was written after the removal is below `base` in the file it left. -/
structure Above (num base : ℕ) (d : DB) : Prop where
  old : num < d.nextFileNum
  files : ∀ f ∈ d.files, f.num = num → ∀ r ∈ f.records, base ≤ r.offset
  records : d.logNum = num → ∀ r ∈ d.records, base ≤ r.offset
  room : d.logNum = num → base ≤ d.offset

section
variable (h : Above num base d)
include h

theorem Above.switchToNewLog : Above num base d.switchToNewLog := by
  have hne : d.nextFileNum ≠ num := h.old.ne'
  refine ⟨Nat.lt_succ_of_lt h.old, fun f hf hnum => ?_, fun heq => absurd heq hne, fun heq => absurd heq hne⟩
  obtain hf | hf := mem_append.mp hf
  · exact h.files f hf hnum
  · rw [mem_singleton.mp hf] at hnum ⊢
    exact h.records hnum

theorem Above.makeRoomForWrite : Above num base (d.makeRoomForWrite opts) := by
  unfold DB.makeRoomForWrite
  split_ifs
  · exact h
  · exact h.switchToNewLog

theorem Above.append : Above num base (d.append opts u) := by
  refine ⟨h.old, h.files, fun heq r hr => ?_, fun heq => (h.room heq).trans (opts.advances d.offset u).le⟩
  obtain hr | hr := mem_append.mp hr
  · exact h.records heq r hr
  · rw [mem_singleton.mp hr]
    exact h.room heq

theorem Above.compactionLocked : Above num base d.compactionLocked :=
  ⟨h.old, fun f hf => h.files f (mem_of_mem_filter hf), h.records, h.room⟩

theorem Above.of_holds {place : ℕ × ℕ} (hu : d.Holds place u) (hnum : place.1 = num) : base ≤ place.2 := by
  obtain ⟨records, hf, hr⟩ := hu
  rw [DB.logs, mem_append, mem_map, mem_singleton] at hf
  obtain ⟨f, hf, heq⟩ | heq := hf
  · obtain ⟨hfile, rfl⟩ := Prod.mk.inj heq
    exact h.files f hf (hfile.trans hnum) _ hr
  · obtain ⟨hlog, rfl⟩ := Prod.mk.inj heq
    exact h.records (hlog.symm.trans hnum) _ hr

end

/-! ### Writing over the old records -/

theorem switchToNewLog_withDead (h : num < d.nextFileNum) :
    (d.withDead num dead s).switchToNewLog = d.switchToNewLog.withDead num dead s := by
  have hne : d.nextFileNum ≠ num := h.ne'
  simp [DB.switchToNewLog, DB.createNewLog, DB.withDead, LogFile.withDead, DB.saveIndex, overDead_of_ne hne]

theorem makeRoomForWrite_withDead (h : num < d.nextFileNum) :
    (d.withDead num dead s).makeRoomForWrite opts = (d.makeRoomForWrite opts).withDead num dead s := by
  unfold DB.makeRoomForWrite
  rw [switchToNewLog_withDead h]
  exact (apply_ite (DB.withDead num dead s) _ _ _).symm

theorem append_withDead : (d.withDead num dead s).append opts u = (d.append opts u).withDead num dead u.state := by
  simp [DB.append, DB.withDead, overDead_append]

theorem doWriteLocked_withDead (h : num < d.nextFileNum) :
    (d.withDead num dead s).doWriteLocked opts u = (d.doWriteLocked opts u).withDead num dead u.state := by
  rw [DB.doWriteLocked, makeRoomForWrite_withDead h, append_withDead]
  rfl

theorem compactionLocked_withDead :
    (d.withDead num dead s).compactionLocked = d.compactionLocked.withDead num dead s := by
  simp only [DB.compactionLocked, DB.withDead, filter_map]
  rfl

variable {f : LogFile} {files : List LogFile} {closed : Bool} {ie : IndexEntry}

theorem rebuildIndex_withDead (h : f.num = num → ∀ r ∈ dead, r.update.Blank) (n : NodeIndex) :
    rebuildIndex n (f.withDead num dead) = rebuildIndex n f := by
  simp only [rebuildIndex, LogFile.withDead, overDead]
  split_ifs with heq
  · rw [foldl_append, foldl_updateIndex_blank (h heq)]
  · rfl

theorem loadFiles_withDead (h : ∀ f ∈ files, f.index = none → f.num = num → ∀ r ∈ dead, r.update.Blank) :
    loadFiles (files.map (LogFile.withDead num dead)) =
    (loadFiles files).map fun r => (r.1.map (LogFile.withDead num dead), r.2) := by
  have hsaved : (files.map (LogFile.withDead num dead)).filterMap (·.index) = files.filterMap (·.index) := by
    rw [filterMap_map]
    rfl
  have hmissing : (files.map (LogFile.withDead num dead)).filter (·.index.isNone) =
      (files.filter (·.index.isNone)).map (LogFile.withDead num dead) := by
    rw [filter_map]
    rfl
  simp only [loadFiles, hsaved, hmissing]
  rcases heq : files.filter (·.index.isNone) with - | ⟨f, - | ⟨g, rest⟩⟩
  · simp only [heq, map_nil]
    rfl
  · have hf : f ∈ files.filter (·.index.isNone) := by simp [heq]
    obtain ⟨hmem, hnone⟩ := mem_filter.mp hf
    simp only [heq, map_cons, map_nil, rebuildIndex_withDead (h f hmem (Option.isNone_iff_eq_none.mp hnone)),
      Except.map, map_map, Except.ok.injEq, Prod.mk.injEq, and_true]
    refine map_congr_left fun g _ => ?_
    cases hg : g.index <;> simp [LogFile.withDead, hg]
  · simp only [heq, map_cons]
    rfl

theorem reopen_withDead (h : num < d.nextFileNum) (hindexed : ∀ f ∈ d.files, f.index ≠ none)
    (hdead : closed = false → d.logNum = num → ∀ r ∈ dead, r.update.Blank) :
    (d.withDead num dead s).reopen closed = (d.reopen closed).map (DB.withDead num dead emptyState) := by
  have hne : d.nextFileNum ≠ num := h.ne'
  have hdisk : (d.withDead num dead s).onDisk closed = (d.onDisk closed).map (LogFile.withDead num dead) := by
    simp [DB.onDisk, DB.withDead, LogFile.withDead, DB.saveIndex]
  have hold : ∀ f ∈ d.onDisk closed, f.index = none → f.num = num → ∀ r ∈ dead, r.update.Blank := by
    intro f hf hnone hnum
    obtain hf | hf := mem_append.mp hf
    · exact absurd hnone (hindexed f hf)
    · rw [mem_singleton.mp hf] at hnone hnum
      cases closed with
      | true => cases hnone
      | false => exact hdead rfl hnum
  rw [DB.reopen, DB.reopen, openDB, openDB, hdisk, loadFiles_withDead hold]
  cases loadFiles (d.onDisk closed) with
  | error e => rfl
  | ok r =>
    simp only [Except.map, ok_bind, Except.ok.injEq]
    have hfresh (n : NodeIndex) :
      (⟨r.1.map (LogFile.withDead num dead), d.nextFileNum, [], 0, d.nextFileNum + 1, n, emptyState⟩ : DB) =
        DB.withDead num dead emptyState ⟨r.1, d.nextFileNum, [], 0, d.nextFileNum + 1, n, emptyState⟩ := by
      simp [DB.withDead, overDead_of_ne hne]
    rw [show (d.withDead num dead s).nextFileNum = d.nextFileNum from rfl, hfresh, compactionLocked_withDead]
    exact (apply_ite (DB.withDead num dead emptyState) _ _ _).symm

/-! ### Reading past the old records -/

theorem readLog_withDead (hdead : ∀ r ∈ dead, r.offset < base) (h : ie.fileNum = num → base ≤ ie.pos) :
    (d.withDead num dead s).readLog ie = d.readLog ie := by
  have hlogs : (d.withDead num dead s).logs = d.logs.map fun f => (f.1, overDead num dead f.1 f.2) := by
    simp [DB.logs, DB.withDead, LogFile.withDead]
  have hfound : (d.withDead num dead s).logs.find? (fun f => f.1 = ie.fileNum) =
      (d.logs.find? fun f => f.1 = ie.fileNum).map fun f => (f.1, overDead num dead f.1 f.2) := by
    rw [hlogs, List.find?_map]
    rfl
  rw [DB.readLog, DB.readLog, hfound]
  cases hfind : d.logs.find? fun f => f.1 = ie.fileNum with
  | none => rfl
  | some f =>
    have hnum : f.1 = ie.fileNum := by simpa using List.find?_some hfind
    simp only [Option.map_some, overDead]
    split_ifs with heq
    · have hpos := h (hnum.symm.trans heq)
      rw [dropWhile_append_of_pos fun r hr => by simpa using (hdead r hr).trans_le hpos]
    · rfl

/-- What follows the core under the old records: a store that has none of them. -/
structure Over (num base : ℕ) (dead : List Record) (s : State) (d : DB) (c : Saved) : Prop where
  tracks : Tracks d c
  above : Above num base d
  below : ∀ r ∈ dead, r.offset < base
  cached : s = d.state ∨ c.state = emptyState

theorem Over.readLog (h : Over num base dead s d c) (ie : IndexEntry) (hu : d.Holds ie.place u) :
    (d.withDead num dead s).readLog ie = d.readLog ie :=
  readLog_withDead h.below fun hnum => h.above.of_holds hu hnum

theorem Over.stored (h : Over num base dead s d c) : Stored opts (d.withDead num dead s) c := by
  have ht := h.tracks
  refine ⟨fun hne => ?_, fun heq lastIndex => ?_, ?_, fun low high hlow hlt hhigh => ?_⟩
  · obtain ⟨heq, -⟩ | ⟨-, -, u, hu, hst⟩ := ht.state
    · exact absurd heq hne
    · rw [← hst, ← ht.laid.readState hu (hst ▸ hne), DB.readState, DB.readState]
      exact congrArg (· >>= _) (h.readLog _ hu)
  · obtain ⟨-, hnone⟩ | ⟨hne, -⟩ := ht.state
    · rw [DB.getRaftState]
      exact if_pos (by rw [show (d.withDead num dead s).index = d.index from rfl, hnone]; rfl)
    · exact absurd heq hne
  · rw [← ht.getSnapshot, DB.getSnapshot, DB.getSnapshot]
    obtain ⟨-, hnone⟩ | ⟨-, -, u, hu, -⟩ := ht.snapshot
    · rw [show (d.withDead num dead s).index = d.index from rfl, hnone]
      rfl
    · rw [show (d.withDead num dead s).index = d.index from rfl, h.readLog _ hu]
  · obtain ⟨size, hsize⟩ := ht.laid.getEntries opts (ht.has.mono (Nat.succ_le_of_lt hlow) hhigh) hlt
      (ht.compacted.entries.trans_lt hlow)
    refine ⟨size, hsize ▸ ?_⟩
    rw [DB.getEntries, DB.getEntries, show (d.withDead num dead s).index = d.index from rfl]
    congr 1
    rw [readRuns_congr]
    intro ie hie
    obtain ⟨u, -, -, hu, -⟩ := ht.laid.run_record (mem_query hie)
    exact h.readLog _ hu

/-! ### Runs after the removal -/

theorem Over.doWriteLocked {c' : Saved} (h : Over num base dead s d c) (ha : Appends c u c') :
    Over num base dead u.state (d.doWriteLocked opts u) c' :=
  ⟨h.tracks.makeRoomForWrite.append ha, h.above.makeRoomForWrite.append, h.below, .inl rfl⟩

theorem loadFiles_mem {files' : List LogFile} {n : NodeIndex} (h : loadFiles files = .ok (files', n))
    (hf : f ∈ files') : ∃ g ∈ files, g.num = f.num ∧ g.records = f.records := by
  unfold loadFiles at h
  split at h
  · cases h
    exact ⟨f, hf, rfl, rfl⟩
  · cases h
    obtain ⟨g, hg, rfl⟩ := mem_map.mp hf
    refine ⟨g, hg, ?_⟩
    split_ifs <;> exact ⟨rfl, rfl⟩
  · cases h

theorem Above.reopen (h : Above num base d) (hd : d.reopen closed = .ok d') : Above num base d' := by
  have hne : d.nextFileNum ≠ num := h.old.ne'
  obtain ⟨⟨files, n⟩, hload, heq⟩ := bind_eq_ok_iff.mp hd
  have habove : Above num base ⟨files, d.nextFileNum, [], 0, d.nextFileNum + 1, n, emptyState⟩ := by
    refine ⟨Nat.lt_succ_of_lt h.old, fun f hf hnum => ?_, fun heq => absurd heq hne, fun heq => absurd heq hne⟩
    obtain ⟨g, hg, hgnum, hgrec⟩ := loadFiles_mem hload hf
    rw [← hgrec]
    obtain hg | hg := mem_append.mp hg
    · exact h.files g hg (hgnum.trans hnum)
    · rw [mem_singleton.mp hg] at hgnum ⊢
      exact h.records (hgnum.trans hnum)
  cases heq
  split_ifs
  · exact habove.compactionLocked
  · exact habove

theorem reopen_state (hd : d.reopen closed = .ok d') : d'.state = emptyState := by
  obtain ⟨r, -, heq⟩ := bind_eq_ok_iff.mp hd
  cases heq
  split_ifs <;> rfl

/-- An event that is clear of what the removal left behind does what it does to a store
without it. -/
theorem Over.step (opts : Options) {e : Event} (h : Over num base dead s d c) (hh : c.Hands e)
    (hclear : (d.withDead num dead s).Clear num dead e) :
    ∃ d' s', e.run opts (d.withDead num dead s) = .ok (d'.withDead num dead s') ∧
    Over num base dead s' d' (e.core c) := by
  have ht := h.tracks
  have hwf := ht.wf
  have hstarted := ht.started
  cases e with
  | saveRaftState u =>
    have hflag := hh.2.2.1
    rw [Event.run, DB.write, if_neg (by simp [isCompactionUpdate_of_ne hflag]), Event.core]
    split_ifs with hskip
    · obtain ⟨hst, hempty, hnil⟩ := hskip
      refine ⟨d, s, rfl, ?_⟩
      have hsame : c.save u = c := by
        change u.state = s at hst
        obtain hs | hs := h.cached
        · exact ht.save_of_cached hflag (hst.trans hs) hempty hnil
        · obtain ⟨-, hnone⟩ | ⟨hne, -⟩ := ht.state
          · rw [c.save_state hempty hnil, Saved.setState, if_pos (hclear hnone hst hempty hnil)]
          · exact absurd hs hne
      rw [hsame]
      exact h
    · exact ⟨_, _, congrArg _ (doWriteLocked_withDead h.above.old), h.doWriteLocked (appends_save hwf hstarted hh)⟩
  | saveSnapshots ss =>
    rw [Event.run, DB.saveSnapshots, Event.core]
    split_ifs with hempty
    · have hzero : ss.index = 0 := by simpa [Snapshot.isEmpty] using hempty
      rw [Saved.saveSnapshot, if_neg (by omega)]
      exact ⟨d, s, rfl, h⟩
    · have hne : ss.isEmpty = false := by simpa using hempty
      rw [DB.write, if_neg (by simp [isCompactionUpdate, hne]), if_neg fun hskip => hempty hskip.2.1]
      exact ⟨_, _, congrArg _ (doWriteLocked_withDead h.above.old),
        h.doWriteLocked (appends_saveSnapshot hwf hstarted hh hne)⟩
  | removeEntriesTo index =>
    have hwritten : Over num base dead _ (d.doWriteLocked opts _) c :=
      h.doWriteLocked (appends_compaction hwf hstarted hh)
    refine ⟨_, (getCompactionUpdate index).state, congrArg Except.ok ?_, hwritten.tracks.compactionLocked,
      hwritten.above.compactionLocked, h.below, .inl rfl⟩
    rw [DB.removeEntries_eq]
    exact (congrArg _ (doWriteLocked_withDead h.above.old)).trans compactionLocked_withDead
  | reopen closed =>
    obtain ⟨d', hd', htracks⟩ := ht.reopen closed
    have hindexed : ∀ f ∈ d.files, f.index ≠ none := fun f hf hnone => by
      obtain ⟨saved, hsaved⟩ := ht.laid.indexed f hf
      simp [hsaved.1] at hnone
    refine ⟨d', emptyState, ?_, htracks.restart, h.above.reopen hd', h.below, .inl (reopen_state hd').symm⟩
    rw [Event.run, reopen_withDead h.above.old hindexed hclear, hd']
    rfl

theorem Over.run (opts : Options) {es : List Event} (h : Over num base dead s d c) (hh : Hands es c)
    (hclear : Clear opts num dead es (d.withDead num dead s)) :
    ∃ d' s', runEvents opts es (d.withDead num dead s) = .ok (d'.withDead num dead s') ∧
    Over num base dead s' d' (coreAfter es c) := by
  induction es generalizing d c s with
  | nil => exact ⟨d, s, rfl, h⟩
  | cons e es ih =>
    obtain ⟨d1, s1, hstep, h1⟩ := h.step opts hh.1 hclear.1
    have hrest := hclear.2
    rw [hstep] at hrest
    obtain ⟨d', s', hrun, h'⟩ := ih h1 hh.2 hrest
    refine ⟨d', s', ?_, h'⟩
    rw [runEvents, hstep, ok_bind, hrun]

/-! ### Any history before the removal -/

/-- Files are numbered from one on, and records end before the offset. -/
structure DB.Numbered (d : DB) : Prop where
  positive : 0 < d.logNum
  next : d.logNum < d.nextFileNum
  room : ∀ r ∈ d.records, r.offset < d.offset

section
variable (h : d.Numbered)
include h

theorem DB.Numbered.doWriteLocked : (d.doWriteLocked opts u).Numbered := by
  have hroom : (d.makeRoomForWrite opts).Numbered := by
    unfold DB.makeRoomForWrite
    split_ifs
    · exact h
    · exact ⟨h.positive.trans h.next, lt_add_one _, fun r hr => by cases hr⟩
  refine ⟨hroom.positive, hroom.next, fun r hr => ?_⟩
  have hadv := opts.advances (d.makeRoomForWrite opts).offset u
  obtain hr | hr := mem_append.mp hr
  · exact (hroom.room r hr).trans hadv
  · rw [mem_singleton.mp hr]
    exact hadv

variable {d' : DB}

theorem DB.Numbered.write (hd : d.write opts u = .ok d') : d'.Numbered := by
  unfold DB.write at hd
  split_ifs at hd
  · cases hd
    exact h
  · cases hd
    exact h.doWriteLocked

theorem DB.Numbered.step {op : Operation} (hd : op.run opts d = .ok d') : d'.Numbered := by
  match op with
  | .removeNodeData =>
    cases hd
    exact ⟨h.positive, h.next, h.room⟩
  | .event (.saveRaftState u) => exact h.write hd
  | .event (.saveSnapshots ss) =>
    rw [Operation.run, Event.run, DB.saveSnapshots] at hd
    split_ifs at hd
    · cases hd
      exact h
    · exact h.write hd
  | .event (.removeEntriesTo index) =>
    cases hd
    have hwritten : (d.doWriteLocked opts (getCompactionUpdate index)).Numbered := h.doWriteLocked
    exact ⟨hwritten.positive, hwritten.next, hwritten.room⟩
  | .event (.reopen closed) =>
    obtain ⟨r, -, heq⟩ := bind_eq_ok_iff.mp hd
    have hfresh : DB.Numbered ⟨r.1, d.nextFileNum, [], 0, d.nextFileNum + 1, r.2, emptyState⟩ :=
      ⟨h.positive.trans h.next, lt_add_one _, fun r hr => by cases hr⟩
    cases heq
    split_ifs
    · exact ⟨hfresh.positive, hfresh.next, hfresh.room⟩
    · exact hfresh

theorem DB.Numbered.run {ops : List Operation} (hd : runOperations opts ops d = .ok d') : d'.Numbered := by
  induction ops generalizing d with
  | nil =>
    cases hd
    exact h
  | cons op ops ih =>
    obtain ⟨d1, hstep, hrun⟩ := bind_eq_ok_iff.mp hd
    exact ih (h.step hstep) hrun

theorem DB.Numbered.removeAll : ∃ d0, d.removeAll = d0.withDead d.logNum d.records d.state ∧
    Over d.logNum d.offset d.records d.state d0 .init := by
  refine ⟨⟨[], d.logNum, [], d.offset, d.nextFileNum, .init, emptyState⟩, ?_, tracks_fresh h.positive h.next,
    ⟨h.next, by simp, by simp, fun _ => le_rfl⟩, h.room, .inr rfl⟩
  simp [DB.removeAll, DB.withDead, overDead]

end

end

/-- After any history, removing the data of the replica is final when nothing meets what
the removal leaves behind: reopened, the store shows nothing of the replica, and what is
written later is stored in full. -/
theorem removal_is_final (opts : Options) (ops : List Operation) (d : DB) (hd : runOperations opts ops newDB = .ok d) :
    (∀ closed, (closed = false → ∀ r ∈ d.records, r.update.Blank) →
      ∃ d', d.removeAll.reopen closed = .ok d' ∧ d'.Nothing opts) ∧
    ∀ es, Hands es .init → Clear opts d.logNum d.records es d.removeAll →
      ∃ d', runEvents opts es d.removeAll = .ok d' ∧ Stored opts d' (coreAfter es .init) := by
  refine ⟨fun closed h => reopen_removeAll closed h, fun es hhands hclear => ?_⟩
  have hnum : newDB.Numbered := ⟨one_pos, one_lt_two, fun r hr => by cases hr⟩
  obtain ⟨d0, heq, hover⟩ := (hnum.run hd).removeAll
  rw [heq] at hclear ⊢
  obtain ⟨d', s', hrun, h'⟩ := hover.run opts hhands hclear
  exact ⟨_, hrun, h'.stored⟩

/-- A replica that voted, had entries and a snapshot, and was removed. -/
def removedReplica : List Operation :=
  [.event (.saveRaftState ⟨⟨1, 1, 0⟩, [entryOf 1 1, entryOf 2 1], emptySnapshot⟩), .removeNodeData,
    .event (.saveRaftState ⟨⟨2, 3, 2⟩, [entryOf 1 2], emptySnapshot⟩),
    .event (.saveSnapshots ⟨1, 2, ⟨[1, 2, 3], [], []⟩⟩), .event (.saveRaftState ⟨⟨3, 1, 2⟩, [], emptySnapshot⟩)]

/-- The replica comes back with the vote it had, closes its store, and dies later. -/
def returningReplica : List Event :=
  [.saveRaftState ⟨⟨3, 1, 2⟩, [entryOf 1 3], emptySnapshot⟩, .reopen true,
    .saveRaftState ⟨⟨4, 0, 1⟩, [], emptySnapshot⟩, .reopen false]

theorem removal_is_final_returningReplica : ∃ d, runOperations smallFiles removedReplica newDB = .ok d ∧
    (∃ d', d.removeAll.reopen true = .ok d' ∧ d'.Nothing smallFiles) ∧
    ∃ d', runEvents smallFiles returningReplica d.removeAll = .ok d' ∧
      Stored smallFiles d' (coreAfter returningReplica .init) := by
  obtain ⟨d, hd, hclear⟩ : ∃ d, runOperations smallFiles removedReplica newDB = .ok d ∧
      Clear smallFiles d.logNum d.records returningReplica d.removeAll := ⟨_, rfl, by decide +kernel⟩
  obtain ⟨hnothing, hstored⟩ := removal_is_final smallFiles removedReplica d hd
  have hhands : Hands returningReplica .init := by
    simp [returningReplica, Hands, Saved.Hands, Event.core]
    decide
  exact ⟨d, hd, hnothing true (by simp), hstored returningReplica hhands hclear⟩

/-- A replica that only voted. -/
def voter : Update := ⟨⟨1, 1, 0⟩, [], emptySnapshot⟩

/-- The vote is still in the current file, so it is back when the process dies after the
removal; and the same vote is not written again, because it is still cached. -/
theorem removal_leaves_vote :
    (¬ ∀ (opts : Options) (ops : List Operation) (d : DB), runOperations opts ops newDB = .ok d →
      ∀ closed, ∃ d', d.removeAll.reopen closed = .ok d' ∧ d'.Nothing opts) ∧
    ¬ ∀ (opts : Options) (ops : List Operation) (d : DB), runOperations opts ops newDB = .ok d →
      ∀ es, Hands es .init → ∃ d', runEvents opts es d.removeAll = .ok d' ∧ Stored opts d' (coreAfter es .init) := by
  constructor
  · intro h
    obtain ⟨d, hd, hshown⟩ : ∃ d, runOperations smallFiles [.event (.saveRaftState voter)] newDB = .ok d ∧
        (d.removeAll.reopen false >>= fun d' => d'.getRaftState 0) = .ok ⟨voter.state, 0, 0⟩ := ⟨_, rfl, rfl⟩
    obtain ⟨d', hopen, hnothing⟩ := h smallFiles _ d hd false
    rw [hopen, ok_bind, hnothing.state 0] at hshown
    cases hshown
  · intro h
    obtain ⟨d', hrun, hstored⟩ := h smallFiles [.event (.saveRaftState voter)] _ rfl [.saveRaftState voter]
      (by simp [voter, Hands, Saved.Hands]; decide)
    cases hrun
    have hstate := hstored.state (by decide)
    cases hstate

end Armada.Tan
