import Armada.Tan.Db

/-! What is on disk and what the index says about it: the index of the runs is the one the
records of the kept files give, the pointers are to the last state and to the newest
snapshot, and a restart finds both again. -/

namespace Armada.Tan

open Raft Program List

/-- The runs of the entries in the records of a file. -/
def fileRuns (num : ℕ) (records : List Record) : List IndexEntry :=
  records.filterMap fun r => entriesRun num r.offset r.update.entriesToSave

def logRuns (logs : List (ℕ × List Record)) : List IndexEntry := logs.flatMap fun f => fileRuns f.1 f.2

def DB.runs (d : DB) : List IndexEntry := logRuns d.logs

/-- The record at the place holds the update. -/
def DB.Holds (d : DB) (place : ℕ × ℕ) (u : Update) : Prop :=
  ∃ records, (place.1, records) ∈ d.logs ∧ ⟨place.2, u⟩ ∈ records

/-- Files in the order of their numbers, records in that of their offsets. -/
structure InOrder (logs : List (ℕ × List Record)) : Prop where
  nums : logs.Pairwise fun f g => f.1 < g.1
  positive : ∀ f ∈ logs, 0 < f.1
  offsets : ∀ f ∈ logs, f.2.Pairwise fun r r' => r.offset < r'.offset
  entries : ∀ f ∈ logs, ∀ r ∈ f.2, ∀ e es, r.update.entriesToSave = e :: es → Consecutive e.index (e :: es)

section
variable {logs logs' : List (ℕ × List Record)} {d : DB} {num pos i : ℕ} {u : Update} {w : IndexEntry}

variable {es : List Entry}

theorem last_index {e : Entry} (h : Consecutive e.index (e :: es)) :
    (es.getLast?.getD e).index = e.index + es.length := by
  cases hlast : es.getLast? with
  | none => simp [List.getLast?_eq_none_iff.mp hlast]
  | some last =>
    obtain ⟨rest, rfl⟩ := List.getLast?_eq_some_iff.mp hlast
    have := consecutive_iff.mp h (rest.length + 1) (by simp)
    simpa [Nat.add_comm, Nat.add_left_comm] using this

theorem mem_fileRuns {records : List Record} : w ∈ fileRuns num records ↔
    ∃ r ∈ records, entriesRun num r.offset r.update.entriesToSave = some w := by
  simp [fileRuns]

/-- A run stands for the entries of a record, from the first to the last. -/
theorem entriesRun_eq_some (h : entriesRun num pos es = some w) :
    ∃ e rest, es = e :: rest ∧ w = ⟨e.index, (rest.getLast?.getD e).index, num, pos, 0⟩ := by
  cases es with
  | nil => simp [entriesRun] at h
  | cons e rest => exact ⟨e, rest, rfl, by simpa [entriesRun] using h.symm⟩

theorem mem_logRuns :
    w ∈ logRuns logs ↔ ∃ f ∈ logs, ∃ r ∈ f.2, entriesRun f.1 r.offset r.update.entriesToSave = some w := by
  simp [logRuns, mem_fileRuns]

theorem InOrder.sublist (h : InOrder logs) (hs : logs'.Sublist logs) : InOrder logs' :=
  ⟨h.nums.sublist hs, fun f hf => h.positive f (hs.subset hf), fun f hf => h.offsets f (hs.subset hf),
    fun f hf => h.entries f (hs.subset hf)⟩

theorem place_of_entriesRun (h : entriesRun num pos es = some w) : w.fileNum = num ∧ w.pos = pos ∧ w.length = 0 := by
  obtain ⟨e, rest, -, rfl⟩ := entriesRun_eq_some h
  exact ⟨rfl, rfl, rfl⟩

theorem InOrder.written (h : InOrder logs) : Written (logRuns logs) := by
  refine ⟨pairwise_flatMap.mpr ⟨fun f hf => ?_, h.nums.imp fun hlt v hv w hw => ?_⟩, fun w hw => ?_⟩
  · refine List.Pairwise.filterMap _ (fun r r' hlt v hv w hw => ?_) (h.offsets f hf)
    obtain ⟨hf1, hp1, -⟩ := place_of_entriesRun hv
    obtain ⟨hf2, hp2, -⟩ := place_of_entriesRun hw
    exact .inr ⟨by omega, by omega⟩
  · obtain ⟨r, -, hv⟩ := mem_fileRuns.mp hv
    obtain ⟨r', -, hw⟩ := mem_fileRuns.mp hw
    obtain ⟨hf1, -⟩ := place_of_entriesRun hv
    obtain ⟨hf2, -⟩ := place_of_entriesRun hw
    exact .inl (by omega)
  · obtain ⟨f, hf, r, hr, hw⟩ := mem_logRuns.mp hw
    obtain ⟨e, rest, hes, rfl⟩ := entriesRun_eq_some hw
    have := last_index (h.entries f hf r hr e rest hes)
    exact ⟨by dsimp only; omega, rfl⟩

/-! ### What a write does to the index -/

theorem entriesRun_of_compaction {c : ℕ} (h : isCompactionUpdate u = some c) :
    entriesRun num pos u.entriesToSave = none := by
  rw [isCompactionUpdate] at h
  split_ifs at h with hc
  rw [hc.1, entriesRun]

/-- The pointer to the last state after one more record. -/
def stateAfter (num : ℕ) (p : IndexEntry) (r : Record) : IndexEntry :=
  if isCompactionUpdate r.update = none ∧ r.update.state ≠ emptyState then
    ⟨r.update.state.commit, stateFlag, num, r.offset, 0⟩
  else p

/-- The pointer to the newest snapshot after one more record. -/
def snapshotAfter (num : ℕ) (p : IndexEntry) (r : Record) : IndexEntry :=
  if p.start < r.update.snapshot.index then ⟨r.update.snapshot.index, snapshotFlag, num, r.offset, 0⟩ else p

section
variable (n : NodeIndex)

theorem updateIndex_state : (updateIndex n u pos num).state = stateAfter num n.state ⟨pos, u⟩ := by
  rw [updateIndex, stateAfter]
  cases hc : isCompactionUpdate u with
  | some c => simp
  | none =>
    cases entriesRun num pos u.entriesToSave <;> dsimp only <;> split_ifs <;> simp_all

theorem updateIndex_snapshot : (updateIndex n u pos num).snapshot = snapshotAfter num n.snapshot ⟨pos, u⟩ := by
  rw [updateIndex, snapshotAfter]
  cases hc : isCompactionUpdate u with
  | some c =>
    have : u.snapshot.index = 0 := by
      rw [isCompactionUpdate] at hc
      split_ifs at hc with h
      simpa [Snapshot.isEmpty] using h.2.1
    simp [this]
  | none =>
    cases entriesRun num pos u.entriesToSave <;> dsimp only <;> split_ifs <;>
      simp_all [Snapshot.isEmpty]

theorem updateIndex_runs : (updateIndex n u pos num).entries.entries =
      (entriesRun num pos u.entriesToSave).toList.foldl updateEntries n.entries.entries ∧
    (updateIndex n u pos num).currEntries.entries =
      (entriesRun num pos u.entriesToSave).toList.foldl updateEntries n.currEntries.entries := by
  rw [updateIndex]
  cases hc : isCompactionUpdate u with
  | some c =>
    rw [entriesRun_of_compaction hc]
    simp only [Index.setCompactedTo]
    constructor <;> split_ifs <;> rfl
  | none =>
    cases entriesRun num pos u.entriesToSave <;> dsimp only <;> split_ifs <;> exact ⟨rfl, rfl⟩

variable {bound : ℕ}

theorem setCompactedTo_le {idx : Index} {c : ℕ} (hidx : idx.compactedTo ≤ bound) (hc : c ≤ bound) :
    (idx.setCompactedTo c).compactedTo ≤ bound := by
  rw [Index.setCompactedTo]
  split_ifs
  · exact hc
  · exact hidx

@[simp]
theorem setCompactedTo_entries (idx : Index) (c : ℕ) : (idx.setCompactedTo c).entries = idx.entries := by
  rw [Index.setCompactedTo]
  split_ifs <;> rfl

/-- The compaction indexes of the index stay below a bound on those of the updates. -/
theorem updateIndex_compactedTo (pos num : ℕ) (hn : n.entries.compactedTo ≤ bound ∧ n.currEntries.compactedTo ≤ bound)
    (hu : ∀ c, isCompactionUpdate u = some c → c ≤ bound) : (updateIndex n u pos num).entries.compactedTo ≤ bound ∧
    (updateIndex n u pos num).currEntries.compactedTo ≤ bound := by
  rw [updateIndex]
  cases hc : isCompactionUpdate u with
  | some c => exact ⟨setCompactedTo_le hn.1 (hu c hc), setCompactedTo_le hn.2 (hu c hc)⟩
  | none =>
    cases entriesRun num pos u.entriesToSave <;> dsimp only <;> split_ifs <;> exact hn

end

/-! ### The index a restart builds -/

def loaded (files : List LogFile) : NodeIndex := (files.filterMap (·.index)).foldl load .init

def filesLogs (files : List LogFile) : List (ℕ × List Record) := files.map fun f => (f.num, f.records)

/-- A closed file has the index of its own records beside it. -/
def Indexed (f : LogFile) (s : SavedIndex) : Prop :=
  f.index = some s ∧ s.entries.entries = indexOf (fileRuns f.num f.records)

variable {us ws : List IndexEntry}

theorem loadEntries_eq_stack {l : List IndexEntry} (hl : Runs us l) (h : Written (us ++ ws)) :
    loadEntries l (indexOf ws).reverse = stack (indexOf ws) l := by
  have hws := (written_append.mp h).2.1.runs
  cases hlast : (indexOf ws).getLast? with
  | none => rw [List.getLast?_eq_none_iff.mp hlast]; rfl
  | some first =>
    obtain ⟨newer, heq⟩ := List.getLast?_eq_some_iff.mp hlast
    have hupdate : updateEntries l first = first :: cut first.start l := by
      obtain ⟨w, hw, hpart⟩ := hws.part first (mem_of_getLast? hlast)
      refine updateEntries_eq hl.disjoint fun a ha => ?_
      obtain ⟨v, hv, hpa⟩ := hl.part a ha
      obtain ⟨hus, -, hcross⟩ := written_append.mp h
      have holder : Older v first := by
        have hplace := hpart.place
        simp only [IndexEntry.place, Prod.mk.injEq] at hplace
        have := hcross v hv w hw
        rwa [Older, hplace.1, hplace.2]
      exact ⟨hpa.older holder, hpa.length.trans (hus.run v hv).2⟩
    rw [stack, hlast]
    simp [heq, loadEntries, hupdate]

theorem load_entries {n : NodeIndex} {s : SavedIndex} (hn : n.entries.entries = indexOf us)
    (hs : s.entries.entries = indexOf ws) (h : Written (us ++ ws)) :
    (load n s).entries.entries = indexOf (us ++ ws) := by
  have hus := (written_append.mp h).1.runs
  rw [load, setCompactedTo_entries, hn, hs, loadEntries_eq_stack hus h, ← foldl_updateEntries hus h, indexOf,
    indexOf, foldl_append]

theorem loaded_concat (files : List LogFile) (f : LogFile) :
    loaded (files ++ [f]) = f.index.toList.foldl load (loaded files) := by
  cases hi : f.index <;> simp [loaded, hi]

theorem loaded_entries {files : List LogFile} (hf : ∀ f ∈ files, ∃ s, Indexed f s) (h : InOrder (filesLogs files)) :
    (loaded files).entries.entries = indexOf (logRuns (filesLogs files)) := by
  induction files using List.reverseRecOn with
  | nil => rfl
  | append_singleton files f ih =>
    have hsub : (filesLogs files).Sublist (filesLogs (files ++ [f])) := by simp [filesLogs]
    obtain ⟨s, hidx, hs⟩ := hf f (by simp)
    have hih := ih (fun g hg => hf g (mem_append_left _ hg)) (h.sublist hsub)
    have hruns : logRuns (filesLogs (files ++ [f])) = logRuns (filesLogs files) ++ fileRuns f.num f.records := by
      simp [logRuns, filesLogs]
    have hw := h.written
    rw [hruns] at hw ⊢
    rw [loaded_concat, hidx]
    exact load_entries hih hs hw

theorem foldl_toList {α β γ : Type} (g : β → γ → β) (f : α → Option γ) (l : List α) (b : β) :
    l.foldl (fun b a => (f a).toList.foldl g b) b = (l.filterMap f).foldl g b := by
  induction l generalizing b with
  | nil => rfl
  | cons a l ih =>
    rw [foldl_cons, ih, filterMap_cons]
    cases f a <;> rfl

section
variable (n : NodeIndex) (f : LogFile)

theorem rebuildIndex_foldl {α : Type} (proj : NodeIndex → α) (g : α → Record → α)
    (h : ∀ n r, proj (updateIndex n r.update r.offset f.num) = g (proj n) r) :
    proj (rebuildIndex n f) = f.records.foldl g (proj n) := by
  rw [rebuildIndex]
  induction f.records generalizing n with
  | nil => rfl
  | cons r rs ih => rw [foldl_cons, ih, h, foldl_cons]

theorem rebuildIndex_entries : (rebuildIndex n f).entries.entries =
    (fileRuns f.num f.records).foldl updateEntries n.entries.entries := by
  rw [fileRuns, ← foldl_toList]
  exact rebuildIndex_foldl n f (·.entries.entries) _ fun n r => (updateIndex_runs n).1

theorem rebuildIndex_currEntries : (rebuildIndex n f).currEntries.entries =
    (fileRuns f.num f.records).foldl updateEntries n.currEntries.entries := by
  rw [fileRuns, ← foldl_toList]
  exact rebuildIndex_foldl n f (·.currEntries.entries) _ fun n r => (updateIndex_runs n).2

theorem rebuildIndex_state : (rebuildIndex n f).state = f.records.foldl (stateAfter f.num) n.state :=
  rebuildIndex_foldl n f (·.state) _ fun n _ => updateIndex_state n

theorem rebuildIndex_snapshot : (rebuildIndex n f).snapshot = f.records.foldl (snapshotAfter f.num) n.snapshot :=
  rebuildIndex_foldl n f (·.snapshot) _ fun n _ => updateIndex_snapshot n

theorem rebuildIndex_compactedTo {bound : ℕ} (hn : n.entries.compactedTo ≤ bound ∧ n.currEntries.compactedTo ≤ bound)
    (hf : ∀ r ∈ f.records, ∀ c, isCompactionUpdate r.update = some c → c ≤ bound) :
    (rebuildIndex n f).entries.compactedTo ≤ bound ∧ (rebuildIndex n f).currEntries.compactedTo ≤ bound := by
  rw [rebuildIndex]
  exact List.foldlRecOn (motive := fun n => n.entries.compactedTo ≤ bound ∧ n.currEntries.compactedTo ≤ bound)
    f.records _ hn fun n hn r hr => updateIndex_compactedTo n r.offset f.num hn (hf r hr)

end

/-! ### Pointers -/

section
variable {rs : List Record} {p q : IndexEntry}

/-- A pointer that moved moved into the file, and would have done so from anywhere. -/
theorem foldl_stateAfter (num : ℕ) (rs : List Record) (p q : IndexEntry) :
    rs.foldl (stateAfter num) p = p ∧ rs.foldl (stateAfter num) q = q ∨
    (rs.foldl (stateAfter num) p).fileNum = num ∧ rs.foldl (stateAfter num) q = rs.foldl (stateAfter num) p := by
  induction rs generalizing p q with
  | nil => exact .inl ⟨rfl, rfl⟩
  | cons r rs ih =>
    rw [foldl_cons, foldl_cons]
    by_cases hr : isCompactionUpdate r.update = none ∧ r.update.state ≠ emptyState
    · rw [stateAfter, stateAfter, if_pos hr, if_pos hr]
      refine .inr ⟨?_, rfl⟩
      obtain ⟨hp, -⟩ | ⟨hnum, -⟩ := ih ⟨r.update.state.commit, stateFlag, num, r.offset, 0⟩ p
      · rw [hp]
      · exact hnum
    · rw [stateAfter, stateAfter, if_neg hr, if_neg hr]
      exact ih p q

/-- A pointer that moved moved into the file, and would have done so from any older snapshot. -/
theorem foldl_snapshotAfter (num : ℕ) (rs : List Record) (p : IndexEntry) : rs.foldl (snapshotAfter num) p = p ∨
    (rs.foldl (snapshotAfter num) p).fileNum = num ∧ p.start < (rs.foldl (snapshotAfter num) p).start ∧
    ∀ q : IndexEntry, q.start < (rs.foldl (snapshotAfter num) p).start →
    rs.foldl (snapshotAfter num) q = rs.foldl (snapshotAfter num) p := by
  induction rs generalizing p with
  | nil => exact .inl rfl
  | cons r rs ih =>
    have hstep : ∀ q : IndexEntry, snapshotAfter num q r = q ∧ r.update.snapshot.index ≤ q.start ∨
        snapshotAfter num q r = ⟨r.update.snapshot.index, snapshotFlag, num, r.offset, 0⟩ ∧
          q.start < r.update.snapshot.index := fun q => by
      rw [snapshotAfter]
      split_ifs with h
      · exact .inr ⟨rfl, h⟩
      · exact .inl ⟨rfl, by omega⟩
    simp only [foldl_cons]
    obtain ⟨hp, hle⟩ | ⟨hp, hlt⟩ := hstep p
    · rw [hp]
      refine (ih p).imp_right fun ⟨hnum, hmoved, hany⟩ => ⟨hnum, hmoved, fun q hq => ?_⟩
      obtain ⟨hq', -⟩ | ⟨hq', -⟩ := hstep q
      · rw [hq', hany q hq]
      · rw [hq']
        exact hany _ (lt_of_le_of_lt hle hmoved)
    · rw [hp]
      refine .inr ?_
      obtain hsame | ⟨hnum, hmoved, hany⟩ := ih ⟨r.update.snapshot.index, snapshotFlag, num, r.offset, 0⟩
      · rw [hsame]
        refine ⟨rfl, hlt, fun q hq => ?_⟩
        obtain ⟨-, hge⟩ | ⟨hq', -⟩ := hstep q
        · exact absurd hq (not_lt.mpr hge)
        · rw [hq', hsame]
      · refine ⟨hnum, hlt.trans hmoved, fun q hq => ?_⟩
        obtain ⟨hq', -⟩ | ⟨hq', -⟩ := hstep q
        · rw [hq', hany q hq]
        · rw [hq']

end

end

/-- A pointer saved with a file is to that file or an earlier one, and is still the pointer
of now unless that one is to a later file. -/
structure SavedBefore (saved now : IndexEntry) (num : ℕ) : Prop where
  file : saved.fileNum ≤ num
  same : now.fileNum ≤ num → saved = now

/-- The pointers of the index are those a restart finds. -/
structure Pointers (d : DB) : Prop where
  state : d.records.foldl (stateAfter d.logNum) (loaded d.files).state = d.index.state
  snapshot : d.records.foldl (snapshotAfter d.logNum) (loaded d.files).snapshot = d.index.snapshot
  savedState : ∀ f ∈ d.files, ∀ s, f.index = some s → SavedBefore s.state d.index.state f.num
  savedSnapshot : ∀ f ∈ d.files, ∀ s, f.index = some s → SavedBefore s.snapshot d.index.snapshot f.num
  newer : ∀ f ∈ d.files, ∀ s, f.index = some s → f.num < d.index.snapshot.fileNum →
    s.snapshot.start < d.index.snapshot.start
  stateFile : d.index.state = .none ∨ d.index.state.fileNum ∈ d.logs.map (·.1)
  snapshotFile : d.index.snapshot = .none ∨ d.index.snapshot.fileNum ∈ d.logs.map (·.1)

/-- Nothing above the bound was ever given up. -/
structure Compacted (d : DB) (bound : ℕ) : Prop where
  entries : d.index.entries.compactedTo ≤ bound
  currEntries : d.index.currEntries.compactedTo ≤ bound
  saved : ∀ f ∈ d.files, ∀ s, f.index = some s → s.entries.compactedTo ≤ bound
  records : ∀ r ∈ d.records, ∀ c, isCompactionUpdate r.update = some c → c ≤ bound

structure Laid (d : DB) : Prop where
  order : InOrder d.logs
  next : d.logNum < d.nextFileNum
  room : ∀ r ∈ d.records, r.offset < d.offset
  indexed : ∀ f ∈ d.files, ∃ s, Indexed f s
  curr : d.index.currEntries.entries = indexOf (fileRuns d.logNum d.records)
  runs : Runs d.runs d.index.entries.entries
  pointers : Pointers d

section
variable {d : DB} {bound : ℕ}

theorem Laid.written (h : Laid d) : Written d.runs := h.order.written

theorem Laid.logNum_positive (h : Laid d) : 0 < d.logNum := h.order.positive (d.logNum, d.records) (by simp [DB.logs])

theorem Laid.num_lt (h : Laid d) {f : LogFile} (hf : f ∈ d.files) : f.num < d.logNum := by
  have := (pairwise_append.mp h.order.nums).2.2 (f.num, f.records) (mem_map.mpr ⟨f, hf, rfl⟩)
    (d.logNum, d.records) (mem_singleton_self _)
  exact this

theorem Laid.fileNum_le (h : Laid d) {p : IndexEntry} (hp : p = .none ∨ p.fileNum ∈ d.logs.map (·.1)) :
    p.fileNum ≤ d.logNum := by
  obtain rfl | hp := hp
  · exact Nat.zero_le _
  · obtain ⟨f, hf, hnum⟩ := mem_map.mp hp
    obtain hf | hf := mem_append.mp hf
    · obtain ⟨g, hg, rfl⟩ := mem_map.mp hf
      exact hnum ▸ (h.num_lt hg).le
    · rw [← hnum, mem_singleton.mp hf]

theorem logs_switchToNewLog : d.switchToNewLog.logs = d.logs ++ [(d.nextFileNum, [])] := by
  simp [DB.switchToNewLog, DB.createNewLog, DB.logs]

theorem runs_switchToNewLog : d.switchToNewLog.runs = d.runs := by
  simp [DB.runs, logs_switchToNewLog, logRuns, fileRuns]

variable {num : ℕ}

theorem InOrder.concat {logs : List (ℕ × List Record)} (h : InOrder logs) (hnum : ∀ f ∈ logs, f.1 < num)
    (hpos : 0 < num) : InOrder (logs ++ [(num, [])]) := by
  refine ⟨pairwise_append.mpr ⟨h.nums, by simp, by simpa using hnum⟩, fun f hf => ?_, fun f hf => ?_,
    fun f hf => ?_⟩
  all_goals obtain hf | hf := mem_append.mp hf
  · exact h.positive f hf
  · obtain rfl := mem_singleton.mp hf
    exact hpos
  · exact h.offsets f hf
  · obtain rfl := mem_singleton.mp hf
    exact .nil
  · exact h.entries f hf
  · obtain rfl := mem_singleton.mp hf
    simp

theorem Laid.num_lt_next (h : Laid d) : ∀ f ∈ d.logs, f.1 < d.nextFileNum := by
  intro f hf
  have := h.next
  obtain hf | hf := mem_append.mp hf
  · obtain ⟨g, hg, rfl⟩ := mem_map.mp hf
    exact (h.num_lt hg).trans this
  · rw [mem_singleton.mp hf]
    exact this

theorem Laid.load_state (h : Laid d) : (load (loaded d.files) d.saveIndex).state = d.index.state := by
  have hstate := h.pointers.state
  change (if d.index.state.empty then (loaded d.files).state else d.index.state) = d.index.state
  split_ifs with hempty
  · obtain ⟨hsame, -⟩ | ⟨hnum, -⟩ := foldl_stateAfter d.logNum d.records (loaded d.files).state .none
    · rw [← hstate, hsame]
    · have hpos := h.logNum_positive
      rw [hstate] at hnum
      simp [IndexEntry.empty, hnum] at hempty
      omega
  · rfl

theorem Laid.switchToNewLog (h : Laid d) : Laid d.switchToNewLog := by
  have hpos := h.logNum_positive
  have hnext := h.next
  refine ⟨?_, lt_add_one _, by simp [DB.switchToNewLog, DB.createNewLog], fun f hf => ?_, rfl, ?_, ?_⟩
  · rw [logs_switchToNewLog]
    exact h.order.concat h.num_lt_next (by omega)
  · obtain hf | hf := mem_append.mp hf
    · exact h.indexed f hf
    · rw [mem_singleton.mp hf]
      exact ⟨_, rfl, h.curr⟩
  · rw [runs_switchToNewLog]
    exact h.runs
  · have hloaded : loaded d.switchToNewLog.files = load (loaded d.files) d.saveIndex := loaded_concat ..
    have hlogs : ∀ num, num ∈ d.logs.map (·.1) → num ∈ d.switchToNewLog.logs.map (·.1) := fun num hnum => by
      rw [logs_switchToNewLog, map_append]
      exact mem_append_left _ hnum
    refine ⟨?_, ?_, fun f hf s hs => ?_, fun f hf s hs => ?_, fun f hf s hs => ?_,
      h.pointers.stateFile.imp_right (hlogs _), h.pointers.snapshotFile.imp_right (hlogs _)⟩
    · rw [hloaded]
      exact h.load_state
    · rw [hloaded]
      rfl
    all_goals obtain hf | hf := mem_append.mp hf
    · exact h.pointers.savedState f hf s hs
    · obtain rfl := mem_singleton.mp hf
      cases hs
      exact ⟨h.fileNum_le h.pointers.stateFile, fun _ => rfl⟩
    · exact h.pointers.savedSnapshot f hf s hs
    · obtain rfl := mem_singleton.mp hf
      cases hs
      exact ⟨h.fileNum_le h.pointers.snapshotFile, fun _ => rfl⟩
    · exact h.pointers.newer f hf s hs
    · obtain rfl := mem_singleton.mp hf
      exact fun hlt => absurd (h.fileNum_le h.pointers.snapshotFile) (not_le.mpr hlt)

theorem Compacted.switchToNewLog (h : Compacted d bound) : Compacted d.switchToNewLog bound := by
  refine ⟨h.entries, Nat.zero_le _, fun f hf s hs => ?_, by simp [DB.switchToNewLog, DB.createNewLog]⟩
  obtain hf | hf := mem_append.mp hf
  · exact h.saved f hf s hs
  · obtain rfl := mem_singleton.mp hf
    cases hs
    exact h.currEntries

/-! ### One more record -/

section
variable {opts : Options} {u : Update}

theorem logs_append : (d.append opts u).logs = filesLogs d.files ++ [(d.logNum, d.records ++ [⟨d.offset, u⟩])] := rfl

theorem runs_append : (d.append opts u).runs = d.runs ++ (entriesRun d.logNum d.offset u.entriesToSave).toList := by
  rw [DB.runs, logs_append, DB.runs, DB.logs]
  cases h : entriesRun d.logNum d.offset u.entriesToSave <;> simp [logRuns, filesLogs, fileRuns, h]

/-- The last file may have other records. -/
theorem Laid.inOrder_last {rs : List Record} (h : Laid d) (hoffsets : rs.Pairwise fun r r' => r.offset < r'.offset)
    (hentries : ∀ r ∈ rs, ∀ e es, r.update.entriesToSave = e :: es → Consecutive e.index (e :: es)) :
    InOrder (filesLogs d.files ++ [(d.logNum, rs)]) := by
  have horder := h.order
  rw [DB.logs] at horder
  obtain ⟨hnums, -, hcross⟩ := pairwise_append.mp horder.nums
  refine ⟨pairwise_append.mpr ⟨hnums, by simp, by simpa [filesLogs] using hcross⟩, fun f hf => ?_, fun f hf => ?_,
    fun f hf => ?_⟩
  all_goals obtain hf | hf := mem_append.mp hf
  · exact horder.positive f (mem_append_left _ hf)
  · obtain rfl := mem_singleton.mp hf
    exact h.logNum_positive
  · exact horder.offsets f (mem_append_left _ hf)
  · obtain rfl := mem_singleton.mp hf
    exact hoffsets
  · exact horder.entries f (mem_append_left _ hf)
  · obtain rfl := mem_singleton.mp hf
    exact hentries

theorem DB.mem_logs (d : DB) : (d.logNum, d.records) ∈ d.logs := by simp [DB.logs]

theorem InOrder.append (h : Laid d) (hu : ∀ e es, u.entriesToSave = e :: es → Consecutive e.index (e :: es)) :
    InOrder (d.append opts u).logs := by
  refine h.inOrder_last (pairwise_append.mpr ⟨h.order.offsets _ d.mem_logs, by simp, by simpa using h.room⟩)
    fun r hr => ?_
  obtain hr | hr := mem_append.mp hr
  · exact h.order.entries _ d.mem_logs r hr
  · obtain rfl := mem_singleton.mp hr
    exact hu

theorem Laid.append (h : Laid d) (hu : ∀ e es, u.entriesToSave = e :: es → Consecutive e.index (e :: es)) :
    Laid (d.append opts u) := by
  have horder : InOrder (d.append opts u).logs := .append h hu
  have hwritten := horder.written
  refine ⟨horder, h.next, fun r hr => ?_, h.indexed, ?_, ?_, ?_⟩
  · have hadv := opts.advances d.offset u
    obtain hr | hr := mem_append.mp hr
    · exact (h.room r hr).trans hadv
    · rw [mem_singleton.mp hr]
      exact hadv
  · change (updateIndex d.index u d.offset d.logNum).currEntries.entries = _
    rw [(updateIndex_runs _).2, h.curr, indexOf, ← foldl_append]
    congr 1
    cases he : entriesRun d.logNum d.offset u.entriesToSave <;> simp [fileRuns, DB.append, he]
  · change Runs (d.append opts u).runs (updateIndex d.index u d.offset d.logNum).entries.entries
    change Written (d.append opts u).runs at hwritten
    rw [runs_append] at hwritten ⊢
    rw [(updateIndex_runs _).1]
    exact h.runs.foldl hwritten
  · have hfile : d.logNum ∈ (d.append opts u).logs.map (·.1) := by simp [logs_append]
    have hlogs : ∀ num, num ∈ d.logs.map (·.1) → num ∈ (d.append opts u).logs.map (·.1) := fun num => by
      rw [logs_append]
      simp [DB.logs, filesLogs]
    have hstate : (d.append opts u).index.state = stateAfter d.logNum d.index.state ⟨d.offset, u⟩ := updateIndex_state _
    have hsnap : (d.append opts u).index.snapshot = snapshotAfter d.logNum d.index.snapshot ⟨d.offset, u⟩ :=
      updateIndex_snapshot _
    refine ⟨?_, ?_, fun f hf s hs => ?_, fun f hf s hs => ?_, fun f hf s hs => ?_, ?_, ?_⟩
    · rw [hstate, ← h.pointers.state]
      exact foldl_append ..
    · rw [hsnap, ← h.pointers.snapshot]
      exact foldl_append ..
    · rw [hstate, stateAfter]
      split_ifs
      · exact ⟨(h.pointers.savedState f hf s hs).file, fun hle => absurd (h.num_lt hf) (not_lt.mpr hle)⟩
      · exact h.pointers.savedState f hf s hs
    · rw [hsnap, snapshotAfter]
      split_ifs
      · exact ⟨(h.pointers.savedSnapshot f hf s hs).file, fun hle => absurd (h.num_lt hf) (not_lt.mpr hle)⟩
      · exact h.pointers.savedSnapshot f hf s hs
    · rw [hsnap, snapshotAfter]
      split_ifs with hlt
      · intro _
        obtain hle | hgt := le_or_gt d.index.snapshot.fileNum f.num
        · rw [(h.pointers.savedSnapshot f hf s hs).same hle]
          exact hlt
        · exact (h.pointers.newer f hf s hs hgt).trans hlt
      · exact h.pointers.newer f hf s hs
    · rw [hstate, stateAfter]
      split_ifs
      · exact .inr hfile
      · exact h.pointers.stateFile.imp_right (hlogs _)
    · rw [hsnap, snapshotAfter]
      split_ifs
      · exact .inr hfile
      · exact h.pointers.snapshotFile.imp_right (hlogs _)

theorem Compacted.append (h : Compacted d bound) (hu : ∀ c, isCompactionUpdate u = some c → c ≤ bound) :
    Compacted (d.append opts u) bound := by
  obtain ⟨hentries, hcurr⟩ := updateIndex_compactedTo d.index d.offset d.logNum ⟨h.entries, h.currEntries⟩ hu
  refine ⟨hentries, hcurr, h.saved, fun r hr => ?_⟩
  obtain hr | hr := mem_append.mp hr
  · exact h.records r hr
  · rw [mem_singleton.mp hr]
    exact hu

end

/-! ### Reopening -/

/-- The index as a restart builds it: the same pointers, and the runs of all records. -/
structure Rebuilds (d : DB) (n : NodeIndex) : Prop where
  entries : n.entries.entries = indexOf d.runs
  currEntries : n.currEntries.entries = d.index.currEntries.entries
  snapshot : n.snapshot = d.index.snapshot
  state : n.state = d.index.state
  compacted : ∀ bound, Compacted d bound → n.entries.compactedTo ≤ bound ∧ n.currEntries.compactedTo ≤ bound

theorem loaded_currEntries (files : List LogFile) : (loaded files).currEntries = .empty := by
  rw [loaded]
  exact List.foldlRecOn (motive := fun n : NodeIndex => n.currEntries = Index.empty) _ _ rfl fun n hn s _ => hn

variable {n : NodeIndex}

theorem load_compactedTo {s : SavedIndex} (hn : n.entries.compactedTo ≤ bound)
    (hs : s.entries.compactedTo ≤ bound) : (load n s).entries.compactedTo ≤ bound := setCompactedTo_le hn hs

theorem Compacted.loaded (h : Compacted d bound) : (loaded d.files).entries.compactedTo ≤ bound := by
  rw [Tan.loaded]
  refine List.foldlRecOn (motive := fun n : NodeIndex => n.entries.compactedTo ≤ bound) _ _ (Nat.zero_le _)
    fun n hn s hs => load_compactedTo hn ?_
  obtain ⟨f, hf, hs⟩ := mem_filterMap.mp hs
  exact h.saved f hf s hs

theorem Laid.loaded_entries (h : Laid d) : (loaded d.files).entries.entries = indexOf (logRuns (filesLogs d.files)) :=
  Tan.loaded_entries h.indexed (h.order.sublist (sublist_append_left ..))

theorem runs_eq : d.runs = logRuns (filesLogs d.files) ++ fileRuns d.logNum d.records := by
  simp [DB.runs, DB.logs, logRuns, filesLogs]

theorem Laid.filter_isNone (h : Laid d) : d.files.filter (·.index.isNone) = [] := by
  refine filter_eq_nil_iff.mpr fun f hf => ?_
  obtain ⟨s, hs, -⟩ := h.indexed f hf
  simp [hs]

/-- Loading what is on disk gives the index back and every file an index of its own. -/
theorem Laid.loadFiles (h : Laid d) (closed : Bool) : ∃ n, Rebuilds d n ∧ loadFiles (d.onDisk closed) =
    .ok ({ d with index := n }.switchToNewLog.files, { n with currEntries := .empty }) := by
  have hwritten := h.written
  rw [runs_eq] at hwritten
  cases closed with
  | true =>
    refine ⟨{ load (loaded d.files) d.saveIndex with currEntries := d.index.currEntries },
      ⟨?_, rfl, rfl, h.load_state, fun bound hb => ⟨load_compactedTo hb.loaded hb.currEntries, hb.currEntries⟩⟩, ?_⟩
    · rw [runs_eq]
      exact load_entries h.loaded_entries h.curr hwritten
    · have hnone : (d.onDisk true).filter (·.index.isNone) = [] := by simp [DB.onDisk, h.filter_isNone]
      have hloaded : ((d.onDisk true).filterMap (·.index)).foldl load .init = load (loaded d.files) d.saveIndex :=
        loaded_concat ..
      have hindex : load (loaded d.files) d.saveIndex =
          { load (loaded d.files) d.saveIndex with currEntries := .empty } := by
        rw [← loaded_currEntries d.files]
        rfl
      have hfiles : d.onDisk true =
          { d with index := { load (loaded
            d.files) d.saveIndex with currEntries := d.index.currEntries } }.switchToNewLog.files := by
        have hstate := h.load_state
        simp only [DB.onDisk, DB.switchToNewLog, DB.createNewLog, DB.saveIndex, if_true] at hstate ⊢
        rw [hstate]
        rfl
      simp only [Tan.loadFiles, hnone, hloaded]
      rw [hfiles]
      exact congrArg _ (Prod.ext rfl hindex)
  | false =>
    have hf : (d.onDisk false).filter (·.index.isNone) = [⟨d.logNum, d.records, none⟩] := by
      simp [DB.onDisk, h.filter_isNone]
    have hloaded : ((d.onDisk false).filterMap (·.index)).foldl load .init = loaded d.files := by
      simp [DB.onDisk, loaded]
    have hcurr := loaded_currEntries d.files
    refine ⟨rebuildIndex (loaded d.files) ⟨d.logNum, d.records, none⟩, ⟨?_, ?_, ?_, ?_, fun bound hb => ?_⟩, ?_⟩
    · rw [rebuildIndex_entries, h.loaded_entries, runs_eq, indexOf, indexOf, foldl_append]
    · rw [rebuildIndex_currEntries, hcurr, h.curr]
      rfl
    · rw [rebuildIndex_snapshot, h.pointers.snapshot]
    · rw [rebuildIndex_state, h.pointers.state]
    · exact rebuildIndex_compactedTo _ _ ⟨hb.loaded, by rw [hcurr]; exact Nat.zero_le _⟩ hb.records
    · simp only [Tan.loadFiles, hf, hloaded]
      refine congrArg _ (Prod.ext ?_ rfl)
      have hkeep : d.files.map (fun g => if g.index.isNone then
          { g with index := some (DB.saveIndex
            { d with index := rebuildIndex (loaded d.files) ⟨d.logNum, d.records, none⟩ }) }
          else g) = d.files := by
        refine (map_congr_left fun f hf => ?_).trans (map_id _)
        obtain ⟨s, hs, -⟩ := h.indexed f hf
        simp [hs]
      simp only [DB.onDisk, map_append, DB.switchToNewLog, DB.createNewLog]
      exact congrArg₂ _ hkeep rfl

variable {st : State}

theorem Laid.withIndex (h : Laid d) (hn : Rebuilds d n) : Laid { d with index := n, state := st } := by
  refine ⟨h.order, h.next, h.room, h.indexed, hn.currEntries.trans h.curr, ?_, ?_⟩
  · change Runs d.runs n.entries.entries
    rw [hn.entries]
    exact h.written.runs
  · obtain ⟨hstate, hsnapshot, hsavedState, hsavedSnapshot, hnewer, hstateFile, hsnapshotFile⟩ := h.pointers
    rw [← hn.state] at hstate hsavedState hstateFile
    rw [← hn.snapshot] at hsnapshot hsavedSnapshot hnewer hsnapshotFile
    exact ⟨hstate, hsnapshot, hsavedState, hsavedSnapshot, hnewer, hstateFile, hsnapshotFile⟩

theorem Compacted.withIndex (h : Compacted d bound) (hn : Rebuilds d n) :
    Compacted { d with index := n, state := st } bound :=
  ⟨(hn.compacted bound h).1, (hn.compacted bound h).2, h.saved, h.records⟩

end

end Armada.Tan
