import Armada.Program.Outcome
import Armada.Raft.Log

/-! What the log of a replica knows to be persisted. The entries in memory up to the cursor
`savedTo` and all entries of the log reader were saved. The cursor stays right through
truncations, snapshots and updates, so what is above it is what has to be saved next. -/

namespace Armada.Raft

open Program List

section
variable {first : ℕ} {es : List Entry} {e : Entry}

theorem Consecutive.bounds (h : Consecutive first es) (he : e ∈ es) :
    first ≤ e.index ∧ e.index < first + es.length := by
  obtain ⟨k, hk, rfl⟩ := mem_iff_getElem.mp he
  rw [consecutive_iff.mp h k hk]
  omega

theorem Consecutive.last (h : Consecutive first es) (he : es.getLast? = some e) : e.index + 1 = first + es.length := by
  have hne : es ≠ [] := by
    rintro rfl
    cases he
  rw [List.getLast?_eq_some_getLast hne, Option.some.injEq] at he
  rw [← he, getLast_eq_getElem, consecutive_iff.mp h]
  have := length_pos_of_ne_nil hne
  omega

theorem Consecutive.mem_drop (h : Consecutive first es) (he : e ∈ es) {n : ℕ} (hn : first + n ≤ e.index) :
    e ∈ es.drop n := by
  obtain ⟨k, hk, rfl⟩ := mem_iff_getElem.mp he
  rw [consecutive_iff.mp h k hk] at hn
  rw [mem_iff_getElem]
  exact ⟨k - n, by rw [length_drop]; omega, by rw [getElem_drop]; congr 1; omega⟩

theorem Consecutive.start {e : Entry} {es : List Entry} (h : Consecutive first (e :: es)) :
    Consecutive e.index (e :: es) :=
  ⟨rfl, h.1 ▸ h.2⟩

end

/-! ### In memory -/

/-- The entries in memory have consecutive indexes from the marker on, and those up to the
cursor were saved. -/
structure Cursor (saved : List Entry) (im : InMemory) : Prop where
  inOrder : Consecutive im.markerIndex im.entries
  marker : im.markerIndex ≤ im.savedTo + 1
  within : im.savedTo < im.markerIndex + im.entries.length
  covered : ∀ e ∈ im.entries, e.index ≤ im.savedTo → e ∈ saved

namespace Cursor

variable {saved : List Entry} {im : InMemory} {e : Entry} {es : List Entry}

section
variable (h : Cursor saved im)
include h

theorem mono {saved' : List Entry} (hsub : saved ⊆ saved') : Cursor saved' im :=
  ⟨h.inOrder, h.marker, h.within, fun e he hindex => hsub (h.covered e he hindex)⟩

theorem entriesToSave_eq : im.entriesToSave = im.entries.drop (im.savedTo + 1 - im.markerIndex) := by
  have hmarker := h.marker
  have hwithin := h.within
  simp only [InMemory.entriesToSave]
  rw [if_neg (by omega)]

theorem entriesToSave_inOrder : Consecutive (im.savedTo + 1) im.entriesToSave := by
  have hmarker := h.marker
  have hwithin := h.within
  have hdrop := h.inOrder.drop (n := im.savedTo + 1 - im.markerIndex) (by omega)
  rw [h.entriesToSave_eq]
  rwa [show im.markerIndex + (im.savedTo + 1 - im.markerIndex) = im.savedTo + 1 by omega] at hdrop

theorem saved_or (he : e ∈ im.entries) : e ∈ saved ∨ e ∈ im.entriesToSave := by
  by_cases hindex : e.index ≤ im.savedTo
  · exact .inl (h.covered e he hindex)
  · have hmarker := h.marker
    right
    rw [h.entriesToSave_eq]
    exact h.inOrder.mem_drop he (by omega)

theorem length_entriesToSave : im.savedTo + 1 + im.entriesToSave.length = im.markerIndex + im.entries.length := by
  have hmarker := h.marker
  have hwithin := h.within
  rw [h.entriesToSave_eq, length_drop]
  omega

end

theorem checkMarkerIndex (im : InMemory) : Yields im.checkMarkerIndex (· = im) := by
  unfold InMemory.checkMarkerIndex
  split
  · exact .ok rfl
  · exact .ite (fun _ => .error _) fun _ => .ok rfl

theorem getEntries_marker (im : InMemory) (index : ℕ) : Yields (im.getEntries im.markerIndex index) fun existing =>
    existing = im.entries.take (index - im.markerIndex) ∧ index ≤ im.markerIndex + im.entries.length := by
  unfold InMemory.getEntries
  refine .ite (fun _ => .error _) fun _ => .ite (fun _ => .error _) fun hhigh => .ok ⟨by simp, by omega⟩

/-- New entries take the place of those from their first index on; the cursor goes back
before them. -/
theorem merge (h : Cursor saved im) (hes : Consecutive e.index (e :: es)) (he : 0 < e.index) :
    Yields (im.merge (e :: es)) fun im' => Cursor saved im' ∧ im'.snapshot = im.snapshot ∧
    min im.savedTo (e.index - 1) ≤ im'.savedTo ∧ im'.entries.getLast? = (e :: es).getLast? := by
  have hmarker := h.marker
  have hwithin := h.within
  unfold InMemory.merge
  refine .ite (fun hnext => ?_) fun hnext => .ite (fun hbelow => ?_) fun hbelow => ?_
  · refine .skip fun _ => (checkMarkerIndex _).mono fun im' him' => ?_
    cases him'
    refine ⟨⟨?_, hmarker, ?_, fun f hf hindex => ?_⟩, rfl, Nat.min_le_left _ _, by simp [List.getLast?_cons]⟩
    · exact consecutive_append.mpr ⟨h.inOrder, hnext ▸ hes⟩
    · simp only [length_append]
      omega
    · rcases mem_append.mp hf with hf | hf
      · exact h.covered f hf hindex
      · have := (hes.bounds hf).1
        simp only at hindex
        omega
  · refine (checkMarkerIndex _).mono fun im' him' => ?_
    cases him'
    refine ⟨⟨hes, ?_, ?_, fun f hf hindex => ?_⟩, rfl, Nat.min_le_right _ _, rfl⟩
    · simp only
      omega
    · simp only [length_cons]
      omega
    · have := (hes.bounds hf).1
      simp only at hindex
      omega
  · refine (getEntries_marker im e.index).bind fun existing hexisting => .skip fun _ =>
      (checkMarkerIndex _).mono fun im' him' => ?_
    obtain ⟨rfl, hhigh⟩ := hexisting
    cases him'
    have hlength : (im.entries.take (e.index - im.markerIndex)).length = e.index - im.markerIndex := by
      rw [length_take]
      omega
    refine ⟨⟨?_, ?_, ?_, fun f hf hindex => ?_⟩, rfl, le_rfl, by simp [List.getLast?_cons]⟩
    · refine consecutive_append.mpr ⟨h.inOrder.take _, ?_⟩
      rw [hlength, show im.markerIndex + (e.index - im.markerIndex) = e.index by omega]
      exact hes
    · simp only
      omega
    · simp only [length_append, hlength, length_cons]
      omega
    · simp only at hindex
      rcases mem_append.mp hf with hf | hf
      · exact h.covered f (mem_of_mem_take hf) (by omega)
      · have := (hes.bounds hf).1
        omega

theorem appliedLogTo (h : Cursor saved im) {index : ℕ} (hindex : index ≤ im.savedTo) :
    Yields (im.appliedLogTo index) fun im' => Cursor saved im' ∧ im'.savedTo = im.savedTo ∧ im'.snapshot =
    im.snapshot := by
  unfold InMemory.appliedLogTo
  refine .ite (fun _ => .ok ⟨h, rfl, rfl⟩) fun hmarker => ?_
  split
  · exact .ok ⟨h, rfl, rfl⟩
  · next last hlast =>
    refine .ite (fun _ => .ok ⟨h, rfl, rfl⟩) fun hbelow => ?_
    split
    · exact .error _
    · refine .ite (fun _ => .error _) fun _ => (checkMarkerIndex _).mono fun im' him' => ?_
      cases him'
      have hend := h.inOrder.last hlast
      have hwithin := h.within
      refine ⟨⟨?_, Nat.succ_le_succ hindex, ?_, fun e he => h.covered e (mem_of_mem_drop he)⟩, rfl, rfl⟩
      · have hdrop := h.inOrder.drop (n := index + 1 - im.markerIndex) (by omega)
        rwa [show im.markerIndex + (index + 1 - im.markerIndex) = index + 1 by omega] at hdrop
      · simp only [length_drop]
        omega

theorem savedLogTo (h : Cursor saved im) {last : Entry} (hlast : im.entriesToSave.getLast? = some last)
    (hsaved : ∀ e ∈ im.entriesToSave, e ∈ saved) :
    im.savedLogTo last.index last.term = { im with savedTo := last.index } ∧
    Cursor saved { im with savedTo := last.index } ∧ last.index + 1 = im.markerIndex + im.entries.length := by
  have hmarker := h.marker
  have hlength := h.length_entriesToSave
  have hend : last.index + 1 = im.markerIndex + im.entries.length := by
    rw [← hlength]
    exact h.entriesToSave_inOrder.last hlast
  have hne : im.entriesToSave ≠ [] := by
    intro hnil
    rw [hnil] at hlast
    cases hlast
  have hpos := length_pos_of_ne_nil hne
  have hlast' : im.entries.getLast? = some last := by
    rw [h.entriesToSave_eq, List.getLast?_drop, if_neg] at hlast
    · exact hlast
    · omega
  have hget : im.entries[last.index - im.markerIndex]? = some last := by
    rw [List.getLast?_eq_getElem?] at hlast'
    rw [← hlast']
    congr 1
    omega
  refine ⟨?_, ⟨h.inOrder, ?_, ?_, fun e he _ => (h.saved_or he).elim id (hsaved e)⟩, hend⟩
  · unfold InMemory.savedLogTo
    rw [if_neg (by omega), hlast']
    simp [hget]
  · simp only
    omega
  · simp only
    omega

end Cursor

/-! ### The log -/

/-- The log reader and the memory of a log agree with what was saved, and no entry was
returned in an update that is above the cursor. -/
structure Tracked (saved : List Entry) (l : EntryLog) : Prop where
  cursor : Cursor saved l.inmem
  stored : Consecutive l.logdb.firstIndex l.logdb.entries
  durable : ∀ e ∈ l.logdb.entries, e ∈ saved
  processed : l.processed ≤ l.inmem.savedTo
  committed : l.processed ≤ l.committed
  snapshot : ∀ ss ∈ l.inmem.snapshot, ss.index ≤ l.processed

/-- Nothing but the commit index moved. -/
def Held (l l' : EntryLog) : Prop := l' = { l with committed := l'.committed } ∧ l.committed ≤ l'.committed

/-- The end of the log as the replica sees it. -/
def Reached (l : EntryLog) (index : ℕ) : Prop := index ≤ l.lastIndex ∨ index ≤ l.committed

theorem Held.refl (l : EntryLog) : Held l l := ⟨rfl, le_rfl⟩

theorem Held.trans {l1 l2 l3 : EntryLog} (h1 : Held l1 l2) (h2 : Held l2 l3) : Held l1 l3 := by
  refine ⟨?_, h1.2.trans h2.2⟩
  rw [h2.1, h1.1]

variable {l l' : EntryLog}

theorem Held.inmem (h : Held l l') : l'.inmem = l.inmem := by rw [h.1]

theorem Held.processed (h : Held l l') : l'.processed = l.processed := by rw [h.1]

theorem Held.lastIndex (h : Held l l') : l'.lastIndex = l.lastIndex := by
  rw [h.1]
  rfl

namespace EntryLog

variable {lim : Limits} {l : EntryLog} {index : ℕ}

theorem commitTo_held (l : EntryLog) (index : ℕ) : Yields (l.commitTo index) (Held l) := by
  unfold commitTo
  exact .ite (fun _ => .ok (.refl l)) fun habove => .ite (fun _ => .error _) fun _ => .ok ⟨rfl, (not_le.mp habove).le⟩

theorem tryCommit_held (lim : Limits) (l : EntryLog) (index term : ℕ) :
    Yields (l.tryCommit lim index term) fun res => Held l res.1 := by
  unfold tryCommit
  refine .ite (fun _ => .ok (.refl l)) fun _ => .skip fun lterm => .ite (fun _ => ?_) fun _ => .ok (.refl l)
  exact (commitTo_held l index).bind fun l' h => .ok h

theorem term_lastIndex (lim : Limits) (l : EntryLog) (index : ℕ) :
    Yields (l.term lim index) fun t => t ≠ 0 → index ≤ l.lastIndex := by
  unfold term
  refine .ite (fun _ => .ok fun h => absurd rfl h) fun hbound => ?_
  exact fun t _ _ => not_lt.mp fun h => hbound (.inr h)

theorem matchTerm_lastIndex (lim : Limits) (l : EntryLog) (index t : ℕ) :
    Yields (l.matchTerm lim index t) fun same => same = true → t ≠ 0 → index ≤ l.lastIndex := by
  unfold matchTerm
  refine (term_lastIndex lim l index).bind fun lt hlt => .ok fun hsame ht => hlt ?_
  rw [of_decide_eq_true hsame]
  exact ht

theorem getConflictIndex_spec (lim : Limits) (l : EntryLog) (ents : List Entry) :
    Yields (l.getConflictIndex lim ents) fun c => (c = 0 ∧ ∀ e ∈ ents, e.term ≠ 0 → e.index ≤ l.lastIndex) ∨
    ∃ e ∈ ents, c = e.index := by
  induction ents with
  | nil => exact .ok (.inl ⟨rfl, by simp⟩)
  | cons e ents ih =>
    unfold getConflictIndex
    refine (matchTerm_lastIndex lim l e.index e.term).bind fun same hsame => .ite (fun hsame' => ?_) fun _ =>
      .ok (.inr ⟨e, mem_cons_self, rfl⟩)
    refine ih.mono fun c hc => ?_
    rcases hc with ⟨hzero, hall⟩ | ⟨f, hf, hc⟩
    · exact .inl ⟨hzero, forall_mem_cons.mpr ⟨hsame hsame', hall⟩⟩
    · exact .inr ⟨f, mem_cons_of_mem _ hf, hc⟩

end EntryLog

theorem tracked_newEntryLog {d : LogDB} (hd : Consecutive d.firstIndex d.entries) :
    Tracked d.entries (newEntryLog d) where
  cursor := ⟨trivial, le_rfl, lt_add_one _, by simp [newEntryLog, newInMemory]⟩
  stored := hd
  durable _ he := he
  processed := Nat.le_add_right _ _
  committed := le_rfl
  snapshot := by simp [newEntryLog, newInMemory]

namespace Tracked

variable {saved : List Entry} {l l' : EntryLog} {lim : Limits} {first : ℕ} {es : List Entry}

section
variable (h : Tracked saved l)
include h

theorem mono {saved' : List Entry} (hsub : saved ⊆ saved') : Tracked saved' l :=
  ⟨h.cursor.mono hsub, h.stored, fun e he => hsub (h.durable e he), h.processed, h.committed, h.snapshot⟩

theorem held (hheld : Held l l') : Tracked saved l' := by
  obtain ⟨heq, hle⟩ := hheld
  rw [heq]
  exact ⟨h.cursor, h.stored, h.durable, h.processed, h.committed.trans hle, h.snapshot⟩

theorem append (hes : Consecutive first es) :
    Yields (l.append es) fun l' => Tracked saved l' ∧ l'.processed = l.processed ∧
    ∀ e ∈ es.getLast?, l'.lastIndex = e.index := by
  cases es with
  | nil => exact .ok ⟨h, rfl, by simp⟩
  | cons e es =>
    unfold EntryLog.append
    refine .ite (fun _ => .error _) fun habove => ?_
    have hprocessed := h.processed
    have hcommitted := h.committed
    refine (h.cursor.merge hes.start (by omega)).bind fun im him => .ok ?_
    obtain ⟨hcursor, hsnapshot, hsavedTo, hlast⟩ := him
    refine ⟨⟨hcursor, h.stored, h.durable, ?_, hcommitted, ?_⟩, rfl, fun f hf => ?_⟩
    · simp only
      omega
    · rw [hsnapshot]
      exact h.snapshot
    · rw [Option.mem_def] at hf
      simp [EntryLog.lastIndex, InMemory.getLastIndex, hlast, hf]

theorem restore (ss : Snapshot) : Yields (l.restore ss) fun l' => Tracked saved l' ∧ l'.lastIndex = ss.index := by
  unfold EntryLog.restore
  refine .ite (fun _ => .error _) fun _ =>
    .ok ⟨⟨⟨trivial, le_rfl, ?_, ?_⟩, h.stored, h.durable, le_rfl, le_rfl, ?_⟩, rfl⟩
  · exact lt_add_one _
  · simp [InMemory.restore]
  · simp [InMemory.restore]

/-- The entries of a Replicate message, and that the log reaches up to their end. -/
theorem tryAppend {index : ℕ} (hes : Consecutive (index + 1) es)
    (hterms : ∀ e ∈ es, e.term ≠ 0) (hindex : index ≤ l.lastIndex) :
    Yields (l.tryAppend lim index es) fun l' => Tracked saved l' ∧ index + es.length ≤ l'.lastIndex := by
  unfold EntryLog.tryAppend
  refine (EntryLog.getConflictIndex_spec lim l es).bind fun c hc => .ite (fun hzero => .ok ⟨h, ?_⟩) fun hne =>
    .ite (fun _ => .error _) fun _ => ?_
  · have hall : ∀ e ∈ es, e.index ≤ l.lastIndex := by
      rcases hc with ⟨-, hall⟩ | ⟨e, he, hc⟩
      · exact fun e he => hall e he (hterms e he)
      · have := (hes.bounds he).1
        omega
    cases hlast : es.getLast? with
    | none =>
      rw [List.getLast?_eq_none_iff.mp hlast]
      exact hindex
    | some e =>
      have hend := hes.last hlast
      have := hall e (mem_of_getLast? hlast)
      omega
  · obtain ⟨e, he, rfl⟩ : ∃ e ∈ es, c = e.index := hc.resolve_left fun h => hne h.1
    have hbounds := hes.bounds he
    have hdrop := hes.drop (n := e.index - index - 1) (by omega)
    refine (h.append hdrop).mono fun l' hl' => ⟨hl'.1, ?_⟩
    have hlength : (es.drop (e.index - index - 1)).length = es.length - (e.index - index - 1) := length_drop
    cases hlast : (es.drop (e.index - index - 1)).getLast? with
    | none =>
      rw [List.getLast?_eq_none_iff.mp hlast, length_nil] at hlength
      omega
    | some f =>
      have hend := hdrop.last hlast
      rw [hl'.2.2 f hlast]
      omega

end

/-! ### The log reader -/

theorem appendLogDB (h : Tracked saved l) (hes : Consecutive first es) (hsaved : ∀ e ∈ es, e ∈ saved) :
    Yields (l.logdb.append es) fun d => Tracked saved { l with logdb := d } := by
  have hstored := h.stored
  cases es with
  | nil => exact .ok h
  | cons e es =>
    unfold LogDB.append
    refine .ite (fun _ => .ok h) fun habove => .ite (fun _ => .error _) fun hgap => .ok ?_
    simp only [LogDB.firstIndex, LogDB.lastIndex] at *
    have hlength : (l.logdb.entries.take (max e.index (l.logdb.markerIndex + 1) - (l.logdb.markerIndex + 1))).length =
        max e.index (l.logdb.markerIndex + 1) - (l.logdb.markerIndex + 1) := by
      rw [length_take]
      omega
    have hdrop := hes.start.drop (n := l.logdb.markerIndex + 1 - e.index) (by rw [length_cons]; omega)
    refine ⟨h.cursor, ?_, fun f hf => ?_, h.processed, h.committed, h.snapshot⟩
    · refine consecutive_append.mpr ⟨hstored.take _, ?_⟩
      rw [hlength]
      rwa [show e.index + (l.logdb.markerIndex + 1 - e.index) = l.logdb.markerIndex + 1 +
        (max e.index (l.logdb.markerIndex + 1) - (l.logdb.markerIndex + 1)) by omega] at hdrop
    · rcases mem_append.mp hf with hf | hf
      · exact h.durable f (mem_of_mem_take hf)
      · exact hsaved f (mem_of_mem_drop hf)

theorem applySnapshot (h : Tracked saved l) (ss : Snapshot) :
    Tracked saved { l with logdb := l.logdb.applySnapshot ss } := by
  unfold LogDB.applySnapshot
  split_ifs
  · exact h
  · exact ⟨h.cursor, trivial, by simp, h.processed, h.committed, h.snapshot⟩

theorem compact (h : Tracked saved l) (index : ℕ) :
    Yields (l.logdb.compact lim index) fun d => Tracked saved { l with logdb := d } := by
  unfold LogDB.compact
  refine .ite (fun _ => .ok h) fun hmarker => .ite (fun _ => .error _) fun hlast => .skip fun term => .ok ?_
  refine ⟨h.cursor, ?_, fun e he => h.durable e (mem_of_mem_drop he), h.processed, h.committed, h.snapshot⟩
  simp only [LogDB.lastIndex] at hlast
  have hdrop := h.stored.drop (n := index - l.logdb.markerIndex) (by omega)
  simp only [LogDB.firstIndex] at *
  rwa [show l.logdb.markerIndex + 1 + (index - l.logdb.markerIndex) = index + 1 by omega] at hdrop

/-! ### Updates -/

/-- A processed update leaves a log that is tracked, once its entries were saved. -/
theorem commitUpdate (h : Tracked saved l) {cu : UpdateCommit} (hsaved : ∀ e ∈ l.entriesToSave, e ∈ saved)
    (hstable : l.entriesToSave = [] ∧ cu.stableLogTo = 0 ∨
    ∃ last ∈ l.entriesToSave.getLast?, cu.stableLogTo = last.index ∧ cu.stableLogTerm = last.term)
    (hprocessed : cu.processed < l.inmem.markerIndex + l.inmem.entries.length) :
    Yields (l.commitUpdate cu) (Tracked saved) := by
  -- the cursor moves to the end of the entries in memory
  obtain ⟨im, him, hcursor, hend, hsnapshot⟩ : ∃ im, l.inmem.commitUpdate cu = im ∧ Cursor saved im ∧
      im.savedTo + 1 = l.inmem.markerIndex + l.inmem.entries.length ∧ ∀ ss ∈ im.snapshot, ss.index ≤ l.processed := by
    refine ⟨_, rfl, ?_⟩
    have hforget (im : InMemory) (hcursor : Cursor saved im)
        (hend : im.savedTo + 1 = l.inmem.markerIndex + l.inmem.entries.length)
          (hsnapshot : im.snapshot = l.inmem.snapshot) :
        Cursor saved (if 0 < cu.stableSnapshotTo then im.savedSnapshotTo cu.stableSnapshotTo else im) ∧
          (if 0 < cu.stableSnapshotTo then im.savedSnapshotTo cu.stableSnapshotTo else im).savedTo + 1 =
            l.inmem.markerIndex + l.inmem.entries.length ∧
          ∀ ss ∈ (if 0 < cu.stableSnapshotTo then im.savedSnapshotTo cu.stableSnapshotTo else im).snapshot,
            ss.index ≤ l.processed := by
      unfold InMemory.savedSnapshotTo
      split_ifs
      · exact ⟨⟨hcursor.inOrder, hcursor.marker, hcursor.within, hcursor.covered⟩, hend, by simp⟩
      · exact ⟨hcursor, hend, by rw [hsnapshot]; exact h.snapshot⟩
      · exact ⟨hcursor, hend, by rw [hsnapshot]; exact h.snapshot⟩
    unfold InMemory.commitUpdate
    rcases hstable with ⟨hnil, hzero⟩ | ⟨last, hlast, hto, hterm⟩
    · have hlength := h.cursor.length_entriesToSave
      rw [show l.inmem.entriesToSave = [] from hnil, length_nil, Nat.add_zero] at hlength
      rw [hzero, if_neg (lt_irrefl 0)]
      exact hforget l.inmem h.cursor hlength rfl
    · obtain ⟨heq, hcursor, hend⟩ := h.cursor.savedLogTo hlast hsaved
      have hpos : 0 < last.index := by
        have := (h.cursor.entriesToSave_inOrder.bounds (mem_of_getLast? hlast)).1
        omega
      rw [hto, hterm, if_pos hpos, heq]
      exact hforget _ hcursor hend rfl
  unfold EntryLog.commitUpdate
  rw [him]
  have hbelow := h.processed
  have hwithin := h.cursor.within
  have hset : Yields (EntryLog.setProcessed { l with inmem := im } cu.processed) fun l' =>
      Tracked saved l' ∧ l'.processed ≤ l'.inmem.savedTo := by
    unfold EntryLog.setProcessed
    refine .ite (fun _ => .ok ?_) fun _ => .ite (fun _ => .error _) fun hchecks => .ok ?_
    · exact ⟨⟨hcursor, h.stored, h.durable, by simp only; omega, h.committed, hsnapshot⟩, by simp only; omega⟩
    · simp only [not_or, not_lt] at hchecks
      exact ⟨⟨hcursor, h.stored, h.durable, by simp only; omega, hchecks.2,
        fun ss hss => (hsnapshot ss hss).trans hchecks.1⟩, by simp only; omega⟩
  refine hset.bind fun l' hl' => ?_
  obtain ⟨hl', hle⟩ := hl'
  unfold EntryLog.setLastApplied
  refine .ite (fun _ => .ok hl') fun _ => .ite (fun _ => .error _) fun hchecks => ?_
  simp only [not_or, not_lt] at hchecks
  refine (hl'.cursor.appliedLogTo (hchecks.2.trans hle)).bind fun im' him' => .ok ?_
  obtain ⟨hcursor', hsavedTo, hsnapshot'⟩ := him'
  exact ⟨hcursor', hl'.stored, hl'.durable, by simp only [hsavedTo]; exact hle, hl'.committed,
    by rw [hsnapshot']; exact hl'.snapshot⟩

end Tracked

/-! ### Entries to apply -/

theorem limitSize_le (limit : ℕ) (es : List Entry) : limitSize limit es <+: es := by
  have hfitting (total : ℕ) (es : List Entry) : fitting limit total es <+: es := by
    induction es generalizing total with
    | nil => exact nil_prefix
    | cons e es ih =>
      unfold fitting
      split_ifs
      · exact nil_prefix
      · exact cons_prefix_cons.mpr ⟨rfl, ih _⟩
  cases es with
  | nil => exact nil_prefix
  | cons e es => exact cons_prefix_cons.mpr ⟨rfl, hfitting _ es⟩

/-- Entries of the log: each is readable from the store below the memory, or it is in memory
and the last of the entries is not before it. -/
def Drawn (l : EntryLog) (ents : List Entry) : Prop :=
  ∀ e ∈ ents, e ∈ l.logdb.entries ∧ e.index < l.inmem.markerIndex ∨
    e ∈ l.inmem.entries ∧ ∀ last ∈ ents.getLast?, e.index ≤ last.index

section
variable {saved : List Entry} {l : EntryLog} {lim : Limits} {low high maxSize : ℕ}

theorem Drawn.nil : Drawn l [] := fun _ h => nomatch h

variable {ents : List Entry}

theorem Drawn.of_le {stored inmem : List Entry} {first : ℕ} (hstored : ∀ e ∈ stored, e ∈ l.logdb.entries ∧
    e.index < l.inmem.markerIndex) (hinmem : ∀ e ∈ inmem, e ∈ l.inmem.entries) (horder : Consecutive first inmem)
    (hle : ents <+: stored ++ inmem) : Drawn l ents := by
  intro e he
  rcases prefix_or_prefix_of_prefix hle (prefix_append stored inmem) with hshort | ⟨rest, rfl⟩
  · exact .inl (hstored e (hshort.subset he))
  · obtain ⟨tail, rfl⟩ := (prefix_append_right_inj stored).mp hle
    rcases mem_append.mp he with he | he
    · exact .inl (hstored e he)
    · refine .inr ⟨hinmem e (mem_append_left _ he), fun last hlast => ?_⟩
      have horder : Consecutive first rest := (consecutive_append.mp horder).1
      have hlast : rest.getLast? = some last := by
        rwa [List.getLast?_append_of_ne_nil _ (ne_nil_of_mem he)] at hlast
      have hbounds := horder.bounds he
      have hend := horder.last hlast
      omega

theorem LogDB.getEntries_spec {d : LogDB} (hd : Consecutive d.firstIndex d.entries) :
    Yields (d.getEntries lim low high maxSize) fun ents => ∀ e ∈ ents, e ∈ d.entries ∧ e.index < high := by
  unfold LogDB.getEntries
  refine .ite (fun _ => .error _) fun hbounds => .ite (fun _ => .error _) fun hlow =>
    .ite (fun _ => .error _) fun hhigh =>
    .ok fun e he => ?_
  have he := (limitSize_le _ _).subset he
  refine ⟨mem_of_mem_drop (mem_of_mem_take he), ?_⟩
  simp only [LogDB.lastIndex, LogDB.firstIndex] at *
  have horder := (hd.drop (n := low - (d.markerIndex + 1)) (by omega)).take (min (high - low) lim.maxEntries)
  have hindex := (horder.bounds he).2
  rw [length_take] at hindex
  omega

theorem Tracked.getEntries (h : Tracked saved l) : Yields (l.getEntries lim low high maxSize) (Drawn l) := by
  unfold EntryLog.getEntries
  refine .skip fun _ => .ite (fun _ => .ok .nil) fun _ => ?_
  have hstored : Yields (l.getEntriesFromLogDB lim low high maxSize) fun found =>
      ∀ e ∈ found.1, e ∈ l.logdb.entries ∧ e.index < l.inmem.markerIndex := by
    unfold EntryLog.getEntriesFromLogDB
    refine .ite (fun _ => .ok (by simp)) fun _ => ?_
    refine (LogDB.getEntries_spec h.stored).bind fun ents hents => .ok fun e he => ?_
    exact ⟨(hents e he).1, (hents e he).2.trans_le (Nat.min_le_right _ _)⟩
  refine hstored.bind fun found hfound => .ite (fun _ => ?_) fun _ => .ok ?_
  · have hinmem : Yields (l.getEntriesFromInMem found.1 low high) fun ents => ∃ inmem first, ents = found.1 ++ inmem ∧
        (∀ e ∈ inmem, e ∈ l.inmem.entries) ∧ Consecutive first inmem := by
      unfold EntryLog.getEntriesFromInMem
      refine .ite (fun _ => .ok ⟨[], 0, by simp, by simp, trivial⟩) fun _ => ?_
      have hget : Yields (l.inmem.getEntries (max low l.inmem.markerIndex) high) fun inmem =>
          (∀ e ∈ inmem, e ∈ l.inmem.entries) ∧ ∃ first, Consecutive first inmem := by
        unfold InMemory.getEntries
        refine .ite (fun _ => .error _) fun _ => .ite (fun _ => .error _) fun hhigh => .ok ⟨fun e he => ?_, ?_⟩
        · exact mem_of_mem_drop (mem_of_mem_take he)
        · exact ⟨_, (h.cursor.inOrder.drop (by omega)).take _⟩
      refine hget.bind fun inmem hinmem => .skip fun _ => .ok ?_
      obtain ⟨hsub, first, horder⟩ := hinmem
      exact ⟨inmem, first, rfl, hsub, horder⟩
    refine hinmem.bind fun ents hents => .ok ?_
    obtain ⟨inmem, first, rfl, hsub, horder⟩ := hents
    exact .of_le hfound hsub horder (limitSize_le _ _)
  · exact fun e he => .inl (hfound e he)

theorem Tracked.entriesToApply (h : Tracked saved l) : Yields (l.entriesToApply lim) (Drawn l) := by
  unfold EntryLog.entriesToApply
  exact .ite (fun _ => h.getEntries) fun _ => .ok .nil

/-- Every entry that is applied was saved or is saved with the same update. -/
theorem Drawn.saved_or (hents : Drawn l ents) (h : Tracked saved l) {e : Entry} (he : e ∈ ents) :
    (e ∈ saved ∨ e ∈ l.entriesToSave) ∧ e.index < l.inmem.markerIndex + l.inmem.entries.length := by
  rcases hents e he with ⟨hstored, hindex⟩ | ⟨hinmem, -⟩
  · exact ⟨.inl (h.durable e hstored), by omega⟩
  · exact ⟨h.cursor.saved_or hinmem, (h.cursor.inOrder.bounds hinmem).2⟩

end

end Armada.Raft
