import Armada.Tan.LiveFiles
import Armada.Tan.Removal

/-! Looking entries up. As long as nothing is removed, the index is the one that all the
writes of entries give: a query names for each index of the range the write that holds it
now, and reading returns the entries of those writes. -/

namespace Armada.Tan

open Raft Program List

/-- The write holds the index and no later write starts at or below it. -/
structure Current (ws : List IndexEntry) (i : ℕ) (w : IndexEntry) : Prop where
  mem : w ∈ ws
  holds : w.holds i
  later : ∀ v ∈ ws, Older w v → i < v.start

/-- All the indexes from `low` to `i` are held by some write. -/
def Stretch (ws : List IndexEntry) (low i : ℕ) : Prop := ∀ j, low ≤ j → j ≤ i → ∃ w, Current ws j w

/-! ### Which write an index is found in -/

section
variable {ws : List IndexEntry} {v w e : IndexEntry} {i : ℕ} {p : ℕ × ℕ}

section
variable (h : Written ws)
include h

theorem Written.trichotomy (hv : v ∈ ws) (hw : w ∈ ws) : v = w ∨ Older v w ∨ Older w v := by
  obtain ⟨j, hj, rfl⟩ := mem_iff_getElem.mp hv
  obtain ⟨k, hk, rfl⟩ := mem_iff_getElem.mp hw
  have horder := pairwise_iff_getElem.mp h.order
  obtain hlt | rfl | hgt := lt_trichotomy j k
  · exact .inr (.inl (horder j k hj hk hlt))
  · exact .inl rfl
  · exact .inr (.inr (horder k j hk hj hgt))

theorem Written.place_unique (hv : v ∈ ws) (hw : w ∈ ws) (hp : v.place = w.place) : v = w := by
  simp only [IndexEntry.place, Prod.mk.injEq] at hp
  obtain heq | hold | hold := h.trichotomy hv hw
  · exact heq
  · rw [Older] at hold
    omega
  · rw [Older] at hold
    omega

theorem Current.locate (hw : Current ws i w) : locate (indexOf ws) i = some w.place := by
  obtain ⟨hlow, hhigh⟩ := IndexEntry.holds_iff.mp hw.holds
  have hfind : ws.reverse.find? (fun w => decide (w.start ≤ i)) = some w := by
    refine h.find?_eq_some.mpr ⟨hw.mem, by simpa using hlow, fun v hv hstart => ?_⟩
    obtain rfl | hvw | hwv := h.trichotomy hv hw.mem
    · exact .inl rfl
    · exact .inr hvw
    · have := hw.later v hv hwv
      simp only [decide_eq_true_eq] at hstart
      omega
  rw [h.locate_indexOf, hfind, Option.bind_some, if_pos hhigh]

theorem current_of_locate (hp : locate (indexOf ws) i = some p) : ∃ w, Current ws i w ∧ w.place = p := by
  rw [h.locate_indexOf] at hp
  obtain ⟨w, hw, hp⟩ := Option.bind_eq_some_iff.mp hp
  obtain ⟨hmem, hstart, hlast⟩ := h.find?_eq_some.mp hw
  split_ifs at hp with hstop
  refine ⟨w, ⟨hmem, IndexEntry.holds_iff.mpr ⟨by simpa using hstart, hstop⟩, fun v hv hold => ?_⟩, Option.some.inj hp⟩
  by_contra hle
  obtain rfl | hold' := hlast v hv (by simpa using hle)
  · exact hold.asymm hold
  · exact hold.asymm hold'

theorem Written.current_of_mem (he : e ∈ indexOf ws) (hi : e.holds i) : ∃ w, Current ws i w ∧ PartOf e w := by
  obtain ⟨w, hw, hpart⟩ := h.runs.part e he
  obtain ⟨w', hcurrent, hplace⟩ := current_of_locate h (locate_of_mem h.runs.disjoint he hi)
  have heq : w' = w := h.place_unique hcurrent.mem hw (hplace.trans hpart.place)
  exact ⟨w, heq ▸ hcurrent, hpart⟩

theorem Written.exists_current : (∃ w, Current ws i w) ↔ ∃ e ∈ indexOf ws, e.holds i := by
  constructor
  · rintro ⟨w, hw⟩
    obtain ⟨e, he, hi, -⟩ := locate_eq_some (hw.locate h)
    exact ⟨e, he, hi⟩
  · rintro ⟨e, he, hi⟩
    obtain ⟨w, hw, -⟩ := h.current_of_mem he hi
    exact ⟨w, hw⟩

end

end

/-! ### Queries -/

theorem holds_connected {es : List IndexEntry} {e last : IndexEntry} {j : ℕ} {high : Option ℕ}
    (he : e ∈ connected high last es) (hlow : last.start ≤ j) (hhigh : j ≤ e.stop) :
    ∃ e' ∈ connected high last es, e'.holds j := by
  induction es generalizing last with
  | nil =>
    obtain rfl := mem_singleton.mp he
    exact ⟨e, he, IndexEntry.holds_iff.mpr ⟨hlow, hhigh⟩⟩
  | cons next es ih =>
    rw [connected] at he ⊢
    split_ifs at he ⊢ with hc
    · obtain rfl := mem_singleton.mp he
      exact ⟨e, he, IndexEntry.holds_iff.mpr ⟨hlow, hhigh⟩⟩
    · have hnext : last.stop + 1 = next.start := by simpa using (not_or.mp hc).2
      by_cases hj : j ≤ last.stop
      · exact ⟨last, mem_cons_self .., IndexEntry.holds_iff.mpr ⟨hlow, hj⟩⟩
      · obtain rfl | he := mem_cons.mp he
        · exact absurd hhigh hj
        · obtain ⟨e', he', hin⟩ := ih he (by omega)
          exact ⟨e', mem_cons_of_mem _ he', hin⟩

/-- The runs name, in order and without a gap, the current write of each index that is held
from `low` on without interruption, up to `high`. -/
structure Names (ws : List IndexEntry) (low high : ℕ) (ies : List IndexEntry) : Prop where
  gapless : Gapless ies
  first : ∀ e ∈ ies.head?, e.holds low
  current : ∀ e ∈ ies, ∀ i, e.holds i → ∃ w, PartOf e w ∧ Current ws i w
  exact : ∀ i, low ≤ i → i < high → ((∃ e ∈ ies, e.holds i) ↔ Stretch ws low i)

theorem Written.query {ws : List IndexEntry} (h : Written ws) {idx : Index}
    (hidx : idx.entries = indexOf ws) {low high : ℕ} : Names ws low high (idx.query low (some high)) := by
  have hruns := h.runs
  rw [← hidx] at hruns
  have hheld {i : ℕ} : (∃ w, Current ws i w) ↔ ∃ e ∈ idx.entries, e.holds i := hidx ▸ h.exists_current
  obtain ⟨hnil, hnone⟩ | ⟨before, e, es, heq, hin, hquery⟩ := Index.query_cases hruns.disjoint low (some high)
  · rw [hnil]
    refine ⟨.nil, by simp, by simp, fun i hlow _ => ⟨by simp, fun hall => ?_⟩⟩
    obtain ⟨a, ha, hain⟩ := hheld.mp (hall low le_rfl hlow)
    exact absurd hain (hnone a ha)
  obtain ⟨hstart, hstop⟩ := IndexEntry.holds_iff.mp hin
  rw [hquery]
  split_ifs with hreached
  · refine ⟨.nil, by simp, by simp, fun i hlow hhigh => ?_⟩
    simp only [reached, Option.any_some, decide_eq_true_eq] at hreached
    omega
  have hmem {a : IndexEntry} (ha : a ∈ connected (some high) e es) : a ∈ idx.entries := by
    rw [← mem_reverse, heq]
    exact mem_append_right _ (mem_connected ha)
  obtain ⟨rest, hhead⟩ := head_connected (some high) e es
  refine ⟨gapless_connected _ _ _, ?_, fun a ha i hi => ?_, fun i hlow hhigh => ⟨?_, fun hall => ?_⟩⟩
  · rw [hhead]
    simpa using hin
  · obtain ⟨w, hw, hpart⟩ := h.current_of_mem (hidx ▸ hmem ha) hi
    exact ⟨w, hpart, hw⟩
  · rintro ⟨a, ha, hain⟩ j hj hji
    obtain ⟨b, hb, hbin⟩ := holds_connected ha (hstart.trans hj) (hji.trans (IndexEntry.holds_iff.mp hain).2)
    exact hheld.mpr ⟨b, hmem hb, hbin⟩
  · exact hruns.disjoint.connected_holds heq hin hlow (by simpa [reached] using hhigh) fun j hj hji =>
      hheld.mp (hall j hj hji)

/-! ### Reading the entries -/

theorem Laid.exists_gives {d : DB} (h : Laid d) : ∃ f, ∀ low high, d.Gives f low high := by
  have hentry : ∀ i, ∃ e : Entry, ∀ p, locate d.index.entries.entries i = some p →
      e.index = i ∧ ∃ u, d.Holds p u ∧ e ∈ u.entriesToSave := fun i => by
    cases hp : locate d.index.entries.entries i with
    | none => exact ⟨⟨0, 0, .application, []⟩, nofun⟩
    | some p =>
      obtain ⟨ie, hie, hin, rfl⟩ := locate_eq_some hp
      obtain ⟨u, first, rest, hu, hes, hcons, hstart, hstop⟩ := h.run_record hie
      obtain ⟨hlow, hhigh⟩ := IndexEntry.holds_iff.mp hin
      have hk : i - first.index < (first :: rest).length := by simp only [length_cons]; omega
      refine ⟨(first :: rest)[i - first.index], fun p hp => ?_⟩
      cases hp
      exact ⟨by rw [consecutive_iff.mp hcons _ hk]; omega, u, hu, by rw [hes]; exact getElem_mem hk⟩
  exact ⟨fun i => (hentry i).choose, fun _ _ i p _ _ hp => (hentry i).choose_spec p hp⟩

/-! ### Runs without a removal -/

/-- The runs of the records of a file with their entries. -/
def fileWrites (num : ℕ) (records : List Record) : List (IndexEntry × List Entry) :=
  records.filterMap fun r =>
    (entriesRun num r.offset r.update.entriesToSave).map fun w => (w, r.update.entriesToSave)

/-- The writes of entries, the oldest first. -/
def DB.writes (d : DB) : List (IndexEntry × List Entry) := d.logs.flatMap fun f => fileWrites f.1 f.2

/-- Nothing was removed, and the index is the one of all the writes. -/
structure Exact (d : DB) : Prop where
  laid : Laid d
  compacted : Compacted d 0
  index : d.index.entries.entries = indexOf d.runs

/-- What was read are entries of the current writes, in order from `low` on: all up to the
first index that none holds, or as many as the size allows. -/
structure ReadsCurrent (d : DB) (low high maxSize : ℕ) (es : List Entry) (size : ℕ) : Prop where
  consecutive : Consecutive low es
  below : ∀ e ∈ es, e.index < high
  current : ∀ e ∈ es, ∃ w ∈ d.writes, Current d.runs e.index w.1 ∧ e ∈ w.2
  exact : (∀ i, low ≤ i → i < high → (i < low + es.length ↔ Stretch d.runs low i)) ∨ maxSize ≠ 0 ∧ maxSize < size

section
variable {opts : Options} {d : DB} {u : Update} {low high : ℕ} {f : ℕ → Entry}

theorem Laid.mem_writes (h : Laid d) {w : IndexEntry} (hw : w ∈ d.runs) (hu : d.Holds w.place u) :
    (w, u.entriesToSave) ∈ d.writes := by
  obtain ⟨f, hf, r, hr, hrun⟩ := mem_logRuns.mp hw
  obtain ⟨hnum, hpos, -⟩ := place_of_entriesRun hrun
  have heq : u = r.update :=
    h.holds_unique hu ⟨f.2, by rw [IndexEntry.place, hnum]; exact hf, by rw [IndexEntry.place, hpos]; exact hr⟩
  refine mem_flatMap.mpr ⟨f, hf, mem_filterMap.mpr ⟨r, hr, ?_⟩⟩
  rw [hrun, heq]
  rfl

theorem length_slice (f : ℕ → Entry) (low high : ℕ) : (slice f low high).length = high - low := by
  rw [slice, length_map, length_range']

theorem mem_slice {e : Entry} : e ∈ slice f low high ↔ ∃ i, (low ≤ i ∧ i < high) ∧ f i = e := by
  rw [slice, mem_map]
  refine exists_congr fun i => and_congr_left fun _ => ?_
  rw [mem_range'_1]
  omega

theorem Laid.readRuns_done (opts : Options) (h : Laid d) {limit : Option ℕ} {ies : List IndexEntry} {s : Reading}
    (hmem : ∀ e ∈ ies, e ∈ d.index.entries.entries) (hdone : s.done = false) (hhigh : high ≤ s.expected) :
    d.readRuns opts high limit ies s = .ok s := by
  induction ies with
  | nil => rfl
  | cons ie ies ih =>
    rw [forall_mem_cons] at hmem
    obtain ⟨u, -, -, hu, -⟩ := h.run_record hmem.1
    obtain ⟨later, hread⟩ := h.readLog ie hu
    rw [DB.readRuns, hread, ok_bind, readRecords_done (.inl hhigh), ok_bind, if_neg (by simp [hdone])]
    exact ih hmem.2

theorem consecutive_slice (hf : ∀ i, low ≤ i → i < high → (f i).index = i) : Consecutive low (slice f low high) := by
  refine consecutive_iff.mpr fun k hk => ?_
  rw [length_slice] at hk
  simp only [slice, getElem_map, getElem_range', Nat.one_mul]
  exact hf _ (by omega) (by omega)

theorem Exact.query (h : Exact d) (low high : ℕ) : Names d.runs low high (d.index.entries.query low (some high)) :=
  h.laid.written.query h.index

theorem Exact.getEntries (opts : Options) (h : Exact d) (maxSize : ℕ) (hlow : 0 < low) (hle : low ≤ high) :
    ∃ es size, d.getEntries opts low high maxSize = .ok (es, size) ∧ ReadsCurrent d low high maxSize es size := by
  have hwritten := h.laid.written
  have hcompacted : d.index.entries.compactedTo = 0 := Nat.le_zero.mp h.compacted.entries
  have hnames := h.query low high
  obtain ⟨f, hf⟩ := h.laid.exists_gives
  rw [DB.getEntries]
  by_cases hnil : d.index.entries.query low (some high) = []
  · rw [hnil] at hnames
    refine ⟨[], 0, if_pos (.inl hnil), trivial, by simp, by simp, .inl fun i hi hlt => ?_⟩
    rw [← hnames.exact i hi hlt]
    simp only [length_nil, not_mem_nil, false_and, exists_false, iff_false]
    omega
  obtain ⟨hquery, -⟩ | ⟨before, e, es, heq, hin, hquery⟩ := Index.query_cases h.laid.runs.disjoint low (some high)
  · exact absurd hquery hnil
  have hreached : reached (some high) e.start = false := by
    by_contra hreached
    exact hnil (by rw [hquery, if_pos (by simpa using hreached)])
  rw [hreached, if_neg Bool.false_ne_true] at hquery
  have hmem : ∀ a ∈ connected (some high) e es, a ∈ d.index.entries.entries := fun a ha => by
    rw [← mem_reverse, heq]
    exact mem_append_right _ (mem_connected ha)
  rw [if_neg (not_or.mpr ⟨hnil, by omega⟩), hquery]
  rw [hquery] at hnames
  obtain rfl | hlt := hle.eq_or_lt
  · have hdone : d.readRuns opts low (if maxSize = 0 then none else some maxSize) (connected (some low) e es)
        ⟨[], 0, low, false⟩ = .ok _ := h.laid.readRuns_done opts hmem rfl le_rfl
    rw [hdone, ok_bind]
    exact ⟨[], 0, rfl, trivial, by simp, by simp, .inl fun i hi hlt => by omega⟩
  obtain ⟨s', x, hread, hx, hreads, hend⟩ := h.laid.readRuns_reads opts (hf low high)
    (if maxSize = 0 then none else some maxSize) (s := ⟨[], 0, low, false⟩) heq ⟨rfl, by simp⟩ hin le_rfl hlt
  rw [hread, ok_bind]
  have hentries : s'.entries = slice f low s'.expected := hreads.entries
  have hle' : low ≤ s'.expected := hreads.le
  -- what was read is held by the runs of the chain
  have hheld : ∀ i, low ≤ i → i < s'.expected → ∃ a ∈ connected (some high) e es, a.holds i := fun i hi hlt =>
    holds_connected hx ((IndexEntry.holds_iff.mp hin).1.trans hi) (by have := hreads.upTo; omega)
  have hgives : ∀ i, low ≤ i → i < s'.expected → (f i).index = i ∧
      ∃ w ∈ d.writes, Current d.runs i w.1 ∧ f i ∈ w.2 := fun i hi hlt => by
    obtain ⟨a, ha, hain⟩ := hheld i hi hlt
    obtain ⟨w, hpart, hw⟩ := hnames.current a ha i hain
    obtain ⟨hfi, v, hv, hfv⟩ := hf low s'.expected i w.place hi hlt (by rw [h.index]; exact hw.locate hwritten)
    exact ⟨hfi, (w, v.entriesToSave), h.laid.mem_writes hw.mem hv, hw, hfv⟩
  refine ⟨s'.entries, s'.size, rfl, ?_, fun a ha => ?_, fun a ha => ?_, ?_⟩
  · rw [hentries]
    exact consecutive_slice fun i hi hlt => (hgives i hi hlt).1
  · obtain ⟨i, hi, rfl⟩ := mem_slice.mp (hentries ▸ ha)
    rw [(hgives i hi.1 hi.2).1]
    have := hreads.upTo
    omega
  · obtain ⟨i, hi, rfl⟩ := mem_slice.mp (hentries ▸ ha)
    obtain ⟨hfi, hwrite⟩ := hgives i hi.1 hi.2
    rwa [hfi]
  · rw [hentries, length_slice, Nat.add_sub_cancel' hle']
    obtain ⟨hdone, hlast⟩ | ⟨-, hfull⟩ := hreads.stops
    · refine .inl fun i hi hihigh => ?_
      rw [← hnames.exact i hi hihigh]
      refine ⟨hheld i hi, fun hholds => ?_⟩
      obtain ⟨a, ha, hain⟩ := hholds
      have := stop_le_getLast (gapless_connected _ _ _)
        (fun b hb => h.laid.runs.disjoint.nonempty b (hmem b hb)) (hend hdone) a ha
      have := (IndexEntry.holds_iff.mp hain).2
      omega
    · refine .inr ?_
      split_ifs at hfull with hzero
      · cases hfull
      · exact ⟨hzero, by simpa using hfull⟩

/-! #### One event -/

theorem writes_switchToNewLog (d : DB) : d.switchToNewLog.writes = d.writes := by
  simp [DB.writes, logs_switchToNewLog, fileWrites]

theorem writes_append (opts : Options) (d : DB) (u : Update) : (d.append opts u).writes =
    d.writes ++ ((entriesRun d.logNum d.offset u.entriesToSave).map fun w => (w, u.entriesToSave)).toList := by
  rw [DB.writes, logs_append, DB.writes, DB.logs]
  cases h : entriesRun d.logNum d.offset u.entriesToSave <;> simp [filesLogs, fileWrites, h]

theorem Exact.switchToNewLog (h : Exact d) : Exact d.switchToNewLog := by
  refine ⟨h.laid.switchToNewLog, h.compacted.switchToNewLog, ?_⟩
  rw [runs_switchToNewLog]
  exact h.index

theorem Exact.append (opts : Options) (h : Exact d) (hnone : isCompactionUpdate u = none)
    (hu : ∀ e es, u.entriesToSave = e :: es → Consecutive e.index (e :: es)) : Exact (d.append opts u) := by
  refine ⟨h.laid.append hu, h.compacted.append (by simp [hnone]), ?_⟩
  rw [runs_append, indexOf, foldl_append, ← indexOf, ← h.index]
  exact (updateIndex_runs d.index).1

/-- The entries that the event writes. -/
def Event.entries : Event → Option (List Entry)
  | saveRaftState u => if u.entriesToSave = [] then none else some u.entriesToSave
  | _ => none

/-- Anything but a removal. -/
def Event.Keeps : Event → Prop
  | removeEntriesTo _ => False
  | _ => True

theorem Exact.write (opts : Options) (h : Exact d) (hnone : isCompactionUpdate u = none)
    (hu : ∀ e es, u.entriesToSave = e :: es → Consecutive e.index (e :: es)) :
    ∃ d', d.write opts u = .ok d' ∧ Exact d' ∧
    d'.writes.map Prod.snd = d.writes.map Prod.snd ++ (Event.saveRaftState u).entries.toList := by
  rw [DB.write, if_neg (by simp [hnone])]
  split_ifs with hskip
  · exact ⟨d, rfl, h, by simp [Event.entries, hskip.2.2]⟩
  have hroom : Exact (d.makeRoomForWrite opts) ∧ (d.makeRoomForWrite opts).writes = d.writes := by
    rw [DB.makeRoomForWrite]
    split_ifs
    · exact ⟨h, rfl⟩
    · exact ⟨h.switchToNewLog, writes_switchToNewLog d⟩
  refine ⟨_, rfl, hroom.1.append opts hnone hu, ?_⟩
  rw [DB.doWriteLocked, writes_append, hroom.2, map_append]
  congr 1
  cases hes : u.entriesToSave <;> simp [Event.entries, hes, entriesRun]

theorem Exact.reopen (h : Exact d) (closed : Bool) : ∃ d', d.reopen closed = .ok d' ∧ Exact d' ∧
    d'.logs = d.logs ++ [(d.nextFileNum, [])] ∧ d'.index.entries = d.index.entries := by
  obtain ⟨n, hn, hload⟩ := h.laid.loadFiles closed
  have hcompacted := Nat.le_zero.mp (hn.compacted 0 h.compacted).1
  rw [DB.reopen, openDB, hload, ok_bind]
  dsimp only
  rw [hcompacted, if_neg (lt_irrefl 0)]
  have hexact : Exact { d with index := n, state := emptyState } :=
    ⟨h.laid.withIndex hn, h.compacted.withIndex hn, hn.entries⟩
  refine ⟨_, rfl, hexact.switchToNewLog, logs_switchToNewLog, ?_⟩
  have hentries : n.entries.entries = d.index.entries.entries := hn.entries.trans h.index.symm
  have hzero : n.entries.compactedTo = d.index.entries.compactedTo := by
    rw [hcompacted, Nat.le_zero.mp h.compacted.entries]
  change n.entries = d.index.entries
  cases hne : n.entries
  cases hde : d.index.entries
  simp_all

theorem Exact.step (opts : Options) (h : Exact d) (e : Event) (he : e.WellFormed) (hkeeps : e.Keeps) :
    ∃ d', e.run opts d = .ok d' ∧ Exact d' ∧ d'.writes.map Prod.snd = d.writes.map Prod.snd ++ e.entries.toList := by
  cases e with
  | saveRaftState u => exact h.write opts he.1 he.2
  | saveSnapshots ss =>
    rw [Event.run, DB.saveSnapshots]
    split_ifs with hempty
    · exact ⟨d, rfl, h, (append_nil _).symm⟩
    · exact h.write (u := ⟨emptyState, [], ss⟩) opts
        (isCompactionUpdate_of_ne (show emptyState.term ≠ compactionFlag by decide)) fun e es h => by cases h
  | removeEntriesTo index => exact hkeeps.elim
  | reopen closed =>
    obtain ⟨d', hrun, hd', hlogs, -⟩ := h.reopen closed
    refine ⟨d', hrun, hd', ?_⟩
    rw [DB.writes, hlogs, flatMap_append]
    simp [DB.writes, fileWrites, Event.entries]

theorem Exact.getEntries_reopened (opts : Options) (h : Exact d) {d' : DB}
    (hlogs : d'.logs = d.logs ++ [(d.nextFileNum, [])])
    (hindex : d'.index.entries = d.index.entries) (low high maxSize : ℕ) :
    d'.getEntries opts low high maxSize = d.getEntries opts low high maxSize := by
  have hread : ∀ ie ∈ d.index.entries.query low (some high), d'.readLog ie = d.readLog ie := fun ie hie => by
    obtain ⟨u, -, -, ⟨records, hf, -⟩, -⟩ := h.laid.run_record (mem_query hie)
    have hfind : d.logs.find? (fun f => f.1 = ie.fileNum) = some (ie.fileNum, records) := h.laid.find?_logs hf
    rw [DB.readLog, DB.readLog, hlogs, List.find?_append, hfind]
    rfl
  rw [DB.getEntries, DB.getEntries, hindex, readRuns_congr hread]

end

theorem exact_newDB : Exact newDB := by
  have h : Tracks newDB .init := tracks_fresh one_pos one_lt_two
  exact ⟨h.laid, h.compacted, rfl⟩

theorem exact_runEvents (opts : Options) (es : List Event) {d : DB} (h : Exact d)
    (hes : ∀ e ∈ es, e.WellFormed ∧ e.Keeps) : ∃ d', runEvents opts es d = .ok d' ∧ Exact d' ∧
    d'.writes.map Prod.snd = d.writes.map Prod.snd ++ es.filterMap Event.entries := by
  induction es generalizing d with
  | nil => exact ⟨d, rfl, h, (append_nil _).symm⟩
  | cons e es ih =>
    rw [forall_mem_cons] at hes
    obtain ⟨d1, hrun, h1, hwrites1⟩ := h.step opts e hes.1.1 hes.1.2
    obtain ⟨d', hrest, h', hwrites⟩ := ih h1 hes.2
    refine ⟨d', by rw [runEvents, hrun, ok_bind, hrest], h', ?_⟩
    rw [hwrites, hwrites1, append_assoc, filterMap_cons]
    cases e.entries <;> rfl

/-- A query names the current write of each index, reading gives the entries of those writes,
and after the indexes of the files are saved and loaded all answers are the same. -/
structure AnswersExactly (opts : Options) (d : DB) : Prop where
  query : ∀ low high, low ≤ high → Names d.runs low high (d.index.entries.query low (some high))
  entries : ∀ low high maxSize, 0 < low → low ≤ high → ∃ entries size,
    d.getEntries opts low high maxSize = .ok (entries, size) ∧ ReadsCurrent d low high maxSize entries size
  reloads : ∀ closed, ∃ d', d.reopen closed = .ok d' ∧
    (∀ low high, d'.index.entries.query low high = d.index.entries.query low high) ∧
    ∀ low high maxSize, d'.getEntries opts low high maxSize = d.getEntries opts low high maxSize

/-- After any run without a removal the writes on disk are those of the run, and the index
answers by them. -/
theorem index_names_current_writes (opts : Options) (es : List Event) (hes : ∀ e ∈ es, e.WellFormed ∧ e.Keeps) :
    ∃ d, runEvents opts es newDB = .ok d ∧ d.writes.map Prod.snd = es.filterMap Event.entries ∧
    AnswersExactly opts d := by
  obtain ⟨d, hrun, hd, hwrites⟩ := exact_runEvents opts es exact_newDB hes
  refine ⟨d, hrun, hwrites, fun low high _ => hd.query low high,
    fun low high maxSize hlow hle => hd.getEntries opts maxSize hlow hle, fun closed => ?_⟩
  obtain ⟨d', hopen, -, hlogs, hindex⟩ := hd.reopen closed
  exact ⟨d', hopen, fun low high => by rw [hindex], hd.getEntries_reopened opts hlogs hindex⟩

/-- A log that is overwritten twice, with a restart in between, over three files. -/
def overwrittenLog : List Event :=
  [.saveRaftState ⟨⟨1, 1, 0⟩, [entryOf 1 1, entryOf 2 1, entryOf 3 1], emptySnapshot⟩,
    .saveRaftState ⟨⟨2, 0, 1⟩, [entryOf 3 2, entryOf 4 2], emptySnapshot⟩,
    .reopen false,
    .saveSnapshots ⟨1, 1, ⟨[1, 2, 3], [], []⟩⟩,
    .saveRaftState ⟨⟨3, 0, 1⟩, [entryOf 2 3], emptySnapshot⟩,
    .saveRaftState ⟨⟨3, 0, 1⟩, [entryOf 3 3], emptySnapshot⟩]

theorem index_names_current_writes_overwrittenLog : ∃ d, runEvents smallFiles overwrittenLog newDB = .ok d ∧
    d.writes.map Prod.snd = overwrittenLog.filterMap Event.entries ∧ AnswersExactly smallFiles d :=
  index_names_current_writes smallFiles overwrittenLog fun e he => by
    simp only [overwrittenLog, mem_cons, not_mem_nil, or_false] at he
    obtain rfl | rfl | rfl | rfl | rfl | rfl := he
    · exact ⟨⟨by decide, by rintro e es h; cases h; decide⟩, trivial⟩
    · exact ⟨⟨by decide, by rintro e es h; cases h; decide⟩, trivial⟩
    · exact ⟨trivial, trivial⟩
    · exact ⟨trivial, trivial⟩
    · exact ⟨⟨by decide, by rintro e es h; cases h; decide⟩, trivial⟩
    · exact ⟨⟨by decide, by rintro e es h; cases h; decide⟩, trivial⟩

end Armada.Tan
