import Armada.Tan.Layout

/-! Dropping log files. A compaction removes files whose entries all lie below the compaction
index. What is left is laid out as before, and a restart finds the same pointers and, above
that index, the same runs without them. -/

namespace Armada.Tan

open Raft Program List

/-- The store without some files, all of them at or below a bound: what they hold lies
below the compaction index, later files have runs, and the pointers are to later files. -/
structure Drops (d d' : DB) (m : ℕ) (gone : List ℕ) : Prop where
  eq : d' = { d with
    index := { d.index with entries := { d.index.entries with
      entries := d.index.entries.entries.takeWhile fun e => m < e.fileNum } }
    files := d.files.filter fun f => f.num ∉ gone }
  gone : ∀ num ∈ gone, num ≤ m ∧ ∃ e ∈ d.index.entries.entries, e.fileNum = num
  state : d.index.state.fileNum ≠ 0 → m < d.index.state.fileNum
  snapshot : d.index.snapshot.fileNum ≠ 0 → m < d.index.snapshot.fileNum
  low : ∀ e ∈ d.index.entries.entries, e.fileNum ≤ m →
    e.stop ≤ d.index.entries.compactedTo ∧ ∃ x ∈ d.index.entries.entries, m < x.fileNum

section
variable {d : DB} {bound num : ℕ} {n : NodeIndex} {st : State}

theorem Laid.fileNum_mem (h : Laid d) {e : IndexEntry} (he : e ∈ d.index.entries.entries) :
    e.fileNum ∈ d.logs.map (·.1) := by
  obtain ⟨w, hw, hpart⟩ := h.runs.part e he
  obtain ⟨f, hf, r, -, hrun⟩ := mem_logRuns.mp hw
  have hplace := hpart.place
  simp only [IndexEntry.place, Prod.mk.injEq] at hplace
  rw [hplace.1, (place_of_entriesRun hrun).1]
  exact mem_map_of_mem hf

theorem Laid.positive_of_mem (h : Laid d) (hn : num ∈ d.logs.map (·.1)) : 0 < num := by
  obtain ⟨f, hf, rfl⟩ := mem_map.mp hn
  exact h.order.positive f hf

theorem Laid.compaction_cases (h : Laid d) : d.compactionLocked = d ∨ ∃ m gone, Drops d d.compactionLocked m gone := by
  obtain hsame | ⟨m, hstate, hsnapshot, hentries, heq⟩ := d.index.compaction_cases
  · refine .inl ?_
    simp [DB.compactionLocked, hsame]
  · refine .inr ⟨m, _, by rw [DB.compactionLocked, heq]; rfl, fun num hnum => ?_, hstate, hsnapshot,
      fun e he hem => ?_⟩
    · obtain ⟨hnum, -⟩ := mem_filter.mp hnum
      obtain ⟨e, he, rfl⟩ := mem_map.mp (mem_dedup.mp hnum)
      obtain ⟨he, hle⟩ := mem_filter.mp he
      exact ⟨by simpa using hle, e, he, rfl⟩
    · cases hc : d.index.entries.entryCompaction with
      | none =>
        -- there is a bound as soon as there is a run
        have hne : d.index.entries.entries.reverse ≠ [] := by
          simpa using ne_nil_of_mem he
        rw [Index.entryCompaction] at hc
        cases hrev : d.index.entries.entries.reverse with
        | nil => exact absurd hrev hne
        | cons first es => simp [hrev] at hc
      | some x =>
        obtain ⟨hstop, y, hy, hlt⟩ := Index.entryCompaction_obsolete h.runs
          (fun e he => h.positive_of_mem (h.fileNum_mem he)) hc he (hem.trans (hentries x hc))
        exact ⟨hstop, y, hy, lt_of_le_of_lt (hentries x hc) hlt⟩

section
variable {d' : DB} {m : ℕ} {gone : List ℕ}

section
variable (h : Drops d d' m gone)
include h

theorem Drops.logs_sublist : d'.logs.Sublist d.logs := by
  rw [h.eq]
  exact (filter_sublist.map _).append_right _

theorem Drops.not_gone {num : ℕ} (hm : m < num) : num ∉ gone :=
  fun hgone => absurd (h.gone num hgone).1 (not_le.mpr hm)

theorem Drops.mem_logs {f : ℕ × List Record} (hf : f ∈ d.logs) (hgone : f.1 ∉ gone) : f ∈ d'.logs := by
  rw [h.eq]
  obtain hf | hf := mem_append.mp hf
  · obtain ⟨g, hg, rfl⟩ := mem_map.mp hf
    exact mem_append_left _ (mem_map_of_mem (mem_filter.mpr ⟨hg, by simpa using hgone⟩))
  · exact mem_append_right _ hf

theorem Drops.takeWhile_append (hl : Laid d) : ∃ rest,
    d.index.entries.entries = d'.index.entries.entries ++ rest ∧ ∀ e ∈ rest, e.fileNum ≤ m := by
  refine ⟨d.index.entries.entries.dropWhile fun e => m < e.fileNum, ?_, fun e he => ?_⟩
  · rw [h.eq]
    exact takeWhile_append_dropWhile.symm
  · have horder := hl.runs.order.sublist (dropWhile_sublist fun e => decide (m < e.fileNum))
    cases hdrop : d.index.entries.entries.dropWhile fun e => m < e.fileNum with
    | nil => simp [hdrop] at he
    | cons a rest =>
      have ha : a.fileNum ≤ m := by
        have := head_dropWhile_not (fun e : IndexEntry => decide (m < e.fileNum)) (by rw [hdrop]; simp)
        simpa [hdrop] using this
      rw [hdrop] at he horder
      obtain rfl | he := mem_cons.mp he
      · exact ha
      · obtain hlt | ⟨heq, -⟩ := rel_of_pairwise_cons horder he <;> omega

end

end

/-! #### The pointers that a restart finds without the dropped files -/

section
variable (proj : NodeIndex → IndexEntry) (sproj : SavedIndex → IndexEntry) {files : List LogFile} {p : IndexEntry}

theorem loaded_pointer {P : IndexEntry → Prop} (hinit : P (proj .init))
    (hload : ∀ n s, proj (load n s) = sproj s ∨ proj (load n s) = proj n)
    (hfiles : ∀ f ∈ files, ∀ s, f.index = some s → P (sproj s)) : P (proj (loaded files)) := by
  rw [loaded]
  refine List.foldlRecOn (motive := fun n => P (proj n)) _ _ hinit fun n hn s hs => ?_
  obtain ⟨f, hf, hs⟩ := mem_filterMap.mp hs
  obtain heq | heq := hload n s
  · rw [heq]
    exact hfiles f hf s hs
  · rw [heq]
    exact hn

theorem loaded_pointer_eq (hinit : proj .init = .none)
    (hload : ∀ n s, proj (load n s) = sproj s ∨ (sproj s).fileNum = 0 ∧ proj (load n s) = proj n)
    (hfiles : ∀ f ∈ files, ∃ s, f.index = some s ∧ (p.fileNum ≤ f.num → sproj s = p))
    (hnums : files.Pairwise fun f g => f.num < g.num)
    (hp : p = .none ∨ 0 < p.fileNum ∧ ∃ f ∈ files, f.num = p.fileNum) : proj (loaded files) = p := by
  induction files using List.reverseRecOn with
  | nil =>
    obtain rfl | ⟨-, f, hf, -⟩ := hp
    · exact hinit
    · simp at hf
  | append_singleton files g ih =>
    obtain ⟨s, hidx, hsame⟩ := hfiles g (by simp)
    obtain ⟨hnums, -, hcross⟩ := pairwise_append.mp hnums
    rw [loaded_concat, hidx]
    change proj (load (loaded files) s) = p
    obtain rfl | ⟨hpos, f, hf, hnum⟩ := hp
    · have hs : sproj s = .none := hsame (Nat.zero_le _)
      obtain heq | ⟨-, heq⟩ := hload (loaded files) s
      · rw [heq, hs]
      · rw [heq]
        exact ih (fun f hf => hfiles f (mem_append_left _ hf)) hnums (.inl rfl)
    · have hle : p.fileNum ≤ g.num := by
        obtain hf | hf := mem_append.mp hf
        · exact hnum ▸ (hcross f hf g (mem_singleton_self _)).le
        · rw [← hnum, mem_singleton.mp hf]
      have hs := hsame hle
      obtain heq | ⟨hzero, -⟩ := hload (loaded files) s
      · rw [heq, hs]
      · rw [hs] at hzero
        omega

theorem load_state_cases (n : NodeIndex) (s : SavedIndex) :
    (load n s).state = s.state ∨ s.state.fileNum = 0 ∧ (load n s).state = n.state := by
  by_cases h : s.state.empty
  · exact .inr ⟨by simpa [IndexEntry.empty] using h, if_pos h⟩
  · exact .inl (if_neg h)

end

section
variable {d' : DB} {m : ℕ} {gone : List ℕ}

theorem Laid.files_nums (h : Laid d) : d.files.Pairwise fun f g => f.num < g.num :=
  by simpa [pairwise_map] using (pairwise_append.mp h.order.nums).1

section
variable (h : Drops d d' m gone)
include h

theorem Drops.files : d'.files = d.files.filter fun f => f.num ∉ gone := by rw [h.eq]

variable {p : IndexEntry}

theorem Drops.pointer_file (hm : p.fileNum ≠ 0 → m < p.fileNum)
    (hp : p = .none ∨ p.fileNum ∈ d.logs.map (·.1)) (hl : Laid d) : p = .none ∨ p.fileNum ∈ d'.logs.map (·.1) := by
  refine hp.imp_right fun hp => ?_
  have hpos := hl.positive_of_mem hp
  obtain ⟨f, hf, hnum⟩ := mem_map.mp hp
  rw [← hnum]
  exact mem_map_of_mem (h.mem_logs hf (h.not_gone (by rw [hnum]; exact hm (by omega))))

/-- What the kept files give back when the pointer is not to the current file. -/
theorem Drops.loaded_eq (hl : Laid d) (proj : NodeIndex → IndexEntry)
    (sproj : SavedIndex → IndexEntry) (hinit : proj .init = .none)
    (hload : ∀ n s, proj (load n s) = sproj s ∨ (sproj s).fileNum = 0 ∧ proj (load n s) = proj n)
    (hsaved : ∀ f ∈ d.files, ∀ s, f.index = some s → SavedBefore (sproj s) p f.num)
    (hm : p.fileNum ≠ 0 → m < p.fileNum) (hp : p = .none ∨ p.fileNum ∈ d.logs.map (·.1))
    (hnum : p.fileNum ≠ d.logNum) : proj (loaded d'.files) = p := by
  rw [h.files]
  refine loaded_pointer_eq proj sproj hinit hload (fun f hf => ?_) (hl.files_nums.filter _) (hp.imp_right fun hp => ?_)
  · have hf := mem_of_mem_filter hf
    obtain ⟨s, hs, -⟩ := hl.indexed f hf
    exact ⟨s, hs, (hsaved f hf s hs).same⟩
  · have hpos := hl.positive_of_mem hp
    refine ⟨hpos, ?_⟩
    obtain ⟨f, hf, hfnum⟩ := mem_map.mp hp
    obtain hf | hf := mem_append.mp hf
    · obtain ⟨g, hg, rfl⟩ := mem_map.mp hf
      refine ⟨g, mem_filter.mpr ⟨hg, ?_⟩, hfnum⟩
      have hlt := hm hpos.ne'
      rw [← hfnum] at hlt
      simpa using h.not_gone hlt
    · rw [mem_singleton.mp hf] at hfnum
      exact absurd hfnum.symm hnum

theorem Drops.pointers (hl : Laid d) : Pointers d' := by
  have hp := hl.pointers
  have hfiles : ∀ f ∈ d'.files, f ∈ d.files := fun f hf => by
    rw [h.files] at hf
    exact mem_of_mem_filter hf
  have hindex : d'.index.state = d.index.state ∧ d'.index.snapshot = d.index.snapshot ∧ d'.records = d.records ∧
      d'.logNum = d.logNum := by rw [h.eq]; exact ⟨rfl, rfl, rfl, rfl⟩
  obtain ⟨hstate, hsnap, hrecords, hlogNum⟩ := hindex
  have hpos := hl.logNum_positive
  refine ⟨?_, ?_, ?_, ?_, ?_, ?_, ?_⟩
  · rw [hstate, hrecords, hlogNum]
    obtain ⟨hsame, hany⟩ | ⟨hnum, hany⟩ :=
      foldl_stateAfter d.logNum d.records (loaded d.files).state (loaded d'.files).state
    · -- the pointer is to a closed file
      have hbase : (loaded d.files).state.fileNum < d.logNum :=
        loaded_pointer (P := fun p => p.fileNum < d.logNum) (·.state) (·.state) hpos
          (fun n s => (load_state_cases n s).imp_right And.right)
          fun f hf s hs => lt_of_le_of_lt (hp.savedState f hf s hs).file (hl.num_lt hf)
      rw [← hsame, hp.state] at hbase
      rw [hany]
      exact h.loaded_eq hl (·.state) (·.state) rfl load_state_cases hp.savedState h.state hp.stateFile hbase.ne
    · rw [hany, hp.state]
  · rw [hsnap, hrecords, hlogNum]
    obtain hsame | ⟨hnum, hmoved, hany⟩ := foldl_snapshotAfter d.logNum d.records (loaded d.files).snapshot
    · have hbase : (loaded d.files).snapshot.fileNum < d.logNum :=
        loaded_pointer (P := fun p => p.fileNum < d.logNum) (·.snapshot) (·.snapshot) hpos
          (fun n s => .inl rfl) fun f hf s hs => lt_of_le_of_lt (hp.savedSnapshot f hf s hs).file (hl.num_lt hf)
      have hsame' : (loaded d.files).snapshot = d.index.snapshot := by rw [← hp.snapshot, hsame]
      rw [hsame'] at hbase hsame
      have hkept : (loaded d'.files).snapshot = d.index.snapshot :=
        h.loaded_eq hl (·.snapshot) (·.snapshot) rfl (fun n s => .inl rfl) hp.savedSnapshot h.snapshot hp.snapshotFile
          hbase.ne
      rw [hkept, hsame]
    · rw [hp.snapshot] at hnum hmoved hany
      refine hany _ (loaded_pointer (P := fun p => p.start < d.index.snapshot.start) (·.snapshot)
        (·.snapshot) (lt_of_le_of_lt (Nat.zero_le _) hmoved) (fun n s => .inl rfl) fun f hf s hs => ?_)
      exact hp.newer f (hfiles f hf) s hs (hnum ▸ hl.num_lt (hfiles f hf))
  · rw [hstate]
    exact fun f hf => hp.savedState f (hfiles f hf)
  · rw [hsnap]
    exact fun f hf => hp.savedSnapshot f (hfiles f hf)
  · rw [hsnap]
    exact fun f hf => hp.newer f (hfiles f hf)
  · rw [hstate]
    exact h.pointer_file h.state hp.stateFile hl
  · rw [hsnap]
    exact h.pointer_file h.snapshot hp.snapshotFile hl

variable {place : ℕ × ℕ} {i : ℕ}

/-- A run in a dropped file ends at what was compacted, or below. -/
theorem Drops.lt_of_locate (hplace : locate d.index.entries.entries i = some place)
    (hi : d.index.entries.compactedTo < i) : m < place.1 := by
  obtain ⟨e, he, hin, rfl⟩ := locate_eq_some hplace
  by_contra hm
  have := (h.low e he (by simpa [IndexEntry.place] using hm)).1
  have := (IndexEntry.holds_iff.mp hin).2
  omega

theorem Drops.holds {u : Update} (hm : m < place.1) (hu : d.Holds place u) : d'.Holds place u := by
  obtain ⟨records, hlogs, hr⟩ := hu
  exact ⟨records, h.mem_logs hlogs (h.not_gone hm), hr⟩

theorem Drops.mem_runs {w : IndexEntry} (hw : w ∈ d.runs) (hgone : w.fileNum ∉ gone) : w ∈ d'.runs := by
  obtain ⟨f, hf, r, hr, hrun⟩ := mem_logRuns.mp hw
  exact mem_logRuns.mpr ⟨f, h.mem_logs hf (by rwa [← (place_of_entriesRun hrun).1]), r, hr, hrun⟩

theorem Drops.laid (hl : Laid d) : Laid d' := by
  have hpointers := h.pointers hl
  have horder := hl.order.sublist h.logs_sublist
  have hruns : Runs d'.runs d'.index.entries.entries := by
    obtain ⟨rest, heq, -⟩ := h.takeWhile_append hl
    have hsub : d'.index.entries.entries.Sublist d.index.entries.entries := heq ▸ sublist_append_left ..
    refine ⟨⟨hl.runs.disjoint.below.sublist hsub, fun e he => hl.runs.disjoint.nonempty e (hsub.subset he)⟩,
      hl.runs.order.sublist hsub, fun e he => ?_⟩
    have hm : m < e.fileNum := by
      rw [h.eq] at he
      simpa using mem_takeWhile_imp he
    obtain ⟨w, hw, hpart⟩ := hl.runs.part e (hsub.subset he)
    have hplace := hpart.place
    simp only [IndexEntry.place, Prod.mk.injEq] at hplace
    exact ⟨w, h.mem_runs hw (h.not_gone (hplace.1 ▸ hm)), hpart⟩
  have hfiles : ∀ f ∈ d'.files, ∃ s, Indexed f s := fun f hf => by
    rw [h.files] at hf
    exact hl.indexed f (mem_of_mem_filter hf)
  refine ⟨horder, ?_, ?_, hfiles, ?_, hruns, hpointers⟩
  all_goals rw [h.eq]
  · exact hl.next
  · exact hl.room
  · exact hl.curr

theorem Drops.compacted (hc : Compacted d bound) : Compacted d' bound := by
  rw [h.eq]
  exact ⟨hc.entries, hc.currEntries, fun f hf => hc.saved f (mem_of_mem_filter hf), hc.records⟩

theorem Drops.locate_eq (hl : Laid d) (hi : d.index.entries.compactedTo < i) :
    locate d'.index.entries.entries i = locate d.index.entries.entries i := by
  obtain ⟨rest, heq, hrest⟩ := h.takeWhile_append hl
  have hnone : rest.find? (·.holds i) = none := by
    refine List.find?_eq_none.mpr fun e he => ?_
    have := (h.low e (heq ▸ mem_append_right _ he) (hrest e he)).1
    simp [IndexEntry.holds]
    omega
  rw [heq, locate, locate, List.find?_append, hnone, Option.or_none]

/-- Without the dropped files the records still give every entry above the bound the
place it has, when the index gives it that place and has no gap above the bound. -/
theorem Drops.locate_runs (hl : Laid d) {tail : ℕ} (hc : d.index.entries.compactedTo < i)
    (hagree : locate d.index.entries.entries i = locate (indexOf d.runs) i)
    (hbeyond : ∀ j, i < j → locate d.index.entries.entries j ≠ none → j ≤ tail)
    (hdense : i ≤ tail → locate d.index.entries.entries i ≠ none) :
    locate (indexOf d'.runs) i = locate (indexOf d.runs) i := by
  have hw := hl.written
  have hsub : d'.runs.Sublist d.runs := h.logs_sublist.flatMap _
  have hw' := hw.sublist hsub
  rw [hw'.locate_indexOf]
  rw [hw.locate_indexOf] at hagree ⊢
  cases hfind : d.runs.reverse.find? fun w => w.start ≤ i with
  | none =>
    have : d'.runs.reverse.find? (fun w => w.start ≤ i) = none := by
      rw [List.find?_eq_none] at hfind ⊢
      exact fun w hmem => hfind w (mem_reverse.mpr (hsub.subset (mem_reverse.mp hmem)))
    rw [this]
  | some w =>
    obtain ⟨hmem, hstart, hlast⟩ := hw.find?_eq_some.mp hfind
    have hkept : w ∈ d'.runs := by
      refine h.mem_runs hmem fun hgone => ?_
      obtain ⟨hm, a, ha, hnum⟩ := h.gone _ hgone
      rw [hfind] at hagree
      by_cases hstop : i ≤ w.stop
      · -- the index has the entry in a file that stays
        obtain ⟨e, he, hin, hplace⟩ := locate_eq_some (by simpa [hstop] using hagree)
        have hfile : e.fileNum = w.fileNum := congrArg Prod.fst hplace
        have := (h.low e he (hfile.trans_le hm)).1
        have := (IndexEntry.holds_iff.mp hin).2
        omega
      · -- a later file has a run above the entry, which would leave a gap
        obtain ⟨-, x, hx, hlt⟩ := h.low a ha (hnum.trans_le hm)
        obtain ⟨v, hv, hpart⟩ := hl.runs.part x hx
        have hfile : x.fileNum = v.fileNum := congrArg Prod.fst hpart.place
        have hxi : i < x.start := by
          rw [hpart.start]
          by_contra hle
          obtain rfl | hold := hlast v hv (by simpa using hle)
          · omega
          · rw [Older] at hold
            omega
        have hne := hl.runs.disjoint.nonempty x hx
        have htail : x.stop ≤ tail := hbeyond _ (by omega) (by
          rw [locate_of_mem hl.runs.disjoint hx (IndexEntry.holds_iff.mpr ⟨hne, le_rfl⟩)]
          simp)
        exact hdense (by omega) (by simpa [hstop] using hagree)
    rw [hw'.find?_eq_some.mpr ⟨hkept, hstart, fun v hv => hlast v (hsub.subset hv)⟩]

end

end

end

end Armada.Tan
