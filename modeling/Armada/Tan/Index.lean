import Armada.Raft.Records

/-! The index of the log store: for each write of log entries the run of indexes it holds
and where it was written. A later write takes the place of everything from its first
index on, so the runs that are left are disjoint and each index is found in the last
write that starts at or below it. -/

namespace Armada.Tan

open List

/-- A run of indexes, from `start` to `stop`, and the place of its record. -/
structure IndexEntry where
  start : ℕ
  stop : ℕ
  fileNum : ℕ
  pos : ℕ
  length : ℕ
  deriving DecidableEq

def indexBlockSize : ℕ := 1024 * 128

namespace IndexEntry

def none : IndexEntry := ⟨0, 0, 0, 0, 0⟩

def empty (e : IndexEntry) : Bool := e.fileNum = 0

def indexBlock (e : IndexEntry) : ℕ := e.pos / indexBlockSize

def place (e : IndexEntry) : ℕ × ℕ := (e.fileNum, e.pos)

/-- Two entries as one, or both and no merge. -/
def merge (e n : IndexEntry) : IndexEntry × IndexEntry × Bool :=
  if e.stop + 1 = n.start ∧ e.pos + e.length = n.pos ∧ e.fileNum = n.fileNum ∧ e.indexBlock = n.indexBlock then
    ({ e with stop := n.stop, length := e.length + n.length }, none, true)
  else (e, n, false)

/-- Two entries, whether they became one, and whether more entries must give way. -/
def update (e n : IndexEntry) : IndexEntry × IndexEntry × Bool × Bool :=
  let (m, _, merged) := e.merge n
  if merged then (m, none, true, false)
  else if n.start = e.start then (n, none, true, false)
  else if n.start < e.start then (n, none, true, true)
  else if n.start ≤ e.stop then ({ e with stop := n.start - 1 }, n, false, false)
  else (e, n, false, false)

end IndexEntry

/-- The runs of a log, the newest first, and the index up to which entries may go. -/
structure Index where
  entries : List IndexEntry
  compactedTo : ℕ
  deriving DecidableEq

def Index.empty : Index := ⟨[], 0⟩

def Index.setCompactedTo (i : Index) (index : ℕ) : Index :=
  if i.compactedTo < index then { i with compactedTo := index } else i

/-- A new run gives way to none: the runs it meets are cut or dropped, from the last on. -/
def updateEntries : List IndexEntry → IndexEntry → List IndexEntry
  | [], e => [e]
  | last :: rest, e =>
    let (e1, e2, merged, more) := last.update e
    if more then
      match rest with
      | [] => [e1]
      | r :: rest => updateEntries (r :: rest) e1
    else if merged then e1 :: rest
    else e2 :: e1 :: rest

def Index.update (i : Index) (e : IndexEntry) : Index := { i with entries := updateEntries i.entries e }

/-- The bound is at or below the index; no bound stands for the largest index there is. -/
def reached (high : Option ℕ) (i : ℕ) : Bool := high.any (· ≤ i)

/-- The runs that follow each other without a gap and start below `high`. -/
def connected (high : Option ℕ) : IndexEntry → List IndexEntry → List IndexEntry
  | last, [] => [last]
  | last, e :: es =>
    if reached high e.start ∨ last.stop + 1 ≠ e.start then [last]
    else last :: connected high e es

/-- The runs from the one that holds `low` on, if there is one. -/
def Index.query (i : Index) (low : ℕ) (high : Option ℕ) : List IndexEntry :=
  match i.entries.reverse.dropWhile (fun e => decide (e.stop < low)) with
  | [] => []
  | e :: es => if low < e.start ∨ reached high e.start then [] else connected high e es

/-- The last file all of whose runs lie below the compaction index, among those that a
run of another file follows. -/
def lastObsolete (compactedTo : ℕ) : IndexEntry → List IndexEntry → Option ℕ → Option ℕ
  | _, [], acc => acc
  | prev, e :: es, acc =>
    if e.fileNum ≠ prev.fileNum ∧ prev.stop ≤ compactedTo then lastObsolete compactedTo e es (some prev.fileNum)
    else lastObsolete compactedTo e es acc

/-- The last file that no run needs; without runs there is no such bound. -/
def Index.entryCompaction (i : Index) : Option ℕ :=
  match i.entries.reverse with
  | [] => none
  | e :: es => some ((lastObsolete i.compactedTo e es none).getD (e.fileNum - 1))

/-- The files at or below the bound that still have runs, and the index without them. -/
def Index.removeObsolete (i : Index) (maxObsoleteFileNum : ℕ) : List ℕ × Index :=
  (((i.entries.filter fun e => e.fileNum ≤ maxObsoleteFileNum).map (·.fileNum)).dedup,
    { i with entries := i.entries.takeWhile fun e => maxObsoleteFileNum < e.fileNum })

structure NodeIndex where
  entries : Index
  /-- the runs of the file that is being written -/
  currEntries : Index
  snapshot : IndexEntry
  state : IndexEntry

def NodeIndex.init : NodeIndex := ⟨.empty, .empty, .none, .none⟩

def NodeIndex.fileInUse (n : NodeIndex) (fn : ℕ) : Bool :=
  n.snapshot.fileNum = fn ∨ n.state.fileNum = fn ∨ ∃ e ∈ n.entries.entries, e.fileNum = fn

/-- No file from that of the pointer on may go. -/
def pointerCompaction (p : IndexEntry) : Option ℕ := if p.empty then none else some (p.fileNum - 1)

def minBound : Option ℕ → Option ℕ → Option ℕ
  | none, b => b
  | a, none => a
  | some a, some b => some (min a b)

def NodeIndex.compaction (n : NodeIndex) : List ℕ × NodeIndex :=
  match minBound (pointerCompaction n.state) (minBound n.entries.entryCompaction (pointerCompaction n.snapshot)) with
  | none | some 0 => ([], n)
  | some m =>
    let (obsolete, entries) := n.entries.removeObsolete m
    (obsolete, { n with entries := entries })

/-! ### Runs that do not overlap -/

/-- Written before, by file and position. -/
def Older (e n : IndexEntry) : Prop := e.fileNum < n.fileNum ∨ e.fileNum = n.fileNum ∧ e.pos < n.pos

/-- Each run ends before every newer one starts, and none is empty. -/
structure Disjoint (l : List IndexEntry) : Prop where
  below : l.Pairwise fun newer older => older.stop < newer.start
  nonempty : ∀ e ∈ l, e.start ≤ e.stop

def IndexEntry.holds (i : ℕ) (e : IndexEntry) : Bool := e.start ≤ i ∧ i ≤ e.stop

/-- Where the entry with the index was last written. -/
def locate (l : List IndexEntry) (i : ℕ) : Option (ℕ × ℕ) := (l.find? (·.holds i)).map (·.place)

/-- What is left of the runs once everything from `s` on has given way. -/
def cut (s : ℕ) : List IndexEntry → List IndexEntry
  | [] => []
  | e :: rest => if s ≤ e.start then cut s rest else { e with stop := min e.stop (s - 1) } :: rest

/-- The start of a write that may have lost its end to later ones. -/
structure PartOf (e w : IndexEntry) : Prop where
  start : e.start = w.start
  stop : e.stop ≤ w.stop
  place : e.place = w.place
  length : e.length = w.length

section
variable {l l' : List IndexEntry} {e n w : IndexEntry} {s t i : ℕ} {p : ℕ × ℕ}

@[simp]
theorem IndexEntry.holds_iff : e.holds i ↔ e.start ≤ i ∧ i ≤ e.stop := by simp [IndexEntry.holds]

theorem PartOf.refl (e : IndexEntry) : PartOf e e := ⟨rfl, le_rfl, rfl, rfl⟩

theorem PartOf.older (h : PartOf e w) (hw : Older w n) : Older e n := by
  have := h.place
  simp only [IndexEntry.place, Prod.mk.injEq] at this
  rwa [Older, this.1, this.2]

theorem disjoint_cons : Disjoint (e :: l) ↔ (∀ a ∈ l, a.stop < e.start) ∧ e.start ≤ e.stop ∧ Disjoint l := by
  constructor
  · intro h
    exact ⟨fun a ha => rel_of_pairwise_cons h.below ha, h.nonempty e (mem_cons_self ..),
      h.below.of_cons, fun a ha => h.nonempty a (mem_cons_of_mem _ ha)⟩
  · rintro ⟨hbelow, hne, hl⟩
    exact ⟨pairwise_cons.mpr ⟨hbelow, hl.below⟩, by simpa [hne] using hl.nonempty⟩

theorem locate_of_mem (hl : Disjoint l) (he : e ∈ l) (hi : e.holds i) : locate l i = some e.place := by
  induction l with
  | nil => simp at he
  | cons a l ih =>
    obtain ⟨hbelow, -, hl⟩ := disjoint_cons.mp hl
    rw [locate, List.find?_cons]
    obtain rfl | he := mem_cons.mp he
    · simp [hi]
    · have hnot : a.holds i = false := by
        have := hbelow e he
        have := (IndexEntry.holds_iff.mp hi).2
        simp [IndexEntry.holds]
        omega
      simpa [hnot, locate] using ih hl he

theorem locate_eq_some (h : locate l i = some p) : ∃ e ∈ l, e.holds i ∧ e.place = p := by
  obtain ⟨e, he, hp⟩ := Option.map_eq_some_iff.mp h
  exact ⟨e, mem_of_find?_eq_some he, List.find?_some he, hp⟩

/-! #### Cutting -/

theorem cut_of_below (h : ∀ a ∈ l, a.start ≤ a.stop ∧ a.stop < s) : cut s l = l := by
  cases l with
  | nil => rfl
  | cons a l =>
    obtain ⟨hne, hlt⟩ := h a (mem_cons_self ..)
    rw [cut, if_neg (by omega), Nat.min_eq_left (by omega)]

theorem cut_part (hl : Disjoint l) (he : e ∈ cut s l) : e.stop < s ∧ e.start ≤ e.stop ∧ ∃ a ∈ l, PartOf e a := by
  induction l with
  | nil => simp [cut] at he
  | cons a l ih =>
    obtain ⟨hbelow, hne, hl⟩ := disjoint_cons.mp hl
    rw [cut] at he
    split_ifs at he with hs
    · obtain ⟨hstop, hne, b, hb, hpart⟩ := ih hl he
      exact ⟨hstop, hne, b, mem_cons_of_mem _ hb, hpart⟩
    · obtain rfl | he := mem_cons.mp he
      · exact ⟨by dsimp only; omega, by dsimp only; omega, a, mem_cons_self .., rfl, Nat.min_le_left .., rfl, rfl⟩
      · have := hbelow e he
        exact ⟨by omega, hl.nonempty e he, e, mem_cons_of_mem _ he, .refl e⟩

theorem Disjoint.cut (hl : Disjoint l) : Disjoint (cut s l) := by
  induction l with
  | nil => exact hl
  | cons a l ih =>
    obtain ⟨hbelow, hne, hl⟩ := disjoint_cons.mp hl
    rw [Tan.cut]
    split_ifs with hs
    · exact ih hl
    · exact disjoint_cons.mpr ⟨hbelow, by dsimp only; omega, hl⟩

theorem pairwise_older_cut (h : l.Pairwise fun newer older => Older older newer) :
    (cut s l).Pairwise fun newer older => Older older newer := by
  induction l with
  | nil => exact h
  | cons a l ih =>
    rw [cut]
    split_ifs
    · exact ih h.of_cons
    · exact pairwise_cons.mpr ⟨fun _ hb => rel_of_pairwise_cons h hb, h.of_cons⟩

theorem locate_cut (hl : Disjoint l) : locate (cut s l) i = if i < s then locate l i else none := by
  induction l with
  | nil => simp [cut, locate]
  | cons a l ih =>
    obtain ⟨hbelow, hne, hl⟩ := disjoint_cons.mp hl
    rw [cut]
    split_ifs with hs hi hi
    · -- the run is dropped; below `s` it held nothing
      have hnot : a.holds i = false := by simp [IndexEntry.holds]; omega
      rw [ih hl, if_pos hi]
      simp [locate, hnot]
    · rw [ih hl, if_neg hi]
    · have hsame : ({ a with stop := min a.stop (s - 1) } : IndexEntry).holds i = a.holds i := by
        simp only [IndexEntry.holds, decide_eq_decide]
        omega
      rw [locate, locate, List.find?_cons, List.find?_cons, hsame]
      cases a.holds i <;> rfl
    · have hnone : ({ a with stop := min a.stop (s - 1) } :: l).find? (·.holds i) = none := by
        simp only [List.find?_eq_none, mem_cons, IndexEntry.holds_iff, not_and, not_le]
        rintro e (rfl | he) -
        · dsimp only; omega
        · have := hbelow e he; omega
      simp [locate, hnone]

theorem cut_append_of_lt (h : ∃ a ∈ l, a.start < s) : cut s (l ++ l') = cut s l ++ l' := by
  induction l with
  | nil => simp at h
  | cons a l ih =>
    rw [cons_append, cut, cut]
    split_ifs with hs
    · refine ih ?_
      obtain ⟨b, hb, hlt⟩ := h
      obtain rfl | hb := mem_cons.mp hb
      · omega
      · exact ⟨b, hb, hlt⟩
    · rfl

theorem cut_append_of_le (h : ∀ a ∈ l, s ≤ a.start) : cut s (l ++ l') = cut s l' := by
  induction l with
  | nil => rfl
  | cons a l ih =>
    rw [cons_append, cut, if_pos (h a (mem_cons_self ..))]
    exact ih fun b hb => h b (mem_cons_of_mem _ hb)

theorem cut_of_le (h : ∀ a ∈ l, s ≤ a.start) : cut s l = [] := by
  rw [← append_nil l, cut_append_of_le h, cut]

theorem cut_cut (hst : s ≤ t) : cut s (cut t l) = cut s l := by
  induction l with
  | nil => rfl
  | cons a l ih =>
    rw [cut, cut]
    split_ifs with ht hs hs
    · exact ih
    · omega
    · simp [cut, hs]
    · simp only [cut, hs, if_false]
      congr 2
      omega

/-! #### One write -/

theorem IndexEntry.merge_of_older (h : Older e n) (hlen : e.length = 0) : e.merge n = (e, n, false) := by
  refine if_neg ?_
  rintro ⟨-, hpos, hfile, -⟩
  obtain hlt | ⟨-, hlt⟩ := h <;> omega

theorem updateEntries_eq (hl : Disjoint l) (hold : ∀ a ∈ l, Older a n ∧ a.length = 0) :
    updateEntries l n = n :: cut n.start l := by
  induction l with
  | nil => rfl
  | cons e l ih =>
    obtain ⟨hbelow, hne, hl⟩ := disjoint_cons.mp hl
    obtain ⟨holder, hlen⟩ := hold e (mem_cons_self ..)
    have hrest : ∀ a ∈ l, Older a n ∧ a.length = 0 := fun a ha => hold a (mem_cons_of_mem _ ha)
    have hleft : ∀ a ∈ l, a.start ≤ a.stop ∧ a.stop < e.start := fun a ha => ⟨hl.nonempty a ha, hbelow a ha⟩
    rw [updateEntries, IndexEntry.update, IndexEntry.merge_of_older holder hlen, cut]
    by_cases heq : n.start = e.start
    · simp [heq, cut_of_below hleft]
    by_cases hlt : n.start < e.start
    · have hle : n.start ≤ e.start := hlt.le
      cases l with
      | nil => simp [heq, hlt, hle, cut]
      | cons r l => simpa [heq, hlt, hle] using ih hl hrest
    · have hgt : ¬ n.start ≤ e.start := by omega
      by_cases hmeet : n.start ≤ e.stop
      · simp [heq, hlt, hgt, hmeet, Nat.min_eq_right (by omega : n.start - 1 ≤ e.stop)]
      · simp [heq, hlt, hgt, hmeet, Nat.min_eq_left (by omega : e.stop ≤ n.start - 1)]

end

/-! ### The index of a sequence of writes -/

/-- Writes in the order in which they were made, each of a run of its own. -/
structure Written (ws : List IndexEntry) : Prop where
  order : ws.Pairwise Older
  run : ∀ w ∈ ws, w.start ≤ w.stop ∧ w.length = 0

/-- The runs the writes leave. -/
def indexOf (ws : List IndexEntry) : List IndexEntry := ws.foldl updateEntries []

/-- Runs that writes left, cut where later ones start. -/
structure Runs (ws l : List IndexEntry) : Prop where
  disjoint : Disjoint l
  order : l.Pairwise fun newer older => Older older newer
  part : ∀ e ∈ l, ∃ w ∈ ws, PartOf e w

section
variable {ws vs l l' : List IndexEntry} {e n w : IndexEntry} {s i : ℕ}

theorem written_append : Written (ws ++ vs) ↔ Written ws ∧ Written vs ∧ ∀ w ∈ ws, ∀ v ∈ vs, Older w v := by
  constructor
  · rintro ⟨horder, hrun⟩
    rw [pairwise_append] at horder
    exact ⟨⟨horder.1, fun w hw => hrun w (mem_append_left _ hw)⟩,
      ⟨horder.2.1, fun w hw => hrun w (mem_append_right _ hw)⟩, horder.2.2⟩
  · rintro ⟨hws, hvs, hcross⟩
    refine ⟨pairwise_append.mpr ⟨hws.order, hvs.order, hcross⟩, fun w hw => ?_⟩
    obtain hw | hw := mem_append.mp hw
    · exact hws.run w hw
    · exact hvs.run w hw

theorem Written.sublist (h : Written ws) (hv : vs.Sublist ws) : Written vs :=
  ⟨h.order.sublist hv, fun w hw => h.run w (hv.subset hw)⟩

theorem Runs.update_eq (hl : Runs ws l) (hws : Written (ws ++ [n])) : updateEntries l n = n :: cut n.start l := by
  obtain ⟨hws, -, hcross⟩ := written_append.mp hws
  refine updateEntries_eq hl.disjoint fun a ha => ?_
  obtain ⟨w, hw, hpart⟩ := hl.part a ha
  exact ⟨hpart.older (hcross w hw n (mem_singleton_self n)), hpart.length.trans (hws.run w hw).2⟩

theorem Runs.cut_part (hl : Runs ws l) (he : e ∈ cut s l) : ∃ w ∈ ws, PartOf e w := by
  obtain ⟨-, -, a, ha, hea⟩ := Tan.cut_part hl.disjoint he
  obtain ⟨w, hw, haw⟩ := hl.part a ha
  exact ⟨w, hw, hea.start.trans haw.start, hea.stop.trans haw.stop, hea.place.trans haw.place,
    hea.length.trans haw.length⟩

theorem Runs.update (hl : Runs ws l) (hws : Written (ws ++ [n])) : Runs (ws ++ [n]) (updateEntries l n) := by
  have hcross := (written_append.mp hws).2.2
  rw [hl.update_eq hws]
  refine ⟨disjoint_cons.mpr ⟨fun a ha => (Tan.cut_part hl.disjoint ha).1, (hws.run n (by simp)).1,
    hl.disjoint.cut⟩, pairwise_cons.mpr ⟨fun a ha => ?_, pairwise_older_cut hl.order⟩, fun e he => ?_⟩
  · obtain ⟨w, hw, hpart⟩ := hl.cut_part ha
    exact hpart.older (hcross w hw n (mem_singleton_self n))
  · obtain rfl | he := mem_cons.mp he
    · exact ⟨e, by simp, .refl e⟩
    · obtain ⟨w, hw, hpart⟩ := hl.cut_part he
      exact ⟨w, mem_append_left _ hw, hpart⟩

theorem indexOf_append_singleton : indexOf (ws ++ [n]) = updateEntries (indexOf ws) n := by
  simp [indexOf]

theorem Written.runs (h : Written ws) : Runs ws (indexOf ws) := by
  induction ws using List.reverseRecOn with
  | nil => exact ⟨⟨.nil, by simp [indexOf]⟩, .nil, by simp [indexOf]⟩
  | append_singleton ws n ih =>
    rw [indexOf_append_singleton]
    exact (ih (written_append.mp h).1).update h

/-- After one more write an index is found in it from its start on, and where it was below. -/
theorem Runs.locate_update (hl : Runs ws l) (hws : Written (ws ++ [n])) : locate (updateEntries l n) i =
    if i < n.start then locate l i else if i ≤ n.stop then some n.place else none := by
  rw [hl.update_eq hws]
  have hcut := locate_cut (s := n.start) (i := i) hl.disjoint
  by_cases hi : i < n.start
  · have hnot : n.holds i = false := by simp [IndexEntry.holds]; omega
    simpa [locate, hnot, hi] using hcut
  · by_cases hstop : i ≤ n.stop
    · have hin : n.holds i = true := by simp [IndexEntry.holds]; omega
      simp [locate, hin, hi, hstop]
    · have hnot : n.holds i = false := by simp [IndexEntry.holds]; omega
      simpa [locate, hnot, hi, hstop] using hcut

theorem Older.asymm (h : Older e n) : ¬ Older n e := by
  rw [Older] at h ⊢
  omega

/-- The last write with a property is the one that all the others with it are older than. -/
theorem Written.find?_eq_some (h : Written ws) {q : IndexEntry → Bool} :
    ws.reverse.find? q = some w ↔ w ∈ ws ∧ q w ∧ ∀ v ∈ ws, q v → v = w ∨ Older v w := by
  have hlast : ∀ {w}, ws.reverse.find? q = some w → w ∈ ws ∧ q w ∧ ∀ v ∈ ws, q v → v = w ∨ Older v w := fun {w} hw => by
    obtain ⟨hq, newer, older, heq, hnot⟩ := List.find?_eq_some_iff_append.mp hw
    have horder : (newer ++ w :: older).Pairwise fun n e => Older e n := by
      rw [← heq, pairwise_reverse]
      exact h.order
    refine ⟨mem_reverse.mp (heq ▸ by simp), hq, fun v hv hqv => ?_⟩
    obtain hv | hv := mem_append.mp (heq ▸ mem_reverse.mpr hv)
    · have := hnot v hv
      simp [hqv] at this
    · exact (mem_cons.mp hv).imp_right
        (rel_of_pairwise_cons (pairwise_append.mp horder).2.1)
  refine ⟨hlast, fun ⟨hmem, hq, hall⟩ => ?_⟩
  obtain ⟨x, hx⟩ : ∃ x, ws.reverse.find? q = some x := by
    rw [← Option.isSome_iff_exists, List.find?_isSome]
    exact ⟨w, mem_reverse.mpr hmem, hq⟩
  obtain ⟨hxmem, hxq, hxall⟩ := hlast hx
  obtain rfl | hold := hall x hxmem hxq
  · exact hx
  · obtain rfl | hold' := hxall w hmem hq
    · exact hx
    · exact absurd hold' hold.asymm

theorem Written.locate_indexOf (h : Written ws) : locate (indexOf ws) i =
    (ws.reverse.find? fun w => w.start ≤ i).bind fun w => if i ≤ w.stop then some w.place else none := by
  induction ws using List.reverseRecOn with
  | nil => rfl
  | append_singleton ws n ih =>
    have hws := (written_append.mp h).1
    rw [indexOf_append_singleton, hws.runs.locate_update h, ih hws, reverse_append,
      reverse_singleton, singleton_append, List.find?_cons]
    by_cases hi : i < n.start
    · simp [hi, not_le.mpr hi]
    · simp [hi, not_lt.mp hi]

/-! #### Indexes kept file by file -/

/-- The runs of a file over those of the files before it. -/
def stack (l l' : List IndexEntry) : List IndexEntry :=
  match l.getLast? with
  | none => l'
  | some first => l ++ cut first.start l'

variable {first : IndexEntry} {us : List IndexEntry} {m : ℕ}

theorem getLast_cut (h : l.getLast? = some first) (hs : first.start < s) :
    ∃ first', (cut s l).getLast? = some first' ∧ first'.start = first.start := by
  induction l with
  | nil => simp at h
  | cons a l ih =>
    rw [cut]
    cases l with
    | nil =>
      obtain rfl : a = first := by simpa using h
      rw [if_neg (by omega)]
      exact ⟨_, rfl, rfl⟩
    | cons b l =>
      rw [List.getLast?_cons_cons] at h
      split_ifs with ha
      · exact ih h
      · exact ⟨first, by rwa [List.getLast?_cons_cons], rfl⟩

theorem Disjoint.getLast_le (hl : Disjoint l) (h : l.getLast? = some first) : ∀ a ∈ l, first.start ≤ a.start := by
  obtain ⟨hbelow, hne⟩ := hl
  obtain ⟨rest, rfl⟩ := List.getLast?_eq_some_iff.mp h
  intro a ha
  obtain ha | ha := mem_append.mp ha
  · have := (pairwise_append.mp hbelow).2.2 a ha first (mem_singleton_self _)
    have := hne first (by simp)
    omega
  · rw [mem_singleton.mp ha]

theorem Runs.foldl (hl : Runs us l) (h : Written (us ++ ws)) : Runs (us ++ ws) (ws.foldl updateEntries l) := by
  induction ws using List.reverseRecOn with
  | nil => simpa using hl
  | append_singleton ws m ih =>
    rw [← append_assoc] at h ⊢
    rw [foldl_append]
    exact (ih (written_append.mp h).1).update h

theorem foldl_updateEntries (hl : Runs us l) (h : Written (us ++ ws)) :
    ws.foldl updateEntries l = stack (indexOf ws) l := by
  induction ws using List.reverseRecOn with
  | nil => rfl
  | append_singleton ws n ih =>
    have hus : Written (us ++ ws) := (written_append.mp (by rwa [← append_assoc] at h)).1
    have hws : Written (ws ++ [n]) := (written_append.mp h).2.1
    have hruns := (written_append.mp hws).1.runs
    rw [foldl_append, foldl_cons, foldl_nil, indexOf_append_singleton,
      (hl.foldl hus).update_eq (by rwa [append_assoc]), hruns.update_eq hws, ih hus]
    cases hlast : (indexOf ws).getLast? with
    | none =>
      rw [List.getLast?_eq_none_iff] at hlast
      simp [stack, hlast, cut]
    | some first =>
      have hle := hruns.disjoint.getLast_le hlast
      have hstack : stack (indexOf ws) l = indexOf ws ++ cut first.start l := by rw [stack, hlast]
      rw [hstack]
      by_cases hn : n.start ≤ first.start
      · -- the new write covers the whole file
        have hall : ∀ a ∈ indexOf ws, n.start ≤ a.start := fun a ha => hn.trans (hle a ha)
        rw [cut_append_of_le hall, cut_of_le hall, cut_cut hn]
        rfl
      · obtain ⟨first', hlast', hstart⟩ := getLast_cut (s := n.start) hlast (not_le.mp hn)
        rw [cut_append_of_lt ⟨first, mem_of_getLast? hlast, not_le.mp hn⟩, stack]
        cases hcut : cut n.start (indexOf ws) with
        | nil => simp [hcut] at hlast'
        | cons a rest =>
          rw [List.getLast?_cons_cons, ← hcut, hlast', hcut, ← hstart]
          rfl

/-! ### Compaction -/

/-- Every file up to the bound ends below the compaction index, and a later file follows. -/
theorem lastObsolete_spec {compactedTo : ℕ} {prev : IndexEntry} {es : List IndexEntry} {acc : Option ℕ}
    (h : lastObsolete compactedTo prev es acc = some m) : acc = some m ∨
    ∃ before a b after, prev :: es = before ++ a :: b :: after ∧ a.fileNum = m ∧ a.stop ≤ compactedTo ∧
    b.fileNum ≠ m := by
  induction es generalizing prev acc with
  | nil => exact .inl h
  | cons e es ih =>
    rw [lastObsolete] at h
    split_ifs at h with hc
    · obtain hacc | ⟨before, a, b, after, heq, ha⟩ := ih h
      · obtain rfl : prev.fileNum = m := by simpa using hacc
        exact .inr ⟨[], prev, e, es, rfl, rfl, hc.2, hc.1⟩
      · exact .inr ⟨prev :: before, a, b, after, by rw [heq]; rfl, ha⟩
    · obtain hacc | ⟨before, a, b, after, heq, ha⟩ := ih h
      · exact .inl hacc
      · exact .inr ⟨prev :: before, a, b, after, by rw [heq]; rfl, ha⟩

/-- A run in a file up to the bound holds nothing above the compaction index, and there
are runs in later files. -/
theorem Index.entryCompaction_obsolete {idx : Index} (hl : Runs ws idx.entries)
    (hpos : ∀ e ∈ idx.entries, 0 < e.fileNum) (h : idx.entryCompaction = some m) (he : e ∈ idx.entries)
    (hem : e.fileNum ≤ m) : e.stop ≤ idx.compactedTo ∧ ∃ x ∈ idx.entries, m < x.fileNum := by
  rw [entryCompaction] at h
  cases hrev : idx.entries.reverse with
  | nil => simp [reverse_eq_nil_iff.mp hrev] at he
  | cons first es =>
    rw [hrev] at h
    have hstops : (first :: es).Pairwise fun older newer => older.stop < newer.start := by
      rw [← hrev, pairwise_reverse]; exact hl.disjoint.below
    have hfiles : (first :: es).Pairwise fun older newer => older.fileNum ≤ newer.fileNum := by
      rw [← hrev, pairwise_reverse]
      exact hl.order.imp fun h => h.elim le_of_lt fun h => h.1.le
    have hmem : ∀ x, x ∈ first :: es ↔ x ∈ idx.entries := fun x => by rw [← hrev, mem_reverse]
    have he' := (hmem e).mpr he
    cases hobs : lastObsolete idx.compactedTo first es none with
    | none =>
      -- no file may go: the bound is below the first one
      have := hpos first ((hmem first).mp (mem_cons_self ..))
      have : first.fileNum ≤ e.fileNum := by
        obtain rfl | he' := mem_cons.mp he'
        · rfl
        · exact rel_of_pairwise_cons hfiles he'
      simp only [hobs, Option.getD_none, Option.some.injEq] at h
      omega
    | some m' =>
      obtain rfl : m' = m := by simpa [hobs] using h
      obtain hacc | ⟨before, a, b, after, heq, rfl, hstop, hne⟩ := lastObsolete_spec hobs
      · simp at hacc
      rw [heq] at hstops hfiles he'
      obtain ⟨-, hfiles, hcross⟩ := pairwise_append.mp hfiles
      obtain ⟨-, hstops, hbelow⟩ := pairwise_append.mp hstops
      have hab : a.fileNum < b.fileNum :=
        lt_of_le_of_ne (rel_of_pairwise_cons hfiles (mem_cons_self ..)) hne.symm
      refine ⟨?_, b, (hmem b).mp (by rw [heq]; simp), hab⟩
      obtain he' | he' := mem_append.mp he'
      · have := hbelow e he' a (mem_cons_self ..)
        have := hl.disjoint.nonempty a ((hmem a).mp (by rw [heq]; simp))
        omega
      obtain rfl | he' := mem_cons.mp he'
      · exact hstop
      -- from `b` on the files are later ones
      have hb : b.fileNum ≤ e.fileNum := by
        obtain rfl | he' := mem_cons.mp he'
        · rfl
        · exact rel_of_pairwise_cons hfiles.of_cons he'
      omega

theorem minBound_le {a b : Option ℕ} (h : minBound a b = some m) :
    (∀ x, a = some x → m ≤ x) ∧ ∀ x, b = some x → m ≤ x := by
  cases a <;> cases b <;> grind [minBound]

theorem lt_of_pointerCompaction {p : IndexEntry} (h : ∀ x, pointerCompaction p = some x → m ≤ x)
    (hp : p.fileNum ≠ 0) : m < p.fileNum := by
  have := h (p.fileNum - 1) (by simp [pointerCompaction, IndexEntry.empty, hp])
  omega

/-- A compaction that does something takes the runs of the files up to a bound that lies
below the files of the last state and of the last snapshot. -/
theorem NodeIndex.compaction_cases (n : NodeIndex) : n.compaction = ([], n) ∨
    ∃ m, (n.state.fileNum ≠ 0 → m < n.state.fileNum) ∧ (n.snapshot.fileNum ≠ 0 → m < n.snapshot.fileNum) ∧
    (∀ x, n.entries.entryCompaction = some x → m ≤ x) ∧
    n.compaction = ((n.entries.removeObsolete m).1, { n with entries := (n.entries.removeObsolete m).2 }) := by
  rw [compaction]
  split
  · exact .inl rfl
  · exact .inl rfl
  · rename_i m _ heq
    obtain ⟨hstate, hrest⟩ := minBound_le heq
    have hmin : ∀ x, minBound n.entries.entryCompaction (pointerCompaction n.snapshot) = some x → m ≤ x := hrest
    refine .inr ⟨m, lt_of_pointerCompaction hstate, lt_of_pointerCompaction fun x hx => ?_, fun x hx => ?_, rfl⟩
    · cases he : n.entries.entryCompaction with
      | none => exact hmin x (by rw [he, hx]; rfl)
      | some y => exact (hmin (min y x) (by rw [he, hx]; rfl)).trans (Nat.min_le_right ..)
    · cases hs : pointerCompaction n.snapshot with
      | none => exact hmin x (by rw [hs, hx]; rfl)
      | some y => exact (hmin (min x y) (by rw [hs, hx]; rfl)).trans (Nat.min_le_left ..)

end

end Armada.Tan
