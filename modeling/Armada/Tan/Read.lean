import Armada.Tan.Layout

/-! What the store gives back. A read follows the runs of the index from the one that
holds the first entry; when every entry of the range is held by some run, and the record
of that run has it, the read returns the whole range. -/

namespace Armada.Tan

open Raft Program List

/-! ### Runs that follow each other -/

/-- Runs in the order of their indexes. -/
structure Ascending (l : List IndexEntry) : Prop where
  below : l.Pairwise fun a b => a.stop < b.start
  nonempty : ∀ e ∈ l, e.start ≤ e.stop

section
variable {l es : List IndexEntry} {e last x : IndexEntry} {low i : ℕ} {high : Option ℕ}

theorem Disjoint.ascending (h : Disjoint l) : Ascending l.reverse :=
  ⟨pairwise_reverse.mpr h.below, fun e he => h.nonempty e (mem_reverse.mp he)⟩

theorem Ascending.tail (h : Ascending (e :: l)) : Ascending l :=
  ⟨h.below.of_cons, fun a ha => h.nonempty a (mem_cons_of_mem _ ha)⟩

theorem Ascending.drop {before : List IndexEntry} (h : Ascending (before ++ l)) : Ascending l :=
  ⟨(pairwise_append.mp h.below).2.1, fun a ha => h.nonempty a (mem_append_right _ ha)⟩

theorem Ascending.next (h : Ascending (last :: es)) (he : e ∈ last :: es) (hin : e.holds (last.stop + 1)) :
    ∃ next rest, es = next :: rest ∧ next.start = last.stop + 1 := by
  obtain ⟨hlow, hhigh⟩ := IndexEntry.holds_iff.mp hin
  obtain rfl | he := mem_cons.mp he
  · omega
  cases es with
  | nil => simp at he
  | cons next rest =>
    refine ⟨next, rest, rfl, ?_⟩
    have hlast := rel_of_pairwise_cons h.below (mem_cons_self ..)
    obtain rfl | he := mem_cons.mp he
    · omega
    · have := rel_of_pairwise_cons h.tail.below he
      have := h.nonempty next (by simp)
      omega

theorem head_connected (high : Option ℕ) (last : IndexEntry) (es : List IndexEntry) :
    ∃ rest, connected high last es = last :: rest := by
  cases es with
  | nil => exact ⟨[], rfl⟩
  | cons e es =>
    rw [connected]
    split_ifs
    · exact ⟨[], rfl⟩
    · exact ⟨_, rfl⟩

theorem mem_connected (h : x ∈ connected high last es) : x ∈ last :: es := by
  induction es generalizing last with
  | nil => exact h
  | cons e es ih =>
    rw [connected] at h
    split_ifs at h
    · rw [mem_singleton.mp h]
      exact mem_cons_self ..
    · obtain rfl | h := mem_cons.mp h
      · exact mem_cons_self ..
      · exact mem_cons_of_mem _ (ih h)

theorem connectedRuns_connected {prev : ℕ} (h : prev = 0 ∨ prev + 1 = last.start) :
    connectedRuns prev (connected high last es) := by
  induction es generalizing last prev with
  | nil => simpa [connected, connectedRuns] using h
  | cons e es ih =>
    rw [connected]
    split_ifs with hc
    · simpa [connectedRuns] using h
    · rw [connectedRuns, Bool.and_eq_true]
      refine ⟨by simpa using h, ih (.inr ?_)⟩
      simp only [not_or, ne_eq, not_not] at hc
      exact hc.2

/-- Each run starts right after the one before it. -/
def Gapless (ies : List IndexEntry) : Prop := ies.IsChain fun a b => a.stop + 1 = b.start

theorem gapless_connected (high : Option ℕ) (last : IndexEntry) (es : List IndexEntry) :
    Gapless (connected high last es) := by
  induction es generalizing last with
  | nil => exact .singleton _
  | cons next es ih =>
    rw [connected]
    split_ifs with hc
    · exact .singleton _
    · obtain ⟨rest, hhead⟩ := head_connected high next es
      have hrest := ih next
      rw [hhead] at hrest ⊢
      exact .cons_cons (by simpa using (not_or.mp hc).2) hrest

theorem stop_le_getLast {ies : List IndexEntry} (hruns : Gapless ies) (hne : ∀ e ∈ ies, e.start ≤ e.stop)
    (hx : ies.getLast? = some x) : ∀ e ∈ ies, e.stop ≤ x.stop := by
  induction ies with
  | nil => simp
  | cons a ies ih =>
    rw [forall_mem_cons] at hne
    cases ies with
    | nil =>
      cases hx
      simp
    | cons b ies =>
      obtain ⟨hnext, hruns⟩ := isChain_cons_cons.mp hruns
      rw [List.getLast?_cons_cons] at hx
      have hrest := ih hruns hne.2 hx
      have hb := hrest b (mem_cons_self ..)
      have hne' := hne.2 b (mem_cons_self ..)
      exact forall_mem_cons.mpr ⟨by omega, hrest⟩

theorem reached_of_le {j : ℕ} (hle : j ≤ i) (h : reached high i = false) : reached high j = false := by
  cases high with
  | none => rfl
  | some x =>
    simp only [reached, Option.any_some, decide_eq_false_iff_not] at h ⊢
    omega

theorem Ascending.connected_holds (h : Ascending (last :: es)) (hi : last.start ≤ i) (hhigh : reached high i = false)
    (hall : ∀ j, last.start ≤ j → j ≤ i → ∃ e ∈ last :: es, e.holds j) : ∃ e ∈ connected high last es, e.holds i := by
  induction es generalizing last with
  | nil => exact hall i hi le_rfl
  | cons next es ih =>
    by_cases hstop : i ≤ last.stop
    · obtain ⟨rest, hhead⟩ := head_connected high last (next :: es)
      exact ⟨last, by rw [hhead]; exact mem_cons_self .., IndexEntry.holds_iff.mpr ⟨hi, hstop⟩⟩
    · have hne := h.nonempty last (mem_cons_self ..)
      obtain ⟨e, he, hin⟩ := hall (last.stop + 1) (by omega) (by omega)
      obtain ⟨_, _, heq, hstart⟩ := h.next he hin
      cases heq
      have hreached : reached high next.start = false := reached_of_le (by omega) hhigh
      rw [connected, if_neg (not_or.mpr ⟨by rw [hreached]; exact Bool.false_ne_true, not_not.mpr hstart.symm⟩)]
      obtain ⟨e', he', hin'⟩ := ih h.tail (by omega) fun j hlow hle => by
        obtain ⟨a, ha, hain⟩ := hall j (by omega) hle
        obtain rfl | ha := mem_cons.mp ha
        · have := (IndexEntry.holds_iff.mp hain).2
          omega
        · exact ⟨a, ha, hain⟩
      exact ⟨e', mem_cons_of_mem _ he', hin'⟩

section
variable {idx : Index} {before : List IndexEntry}

theorem mem_query (h : x ∈ idx.query low high) : x ∈ idx.entries := by
  unfold Index.query at h
  split at h
  · cases h
  · rename_i e es heq
    split_ifs at h
    · cases h
    · have hsub := (dropWhile_suffix (p := fun e : IndexEntry => decide (e.stop < low))
        (l := idx.entries.reverse)).subset
      rw [heq] at hsub
      exact mem_reverse.mp (hsub (mem_connected h))

theorem Disjoint.connected_holds (h : Disjoint idx.entries) (heq : idx.entries.reverse = before ++ e :: es)
    (hin : e.holds low)
    (hi : low ≤ i) (hhigh : reached high i = false) (hall : ∀ j, low ≤ j → j ≤ i → ∃ a ∈ idx.entries, a.holds j) :
    ∃ a ∈ connected high e es, a.holds i := by
  obtain ⟨hstart, hstop⟩ := IndexEntry.holds_iff.mp hin
  have hasc := h.ascending
  rw [heq] at hasc
  refine hasc.drop.connected_holds (hstart.trans hi) hhigh fun j hj hji => ?_
  by_cases hjlow : j < low
  · exact ⟨e, mem_cons_self .., IndexEntry.holds_iff.mpr ⟨hj, by omega⟩⟩
  · obtain ⟨a, ha, hain⟩ := hall j (not_lt.mp hjlow) hji
    obtain ha | ha := mem_append.mp (heq ▸ mem_reverse.mpr ha)
    · have := (pairwise_append.mp hasc.below).2.2 a ha e (mem_cons_self ..)
      have := (IndexEntry.holds_iff.mp hain).2
      omega
    · exact ⟨a, ha, hain⟩

theorem Index.query_cases (h : Disjoint idx.entries) (low : ℕ) (high : Option ℕ) :
    idx.query low high = [] ∧ (∀ e ∈ idx.entries, ¬ e.holds low) ∨
    ∃ before e es, idx.entries.reverse = before ++ e :: es ∧ e.holds low ∧
    idx.query low high = if reached high e.start then [] else connected high e es := by
  by_cases hfound : ∃ e ∈ idx.entries, e.holds low
  · obtain ⟨e, he, hin⟩ := hfound
    obtain ⟨hlow, hstop⟩ := IndexEntry.holds_iff.mp hin
    obtain ⟨before, es, heq⟩ := mem_iff_append.mp (mem_reverse.mpr he)
    refine .inr ⟨before, e, es, heq, hin, ?_⟩
    have hasc := h.ascending
    rw [heq] at hasc
    have hbefore : ∀ a ∈ before, decide (a.stop < low) = true := fun a ha => by
      have := (pairwise_append.mp hasc.below).2.2 a ha e (mem_cons_self ..)
      simp only [decide_eq_true_eq]
      omega
    rw [Index.query, heq, dropWhile_append_of_pos hbefore, dropWhile_cons_of_neg (by simpa using hstop)]
    simp [not_lt.mpr hlow]
  · refine .inl ⟨?_, fun e he hin => hfound ⟨e, he, hin⟩⟩
    rw [Index.query]
    split
    · rfl
    · rename_i e es hdrop
      have he : e ∈ idx.entries :=
        mem_reverse.mp ((dropWhile_suffix _).subset (hdrop ▸ mem_cons_self ..))
      have hstop : low ≤ e.stop := by
        have := List.head?_dropWhile_not (fun e : IndexEntry => decide (e.stop < low)) idx.entries.reverse
        simpa [hdrop] using this
      rw [if_pos (.inl (not_le.mp fun hle => hfound ⟨e, he, IndexEntry.holds_iff.mpr ⟨hle, hstop⟩⟩))]

end

end

/-! ### Records -/

section
variable {d : DB} {u v : Update} {place : ℕ × ℕ} {ie : IndexEntry}

variable {records : List Record}

theorem Laid.find?_logs (h : Laid d) {num : ℕ} (hf : (num, records) ∈ d.logs) :
    d.logs.find? (fun f => f.1 = num) = some (num, records) := by
  obtain ⟨before, after, heq⟩ := mem_iff_append.mp hf
  refine List.find?_eq_some_iff_append.mpr ⟨by simp, before, after, heq, fun g hg => ?_⟩
  have hnums := h.order.nums
  rw [heq] at hnums
  have := (pairwise_append.mp hnums).2.2 g hg (num, records) (mem_cons_self ..)
  simp only [Bool.not_eq_true', decide_eq_false_iff_not]
  exact this.ne

theorem dropWhile_offset {pos : ℕ} (h : records.Pairwise fun r r' => r.offset < r'.offset)
    (hr : ⟨pos, u⟩ ∈ records) : ∃ later, records.dropWhile (fun r => r.offset < pos) = ⟨pos, u⟩ :: later := by
  obtain ⟨before, after, rfl⟩ := mem_iff_append.mp hr
  refine ⟨after, ?_⟩
  have hbefore : ∀ r ∈ before, decide (r.offset < pos) = true := fun r hr => by
    simpa using (pairwise_append.mp h).2.2 r hr ⟨pos, u⟩ (mem_cons_self ..)
  rw [dropWhile_append_of_pos hbefore, dropWhile_cons_of_neg (by simp)]

theorem Laid.readLog (h : Laid d) (ie : IndexEntry) (hu : d.Holds ie.place u) :
    ∃ later, d.readLog ie = .ok (⟨ie.pos, u⟩ :: later) := by
  obtain ⟨records, hf, hr⟩ := hu
  obtain ⟨later, hdrop⟩ := dropWhile_offset (h.order.offsets _ hf) hr
  refine ⟨later, ?_⟩
  have hfind : d.logs.find? (fun f => f.1 = ie.fileNum) = some (ie.fileNum, records) := h.find?_logs hf
  rw [DB.readLog, hfind]
  exact congrArg _ hdrop

theorem Laid.holds_unique (h : Laid d) (hu : d.Holds place u) (hv : d.Holds place v) : u = v := by
  obtain ⟨num, pos⟩ := place
  obtain ⟨later, hu⟩ := h.readLog ⟨0, 0, num, pos, 0⟩ hu
  obtain ⟨later', hv⟩ := h.readLog ⟨0, 0, num, pos, 0⟩ hv
  have := Except.ok.inj (hu.symm.trans hv)
  simp only [List.cons.injEq, Record.mk.injEq] at this
  exact this.1.2

theorem Laid.run_record (h : Laid d) (he : ie ∈ d.index.entries.entries) : ∃ u first rest,
    d.Holds ie.place u ∧ u.entriesToSave = first :: rest ∧ Consecutive first.index (first :: rest) ∧
    ie.start = first.index ∧ ie.stop ≤ first.index + rest.length := by
  obtain ⟨w, hw, hpart⟩ := h.runs.part ie he
  obtain ⟨f, hf, r, hr, hrun⟩ := mem_logRuns.mp hw
  obtain ⟨first, rest, hes, rfl⟩ := entriesRun_eq_some hrun
  have hcons := h.order.entries f hf r hr first rest hes
  have hstop := hpart.stop
  rw [last_index hcons] at hstop
  refine ⟨r.update, first, rest, ?_, hes, hcons, hpart.start, hstop⟩
  rw [hpart.place]
  exact ⟨f.2, hf, hr⟩

end

/-! ### Reading entries -/

section
variable {opts : Options} {ie : IndexEntry} {high : ℕ} {f : ℕ → Entry} {s : Reading}

theorem readRuns_congr {d d' : DB} {limit : Option ℕ} {ies : List IndexEntry}
    (h : ∀ ie ∈ ies, d'.readLog ie = d.readLog ie) (r : Reading) :
    d'.readRuns opts high limit ies r = d.readRuns opts high limit ies r := by
  induction ies generalizing r with
  | nil => rfl
  | cons ie ies ih =>
    rw [forall_mem_cons] at h
    simp only [DB.readRuns, h.1, ih h.2]

theorem readUpdate_done (opts : Options) (limit : Option ℕ) (es : List Entry)
    (h : high ≤ s.expected ∨ ie.stop < s.expected) : ∃ more, readUpdate opts ie high limit es s = .ok (s, more) := by
  induction es with
  | nil => exact ⟨true, rfl⟩
  | cons e es ih =>
    rw [readUpdate]
    by_cases hlt : e.index < s.expected
    · rw [if_pos hlt]
      exact ih
    · rw [if_neg hlt, if_neg (by omega)]
      exact ⟨false, rfl⟩

variable {limit : Option ℕ}

theorem readRecords_done {rs : List Record}
    (h : high ≤ s.expected ∨ ie.stop < s.expected) : readRecords opts ie high limit rs s = .ok s := by
  induction rs with
  | nil => rfl
  | cons r rs ih =>
    obtain ⟨more, hread⟩ := readUpdate_done opts limit r.update.entriesToSave h
    rw [readRecords, hread, ok_bind]
    cases more
    · rfl
    · exact ih

/-- The entries `f` has from `low` up to `high`. -/
def slice (f : ℕ → Entry) (low high : ℕ) : List Entry := (List.range' low (high - low)).map f

theorem slice_self (f : ℕ → Entry) (low : ℕ) : slice f low low = [] := by simp [slice]

variable {low : ℕ}

theorem slice_cons (h : low < high) : slice f low high = f low :: slice f (low + 1) high := by
  rw [slice, slice, show high - low = (high - (low + 1)) + 1 by omega, List.range'_succ, map_cons]

theorem slice_append {mid : ℕ} (h1 : low ≤ mid) (h2 : mid ≤ high) :
    slice f low mid ++ slice f mid high = slice f low high := by
  rw [slice, slice, slice, ← map_append]
  congr 1
  obtain ⟨k, rfl⟩ := Nat.exists_eq_add_of_le h1
  obtain ⟨j, rfl⟩ := Nat.exists_eq_add_of_le h2
  rw [show low + k - low = k by omega, show low + k + j - (low + k) = j by omega,
    show low + k + j - low = k + j by omega, List.range'_append_1]

/-- What was read so far ends right before the next index. -/
def Reading.Ready (s : Reading) : Prop := s.done = false ∧ ∀ e, s.entries.getLast? = some e → e.index + 1 = s.expected

/-- What was read from `s` to `s'`: entries of `f` up to `last`, or as many as the size allows. -/
structure Reads (f : ℕ → Entry) (limit : Option ℕ) (last : ℕ) (s s' : Reading) : Prop where
  le : s.expected ≤ s'.expected
  upTo : s'.expected ≤ last
  ends : ∀ e, s'.entries.getLast? = some e → e.index + 1 = s'.expected
  entries : s'.entries = s.entries ++ slice f s.expected s'.expected
  stops : s'.done = false ∧ s'.expected = last ∨ s'.done = true ∧ limit.any (· < s'.size) = true

variable {s' : Reading} {last : ℕ}

theorem Reads.cons {size : ℕ} {done : Bool} {e : Entry} (he : f s.expected = e)
    (h : Reads f limit last ⟨s.entries ++ [e], size, s.expected + 1, done⟩ s') : Reads f limit last s s' := by
  have hle : s.expected + 1 ≤ s'.expected := h.le
  refine ⟨by omega, h.upTo, h.ends, ?_, h.stops⟩
  rw [h.entries, slice_cons (by omega : s.expected < s'.expected), he, append_assoc]
  rfl

theorem readUpdate_reads (opts : Options) (ie : IndexEntry) (limit : Option ℕ) {es : List Entry} {k : ℕ}
    (hs : s.Ready) (hcons : Consecutive k es)
    (hk : k ≤ s.expected) (hstart : ie.start ≤ s.expected) (hend : ie.stop < k + es.length)
    (hle : s.expected ≤ min high (ie.stop + 1))
    (hf : ∀ i, s.expected ≤ i → i < min high (ie.stop + 1) → (f i).index = i ∧ f i ∈ es) :
    ∃ more s', readUpdate opts ie high limit es s = .ok (s', more) ∧ Reads f limit (min high (ie.stop + 1)) s s' ∧
    (s'.done = true → more = false) := by
  have hnone (hlast : s.expected = min high (ie.stop + 1)) : Reads f limit (min high (ie.stop + 1)) s s :=
    ⟨le_rfl, hle, hs.2, by rw [slice_self, append_nil], .inl ⟨hs.1, hlast⟩⟩
  induction es generalizing k s with
  | nil =>
    have hlast : s.expected = min high (ie.stop + 1) := by simp only [length_nil] at hend; omega
    exact ⟨true, s, rfl, hnone hlast, by simp [hs.1]⟩
  | cons e es ih =>
    obtain ⟨hindex, hcons⟩ := hcons
    -- the entries that are still wanted come after the first
    have hrest : ∀ i, k < i → f i ∈ e :: es → (f i).index = i → f i ∈ es := fun i hi hmem hfi => by
      obtain heq | hmem := mem_cons.mp hmem
      · rw [heq] at hfi
        omega
      · exact hmem
    rw [readUpdate]
    by_cases hlt : e.index < s.expected
    · rw [if_pos hlt]
      exact ih hs hcons (by omega) hstart (by simp only [length_cons] at hend; omega) hle (fun i hi hlt =>
        let ⟨hfi, hmem⟩ := hf i hi hlt
        ⟨hfi, hrest i (by omega) hmem hfi⟩) hnone
    rw [if_neg hlt]
    have hexp : s.expected = k := by omega
    by_cases hmore : s.expected < min high (ie.stop + 1)
    · have he : f s.expected = e := by
        obtain ⟨hfi, hmem⟩ := hf k (by omega) (by omega)
        rw [hexp]
        obtain heq | hmem := mem_cons.mp hmem
        · exact heq
        · obtain ⟨j, hj, hget⟩ := mem_iff_getElem.mp hmem
          have := consecutive_iff.mp hcons j hj
          rw [hget, hfi] at this
          omega
      have hgap : s.entries.getLast?.any (fun last => decide (last.index + 1 ≠ e.index)) = false := by
        cases hlast : s.entries.getLast? with
        | none => rfl
        | some last =>
          have := hs.2 last hlast
          simp [Option.any]
          omega
      have hends : ∀ a, (s.entries ++ [e]).getLast? = some a → a.index + 1 = s.expected + 1 := fun a ha => by
        rw [List.getLast?_concat] at ha
        cases ha
        omega
      rw [if_pos (by omega), hgap, if_neg Bool.false_ne_true]
      dsimp only
      split_ifs with hfull
      · exact ⟨false, _, rfl, .cons he ⟨le_rfl, by dsimp only; omega, hends,
          by rw [slice_self, append_nil], .inr ⟨rfl, hfull⟩⟩, fun _ => rfl⟩
      · have hs' : Reading.Ready ⟨s.entries ++ [e], s.size + opts.sizeUpperLimit e, s.expected + 1, s.done⟩ :=
          ⟨hs.1, hends⟩
        obtain ⟨more, s', hread, hreads, hdone⟩ := ih (k := k + 1) hs'
          hcons (by dsimp only; omega) (by dsimp only; omega)
          (by simp only [length_cons] at hend; omega) (by dsimp only; omega) (fun i hi hlt =>
            let ⟨hfi, hmem⟩ := hf i (by dsimp only at hi; omega) hlt
            ⟨hfi, hrest i (by dsimp only at hi; omega) hmem hfi⟩)
          fun hlast => ⟨le_rfl, hlast.le, hends, by rw [slice_self, append_nil], .inl ⟨hs.1, hlast⟩⟩
        exact ⟨more, s', hread, .cons he hreads, hdone⟩
    · rw [if_neg (by omega)]
      exact ⟨false, s, rfl, hnone (by omega), fun _ => rfl⟩

theorem Reads.ready (h : Reads f none last s s') :
    s'.Ready ∧ s'.expected = last ∧ s'.entries = s.entries ++ slice f s.expected last := by
  obtain ⟨hdone, hlast⟩ | ⟨-, hnone⟩ := h.stops
  · exact ⟨⟨hdone, h.ends⟩, hlast, hlast ▸ h.entries⟩
  · cases hnone

/-- Wherever the index finds an entry of the range, `f` has the one that the record there has. -/
def DB.Gives (d : DB) (f : ℕ → Entry) (low high : ℕ) : Prop :=
  ∀ i p, low ≤ i → i < high → locate d.index.entries.entries i = some p →
    (f i).index = i ∧ ∃ u, d.Holds p u ∧ f i ∈ u.entriesToSave

/-- Every entry `f` has from `low` up to `high` is in the record its run points to. -/
def DB.Has (d : DB) (f : ℕ → Entry) (low high : ℕ) : Prop :=
  ∀ i, low ≤ i → i < high → (f i).index = i ∧
    ∃ p u, locate d.index.entries.entries i = some p ∧ d.Holds p u ∧ f i ∈ u.entriesToSave

variable {d : DB}

theorem DB.Has.mono {low' high' : ℕ} (h : d.Has f low high) (hlow : low ≤ low') (hhigh : high' ≤ high) :
    d.Has f low' high' := fun i hi hlt => h i (hlow.trans hi) (hlt.trans_le hhigh)

theorem DB.Has.gives (h : d.Has f low high) : d.Gives f low high := fun i p hi hlt hp => by
  obtain ⟨hfi, p', u, hp', hu, hmem⟩ := h i hi hlt
  cases hp.symm.trans hp'
  exact ⟨hfi, u, hu, hmem⟩

section
variable {d : DB} {low : ℕ} {s : Reading}

theorem Laid.readRun_reads (opts : Options) (h : Laid d) (hf : d.Gives f low high) (limit : Option ℕ)
    (hie : ie ∈ d.index.entries.entries)
    (hs : s.Ready) (hin : ie.holds s.expected) (hlow : low ≤ s.expected) (hhigh : s.expected < high) :
    ∃ records s', d.readLog ie = .ok records ∧ readRecords opts ie high limit records s = .ok s' ∧
    Reads f limit (min high (ie.stop + 1)) s s' := by
  obtain ⟨u, first, rest, hu, hes, hcons, hstart, hstop⟩ := h.run_record hie
  obtain ⟨hge, hle⟩ := IndexEntry.holds_iff.mp hin
  obtain ⟨later, hread⟩ := h.readLog ie hu
  have hmem : ∀ i, s.expected ≤ i → i < min high (ie.stop + 1) → (f i).index = i ∧ f i ∈ first :: rest := by
    intro i hi hlt
    obtain ⟨hfi, v, hv, hmem⟩ := hf i _ (by omega) (by omega)
      (locate_of_mem h.runs.disjoint hie (IndexEntry.holds_iff.mpr ⟨by omega, by omega⟩))
    rw [← hes, h.holds_unique hu hv]
    exact ⟨hfi, hmem⟩
  obtain ⟨more, s', hupdate, hreads, hdone⟩ := readUpdate_reads opts ie limit hs hcons
    (by omega) (by omega) (by simp only [length_cons]; omega) (by omega) hmem
  refine ⟨_, s', hread, ?_, hreads⟩
  rw [readRecords]
  dsimp only
  rw [hes, hupdate, ok_bind]
  obtain ⟨-, hlast⟩ | ⟨hfull, -⟩ := hreads.stops
  · cases more
    · rfl
    · exact readRecords_done (by dsimp only; omega)
  · rw [hdone hfull]
    rfl

/-- Reading along a chain of runs ends with the chain, with the range or with the size. -/
theorem Laid.readRuns_reads (opts : Options) (h : Laid d) (hf : d.Gives f low high)
    (limit : Option ℕ) {before es : List IndexEntry} {last : IndexEntry}
    (heq : d.index.entries.entries.reverse = before ++ last :: es) (hs : s.Ready) (hin : last.holds s.expected)
    (hlow : low ≤ s.expected) (hhigh : s.expected < high) :
    ∃ s' x, d.readRuns opts high limit (connected (some high) last es) s = .ok s' ∧
    x ∈ connected (some high) last es ∧ Reads f limit (min high (x.stop + 1)) s s' ∧
    (s'.done = false → (connected (some high) last es).getLast? = some x) := by
  have hmem : last ∈ d.index.entries.entries := by rw [← mem_reverse, heq]; simp
  induction es generalizing before last s with
  | nil =>
    obtain ⟨records, s', hread, hrecords, hreads⟩ :=
      h.readRun_reads opts hf limit hmem hs hin hlow hhigh
    refine ⟨s', last, ?_, by simp [connected], hreads, fun _ => rfl⟩
    rw [connected, DB.readRuns, hread, ok_bind, hrecords, ok_bind]
    split_ifs <;> rfl
  | cons next es ih =>
    obtain ⟨records, s1, hread, hrecords, hreads⟩ :=
      h.readRun_reads opts hf limit hmem hs hin hlow hhigh
    have hle := (IndexEntry.holds_iff.mp hin).2
    rw [connected]
    split_ifs with hc
    · refine ⟨s1, last, ?_, mem_singleton_self _, hreads, fun _ => rfl⟩
      rw [DB.readRuns, hread, ok_bind, hrecords, ok_bind]
      split_ifs <;> rfl
    obtain ⟨hreached, hnext⟩ := not_or.mp hc
    rw [not_not] at hnext
    simp only [reached, Option.any_some, decide_eq_true_eq, not_le] at hreached
    rw [DB.readRuns, hread, ok_bind, hrecords, ok_bind]
    obtain ⟨hdone, hlast⟩ | ⟨hdone, hfull⟩ := hreads.stops
    · have hasc := h.runs.disjoint.ascending
      rw [heq] at hasc
      have hne : next.start ≤ next.stop := hasc.nonempty next (by simp)
      have hexp : s1.expected = next.start := by rw [hlast, Nat.min_eq_right (by omega), hnext]
      have heq' : d.index.entries.entries.reverse = (before ++ [last]) ++ next :: es := by rw [heq]; simp
      obtain ⟨s', x, hruns, hx, hreads', hend⟩ := ih heq' ⟨hdone, hreads.ends⟩
        (IndexEntry.holds_iff.mpr ⟨by omega, by omega⟩) (by omega) (by omega) (by rw [← mem_reverse, heq']; simp)
      rw [if_neg (by simp [hdone])]
      refine ⟨s', x, hruns, mem_cons_of_mem _ hx, ⟨hreads.le.trans hreads'.le, hreads'.upTo, hreads'.ends, ?_,
        hreads'.stops⟩, fun hd => ?_⟩
      · rw [hreads'.entries, hreads.entries, append_assoc, slice_append hreads.le hreads'.le]
      · obtain ⟨rest, hhead⟩ := head_connected (some high) next es
        rw [hhead, List.getLast?_cons_cons, ← hhead]
        exact hend hd
    · rw [if_pos hdone]
      exact ⟨s1, last, rfl, mem_cons_self .., hreads, fun hd => absurd (hdone.symm.trans hd) (by simp)⟩

theorem Laid.getEntries (opts : Options) (h : Laid d) (hhas : d.Has f low high) (hlt : low < high)
    (hc : d.index.entries.compactedTo < low) : ∃ size, d.getEntries opts low high 0 = .ok (slice f low high, size) := by
  have hheld : ∀ i, low ≤ i → i < high → ∃ e ∈ d.index.entries.entries, e.holds i := fun i hi hlt => by
    obtain ⟨-, p, -, hloc, -⟩ := hhas i hi hlt
    obtain ⟨e, he, hin, -⟩ := locate_eq_some hloc
    exact ⟨e, he, hin⟩
  have hbelow {i : ℕ} (hi : i < high) : reached (some high) i = false := by simpa [reached] using hi
  obtain ⟨-, hnone⟩ | ⟨before, e, es, heq, hin, hquery⟩ := Index.query_cases h.runs.disjoint low (some high)
  · obtain ⟨e, he, hin⟩ := hheld low le_rfl hlt
    exact absurd hin (hnone e he)
  rw [reached_of_le (IndexEntry.holds_iff.mp hin).1 (hbelow hlt), if_neg Bool.false_ne_true] at hquery
  obtain ⟨s', x, hread, hx, hreads, hend⟩ := h.readRuns_reads opts hhas.gives none (s := ⟨[], 0, low, false⟩) heq
    ⟨rfl, by simp⟩ hin le_rfl hlt
  obtain ⟨hready, hexp, hentries⟩ := hreads.ready
  -- the chain does not end below the end of the range
  have hlast : min high (x.stop + 1) = high := by
    refine Nat.min_eq_left (not_lt.mp fun hgap => ?_)
    have hle : low ≤ s'.expected := hreads.le
    obtain ⟨a, ha, hain⟩ := h.runs.disjoint.connected_holds heq hin (i := x.stop + 1) (by omega) (hbelow hgap)
      fun j hj hji => hheld j hj (by omega)
    have := stop_le_getLast (gapless_connected _ _ _)
      (fun b hb => h.runs.disjoint.nonempty b (by rw [← mem_reverse, heq]; exact mem_append_right _ (mem_connected hb)))
      (hend hready.1) a ha
    have := (IndexEntry.holds_iff.mp hain).2
    omega
  obtain ⟨rest, hhead⟩ := head_connected (some high) e es
  refine ⟨s'.size, ?_⟩
  rw [DB.getEntries, hquery, if_neg (by rw [hhead]; simp; omega), if_pos rfl, hread, ok_bind, hentries, hlast]
  rfl

end

end

/-! ### Reading the state and the snapshot -/

section
variable {d : DB} {u : Update}

theorem Laid.getSnapshot (h : Laid d) (hfile : d.index.snapshot.fileNum ≠ 0) (hu : d.Holds d.index.snapshot.place u)
    (hss : u.snapshot.isEmpty = false) : d.getSnapshot = .ok u.snapshot := by
  obtain ⟨later, hread⟩ := h.readLog _ hu
  rw [DB.getSnapshot, if_neg (by simpa [IndexEntry.empty] using hfile), hread, ok_bind]
  simp [hss]

theorem Laid.readState (h : Laid d) (hu : d.Holds d.index.state.place u) (hst : u.state ≠ emptyState) :
    d.readState = .ok u.state := by
  obtain ⟨later, hread⟩ := h.readLog _ hu
  rw [DB.readState, hread, ok_bind]
  simp [hst]

variable {index last : ℕ}

/-- The runs above an index when they have no gap up to `last` and nothing is above it. -/
theorem Laid.query_above (h : Laid d) (hle : index ≤ last)
    (hdense : ∀ i, index < i → i ≤ last → locate d.index.entries.entries i ≠ none)
    (hbeyond : ∀ i, index < i → locate d.index.entries.entries i ≠ none → i ≤ last) :
    index = last ∧ d.index.entries.query (index + 1) none = [] ∨
    index < last ∧ ∃ x, (d.index.entries.query (index + 1) none).getLast? = some x ∧ x.stop = last ∧
    connectedRuns 0 (d.index.entries.query (index + 1) none) := by
  have hstop : ∀ e ∈ d.index.entries.entries, e.stop ≤ last := fun e he => by
    by_contra hgt
    refine hgt (hbeyond _ (by omega) ?_)
    rw [locate_of_mem h.runs.disjoint he (IndexEntry.holds_iff.mpr ⟨h.runs.disjoint.nonempty e he, le_rfl⟩)]
    simp
  obtain ⟨hquery, hnone⟩ | ⟨before, e, es, heq, hin, hquery⟩ := Index.query_cases h.runs.disjoint (index + 1) none
  · obtain heq | hlt := hle.eq_or_lt
    · exact .inl ⟨heq, hquery⟩
    · obtain ⟨p, hloc⟩ := Option.ne_none_iff_exists'.mp (hdense (index + 1) (by omega) hlt)
      obtain ⟨e, he, hin, -⟩ := locate_eq_some hloc
      exact absurd hin (hnone e he)
  have hmem {a : IndexEntry} (ha : a ∈ e :: es) : a ∈ d.index.entries.entries := by
    rw [← mem_reverse, heq]
    exact mem_append_right _ ha
  have hlt : index < last := by
    have := hstop e (hmem (mem_cons_self ..))
    have := (IndexEntry.holds_iff.mp hin).2
    omega
  rw [show reached none e.start = false from rfl, if_neg Bool.false_ne_true] at hquery
  obtain ⟨a, ha, hain⟩ :=
    h.runs.disjoint.connected_holds heq hin (i := last) hlt (show reached none last = false from rfl)
    fun j hj hji => by
      obtain ⟨p, hloc⟩ := Option.ne_none_iff_exists'.mp (hdense j hj hji)
      obtain ⟨a, ha, hain, -⟩ := locate_eq_some hloc
      exact ⟨a, ha, hain⟩
  obtain ⟨rest, hhead⟩ := head_connected none e es
  cases hlast : (connected none e es).getLast? with
  | none => simp [hhead] at hlast
  | some x =>
    refine .inr ⟨hlt, x, by rw [hquery, hlast], ?_, hquery ▸ connectedRuns_connected (.inl rfl)⟩
    refine le_antisymm (hstop x (hmem (mem_connected (mem_of_getLast? hlast)))) ?_
    have := stop_le_getLast (gapless_connected _ _ _)
      (fun b hb => h.runs.disjoint.nonempty b (hmem (mem_connected hb))) hlast a ha
    have := (IndexEntry.holds_iff.mp hain).2
    omega

theorem Laid.getRaftState (h : Laid d) (hfile : d.index.state.fileNum ≠ 0) (hu : d.Holds d.index.state.place u)
    (hst : u.state ≠ emptyState) (hle : index ≤ last)
    (hdense : ∀ i, index < i → i ≤ last → locate d.index.entries.entries i ≠ none)
    (hbeyond : ∀ i, index < i → locate d.index.entries.entries i ≠ none → i ≤ last) :
    ∃ first, d.getRaftState index = .ok ⟨u.state, first, last - index⟩ ∧ (index < last → first = index + 1) := by
  have hne : ¬ d.index.state.empty := by simpa [IndexEntry.empty] using hfile
  rw [DB.getRaftState]
  obtain ⟨rfl, hquery⟩ | ⟨hlt, x, hlast, hx, hchain⟩ := h.query_above hle hdense hbeyond
  · refine ⟨0, ?_, by omega⟩
    rw [hquery]
    simp [hne, h.readState hu hst, connectedRuns]
  · refine ⟨index + 1, ?_, fun _ => rfl⟩
    simp only [hne, Bool.false_eq_true, if_false, h.readState hu hst, ok_bind, hchain, if_true, hlast]
    congr 2
    omega

end

end Armada.Tan
