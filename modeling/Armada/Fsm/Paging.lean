import Armada.Fsm.Effect

/-! The pages of a range read. The live pairs of the range, cut at the limit, are cut into
chunks and every chunk fills a page. All pages but the last say that more follows; the last page
says what is behind the first pair that was not read. -/

namespace Armada.Fsm

open Ordered Keys Pebble Proto Program List

/-! ### Chunks -/

/-- What a page holds of a chunk of live pairs. -/
def FillMode.entries (mode : FillMode) (chunk : List KeyValue) : List KeyValue :=
  match mode with
  | .kvPair => chunk
  | .keyOnly => chunk.map fun kv => ⟨kv.key, []⟩
  | .countOnly => []

def FillMode.page (mode : FillMode) (more : Bool) (chunk : List KeyValue) : RangeResponse :=
  ⟨mode.entries chunk, more, chunk.length⟩

def FillMode.chunkSize (mode : FillMode) (chunk : List KeyValue) : ℕ :=
  (chunk.map fun kv => mode.size kv.key kv.value).sum

/-- The live pairs a limited read takes when it has taken `i` already. -/
def cutAt (limit : ℤ) (i : ℕ) (live : List KeyValue) : List KeyValue :=
  if 0 < limit then live.take (limit - i).toNat else live

section
variable {mode : FillMode} {limit : ℤ} {more : Bool}

theorem FillMode.fill_page (chunk : List KeyValue) (kv : KeyValue) :
    mode.fill kv.key kv.value (mode.page false chunk) = mode.page false (chunk ++ [kv]) := by
  cases mode <;> simp [FillMode.fill, FillMode.page, FillMode.entries]

theorem FillMode.fill_empty (kv : KeyValue) : mode.fill kv.key kv.value .empty = mode.page false [kv] := by
  cases mode <;> simp [FillMode.fill, FillMode.page, FillMode.entries, RangeResponse.empty]

theorem FillMode.page_nil : mode.page false [] = .empty := by
  cases mode <;> rfl

theorem FillMode.chunkSize_concat (chunk : List KeyValue) (kv : KeyValue) :
    mode.chunkSize (chunk ++ [kv]) = mode.chunkSize chunk + mode.size kv.key kv.value := by
  simp [FillMode.chunkSize]

variable {kv : KeyValue} {chunk : List KeyValue}

theorem cutAt_cons {i : ℕ} {live : List KeyValue} (hi : limit ≤ 0 ∨ i < limit) :
    cutAt limit i (kv :: live) = kv :: cutAt limit (i + 1) live := by
  unfold cutAt
  split_ifs with hpos
  · obtain ⟨n, hn⟩ : ∃ n, (limit - i).toNat = n + 1 := ⟨(limit - i).toNat - 1, by omega⟩
    rw [hn, take_succ_cons, show (limit - (i + 1 : ℕ)).toNat = n by omega]
  · rfl

/-- How a range read cuts what it takes. Only the first chunk of several may be empty, and
it is not when every pair fits into a page. -/
structure Chunked (mode : FillMode) (chunks : List (List KeyValue)) (last pairs : List KeyValue) : Prop where
  taken : chunks.flatten ++ last = pairs
  later : ∀ c ∈ (chunks ++ [last]).tail, c ≠ []
  fits : (∀ kv ∈ pairs, mode.size kv.key kv.value < maxRangeSize) →
    (∀ c ∈ chunks, c ≠ []) ∧ ∀ c ∈ chunks ++ [last], mode.chunkSize c < maxRangeSize

variable {last pairs : List KeyValue} {chunks : List (List KeyValue)}

theorem Chunked.mem (h : Chunked mode chunks last pairs)
    {c : List KeyValue} (hc : c ∈ chunks ++ [last]) (hkv : kv ∈ c) : kv ∈ pairs := by
  rw [← h.taken]
  simp only [mem_append, mem_singleton, mem_flatten] at hc ⊢
  rcases hc with hc | rfl
  · exact Or.inl ⟨c, hc, hkv⟩
  · exact Or.inr hkv

theorem Chunked.single (h : mode.chunkSize chunk < maxRangeSize ∨ chunk.length ≤ 1) : Chunked mode [] chunk chunk where
  taken := rfl
  later := by simp
  fits hall := by
    refine ⟨by simp, fun c hc => ?_⟩
    obtain rfl := mem_singleton.mp hc
    rcases h with h | h
    · exact h
    · match c, h with
      | [], _ => simp [FillMode.chunkSize, maxRangeSize]
      | [kv], _ => simpa [FillMode.chunkSize] using hall kv (by simp)

theorem Chunked.cons (h : Chunked mode chunks last (kv :: pairs)) (hne : ∀ c ∈ (chunks ++ [last]).head?, c ≠ [])
    (hchunk : mode.chunkSize chunk < maxRangeSize ∨ chunk.length ≤ 1)
    (hfull : mode.chunkSize chunk + mode.size kv.key kv.value ≥ maxRangeSize) :
    Chunked mode (chunk :: chunks) last (chunk ++ kv :: pairs) where
  taken := by rw [flatten_cons, append_assoc, h.taken]
  later := by
    intro c hc
    rw [cons_append, tail_cons] at hc
    cases hlist : chunks ++ [last] with
    | nil => simp at hlist
    | cons d ds =>
      rw [hlist] at hc hne
      rcases mem_cons.mp hc with rfl | hc
      · exact hne c (by simp)
      · exact h.later c (by rw [hlist]; exact hc)
  fits hall := by
    obtain ⟨hnonempty, hsize⟩ := h.fits fun kv' hkv' => hall kv' (mem_append_right _ hkv')
    have hkv := hall kv (by simp)
    refine ⟨fun c hc => ?_, fun c hc => ?_⟩
    · rcases mem_cons.mp hc with rfl | hc
      · rintro rfl
        simp only [FillMode.chunkSize, map_nil, sum_nil] at hfull
        omega
      · exact hnonempty c hc
    · rcases mem_cons.mp hc with rfl | hc
      · rcases hchunk with hlt | hone
        · exact hlt
        · match c, hone with
          | [], _ => simp [FillMode.chunkSize, maxRangeSize]
          | [a], _ => simpa [FillMode.chunkSize] using hall a (by simp)
      · exact hsize c hc

theorem head_ne_nil (hne : chunk ≠ []) : ∀ c ∈ (chunk :: chunks).head?, c ≠ [] := by
  intro c hc
  rwa [← Option.some.inj hc]

variable (mode limit more) in
theorem fillPages_chunked (live : List KeyValue) (i : ℕ) (chunk : List KeyValue) (hi : limit ≤ 0 ∨ i ≤ limit)
    (hchunk : mode.chunkSize chunk < maxRangeSize ∨ chunk.length ≤ 1) :
    ∃ chunks last, fillPages mode limit more live i (mode.chunkSize chunk) (mode.page false chunk) =
    chunks.map (mode.page true) ++ [mode.page (decide (0 < limit ∧ limit < i + live.length) && more) last] ∧
    Chunked mode chunks last (chunk ++ cutAt limit i live) ∧ (chunk ≠ [] → ∀ c ∈ (chunks ++ [last]).head?, c ≠ []) := by
  induction live generalizing i chunk with
  | nil =>
    refine ⟨[], chunk, ?_, ?_, head_ne_nil⟩
    · have hnot : ¬ (0 < limit ∧ limit < i) := by omega
      simp [fillPages, hnot]
    · have hnil : cutAt limit i [] = [] := by simp [cutAt]
      rw [hnil, append_nil]
      exact .single hchunk
  | cons kv live ih =>
    rw [fillPages]
    by_cases hlimit : (i : ℤ) = limit ∧ limit ≠ 0
    · rw [if_pos hlimit]
      have hmore : (0 < limit ∧ limit < (i : ℤ) + (kv :: live).length) := by
        rw [length_cons]
        push_cast
        omega
      refine ⟨[], chunk, by simp only [hmore, and_self, decide_true, Bool.true_and]; rfl, ?_, head_ne_nil⟩
      have hnil : cutAt limit i (kv :: live) = [] := by
        rw [cutAt, if_pos hmore.1, ← hlimit.1, sub_self]
        rfl
      rw [hnil, append_nil]
      exact .single hchunk
    · rw [if_neg hlimit]
      have hnext : limit ≤ 0 ∨ ((i + 1 : ℕ) : ℤ) ≤ limit := by omega
      have hlen : ((i + 1 : ℕ) : ℤ) + live.length = i + (kv :: live).length := by
        rw [length_cons]
        push_cast
        omega
      rw [cutAt_cons (by omega), ← hlen]
      dsimp only
      by_cases hfull : mode.chunkSize chunk + mode.size kv.key kv.value ≥ maxRangeSize
      · obtain ⟨chunks, last, hpages, hchunked, hhead⟩ := ih (i + 1) [kv] hnext (.inr (by simp))
        rw [if_pos hfull, FillMode.fill_empty, show mode.size kv.key kv.value =
          mode.chunkSize [kv] by simp [FillMode.chunkSize], hpages]
        exact ⟨chunk :: chunks, last, rfl, hchunked.cons (hhead (by simp)) hchunk hfull, head_ne_nil⟩
      · obtain ⟨chunks, last, hpages, hchunked, hhead⟩ := ih (i + 1) (chunk ++ [kv]) hnext
          (.inl (by rw [FillMode.chunkSize_concat]; omega))
        rw [if_neg hfull, FillMode.fill_page, ← FillMode.chunkSize_concat, hpages]
        refine ⟨chunks, last, rfl, ?_, fun _ => hhead (by simp)⟩
        rwa [append_assoc, singleton_append] at hchunked

end

theorem cutAt_append (limit : ℤ) (live : List KeyValue) :
    ∃ rest, live = cutAt limit 0 live ++ rest ∧ (rest ≠ [] ↔ 0 < limit ∧ limit < live.length) := by
  unfold cutAt
  split_ifs with hpos
  · refine ⟨live.drop limit.toNat, by simp, ?_⟩
    rw [ne_eq, drop_eq_nil_iff]
    omega
  · exact ⟨[], by simp, by simp [hpos]⟩

variable {page : RangeResponse} {pages : List RangeResponse}

variable {last : List KeyValue} {chunks : List (List KeyValue)} {flag : Bool} {mode : FillMode}

theorem page_of_mem (h : page ∈ chunks.map (mode.page true) ++ [mode.page flag last]) :
    ∃ more, ∃ c ∈ chunks ++ [last], page = mode.page more c := by
  rw [mem_append, mem_map, mem_singleton] at h
  obtain ⟨c, hc, rfl⟩ | rfl := h
  · exact ⟨true, c, mem_append_left _ hc, rfl⟩
  · exact ⟨flag, last, by simp, rfl⟩

theorem page_cases {front back : List RangeResponse}
    (h : chunks.map (mode.page true) ++ [mode.page flag last] = front ++ page :: back) :
    (∃ before c after, chunks = before ++ c :: after ∧ front = before.map (mode.page true) ∧ page = mode.page true c) ∨
    front = chunks.map (mode.page true) ∧ page = mode.page flag last := by
  induction chunks generalizing front with
  | nil =>
    cases front with
    | nil => exact .inr ⟨rfl, (List.cons.inj h).1.symm⟩
    | cons _ _ => simp at h
  | cons c chunks ih =>
    cases front with
    | nil => exact .inl ⟨[], c, chunks, rfl, rfl, (List.cons.inj h).1.symm⟩
    | cons p front =>
      obtain ⟨rfl, htail⟩ := List.cons.inj h
      obtain ⟨before, d, after, rfl, rfl, rfl⟩ | ⟨rfl, rfl⟩ := ih htail
      · exact .inl ⟨c :: before, d, after, rfl, rfl, rfl⟩
      · exact .inr ⟨rfl, rfl⟩

theorem count_pages (mode : FillMode) (more : Bool) (chunks : List (List KeyValue)) :
    ((chunks.map (mode.page more)).map RangeResponse.count).sum = chunks.flatten.length := by
  simp [length_flatten, FillMode.page, Function.comp_def]

/-! ### Pages of a database -/

section
variable {m : DB} (hm : WellFormed m) {req : RangeOp} (hlow : IsBound req.key) (hhigh : IsBound (req.rangeEnd.getD []))
include hm hlow hhigh

theorem iterate_chunked : ∃ chunks last, iterate m req = .ok (chunks.map ((iterFuncsFromReq req).page true) ++
    [(iterFuncsFromReq req).page (decide (0 < req.limit ∧
    req.limit < (liveScan m req.key (req.rangeEnd.getD [])).length) && moreFollows m req) last]) ∧
    Chunked (iterFuncsFromReq req) chunks last (cutAt req.limit 0 (liveScan m req.key (req.rangeEnd.getD []))) := by
  obtain ⟨chunks, last, hpages, hchunked, -⟩ := fillPages_chunked (iterFuncsFromReq req) req.limit
    (moreFollows m req) (liveScan m req.key (req.rangeEnd.getD [])) 0 [] (by omega) (.inr (by simp))
  refine ⟨chunks, last, ?_, hchunked⟩
  have hzero : (iterFuncsFromReq req).chunkSize [] = 0 := rfl
  rw [FillMode.page_nil, hzero] at hpages
  rw [iterate_eq hm req hlow hhigh, hpages]
  simp

end

/-- The number of live pairs in the first pages of a read. -/
def pairsIn (pages : List RangeResponse) : ℕ := (pages.map RangeResponse.count).sum

/-- A page holds the live pairs behind those of the pages before it. -/
def HoldsNext (mode : FillMode) (live : List KeyValue) (pages : List RangeResponse) : Prop :=
  ∀ front page back, pages = front ++ page :: back →
    page.kvs = mode.entries ((live.drop (pairsIn front)).take page.count)

/-- A page says that more follows when a live pair is behind its own. -/
def FlagExact (live : List KeyValue) (pages : List RangeResponse) : Prop :=
  ∀ front page back, pages = front ++ page :: back →
    (page.more = true ↔ live.drop (pairsIn front + page.count) ≠ [])

/-- When exactly one live key is beyond the limit, a record of the range follows its newest
version. -/
def LastIsFollowed (m : DB) (req : RangeOp) : Prop :=
  0 < req.limit → (liveScan m req.key (req.rangeEnd.getD [])).length = req.limit.toNat + 1 → moreFollows m req = true

section
variable {mode : FillMode} {limit : ℤ} {flag : Bool} {live : List KeyValue}
  {chunks : List (List KeyValue)} {last : List KeyValue} (h : Chunked mode chunks last (cutAt limit 0 live))
include h

theorem Chunked.holdsNext : HoldsNext mode live (chunks.map (mode.page true) ++ [mode.page flag last]) := by
  obtain ⟨rest, hlive, -⟩ := cutAt_append limit live
  intro front page back hpages
  obtain ⟨before, c, after, rfl, rfl, rfl⟩ | ⟨rfl, rfl⟩ := page_cases hpages
  · rw [pairsIn, count_pages, hlive, ← h.taken, flatten_append, flatten_cons, append_assoc, append_assoc,
      append_assoc, drop_left]
    change mode.entries c = mode.entries (List.take c.length _)
    rw [take_left]
  · rw [pairsIn, count_pages, hlive, ← h.taken, append_assoc, drop_left]
    change mode.entries last = mode.entries (List.take last.length _)
    rw [take_left]

theorem Chunked.flagExact_iff : FlagExact live (chunks.map (mode.page true) ++ [mode.page flag last]) ↔
    (flag = true ↔ 0 < limit ∧ limit < live.length) := by
  obtain ⟨rest, hlive, hrest⟩ := cutAt_append limit live
  have hlast : live.drop (pairsIn (chunks.map (mode.page true)) + last.length) = rest := by
    have hdrop := congrArg (List.drop (cutAt limit 0 live).length) hlive
    rw [drop_left] at hdrop
    rw [pairsIn, count_pages, ← length_append, h.taken, hdrop]
  constructor
  · intro hexact
    have hflag := hexact _ (mode.page flag last) [] rfl
    rw [← hrest, ← hlast]
    exact hflag
  · intro hflag front page back hpages
    obtain ⟨before, c, after, rfl, rfl, rfl⟩ | ⟨rfl, rfl⟩ := page_cases hpages
    · refine iff_of_true rfl ?_
      have hcount : pairsIn (before.map (mode.page true)) + (mode.page true c).count =
        (before.flatten ++ c).length := by
        rw [pairsIn, count_pages, length_append]
        rfl
      have hsplit : live = (before.flatten ++ c) ++ ((after.flatten ++ last) ++ rest) := by
        rw [hlive, ← h.taken]
        simp
      rw [hcount, hsplit, drop_left]
      -- a later chunk is not empty
      have hlater : ∀ d ∈ after ++ [last], d ≠ [] := fun d hd => h.later d (by
        cases before with
        | nil => simpa using hd
        | cons b before => simp only [cons_append, tail_cons, mem_append, mem_cons]; simp at hd; tauto)
      have hne : last ≠ [] := hlater last (by simp)
      simp [hne]
    · rw [show (mode.page flag last).count = last.length from rfl, hlast, hrest]
      exact hflag

end

theorem FlagExact.head {live : List KeyValue} (h : FlagExact live (page :: pages)) : FlagExact live [page] := by
  intro front page' back heq
  obtain ⟨rfl, hpage⟩ : front = [] ∧ page = page' := by
    cases front <;> simp_all
  rw [← hpage]
  exact h [] page pages rfl

/-- Every page of a range read, and the page a range lookup answers with, says exactly
whether a live key of the range is left. -/
structure MoreExact (m : DB) (req : RangeOp) : Prop where
  pages : ∃ pages, iterate m req = .ok pages ∧ FlagExact (liveScan m req.key (req.rangeEnd.getD [])) pages
  lookup : ∃ page, rangeLookup m req = .ok page ∧ FlagExact (liveScan m req.key (req.rangeEnd.getD [])) [page]

theorem moreExact_iff {m : DB} {req : RangeOp} (hpages : iterate m req = .ok pages)
    (hne : pages ≠ []) : MoreExact m req ↔ FlagExact (liveScan m req.key (req.rangeEnd.getD [])) pages := by
  refine ⟨fun h => ?_, fun h => ⟨⟨pages, hpages, h⟩, ?_⟩⟩
  · obtain ⟨pages', hiter, hflag⟩ := h.pages
    rw [hpages] at hiter
    rw [Except.ok.inj hiter]
    exact hflag
  · obtain ⟨page, rest, rfl⟩ := exists_cons_of_ne_nil hne
    exact ⟨page, by rw [rangeLookup, hpages]; rfl, h.head⟩

/-- The pages of a range read hold the live keys of the range one after the other. Their
flags are exact if and only if no limit leaves exactly one live key whose newest version is
the last record of the range. -/
theorem more_exact_iff (m : DB) (hm : WellFormed m) (req : RangeOp) (hlow : IsBound req.key)
    (hhigh : IsBound (req.rangeEnd.getD [])) : (∀ kv, kv ∈ liveScan m req.key (req.rangeEnd.getD []) ↔
        InRange req.key (req.rangeEnd.getD []) kv.key ∧ live (latest m kv.key) = some kv.value) ∧
      (∃ pages, iterate m req = .ok pages ∧
        HoldsNext (iterFuncsFromReq req) (liveScan m req.key (req.rangeEnd.getD [])) pages) ∧
      (MoreExact m req ↔ LastIsFollowed m req) := by
  obtain ⟨chunks, last, hpages, hchunked⟩ := iterate_chunked hm hlow hhigh
  refine ⟨mem_liveScan hm, ⟨_, hpages, hchunked.holdsNext⟩, ?_⟩
  rw [moreExact_iff hpages (by simp), hchunked.flagExact_iff, LastIsFollowed]
  simp only [Bool.and_eq_true, decide_eq_true_eq]
  constructor
  · intro h hpos hlen
    exact (h.mpr ⟨hpos, by omega⟩).2
  · intro h
    refine ⟨fun hflag => hflag.1, fun hlimit => ⟨hlimit, ?_⟩⟩
    by_cases hlen : (liveScan m req.key (req.rangeEnd.getD [])).length = req.limit.toNat + 1
    · exact h hlimit.1 hlen
    · exact moreFollows_of_lt (by omega)

/-- Two keys of one version each. -/
def twoKeys : DB := (((∅ : DB).insert (encodeUserKey [0x61] 1) [0x31]).insert (encodeUserKey [0x62] 2) [0x32])

theorem twoKeys_wellFormed : WellFormed twoKeys :=
  (wellFormed_empty.insert (by decide) 1 _).insert (by decide) 2 _

/-- A read of every key of a range. -/
def firstKeys (limit : ℤ) : RangeOp := ⟨[0x61], some wildcard, limit, false, false⟩

/-- One key is left, and an older version of it follows its newest one. -/
theorem more_exact_iff_twoKeys : MoreExact (twoKeys.insert (encodeUserKey [0x62] 1) [0x33]) (firstKeys 1) :=
  ((more_exact_iff _ (twoKeys_wellFormed.insert (by decide) 1 _) (firstKeys 1) (by decide) (by decide)).2.2).mpr
    fun _ _ => by decide +kernel

/-- Limited to one of two keys, a read says that nothing is left. -/
theorem not_more_exact : WellFormed twoKeys ∧ rangeLookup twoKeys (firstKeys 1) = .ok ⟨[⟨[0x61], [0x31]⟩], false, 1⟩ ∧
    live (latest twoKeys [0x62]) = some [0x32] ∧ ¬ MoreExact twoKeys (firstKeys 1) := by
  have hanswer : rangeLookup twoKeys (firstKeys 1) = .ok ⟨[⟨[0x61], [0x31]⟩], false, 1⟩ := by
    decide +kernel
  refine ⟨twoKeys_wellFormed, hanswer, rfl, fun h => ?_⟩
  obtain ⟨page, hpage, hflag⟩ := h.lookup
  rw [hanswer] at hpage
  cases hpage
  exact absurd ((hflag [] _ [] rfl).mpr (by decide)) (by decide)

end Armada.Fsm
