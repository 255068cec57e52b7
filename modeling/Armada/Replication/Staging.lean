import Armada.Pebble.Dir

/-! Resumable downloads of a snapshot artifact. The bytes go into a staged file, and a sidecar
records how many of them count; an attempt takes the download up from there, or starts it over
when the source does not. Whatever fails and wherever a process dies, the staged file holds the
beginning of the artifact. -/

namespace Armada.Replication

open Ordered Program Program.Proc Pebble List

/-! ### The staged file -/

/-- A staged file with the position of its handle, its sidecar, and the file that is to
replace the sidecar. -/
structure Staged where
  data : Bytes
  position : ℕ
  sidecar : Option Bytes
  tmp : Option Bytes

namespace Staged

def empty : Staged := ⟨[], 0, none, none⟩

/-- A truncation to more than there is fills up with zeros. -/
def truncate (size : ℤ) (s : Staged) : Except String Staged :=
  if size < 0 then .error "invalid argument"
  else .ok { s with data := s.data.take size.toNat ++ List.replicate (size.toNat - s.data.length) 0 }

def seek (position : ℕ) (s : Staged) : Except String Staged := .ok { s with position := position }

/-- A byte goes where the handle is; a gap before it is filled with zeros. -/
def put (b : UInt8) (s : Staged) : Except String Staged :=
  .ok { s with
    data := (s.data ++ List.replicate (s.position - s.data.length) 0).take s.position ++
      b :: s.data.drop (s.position + 1)
    position := s.position + 1 }

end Staged

/-- An operation without an effect on the files that may fail all the same: a sync, a lease,
a look at the context. -/
def mayFail : Proc Staged Unit := change .ok

/-- `NewStaged`. -/
def newStaged : Proc Staged Unit := change (Staged.seek 0)

/-- The bytes a write gets into the file, and its error. -/
def write : Bytes → ℕ → Proc Staged (ℕ × Option String)
  | [], written => pure (written, none)
  | b :: bs, written => do
    match ← attempt (change (Staged.put b)) with
    | .ok _ => write bs (written + 1)
    | .error e => pure (written, some e)

def truncateTo (off : ℤ) (size : ℕ) : Proc Staged Unit :=
  if (size : ℤ) ≠ off then change (Staged.truncate off) else pure ()

/-- The sidecar cannot be ahead of the data. -/
def trusted (recorded : ℤ) (size : ℕ) : ℤ := if recorded > size then 0 else recorded

/-- `Staged.Offset`. A sidecar that is not there or does not parse counts as zero. -/
def offset (parseInt : Bytes → Option ℤ) : Proc Staged ℕ := do
  let sidecar ← ask fun s => .ok s.sidecar
  let size ← ask fun s => .ok s.data.length
  let off := trusted ((sidecar.bind parseInt).getD 0) size
  truncateTo off size
  change (Staged.seek off.toNat)
  return off.toNat

/-- `strconv.FormatInt` to the base ten. -/
def formatInt (off : ℕ) : Bytes := ascii (Nat.toDigits 10 off)

/-- `Staged.Commit`. -/
def commit (off : ℕ) : Proc Staged Unit := do
  mayFail
  change fun s => .ok { s with tmp := some [] }
  (formatInt off).forM fun b => change fun s => .ok { s with tmp := s.tmp.map (· ++ [b]) }
  mayFail
  mayFail
  change fun s => .ok { s with sidecar := s.tmp, tmp := none }
  mayFail

/-- `Staged.Reset`. -/
def reset : Proc Staged Unit := do
  change (Staged.truncate 0)
  mayFail
  change (Staged.seek 0)
  change fun s => .ok { s with sidecar := none }
  mayFail

/-- `Staged.Discard`. The next attempt finds an empty file. -/
def discard : Proc Staged Unit := do
  let _ ← attempt mayFail
  let _ ← attempt (change fun s => .ok { s with data := [] })
  let _ ← attempt (change fun s => .ok { s with sidecar := none })

/-- A stage that cannot be continued is reset, and the download starts over. -/
def restartIf (b : Bool) (off : ℕ) : Proc Staged ℕ :=
  if b then do
    reset
    pure 0
  else pure off

/-! ### Attempts -/

/-- How a body ends. -/
inductive BodyEnd where
  | eof
  | failed (err : String)

/-- What is read of a body: reads without an error, and a last one, which may have bytes
too. -/
structure Body where
  chunks : List Bytes
  last : Bytes
  ending : BodyEnd

section
variable (downloadCheckpointBytes : ℕ) (off : ℕ)

/-- One round of `copyWithCheckpoints`: the bytes of a read are written, and committed when
there are enough of them. The counters afterwards, and an error that ends the copy. -/
def copyChunk (chunk : Bytes) (copied sinceCheckpoint : ℕ) : Proc Staged ((ℕ × ℕ) × Option String) := do
  match ← attempt mayFail with
  | .error e => pure ((copied, sinceCheckpoint), some e)
  | .ok _ =>
    let (written, err) ← write chunk 0
    match err with
    | some e => pure ((copied + written, sinceCheckpoint + written), some e)
    | none =>
      if chunk ≠ [] ∧ sinceCheckpoint + written ≥ downloadCheckpointBytes then
        match ← attempt (commit (off + (copied + written))) with
        | .error e => pure ((copied + written, sinceCheckpoint + written), some e)
        | .ok _ => afterChunk (copied + written) 0
      else afterChunk (copied + written) (sinceCheckpoint + written)
where
  afterChunk (copied sinceCheckpoint : ℕ) : Proc Staged ((ℕ × ℕ) × Option String) := do
    match ← attempt mayFail with
    | .error e => pure ((copied, sinceCheckpoint), some e)
    | .ok _ => pure ((copied, sinceCheckpoint), none)

/-- `copyWithCheckpoints`: the bytes copied, and the error. -/
def copyWithCheckpoints (last : Bytes) (ending : BodyEnd) : List Bytes → ℕ → ℕ → Proc Staged (ℕ × Option String)
  | [], copied, sinceCheckpoint => do
    match ← copyChunk downloadCheckpointBytes off last copied sinceCheckpoint with
    | (counters, some e) => pure (counters.1, some e)
    | (counters, none) =>
      match ending with
      | .eof => pure (counters.1, none)
      | .failed e => pure (counters.1, some e)
  | chunk :: chunks, copied, sinceCheckpoint => do
    match ← copyChunk downloadCheckpointBytes off chunk copied sinceCheckpoint with
    | (counters, some e) => pure (counters.1, some e)
    | (counters, none) => copyWithCheckpoints last ending chunks counters.1 counters.2

end

/-- What a recovery record says of its artifact. A size of zero and an empty checksum are
not checked. -/
structure Artifact where
  live : Bool
  sizeBytes : ℤ
  sha256 : Bytes

/-- What the sources do in an attempt: a live snapshot, or an object from an offset on,
which tells whether it starts there. -/
structure Source where
  live : Except String Body
  object : ℕ → Except String (Body × Bool)

section
variable (parseInt : Bytes → Option ℤ) (downloadCheckpointBytes : ℕ) (sum256 : Bytes → Bytes) (art : Artifact)

def verifySize : Proc Staged Unit :=
  if art.sizeBytes > 0 then do
    let size ← ask fun s => .ok s.data.length
    refuse ((size : ℤ) ≠ art.sizeBytes) "unexpected size"
  else pure ()

def verifySum : Proc Staged Unit :=
  if art.sha256 = [] then pure ()
  else do
    change (Staged.seek 0)
    let data ← ask fun s => .ok s.data
    refuse (sum256 data ≠ art.sha256) "unexpected checksum"

/-- `verifyArtifact`. -/
def verifyArtifact : Proc Staged Unit := do
  verifySize art
  verifySum sum256 art

/-- Verifies what is staged, and gives it up if it is not the artifact. -/
def verifyOrDiscard : Proc Staged Unit := do
  match ← attempt (verifyArtifact sum256 art) with
  | .ok _ => pure ()
  | .error e => do
    discard
    fail e

/-- The body is copied behind what is staged, and what arrived is recorded. -/
def download (body : Body) (off : ℕ) : Proc Staged Unit := do
  match ← copyWithCheckpoints downloadCheckpointBytes off body.last body.ending body.chunks 0 0 with
  | (n, some e) => do
    let _ ← attempt (commit (off + n))
    fail e
  | (n, none) => do
    commit (off + n)
    verifyOrDiscard sum256 art

/-- `fetchArtifact`, which ends with the path of the staged file. -/
def fetchArtifact (source : Source) : Proc Staged Unit := do
  newStaged
  mayFail
  let recorded ← offset parseInt
  if art.live then do
    reset
    let body ← ask fun _ => source.live
    download downloadCheckpointBytes sum256 art body 0
  else if art.sizeBytes > 0 ∧ recorded = art.sizeBytes then verifyOrDiscard sum256 art
  else do
    let requested ← restartIf (art.sizeBytes > 0 ∧ recorded > art.sizeBytes) recorded
    let (body, ranged) ← ask fun _ => source.object requested
    let off ← restartIf (requested > 0 ∧ !ranged) requested
    download downloadCheckpointBytes sum256 art body off

end

/-! ### What is staged -/

/-- The stage holds the first `n` bytes of `A`, and writes go behind them. -/
structure UpTo (A : Bytes) (n : ℕ) (s : Staged) : Prop where
  data : s.data = A.take n
  position : s.position = n
  bound : n ≤ A.length

/-- The stage holds the beginning of `A`. This is all an attempt leaves behind, and all the
next one needs. -/
def Begins (A : Bytes) (s : Staged) : Prop := s.data <+: A

variable {A : Bytes} {n : ℕ} {s : Staged}

theorem Begins.of_take (hdata : s.data = A.take n) : Begins A s := by
  rw [Begins, hdata]
  exact A.take_prefix n

theorem UpTo.begins (h : UpTo A n s) : Begins A s := .of_take h.data

theorem UpTo.zero (hdata : s.data = []) (hposition : s.position = 0) : UpTo A 0 s :=
  ⟨hdata, hposition, Nat.zero_le _⟩

theorem Begins.nil (hdata : s.data = []) : Begins A s := by
  rw [Begins, hdata]
  exact nil_prefix

theorem UpTo.put {s' : Staged} {b : UInt8} {bs : Bytes} (h : UpTo A n s) (hbytes : b :: bs <+: A.drop n)
    (hput : Staged.put b s = .ok s') : UpTo A (n + 1) s' := by
  obtain ⟨rest, hrest⟩ := hbytes
  have hlen : s.data.length = n := by rw [h.data, length_take, Nat.min_eq_left h.bound]
  have hnext : A[n]? = some b := by
    rw [← List.head?_drop, ← hrest]
    rfl
  obtain ⟨hn, hb⟩ := List.getElem?_eq_some_iff.1 hnext
  cases hput
  refine ⟨?_, congrArg (· + 1) h.position, hn⟩
  simp only [h.position, hlen, Nat.sub_self, replicate_zero, append_nil]
  rw [take_of_length_le hlen.le, drop_eq_nil_of_le (by omega), h.data, ← hb, take_concat_get' A n hn]

theorem write_spec {bs : Bytes} (written : ℕ) (hbytes : bs <+: A.drop n) : Triple (UpTo A n) (write bs written)
    (fun r s => Begins A s ∧ (r.2 = none → UpTo A (n + bs.length) s)) (Begins A) := by
  -- The induction is on the bytes still to be written.
  induction bs generalizing n written with
  | nil => exact Triple.pure _ fun s hs => ⟨hs.begins, fun _ => hs⟩
  | cons b bs ih =>
    have hrest : bs <+: A.drop (n + 1) := by
      rw [← drop_drop]
      exact hbytes.drop 1
    have hput : Triple (UpTo A n) (change (Staged.put b)) (fun _ => UpTo A (n + 1)) (Begins A) :=
      .change (fun _ hs => hs.begins) fun s s' hs h => ⟨hs.put hbytes h, (hs.put hbytes h).begins⟩
    refine hput.attempt.bind fun r => ?_
    cases r with
    | ok _ =>
      refine (ih (written + 1) hrest).mono (fun _ => id) (fun r s hr => ⟨hr.1, fun hnone => ?_⟩) fun _ => id
      rw [length_cons, Nat.add_comm bs.length 1, ← Nat.add_assoc]
      exact hr.2 hnone
    | error e => exact Triple.pure _ fun s hs => ⟨hs, fun hnone => nomatch hnone⟩

theorem mayFail_preserves (I : Staged → Prop) : Preserves I mayFail :=
  .change fun s s' hs h => by
    cases h
    exact hs

theorem mayFail_upTo : Triple (UpTo A n) mayFail (fun _ => UpTo A n) (Begins A) :=
  (mayFail_preserves _).mono (fun _ => id) (fun _ _ => id) fun _ hs => hs.begins

theorem commit_preserves (R : Bytes → ℕ → Prop) (off : ℕ) : Preserves (fun s => R s.data s.position) (commit off) := by
  have haside {f : Staged → Except String Staged}
      (hf : ∀ s s', f s = .ok s' → s'.data = s.data ∧ s'.position = s.position) :
      Preserves (fun s => R s.data s.position) (change f) := by
    refine .change fun s s' hs h => ?_
    rw [(hf s s' h).1, (hf s s' h).2]
    exact hs
  refine (mayFail_preserves _).bind fun _ => (haside ?_).bind fun _ => (Preserves.forM fun b _ => haside ?_).bind
    fun _ => (mayFail_preserves _).bind fun _ => (mayFail_preserves _).bind fun _ => (haside ?_).bind
    fun _ => mayFail_preserves _
  all_goals
    intro s s' h
    cases h
    exact ⟨rfl, rfl⟩

theorem reset_spec : Triple (Begins A) reset (fun _ => UpTo A 0) (Begins A) := by
  have htruncate : Triple (Begins A) (change (Staged.truncate 0)) (fun _ s => s.data = []) (Begins A) := by
    refine .change (fun _ => id) fun s s' _ h => ?_
    cases h
    exact ⟨by simp, .nil (by simp)⟩
  have hseek : Triple (fun s : Staged => s.data = []) (change (Staged.seek 0)) (fun _ => UpTo A 0) (Begins A) := by
    refine .change (fun _ => .nil) fun s s' hs h => ?_
    cases h
    exact ⟨.zero hs rfl, .nil hs⟩
  have hremove : Triple (UpTo A 0) (change fun s => .ok { s with sidecar := none }) (fun _ => UpTo A 0) (Begins A) := by
    refine .change (fun _ hs => hs.begins) fun s s' hs h => ?_
    cases h
    exact ⟨⟨hs.data, hs.position, hs.bound⟩, hs.begins⟩
  exact htruncate.bind fun _ => ((mayFail_preserves _).mono (fun _ => id) (fun _ _ => id) fun _ => .nil).bind
    fun _ => hseek.bind fun _ => hremove.bind
    fun _ => mayFail_upTo

theorem restartIf_spec (b : Bool) (off : ℕ) : Triple (UpTo A off) (restartIf b off)
    (fun off' s => UpTo A off' s ∧ off' = if b then 0 else off) (Begins A) := by
  cases b with
  | true =>
    exact (reset_spec.mono (fun _ hs => hs.begins) (fun _ _ => id) fun _ => id).bind
      fun _ => Triple.pure 0 fun s hs => ⟨hs, rfl⟩
  | false => exact Triple.pure off fun s hs => ⟨hs, rfl⟩

theorem discard_preserves : Preserves (Begins A) discard := by
  refine (mayFail_preserves _).attempt.bind fun _ => (Preserves.change ?_).attempt.bind
    fun _ => (Preserves.change ?_).attempt.bind fun _ => .pure _
  · intro s s' _ h
    cases h
    exact .nil rfl
  · intro s s' hs h
    cases h
    exact hs

theorem trusted_le (recorded : ℤ) (size : ℕ) : trusted recorded size ≤ size := by
  unfold trusted
  split <;> omega

theorem truncateTo_spec {off : ℤ} {size : ℕ} (hoff : off ≤ size) :
    Triple (fun s => Begins A s ∧ s.data.length = size) (truncateTo off size)
    (fun _ s => s.data = A.take off.toNat ∧ off.toNat ≤ A.length) (Begins A) := by
  unfold truncateTo
  by_cases hsize : (size : ℤ) = off
  · rw [if_neg (not_not_intro hsize)]
    refine .pure _ fun s hs => ?_
    have hlen : s.data.length = off.toNat := by omega
    exact ⟨hlen ▸ prefix_iff_eq_take.1 hs.1, hlen ▸ hs.1.length_le⟩
  · rw [if_pos hsize]
    refine .change (fun _ hs => hs.1) fun s s' hs h => ?_
    have hlen : off.toNat ≤ s.data.length := by omega
    have hcut : s'.data = A.take off.toNat := by
      unfold Staged.truncate at h
      split at h
      · cases h
      · cases h
        rw [prefix_iff_eq_take.1 hs.1, take_take, Nat.min_eq_left hlen, ← prefix_iff_eq_take.1 hs.1]
        simp [Nat.sub_eq_zero_of_le hlen]
    exact ⟨⟨hcut, hlen.trans hs.1.length_le⟩, .of_take hcut⟩

theorem offset_spec (parseInt : Bytes → Option ℤ) :
    Triple (Begins A) (offset parseInt) (fun off => UpTo A off) (Begins A) := by
  refine Triple.bind (Preserves.ask _) fun sidecar => ?_
  have hstat : Triple (Begins A) (ask fun s => .ok s.data.length) (fun size s => Begins A s ∧ s.data.length = size)
      (Begins A) := .ask (fun _ => id) fun s size hs h => ⟨hs, by cases h; rfl⟩
  refine hstat.bind fun size => (truncateTo_spec (trusted_le _ _)).bind fun _ => ?_
  refine Triple.bind (.change (fun s hs => .of_take hs.1) fun s s' hs h => ?_) fun _ => Triple.pure _ fun _ => id
  cases h
  exact ⟨⟨hs.1, rfl, hs.2⟩, .of_take hs.1⟩

section
variable (downloadCheckpointBytes off : ℕ)

theorem afterChunk_spec (copied sinceCheckpoint : ℕ) : Triple (UpTo A n) (copyChunk.afterChunk copied sinceCheckpoint)
    (fun r s => Begins A s ∧ (r.2 = none → UpTo A n s)) (Begins A) := by
  refine mayFail_upTo.attempt.bind fun r => ?_
  cases r with
  | error e => exact Triple.pure _ fun s hs => ⟨hs, fun hnone => nomatch hnone⟩
  | ok _ => exact Triple.pure _ fun s hs => ⟨hs.begins, fun _ => hs⟩

theorem commit_upTo (off : ℕ) : Triple (UpTo A n) (commit off) (fun _ => UpTo A n) (Begins A) := by
  have h : Preserves (fun s => s.data = A.take n ∧ s.position = n ∧ n ≤ A.length) (commit off) :=
    commit_preserves (fun data position => data = A.take n ∧ position = n ∧ n ≤ A.length) off
  refine h.mono (fun s hs => ⟨hs.data, hs.position, hs.bound⟩) (fun _ s hs => ⟨hs.1, hs.2.1, hs.2.2⟩) fun s hs => ?_
  exact (show UpTo A n s from ⟨hs.1, hs.2.1, hs.2.2⟩).begins

theorem copyChunk_spec {chunk : Bytes} (copied sinceCheckpoint : ℕ) (hbytes : chunk <+: A.drop n) :
    Triple (UpTo A n) (copyChunk downloadCheckpointBytes off chunk copied sinceCheckpoint)
    (fun r s => Begins A s ∧ (r.2 = none → UpTo A (n + chunk.length) s)) (Begins A) := by
  refine mayFail_upTo.attempt.bind fun r => ?_
  cases r with
  | error e => exact Triple.pure _ fun s hs => ⟨hs, fun hnone => nomatch hnone⟩
  | ok _ =>
    refine (write_spec 0 hbytes).bind fun r => ?_
    obtain ⟨written, err⟩ := r
    cases err with
    | some e => exact Triple.pure _ fun s hs => ⟨hs.1, fun hnone => nomatch hnone⟩
    | none =>
      refine Triple.mono ?_ (fun s hs => hs.2 rfl) (fun _ _ => id) fun _ => id
      by_cases hdue : chunk ≠ [] ∧ sinceCheckpoint + written ≥ downloadCheckpointBytes
      · simp only [if_pos hdue]
        refine (commit_upTo _).attempt.bind fun r => ?_
        cases r with
        | error e => exact Triple.pure _ fun s hs => ⟨hs, fun hnone => nomatch hnone⟩
        | ok _ => exact afterChunk_spec _ _
      · simp only [if_neg hdue]
        exact afterChunk_spec _ _

theorem copyWithCheckpoints_spec {chunks : List Bytes} {last : Bytes} {ending : BodyEnd} (copied sinceCheckpoint : ℕ)
    (hbytes : chunks.flatten ++ last <+: A.drop n) (heof : ending = .eof → chunks.flatten ++ last = A.drop n) :
    Triple (UpTo A n) (copyWithCheckpoints downloadCheckpointBytes off last ending chunks copied sinceCheckpoint)
    (fun r s => Begins A s ∧ (r.2 = none → s.data = A)) (Begins A) := by
  -- The induction is on the reads still to come, one more chunk of which is staged.
  induction chunks generalizing n copied sinceCheckpoint with
  | nil =>
    rw [flatten_nil, nil_append] at hbytes heof
    refine (copyChunk_spec _ _ _ _ hbytes).bind fun r => ?_
    obtain ⟨counters, err⟩ := r
    cases err with
    | some e => exact Triple.pure _ fun s hs => ⟨hs.1, fun hnone => nomatch hnone⟩
    | none =>
      cases ending with
      | failed e => exact Triple.pure _ fun s hs => ⟨hs.1, fun hnone => nomatch hnone⟩
      | eof =>
        refine Triple.pure _ fun s hs => ⟨hs.1, fun _ => ?_⟩
        have hlen : n + last.length = A.length := by
          have hupTo : n + last.length ≤ A.length := (hs.2 rfl).bound
          rw [heof rfl, length_drop] at hupTo ⊢
          omega
        rw [(hs.2 rfl).data, hlen, take_length]
  | cons chunk chunks ih =>
    rw [flatten_cons, append_assoc] at hbytes heof
    refine (copyChunk_spec _ _ _ _ ((prefix_append _ _).trans hbytes)).bind fun r => ?_
    obtain ⟨counters, err⟩ := r
    cases err with
    | some e => exact Triple.pure _ fun s hs => ⟨hs.1, fun hnone => nomatch hnone⟩
    | none =>
      have hrest : (chunk ++ (chunks.flatten ++ last)).drop chunk.length = chunks.flatten ++ last := drop_left
      refine (ih counters.1 counters.2 ?_ fun h => ?_).mono (fun _ hs => hs.2 rfl) (fun _ _ => id) fun _ => id
      · rw [← drop_drop, ← hrest]
        exact hbytes.drop _
      · rw [← drop_drop, ← heof h, hrest]

end

/-! ### Attempts on one artifact -/

/-- What a body may be when `rest` is to be served: the whole of it, or a beginning and then
an error. -/
structure Body.Serves (body : Body) (rest : Bytes) : Prop where
  begins : body.chunks.flatten ++ body.last <+: rest
  whole : body.ending = .eof → body.chunks.flatten ++ body.last = rest

/-- Sources of `A`: an object is served from the requested offset on or as a whole. -/
structure Source.Serves (source : Source) (A : Bytes) : Prop where
  live : ∀ body, source.live = .ok body → body.Serves A
  object : ∀ off body ranged, source.object off = .ok (body, ranged) →
    body.Serves (if ranged then A.drop off else A)

/-- A size of an object that is recorded is the size of `A`. -/
def Artifact.Describes (art : Artifact) (A : Bytes) : Prop :=
  art.live = false → 0 < art.sizeBytes → art.sizeBytes = A.length

section
variable (parseInt : Bytes → Option ℤ) (downloadCheckpointBytes : ℕ) (sum256 : Bytes → Bytes) {art : Artifact}

theorem verifyArtifact_preserves (I : Bytes → Prop) : Preserves (fun s => I s.data) (verifyArtifact sum256 art) := by
  have hsize : Preserves (fun s : Staged => I s.data) (verifySize art) := by
    unfold verifySize
    split
    · exact (Preserves.ask _).bind fun _ => .refuse _ _
    · exact .pure _
  have hsum : Preserves (fun s : Staged => I s.data) (verifySum sum256 art) := by
    unfold verifySum
    split
    · exact .pure _
    · refine (Preserves.change fun s s' hs h => ?_).bind fun _ => (Preserves.ask _).bind fun _ => .refuse _ _
      cases h
      exact hs
  exact hsize.bind fun _ => hsum

theorem verifyOrDiscard_spec :
    Triple (fun s => s.data = A) (verifyOrDiscard sum256 art) (fun _ s => s.data = A) (Begins A) := by
  have hbegins (s : Staged) (hs : s.data = A) : Begins A s := hs ▸ prefix_rfl
  have hverify : Triple (fun s => s.data = A) (verifyArtifact sum256 art) (fun _ s => s.data = A) (Begins A) :=
    (verifyArtifact_preserves sum256 (· = A)).mono (fun _ => id) (fun _ _ => id) hbegins
  refine hverify.attempt.bind fun r => ?_
  cases r with
  | ok _ => exact Triple.pure _ fun _ => id
  | error e => exact Triple.bind discard_preserves fun _ => Triple.fail e fun _ => id

theorem download_spec {body : Body} (hbody : body.Serves (A.drop n)) :
    Triple (UpTo A n) (download downloadCheckpointBytes sum256 art body n) (fun _ s => s.data = A) (Begins A) := by
  refine (copyWithCheckpoints_spec _ _ 0 0 hbody.begins hbody.whole).bind fun r => ?_
  obtain ⟨copied, err⟩ := r
  cases err with
  | some e =>
    have hcommit : Preserves (Begins A) (commit (n + copied)) := commit_preserves (fun data _ => data <+: A) _
    exact Triple.bind (hcommit.attempt.mono (fun _ hs => hs.1) (fun _ _ => id) fun _ => id) fun _ =>
      Triple.fail e fun _ => id
  | none =>
    have hcommit : Preserves (fun s => s.data = A) (commit (n + copied)) := commit_preserves (fun data _ => data = A) _
    exact Triple.bind (hcommit.mono (fun _ hs => hs.2 rfl) (fun _ _ => id) fun _ hs => hs ▸ prefix_rfl) fun _ =>
      verifyOrDiscard_spec sum256

/-- What is served is what is missing once a source that ignored the offset has had the
stage reset. -/
theorem served_behind (A : Bytes) (requested : ℕ) (ranged : Bool) : (if ranged then A.drop requested else A) =
    A.drop (if decide (requested > 0 ∧ !ranged) then 0 else requested) := by
  cases ranged with
  | true => simp
  | false => cases requested <;> simp

theorem fetchArtifact_spec {source : Source} (hart : art.Describes A) (hsource : source.Serves A) :
    Triple (Begins A) (fetchArtifact parseInt downloadCheckpointBytes sum256 art source) (fun _ s => s.data = A)
    (Begins A) := by
  have hopen : Preserves (Begins A) newStaged := by
    refine .change fun s s' hs h => ?_
    cases h
    exact hs
  refine Triple.bind hopen fun _ => Triple.bind (mayFail_preserves _) fun _ => (offset_spec parseInt).bind
    fun recorded => ?_
  by_cases hlive : art.live
  · rw [if_pos hlive]
    refine (reset_spec.mono (fun _ hs => hs.begins) (fun _ _ => id) fun _ => id).bind fun _ => ?_
    refine Triple.bind (.ask (fun _ hs => hs.begins) fun s body hs h => ⟨hs, h⟩) fun body =>
      Triple.given fun hbody => ?_
    exact download_spec _ _ (hsource.live body hbody)
  · rw [if_neg hlive]
    by_cases hcomplete : art.sizeBytes > 0 ∧ (recorded : ℤ) = art.sizeBytes
    · -- Everything was staged before, and only the verification is left.
      rw [if_pos hcomplete]
      have hsize : recorded = A.length := by
        have := hart (by simpa using hlive) hcomplete.1
        omega
      refine (verifyOrDiscard_spec sum256).mono (fun s hs => ?_) (fun _ _ => id) fun _ => id
      rw [hs.data, hsize, take_length]
    · rw [if_neg hcomplete]
      refine (restartIf_spec _ _).bind fun requested => Triple.given fun _ => ?_
      refine Triple.bind (.ask (fun _ hs => hs.begins) fun s got hs h => ⟨hs, h⟩) fun got => Triple.given fun hgot => ?_
      obtain ⟨body, ranged⟩ := got
      refine (restartIf_spec _ _).bind fun off => Triple.given fun hoff => ?_
      refine download_spec _ _ ?_
      rw [hoff, ← served_behind]
      exact hsource.object requested body ranged hgot

end

/-- An attempt: what the sources do in it, and what becomes of its operations. It crashes
where its script ends. -/
structure Attempt where
  source : Source
  script : List Answer

section
variable (parseInt : Bytes → Option ℤ) (downloadCheckpointBytes : ℕ) (sum256 : Bytes → Bytes) (art : Artifact)

def Attempt.run (a : Attempt) (s : Staged) : Except Stop Unit × World Staged :=
  fetchArtifact parseInt downloadCheckpointBytes sum256 art a.source ⟨s, a.script⟩

/-- The stage after some attempts, the first of which finds nothing. -/
def stagedAfter (attempts : List Attempt) : Staged :=
  attempts.foldl (fun s a => (a.run parseInt downloadCheckpointBytes sum256 art s).2.state) .empty

end

section
variable (parseInt : Bytes → Option ℤ) (downloadCheckpointBytes : ℕ) (sum256 : Bytes → Bytes) {art : Artifact}

theorem stagedAfter_begins {attempts : List Attempt} (hart : art.Describes A)
    (hserves : ∀ a ∈ attempts, a.source.Serves A) :
    Begins A (stagedAfter parseInt downloadCheckpointBytes sum256 art attempts) := by
  unfold stagedAfter
  have hempty : Begins A Staged.empty := .nil rfl
  generalize Staged.empty = s at hempty ⊢
  induction attempts generalizing s with
  | nil => exact hempty
  | cons a attempts ih =>
    rw [forall_mem_cons] at hserves
    refine ih hserves.2 _ ?_
    refine Triple.after ((fetchArtifact_spec parseInt downloadCheckpointBytes sum256 hart hserves.1).mono
      (fun _ => id) (fun _ s hs => ?_) fun _ => id) ⟨s, a.script⟩ hempty
    exact hs ▸ prefix_rfl

/-- After any attempts, each of which may fail in any operation or die between any two, an
attempt that finishes without an error has staged the artifact. -/
theorem finished_holds_artifact {attempts : List Attempt} {a : Attempt} (hart : art.Describes A)
    (hserves : ∀ b ∈ attempts, b.source.Serves A) (ha : a.source.Serves A)
    (hfinished : (a.run parseInt downloadCheckpointBytes sum256 art
      (stagedAfter parseInt downloadCheckpointBytes sum256 art attempts)).1 = .ok ()) :
    (a.run parseInt downloadCheckpointBytes sum256 art
      (stagedAfter parseInt downloadCheckpointBytes sum256 art attempts)).2.state.data = A := by
  have hbegins := stagedAfter_begins parseInt downloadCheckpointBytes sum256 hart hserves
  exact (fetchArtifact_spec parseInt downloadCheckpointBytes sum256 hart ha).returned hbegins hfinished

end

section
variable (A)

/-- A source whose connection breaks two bytes behind the requested offset. -/
def breakingSource : Source where
  live := .error "live snapshot source is not configured"
  object off := .ok (⟨[(A.drop off).take 2], [], .failed "connection reset"⟩, true)

def rangedSource : Source where
  live := .error "live snapshot source is not configured"
  object off := .ok (⟨[], A.drop off, .eof⟩, true)

end

theorem breakingSource_serves (A : Bytes) : (breakingSource A).Serves A where
  live body h := nomatch h
  object off body ranged h := by
    cases h
    exact ⟨by simp [ take_prefix], fun h => nomatch h⟩

theorem rangedSource_serves (A : Bytes) : (rangedSource A).Serves A where
  live body h := nomatch h
  object off body ranged h := by
    cases h
    exact ⟨by simp, fun _ => by simp⟩

def parseDigits (text : Bytes) : Option ℤ := some (text.foldl (fun n d => 10 * n + (d.toNat - 48)) 0)

def threeBytes : Artifact := ⟨false, 3, []⟩

/-- The second of two attempts goes on where the connection of the first one broke. -/
theorem finished_holds_artifact_threeBytes :
    (stagedAfter parseDigits 4 id threeBytes [⟨breakingSource [1, 2, 3], List.replicate 40 .ok⟩]).data = [1, 2] ∧
    (Attempt.run parseDigits 4 id threeBytes ⟨rangedSource [1, 2, 3], List.replicate 40 .ok⟩
      (stagedAfter parseDigits 4 id threeBytes [⟨breakingSource [1, 2, 3], List.replicate 40 .ok⟩])).2.state.data =
        [1, 2, 3] := by
  refine ⟨by decide +kernel, finished_holds_artifact parseDigits 4 id (fun _ _ => rfl) ?_ (rangedSource_serves _) rfl⟩
  intro b hb
  rw [mem_singleton.1 hb]
  exact breakingSource_serves _

end Armada.Replication
