import Mathlib.Data.Nat.Notation
import Mathlib.Tactic.SplitIfs
import Mathlib.Tactic.Cases
import Armada.Program.Machine

/-! Snapshots that other replicas stream to a replica in chunks. A chunk finds its transfer by
the snapshot's index, then by its sender and its number. The files are written in a temporary
directory of that index and sender, which becomes the final one with the last chunk; a first
chunk begins the transfer anew. -/

namespace Armada.Transport

open Program List Function Option

section

variable {F M : Type}

structure Chunk (F M : Type) where
  sender : ℕ
  index : ℕ
  chunkId : ℕ
  fileChunkId : ℕ
  /-- the name of the file it belongs to -/
  file : ℕ
  /-- the file is not the snapshot's main file -/
  hasFileInfo : Bool
  fileInfo : F
  data : List UInt8
  isLast : Bool
  /-- the rest of what it says of the snapshot -/
  info : M

/-- What one sender sends for one snapshot. -/
structure SnapshotStream (F M : Type) where
  sender : ℕ
  index : ℕ
  chunks : List (Chunk F M)
  numbered : ∀ i c, chunks[i]? = some c →
    c.chunkId = i ∧ c.sender = sender ∧ c.index = index ∧ (c.isLast ↔ i + 1 = chunks.length)

/-- The files of a directory. -/
abbrev Dir := ℕ → Option (List UInt8)

/-- A chunk creates its file or is appended to it, which then must exist. -/
def saveTo (d : Dir) (c : Chunk F M) : Option Dir :=
  if c.fileChunkId = 0 then some (Function.update d c.file (some c.data))
  else (d c.file).map fun data => Function.update d c.file (some (data ++ c.data))

def saveAll (d : Dir) : List (Chunk F M) → Option Dir
  | [] => some d
  | c :: cs => (saveTo d c).bind fun d => saveAll d cs

def fileInfoOf (c : Chunk F M) : List F := if c.fileChunkId = 0 && c.hasFileInfo then [c.fileInfo] else []

def fileInfos (cs : List (Chunk F M)) : List F := cs.flatMap fileInfoOf

/-- The checker for the main file: it takes chunk by chunk or refuses. -/
structure Validator (V : Type) where
  new : V
  addChunk : V → List UInt8 → ℕ → Option V
  validate : V → Bool

variable {V : Type}

structure Tracked (F M V : Type) where
  next : ℕ
  first : Chunk F M
  validator : V
  files : List F
  /-- the stream whose first chunk began the transfer -/
  stream : ℕ

/-- An InstallSnapshot message with the files in the final directory at that time. -/
structure Installed (F M : Type) where
  first : Chunk F M
  files : List F
  dir : Dir

structure Receiver (F M V : Type) where
  tracked : ℕ → Option (Tracked F M V)
  /-- what the timeout collection has copied -/
  view : ℕ → Option (Tracked F M V)
  temp : ℕ → ℕ → Option Dir
  final : ℕ → Option Dir
  /-- the replica is marked as deleted -/
  deleted : Bool
  /-- how many chunks of a stream have arrived -/
  sent : ℕ → ℕ
  /-- a stream ends with a chunk that is rejected -/
  stopped : ℕ → Bool
  installed : List (Installed F M)

inductive ChunkEvent where
  /-- the next chunk of a stream arrives, while the table of transfers may be full -/
  | chunk (stream : ℕ) (full : Bool)
  /-- the timeout collection copies the table -/
  | gcCopy
  /-- and gives up a transfer that it has copied -/
  | gcOne (index : ℕ)
  | markDeleted
  /-- a snapshot is not needed any more -/
  | removeFinal (index : ℕ)

namespace Receiver

variable (vd : Validator V) (s : Receiver F M V)

def setTracked (index : ℕ) (td : Option (Tracked F M V)) : Receiver F M V :=
  { s with tracked := Function.update s.tracked index td }

def setTemp (index sender : ℕ) (d : Option Dir) : Receiver F M V :=
  { s with temp := Function.update s.temp index (Function.update (s.temp index) sender d) }

def removeTempDir (c : Chunk F M) : Receiver F M V := s.setTemp c.index c.sender none

/-- A first chunk begins a transfer if the checker takes it. -/
def begin (stream : ℕ) (c : Chunk F M) : Receiver F M V × Option (Tracked F M V) :=
  match if c.hasFileInfo then some vd.new else vd.addChunk vd.new c.data c.chunkId with
  | none => (s, none)
  | some v =>
    let td := ⟨1, c, v, fileInfoOf c, stream⟩
    (s.setTracked c.index (some td), some td)

def record (stream : ℕ) (c : Chunk F M) (full : Bool) : Receiver F M V × Option (Tracked F M V) :=
  if c.chunkId = 0 then
    match s.tracked c.index with
    -- the transfer that is under way is given up
    | some td => (s.removeTempDir td.first).begin vd stream c
    | none => if full then (s, none) else s.begin vd stream c
  else
    match s.tracked c.index with
    | none => (s, none)
    | some td =>
      if td.next ≠ c.chunkId then (s, none)
      else if td.first.sender ≠ c.sender then (s, none)
      else
        let td := { td with next := c.chunkId + 1, files := td.files ++ fileInfoOf c }
        (s.setTracked c.index (some td), some td)

/-- The directory is created where it does not exist, and not emptied where it does. -/
def createTempDir (c : Chunk F M) : Receiver F M V :=
  if (s.temp c.index c.sender).isSome then s else s.setTemp c.index c.sender (some fun _ => none)

def save (c : Chunk F M) : Option (Receiver F M V) :=
  let s := if c.chunkId = 0 then s.createTempDir c else s
  (s.temp c.index c.sender).bind fun d => (saveTo d c).map fun d => s.setTemp c.index c.sender (some d)

/-- The last chunk: the transfer ends, in a snapshot if the checker agrees and there is none. -/
def finish (c : Chunk F M) (td : Tracked F M V) : Receiver F M V × Bool :=
  let s := s.setTracked c.index none
  if !vd.validate td.validator then (s.removeTempDir c, false)
  else
    match s.final c.index, s.temp c.index c.sender with
    | none, some d =>
      ({ s.removeTempDir c with
        final := Function.update s.final c.index (some d)
        installed := s.installed ++ [⟨td.first, td.files, d⟩] }, true)
    | _, _ => (s.removeTempDir c, false)

def checkChunk (td : Tracked F M V) (c : Chunk F M) : Option V :=
  if !c.hasFileInfo && c.chunkId ≠ 0 then vd.addChunk td.validator c.data c.chunkId else some td.validator

/-- The chunk and whether it was accepted. A file system error ends the process. -/
def addLocked (stream : ℕ) (c : Chunk F M) (full : Bool) : Option (Receiver F M V × Bool) :=
  match s.record vd stream c full with
  | (s, none) => some (s, false)
  | (s, some td) =>
    if s.deleted then some (s.removeTempDir c, false)
    else
      match checkChunk vd td c with
      | none => some (s, false)
      | some v =>
        let td := { td with validator := v }
        ((s.setTracked c.index (some td)).save c).map fun s => if c.isLast then s.finish vd c td else (s, true)

def step (streams : ℕ → SnapshotStream F M) : ChunkEvent → Receiver F M V → Option (Receiver F M V)
  | .chunk stream full, s =>
    if s.stopped stream then none
    else
      (streams stream).chunks[s.sent stream]?.bind fun c =>
        (s.addLocked vd stream c full).map fun r => { r.1 with
          sent := Function.update s.sent stream (s.sent stream + 1)
          stopped := Function.update s.stopped stream (!r.2) }
  | .gcCopy, s => some { s with view := s.tracked }
  | .gcOne index, s => (s.view index).map fun td => (s.removeTempDir td.first).setTracked index none
  | .markDeleted, s => some { s with deleted := true }
  | .removeFinal index, s => some { s with final := Function.update s.final index none }

/-- No transfer is under way. -/
def init (final : ℕ → Option Dir) : Receiver F M V :=
  ⟨fun _ => none, fun _ => none, fun _ _ => none, final, false, fun _ => 0, fun _ => false, []⟩

/-- The condition on a step. A chunk that a transfer takes is of the stream that began it, and
the timeout collection does not end the transfer of one sender in the place of another's. -/
def Separate (streams : ℕ → SnapshotStream F M) : ChunkEvent → Receiver F M V → Prop
  | .chunk stream _, s => ∀ td ∈ s.tracked (streams stream).index, 0 < s.sent stream →
    td.next = s.sent stream → td.first.sender = (streams stream).sender → td.stream = stream
  | .gcOne index, s => ∀ old ∈ s.view index, ∀ td ∈ s.tracked index, td.first.sender = old.first.sender
  | _, _ => True

instance Separate.decidable (streams : ℕ → SnapshotStream F M) (e : ChunkEvent) (s : Receiver F M V) :
    Decidable (Separate streams e s) := by
  cases e <;> unfold Separate <;> infer_instance

/-! ### What the steps keep -/

/-- The message and the files are those of a stream that has arrived as a whole. -/
def Genuine (streams : ℕ → SnapshotStream F M) (sent : ℕ → ℕ) (m : Installed F M) : Prop :=
  ∃ stream, sent stream = (streams stream).chunks.length ∧ (streams stream).chunks[0]? = some m.first ∧
    m.files = fileInfos (streams stream).chunks ∧ saveAll (fun _ => none) (streams stream).chunks = some m.dir

/-- A transfer belongs to one stream, and unless that has ended its files are what has arrived of it. -/
structure Tracks (streams : ℕ → SnapshotStream F M) (s : Receiver F M V) (index : ℕ) (td : Tracked F M V) : Prop where
  first : (streams td.stream).chunks[0]? = some td.first
  place : (streams td.stream).index = index
  pos : 0 < td.next
  le : td.next ≤ s.sent td.stream
  alone : ∀ sender, sender ≠ td.first.sender → s.temp index sender = none
  live : s.stopped td.stream = false → td.next = s.sent td.stream ∧
    td.files = fileInfos ((streams td.stream).chunks.take td.next) ∧
    ∀ d, s.temp index td.first.sender = some d →
      saveAll (fun _ => none) ((streams td.stream).chunks.take td.next) = some d

structure Tidy (streams : ℕ → SnapshotStream F M) (s : Receiver F M V) : Prop where
  free : ∀ index, s.tracked index = none → ∀ sender, s.temp index sender = none
  tracks : ∀ index td, s.tracked index = some td → Tracks streams s index td
  view : ∀ index td, s.view index = some td → td.first.index = index
  genuine : ∀ m ∈ s.installed, Genuine streams s.sent m

section

variable {vd} {streams : ℕ → SnapshotStream F M} {s s' : Receiver F M V}

theorem tidy_init (final : ℕ → Option Dir) : Tidy streams (init final : Receiver F M V) :=
  ⟨fun _ _ _ => rfl, by simp [init], by simp [init], by simp [init]⟩

variable {index stream : ℕ} {full : Bool} {d : Dir}

theorem Tracks.first_index {td : Tracked F M V} (h : Tracks streams s index td) : td.first.index = index :=
  ((streams td.stream).numbered 0 td.first h.first).2.2.1.trans h.place

/-- A transfer stays what it was when nothing arrives for it but a chunk that is rejected. -/
theorem Tracks.keep {td : Tracked F M V} (h : Tracks streams s index td) (hsent : s.sent td.stream ≤ s'.sent td.stream)
    (htemp : ∀ sender, s'.temp index sender = s.temp index sender ∨ s'.temp index sender = none)
    (hlive : s'.stopped td.stream = false → s.stopped td.stream = false ∧ s'.sent td.stream = s.sent td.stream) :
    Tracks streams s' index td := { h with
  le := Nat.le_trans h.le hsent
  alone sender hne := by
    rcases htemp sender with heq | heq
    · rw [heq]
      exact h.alone sender hne
    · exact heq
  live hstopped := by
    obtain ⟨hopen, hsame⟩ := hlive hstopped
    obtain ⟨hnext, hfiles, hdir⟩ := h.live hopen
    refine ⟨hnext.trans hsame.symm, hfiles, fun d hd => hdir d ?_⟩
    rcases htemp td.first.sender with heq | heq
    · rwa [heq] at hd
    · rw [heq] at hd
      cases hd }

/-- The two states differ at one index only. -/
structure Elsewhere (index : ℕ) (s s' : Receiver F M V) : Prop where
  view : s'.view = s.view
  tracked : ∀ j, j ≠ index → s'.tracked j = s.tracked j
  temp : ∀ j, j ≠ index → s'.temp j = s.temp j

theorem Elsewhere.refl (index : ℕ) (s : Receiver F M V) : Elsewhere index s s := ⟨rfl, fun _ _ => rfl, fun _ _ => rfl⟩

theorem Elsewhere.setTracked (h : Elsewhere index s s') (td : Option (Tracked F M V)) :
    Elsewhere index s (s'.setTracked index td) :=
  ⟨h.view, fun j hj => by rw [← h.tracked j hj]; exact update_of_ne hj _ _, h.temp⟩

theorem Elsewhere.setTemp (h : Elsewhere index s s') (sender : ℕ) (d : Option Dir) :
    Elsewhere index s (s'.setTemp index sender d) :=
  ⟨h.view, h.tracked, fun j hj => by rw [← h.temp j hj]; exact update_of_ne hj _ _⟩

@[simp] theorem tracked_setTracked (s : Receiver F M V) (index : ℕ) (td : Option (Tracked F M V)) :
    (s.setTracked index td).tracked index = td := update_self _ _ _

theorem temp_setTemp (s : Receiver F M V) (index sender sender' : ℕ) (d : Option Dir) :
    (s.setTemp index sender d).temp index sender' = if sender' = sender then d else s.temp index sender' := by
  simp only [setTemp, update_self]
  by_cases h : sender' = sender
  · rw [h, update_self, if_pos rfl]
  · rw [update_of_ne h, if_neg h]

theorem Tidy.arrive (h : Tidy streams s) {accepted : Bool}
    (hmore : s.sent stream < (streams stream).chunks.length) (helse : Elsewhere (streams stream).index s s')
    (hsent : s'.sent = Function.update s.sent stream (s.sent stream + 1))
    (hstopped : s'.stopped = Function.update s.stopped stream (!accepted))
    (hfree : s'.tracked (streams stream).index = none → ∀ sender, s'.temp (streams stream).index sender = none)
    (htracks : ∀ td, s'.tracked (streams stream).index = some td → Tracks streams s' (streams stream).index td)
    (hinstalled : ∀ m ∈ s'.installed, m ∈ s.installed ∨ Genuine streams s'.sent m) : Tidy streams s' := by
  have hother : ∀ other, other ≠ stream → s'.sent other = s.sent other ∧ s'.stopped other = s.stopped other :=
    fun other hne => by
    rw [hsent, hstopped, update_of_ne hne, update_of_ne hne]
    exact ⟨rfl, rfl⟩
  refine ⟨fun index hnone sender => ?_, fun index td htd => ?_, by rw [helse.view]; exact h.view, fun m hm => ?_⟩
  · by_cases hindex : index = (streams stream).index
    · subst hindex
      exact hfree hnone sender
    · rw [helse.tracked index hindex] at hnone
      rw [helse.temp index hindex]
      exact h.free index hnone sender
  · by_cases hindex : index = (streams stream).index
    · subst hindex
      exact htracks td htd
    · rw [helse.tracked index hindex] at htd
      have htd := h.tracks index td htd
      have hne : td.stream ≠ stream := fun heq => hindex (by rw [← htd.place, heq])
      obtain ⟨hsame, hsame'⟩ := hother td.stream hne
      refine htd.keep (Nat.le_of_eq hsame.symm) (fun sender => .inl (by rw [helse.temp index hindex])) fun hopen => ?_
      exact ⟨hsame' ▸ hopen, hsame⟩
  · rcases hinstalled m hm with hold | hnew
    · obtain ⟨other, hlength, hrest⟩ := h.genuine m hold
      have hne : other ≠ stream := fun heq => by
        rw [heq] at hlength
        omega
      exact ⟨other, (hother other hne).1.trans hlength, hrest⟩
    · exact hnew

theorem saveAll_concat (d : Dir) (cs : List (Chunk F M)) (c : Chunk F M) :
    saveAll d (cs ++ [c]) = (saveAll d cs).bind fun d => saveTo d c := by
  induction cs generalizing d with
  | nil => simp [saveAll]
  | cons c' cs ih => simp only [cons_append, saveAll, bind_assoc, ih]

theorem fileInfos_concat (cs : List (Chunk F M)) (c : Chunk F M) :
    fileInfos (cs ++ [c]) = fileInfos cs ++ fileInfoOf c := by
  simp [fileInfos]

theorem take_concat {cs : List (Chunk F M)} {k : ℕ} {c : Chunk F M} (h : cs[k]? = some c) :
    cs.take (k + 1) = cs.take k ++ [c] := by
  rw [take_add_one, h, toList_some]

theorem begin_eq {c : Chunk F M} {s1 : Receiver F M V} {res : Option (Tracked F M V)}
    (h : s.begin vd stream c = (s1, res)) : res = none ∧ s1 = s ∨
    ∃ v, res = some ⟨1, c, v, fileInfoOf c, stream⟩ ∧ s1 =
    s.setTracked c.index (some ⟨1, c, v, fileInfoOf c, stream⟩) := by
  rw [begin] at h
  split at h
  · cases h
    exact .inl ⟨rfl, rfl⟩
  · rename_i v _
    cases h
    exact .inr ⟨v, rfl, rfl⟩

/-- What a chunk finds that is not refused by its number or its sender. -/
structure Recorded (streams : ℕ → SnapshotStream F M) (s s1 : Receiver F M V) (stream : ℕ) (c : Chunk F M)
    (td : Tracked F M V) :
    Prop where
  elsewhere : Elsewhere (streams stream).index s s1
  installed : s1.installed = s.installed
  tracked : s1.tracked (streams stream).index = some td
  owner : td.stream = stream
  first : (streams stream).chunks[0]? = some td.first
  next : td.next = s.sent stream + 1
  files : td.files = fileInfos ((streams stream).chunks.take (s.sent stream + 1))
  alone : ∀ sender, sender ≠ (streams stream).sender → s1.temp (streams stream).index sender = none
  dir : ∀ d, s1.temp (streams stream).index (streams stream).sender = some d →
    saveAll (fun _ => none) ((streams stream).chunks.take (s.sent stream)) = some d
  start : s.sent stream = 0 → s1.temp (streams stream).index (streams stream).sender = none

variable {c : Chunk F M} {s1 s2 : Receiver F M V} {td td' : Tracked F M V}

theorem recorded_begin {s0 : Receiver F M V} (hc : (streams stream).chunks[s.sent stream]? = some c)
    (hfirst : c.chunkId = 0) (helse : Elsewhere (streams stream).index s s0) (hinstalled : s0.installed = s.installed)
    (hfree : ∀ sender, s0.temp (streams stream).index sender = none) (h : s0.begin vd stream c = (s1, some td)) :
    Recorded streams s s1 stream c td := by
  obtain ⟨hnumber, hsender, hindex, -⟩ := (streams stream).numbered _ _ hc
  have hzero : s.sent stream = 0 := hnumber.symm.trans hfirst
  rcases begin_eq h with ⟨hnone, -⟩ | ⟨v, hsome, rfl⟩
  · cases hnone
  · cases hsome
    rw [hindex]
    rw [hzero] at hc
    refine ⟨helse.setTracked _, hinstalled, tracked_setTracked _ _ _, rfl, hc, by simp [hzero], ?_,
      fun sender _ => hfree sender, fun d hd => ?_, fun _ => hfree _⟩
    · rw [hzero, take_concat hc]
      simp [fileInfos]
    · cases (hfree _).symm.trans hd

theorem record_some (h : Tidy streams s)
    (hstopped : s.stopped stream = false) (hc : (streams stream).chunks[s.sent stream]? = some c)
    (hseparate : Separate streams (.chunk stream full) s)
    (hrecord : s.record vd stream c full = (s1, some td)) : Recorded streams s s1 stream c td := by
  obtain ⟨hnumber, hsender, hindex, -⟩ := (streams stream).numbered _ _ hc
  rw [record] at hrecord
  by_cases hfirst : c.chunkId = 0
  · rw [if_pos hfirst] at hrecord
    split at hrecord
    · rename_i old hold
      rw [hindex] at hold
      have htracks := h.tracks _ _ hold
      have helse : Elsewhere (streams stream).index s (s.removeTempDir old.first) := by
        rw [removeTempDir, htracks.first_index]
        exact (Elsewhere.refl _ s).setTemp _ _
      have hfree : ∀ sender, (s.removeTempDir old.first).temp (streams stream).index sender = none := fun sender => by
        rw [removeTempDir, htracks.first_index, temp_setTemp]
        split_ifs with hsame
        · rfl
        · exact htracks.alone sender hsame
      exact recorded_begin hc hfirst helse rfl hfree hrecord
    · rename_i hnone
      rw [hindex] at hnone
      split_ifs at hrecord
      · cases hrecord
      exact recorded_begin hc hfirst (.refl _ s) rfl (h.free _ hnone) hrecord
  · rw [if_neg hfirst] at hrecord
    split at hrecord
    · cases hrecord
    · rename_i old hold
      rw [hindex] at hold
      split_ifs at hrecord with hnext hsame
      · cases hrecord
      · cases hrecord
      cases hrecord
      simp only [ne_eq, Decidable.not_not] at hnext hsame
      have htracks := h.tracks _ _ hold
      have hstream : old.stream = stream :=
        hseparate old hold (by omega) (hnext.trans hnumber) (hsame.trans hsender)
      obtain ⟨-, hfiles, hdir⟩ := htracks.live (by rw [hstream]; exact hstopped)
      rw [hstream, hnext, hnumber] at hfiles hdir
      rw [hindex]
      refine ⟨(Elsewhere.refl _ s).setTracked _, rfl, tracked_setTracked _ _ _, hstream, hstream ▸ htracks.first,
        by simp [hnumber], ?_, fun sender hne => htracks.alone sender (by rwa [hsame, hsender]),
        fun d hd => hdir d (by rwa [hsame, hsender]), fun hzero => absurd (hnumber.trans hzero) hfirst⟩
      rw [take_concat hc, fileInfos_concat]
      simp only [hfiles]

theorem record_none (h : Tidy streams s) (hc : (streams stream).chunks[s.sent stream]? = some c)
    (hrecord : s.record vd stream c full = (s1, none)) :
    Elsewhere (streams stream).index s s1 ∧ s1.installed = s.installed ∧ s1.tracked = s.tracked ∧
    ∀ sender, s1.temp (streams stream).index sender = s.temp (streams stream).index sender ∨
    s1.temp (streams stream).index sender = none := by
  obtain ⟨-, -, hindex, -⟩ := (streams stream).numbered _ _ hc
  have hsame : Elsewhere (streams stream).index s s ∧ s.installed = s.installed ∧ s.tracked = s.tracked ∧
      ∀ sender, s.temp (streams stream).index sender = s.temp (streams stream).index sender ∨
        s.temp (streams stream).index sender = none := ⟨.refl _ s, rfl, rfl, fun _ => .inl rfl⟩
  rw [record] at hrecord
  by_cases hfirst : c.chunkId = 0
  · rw [if_pos hfirst] at hrecord
    split at hrecord
    · rename_i old hold
      rw [hindex] at hold
      rcases begin_eq hrecord with ⟨-, rfl⟩ | ⟨v, hsome, -⟩
      · rw [removeTempDir, (h.tracks _ _ hold).first_index]
        refine ⟨(Elsewhere.refl _ s).setTemp _ _, rfl, rfl, fun sender => ?_⟩
        rw [temp_setTemp]
        split_ifs
        · exact .inr rfl
        · exact .inl rfl
      · cases hsome
    · split_ifs at hrecord
      · cases hrecord
        exact hsame
      · rcases begin_eq hrecord with ⟨-, rfl⟩ | ⟨v, hsome, -⟩
        · exact hsame
        · cases hsome
  · rw [if_neg hfirst] at hrecord
    split at hrecord
    · cases hrecord
      exact hsame
    · split_ifs at hrecord
      · cases hrecord
        exact hsame
      · cases hrecord
        exact hsame
      · cases hrecord

theorem Recorded.save (h : Recorded streams s s1 stream c td) (hc : (streams stream).chunks[s.sent stream]? = some c)
    (hsave : (s1.setTracked c.index (some td')).save c = some s2) :
    Elsewhere (streams stream).index s s2 ∧ s2.installed = s.installed ∧ s2.tracked (streams stream).index = some td' ∧
    (∀ sender, sender ≠ (streams stream).sender → s2.temp (streams stream).index sender = none) ∧
    ∃ d, s2.temp (streams stream).index (streams stream).sender = some d ∧
    saveAll (fun _ => none) ((streams stream).chunks.take (s.sent stream + 1)) = some d := by
  obtain ⟨hnumber, hsender, hindex, -⟩ := (streams stream).numbered _ _ hc
  rw [hindex] at hsave
  simp only [Receiver.save, hindex, hsender] at hsave
  -- the directory before the chunk holds what arrived before
  have hbefore : ∀ s0 : Receiver F M V,
      s0 = (if c.chunkId = 0 then (s1.setTracked (streams stream).index (some td')).createTempDir c
        else s1.setTracked (streams stream).index (some td')) →
      Elsewhere (streams stream).index s s0 ∧ s0.installed = s.installed ∧ s0.tracked (streams stream).index =
        some td' ∧ (∀ sender, sender ≠ (streams stream).sender → s0.temp (streams stream).index sender = none) ∧
        ∀ d, s0.temp (streams stream).index (streams stream).sender = some d →
          saveAll (fun _ => none) ((streams stream).chunks.take (s.sent stream)) = some d := by
    intro s0 hs0
    split_ifs at hs0 with hfirst
    · have hzero : s.sent stream = 0 := hnumber.symm.trans hfirst
      rw [createTempDir, hindex, hsender, if_neg (by
        rw [show (s1.setTracked (streams stream).index (some td')).temp = s1.temp from rfl, h.start hzero]
        simp)] at hs0
      subst hs0
      refine ⟨(h.elsewhere.setTracked _).setTemp _ _, h.installed, tracked_setTracked _ _ _, fun sender hne =>
        ?_, fun d hd => ?_⟩
      · rw [temp_setTemp, if_neg hne]
        exact h.alone sender hne
      · rw [temp_setTemp, if_pos rfl] at hd
        rw [hzero]
        exact hd
    · subst hs0
      exact ⟨h.elsewhere.setTracked _, h.installed, tracked_setTracked _ _ _, h.alone, h.dir⟩
  obtain ⟨helse, hinstalled, htracked, halone, hdir⟩ := hbefore _ rfl
  obtain ⟨d, hd, hsave⟩ := bind_eq_some_iff.mp hsave
  obtain ⟨d', hd', rfl⟩ := map_eq_some_iff.mp hsave
  refine ⟨helse.setTemp _ _, hinstalled, htracked, fun sender hne => ?_, d', ?_, ?_⟩
  · rw [temp_setTemp, if_neg hne]
    exact halone sender hne
  · rw [temp_setTemp, if_pos rfl]
  · rw [take_concat hc, saveAll_concat, hdir d hd]
    exact hd'

/-- A chunk that was recorded leaves the transfer with all that has arrived of the stream, unless that is given up. -/
theorem Recorded.tracks (h : Recorded streams s s1 stream c td) (v : V) (hsent : s2.sent stream = s.sent stream + 1)
    (halone : ∀ sender, sender ≠ (streams stream).sender → s2.temp (streams stream).index sender = none)
    (hdir : s2.stopped stream = false → ∀ d, s2.temp (streams stream).index (streams stream).sender = some d →
      saveAll (fun _ => none) ((streams stream).chunks.take (s.sent stream + 1)) = some d) :
    Tracks streams s2 (streams stream).index { td with validator := v } where
  first := by rw [h.owner]; exact h.first
  place := by rw [h.owner]
  pos := by rw [h.next]; omega
  le := Nat.le_of_eq (by rw [h.owner, hsent, h.next])
  alone sender hne := halone sender (by rwa [((streams stream).numbered 0 _ h.first).2.1] at hne)
  live hopen := by
    rw [h.owner] at hopen
    rw [h.owner, hsent, h.next, ((streams stream).numbered 0 _ h.first).2.1]
    exact ⟨rfl, h.files, hdir hopen⟩

variable (vd) in
theorem finish_spec (td : Tracked F M V) (hc : (streams stream).chunks[s.sent stream]? = some c) (hlast : c.isLast)
    (helse : Elsewhere (streams stream).index s s2) (hinstalled : s2.installed = s.installed)
    (halone : ∀ sender, sender ≠ (streams stream).sender → s2.temp (streams stream).index sender = none)
    (hd : s2.temp (streams stream).index (streams stream).sender = some d)
    (hfirst : (streams stream).chunks[0]? = some td.first)
    (hfiles : td.files = fileInfos ((streams stream).chunks.take (s.sent stream + 1)))
    (hdir : saveAll (fun _ => none) ((streams stream).chunks.take (s.sent stream + 1)) = some d) :
    Elsewhere (streams stream).index s (s2.finish vd c td).1 ∧
    (s2.finish vd c td).1.tracked (streams stream).index = none ∧
    (∀ sender, (s2.finish vd c td).1.temp (streams stream).index sender = none) ∧
    ∀ m ∈ (s2.finish vd c td).1.installed, m ∈ s.installed ∨
    Genuine streams (Function.update s.sent stream (s.sent stream + 1)) m := by
  obtain ⟨-, hsender, hindex, hlength⟩ := (streams stream).numbered _ _ hc
  have hlength := hlength.mp hlast
  rw [hlength, take_length] at hfiles hdir
  have hgone : ∀ s3 : Receiver F M V, s3 = (s2.setTracked (streams stream).index none).removeTempDir c →
      Elsewhere (streams stream).index s s3 ∧ s3.tracked (streams stream).index = none ∧
        (∀ sender, s3.temp (streams stream).index sender = none) ∧ s3.installed = s.installed := by
    rintro s3 rfl
    rw [removeTempDir, hindex, hsender]
    refine ⟨(helse.setTracked _).setTemp _ _, tracked_setTracked _ _ _, fun sender => ?_, hinstalled⟩
    rw [temp_setTemp]
    split_ifs with hsame
    · rfl
    · exact halone sender hsame
  obtain ⟨helse', htracked', htemp', hinstalled'⟩ := hgone _ rfl
  have hrefused : ∀ m ∈ ((s2.setTracked (streams stream).index none).removeTempDir c).installed, m ∈ s.installed ∨
      Genuine streams (Function.update s.sent stream (s.sent stream + 1)) m := fun m hm => .inl (hinstalled' ▸ hm)
  simp only [finish, hindex]
  split_ifs
  · exact ⟨helse', htracked', htemp', hrefused⟩
  · split
    · rename_i d' hfinal hd'
      rw [show (s2.setTracked (streams stream).index none).temp = s2.temp from rfl, hsender, hd] at hd'
      cases hd'
      refine ⟨⟨helse'.view, helse'.tracked, helse'.temp⟩, htracked', htemp', fun m hm => ?_⟩
      simp only [mem_append, mem_singleton] at hm
      rcases hm with hm | rfl
      · exact .inl (hinstalled ▸ hm)
      · exact .inr ⟨stream, by rw [update_self, hlength], hfirst, hfiles, hdir⟩
    · exact ⟨helse', htracked', htemp', hrefused⟩

theorem Tidy.chunk (h : Tidy streams s) (hopen : s.stopped stream = false)
    (hc : (streams stream).chunks[s.sent stream]? = some c) (hseparate : Separate streams (.chunk stream full) s)
    {r : Receiver F M V × Bool} (hadd : s.addLocked vd stream c full = some r) : Tidy streams { r.1 with
      sent := Function.update s.sent stream (s.sent stream + 1)
      stopped := Function.update s.stopped stream (!r.2) } := by
  obtain ⟨-, hsender, hindex, -⟩ := (streams stream).numbered _ _ hc
  have hmore : s.sent stream < (streams stream).chunks.length := (List.getElem?_eq_some_iff.mp hc).1
  rw [addLocked] at hadd
  split at hadd
  case h_1 s1 hrecord =>
    cases hadd
    obtain ⟨helse, hinstalled, htracked, htemp⟩ := record_none h hc hrecord
    refine h.arrive hmore ⟨helse.view, helse.tracked, helse.temp⟩ rfl rfl (fun hnone sender => ?_) (fun td htd => ?_)
      fun m hm => .inl (hinstalled ▸ hm)
    · simp only [htracked] at hnone
      rcases htemp sender with heq | heq
      · exact heq.trans (h.free _ hnone sender)
      · exact heq
    · simp only [htracked] at htd
      refine (h.tracks _ td htd).keep ?_ htemp fun hstopped => ?_
      · by_cases heq : td.stream = stream
        · simp only [heq, update_self]
          omega
        · simp only [update_of_ne heq]
          exact Nat.le_refl _
      · by_cases heq : td.stream = stream
        · simp [heq] at hstopped
        · simp only [update_of_ne heq] at hstopped ⊢
          exact ⟨hstopped, trivial⟩
  case h_2 s1 td hrecord =>
    have hrecorded := record_some h hopen hc hseparate hrecord
    split at hadd
    · cases hadd
      rw [removeTempDir, hindex, hsender]
      have helse := hrecorded.elsewhere.setTemp (streams stream).sender none
      refine h.arrive hmore ⟨helse.view, helse.tracked, helse.temp⟩ rfl rfl (fun hnone => ?_) (fun td' htd' => ?_)
        fun m hm => .inl (hrecorded.installed ▸ hm)
      · cases hrecorded.tracked.symm.trans hnone
      · cases hrecorded.tracked.symm.trans htd'
        refine hrecorded.tracks td.validator (update_self _ _ _) (fun sender hne => ?_) (by simp)
        exact (temp_setTemp _ _ _ _ _).trans ((if_neg hne).trans (hrecorded.alone sender hne))
    · split at hadd
      · cases hadd
        refine h.arrive hmore ⟨hrecorded.elsewhere.view, hrecorded.elsewhere.tracked, hrecorded.elsewhere.temp⟩ rfl rfl
          (fun hnone => ?_) (fun td' htd' => ?_) fun m hm => .inl (hrecorded.installed ▸ hm)
        · cases hrecorded.tracked.symm.trans hnone
        · cases hrecorded.tracked.symm.trans htd'
          exact hrecorded.tracks td.validator (update_self _ _ _) hrecorded.alone (by simp)
      · rename_i v _
        obtain ⟨s2, hsave, rfl⟩ := map_eq_some_iff.mp hadd
        obtain ⟨helse, hinstalled, htracked, halone, d, hd, hdir⟩ := hrecorded.save hc hsave
        split_ifs with hlast
        · obtain ⟨helse', htracked', htemp', hinstalled'⟩ := finish_spec vd { td with validator := v } hc hlast
            helse hinstalled halone hd hrecorded.first hrecorded.files hdir
          refine h.arrive hmore ⟨helse'.view, helse'.tracked, helse'.temp⟩ rfl rfl (fun _ => htemp')
            (fun td' htd' => ?_)
            hinstalled'
          cases htracked'.symm.trans htd'
        · refine h.arrive hmore ⟨helse.view, helse.tracked, helse.temp⟩ rfl rfl (fun hnone => ?_) (fun td' htd' => ?_)
            fun m hm => .inl (hinstalled ▸ hm)
          · cases htracked.symm.trans hnone
          · cases htracked.symm.trans htd'
            exact hrecorded.tracks v (update_self _ _ _) halone fun _ d' hd' => by rwa [← hd, hd'] at hdir

theorem Tidy.step (h : Tidy streams s) {e : ChunkEvent} (hseparate : Separate streams e s)
    (hstep : Receiver.step vd streams e s = some s') : Tidy streams s' := by
  cases e with
  | chunk stream full =>
    simp only [Receiver.step] at hstep
    split_ifs at hstep with hstopped
    obtain ⟨c, hc, hstep⟩ := bind_eq_some_iff.mp hstep
    obtain ⟨r, hr, rfl⟩ := map_eq_some_iff.mp hstep
    exact h.chunk (by simpa using hstopped) hc hseparate hr
  | gcCopy =>
    cases hstep
    exact ⟨h.free, fun index td htd =>
      (h.tracks index td htd).keep (Nat.le_refl _) (fun _ => .inl rfl) fun hopen => ⟨hopen, rfl⟩,
      fun index td htd => (h.tracks index td htd).first_index, h.genuine⟩
  | gcOne index =>
    obtain ⟨old, hold, rfl⟩ := map_eq_some_iff.mp hstep
    rw [removeTempDir, h.view index old hold]
    have helse := ((Elsewhere.refl index s).setTemp old.first.sender none).setTracked none
    have hgone : ∀ sender, (s.setTemp index old.first.sender none).temp index sender = none := fun sender => by
      rw [temp_setTemp]
      split_ifs with hsame
      · rfl
      · cases htd : s.tracked index with
        | none => exact h.free index htd sender
        | some td => exact (h.tracks index td htd).alone sender (by rwa [hseparate old hold td htd])
    refine ⟨fun j hnone sender => ?_, fun j td htd => ?_, h.view, h.genuine⟩
    · by_cases hj : j = index
      · subst hj
        exact hgone sender
      · rw [helse.tracked j hj] at hnone
        rw [helse.temp j hj]
        exact h.free j hnone sender
    · by_cases hj : j = index
      · subst hj
        rw [tracked_setTracked] at htd
        cases htd
      · rw [helse.tracked j hj] at htd
        exact (h.tracks j td htd).keep (Nat.le_refl _) (fun _ => .inl (by rw [helse.temp j hj])) fun hopen =>
          ⟨hopen, rfl⟩
  | markDeleted | removeFinal index =>
    cases hstep
    exact ⟨h.free, fun index td htd =>
      (h.tracks index td htd).keep (Nat.le_refl _) (fun _ => .inl rfl) fun hopen => ⟨hopen, rfl⟩,
      h.view, h.genuine⟩

end

/-- Whenever an InstallSnapshot message is emitted, the files in the final directory and the
message are those of one stream, all of whose chunks have arrived. -/
theorem installed_is_one_stream (streams : ℕ → SnapshotStream F M) (final : ℕ → Option Dir) (es : List ChunkEvent)
    (hseparate : Throughout (step vd streams) (Separate streams) es (init final)) (s : Receiver F M V)
    (hrun : runMachine (step vd streams) es (init final) = some s) : ∀ m ∈ s.installed, Genuine streams s.sent m :=
  (runMachine_keeps_of (fun _ _ _ hseparate h hstep => Tidy.step h hseparate hstep) hseparate
    (tidy_init final) hrun).genuine

/-- A checker that takes everything. -/
def trusting : Validator Unit := ⟨(), fun _ _ _ => some (), fun _ => true⟩

/-- A snapshot of a main file and a second file in two chunks, with one byte in each. -/
def threeChunks (sender index : ℕ) (byte : UInt8) : SnapshotStream Unit Unit where
  sender := sender
  index := index
  chunks := [⟨sender, index, 0, 0, 0, false, (), [byte], false, ()⟩,
    ⟨sender, index, 1, 0, 1, true, (), [byte], false, ()⟩, ⟨sender, index, 2, 1, 1, true, (), [byte], true, ()⟩]
  numbered i c h := by
    rcases i with _ | _ | _ | i
    · cases h; simp
    · cases h; simp
    · cases h; simp
    · simp at h

/-- Two senders at one index and a second snapshot of the first. -/
def threeStreams : ℕ → SnapshotStream Unit Unit
  | 0 => threeChunks 1 9 10
  | 1 => threeChunks 2 9 20
  | _ => threeChunks 1 9 30

/-- The second sender begins its transfer in the place of the first one's. -/
def twoSenders : List ChunkEvent :=
  [.chunk 0 false, .chunk 1 false, .gcCopy, .chunk 0 false, .chunk 1 false, .chunk 1 false, .gcOne 9]

theorem installed_is_one_stream_twoSenders :
    ∃ s, runMachine (step trusting threeStreams) twoSenders (init fun _ => none) = some s ∧
      s.installed.length = 1 ∧ ∀ m ∈ s.installed, Genuine threeStreams s.sent m := by
  have hone : (runMachine (step trusting threeStreams) twoSenders (init fun _ => none)).map (·.installed.length) =
      some 1 := by decide +kernel
  obtain ⟨s, hs, hlength⟩ := Option.map_eq_some_iff.mp hone
  exact ⟨s, hs, hlength, installed_is_one_stream trusting threeStreams _ twoSenders (by decide +kernel) s hs⟩

/-- The first sender begins a second stream and goes on with the first one. -/
theorem installed_mixes_streams : ∃ (s : Receiver Unit Unit Unit) (m : Installed Unit Unit),
      runMachine (step trusting threeStreams) [.chunk 0 false, .chunk 2 false, .chunk 0 false, .chunk 0 false]
        (init fun _ => none) = some s ∧ m ∈ s.installed ∧ ¬ Genuine threeStreams s.sent m := by
  let es : List ChunkEvent := [.chunk 0 false, .chunk 2 false, .chunk 0 false, .chunk 0 false]
  obtain ⟨s, hs⟩ : ∃ s, runMachine (step trusting threeStreams) es (init fun _ => none) = some s :=
    isSome_iff_exists.mp (by decide +kernel)
  have hdirs : (runMachine (step trusting threeStreams) es (init fun _ => none)).map
      (fun s => s.installed.map fun m => (m.dir 0, m.dir 1)) = some [(some [30], some [10, 10])] := by decide +kernel
  rw [hs] at hdirs
  have hmem : (some [30], some [10, 10]) ∈ s.installed.map fun m => (m.dir 0, m.dir 1) := by
    rw [show s.installed.map (fun m => (m.dir 0, m.dir 1)) = _ from Option.some.inj hdirs]
    exact mem_singleton_self _
  obtain ⟨m, hm, hdir⟩ := mem_map.mp hmem
  refine ⟨s, m, hs, hm, ?_⟩
  rintro ⟨stream, -, -, -, hsaved⟩
  have hfiles : (saveAll (fun _ => none) (threeStreams stream).chunks).map (fun d => (d 0, d 1)) =
      some (some [30], some [10, 10]) := by
    rw [hsaved, map_some, hdir]
  rcases stream with _ | _ | stream
  · exact absurd hfiles (by decide)
  · exact absurd hfiles (by decide)
  · rw [show threeStreams (stream + 1 + 1) = threeChunks 1 9 30 from rfl] at hfiles
    exact absurd hfiles (by decide)

end Receiver

end

end Armada.Transport
