import Armada.Program.Procedure
import Armada.Tan.Seek

/-! Repairing a log file when operations fail. The records before the torn tail are copied
to a new file, which is synced and takes the place of the old one. The last steps are
deferred in the source, so they are also taken when the copy or the sync has failed. -/

namespace Armada.Tan.Repair

open Program List
open Ordered (Bytes)

/-- A file and how much of it a loss of power leaves for sure. -/
structure File where
  content : Bytes
  synced : ℕ

/-- The directory: the file under the name of the log, the one that has the name on disk,
and the file that the log is copied to. -/
structure Dir where
  log : File
  onDisk : File
  temp : Option File

def create (d : Dir) : Except String Dir := .ok { d with temp := some ⟨[], 0⟩ }

def write (bs : Bytes) (d : Dir) : Except String Dir :=
  match d.temp with
  | none => .error "file already closed"
  | some f => .ok { d with temp := some { f with content := f.content ++ bs } }

def sync (d : Dir) : Except String Dir :=
  match d.temp with
  | none => .error "file already closed"
  | some f => .ok { d with temp := some { f with synced := f.content.length } }

def close (d : Dir) : Except String Dir := .ok d

def rename (d : Dir) : Except String Dir :=
  match d.temp with
  | none => .error "file does not exist"
  | some f => .ok { d with log := f, temp := none }

def syncDir (d : Dir) : Except String Dir := .ok { d with onDisk := d.log }

/-- What may be found under the name of the log after a crash: the file that has the name or
the one that has it on disk, with what was synced and some of what was not. -/
def Dir.Survives (d : Dir) (content : Bytes) : Prop :=
  ∃ f ∈ [d.log, d.onDisk], ∃ k, f.synced ≤ k ∧ content = f.content.take k

section
variable (sum : Checksum) (codec : UpdateCodec) (num : ℕ)

def readFile (content : Bytes) : List (ℕ × Bytes) × Option ReadError :=
  (newReader content (logNumField num)).readLog sum

def read (d : Dir) : List (ℕ × Bytes) × Option ReadError := readFile sum num d.log.content

/-- Each record is read and written; the read after the last finds the torn tail. -/
def copyRecords : ℕ → ℕ → List (ℕ × Bytes) → Proc Dir Unit
  | _, _, [] => Proc.ask fun _ => .ok ()
  | call, newOffset, (offset, data) :: rest => do
    Proc.ask fun _ => .ok ()
    let written := writeRecord sum newOffset (codec.marshal call (codec.unmarshal data))
    Proc.change (write written)
    -- a panic, after which the deferred steps are taken as well
    Proc.refuse (decide (newOffset ≠ offset)) "offset changed"
    copyRecords (call + 1) (newOffset + written.length) rest

def copyLog : Proc Dir Unit := do
  let (records, e) ← Proc.ask fun d => .ok (read sum num d)
  copyRecords sum codec 0 0 records
  Proc.refuse (e.any (!isInvalidRecord ·)) "error when reading WAL"

/-- The steps up to the sync of the new file; what they come to is kept. -/
def copyAndSync : Proc Dir (Except String Unit × Except String Unit × Except String Unit) := do
  let copied ← Proc.attempt (copyLog sum codec num)
  let flushed ← Proc.attempt (Proc.change (write []))
  let synced ← Proc.attempt (Proc.change sync)
  pure (copied, flushed, synced)

/-- The new file takes the place of the log, whatever the steps before came to. -/
def replace (copied flushed synced : Except String Unit) : Proc Dir Unit := do
  let closed ← Proc.attempt (Proc.change close)
  let renamed ← Proc.attempt (Proc.change rename)
  let dirSynced ← Proc.attempt (Proc.change syncDir)
  Proc.resume copied
  Proc.resume flushed
  Proc.resume synced
  Proc.resume closed
  Proc.resume renamed
  Proc.resume dirSynced

def rebuildLog : Proc Dir Unit := do
  Proc.change create
  let (copied, flushed, synced) ← copyAndSync sum codec num
  replace copied flushed synced

/-- The index is saved in a file of its own. -/
def rebuildLogAndIndex : Proc Dir Unit := do
  let (_, e) ← Proc.ask fun d => .ok (read sum num d)
  match e with
  | none => Proc.ask fun _ => .ok ()
  | some e => do
    Proc.refuse (!isInvalidRecord e) "error when reading WAL"
    rebuildLog sum codec num
    Proc.ask fun _ => .ok ()

/-- Every record is written where it was. -/
def keepsOffsets : ℕ → ℕ → List (ℕ × Bytes) → Bool
  | _, _, [] => true
  | call, newOffset, (offset, data) :: rest =>
    newOffset = offset && keepsOffsets (call + 1)
      (newOffset + (writeRecord sum newOffset (codec.marshal call (codec.unmarshal data))).length) rest

/-- The copy or the sync of the new file fails: a record moves, or one of their answers is a
failure. The copy takes two operations for each record and two more, and one lies between it
and the sync. -/
def copyFails (log : File) (script : List Answer) : Bool :=
  let (records, e) := readFile sum num log.content
  let copying := 2 * records.length + 2
  !keepsOffsets sum codec 0 0 records || e.any (!isInvalidRecord ·) || (script.take copying).any (· ≠ .ok) ||
    (script.drop (copying + 1)).head?.any (· ≠ .ok)

end

/-! ### Until the sync -/

section
variable {sum : Checksum} {codec : UpdateCodec} {num : ℕ} {log : File} {records : List (ℕ × Bytes)}
  {content : Bytes} {d : Dir}

/-- The log is untouched. -/
def Untouched (log : File) (d : Dir) : Prop := d.log = log ∧ d.onDisk = log

/-- And the new file has the content. -/
def HasCopy (log : File) (content : Bytes) (d : Dir) : Prop := Untouched log d ∧ ∃ s, d.temp = some ⟨content, s⟩

theorem triple_write (bs : Bytes) :
    Proc.Triple (HasCopy log content) (Proc.change (write bs)) (fun _ => HasCopy log (content ++ bs))
    (Untouched log) := by
  refine .change (fun d hd => hd.1) fun d d' hd h => ?_
  obtain ⟨hlog, s, htemp⟩ := hd
  rw [write, htemp] at h
  cases h
  exact ⟨⟨hlog, s, rfl⟩, hlog⟩

/-- The updates of records, and where they are. -/
def updatesOf (codec : UpdateCodec) (records : List (ℕ × Bytes)) : List Record := records.map (toRecord codec)

/-- The codec writes the update of each record. -/
def Recoded (codec : UpdateCodec) (records : List (ℕ × Bytes)) : Prop :=
  ∀ r ∈ records, ∀ call, codec.unmarshal (codec.marshal call (codec.unmarshal r.2)) = codec.unmarshal r.2

/-- Records that have the updates, from an offset on. -/
def Restates (sum : Checksum) (codec : UpdateCodec) (p : ℕ) (records : List (ℕ × Bytes))
    (ds : List Bytes) : Prop :=
  updatesOf codec (placed sum p ds) = updatesOf codec records

/-- When the copy ends without a failure, the updates are where they were in the old file. -/
theorem triple_copyRecords (hcodec : Recoded codec records) (call p : ℕ) (content : Bytes) :
    Proc.Triple (HasCopy log content) (copyRecords sum codec call p records)
    (fun _ d => ∃ ds, Restates sum codec p records ds ∧ HasCopy log (content ++ writeAll sum p ds) d)
    (Untouched log) := by
  induction records generalizing call p content with
  | nil =>
    refine .ask (fun d hd => hd.1) fun d _ hd _ => ⟨[], rfl, ?_⟩
    rwa [writeAll, append_nil]
  | cons r records ih =>
    obtain ⟨offset, data⟩ := r
    obtain ⟨hdata, hrest⟩ := forall_mem_cons.mp hcodec
    rw [copyRecords]
    refine .bind (.ask (fun d hd => hd.1) fun d _ hd _ => hd) fun _ => ?_
    refine (triple_write _).bind fun _ => ?_
    by_cases hoffset : p = offset
    · subst hoffset
      rw [Proc.refuse, if_neg (by simp)]
      refine .bind (.pure () fun d hd => hd) fun _ =>
        (ih hrest _ _ _).mono (fun d hd => hd) (fun _ d hd => ?_) fun d hd => hd
      obtain ⟨ds, hds, hcopy⟩ := hd
      refine ⟨codec.marshal call (codec.unmarshal data) :: ds, ?_, ?_⟩
      · exact congrArg₂ List.cons (congrArg (Record.mk p) (hdata call)) hds
      · rwa [writeAll, ← append_assoc]
    · rw [Proc.refuse, if_pos (by simpa using hoffset)]
      exact Proc.Triple.bind (Q := fun _ _ => False) (.fail _ fun d hd => hd.1) fun _ _ hd => hd.elim

/-- The new file holds the updates and all of it is synced. -/
def Copied (sum : Checksum) (codec : UpdateCodec) (records : List (ℕ × Bytes)) (d : Dir) : Prop :=
  ∃ ds, Restates sum codec 0 records ds ∧ d.temp = some ⟨writeAll sum 0 ds, (writeAll sum 0 ds).length⟩

theorem triple_copyLog (hcodec : Recoded codec (readFile sum num log.content).1) :
    Proc.Triple (HasCopy log []) (copyLog sum codec num)
    (fun _ d => ∃ ds, Restates sum codec 0 (readFile sum num log.content).1 ds ∧ HasCopy log (writeAll sum 0 ds) d)
    (Untouched log) := by
  refine .bind (Q := fun r d => HasCopy log [] d ∧ r = readFile sum num log.content)
    (.ask (fun d hd => hd.1) fun d r hd h => ⟨hd, ?_⟩) fun r => .given fun hr => ?_
  · cases h
    rw [read, hd.1.1]
  · subst hr
    refine (triple_copyRecords hcodec 0 0 []).bind fun _ => ?_
    refine Proc.Triple.refuse _ _ (fun d hd => hd) fun d hd => ?_
    obtain ⟨ds, -, hcopy⟩ := hd
    exact hcopy.1

/-- What the steps up to the sync have made when the copy came to `copied`. -/
def CopiedAs (sum : Checksum) (codec : UpdateCodec) (log : File) (records : List (ℕ × Bytes))
    (copied : Except String Unit) (d : Dir) : Prop :=
  Untouched log d ∧ (copied = .ok () → ∃ ds s, Restates sum codec 0 records ds ∧ d.temp = some ⟨writeAll sum 0 ds, s⟩)

theorem preserves_flush (copied : Except String Unit) :
    Proc.Preserves (CopiedAs sum codec log records copied) (Proc.change (write [])) := by
  refine .change fun d d' hd h => ?_
  rw [write] at h
  cases htemp : d.temp with
  | none =>
    rw [htemp] at h
    cases h
  | some f =>
    rw [htemp] at h
    cases h
    refine ⟨hd.1, fun hok => ?_⟩
    obtain ⟨ds, s, hds, hs⟩ := hd.2 hok
    rw [htemp] at hs
    cases hs
    exact ⟨ds, s, hds, by rw [append_nil]⟩

theorem triple_sync (copied : Except String Unit) :
    Proc.Triple (CopiedAs sum codec log records copied) (Proc.change sync)
    (fun _ d => Untouched log d ∧ (copied = .ok () → Copied sum codec records d)) (Untouched log) := by
  refine .change (fun d hd => hd.1) fun d d' hd h => ?_
  rw [sync] at h
  cases htemp : d.temp with
  | none =>
    rw [htemp] at h
    cases h
  | some f =>
    rw [htemp] at h
    cases h
    refine ⟨⟨hd.1, fun hok => ?_⟩, hd.1⟩
    obtain ⟨ds, s, hds, hs⟩ := hd.2 hok
    rw [htemp] at hs
    cases hs
    exact ⟨ds, hds, rfl⟩

/-- Up to the sync nothing happens to the log; if nothing fails, the new file is complete. -/
theorem triple_copyAndSync (hcodec : Recoded codec (readFile sum num log.content).1) :
    Proc.Triple (fun d => d = ⟨log, log, some ⟨[], 0⟩⟩) (copyAndSync sum codec num)
    (fun r d => Untouched log d ∧ (r.1 = .ok () → r.2.2 = .ok () → Copied sum codec (readFile sum num log.content).1 d))
    (Untouched log) := by
  have hcopy : Proc.Triple (fun d => d = ⟨log, log, some ⟨[], 0⟩⟩) (Proc.attempt (copyLog sum codec num))
      (fun copied => CopiedAs sum codec log (readFile sum num log.content).1 copied) (Untouched log) := by
    refine (triple_copyLog hcodec).attempt.mono (fun d hd => ?_) (fun copied d hd => ?_) fun d hd => hd
    · subst hd
      exact ⟨⟨rfl, rfl⟩, 0, rfl⟩
    · cases copied with
      | ok _ =>
        obtain ⟨ds, hds, hlog, s, htemp⟩ := hd
        exact ⟨hlog, fun _ => ⟨ds, s, hds, htemp⟩⟩
      | error e => exact ⟨hd, nofun⟩
  refine hcopy.bind fun copied => ?_
  refine Proc.Triple.bind (Q := fun _ => CopiedAs sum codec log (readFile sum num log.content).1 copied)
    ((preserves_flush copied).attempt.mono (fun d hd => hd) (fun _ d hd => hd) fun d hd => hd.1) fun flushed => ?_
  refine (triple_sync copied).attempt.bind fun synced => .pure _ fun d hd => ?_
  cases synced with
  | ok _ => exact ⟨hd.1, fun hok _ => hd.2 hok⟩
  | error e => exact ⟨hd, fun _ => nofun⟩

/-! ### Without a failure -/

theorem smooth_copyRecords (call p : ℕ) (h : keepsOffsets sum codec call p records = true) :
    Proc.Smooth (fun d : Dir => d.log = log ∧ d.temp.isSome) (2 * records.length + 1)
    (copyRecords sum codec call p records) (fun d => d.log = log ∧ d.temp.isSome) := by
  induction records generalizing call p with
  | nil => exact .perform fun d hd => ⟨(), d, rfl, hd⟩
  | cons r records ih =>
    obtain ⟨offset, data⟩ := r
    rw [keepsOffsets, Bool.and_eq_true, decide_eq_true_eq] at h
    obtain ⟨rfl, hrest⟩ := h
    have hwrite (bs : Bytes) : Proc.Smooth (fun d : Dir => d.log = log ∧ d.temp.isSome) 1 (Proc.change (write bs))
        (fun d => d.log = log ∧ d.temp.isSome) := .perform fun d hd => by
      obtain ⟨f, hf⟩ := Option.isSome_iff_exists.mp hd.2
      exact ⟨(), { d with temp := some { f with content := f.content ++ bs } }, by rw [write, hf]; rfl, hd.1, rfl⟩
    have hlength : 2 * ((p, data) :: records).length + 1 = 1 + (1 + (0 + (2 * records.length + 1))) := by
      rw [length_cons]
      omega
    rw [hlength, copyRecords, Proc.refuse, if_neg (by simp)]
    exact .bind (.perform fun d hd => ⟨(), d, rfl, hd⟩) fun _ => (hwrite _).bind fun _ =>
      (Proc.Smooth.pure () fun _ hd => hd).bind fun _ => ih _ _ hrest

theorem smooth_copyLog (h : keepsOffsets sum codec 0 0 (readFile sum num log.content).1 = true)
    (he : (readFile sum num log.content).2.any (!isInvalidRecord ·) = false) :
    Proc.Smooth (fun d : Dir => d.log = log ∧ d.temp.isSome) (2 * (readFile sum num log.content).1.length + 2)
    (copyLog sum codec num) (fun d => d.temp.isSome) := by
  rintro ⟨d, script⟩ hw hscript
  have hread : read sum num d = readFile sum num log.content := by rw [read, hw.1]
  cases script with
  | nil => exact .inl rfl
  | cons answer rest =>
    obtain rfl : answer = .ok := hscript answer (by simp)
    have hopen : copyLog sum codec num ⟨d, .ok :: rest⟩ = (do
        copyRecords sum codec 0 0 (read sum num d).1
        Proc.refuse ((read sum num d).2.any (!isInvalidRecord ·)) "error when reading WAL") ⟨d, rest⟩ := rfl
    rw [hopen, hread, he, Proc.refuse, if_neg (by decide)]
    refine ((smooth_copyRecords 0 0 h).bind fun _ => .pure () fun d hd => hd.2) ⟨d, rest⟩ hw fun a ha => hscript a ?_
    exact mem_cons_of_mem _ ha

/-- When the answers are no failures, the copy and the sync succeed unless the process crashes. -/
theorem copyAndSync_smooth (script : List Answer) (hcopy : copyFails sum codec num log script = false) :
    (copyAndSync sum codec num ⟨⟨log, log, some ⟨[], 0⟩⟩, script⟩).1 = .error .crashed ∨
    ∃ flushed w, copyAndSync sum codec num ⟨⟨log, log, some ⟨[], 0⟩⟩, script⟩ = (.ok (.ok (), flushed, .ok ()), w) := by
  simp only [copyFails, Bool.or_eq_false_iff, Bool.not_eq_false', any_eq_false, decide_eq_true_eq, ne_eq,
    not_not] at hcopy
  obtain ⟨⟨⟨hoffsets, he⟩, hanswers⟩, hsync⟩ := hcopy
  let w : World Dir := ⟨⟨log, log, some ⟨[], 0⟩⟩, script⟩
  rcases smooth_copyLog hoffsets he w ⟨rfl, rfl⟩ hanswers with hcrash | ⟨_, d, hrun, hd⟩
  · left
    have hattempt : (Proc.attempt (copyLog sum codec num) w).1 = .error .crashed := by
      rw [Proc.attempt]
      revert hcrash
      match copyLog sum codec num w with
      | (.error .crashed, _) => exact fun _ => rfl
      | (.error (.failed _), _) => exact fun h => nomatch h
      | (.ok _, _) => exact fun h => nomatch h
    change (copyAndSync sum codec num w).1 = _
    rw [copyAndSync, Proc.bind_apply, hattempt]
    rfl
  · have hcopied : copyAndSync sum codec num w = (do
        let flushed ← Proc.attempt (Proc.change (write []))
        let synced ← Proc.attempt (Proc.change sync)
        pure (Except.ok (), flushed, synced)) ⟨d, script.drop (2 * (readFile sum num log.content).1.length + 2)⟩ := by
      rw [copyAndSync, Proc.bind_apply, Proc.attempt, hrun]
      rfl
    change (copyAndSync sum codec num w).1 = _ ∨ ∃ flushed w', copyAndSync sum codec num w = _
    rw [hcopied]
    rw [← drop_drop] at hsync
    revert hsync
    obtain ⟨_, _, _ | f⟩ := d
    · cases hd
    -- the flush may fail
    match script.drop (2 * (readFile sum num log.content).1.length + 2) with
    | [] | [.ok] | [.failed] | [.lost] => exact fun _ => .inl rfl
    | answer :: last :: rest =>
      intro hsync
      obtain rfl : last = .ok := by simpa using hsync
      cases answer <;> exact .inr ⟨_, _, rfl⟩

/-! ### The new file in place of the old -/

/-- A file from which the updates of the records are read, all of it synced. -/
structure Keeps (sum : Checksum) (codec : UpdateCodec) (num : ℕ) (records : List (ℕ × Bytes)) (f : File) :
    Prop where
  synced : f.content.length ≤ f.synced
  records : updatesOf codec records <+: updatesOf codec (readFile sum num f.content).1

/-- Under the name of the log there is such a file, also on disk, and what is to replace it
is one too. -/
structure Safe (sum : Checksum) (codec : UpdateCodec) (num : ℕ) (records : List (ℕ × Bytes)) (d : Dir) : Prop where
  log : Keeps sum codec num records d.log
  onDisk : Keeps sum codec num records d.onDisk
  temp : ∀ f, d.temp = some f → Keeps sum codec num records f

theorem Copied.keeps (h : Copied sum codec records d) : ∀ f, d.temp = some f → Keeps sum codec num records f := by
  obtain ⟨ds, hds, htemp⟩ := h
  intro f hf
  rw [htemp] at hf
  cases hf
  refine ⟨le_rfl, ?_⟩
  have hread : readFile sum num (writeAll sum 0 ds) = (placed sum 0 ds, none) :=
    (at_newReader _ _).readLog_whole (drop_zero ..)
  rw [hread, hds]

theorem preserves_replace (copied flushed synced : Except String Unit) :
    Proc.Preserves (Safe sum codec num records) (replace copied flushed synced) := by
  have hclose : Proc.Preserves (Safe sum codec num records) (Proc.change close) := .change fun d d' hd h => by
    cases h
    exact hd
  have hrename : Proc.Preserves (Safe sum codec num records) (Proc.change rename) := .change fun d d' hd h => by
    rw [rename] at h
    cases htemp : d.temp with
    | none =>
      rw [htemp] at h
      cases h
    | some f =>
      rw [htemp] at h
      cases h
      exact ⟨hd.temp f htemp, hd.onDisk, nofun⟩
  have hsyncDir : Proc.Preserves (Safe sum codec num records) (Proc.change syncDir) := .change fun d d' hd h => by
    cases h
    exact ⟨hd.log, hd.log, hd.temp⟩
  refine hclose.attempt.bind fun closed => hrename.attempt.bind fun renamed => hsyncDir.attempt.bind fun dirSynced => ?_
  exact (Proc.Preserves.resume _).bind fun _ => (Proc.Preserves.resume _).bind fun _ =>
    (Proc.Preserves.resume _).bind fun _ => (Proc.Preserves.resume _).bind fun _ =>
      (Proc.Preserves.resume _).bind fun _ => Proc.Preserves.resume _

theorem triple_replace (copied flushed synced : Except String Unit) :
    Proc.Triple (fun d => copied = .ok () → synced = .ok () → Safe sum codec num records d)
    (replace copied flushed synced) (fun _ d => Keeps sum codec num records d.log) (fun _ => True) := by
  by_cases hok : copied = .ok () ∧ synced = .ok ()
  · exact (preserves_replace copied flushed synced).mono (fun d hd => hd hok.1 hok.2) (fun _ d hd => hd.log)
      fun _ _ => trivial
  have hany {p : Proc Dir Unit} : Proc.Triple (fun _ => True) (Proc.attempt p) (fun _ _ => True)
    (fun _ => True) := fun w _ => by
    unfold Proc.Ends
    split <;> trivial
  have hresume (r : Except String Unit) {P : Prop} (hr : r = .ok () → P) :
      Proc.Triple (fun _ : Dir => True) (Proc.resume r) (fun _ _ => P) (fun _ => True) :=
    .resume (fun _ _ h _ => hr h) fun _ _ => trivial
  refine (hany.mono (fun _ _ => trivial) (fun _ _ h => h) fun _ h => h).bind fun closed => hany.bind fun renamed =>
    hany.bind fun dirSynced => ?_
  refine (hresume copied (P := copied = .ok ()) id).bind fun _ => Proc.Triple.bind (Q := fun _ _ => copied = .ok ())
    (.resume (fun _ _ _ h => h) fun _ _ => trivial) fun _ => ?_
  refine Proc.Triple.bind (Q := fun _ _ => False) (.resume (fun _ _ hs hc => hok ⟨hc, hs⟩) fun _ _ => trivial)
    fun _ => ?_
  exact fun w hw => hw.elim

/-- The log and the file on disk under its name keep the records. -/
def Kept (sum : Checksum) (codec : UpdateCodec) (num : ℕ) (records : List (ℕ × Bytes)) (d : Dir) : Prop :=
  Keeps sum codec num records d.log ∧ Keeps sum codec num records d.onDisk

theorem Kept.survives (h : Kept sum codec num records d) (hc : d.Survives content) :
    updatesOf codec records <+: updatesOf codec (readFile sum num content).1 := by
  have hfile {f : File} (hf : Keeps sum codec num records f) {k : ℕ} (hk : f.synced ≤ k) :
      updatesOf codec records <+: updatesOf codec (readFile sum num (f.content.take k)).1 := by
    rw [take_of_length_le (hf.synced.trans hk)]
    exact hf.records
  obtain ⟨f, hf, k, hk, rfl⟩ := hc
  simp only [mem_cons, not_mem_nil, or_false] at hf
  obtain rfl | rfl := hf
  · exact hfile h.1 hk
  · exact hfile h.2 hk

theorem Untouched.kept (h : Untouched log d) (hlog : Keeps sum codec num records log) : Kept sum codec num records d :=
  ⟨h.1 ▸ hlog, h.2 ▸ hlog⟩

theorem saveIndex_state (p : Proc Dir Unit) (w : World Dir) :
    ((p >>= fun _ => Proc.ask fun _ => .ok ()) w).2.state = (p w).2.state := by
  rw [Proc.bind_apply]
  match p w with
  | (.error _, w') => rfl
  | (.ok _, ⟨d, []⟩) => rfl
  | (.ok _, ⟨d, .ok :: _⟩) => rfl
  | (.ok _, ⟨d, .failed :: _⟩) => rfl
  | (.ok _, ⟨d, .lost :: _⟩) => rfl

section
variable {temp : Option File} {script : List Answer}
  (hcodec : Recoded codec (readFile sum num log.content).1)
  (hlog : Keeps sum codec num (readFile sum num log.content).1 log)
include hcodec hlog

theorem rebuildLog_kept (hcopy : copyFails sum codec num log (script.drop 1) = false) :
    Kept sum codec num (readFile sum num log.content).1
    (rebuildLog sum codec num ⟨⟨log, log, temp⟩, script⟩).2.state := by
  match script with
  | [] => exact ⟨hlog, hlog⟩
  | .failed :: rest => exact ⟨hlog, hlog⟩
  | .lost :: rest => exact ⟨hlog, hlog⟩
  | .ok :: rest =>
    have hends := triple_copyAndSync hcodec ⟨⟨log, log, some ⟨[], 0⟩⟩, rest⟩ rfl
    have hrun : rebuildLog sum codec num ⟨⟨log, log, temp⟩, .ok :: rest⟩ =
        (copyAndSync sum codec num >>= fun r => replace r.1 r.2.1 r.2.2) ⟨⟨log, log, some ⟨[], 0⟩⟩, rest⟩ := rfl
    rw [hrun, Proc.bind_apply]
    rcases copyAndSync_smooth rest hcopy with hcrash | ⟨flushed, w, hsmooth⟩
    · revert hends hcrash
      match copyAndSync sum codec num ⟨⟨log, log, some ⟨[], 0⟩⟩, rest⟩ with
      | (.error e, w) => exact fun hends _ => Untouched.kept hends hlog
      | (.ok _, w) => exact fun _ hcrash => nomatch hcrash
    · rw [hsmooth] at hends ⊢
      have hsafe := (preserves_replace (.ok ()) flushed (.ok ())).after w
        ⟨(hends.1.kept hlog).1, (hends.1.kept hlog).2, (hends.2 rfl rfl).keeps⟩
      exact ⟨hsafe.log, hsafe.onDisk⟩

theorem triple_rebuildLog : Proc.Triple (Untouched log) (rebuildLog sum codec num)
    (fun _ d => Keeps sum codec num (readFile sum num log.content).1 d.log) (fun _ => True) := by
  refine Proc.Triple.bind (Q := fun _ d => d = ⟨log, log, some ⟨[], 0⟩⟩)
    (.change (fun _ _ => trivial) fun d d' hd h => ?_) fun _ => ?_
  · cases h
    refine ⟨?_, trivial⟩
    rw [hd.1, hd.2]
  · refine ((triple_copyAndSync hcodec).mono (fun d hd => hd) (fun _ d hd => hd) fun _ _ => trivial).bind fun r => ?_
    exact (triple_replace r.1 r.2.1 r.2.2).mono
      (fun d hd hcopied hsynced => ⟨(hd.1.kept hlog).1, (hd.1.kept hlog).2, (hd.2 hcopied hsynced).keeps⟩)
      (fun _ d hd => hd) fun _ h => h

theorem triple_rebuildLogAndIndex : Proc.Triple (Untouched log) (rebuildLogAndIndex sum codec num)
    (fun _ d => Keeps sum codec num (readFile sum num log.content).1 d.log) (fun _ => True) := by
  refine Proc.Triple.bind (Q := fun _ => Untouched log) (.ask (fun _ _ => trivial) fun d r hd _ => hd) fun r => ?_
  obtain ⟨records, e⟩ := r
  cases e with
  | none => exact .ask (fun _ _ => trivial) fun d _ hd _ => (hd.kept hlog).1
  | some e =>
    refine Proc.Triple.bind (Q := fun _ => Untouched log) (.refuse _ _ (fun _ hd => hd) fun _ _ => trivial) fun _ => ?_
    exact (triple_rebuildLog hcodec hlog).bind fun _ => .ask (fun _ _ => trivial) fun d _ hd _ => hd

theorem rebuildLogAndIndex_kept (hcopy : copyFails sum codec num log (script.drop 2) = false) :
    Kept sum codec num (readFile sum num log.content).1
    (rebuildLogAndIndex sum codec num ⟨⟨log, log, temp⟩, script⟩).2.state := by
  match script with
  | [] => exact ⟨hlog, hlog⟩
  | .failed :: rest => exact ⟨hlog, hlog⟩
  | .lost :: rest => exact ⟨hlog, hlog⟩
  | .ok :: rest =>
    rw [rebuildLogAndIndex, Proc.bind_apply]
    change Kept sum codec num _ (((match (read sum num ⟨log, log, temp⟩).2 with
      | none => Proc.ask fun _ => .ok ()
      | some e => do
        Proc.refuse (!isInvalidRecord e) "error when reading WAL"
        rebuildLog sum codec num
        Proc.ask fun _ => .ok ()) : Proc Dir Unit) ⟨⟨log, log, temp⟩, rest⟩).2.state
    cases (read sum num ⟨log, log, temp⟩).2 with
    | none =>
      match rest with
      | [] => exact ⟨hlog, hlog⟩
      | .ok :: _ => exact ⟨hlog, hlog⟩
      | .failed :: _ => exact ⟨hlog, hlog⟩
      | .lost :: _ => exact ⟨hlog, hlog⟩
    | some e =>
      dsimp only
      cases isInvalidRecord e with
      | false => exact ⟨hlog, hlog⟩
      | true =>
        have hkept : Kept sum codec num _ (rebuildLog sum codec num ⟨⟨log, log, temp⟩, rest⟩).2.state :=
          rebuildLog_kept hcodec hlog hcopy
        rw [← saveIndex_state] at hkept
        exact hkept

end

end

/-- A log that is on disk as it is. -/
def Dir.whole (file : Bytes) (temp : Option File) : Dir := ⟨⟨file, file.length⟩, ⟨file, file.length⟩, temp⟩

/-- Whatever the operations come to and wherever the process crashes, success is reported only
if the log has all the updates that precede the torn tail, where they were; and as long as the
copy and its sync do not fail, they are there in any case. -/
theorem repair_keeps_records (sum : Checksum) (codec : UpdateCodec) (num : ℕ) (file : Bytes) (temp : Option File)
    (script : List Answer) (hcodec : Recoded codec (readFile sum num file).1) :
    ((rebuildLogAndIndex sum codec num ⟨.whole file temp, script⟩).1 = .ok () →
      updatesOf codec (readFile sum num file).1 <+: updatesOf codec
        (readFile sum num (rebuildLogAndIndex sum codec num ⟨.whole file temp, script⟩).2.state.log.content).1) ∧
    (copyFails sum codec num ⟨file, file.length⟩ (script.drop 2) = false → ∀ content,
      (rebuildLogAndIndex sum codec num ⟨.whole file temp, script⟩).2.state.Survives content →
      updatesOf codec (readFile sum num file).1 <+: updatesOf codec (readFile sum num content).1) := by
  have hlog : Keeps sum codec num (readFile sum num file).1 ⟨file, file.length⟩ := ⟨le_rfl, prefix_rfl⟩
  refine ⟨fun hok => ?_, fun hcopy content hsurvives => ?_⟩
  · exact ((triple_rebuildLogAndIndex (by exact hcodec) hlog).returned ⟨rfl, rfl⟩ hok).records
  · exact (rebuildLogAndIndex_kept (by exact hcodec) hlog hcopy).survives hsurvives

/-! ### A write that fails -/

theorem At.readLog_zeroed {sum : Checksum} {file : Bytes} {p : ℕ} {r : Reader} {ds : List Bytes} (h : At file p r)
    (hsome : ds = [] → r.blockNum ≠ none) (hfile : file.drop p = writeAll sum p ds ++ zeros 11)
    (hroom : p + (writeAll sum p ds).length + 11 ≤ blockSize) :
    r.readLog sum = (placed sum p ds, some .zeroedChunk) := by
  induction ds generalizing p r with
  | nil =>
    obtain ⟨b, hb⟩ := Option.ne_none_iff_exists'.mp (hsome rfl)
    rw [writeAll, nil_append] at hfile
    rw [writeAll, length_nil] at hroom
    have hstop : r.stop ≤ p := by
      rw [h.eq_block hb]
      exact Nat.le_add_left _ _
    have hunread : r.unread = zeros 11 := by
      rw [h.unread hb, hfile, take_zeros, min_eq_right (by omega)]
    have hturn : r.turn sum true = .error .zeroedChunk := by
      rw [Reader.turn, hunread, if_pos (by rw [length_zeros]; decide), parseChunk_zeros (by decide)]
      rfl
    rw [Reader.readLog_error (Reader.readRecord_error (Reader.nextChunk_error hturn))]
    rfl
  | cons data ds ih =>
    rw [writeAll, append_assoc] at hfile
    obtain ⟨r1, hread, hat, hrest⟩ := h.readRecord_whole hfile
    rw [writeAll, length_append] at hroom
    have hpos : 0 < (writeRecord sum p data).length := length_writeRecord_pos p data
    have hnone : r1.blockNum ≠ none := fun hnone => by
      have hzero : 0 = p + (writeRecord sum p data).length := by rw [← hat.offset, Reader.offset, hnone]
      omega
    rw [Reader.readLog_ok hread, ih hat (fun _ => hnone) hrest (by omega), placed, h.offset]

/-- Two records and a torn tail. -/
def tornLog : Bytes := writeAll sumOfBytes 0 [[1], [2]] ++ zeros 11

/-- The second record cannot be written to the new file; everything else goes well. -/
def secondWriteFails : List Answer := [.ok, .ok, .ok, .ok, .ok, .ok, .failed, .ok, .ok, .ok, .ok, .ok]

theorem read_tornLog : readFile sumOfBytes 1 tornLog = (placed sumOfBytes 0 [[1], [2]], some .zeroedChunk) := by
  have hsize := blockSize_eq
  have hfirst : writeRecord sumOfBytes 0 [1] = chunk sumOfBytes 1 [1] := writeRecord_small (by rw [hsize]; decide)
  have hsecond : writeRecord sumOfBytes 8 [2] = chunk sumOfBytes 1 [2] := writeRecord_small (by rw [hsize]; decide)
  refine At.readLog_zeroed (at_newReader tornLog (logNumField 1)) nofun (drop_zero ..) ?_
  have hlength : (writeAll sumOfBytes 0 [[1], [2]]).length = 16 := by
    rw [writeAll, hfirst]
    change (_ ++ (writeRecord sumOfBytes 8 [2] ++ [])).length = 16
    rw [hsecond]
    rfl
  rw [hlength]
  omega

theorem copyLog_secondWriteFails {log : File} (hread : read sumOfBytes 1 ⟨log, log, some ⟨[], 0⟩⟩ =
    (placed sumOfBytes 0 [[1], [2]], some .zeroedChunk)) :
    copyLog sumOfBytes termCodec 1 ⟨⟨log, log, some ⟨[], 0⟩⟩, secondWriteFails.drop 2⟩ =
    (.error (.failed "i/o error"), ⟨⟨log, log, some ⟨writeRecord sumOfBytes 0 [1], 0⟩⟩, secondWriteFails.drop 7⟩) := by
  have hopen : copyLog sumOfBytes termCodec 1 ⟨⟨log, log, some ⟨[], 0⟩⟩, secondWriteFails.drop 2⟩ =
      (do
        copyRecords sumOfBytes termCodec 0 0 (read sumOfBytes 1 ⟨log, log, some ⟨[], 0⟩⟩).1
        Proc.refuse ((read sumOfBytes 1 ⟨log, log, some ⟨[], 0⟩⟩).2.any (!isInvalidRecord ·)) "error when reading WAL")
        ⟨⟨log, log, some ⟨[], 0⟩⟩, secondWriteFails.drop 3⟩ := rfl
  rw [hopen, hread]
  rfl

theorem rebuildLogAndIndex_secondWriteFails (log : File)
    (hread : ∀ temp, read sumOfBytes 1 ⟨log, log, temp⟩ = (placed sumOfBytes 0 [[1], [2]], some .zeroedChunk)) :
    ∃ f, rebuildLogAndIndex sumOfBytes termCodec 1 ⟨⟨log, log, none⟩, secondWriteFails⟩ =
    (.error (.failed "i/o error"), ⟨⟨f, f, none⟩, []⟩) ∧ f.content = writeRecord sumOfBytes 0 [1] := by
  refine ⟨⟨writeRecord sumOfBytes 0 [1] ++ [], (writeRecord sumOfBytes 0 [1] ++ []).length⟩, ?_, append_nil _⟩
  have hattempt : Proc.attempt (copyLog sumOfBytes termCodec 1) ⟨⟨log, log, some ⟨[], 0⟩⟩, secondWriteFails.drop 2⟩ =
      (.ok (.error "i/o error"), ⟨⟨log, log, some ⟨writeRecord sumOfBytes 0 [1], 0⟩⟩, secondWriteFails.drop 7⟩) := by
    rw [Proc.attempt, copyLog_secondWriteFails (hread _)]
  have hsynced : copyAndSync sumOfBytes termCodec 1 ⟨⟨log, log, some ⟨[], 0⟩⟩, secondWriteFails.drop 2⟩ =
      (.ok (.error "i/o error", .ok (), .ok ()),
        ⟨⟨log, log, some ⟨writeRecord sumOfBytes 0 [1] ++ [], (writeRecord sumOfBytes 0 [1] ++ []).length⟩⟩,
          secondWriteFails.drop 9⟩) := by
    rw [copyAndSync, Proc.bind_apply, hattempt]
    rfl
  have hrebuilt : rebuildLog sumOfBytes termCodec 1 ⟨⟨log, log, none⟩, secondWriteFails.drop 1⟩ =
      (copyAndSync sumOfBytes termCodec 1 >>= fun r => replace r.1 r.2.1 r.2.2)
        ⟨⟨log, log, some ⟨[], 0⟩⟩, secondWriteFails.drop 2⟩ := rfl
  rw [Proc.bind_apply, hsynced] at hrebuilt
  have hindex : rebuildLogAndIndex sumOfBytes termCodec 1 ⟨⟨log, log, none⟩, secondWriteFails⟩ =
      ((match (read sumOfBytes 1 ⟨log, log, none⟩).2 with
        | none => Proc.ask fun _ => .ok ()
        | some e => do
          Proc.refuse (!isInvalidRecord e) "error when reading WAL"
          rebuildLog sumOfBytes termCodec 1
          Proc.ask fun _ => .ok ()) : Proc Dir Unit) ⟨⟨log, log, none⟩, secondWriteFails.drop 1⟩ := rfl
  rw [hindex, hread]
  change (rebuildLog sumOfBytes termCodec 1 >>= fun _ => Proc.ask fun _ => .ok ())
    ⟨⟨log, log, none⟩, secondWriteFails.drop 1⟩ = _
  rw [Proc.bind_apply, hrebuilt]
  rfl

/-- The repair reports the failure, but the log has only the first record left. -/
theorem failed_write_loses_record : (readFile sumOfBytes 1 tornLog).1.map Prod.snd = [[1], [2]] ∧
    ∃ e w, rebuildLogAndIndex sumOfBytes termCodec 1 ⟨.whole tornLog none, secondWriteFails⟩ = (.error (.failed e), w) ∧
      (readFile sumOfBytes 1 w.state.log.content).1.map Prod.snd = [[1]] := by
  obtain ⟨f, hrun, hcontent⟩ := rebuildLogAndIndex_secondWriteFails ⟨tornLog, tornLog.length⟩ fun _ => read_tornLog
  refine ⟨by rw [read_tornLog, placed_data], _, _, hrun, ?_⟩
  have hwhole : readFile sumOfBytes 1 f.content = (placed sumOfBytes 0 [[1]], none) :=
    (at_newReader _ _).readLog_whole (by rw [drop_zero, hcontent, writeAll, writeAll, append_nil])
  exact (congrArg (fun r => r.1.map Prod.snd) hwhole).trans (placed_data 0 [[1]])

theorem placed_tornLog : placed sumOfBytes 0 [[1], [2]] = [(0, [1]), (8, [2])] := by
  have hfirst : writeRecord sumOfBytes 0 [1] = chunk sumOfBytes 1 [1] :=
    writeRecord_small (by rw [blockSize_eq]; decide)
  rw [placed, hfirst]
  rfl

theorem copyFails_tornLog :
    copyFails sumOfBytes termCodec 1 ⟨tornLog, tornLog.length⟩ (List.replicate 11 .ok) = false := by
  have hfirst : writeRecord sumOfBytes 0 [1] = chunk sumOfBytes 1 [1] :=
    writeRecord_small (by rw [blockSize_eq]; decide)
  have hoffsets : keepsOffsets sumOfBytes termCodec 0 0 [(0, [1]), (8, [2])] = true := by
    change (decide (0 = 0) && (decide (0 + (writeRecord sumOfBytes 0 [1]).length = 8) && true)) = true
    rw [hfirst]
    rfl
  rw [copyFails, read_tornLog, placed_tornLog]
  dsimp only
  rw [hoffsets]
  decide

/-- With these records and no failure the repair keeps both. -/
theorem repair_keeps_records_tornLog :
    let done := rebuildLogAndIndex sumOfBytes termCodec 1 ⟨.whole tornLog none, List.replicate 13 .ok⟩
    updatesOf termCodec (readFile sumOfBytes 1 tornLog).1 = [⟨0, termUpdate 1⟩, ⟨8, termUpdate 2⟩] ∧
    (done.1 = .ok () → updatesOf termCodec (readFile sumOfBytes 1 tornLog).1 <+:
      updatesOf termCodec (readFile sumOfBytes 1 done.2.state.log.content).1) ∧
    ∀ content, done.2.state.Survives content → updatesOf termCodec (readFile sumOfBytes 1 tornLog).1 <+:
      updatesOf termCodec (readFile sumOfBytes 1 content).1 := by
  have hcodec : Recoded termCodec (readFile sumOfBytes 1 tornLog).1 := by
    rw [read_tornLog, placed_tornLog]
    simp [Recoded, termCodec]
  have h := repair_keeps_records sumOfBytes termCodec 1 tornLog none (List.replicate 13 .ok) hcodec
  refine ⟨?_, h.1, h.2 copyFails_tornLog⟩
  rw [read_tornLog, placed_tornLog]
  rfl

end Armada.Tan.Repair
