import Armada.Pebble.Dir
import Armada.Fsm.Query

/-! The recovery of a table state machine from a snapshot and its next opening. The
snapshot is loaded into a database of its own, which then takes the place of the current
one; a crash or a failure at any moment leaves one of the two to be opened. -/

namespace Armada.Fsm

open Ordered Program Program.Proc Pebble

/-! ### The procedures -/

/-- What an instance of the state machine knows of itself. -/
structure Instance where
  closed : Bool
  clusterID : UInt64
  nodeID : UInt64

/-- How the stream of a snapshot ends. -/
inductive StreamEnd where
  | eof
  | readError
  | stopped

def ingestFilename (count : ℕ) : Bytes :=
  ascii "ingest-".toList ++ ascii (Nat.toDigits 10 count) ++ ascii ".sst".toList

/-- The files of the stream, one after the other. A file is synced even if it could not
be written. -/
def receive : ℕ → List Bytes → Proc NodeDir Unit
  | _, [] => pure ()
  | count, sst :: ssts => do
    let name := ingestFilename count
    change (NodeDir.create name)
    let copied ← attempt (change (NodeDir.write name sst))
    let synced ← attempt (change (NodeDir.sync name))
    resume copied
    resume synced
    receive (count + 1) ssts

variable (md5 : Checksum) (ingest : List Bytes → Except String DB)

def recover (p : Instance) (random now : ℕ) (ssts : List Bytes) (streamEnd : StreamEnd) : Proc NodeDir Unit := do
  refuse p.closed "calling action on closed state machine"
  refuse (p.clusterID < 1) "invalid cluster ID"
  refuse (p.nodeID < 1) "invalid node ID"
  let randomDirName := getNewRandomDBDirName random now
  change (NodeDir.openDB randomDirName)
  receive 0 ssts
  match streamEnd with
  | .stopped =>
    let _ ← attempt (cleanupNodeDataDir md5)
    fail "snapshot stopped"
  | .readError => fail "read error"
  | .eof =>
    change fun fs => do
      let contents ← ingest ssts
      fs.fill randomDirName contents
    let _ ← ask fun fs => .ok (readLocalIndex ((fs.dbs randomDirName).getD ∅) sysLocalIndex)
    saveCurrentDBDirName md5 randomDirName
    replaceCurrentDBFile
    cleanupNodeDataDir md5

/-- Whether there is no current file. Any failure to look is taken for its absence. -/
def isNewRun (unreadable : Bool) (fs : NodeDir) : Bool :=
  unreadable || match fs.stat currentDBFilename with
    | .ok _ => false
    | .error _ => true

/-- The directory of the database to open: a new one, or the one that is named. -/
def locate (random now : ℕ) (newRun : Bool) : Proc NodeDir Bytes :=
  if newRun then do
    let randomDir := getNewRandomDBDirName random now
    saveCurrentDBDirName md5 randomDir
    replaceCurrentDBFile
    return randomDir
  else do
    cleanupNodeDataDir md5
    let randomDir ← getCurrentDBDirName md5
    ask (NodeDir.stat randomDir)
    return randomDir

/-- The directory of the database that was opened, and the index of its last entry. -/
def openFSM (p : Instance) (random now : ℕ) (unreadable : Bool) : Proc NodeDir (Bytes × UInt64) := do
  refuse (p.clusterID < 1) "invalid cluster ID"
  refuse (p.nodeID < 1) "invalid node ID"
  -- the directory is there; its parent is synced
  change .ok
  let newRun ← ask fun fs => .ok (isNewRun unreadable fs)
  let dbdir ← locate md5 random now newRun
  change (NodeDir.openDB dbdir)
  let idx ← ask fun fs => .ok (readLocalIndex ((fs.dbs dbdir).getD ∅) sysLocalIndex)
  return (dbdir, idx)

/-! ### What a recovery may leave -/

section
variable {md5 ingest}
variable {data : Bytes} {db : Bytes → Option DB}

theorem ingestFilename_ne_current (count : ℕ) : ingestFilename count ≠ currentDBFilename := by
  intro h
  exact absurd (List.cons.inj h).1 (by decide)

theorem dirName_ne_ingestFilename (h : Legible md5 data) (count : ℕ) : dirName md5 data ≠ .ok (ingestFilename count) :=
  fun hn => (h.isDBDirName hn).ne_of_letter (by decide) rfl

theorem receive_keeps (hdata : Legible md5 data) (count : ℕ) (ssts : List Bytes) :
    Preserves (Pinned md5 data db) (receive count ssts) := by
  induction ssts generalizing count with
  | nil => exact .pure _
  | cons sst ssts ih =>
    have hkeep : ∀ {fs fs' : NodeDir}, Pinned md5 data db fs → Frame (ingestFilename count) fs fs' →
        Pinned md5 data db fs' := fun h hframe =>
      h.frame hframe (ingestFilename_ne_current count) (dirName_ne_ingestFilename hdata count)
    refine .bind (.change fun fs fs' h hfs => hkeep h (.create hfs)) fun _ => ?_
    refine .bind (.attempt (.change fun fs fs' h hfs => hkeep h (.write hfs))) fun copied => ?_
    refine .bind (.attempt (.change fun fs fs' h hfs => hkeep h (.sync hfs))) fun synced => ?_
    exact .bind (.resume _) fun _ => .bind (.resume _) fun _ => ih (count + 1)

/-- The old database is current, or the snapshot is complete and each view has one of the two. -/
def Recovered (md5 : Checksum) (ingest : List Bytes → Except String DB) (data : Bytes) (db : Bytes → Option DB)
    (dbdir : Bytes) (ssts : List Bytes) (fs : NodeDir) : Prop :=
  Pinned md5 data db fs ∨ ∃ contents, ingest ssts = .ok contents ∧ Switching md5 data db dbdir contents fs

theorem install_switches (hdata : Legible md5 data) {dbdir : Bytes} (hdbdir : IsDBDirName dbdir) (contents : DB) :
    Triple (fun fs => Pinned md5 data db fs ∧ fs.dbs dbdir = some contents) (do
        saveCurrentDBDirName md5 dbdir
        replaceCurrentDBFile
        cleanupNodeDataDir md5)
      (fun _ => Switching md5 data db dbdir contents) (Switching md5 data db dbdir contents) := by
  refine .bind ((saveCurrentDBDirName_ready hdata hdbdir).mono (fun _ => id) (fun _ _ => id) fun _ h => h.switching)
    fun _ => .bind (replaceCurrentDBFile_switches hdbdir) fun _ => ?_
  exact Triple.mono (Pinned.cleanupNodeDataDir (legible_record hdbdir)) (fun _ => id) (fun _ _ h => h.switched)
    fun _ h => h.switched

theorem recover_recovered (hdata : Legible md5 data) (p : Instance) (random now : ℕ)
    (hfresh : dirName md5 data ≠ .ok (getNewRandomDBDirName random now)) (ssts : List Bytes) (streamEnd : StreamEnd) :
    Triple (Pinned md5 data db) (recover md5 ingest p random now ssts streamEnd)
    (fun _ => Recovered md5 ingest data db (getNewRandomDBDirName random now) ssts)
    (Recovered md5 ingest data db (getNewRandomDBDirName random now) ssts) := by
  have hdbdir : IsDBDirName (getNewRandomDBDirName random now) := ⟨random, now, rfl⟩
  have hrefuse : ∀ b err, Triple (Pinned md5 data db) (refuse b err) (fun _ => Pinned md5 data db)
      (Recovered md5 ingest data db (getNewRandomDBDirName random now) ssts) := fun b err =>
    Triple.mono (Preserves.refuse b err) (fun _ => id) (fun _ _ => id) fun _ => .inl
  refine .bind (hrefuse _ _) fun _ => .bind (hrefuse _ _) fun _ => .bind (hrefuse _ _) fun _ => ?_
  refine .bind (Q := fun _ => Pinned md5 data db) (.change (fun _ => .inl) fun fs fs' h hfs => ?_) fun _ => ?_
  · have hpin := h.frame (.openDB hfs) hdbdir.ne_current hfresh
    exact ⟨hpin, .inl hpin⟩
  refine .bind (Triple.mono (receive_keeps hdata 0 ssts) (fun _ => id) (fun _ _ => id) fun _ => .inl) fun _ => ?_
  cases streamEnd with
  | stopped =>
    refine .bind (Triple.mono (Preserves.attempt (Pinned.cleanupNodeDataDir hdata)) (fun _ => id) (fun _ _ => id)
      fun _ => .inl) fun _ => .fail _ fun _ => .inl
  | readError => exact .fail _ fun _ => .inl
  | eof =>
    cases hingest : ingest ssts with
    | error e =>
      refine .bind (Q := fun _ _ => False) (.change (fun _ => .inl) fun fs fs' _ hfs => ?_) fun _ _ h => h.elim
      cases hfs
    | ok contents =>
      refine .mono (P := Pinned md5 data db)
        (Q := fun _ => Switching md5 data db (getNewRandomDBDirName random now) contents)
        (E := Switching md5 data db (getNewRandomDBDirName random now) contents) ?_ (fun _ => id)
        (fun _ _ h => .inr ⟨contents, hingest, h⟩) fun _ h => .inr ⟨contents, hingest, h⟩
      refine .bind (Q := fun _ fs => Pinned md5 data db fs ∧ fs.dbs (getNewRandomDBDirName random now) = some contents)
        (.change (fun _ h => h.switching) fun fs fs' h hfs => ?_) fun _ => ?_
      · change fs.fill _ contents = .ok fs' at hfs
        have hpin := h.frame (.fill hfs) hdbdir.ne_current hfresh
        refine ⟨⟨hpin, ?_⟩, hpin.switching⟩
        cases hfs
        simp
      · exact .bind (.ask (fun _ h => h.1.switching) fun _ _ h _ => h) fun _ => install_switches hdata hdbdir contents

theorem openFSM_opens (hdata : Legible md5 data) (hdb : ∀ n, dirName md5 data = .ok n → db n ≠ none)
    (p : Instance) (random now : ℕ) : Triple (Pinned md5 data db) (openFSM md5 p random now false)
    (fun r fs => dirName md5 data = .ok r.1 ∧ fs.dbs r.1 = db r.1) (fun _ => True) := by
  have hany : ∀ {α : Type} {q : Proc NodeDir α}, Preserves (Pinned md5 data db) q →
      Triple (Pinned md5 data db) q (fun _ => Pinned md5 data db) fun _ => True := fun h =>
    Triple.mono h (fun _ => id) (fun _ _ => id) fun _ _ => trivial
  refine .bind (hany (.refuse _ _)) fun _ => .bind (hany (.refuse _ _)) fun _ => ?_
  refine .bind (hany (.change fun fs fs' h hfs => Except.ok.inj hfs ▸ h)) fun _ => ?_
  refine .bind (Q := fun newRun fs => Pinned md5 data db fs ∧ newRun = false)
    (.ask (fun _ _ => trivial) fun fs b h hb => ⟨h, ?_⟩) fun newRun => .given fun hnew => ?_
  · rw [← Except.ok.inj hb, isNewRun, NodeDir.stat, if_pos]
    · rfl
    · exact .inr (Std.ExtTreeMap.mem_iff_isSome_getElem?.mpr (by simp [h.live]))
  subst hnew
  refine .bind (Q := fun n fs => Pinned md5 data db fs ∧ dirName md5 data = .ok n) ?_ fun dbdir =>
    .given fun hdbdir => ?_
  · refine .bind (hany (Pinned.cleanupNodeDataDir hdata)) fun _ => ?_
    refine .bind (Q := fun n fs => Pinned md5 data db fs ∧ dirName md5 data = .ok n)
      (.ask (fun _ _ => trivial) fun fs n h hn => ⟨h, ?_⟩) fun n => ?_
    · simpa [h.live] using hn
    · exact .bind (.ask (fun _ _ => trivial) fun _ _ h _ => h) fun _ => .pure _ fun _ => id
  · refine .bind (Q := fun _ fs => fs.dbs dbdir = db dbdir) (.change (fun _ _ => trivial) fun fs fs' h hfs =>
      ⟨?_, trivial⟩)
      fun _ => .bind (.ask (fun _ _ => trivial) fun _ _ h _ => h) fun _ => .pure _ fun _ h => ⟨hdbdir, h⟩
    obtain ⟨contents, hcontents⟩ := Option.ne_none_iff_exists'.mp (hdb dbdir hdbdir)
    have hopen : fs'.dbs dbdir = some ((fs.dbs dbdir).getD ∅) := by
      unfold NodeDir.openDB at hfs
      split at hfs
      · cases hfs
      · cases hfs
        exact Function.update_self ..
      · cases hfs
        exact Function.update_self ..
    rw [hopen, h.named dbdir hdbdir, hcontents]
    rfl

end

/-! ### Crash atomicity -/

/-- After a recovery that was cut short anywhere, failed or came to its end, what is opened is
the database that was current before it or the complete new one; a cleanup leaves the one that
the current file names. The current file was written as it is or is too short to be read, and
looking for it does not fail. -/
theorem recovery_crash_atomic (fs : NodeDir) (data : Bytes) (random now : ℕ) (hdata : Legible md5 data)
    (hcur : ∀ v ∈ fs.views, v[currentDBFilename]? = some (.file data true))
    (hdb : ∀ n, dirName md5 data = .ok n → fs.dbs n ≠ none)
    (hfresh : dirName md5 data ≠ .ok (getNewRandomDBDirName random now)) :
    (∀ (p : Instance) (ssts : List Bytes) (streamEnd : StreamEnd) (script : List Answer) (fs' : NodeDir),
      (recover md5 ingest p random now ssts streamEnd ⟨fs, script⟩).2.state.Survives fs' →
      ∀ (p' : Instance) (random' now' : ℕ) (script' : List Answer) (r : Bytes × UInt64) (w : World NodeDir),
        openFSM md5 p' random' now' false ⟨fs', script'⟩ = (.ok r, w) →
          (dirName md5 data = .ok r.1 ∧ w.state.dbs r.1 = fs.dbs r.1) ∨ (r.1 = getNewRandomDBDirName random now ∧
              ∃ contents, ingest ssts = .ok contents ∧ w.state.dbs r.1 = some contents)) ∧
    ∀ (dir : NodeDir) (data' : Bytes) (synced : Bool) (n : Bytes) (script : List Answer), Legible md5 data' →
      dir.live[currentDBFilename]? = some (.file data' synced) → dirName md5 data' = .ok n →
        (cleanupNodeDataDir md5 ⟨dir, script⟩).2.state.live[n]? = dir.live[n]? ∧
          (cleanupNodeDataDir md5 ⟨dir, script⟩).2.state.dbs n = dir.dbs n := by
  have hdbdir : IsDBDirName (getNewRandomDBDirName random now) := ⟨random, now, rfl⟩
  constructor
  · intro p ssts streamEnd script fs' hsurvives p' random' now' script' r w hopen
    have hopens : ∀ {data' : Bytes} {db' : Bytes → Option DB}, Legible md5 data' →
        (∀ n, dirName md5 data' = .ok n → db' n ≠ none) → Pinned md5 data' db' fs' →
        dirName md5 data' = .ok r.1 ∧ w.state.dbs r.1 = db' r.1 := by
      intro data' db' hdata' hdb' hpin
      have hend := openFSM_opens hdata' hdb' p' random' now' ⟨fs', script'⟩ hpin
      rwa [hopen] at hend
    have hstart : Pinned md5 data fs.dbs fs := ⟨hcur, fun _ _ => rfl⟩
    have hrecovered : Recovered md5 ingest data fs.dbs (getNewRandomDBDirName random now) ssts
        (recover md5 ingest p random now ssts streamEnd ⟨fs, script⟩).2.state :=
      (recover_recovered hdata p random now hfresh ssts streamEnd).after ⟨fs, script⟩ hstart
    have hsurvivor : Pinned md5 data fs.dbs fs' ∨ ∃ contents, ingest ssts = .ok contents ∧
        Pinned md5 (record md5 (getNewRandomDBDirName random now)) (fun _ => some contents) fs' := by
      obtain hpin | ⟨contents, hingest, hswitch⟩ := hrecovered
      · exact .inl (hpin.survives hsurvives)
      · exact (hswitch.survives hsurvives).imp id fun h => ⟨contents, hingest, h⟩
    obtain hpin | ⟨contents, hingest, hpin⟩ := hsurvivor
    · exact .inl (hopens hdata hdb hpin)
    · obtain ⟨hname, hcontents⟩ := hopens (legible_record hdbdir) (fun _ _ => by simp) hpin
      rw [dirName_record hdbdir] at hname
      exact .inr ⟨(Except.ok.inj hname).symm, contents, hingest, hcontents⟩
  · exact fun dir data' synced n script hdata' hcur' hn => cleanupNodeDataDir_named hdata' hcur' hn script

/-- A checksum that is always the same. -/
def constantSum : Checksum := ⟨fun _ => List.replicate 8 0, fun _ => by simp⟩

/-- A directory with one database, in the directory `1_1`, and the current file `data`. -/
def oneDatabase (data : Bytes) : NodeDir where
  live := ((∅ : OrdMap Bytes DirEntry).insert currentDBFilename (.file data true)).insert
    (getNewRandomDBDirName 1 1) .db
  older := []
  dbs := Function.update (fun _ => none) (getNewRandomDBDirName 1 1) (some ((∅ : DB).insert [1] [1]))

theorem recovery_crash_atomic_oneDatabase :
    let fs := oneDatabase (record constantSum (getNewRandomDBDirName 1 1))
    ∀ (script : List Answer) (fs' : NodeDir),
      (recover constantSum (fun _ => .ok ∅) ⟨false, 1, 1⟩ 2 2 [[7]] .eof ⟨fs, script⟩).2.state.Survives fs' →
      ∀ (script' : List Answer) (r : Bytes × UInt64) (w : World NodeDir),
        openFSM constantSum ⟨false, 1, 1⟩ 3 3 false ⟨fs', script'⟩ = (.ok r, w) →
          (dirName constantSum (record constantSum (getNewRandomDBDirName 1 1)) = .ok r.1 ∧
            w.state.dbs r.1 = fs.dbs r.1) ∨
          (r.1 = getNewRandomDBDirName 2 2 ∧ ∃ contents, Except.ok ∅ = (.ok contents : Except String DB) ∧
            w.state.dbs r.1 = some contents) := by
  intro fs script fs' hsurvives script' r w hopen
  have hname : dirName constantSum (record constantSum (getNewRandomDBDirName 1 1)) = .ok (getNewRandomDBDirName 1 1) :=
    dirName_record ⟨1, 1, rfl⟩
  have hatomic := recovery_crash_atomic constantSum (fun _ => .ok ∅) fs _ 2 2
    (legible_record ⟨1, 1, rfl⟩)
    (by
      intro v hv
      obtain rfl := List.mem_singleton.mp hv
      decide +kernel)
    (by
      intro n hn
      rw [hname] at hn
      cases hn
      simp [fs, oneDatabase])
    (by
      rw [hname]
      decide)
  exact hatomic.1 ⟨false, 1, 1⟩ [[7]] .eof script fs' hsurvives ⟨false, 1, 1⟩ 3 3 script' r w hopen

/-- One byte of the checksum is wrong: the next opening deletes the only database and
opens an empty one in its parent directory. The recovery is cut short before it starts. -/
theorem recovery_opens_empty :
    let data := List.replicate 7 0 ++ 1 :: getNewRandomDBDirName 1 1
    let fs := oneDatabase data
    ∃ fs', (recover constantSum (fun _ => .ok ∅) ⟨false, 1, 1⟩ 2 2 [] .eof ⟨fs, []⟩).2.state.Survives fs' ∧
      ∃ script, let opened := openFSM constantSum ⟨false, 1, 1⟩ 3 3 false ⟨fs', script⟩
        opened.1.toOption = some ([], 0) ∧ (opened.2.state.dbs []).map (·.toList) = some [] ∧
          fs.live[getNewRandomDBDirName 1 1]? = some .db ∧
          opened.2.state.live[getNewRandomDBDirName 1 1]? = none := by
  intro data fs
  refine ⟨_, NodeDir.survives_self _, List.replicate 10 .ok, ?_⟩
  decide +kernel

end Armada.Fsm
