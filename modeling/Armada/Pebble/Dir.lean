import Armada.Pebble.Engine
import Armada.Program.Procedure

/-! The data directory of a table replica. It holds the database directories, a file that names
the current one under a checksum, and the file that replaces it. A change of the directory
survives a crash for certain once the directory is synced, and the contents of a file once the
file is. -/

namespace Armada.Pebble

open Ordered Program Program.Proc List

/-! ### The file system -/

inductive DirEntry where
  | file (data : Bytes) (synced : Bool)
  | db
  deriving DecidableEq

/-- The entries of the directory as a running process sees them, those of earlier moments
that a crash may still bring back, and the contents of the databases. A database makes its
own contents durable; those of a removed one are gone at once. -/
structure NodeDir where
  live : OrdMap Bytes DirEntry
  older : List (OrdMap Bytes DirEntry)
  dbs : Bytes → Option DB

namespace NodeDir

variable (fs : NodeDir)

def views : List (OrdMap Bytes DirEntry) := fs.live :: fs.older

def update (live : OrdMap Bytes DirEntry) : NodeDir :=
  { fs with live := live, older := fs.views }

def create (name : Bytes) (fs : NodeDir) : Except String NodeDir :=
  .ok (fs.update (fs.live.insert name (.file [] false)))

def write (name data : Bytes) (fs : NodeDir) : Except String NodeDir :=
  match fs.live[name]? with
  | some (.file old _) => .ok (fs.update (fs.live.insert name (.file (old ++ data) false)))
  | _ => .error "file does not exist"

def sync (name : Bytes) (fs : NodeDir) : Except String NodeDir :=
  match fs.live[name]? with
  | some (.file data _) => .ok (fs.update (fs.live.insert name (.file data true)))
  | _ => .error "file does not exist"

def rename (old new : Bytes) (fs : NodeDir) : Except String NodeDir :=
  match fs.live[old]? with
  | some e => .ok (fs.update ((fs.live.erase old).insert new e))
  | none => .error "file does not exist"

def removeAll (name : Bytes) (fs : NodeDir) : Except String NodeDir :=
  .ok { fs.update (fs.live.erase name) with dbs := Function.update fs.dbs name none }

def syncDir : Except String NodeDir := .ok { fs with older := [] }

/-- The path of the directory itself ends in no name. -/
def stat (name : Bytes) (fs : NodeDir) : Except String Unit :=
  if name = [] ∨ name ∈ fs.live then .ok () else .error "file does not exist"

def list : Except String (List Bytes) := .ok fs.live.keys

/-- Opening a database where there is none makes an empty one. -/
def openDB (name : Bytes) (fs : NodeDir) : Except String NodeDir :=
  match fs.live[name]? with
  | some (.file _ _) => .error "not a directory"
  | some .db => .ok { fs with dbs := Function.update fs.dbs name (some ((fs.dbs name).getD ∅)) }
  | none =>
    let live := if name = [] then fs.live else fs.live.insert name .db
    .ok { fs.update live with dbs := Function.update fs.dbs name (some ((fs.dbs name).getD ∅)) }

/-- The contents of a database, all replaced at once. -/
def fill (name : Bytes) (contents : DB) (fs : NodeDir) : Except String NodeDir :=
  .ok { fs with dbs := Function.update fs.dbs name (some contents) }

/-- What a crash leaves of an entry. -/
inductive Remains : Option DirEntry → Option DirEntry → Prop
  | nothing : Remains none none
  | db : Remains (some .db) (some .db)
  | synced (data : Bytes) : Remains (some (.file data true)) (some (.file data true))
  | unsynced (data data' : Bytes) (synced : Bool) :
    Remains (some (.file data false)) (some (.file data' synced))

/-- What may be found after a crash, or after none. Each name is found as it was at some
moment since the last sync. -/
structure Survives (fs fs' : NodeDir) : Prop where
  older : fs'.older = []
  dbs : fs'.dbs = fs.dbs
  entry : ∀ name : Bytes, ∃ v ∈ fs.views, Remains v[name]? fs'.live[name]?

theorem remains_self (e : Option DirEntry) : Remains e e := by
  match e with
  | none => exact .nothing
  | some .db => exact .db
  | some (.file data true) => exact .synced data
  | some (.file data false) => exact .unsynced data data false

theorem survives_self : fs.Survives { fs with older := [] } :=
  ⟨rfl, rfl, fun _ => ⟨fs.live, mem_cons_self .., remains_self _⟩⟩

end NodeDir

/-! ### Names -/

def ascii (s : List Char) : Bytes := s.map fun c => UInt8.ofNat c.toNat

def currentDBFilename : Bytes := ascii "current".toList
def updatingDBFilename : Bytes := ascii "current.updating".toList

/-- Two numbers: a random one and the time. -/
def getNewRandomDBDirName (random now : ℕ) : Bytes :=
  ascii (Nat.toDigits 10 random) ++ ascii ['_'] ++ ascii (Nat.toDigits 10 now)

/-- The names that directories of databases are given. -/
def IsDBDirName (name : Bytes) : Prop := ∃ random now, name = getNewRandomDBDirName random now

theorem ascii_le_of_isDigit {c : Char} (hc : c.isDigit = true) : UInt8.ofNat c.toNat ≤ 57 := by
  have hle : c.toNat ≤ 57 := by
    simp only [Char.isDigit, Bool.and_eq_true, decide_eq_true_eq] at hc
    exact UInt32.le_iff_toNat_le.mp hc.2
  rw [UInt8.le_iff_toNat_le, UInt8.toNat_ofNat']
  exact le_trans (Nat.mod_le _ _) hle

variable {name : Bytes}

theorem IsDBDirName.head (h : IsDBDirName name) : ∃ d rest, name = d :: rest ∧ d ≤ 57 := by
  obtain ⟨random, now, rfl⟩ := h
  obtain ⟨c, cs, hcs⟩ : ∃ c cs, Nat.toDigits 10 random = c :: cs :=
    exists_cons_of_ne_nil Nat.toDigits_ne_nil
  have hc : c.isDigit = true :=
    Nat.isDigit_of_mem_toDigits (b := 10) (n := random) (by decide) (by decide) (by simp [hcs])
  refine ⟨UInt8.ofNat c.toNat, ?_, ?_, ascii_le_of_isDigit hc⟩
  · exact ascii cs ++ ascii ['_'] ++ ascii (Nat.toDigits 10 now)
  · simp [getNewRandomDBDirName, hcs, ascii]

theorem IsDBDirName.ne_of_letter (h : IsDBDirName name) {c : UInt8} {rest : Bytes} (hc : 57 < c) :
    name ≠ c :: rest := by
  obtain ⟨d, ds, rfl, hd⟩ := h.head
  rintro heq
  obtain ⟨rfl, -⟩ := List.cons.inj heq
  exact absurd hd (not_le.mpr hc)

theorem IsDBDirName.ne_current (h : IsDBDirName name) : name ≠ currentDBFilename :=
  h.ne_of_letter (by decide)

theorem IsDBDirName.ne_updating (h : IsDBDirName name) : name ≠ updatingDBFilename :=
  h.ne_of_letter (by decide)

/-! ### The file that names the current database -/

/-- The first eight bytes of a digest. -/
structure Checksum where
  sum : Bytes → Bytes
  length_sum : ∀ data, (sum data).length = 8

variable (md5 : Checksum)

/-- What the file holds that names the database directory `dbdir`. -/
def record (dbdir : Bytes) : Bytes := md5.sum dbdir ++ dbdir

def saveCurrentDBDirName (dbdir : Bytes) : Proc NodeDir Unit := do
  change (NodeDir.create updatingDBFilename)
  let written ← attempt do
    change (NodeDir.write updatingDBFilename (md5.sum dbdir))
    change (NodeDir.write updatingDBFilename dbdir)
    change (NodeDir.sync updatingDBFilename)
  -- the deferred sync of the directory may fail unnoticed
  let _ ← attempt (change NodeDir.syncDir)
  resume written

def replaceCurrentDBFile : Proc NodeDir Unit := do
  change (NodeDir.rename updatingDBFilename currentDBFilename)
  change NodeDir.syncDir

/-- The name in the contents of the file. A checksum that does not match comes back as
the empty name and no error. -/
def dirName (data : Bytes) : Except String Bytes :=
  if data.length ≤ 8 then .error "file too short"
  else if data.take 8 ≠ md5.sum (data.drop 8) then .ok []
  else .ok (data.drop 8)

def getCurrentDBDirName : Proc NodeDir Bytes :=
  ask fun fs =>
    match fs.live[currentDBFilename]? with
    | some (.file data _) => dirName md5 data
    | _ => .error "file does not exist"

def cleanupNodeDataDir : Proc NodeDir Unit := do
  change (NodeDir.removeAll updatingDBFilename)
  let dbdir ← getCurrentDBDirName md5
  let files ← ask NodeDir.list
  files.forM fun fi =>
    if fi = currentDBFilename then pure ()
    else if fi ≠ dbdir then change (NodeDir.removeAll fi)
    else pure ()

/-- The contents are too short to be read, or were written for a database directory. -/
def Legible (data : Bytes) : Prop :=
  data.length ≤ 8 ∨ ∃ dbdir, IsDBDirName dbdir ∧ data = record md5 dbdir

variable {md5}

variable {dbdir : Bytes}

theorem dirName_record (h : IsDBDirName dbdir) : dirName md5 (record md5 dbdir) = .ok dbdir := by
  obtain ⟨d, rest, rfl, -⟩ := h.head
  have hlen : (md5.sum (d :: rest)).length = 8 := md5.length_sum _
  have hlong : ¬ (record md5 (d :: rest)).length ≤ 8 := by simp [record, hlen]
  have htake : (record md5 (d :: rest)).take 8 = md5.sum (d :: rest) := by
    rw [record, take_append_of_le_length (by omega), take_of_length_le (by omega)]
  have hdrop : (record md5 (d :: rest)).drop 8 = d :: rest := by
    rw [record, drop_append_of_le_length (by omega), drop_of_length_le (by omega), nil_append]
  simp [dirName, hlong, htake, hdrop]

theorem Legible.isDBDirName {data n : Bytes} (h : Legible md5 data) (hn : dirName md5 data = .ok n) :
    IsDBDirName n := by
  obtain hshort | ⟨dbdir, hdb, rfl⟩ := h
  · simp [dirName, hshort] at hn
  · rw [dirName_record hdb] at hn
    cases hn
    exact hdb

theorem legible_record (h : IsDBDirName dbdir) : Legible md5 (record md5 dbdir) :=
  .inr ⟨dbdir, h, rfl⟩

/-! ### What an operation leaves alone -/

/-- Nothing under a name other than `name` has changed. -/
structure Frame (name : Bytes) (fs fs' : NodeDir) : Prop where
  views : ∀ v ∈ fs'.views, v ∈ fs.views ∨ ∀ k, k ≠ name → v[k]? = fs.live[k]?
  live : ∀ k, k ≠ name → fs'.live[k]? = fs.live[k]?
  dbs : ∀ k, k ≠ name → fs'.dbs k = fs.dbs k

namespace Frame

variable {name : Bytes} {fs fs' : NodeDir}

theorem update {live : OrdMap Bytes DirEntry} {dbs : Bytes → Option DB}
    (hlive : ∀ k, k ≠ name → live[k]? = fs.live[k]?) (hdbs : ∀ k, k ≠ name → dbs k = fs.dbs k) :
    Frame name fs { fs.update live with dbs := dbs } := by
  refine ⟨fun v hv => ?_, hlive, hdbs⟩
  obtain rfl | hv := mem_cons.mp hv
  · exact .inr hlive
  · exact .inl hv

theorem insert (e : DirEntry) : Frame name fs (fs.update (fs.live.insert name e)) := by
  have hlive : ∀ k, k ≠ name → (fs.live.insert name e)[k]? = fs.live[k]? := by
    intro k hk
    rw [OrdMap.getElem?_insert, if_neg hk.symm]
  exact update hlive fun _ _ => rfl

theorem contents (db : Option DB) : Frame name fs { fs with dbs := Function.update fs.dbs name db } :=
  ⟨fun _ hv => .inl hv, fun _ _ => rfl, fun _ hk => Function.update_of_ne hk ..⟩

theorem create (h : fs.create name = .ok fs') : Frame name fs fs' := by
  cases h
  exact insert _

theorem write {data : Bytes} (h : fs.write name data = .ok fs') : Frame name fs fs' := by
  unfold NodeDir.write at h
  split at h
  · cases h
    exact insert _
  · cases h

theorem sync (h : fs.sync name = .ok fs') : Frame name fs fs' := by
  unfold NodeDir.sync at h
  split at h
  · cases h
    exact insert _
  · cases h

theorem removeAll (h : fs.removeAll name = .ok fs') : Frame name fs fs' := by
  cases h
  refine update (fun k hk => ?_) fun k hk => Function.update_of_ne hk ..
  rw [OrdMap.getElem?_erase, if_neg hk.symm]

theorem openDB (h : fs.openDB name = .ok fs') : Frame name fs fs' := by
  unfold NodeDir.openDB at h
  split at h
  · cases h
  · cases h
    exact contents _
  · cases h
    refine update (fun k hk => ?_) fun k hk => Function.update_of_ne hk ..
    split
    · rfl
    · rw [OrdMap.getElem?_insert, if_neg hk.symm]

theorem fill {db : DB} (h : fs.fill name db = .ok fs') : Frame name fs fs' := by
  cases h
  exact contents _

end Frame

/-! ### What keeps the current database -/

variable (md5) in
/-- The file that names the current database is `data` in every view, and the database it
names has the contents that `db` gives it. -/
structure Pinned (data : Bytes) (db : Bytes → Option DB) (fs : NodeDir) : Prop where
  current : ∀ v ∈ fs.views, v[currentDBFilename]? = some (.file data true)
  named : ∀ n, dirName md5 data = .ok n → fs.dbs n = db n

section
variable {data : Bytes} {db : Bytes → Option DB} {fs fs' : NodeDir}

theorem Pinned.live (h : Pinned md5 data db fs) : fs.live[currentDBFilename]? = some (.file data true) :=
  h.current _ (mem_cons_self ..)

/-- An operation under another name than those of the current file and its database. -/
theorem Pinned.frame {name : Bytes} (h : Pinned md5 data db fs) (hframe : Frame name fs fs')
    (hcur : name ≠ currentDBFilename) (hnamed : dirName md5 data ≠ .ok name) : Pinned md5 data db fs' := by
  constructor
  · intro v hv
    obtain hv | hv := hframe.views v hv
    · exact h.current v hv
    · rw [hv _ hcur.symm, h.live]
  · intro n hn
    have hne : n ≠ name := by
      rintro rfl
      exact hnamed hn
    rw [hframe.dbs n hne, h.named n hn]

theorem Legible.dirName_ne_updating (h : Legible md5 data) : dirName md5 data ≠ .ok updatingDBFilename :=
  fun hn => (h.isDBDirName hn).ne_updating rfl

/-- A cleanup stays away from the current file and the database it names, whatever becomes
of the cleanup. -/
theorem cleanupNodeDataDir_keeps {I : NodeDir → Prop} (hdata : Legible md5 data)
    (hlive : ∀ fs, I fs → ∃ synced, fs.live[currentDBFilename]? = some (.file data synced))
    (hframe : ∀ fs fs' name, I fs → Frame name fs fs' → name ≠ currentDBFilename →
    dirName md5 data ≠ .ok name → I fs') : Preserves I (cleanupNodeDataDir md5) := by
  refine .bind (.change fun fs fs' h hfs => ?_) fun _ => ?_
  · exact hframe fs fs' _ h (.removeAll hfs) (by decide) hdata.dirName_ne_updating
  refine Triple.bind (Q := fun dbdir fs => I fs ∧ dirName md5 data = .ok dbdir)
    (.ask (fun _ => id) fun fs n h hn => ⟨h, ?_⟩) fun dbdir => .given fun hdbdir => ?_
  · obtain ⟨synced, hcur⟩ := hlive fs h
    simpa [hcur] using hn
  refine Preserves.bind (.ask _) fun files => .forM fun fi _ => ?_
  split
  · exact .pure _
  · next hfi =>
    split
    · next hne =>
      refine .change fun fs fs' h hfs => hframe fs fs' fi h (.removeAll hfs) hfi ?_
      rw [hdbdir]
      exact fun heq => hne (Except.ok.inj heq).symm
    · exact .pure _

theorem Pinned.cleanupNodeDataDir (hdata : Legible md5 data) :
    Preserves (Pinned md5 data db) (cleanupNodeDataDir md5) :=
  cleanupNodeDataDir_keeps hdata (fun _ h => ⟨true, h.live⟩) fun _ _ _ h => h.frame

theorem cleanupNodeDataDir_named {synced : Bool} (hdata : Legible md5 data)
    (hcur : fs.live[currentDBFilename]? = some (.file data synced)) {n : Bytes} (hn : dirName md5 data = .ok n)
    (script : List Answer) : (cleanupNodeDataDir md5 ⟨fs, script⟩).2.state.live[n]? = fs.live[n]? ∧
    (cleanupNodeDataDir md5 ⟨fs, script⟩).2.state.dbs n = fs.dbs n := by
  have hkeep : Preserves (fun fs' => fs'.live[currentDBFilename]? = some (.file data synced) ∧
      fs'.live[n]? = fs.live[n]? ∧ fs'.dbs n = fs.dbs n) (cleanupNodeDataDir md5) := by
    refine cleanupNodeDataDir_keeps hdata (fun _ h => ⟨synced, h.1⟩) fun fs1 fs2 name h hframe hname hnamed => ?_
    have hne : n ≠ name := by
      rintro rfl
      exact hnamed hn
    exact ⟨(hframe.live _ hname.symm).trans h.1, (hframe.live n hne).trans h.2.1, (hframe.dbs n hne).trans h.2.2⟩
  exact (hkeep.after ⟨fs, script⟩ ⟨hcur, rfl, rfl⟩).2

/-- The database `dbdir` is named by a file that waits to become the current one. -/
structure Ready (md5 : Checksum) (data : Bytes) (db : Bytes → Option DB) (dbdir : Bytes) (contents : DB)
    (fs : NodeDir) : Prop where
  pinned : Pinned md5 data db fs
  waiting : fs.live[updatingDBFilename]? = some (.file (record md5 dbdir) true)
  filled : fs.dbs dbdir = some contents

theorem Pinned.syncDir (h : Pinned md5 data db fs) (hfs : fs.syncDir = .ok fs') : Pinned md5 data db fs' := by
  cases hfs
  exact ⟨fun v hv => h.current v (mem_cons.mpr (.inl (mem_singleton.mp hv))), h.named⟩

variable {dbdir : Bytes}

variable {contents : DB}

theorem Ready.syncDir (h : Ready md5 data db dbdir contents fs)
    (hfs : fs.syncDir = .ok fs') : Ready md5 data db dbdir contents fs' := by
  refine ⟨h.pinned.syncDir hfs, ?_, ?_⟩ <;> cases hfs
  · exact h.waiting
  · exact h.filled

theorem saveCurrentDBDirName_ready (hdata : Legible md5 data) (hdbdir : IsDBDirName dbdir) :
    Triple (fun fs => Pinned md5 data db fs ∧ fs.dbs dbdir = some contents) (saveCurrentDBDirName md5 dbdir)
    (fun _ => Ready md5 data db dbdir contents) (Pinned md5 data db) := by
  -- the file that waits has the contents `bytes` so far
  let Writing (bytes : Bytes) (synced : Bool) (fs : NodeDir) : Prop :=
    (Pinned md5 data db fs ∧ fs.dbs dbdir = some contents) ∧
      fs.live[updatingDBFilename]? = some (.file bytes synced)
  have hkeep : ∀ {fs fs' : NodeDir}, Frame updatingDBFilename fs fs' →
      Pinned md5 data db fs ∧ fs.dbs dbdir = some contents →
      Pinned md5 data db fs' ∧ fs'.dbs dbdir = some contents := fun hframe h =>
    ⟨h.1.frame hframe (by decide) hdata.dirName_ne_updating, (hframe.dbs _ hdbdir.ne_updating).trans h.2⟩
  have hwrite : ∀ bytes more, Triple (Writing bytes false) (change (NodeDir.write updatingDBFilename more))
      (fun _ => Writing (bytes ++ more) false) (Pinned md5 data db) := by
    intro bytes more
    refine .change (fun _ h => h.1.1) fun fs fs' h hfs => ?_
    have hpin := hkeep (.write hfs) h.1
    refine ⟨⟨hpin, ?_⟩, hpin.1⟩
    simp only [NodeDir.write, h.2, Except.ok.injEq] at hfs
    simp [← hfs, NodeDir.update]
  refine .bind (Q := fun _ => Writing [] false) (.change (fun _ h => h.1) fun fs fs' h hfs => ?_) fun _ => ?_
  · have hpin := hkeep (.create hfs) h
    refine ⟨⟨hpin, ?_⟩, hpin.1⟩
    cases hfs
    simp [NodeDir.update]
  refine .bind (.attempt (Q := fun _ => Ready md5 data db dbdir contents) (E := Pinned md5 data db) ?_)
    fun written => ?_
  · refine .bind (hwrite [] _) fun _ => .bind (hwrite _ _) fun _ => ?_
    refine .change (fun _ h => h.1.1) fun fs fs' h hfs => ?_
    have hpin := hkeep (.sync hfs) h.1
    refine ⟨⟨hpin.1, ?_, hpin.2⟩, hpin.1⟩
    simp only [NodeDir.sync, h.2, Except.ok.injEq] at hfs
    simp [← hfs, NodeDir.update, record]
  cases written with
  | error e =>
    have hsync : Preserves (Pinned md5 data db) (attempt (change NodeDir.syncDir)) :=
      .attempt (.change fun fs fs' h hfs => h.syncDir hfs)
    exact Triple.bind hsync fun _ => .fail e fun _ => id
  | ok u =>
    have hsync : Preserves (Ready md5 data db dbdir contents) (attempt (change NodeDir.syncDir)) :=
      .attempt (.change fun fs fs' h hfs => h.syncDir hfs)
    exact .bind (Triple.mono hsync (fun _ => id) (fun _ _ => id) fun _ h => h.pinned) fun _ => .pure u fun _ => id

/-- In the view `v` the current file is `data`, and the database it names has the contents
that `db` gives it. -/
def Names (md5 : Checksum) (data : Bytes) (db : Bytes → Option DB) (fs : NodeDir) (v : OrdMap Bytes DirEntry) : Prop :=
  v[currentDBFilename]? = some (.file data true) ∧ ∀ n, dirName md5 data = .ok n → fs.dbs n = db n

/-- Every view has the old database or the new one. -/
def Switching (md5 : Checksum) (data : Bytes) (db : Bytes → Option DB) (dbdir : Bytes) (contents : DB)
    (fs : NodeDir) : Prop :=
  ∀ v ∈ fs.views, Names md5 data db fs v ∨ Names md5 (record md5 dbdir) (fun _ => some contents) fs v

theorem Pinned.names (h : Pinned md5 data db fs) {v : OrdMap Bytes DirEntry} (hv : v ∈ fs.views) :
    Names md5 data db fs v := ⟨h.current v hv, h.named⟩

theorem Pinned.switching (h : Pinned md5 data db fs) :
    Switching md5 data db dbdir contents fs := fun _ hv => .inl (h.names hv)

theorem Pinned.switched (h : Pinned md5 (record md5 dbdir) (fun _ => some contents) fs) :
    Switching md5 data db dbdir contents fs := fun _ hv => .inr (h.names hv)

theorem NodeDir.Survives.pinned (hfs : fs.Survives fs') :
    ∃ v ∈ fs.views, ∀ {data : Bytes} {db : Bytes → Option DB}, Names md5 data db fs v → Pinned md5 data db fs' := by
  obtain ⟨v, hv, hremains⟩ := hfs.entry currentDBFilename
  refine ⟨v, hv, ?_⟩
  rintro data db ⟨hcur, hnamed⟩
  refine ⟨fun w hw => ?_, fun n hn => hfs.dbs ▸ hnamed n hn⟩
  have hw : w = fs'.live := by simpa [NodeDir.views, hfs.older] using hw
  rw [hcur] at hremains
  rw [hw]
  generalize fs'.live[currentDBFilename]? = e at hremains
  cases hremains
  rfl

theorem Pinned.survives (h : Pinned md5 data db fs) (hfs : fs.Survives fs') : Pinned md5 data db fs' := by
  obtain ⟨v, hv, hpin⟩ := hfs.pinned
  exact hpin (h.names hv)

theorem Switching.survives (h : Switching md5 data db dbdir contents fs) (hfs : fs.Survives fs') :
    Pinned md5 data db fs' ∨ Pinned md5 (record md5 dbdir) (fun _ => some contents) fs' := by
  obtain ⟨v, hv, hpin⟩ := hfs.pinned
  exact (h v hv).imp hpin hpin

theorem replaceCurrentDBFile_switches (hdbdir : IsDBDirName dbdir) :
    Triple (Ready md5 data db dbdir contents) replaceCurrentDBFile
    (fun _ => Pinned md5 (record md5 dbdir) fun _ => some contents) (Switching md5 data db dbdir contents) := by
  have hnames : ∀ {fs : NodeDir} {v : OrdMap Bytes DirEntry}, v[currentDBFilename]? =
    some (.file (record md5 dbdir) true) →
      fs.dbs dbdir = some contents → Names md5 (record md5 dbdir) (fun _ => some contents) fs v := by
    refine fun hcur hdb => ⟨hcur, fun n hn => ?_⟩
    rw [dirName_record hdbdir] at hn
    exact Except.ok.inj hn ▸ hdb
  refine .bind (Q := fun _ fs => Switching md5 data db dbdir contents fs ∧
      Names md5 (record md5 dbdir) (fun _ => some contents) fs fs.live)
    (.change (fun _ h => h.pinned.switching) fun fs fs' h hfs => ?_) fun _ => ?_
  · simp only [NodeDir.rename, h.waiting, Except.ok.injEq] at hfs
    have hlive : Names md5 (record md5 dbdir) (fun _ => some contents) fs' fs'.live := by
      refine hnames ?_ ?_ <;> subst hfs
      · simp [NodeDir.update]
      · exact h.filled
    have hswitch : Switching md5 data db dbdir contents fs' := by
      intro v hv
      subst hfs
      obtain rfl | hv := mem_cons.mp hv
      · exact .inr hlive
      · exact .inl ⟨h.pinned.current v hv, h.pinned.named⟩
    exact ⟨⟨hswitch, hlive⟩, hswitch⟩
  · refine .change (fun _ h => h.1) fun fs fs' h hfs => ?_
    cases hfs
    have hpin : Pinned md5 (record md5 dbdir) (fun _ => some contents) { fs with older := [] } :=
      ⟨fun v hv => mem_singleton.mp hv ▸ h.2.1, h.2.2⟩
    exact ⟨hpin, hpin.switched⟩

end

end Armada.Pebble
