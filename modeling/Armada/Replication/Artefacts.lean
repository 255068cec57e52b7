import Armada.Ordered.Bytes
import Armada.Ordered.Map
import Armada.Program.Machine

/-! Snapshot artefacts in the bucket. An artefact is a snapshot object and, behind it, the
meta object that commits it. A publisher that fails half way deletes its snapshot object
again; another one may have committed an artefact of the same key by then. -/

namespace Armada.Replication

open Ordered Program Option

inductive SnapshotType where
  | full
  | incremental
  deriving DecidableEq

structure Meta where
  table : String
  type : SnapshotType
  baseIndex : UInt64
  tipIndex : UInt64
  sizeBytes : ℕ
  sha256 : String
  createdAt : ℕ
  nodeID : String
  format : String
  gcHorizon : UInt64
  deriving DecidableEq

def fullSnapKey (tableName : String) (tipIndex : UInt64) : String :=
  "snapshots/" ++ tableName ++ "/full/" ++ toString tipIndex ++ ".snap"

def fullMetaKey (tableName : String) (tipIndex : UInt64) : String := fullSnapKey tableName tipIndex ++ ".meta"

def incrSnapKey (tableName : String) (baseIndex tipIndex : UInt64) : String :=
  "snapshots/" ++ tableName ++ "/incr/" ++ toString baseIndex ++ "_" ++ toString tipIndex ++ ".snap"

def incrMetaKey (tableName : String) (baseIndex tipIndex : UInt64) : String :=
  incrSnapKey tableName baseIndex tipIndex ++ ".meta"

namespace Meta

def snapKey (m : Meta) : String :=
  match m.type with
  | .full => fullSnapKey m.table m.tipIndex
  | .incremental => incrSnapKey m.table m.baseIndex m.tipIndex

def metaKey (m : Meta) : String :=
  match m.type with
  | .full => fullMetaKey m.table m.tipIndex
  | .incremental => incrMetaKey m.table m.baseIndex m.tipIndex

theorem metaKey_eq (m : Meta) : m.metaKey = m.snapKey ++ ".meta" := by
  unfold metaKey snapKey
  cases m.type <;> rfl

theorem exists_snapKey_eq (m : Meta) : ∃ stem, m.snapKey = stem ++ ".snap" := by
  unfold snapKey
  cases m.type
  · exact ⟨_, rfl⟩
  · exact ⟨_, rfl⟩

/-- A snapshot object and a meta object never have one key: they end in different letters. -/
theorem metaKey_ne_snapKey (m m' : Meta) : m.metaKey ≠ m'.snapKey := by
  obtain ⟨stem, hstem⟩ := m'.exists_snapKey_eq
  intro h
  rw [metaKey_eq, hstem] at h
  have hlast := congrArg (fun s => s.toList.getLast?) h
  simp at hlast

theorem metaKey_congr {m m' : Meta} (h : m.snapKey = m'.snapKey) : m.metaKey = m'.metaKey := by
  rw [metaKey_eq, metaKey_eq, h]

end Meta

inductive Object where
  | snapshot (file : Bytes)
  | committed (m : Meta)
  deriving DecidableEq

abbrev Bucket := OrdMap String Object

/-- The calls of `publishArtifact`, in their order. -/
inductive PublishStage where
  | existing
  | uploadSnap
  | uploadMeta
  | cleanup
  | returned

/-- A run of `publishArtifact`, with the meta filled in for the file. -/
structure Publisher where
  artifact : Meta
  file : Bytes
  stage : PublishStage

/-- `publishArtifact` before its calls: the file ends with its last record. -/
def publishArtifact (sha256 : Bytes → String) (now : ℕ) (m : Meta) (file : Bytes) : Publisher where
  artifact := { m with sizeBytes := file.length, sha256 := sha256 file, createdAt := now }
  file := file
  stage := .existing

/-- The next call of a publisher. -/
def Publisher.call (answer : Answer) (b : Bucket) (p : Publisher) : Option (Publisher × Bucket) :=
  match p.stage with
  | .existing =>
    match answer with
    | .ok =>
      if (b[p.artifact.metaKey]?).isSome then some ({ p with stage := .returned }, b)
      else some ({ p with stage := .uploadSnap }, b)
    | .failed | .lost => some ({ p with stage := .returned }, b)
  | .uploadSnap =>
    let uploaded := b.insert p.artifact.snapKey (.snapshot p.file)
    match answer with
    | .ok => some ({ p with stage := .uploadMeta }, uploaded)
    | .failed => some ({ p with stage := .cleanup }, b)
    | .lost => some ({ p with stage := .cleanup }, uploaded)
  | .uploadMeta =>
    let uploaded := b.insert p.artifact.metaKey (.committed p.artifact)
    match answer with
    | .ok => some ({ p with stage := .returned }, uploaded)
    | .failed => some ({ p with stage := .cleanup }, b)
    | .lost => some ({ p with stage := .cleanup }, uploaded)
  | .cleanup =>
    match answer with
    | .failed => some ({ p with stage := .returned }, b)
    | .ok | .lost => some ({ p with stage := .returned }, b.erase p.artifact.snapKey)
  | .returned => none

/-! ### Publishers at one bucket -/

/-- The bucket and the publishers at it, by the number of their run. -/
structure Publishing where
  bucket : Bucket
  publishers : ℕ → Option Publisher

inductive PublishEvent where
  | publish (run : ℕ) (now : ℕ) (m : Meta) (file : Bytes)
  | call (run : ℕ) (answer : Answer)

def Publishing.step (sha256 : Bytes → String) : PublishEvent → Publishing → Option Publishing
  | .publish run now m file, s =>
    if (s.publishers run).isSome then none
    else some { s with publishers := Function.update s.publishers run (some (publishArtifact sha256 now m file)) }
  | .call run answer, s => do
    let p ← s.publishers run
    let (p, bucket) ← p.call answer s.bucket
    return ⟨bucket, Function.update s.publishers run (some p)⟩

def Publishing.init : Publishing := ⟨∅, fun _ => none⟩

/-- The snapshot object of an artefact is there. -/
def HasBytes (b : Bucket) (m : Meta) : Prop := ∃ file, b[m.snapKey]? = some (.snapshot file)

/-- What is committed has its bytes, and so has what a publisher is about to commit. -/
structure Backed (s : Publishing) : Prop where
  committed : ∀ key m, s.bucket[key]? = some (.committed m) → key = m.metaKey ∧ HasBytes s.bucket m
  uploaded : ∀ run p, s.publishers run = some p → p.stage = .uploadMeta → HasBytes s.bucket p.artifact

/-- A publisher cleans up an artefact only while it is not committed and no other publisher
is about to commit it. -/
def CleanAlone : PublishEvent → Publishing → Prop
  | .publish _ _ _ _, _ => True
  | .call run _, s => ∀ p, s.publishers run = some p → p.stage = .cleanup →
    s.bucket[p.artifact.metaKey]? = none ∧ ∀ run' p', s.publishers run' = some p' → p'.stage = .uploadMeta →
      p'.artifact.snapKey ≠ p.artifact.snapKey

variable {m : Meta} {b : Bucket}

theorem HasBytes.insert_snapshot (h : HasBytes b m) (key : String) (file : Bytes) :
    HasBytes (b.insert key (.snapshot file)) m := by
  obtain ⟨file', hfile'⟩ := h
  rw [HasBytes, OrdMap.getElem?_insert]
  split
  · exact ⟨file, rfl⟩
  · exact ⟨file', hfile'⟩

theorem HasBytes.insert_committed (h : HasBytes b m) (m' : Meta) :
    HasBytes (b.insert m'.metaKey (.committed m')) m := by
  rw [HasBytes, OrdMap.getElem?_insert, if_neg (m'.metaKey_ne_snapKey m)]
  exact h

theorem HasBytes.erase (h : HasBytes b m) {key : String} (hkey : key ≠ m.snapKey) : HasBytes (b.erase key) m := by
  rw [HasBytes, OrdMap.getElem?_erase, if_neg hkey]
  exact h

section
variable {s : Publishing} {run : ℕ} {p p' : Publisher}

theorem Backed.update (hs : Backed s) {bucket : Bucket}
    (hcommitted : ∀ key m, bucket[key]? = some (.committed m) → key = m.metaKey ∧ HasBytes bucket m)
    (hkept : ∀ run' q, run' ≠ run → s.publishers run' = some q → q.stage = .uploadMeta →
    HasBytes s.bucket q.artifact → HasBytes bucket q.artifact)
    (hown : p'.stage = .uploadMeta → HasBytes bucket p'.artifact) :
    Backed ⟨bucket, Function.update s.publishers run (some p')⟩ := by
  refine ⟨hcommitted, fun run' q hq hstage => ?_⟩
  by_cases hrun : run' = run
  · subst hrun
    dsimp only at hq
    rw [Function.update_self] at hq
    cases hq
    exact hown hstage
  · dsimp only at hq
    rw [Function.update_of_ne hrun] at hq
    exact hkept run' q hrun hq hstage (hs.uploaded run' q hq hstage)

theorem Backed.same_bucket (hs : Backed s) (hstage : p'.stage ≠ .uploadMeta) :
    Backed ⟨s.bucket, Function.update s.publishers run (some p')⟩ :=
  hs.update hs.committed (fun _ _ _ _ _ h => h) fun h => absurd h hstage

theorem Backed.upload_snapshot (hs : Backed s) (hp : p'.artifact = p.artifact) :
    Backed ⟨s.bucket.insert p.artifact.snapKey (.snapshot p.file), Function.update s.publishers run (some p')⟩ := by
  refine hs.update (fun key m hkey => ?_) (fun _ _ _ _ _ h => h.insert_snapshot _ _) fun _ => ?_
  · rw [OrdMap.getElem?_insert] at hkey
    split at hkey
    · cases hkey
    · obtain ⟨heq, hbytes⟩ := hs.committed key m hkey
      exact ⟨heq, hbytes.insert_snapshot _ _⟩
  · rw [HasBytes, OrdMap.getElem?_insert, hp, if_pos rfl]
    exact ⟨p.file, rfl⟩

theorem Backed.upload_meta (hs : Backed s) (hbytes : HasBytes s.bucket p.artifact) (hstage : p'.stage ≠ .uploadMeta) :
    Backed ⟨s.bucket.insert p.artifact.metaKey (.committed p.artifact),
    Function.update s.publishers run (some p')⟩ := by
  refine hs.update (fun key m hkey => ?_) (fun _ _ _ _ _ h => h.insert_committed _) fun h => absurd h hstage
  rw [OrdMap.getElem?_insert] at hkey
  split at hkey
  · next heq =>
    obtain rfl := Object.committed.inj (Option.some.inj hkey)
    exact ⟨heq.symm, hbytes.insert_committed _⟩
  · obtain ⟨heq, hold⟩ := hs.committed key m hkey
    exact ⟨heq, hold.insert_committed _⟩

theorem Backed.clean_up (hs : Backed s) (hmeta : s.bucket[p.artifact.metaKey]? = none)
    (halone : ∀ run' q, s.publishers run' = some q → q.stage = .uploadMeta → q.artifact.snapKey ≠ p.artifact.snapKey)
    (hstage : p'.stage ≠ .uploadMeta) :
    Backed ⟨s.bucket.erase p.artifact.snapKey, Function.update s.publishers run (some p')⟩ := by
  refine hs.update (fun key m hkey => ?_) (fun run' q _ hq hstage' h => h.erase (halone run' q hq hstage').symm)
    fun h => absurd h hstage
  rw [OrdMap.getElem?_erase] at hkey
  split at hkey
  · cases hkey
  · obtain ⟨heq, hbytes⟩ := hs.committed key m hkey
    refine ⟨heq, hbytes.erase fun hsnap => ?_⟩
    rw [heq, ← Meta.metaKey_congr hsnap, hmeta] at hkey
    cases hkey

end

theorem Backed.step {sha256 : Bytes → String} {s s' : Publishing} {e : PublishEvent} (hs : Backed s)
    (halone : CleanAlone e s) (h : Publishing.step sha256 e s = some s') : Backed s' := by
  cases e with
  | publish run now m file =>
    simp only [Publishing.step] at h
    split at h
    · cases h
    · cases h
      exact hs.same_bucket (by simp [publishArtifact])
  | call run answer =>
    simp only [Publishing.step, bind_eq_bind, bind_eq_some_iff, pure_def, Option.some.injEq] at h
    obtain ⟨p, hp, ⟨p', bucket⟩, hcall, rfl⟩ := h
    unfold Publisher.call at hcall
    cases hstage : p.stage with
    | existing =>
      simp only [hstage] at hcall
      split at hcall
      · split at hcall
        all_goals
          cases hcall
          exact hs.same_bucket nofun
      all_goals
        cases hcall
        exact hs.same_bucket nofun
    | uploadSnap =>
      simp only [hstage] at hcall
      split at hcall <;> obtain ⟨rfl, rfl⟩ := Prod.mk.inj (Option.some.inj hcall)
      · exact hs.upload_snapshot rfl
      · exact hs.same_bucket nofun
      · exact hs.upload_snapshot rfl
    | uploadMeta =>
      have hbytes := hs.uploaded run p hp hstage
      simp only [hstage] at hcall
      split at hcall <;> obtain ⟨rfl, rfl⟩ := Prod.mk.inj (Option.some.inj hcall)
      · exact hs.upload_meta hbytes nofun
      · exact hs.same_bucket nofun
      · exact hs.upload_meta hbytes nofun
    | cleanup =>
      obtain ⟨hmeta, hothers⟩ := halone p hp hstage
      simp only [hstage] at hcall
      split at hcall
      · cases hcall
        exact hs.same_bucket nofun
      all_goals
        cases hcall
        exact hs.clean_up hmeta hothers nofun
    | returned =>
      simp only [hstage] at hcall
      cases hcall

theorem backed_init : Backed .init := by
  refine ⟨fun key m h => ?_, nofun⟩
  have hempty : Publishing.init.bucket[key]? = none := OrdMap.getElem?_empty key
  rw [hempty] at h
  cases h

/-- In every run whose publishers clean up alone, a committed artefact has its bytes. -/
theorem committed_has_snapshot (sha256 : Bytes → String) (events : List PublishEvent) (s : Publishing)
    (halone : Throughout (Publishing.step sha256) CleanAlone events .init)
    (hrun : runMachine (Publishing.step sha256) events .init = some s) (key : String) (m : Meta)
    (hmeta : s.bucket[key]? = some (.committed m)) : ∃ file, s.bucket[m.snapKey]? = some (.snapshot file) := by
  have hs : Backed s := runMachine_keeps_of (fun e s s' hok hs h => hs.step hok h) halone backed_init hrun
  exact (hs.committed key m hmeta).2

/-! ### Two publishers of one artefact -/

def fullMeta : Meta := ⟨"t", .full, 0, 10, 0, "", 0, "1", "armada-command-v1", 0⟩

/-- One publisher fails with its snapshot object and cleans up; the next one succeeds. -/
def retriedEvents : List PublishEvent :=
  [.publish 1 0 fullMeta [1], .call 1 .ok, .call 1 .lost, .call 1 .ok, .publish 2 5 fullMeta [2], .call 2 .ok,
    .call 2 .ok, .call 2 .ok]

theorem cleanAlone_retriedEvents : Throughout (Publishing.step fun _ => "") CleanAlone retriedEvents .init := by
  refine ⟨trivial, fun s1 h1 => ?_⟩
  cases h1
  refine ⟨fun p hp hstage => ?_, fun s2 h2 => ?_⟩
  · cases hp
    cases hstage
  cases h2
  refine ⟨fun p hp hstage => ?_, fun s3 h3 => ?_⟩
  · cases hp
    cases hstage
  cases h3
  refine ⟨fun p hp _ => ⟨?_, fun run' q hq hstage => ?_⟩, fun s4 h4 => ?_⟩
  · cases hp
    rfl
  · by_cases hrun : run' = 1
    · subst hrun
      cases hq
      cases hstage
    · simp [Function.update_of_ne hrun, Publishing.init] at hq
  cases h4
  refine ⟨trivial, fun s5 h5 => ?_⟩
  cases h5
  refine ⟨fun p hp hstage => ?_, fun s6 h6 => ?_⟩
  · cases hp
    cases hstage
  cases h6
  refine ⟨fun p hp hstage => ?_, fun s7 h7 => ?_⟩
  · cases hp
    cases hstage
  cases h7
  refine ⟨fun p hp hstage => ?_, fun _ _ => trivial⟩
  cases hp
  cases hstage

theorem committed_has_snapshot_retriedEvents :
    ∃ s m file, runMachine (Publishing.step fun _ => "") retriedEvents .init = some s ∧
      s.bucket[fullMeta.metaKey]? = some (.committed m) ∧ s.bucket[m.snapKey]? = some (.snapshot file) := by
  have hbucket : (runMachine (Publishing.step fun _ => "") retriedEvents .init).map
      (fun s => s.bucket[fullMeta.metaKey]?) =
        some (some (.committed { fullMeta with sizeBytes := 1, createdAt := 5 })) := by
    decide +kernel
  obtain ⟨s, hs, hmeta⟩ := map_eq_some_iff.mp hbucket
  obtain ⟨file, hfile⟩ := committed_has_snapshot (fun _ => "") retriedEvents s cleanAlone_retriedEvents hs _ _ hmeta
  exact ⟨s, _, file, hs, hmeta, hfile⟩

/-- Both have uploaded the snapshot object when the first one fails to upload its meta
object; the second one commits, and then the first one cleans up. -/
theorem committed_without_snapshot : ∃ s m, runMachine (Publishing.step fun _ => "")
        [.publish 1 0 fullMeta [1], .call 1 .ok, .call 1 .ok, .publish 2 0 fullMeta [1], .call 2 .ok, .call 2 .ok,
          .call 1 .failed, .call 2 .ok, .call 1 .ok] .init = some s ∧
      s.bucket[fullMeta.metaKey]? = some (.committed m) ∧ s.bucket[m.snapKey]? = none := by
  have hbucket : (runMachine (Publishing.step fun _ => "")
      [.publish 1 0 fullMeta [1], .call 1 .ok, .call 1 .ok, .publish 2 0 fullMeta [1], .call 2 .ok, .call 2 .ok,
        .call 1 .failed, .call 2 .ok, .call 1 .ok] .init).map
        (fun s => (s.bucket[fullMeta.metaKey]?, s.bucket[fullMeta.snapKey]?)) =
      some (some (.committed { fullMeta with sizeBytes := 1 }), none) := by
    decide +kernel
  obtain ⟨s, hs, hvalues⟩ := map_eq_some_iff.mp hbucket
  obtain ⟨hmeta, hsnap⟩ := Prod.mk.inj hvalues
  exact ⟨s, _, hs, hmeta, hsnap⟩

end Armada.Replication
