import Armada.Ordered.Bytes
import Armada.Program.Fallible

/-! Client sessions. They are kept in the order of their last use and the least recent one goes
when there are too many. Saving them uses each of them once, in an order that leaves the order
of use as it was, and loading brings it back. -/

namespace Armada.Rsm

open Ordered List

/-- What the state machine answers to an update. -/
structure Result where
  value : UInt64
  data : Bytes
  deriving DecidableEq

def emptyResult : Result := ⟨0, []⟩

structure Session where
  clientID : UInt64
  respondedUpTo : UInt64
  history : UInt64 → Option Result

namespace Session

variable (s : Session)

def new (clientID : UInt64) : Session := ⟨clientID, 0, fun _ => none⟩

def clearTo (upTo : UInt64) : Session :=
  if upTo ≤ s.respondedUpTo then s
  else if upTo = s.respondedUpTo + 1 then
    { s with history := Function.update s.history upTo none, respondedUpTo := upTo }
  else { s with history := fun k => if k ≤ upTo then none else s.history k, respondedUpTo := upTo }

def hasResponded (seriesID : UInt64) : Bool := seriesID ≤ s.respondedUpTo

def addResponse (seriesID : UInt64) (result : Result) : Session :=
  { s with history := Function.update s.history seriesID (some result) }

@[simp] theorem clientID_clearTo (upTo : UInt64) : (s.clearTo upTo).clientID = s.clientID := by
  unfold clearTo
  split_ifs <;> rfl

end Session

/-! ### The cache -/

/-- The sessions from the most recent one to the least recent one. -/
structure LRUSession where
  size : ℕ
  sessions : List Session
  size_pos : 0 < size
  nodup : (sessions.map Session.clientID).Nodup
  fits : sessions.length ≤ size

namespace LRUSession

variable (rec : LRUSession)

/-- The session of the client is now the first one. -/
def toFront (clientID : UInt64) (l : List Session) : List Session :=
  l.filter (·.clientID = clientID) ++ l.filter (¬ ·.clientID = clientID)

theorem toFront_perm (clientID : UInt64) (l : List Session) : (toFront clientID l).Perm l := by
  simpa [toFront] using filter_append_perm (fun s : Session => decide (s.clientID = clientID)) l

def getSession (clientID : UInt64) : Option Session × LRUSession :=
  (rec.sessions.find? (·.clientID = clientID), { rec with
    sessions := toFront clientID rec.sessions
    nodup := ((toFront_perm ..).map _).nodup_iff.mpr rec.nodup
    fits := (toFront_perm ..).length_eq.trans_le rec.fits })

def addSession (s : Session) : LRUSession := { rec with
  sessions := (s :: rec.sessions.filter (·.clientID ≠ s.clientID)).take rec.size
  nodup := by
    rw [map_take]
    refine (nodup_cons.mpr ⟨by simp, ?_⟩).sublist (take_sublist ..)
    exact rec.nodup.sublist (filter_sublist.map _)
  fits := length_take_le .. }

def delSession (clientID : UInt64) : LRUSession := { rec with
  sessions := rec.sessions.filter (·.clientID ≠ clientID)
  nodup := rec.nodup.sublist (filter_sublist.map _)
  fits := (length_filter_le ..).trans rec.fits }

/-- A session is changed in its place. -/
def modify (f : Session → Session) (hf : ∀ s, (f s).clientID = s.clientID) (clientID : UInt64) :
    LRUSession := { rec with
  sessions := rec.sessions.map fun s => if s.clientID = clientID then f s else s
  nodup := by simpa [Function.comp_def, apply_ite Session.clientID, hf] using rec.nodup
  fits := by simpa using rec.fits }

end LRUSession

/-- The text of a session, which is read back without loss. -/
structure SessionCodec where
  marshal : Session → Bytes
  unmarshal : Bytes → Option Session
  unmarshal_marshal : ∀ s, unmarshal (marshal s) = some s

instance : Countable Result :=
  Function.Injective.countable (f := fun r : Result => (r.value, r.data)) <| by
    rintro ⟨⟩ ⟨⟩ h
    simp_all

instance : Countable Session :=
  Function.Injective.countable (f := fun s : Session => (s.clientID, s.respondedUpTo, s.history)) <| by
    rintro ⟨⟩ ⟨⟩ h
    simp_all

/-- Sessions are numbered, and a text is as long as the number says. -/
noncomputable def SessionCodec.numbered : SessionCodec :=
  let _ := Encodable.ofCountable Session
  ⟨fun s => replicate (Encodable.encode s) 0, fun bs => Encodable.decode bs.length, fun s => by simp⟩

/-- What a save writes. -/
structure SessionImage where
  size : ℕ
  sessions : List Bytes

namespace LRUSession

def getSessions : List UInt64 → LRUSession → List Session × LRUSession
  | [], rec => ([], rec)
  | id :: ids, rec =>
    let (s, rec) := rec.getSession id
    let (rest, rec) := getSessions ids rec
    (s.toList ++ rest, rec)

/-- The clients are listed as the cache has them, then the session of each is used. -/
def save (orderedDo : LRUSession → List UInt64) (codec : SessionCodec) (rec : LRUSession) :
    SessionImage × LRUSession :=
  let (sessions, rec') := getSessions (orderedDo rec) rec
  (⟨rec.size, sessions.map codec.marshal⟩, rec')

/-- The image of a save is read into a new cache; `none` stands for a panic. -/
def load (codec : SessionCodec) (image : SessionImage) : Option LRUSession :=
  if h : 0 < image.size then do
    let sessions ← image.sessions.mapM codec.unmarshal
    some (sessions.foldl addSession ⟨image.size, [], h, .nil, Nat.zero_le _⟩)
  else none

/-- The cache lists its clients from the least recent one on. -/
def FromLeastRecent (orderedDo : LRUSession → List UInt64) : Prop :=
  ∀ rec, orderedDo rec = (rec.sessions.map Session.clientID).reverse

end LRUSession

/-! ### Entries -/

structure SessionEntry where
  clientID : UInt64
  seriesID : UInt64
  respondedTo : UInt64
  cmd : Bytes

namespace SessionEntry

variable (e : SessionEntry)

def isSessionManaged : Bool := e.clientID ≠ 0

def isNoOPSession : Bool := e.seriesID = 0

def isNewSessionRequest : Bool := e.cmd = [] ∧ e.clientID ≠ 0 ∧ e.seriesID = 0xFFFFFFFFFFFFFFFE

def isEndOfSessionRequest : Bool := e.cmd = [] ∧ e.clientID ≠ 0 ∧ e.seriesID = 0xFFFFFFFFFFFFFFFF

end SessionEntry

/-- What is reported for an entry. -/
structure Applied where
  result : Result
  ignored : Bool
  rejected : Bool

inductive Failure (ε : Type) where
  | update (err : ε)
  | panic

/-- A replica: its sessions and the data of its state machine. -/
structure Replica (S : Type) where
  lru : LRUSession
  data : S

section
variable {S ε : Type} (orderedDo : LRUSession → List UInt64) (codec : SessionCodec)
  (smUpdate : Bytes → S → Except ε (Result × S))

def registerSession (clientID : UInt64) (r : Replica S) : Result × Replica S :=
  match r.lru.getSession clientID with
  | (some _, lru) => (emptyResult, { r with lru := lru })
  | (none, lru) => (⟨clientID, []⟩, { r with lru := lru.addSession (.new clientID) })

def unregisterSession (clientID : UInt64) (r : Replica S) : Result × Replica S :=
  match r.lru.getSession clientID with
  | (none, lru) => (emptyResult, { r with lru := lru })
  | (some _, lru) => (⟨clientID, []⟩, { r with lru := lru.delSession clientID })

def applyUpdate (cmd : Bytes) (r : Replica S) : Except (Failure ε) (Result × Replica S) :=
  match smUpdate cmd r.data with
  | .error err => .error (.update err)
  | .ok (result, data) => .ok (result, { r with data := data })

def update (e : SessionEntry) (r : Replica S) : Except (Failure ε) (Applied × Replica S) := do
  if e.isNoOPSession then
    let (result, r) ← applyUpdate smUpdate e.cmd r
    .ok (⟨result, false, false⟩, r)
  else
    match r.lru.getSession e.clientID with
    | (none, lru) => .ok (⟨emptyResult, false, true⟩, { r with lru := lru })
    | (some session, lru) =>
      let session := session.clearTo e.respondedTo
      let r := { r with lru := lru.modify (·.clearTo e.respondedTo) (fun s => s.clientID_clearTo _) e.clientID }
      if session.hasResponded e.seriesID then .ok (⟨emptyResult, true, false⟩, r)
      else
        match session.history e.seriesID with
        | some result => .ok (⟨result, false, false⟩, r)
        | none =>
          let (result, r) ← applyUpdate smUpdate e.cmd r
          .ok (⟨result, false, false⟩,
            { r with lru := r.lru.modify (·.addResponse e.seriesID result) (fun _ => rfl) e.clientID })

def handleEntry (e : SessionEntry) (r : Replica S) : Except (Failure ε) (Applied × Replica S) :=
  if !e.isSessionManaged then
    if e.cmd = [] then .ok (⟨emptyResult, true, false⟩, r) else .error .panic
  else if e.isNewSessionRequest then
    let (result, r) := registerSession e.clientID r
    .ok (⟨result, false, result = emptyResult⟩, r)
  else if e.isEndOfSessionRequest then
    let (result, r) := unregisterSession e.clientID r
    .ok (⟨result, false, result = emptyResult⟩, r)
  else update smUpdate e r

/-- What happens to a replica: it applies an entry, its sessions are saved or hashed, or another
replica takes its place that loads its sessions from a save and its data from the snapshot. -/
inductive Step where
  | entry (e : SessionEntry)
  | save
  | replace

def Step.entry? : Step → Option SessionEntry
  | entry e => some e
  | _ => none

/-- The reports for the entries and the replica afterwards. -/
def runSteps : List Step → Replica S → Except (Failure ε) (List Applied × Replica S)
  | [], r => .ok ([], r)
  | .entry e :: steps, r => do
    let (applied, r) ← handleEntry smUpdate e r
    let (rest, r) ← runSteps steps r
    .ok (applied :: rest, r)
  | .save :: steps, r => runSteps steps { r with lru := (r.lru.save orderedDo codec).2 }
  | .replace :: steps, r =>
    match LRUSession.load codec (r.lru.save orderedDo codec).1 with
    | none => .error .panic
    | some lru => runSteps steps { r with lru := lru }

end

/-! ### Saving and loading -/

namespace LRUSession

theorem ext' {rec rec' : LRUSession} (hsize : rec.size = rec'.size) (hsessions : rec.sessions = rec'.sessions) :
    rec = rec' := by
  cases rec
  cases rec'
  simp_all

/-- The least recent ones, `used`, have been used again, so the next one is at the end. -/
theorem getSessions_reverse (l used : List Session) (rec : LRUSession) (h : rec.sessions = used ++ l) :
    (getSessions (l.map Session.clientID).reverse rec).1 = l.reverse ∧
    (getSessions (l.map Session.clientID).reverse rec).2.sessions = l ++ used ∧
    (getSessions (l.map Session.clientID).reverse rec).2.size = rec.size := by
  induction l using List.reverseRecOn generalizing used rec with
  | nil => exact ⟨rfl, h.trans (append_nil _), rfl⟩
  | append_singleton l s ih =>
    have hnodup := rec.nodup
    rw [h, ← append_assoc, map_append, nodup_append] at hnodup
    have hother : ∀ s' ∈ used ++ l, s'.clientID ≠ s.clientID := fun s' hs' =>
      hnodup.2.2 _ (mem_map_of_mem hs') _ (mem_singleton_self _)
    have hnone : (used ++ l).filter (·.clientID = s.clientID) = [] := filter_eq_nil_iff.mpr (by simpa using hother)
    have hall : (used ++ l).filter (¬ ·.clientID = s.clientID) = used ++ l := filter_eq_self.mpr (by simpa using hother)
    have hfront : toFront s.clientID rec.sessions = (s :: used) ++ l := by
      rw [h, ← append_assoc, toFront, filter_append (used ++ l), hnone, filter_append (used ++ l), hall]
      simp
    have hfind : rec.sessions.find? (·.clientID = s.clientID) = some s := by
      rw [h, ← append_assoc, List.find?_append, List.find?_eq_none.mpr (by simpa using hother)]
      simp
    obtain ⟨hrest, hsessions, hsize⟩ := ih (s :: used) (rec.getSession s.clientID).2 hfront
    rw [map_append, map_cons, map_nil, reverse_concat, getSessions, reverse_concat, append_assoc]
    dsimp only
    rw [hrest, hsessions, hsize, getSession, hfind]
    exact ⟨rfl, rfl, rfl⟩

/-- Sessions that are added from the last one on stand in their order. -/
theorem foldr_addSession (rec : LRUSession) {l : List Session} (hl : l <:+ rec.sessions) :
    l.foldr (fun s (rec : LRUSession) => rec.addSession s) ⟨rec.size, [], rec.size_pos, .nil, Nat.zero_le _⟩ =
    ⟨rec.size, l, rec.size_pos, rec.nodup.sublist (hl.sublist.map _), hl.length_le.trans rec.fits⟩ := by
  induction l with
  | nil => rfl
  | cons s l ih =>
    have hnodup := rec.nodup.sublist (hl.sublist.map Session.clientID)
    rw [map_cons, nodup_cons] at hnodup
    have hother : l.filter (·.clientID ≠ s.clientID) = l := filter_eq_self.mpr fun s' hs' => by
      simpa using fun heq : s'.clientID = s.clientID => hnodup.1 (heq ▸ mem_map_of_mem hs')
    rw [foldr_cons, ih ((suffix_cons s l).trans hl)]
    refine ext' rfl ?_
    change (s :: l.filter (·.clientID ≠ s.clientID)).take rec.size = s :: l
    rw [hother]
    exact take_of_length_le (hl.length_le.trans rec.fits)

section
variable {orderedDo : LRUSession → List UInt64} (hdo : FromLeastRecent orderedDo) (codec : SessionCodec)
include hdo

theorem save_eq (rec : LRUSession) :
    rec.save orderedDo codec = (⟨rec.size, rec.sessions.reverse.map codec.marshal⟩, rec) := by
  rw [save, hdo]
  obtain ⟨hlist, hsessions, hsize⟩ := getSessions_reverse rec.sessions [] rec rfl
  have hrec := ext' hsize (hsessions.trans (append_nil _))
  exact Prod.ext (by rw [← hlist]) hrec

theorem load_save (rec : LRUSession) : load codec (rec.save orderedDo codec).1 = some rec := by
  have hread : (rec.sessions.reverse.map codec.marshal).mapM codec.unmarshal = some rec.sessions.reverse := by
    rw [mapM_map, show codec.unmarshal ∘ codec.marshal = some from funext codec.unmarshal_marshal]
    simpa using mapM_pure (m := Option) (l := rec.sessions.reverse) (f := id)
  rw [load, save_eq hdo, dif_pos rec.size_pos, hread]
  simp only [Option.bind_eq_bind, Option.bind_some, foldl_reverse, foldr_addSession rec (suffix_refl _)]

end

end LRUSession

/-- Saves, hashes and replacements between the entries change neither the sessions, in their
order of use and with their responses, nor the data, nor what is reported for any entry. -/
theorem saves_change_nothing {S ε : Type} (orderedDo : LRUSession → List UInt64)
    (hdo : LRUSession.FromLeastRecent orderedDo) (codec : SessionCodec)
    (smUpdate : Bytes → S → Except ε (Result × S)) (steps : List Step) (r : Replica S) :
    runSteps orderedDo codec smUpdate steps r =
      runSteps orderedDo codec smUpdate ((steps.filterMap Step.entry?).map .entry) r := by
  induction steps generalizing r with
  | nil => rfl
  | cons step steps ih =>
    cases step with
    | entry e =>
      simp only [filterMap_cons, Step.entry?, map_cons, runSteps, ih]
    | save =>
      rw [runSteps, LRUSession.save_eq hdo]
      exact ih r
    | replace =>
      rw [runSteps, LRUSession.load_save hdo]
      exact ih r

def counting (_ : Bytes) (n : ℕ) : Except Unit (Result × ℕ) := .ok (⟨1, []⟩, n + 1)

/-- No third session has room. -/
def twoSessions : Replica ℕ := ⟨⟨2, [.new 2, .new 1], by decide, by decide, by decide⟩, 0⟩

/-- The first client sends a command, and after a save and a replacement a third one registers. -/
def savedAtLimit : List Step := [.entry ⟨1, 1, 0, [7]⟩, .save, .replace, .entry ⟨3, 0xFFFFFFFFFFFFFFFE, 0, []⟩]

theorem saves_change_nothing_atLimit : ∃ reports r,
    runSteps (fun rec => (rec.sessions.map Session.clientID).reverse) .numbered counting savedAtLimit twoSessions =
      .ok (reports, r) ∧ r.lru.sessions.map Session.clientID = [3, 1] := by
  rw [saves_change_nothing _ fun _ => rfl]
  exact ⟨_, _, rfl, rfl⟩

/-! ### Commands that come again -/

/-- A command that a session answers for. -/
def SessionEntry.isUpdate (e : SessionEntry) : Bool :=
  e.isSessionManaged && !e.isNoOPSession && !e.isNewSessionRequest && !e.isEndOfSessionRequest

/-- The client has the result of a command, or its session keeps it. -/
def Session.Answered (s : Session) (seriesID : UInt64) (result : Result) : Prop :=
  seriesID ≤ s.respondedUpTo ∨ s.history seriesID = some result

variable {seriesID clientID : UInt64} {result : Result}

theorem Session.Answered.clearTo {s : Session} (h : s.Answered seriesID result) (upTo : UInt64) :
    (s.clearTo upTo).Answered seriesID result := by
  unfold Session.clearTo
  split_ifs with hold
  · exact h
  all_goals
    by_cases hle : seriesID ≤ upTo
    · exact .inl hle
    · have hlt := (not_le.mp hold).trans (not_le.mp hle)
      refine .inr (.trans ?_ (h.resolve_left (not_le.mpr hlt)))
      simp [hle, (not_le.mp hle).ne']

/-- The session of the client, while there is one, has answered a command. -/
def LRUSession.Answers (rec : LRUSession) (clientID seriesID : UInt64) (result : Result) : Prop :=
  ∀ s ∈ rec.sessions, s.clientID = clientID → s.Answered seriesID result

section
variable {S ε : Type} {smUpdate : Bytes → S → Except ε (Result × S)} {e : SessionEntry} {r r' : Replica S} {a : Applied}
  {s s' : Session}

theorem SessionEntry.handleEntry_isUpdate (he : e.isUpdate) : handleEntry smUpdate e r = update smUpdate e r := by
  simp only [isUpdate, Bool.and_eq_true, Bool.not_eq_true'] at he
  simp [handleEntry, he]

theorem SessionEntry.not_isNoOPSession (he : e.isUpdate) : ¬ e.isNoOPSession := by
  simp only [isUpdate, Bool.and_eq_true, Bool.not_eq_true'] at he
  simp [he]

theorem lru_applyUpdate {cmd : Bytes} (h : applyUpdate smUpdate cmd r = .ok (result, r')) : r'.lru = r.lru := by
  unfold applyUpdate at h
  split at h <;> cases h
  rfl

/-- A session after a change in its place to the session of a client. -/
theorem exists_of_mem_modify {f : Session → Session} (hfind : r.lru.sessions.find? (·.clientID = e.clientID) = some s)
    (hid : ∀ s, (f s).clientID = s.clientID) (hf : (f s).Answered e.seriesID result)
    (hkeep : ∀ seriesID result, s.Answered seriesID result → (f s).Answered seriesID result)
    (hs' : s' ∈ r.lru.sessions.map fun s => if s.clientID = e.clientID then f s else s) :
    ∃ s ∈ r.lru.sessions, s'.clientID = s.clientID ∧ (s.clientID = e.clientID → s'.Answered e.seriesID result) ∧
    ∀ seriesID result, s.Answered seriesID result → s'.Answered seriesID result := by
  have hclient : s.clientID = e.clientID := by simpa using List.find?_some hfind
  obtain ⟨x, hx, rfl⟩ := mem_map.mp hs'
  split_ifs with hxe
  · obtain rfl : x = s := inj_on_of_nodup_map r.lru.nodup hx (mem_of_find?_eq_some hfind) (hxe.trans hclient.symm)
    exact ⟨x, hx, hid x, fun _ => hf, hkeep⟩
  · exact ⟨x, hx, rfl, fun h => absurd h hxe, fun _ _ => id⟩

/-- An update leaves the answers of the sessions and answers its own command. -/
theorem update_keeps (hsession : ¬ e.isNoOPSession) (h : update smUpdate e r = .ok (a, r'))
    (hs' : s' ∈ r'.lru.sessions) :
    ∃ s ∈ r.lru.sessions, s'.clientID = s.clientID ∧ (s.clientID = e.clientID → s'.Answered e.seriesID a.result) ∧
    ∀ seriesID result, s.Answered seriesID result → s'.Answered seriesID result := by
  have hmem (s : Session) := (LRUSession.toFront_perm e.clientID r.lru.sessions).mem_iff (a := s)
  rw [update, if_neg hsession] at h
  simp only [LRUSession.getSession] at h
  cases hfind : r.lru.sessions.find? (·.clientID = e.clientID) with
  | none =>
    simp only [hfind] at h
    cases h
    refine ⟨s', (hmem s').mp hs', rfl, fun hclient => ?_, fun _ _ => id⟩
    simpa [hclient] using List.find?_eq_none.mp hfind s' ((hmem s').mp hs')
  | some s =>
    have hclear seriesID result (h : s.Answered seriesID result) := h.clearTo e.respondedTo
    simp only [hfind] at h
    split_ifs at h with hresponded
    · cases h
      refine exists_of_mem_modify hfind (fun s => s.clientID_clearTo _) (.inl ?_) hclear ?_
      · simpa [Session.hasResponded] using hresponded
      · simpa [LRUSession.modify, hmem] using hs'
    split at h
    · next result hhistory =>
      cases h
      refine exists_of_mem_modify hfind (fun s => s.clientID_clearTo _) (.inr hhistory) hclear ?_
      simpa [LRUSession.modify, hmem] using hs'
    · next hhistory =>
      obtain ⟨⟨result, r1⟩, happly, h⟩ := Program.bind_eq_ok_iff.mp h
      cases h
      simp only [lru_applyUpdate happly] at hs'
      refine exists_of_mem_modify (f := fun s => (s.clearTo e.respondedTo).addResponse e.seriesID result) hfind
        (fun s => s.clientID_clearTo _) (.inr (Function.update_self ..)) (fun seriesID result' hs => ?_) ?_
      -- the command had no answer, so its own does not replace another one
      · refine (hclear _ _ hs).imp_right fun hs => (Function.update_of_ne ?_ ..).trans hs
        rintro rfl
        cases hs.symm.trans hhistory
      · obtain ⟨x, hx, rfl⟩ : ∃ x ∈ r.lru.sessions, _ = s' := by simpa [LRUSession.modify, hmem] using hs'
        exact mem_map.mpr ⟨x, hx, by split_ifs <;> simp_all⟩

theorem mem_registerSession (hs : s ∈ (registerSession clientID r).2.lru.sessions) :
    s ∈ r.lru.sessions ∨ s.clientID = clientID := by
  have hmem := (LRUSession.toFront_perm clientID r.lru.sessions).mem_iff (a := s)
  simp only [registerSession, LRUSession.getSession] at hs
  cases hfind : r.lru.sessions.find? (·.clientID = clientID) <;> simp only [hfind] at hs
  · obtain rfl | hs := mem_cons.mp (mem_of_mem_take hs)
    · exact .inr rfl
    · exact .inl (hmem.mp (mem_of_mem_filter hs))
  · exact .inl (hmem.mp hs)

theorem mem_unregisterSession (hs : s ∈ (unregisterSession clientID r).2.lru.sessions) : s ∈ r.lru.sessions := by
  have hmem := (LRUSession.toFront_perm clientID r.lru.sessions).mem_iff (a := s)
  simp only [unregisterSession, LRUSession.getSession] at hs
  cases hfind : r.lru.sessions.find? (·.clientID = clientID) <;> simp only [hfind] at hs
  · exact hmem.mp hs
  · exact hmem.mp (mem_of_mem_filter hs)

theorem handleEntry_keeps (hr : r.lru.Answers clientID seriesID result)
    (hnew : e.isNewSessionRequest → e.clientID ≠ clientID) (h : handleEntry smUpdate e r = .ok (a, r')) :
    r'.lru.Answers clientID seriesID result := by
  rw [handleEntry] at h
  split_ifs at h with hmanaged hcmd hregister hend
  · cases h
    exact hr
  · cases h
    intro s hs hclient
    obtain hs | hs := mem_registerSession hs
    · exact hr s hs hclient
    · exact absurd (hs.symm.trans hclient) (hnew hregister)
  · cases h
    exact fun s hs => hr s (mem_unregisterSession hs)
  · by_cases hsession : e.isNoOPSession
    · rw [update, if_pos hsession] at h
      obtain ⟨⟨result, r1⟩, happly, h⟩ := Program.bind_eq_ok_iff.mp h
      cases h
      rwa [lru_applyUpdate happly]
    · intro s' hs' hclient
      obtain ⟨s, hs, hid, -, hkeep⟩ := update_keeps hsession h hs'
      exact hkeep _ _ (hr s hs (hid ▸ hclient))

/-- A command that has been answered is not applied again. -/
theorem update_again (hsession : ¬ e.isNoOPSession) (hr : r.lru.Answers e.clientID e.seriesID result) :
    ∃ a r', update smUpdate e r = .ok (a, r') ∧ r'.data = r.data ∧ (a.result = result ∨ a.ignored ∨ a.rejected) := by
  rw [update, if_neg hsession]
  simp only [LRUSession.getSession]
  cases hfind : r.lru.sessions.find? (·.clientID = e.clientID) with
  | none => exact ⟨_, _, rfl, rfl, .inr (.inr rfl)⟩
  | some s =>
    have hanswered := (hr s (mem_of_find?_eq_some hfind) (by simpa using List.find?_some hfind)).clearTo e.respondedTo
    dsimp only
    split_ifs with hresponded
    · exact ⟨_, _, rfl, rfl, .inr (.inl rfl)⟩
    · rw [hanswered.resolve_left (by simpa [Session.hasResponded] using hresponded)]
      exact ⟨_, _, rfl, rfl, .inl rfl⟩

end

/-- A command of a session goes to the state machine once at most. Whatever is applied in between, when it comes
again it changes nothing and gets the same result or none, unless its client has registered again. -/
theorem command_applied_once {S ε : Type} (smUpdate : Bytes → S → Except ε (Result × S)) (e e' : SessionEntry)
    (he : e.isUpdate) (he' : e'.isUpdate) (hclient : e'.clientID = e.clientID) (hseries : e'.seriesID = e.seriesID)
    (es : List SessionEntry) (hnew : ∀ x ∈ es, x.isNewSessionRequest → x.clientID ≠ e.clientID) (r r1 r2 : Replica S)
    (a : Applied) (reports : List Applied) (hfirst : handleEntry smUpdate e r = .ok (a, r1))
    (hrest : Program.runAll (handleEntry smUpdate) es r1 = .ok (reports, r2)) :
    ∃ a' r3, handleEntry smUpdate e' r2 = .ok (a', r3) ∧ r3.data = r2.data ∧
      (a'.result = a.result ∨ a'.ignored ∨ a'.rejected) := by
  rw [SessionEntry.handleEntry_isUpdate he] at hfirst
  have hanswers : r1.lru.Answers e.clientID e.seriesID a.result := by
    intro s' hs' hs'client
    obtain ⟨s, -, hid, hanswered, -⟩ := update_keeps (SessionEntry.not_isNoOPSession he) hfirst hs'
    exact hanswered (hid ▸ hs'client)
  have hlater : r2.lru.Answers e.clientID e.seriesID a.result :=
    Program.runAll_keeps (I := fun r => r.lru.Answers e.clientID e.seriesID a.result)
      (fun x hx _ hr rx hrx => handleEntry_keeps hr (hnew x hx) hrx) hanswers hrest
  rw [← hclient, ← hseries] at hlater
  rw [SessionEntry.handleEntry_isUpdate he']
  exact update_again (SessionEntry.not_isNoOPSession he') hlater

/-- The first command comes again after one of another client. -/
theorem command_applied_once_counting : ∃ (a : Applied) (r : Replica ℕ) (a' : Applied) (r' : Replica ℕ),
    handleEntry counting ⟨1, 1, 0, [7]⟩ r = .ok (a', r') ∧ r'.data = r.data ∧
      (a'.result = a.result ∨ a'.ignored ∨ a'.rejected) := by
  obtain ⟨_, h⟩ : ∃ x, Program.runAll (handleEntry counting) [⟨1, 1, 0, [7]⟩, ⟨2, 1, 0, [7]⟩] twoSessions = .ok x :=
    ⟨_, rfl⟩
  obtain ⟨⟨a, r1⟩, hfirst, h⟩ := Program.bind_eq_ok_iff.mp h
  obtain ⟨⟨reports, r2⟩, hrest, -⟩ := Program.bind_eq_ok_iff.mp h
  exact ⟨a, r2, command_applied_once counting _ _ rfl rfl rfl rfl _ (by decide) twoSessions r1 r2 a reports
    hfirst hrest⟩

end Armada.Rsm
