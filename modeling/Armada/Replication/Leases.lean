import Armada.Storage.Sequence

/-! Table leases. A worker replicates a table while it believes to hold the lease of the
table: the stored lease says until when by the time of the call, the worker's own timer
starts when the call has returned. Both agree when the call takes no time. -/

namespace Armada.Replication

open Ordered Program Kv Storage List Function

structure Lease where
  id : UInt64
  untilTime : ℕ
  deriving DecidableEq, Inhabited

def leaseKey (name : String) : String := storedTableName name ++ "/lease"

variable {V : Type}

/-- `Manager.LeaseTable` up to its proposal: the lease and what is proposed for it. -/
def leaseTable (codec : Codec V Lease) (nodeID : UInt64) (key : String) (now lease : ℕ)
    (get : Except KvError (Pair V)) : Option (Lease × Proposal V) :=
  let l : Lease := ⟨nodeID, now + lease⟩
  match get with
  | .error .notExist => some (l, .set key (codec.encode l) 0)
  | .error _ => none
  | .ok pair =>
    match codec.decode pair.value with
    | none => none
    | some held =>
      if held.id = nodeID ∨ held.untilTime < now then some (l, .set key (codec.encode l) pair.ver) else none

/-- `Manager.ReturnTable` up to its proposal. -/
def returnTable (codec : Codec V Lease) (nodeID : UInt64) (key : String) (get : Except KvError (Pair V)) :
    Option (Proposal V) :=
  match get with
  | .error _ => none
  | .ok pair =>
    match codec.decode pair.value with
    | none => none
    | some held => if held.id ≠ nodeID then none else some (.delete key pair.ver)

/-- The lease of a worker, the call of `LeaseTable` it is in with the lease proposed, and
whether it is about to return the table. -/
structure Worker where
  leased : Bool
  leaseCtx : Bool
  /-- When the timer fires, and for which generation. -/
  leaseTimer : Option (ℕ × ℕ)
  leaseGeneration : ℕ
  closed : Bool
  leasing : Option (ℕ × Lease)
  returning : Bool

namespace Worker

def new : Worker := ⟨false, false, none, 0, false, none, false⟩

def acquireLease (now leaseInterval : ℕ) (w : Worker) : Worker :=
  if w.closed then w
  else
    let generation := if w.leaseCtx then w.leaseGeneration else w.leaseGeneration + 1
    { w with
      leased := true
      leaseCtx := true
      leaseGeneration := generation
      leaseTimer := some (now + leaseInterval * 4, generation) }

def expireLease (generation : ℕ) (w : Worker) : Worker :=
  if !w.leaseCtx || w.leaseGeneration != generation then w
  else { w with leased := false, leaseCtx := false, leaseTimer := none }

def loseLease (w : Worker) : Worker := { w with leased := false, leaseCtx := false, leaseTimer := none }

def leaseWork (w : Worker) : Bool := w.leased && w.leaseCtx

/-- The timer fires when its time has come. -/
def elapse (now : ℕ) (w : Worker) : Worker :=
  match w.leaseTimer with
  | some (at_, generation) => if at_ ≤ now then w.expireLease generation else w
  | none => w

end Worker

/-- What the routines of a worker do. -/
inductive WorkerStep where
  /-- The lease routine calls `LeaseTable`. -/
  | leaseTable
  /-- The call fails: its read, or the wait for its proposal. -/
  | leaseFails
  /-- The replication routine gives up the lease, to return the table next. -/
  | loseLease
  | returnTable
  | close

def leaseProtocol (codec : Codec V Lease) (key : String) (leaseInterval : ℕ) :
    Protocol V UInt64 WorkerStep Worker where
  act n a now ticket m w :=
    match a with
    | .leaseTable =>
      if w.closed ∨ w.leasing ≠ none then none
      else match leaseTable codec n key now (leaseInterval * 4) (m.get key) with
        | some (l, p) => some ({ w with leasing := some (ticket, l) }, some p)
        | none => some (w.loseLease, none)
    | .leaseFails => some ({ w.loseLease with leasing := none }, none)
    | .loseLease => some ({ w.loseLease with returning := true }, none)
    | .returnTable =>
      if w.returning = false ∨ (w.closed ∧ w.leasing ≠ none) then none
      else some ({ w with returning := false }, returnTable codec n key (m.get key))
    | .close => some ({ w.loseLease with closed := true, returning := true }, none)
  answer _ now ticket r w :=
    match w.leasing with
    | some (t, _) =>
      if t = ticket then
        match setReply r with
        | .ok _ => ({ w with leasing := none } : Worker).acquireLease now leaseInterval
        | .error _ => ({ w with leasing := none } : Worker).loseLease
      else w
    | none => w
  elapse := Worker.elapse

/-! ### Who may work -/

/-- The store has the lease of a node, with an expiry not before `d`. -/
def Stored (codec : Codec V Lease) (key : String) (m : MapStore V) (n : UInt64) (d : ℕ) : Prop :=
  ∃ pair l, m[key]? = some pair ∧ codec.decode pair.value = some l ∧ l.id = n ∧ d ≤ l.untilTime

/-- What is proposed comes from a read: the lease read was the proposer's own or had
expired, and the new one does not expire before it. -/
def FromLease (codec : Codec V Lease) (key : String) (now : ℕ) (s : Replicas V) (n : UInt64) (l : Lease)
    (ver : UInt64) : Prop :=
  ver = 0 ∨ ∃ m ∈ s.states, ∃ pair held, m[key]? = some pair ∧ pair.ver = ver ∧
    codec.decode pair.value = some held ∧ (held.id = n ∨ held.untilTime < now) ∧ held.untilTime ≤ l.untilTime

/-- A return names a lease of its own node. -/
def OwnLease (codec : Codec V Lease) (key : String) (s : Replicas V) (n : UInt64) (ver : UInt64) : Prop :=
  ∃ m ∈ s.states, ∃ pair held, m[key]? = some pair ∧ pair.ver = ver ∧
    codec.decode pair.value = some held ∧ held.id = n

/-- The pending proposals of the workers. -/
def AskedFor (codec : Codec V Lease) (key : String) (interval : ℕ) (s : Cluster V UInt64 Worker) (t : ℕ)
    (n : UInt64) (p : Proposal V) : Prop :=
  (∃ ver, p = .delete key ver ∧ OwnLease codec key s.replicas n ver) ∨
    ∃ l ver, p = .set key (codec.encode l) ver ∧ l.id = n ∧ l.untilTime ≤ s.now + interval * 4 ∧
      FromLease codec key s.now s.replicas n l ver ∧ ∀ l', (s.locals n).leasing = some (t, l') → l' = l

/-- What a worker makes of a result: nothing, or it ends its call and works only if it did
before or the lease was accepted, with a timer from now on. -/
theorem answer_worker (codec : Codec V Lease) (key : String) (interval : ℕ) (n : UInt64) (now t : ℕ) (r : Result V)
    (w : Worker) : ∃ w', (leaseProtocol codec key interval).answer n now t r w = w' ∧ (w' = w ∨
    ∃ l, w.leasing = some (t, l) ∧ w'.leasing = none ∧ (w'.leaseWork = true →
    (w.leaseWork = true ∧ w'.leaseTimer = w.leaseTimer ∧ w'.leaseGeneration = w.leaseGeneration) ∨
    (r.value ≠ .versionMismatch ∧ w'.leaseTimer = some (now + interval * 4, w'.leaseGeneration)))) := by
  refine ⟨_, rfl, ?_⟩
  cases hl : w.leasing with
  | none => exact Or.inl (by simp [leaseProtocol, hl])
  | some call =>
    obtain ⟨t', l⟩ := call
    by_cases ht : t' = t
    · subst ht
      refine Or.inr ⟨l, rfl, ?_⟩
      by_cases hr : r.value = .versionMismatch
      · simp [leaseProtocol, hl, setReply, hr, Worker.loseLease, Worker.leaseWork]
      · by_cases hclosed : w.closed = true
        · simp only [leaseProtocol, hl, setReply, hr, Worker.acquireLease, hclosed, if_true, if_false]
          exact ⟨trivial, fun h => Or.inl ⟨h, trivial, trivial⟩⟩
        · simp [leaseProtocol, hl, setReply, hr, Worker.acquireLease, hclosed]
    · exact Or.inl (by simp [leaseProtocol, hl, ht])

/-- Who works has the stored lease for as long as its timer runs, and so has who will work
as soon as it learns that its lease was accepted. -/
structure Exclusive (codec : Codec V Lease) (key : String) (interval : ℕ) (s : Cluster V UInt64 Worker) : Prop where
  fresh : s.Fresh
  bounded : ∀ m ∈ s.replicas.states, ∀ pair l, m[key]? = some pair → codec.decode pair.value = some l →
    l.untilTime ≤ s.now + interval * 4
  asked : ∀ t n p, s.tickets t = .pending n p → AskedFor codec key interval s t n p
  leasing : ∀ n t l, (s.locals n).leasing = some (t, l) → l.untilTime ≤ s.now + interval * 4
  accepted : ∀ n t l p r, (s.locals n).leasing = some (t, l) → s.tickets t = .committed n p r →
    r.value ≠ .versionMismatch → l.untilTime = s.now + interval * 4 →
      Stored codec key s.replicas.newest n l.untilTime
  working : ∀ n, (s.locals n).leaseWork = true → ∃ d, (s.locals n).leaseTimer = some (d, (s.locals n).leaseGeneration) ∧
    s.now ≤ d ∧ Stored codec key s.replicas.newest n d

theorem Stored.id_eq {codec : Codec V Lease} {key : String} {m : MapStore V} {n n' : UInt64} {d d' : ℕ}
    (h : Stored codec key m n d) (h' : Stored codec key m n' d') : n = n' := by
  obtain ⟨pair, l, hpair, hl, rfl, -⟩ := h
  obtain ⟨pair', l', hpair', hl', rfl, -⟩ := h'
  obtain rfl := Option.some.inj (hpair.symm.trans hpair')
  rw [hl] at hl'
  rw [Option.some.inj hl']

namespace Worker

theorem leasing_elapse (now : ℕ) (w : Worker) : (w.elapse now).leasing = w.leasing := by
  unfold elapse expireLease
  split
  · split
    · split <;> rfl
    · rfl
  · rfl

variable {w : Worker} {now : ℕ}

theorem elapse_eq_of_leaseWork (h : (w.elapse now).leaseWork = true) : w.elapse now = w := by
  unfold elapse expireLease at h ⊢
  split
  · split
    · split
      · rfl
      · next hat hexp => simp [*, leaseWork] at h
    · rfl
  · rfl

theorem lt_of_leaseWork_elapse {d : ℕ} (htimer : w.leaseTimer = some (d, w.leaseGeneration))
    (h : (w.elapse now).leaseWork = true) : now < d := by
  unfold elapse at h
  rw [htimer] at h
  dsimp only at h
  by_contra hd
  rw [if_pos (not_lt.mp hd)] at h
  cases hctx : w.leaseCtx <;> simp [expireLease, leaseWork, hctx] at h

end Worker

section
variable {codec : Codec V Lease} {key : String} {interval : ℕ} {s s' : Cluster V UInt64 Worker}

variable {ver n n' : UInt64} {l : Lease} {now t d : ℕ}

variable {r : Replicas V}

theorem FromLease.mono {now' : ℕ} (hnow : now ≤ now') {r' : Replicas V} (hsub : ∀ m ∈ r.states, m ∈ r'.states)
    (h : FromLease codec key now r n l ver) : FromLease codec key now' r' n l ver := by
  rcases h with h | ⟨m, hm, pair, held, hpair, hver, hheld, hfree, hle⟩
  · exact Or.inl h
  · exact Or.inr ⟨m, hsub m hm, pair, held, hpair, hver, hheld, hfree.imp_right fun h => h.trans_le hnow, hle⟩

variable {p : Proposal V}

theorem AskedFor.mono (hnow : s.now ≤ s'.now) (hsub : ∀ m ∈ s.replicas.states, m ∈ s'.replicas.states)
    (hleasing : ∀ l, (s'.locals n).leasing = some (t, l) → (s.locals n).leasing = some (t, l))
    (h : AskedFor codec key interval s t n p) : AskedFor codec key interval s' t n p := by
  rcases h with ⟨ver, rfl, m, hm, hread⟩ | ⟨l, ver, rfl, hid, hle, hread, heq⟩
  · exact Or.inl ⟨ver, rfl, m, hsub m hm, hread⟩
  · exact Or.inr ⟨l, ver, rfl, hid, by omega, hread.mono hnow hsub, fun l' hl' => heq l' (hleasing l' hl')⟩

theorem Exclusive.act_local (hs : Exclusive codec key interval s) {w : Worker} (hfresh : s'.Fresh)
    (hreplicas : s'.replicas = s.replicas) (hnow : s'.now = s.now) (hlocals : s'.locals = Function.update s.locals n w)
    (htickets : ∀ t, s'.tickets t = s.tickets t ∨
    t = s.next ∧ ∃ p, s'.tickets t = .pending n p ∧ AskedFor codec key interval s' t n p)
    (hwork : w.leaseWork = true → (s.locals n).leaseWork = true ∧ w.leaseTimer = (s.locals n).leaseTimer ∧
    w.leaseGeneration = (s.locals n).leaseGeneration)
    (hleasing : ∀ t l, w.leasing = some (t, l) → (s.locals n).leasing = some (t, l) ∨
    (t = s.next ∧ l.untilTime ≤ s.now + interval * 4)) : Exclusive codec key interval s' := by
  have hold : ∀ n' t l, s.tickets t ≠ .unused → (s'.locals n').leasing = some (t, l) →
      (s.locals n').leasing = some (t, l) := by
    intro n' t l hused h
    rw [hlocals] at h
    by_cases hn : n' = n
    · subst hn
      rw [update_self] at h
      exact (hleasing t l h).resolve_right fun hnew => hused (hs.fresh t hnew.1.ge)
    · rwa [update_of_ne hn] at h
  refine ⟨hfresh, by rw [hreplicas, hnow]; exact hs.bounded, fun t n' p hp => ?_, fun n' t l h => ?_,
    fun n' t l p r h hcommitted hr huntil => ?_, fun n' h => ?_⟩
  · rcases htickets t with ht | ⟨-, p', hp', hasked⟩
    · rw [ht] at hp
      exact (hs.asked t n' p hp).mono hnow.ge (fun m hm => by rwa [hreplicas])
        fun l => hold n' t l (by rw [hp]; exact nofun)
    · rw [hp'] at hp
      obtain ⟨rfl, rfl⟩ := Ticket.pending.inj hp
      exact hasked
  · rw [hlocals] at h
    rw [hnow]
    by_cases hn : n' = n
    · subst hn
      rw [update_self] at h
      exact (hleasing t l h).elim (hs.leasing n' t l) And.right
    · rw [update_of_ne hn] at h
      exact hs.leasing n' t l h
  · rcases htickets t with ht | ⟨-, p', hp', -⟩
    · rw [ht] at hcommitted
      rw [hnow] at huntil
      rw [hreplicas]
      exact hs.accepted n' t l p r (hold n' t l (by rw [hcommitted]; exact nofun) h) hcommitted hr huntil
    · rw [hp'] at hcommitted
      cases hcommitted
  · rw [hlocals] at h ⊢
    rw [hreplicas, hnow]
    by_cases hn : n' = n
    · subst hn
      rw [update_self] at h ⊢
      obtain ⟨hw, htimer, hgeneration⟩ := hwork h
      rw [htimer, hgeneration]
      exact hs.working n' hw
    · rw [update_of_ne hn] at h ⊢
      exact hs.working n' h

variable {m : MapStore V}

theorem leaseTable_asked (hs : Exclusive codec key interval s) (hm : m ∈ s.replicas.states)
    (h : leaseTable codec n key s.now (interval * 4) (m.get key) = some (l, p)) :
    ∃ ver, p = .set key (codec.encode l) ver ∧ l.id = n ∧ l.untilTime = s.now + interval * 4 ∧
      FromLease codec key s.now s.replicas n l ver := by
  unfold MapStore.get at h
  cases hread : m[key]? with
  | none =>
    simp only [leaseTable, hread, Option.some.injEq, Prod.mk.injEq] at h
    obtain ⟨rfl, rfl⟩ := h
    exact ⟨0, rfl, rfl, rfl, Or.inl rfl⟩
  | some pair =>
    cases hheld : codec.decode pair.value with
    | none => simp [leaseTable, hread, hheld] at h
    | some held =>
      simp only [leaseTable, hread, hheld] at h
      split at h
      · next hfree =>
        cases h
        exact ⟨pair.ver, rfl, rfl, rfl, Or.inr ⟨m, hm, pair, held, hread, rfl, hheld, hfree,
          hs.bounded m hm pair held hread hheld⟩⟩
      · cases h

theorem returnTable_asked (hm : m ∈ r.states) (h : returnTable codec n key (m.get key) = some p) :
    ∃ ver, p = .delete key ver ∧ OwnLease codec key r n ver := by
  unfold MapStore.get at h
  cases hread : m[key]? with
  | none => simp [returnTable, hread] at h
  | some pair =>
    cases hheld : codec.decode pair.value with
    | none => simp [returnTable, hread, hheld] at h
    | some held =>
      by_cases hid : held.id = n
      · simp only [returnTable, hread, hheld, hid, ne_eq, not_true, if_false, Option.some.injEq] at h
        exact ⟨pair.ver, h.symm, m, hm, pair, held, hread, rfl, hheld, hid⟩
      · simp [returnTable, hread, hheld, hid] at h

theorem FromLease.of_stored
    (hread : FromLease codec key now r n l ver) (hpass : ∀ pair, r.newest[key]? = some pair → pair.ver = ver)
    (hstored : Stored codec key r.newest n' d) : (n' = n ∧ d ≤ l.untilTime) ∨ d < now := by
  obtain ⟨pair, l', hpair, hl', rfl, hd⟩ := hstored
  have hver := hpass pair hpair
  rcases hread with rfl | ⟨m, hm, read, held, hreadm, hreadver, hheld, hfree, hle⟩
  · have hpos := (r.stamped _ (mem_cons_self ..) key pair hpair).2.1
    rw [hver] at hpos
    exact absurd hpos (lt_irrefl 0)
  · obtain rfl := r.eq_of_ver hm hreadm hpair (hver.trans hreadver.symm)
    obtain rfl := Option.some.inj (hl'.symm.trans hheld)
    rcases hfree with hid | hexpired
    · exact Or.inl ⟨hid, hd.trans hle⟩
    · exact Or.inr (hd.trans_lt hexpired)

theorem OwnLease.of_stored (hown : OwnLease codec key r n ver) (hpass : ∀ pair, r.newest[key]? = some pair →
    pair.ver = ver) (hstored : Stored codec key r.newest n' d) : n' = n := by
  obtain ⟨pair, l', hpair, hl', rfl, -⟩ := hstored
  obtain ⟨m, hm, read, held, hreadm, hreadver, hheld, hid⟩ := hown
  obtain rfl := r.eq_of_ver hm hreadm hpair ((hpass pair hpair).trans hreadver.symm)
  obtain rfl := Option.some.inj (hl'.symm.trans hheld)
  exact hid

/-- A commit after which the store has the lease of everyone who had it and is at work. -/
theorem Exclusive.of_commit (hs : Exclusive codec key interval s)
    {r : Result V} (hfresh : s'.Fresh) (hnow : s'.now = s.now) (hlocals : s'.locals = s.locals)
    (htickets : s'.tickets = Function.update s.tickets t (.committed n p r))
    (hsub : ∀ m ∈ s.replicas.states, m ∈ s'.replicas.states)
    (hbounded : ∀ m ∈ s'.replicas.states, ∀ pair l, m[key]? = some pair → codec.decode pair.value = some l →
    l.untilTime ≤ s.now + interval * 4) (hkeep : ∀ n' d, s.now ≤ d → Stored codec key s.replicas.newest n' d →
    (s.locals n').leaseWork = true ∨ (s.locals n').leasing ≠ none → Stored codec key s'.replicas.newest n' d)
    (hnew : ∀ l, (s.locals n).leasing = some (t, l) → r.value ≠ .versionMismatch →
    Stored codec key s'.replicas.newest n l.untilTime) : Exclusive codec key interval s' := by
  refine ⟨hfresh, hnow ▸ hbounded, fun t' n' p' hp' => ?_, fun n' t' l hl => ?_,
    fun n' t' l p' r' hl hcommitted hr' huntil => ?_, fun n' hwork => ?_⟩
  · have ht : t' ≠ t := by
      rintro rfl
      simp [htickets] at hp'
    rw [htickets, update_of_ne ht] at hp'
    exact (hs.asked t' n' p' hp').mono hnow.ge hsub fun l hl => by rwa [hlocals] at hl
  · rw [hlocals] at hl
    exact hnow ▸ hs.leasing n' t' l hl
  · rw [hlocals] at hl
    rw [htickets] at hcommitted
    rw [hnow] at huntil
    by_cases ht : t' = t
    · rw [ht, update_self] at hcommitted
      obtain ⟨rfl, rfl, rfl⟩ := Ticket.committed.inj hcommitted
      exact hnew l (ht ▸ hl) hr'
    · rw [update_of_ne ht] at hcommitted
      exact hkeep n' _ (by omega) (hs.accepted n' t' l p' r' hl hcommitted hr' huntil)
        (Or.inr (by rw [hl]; exact nofun))
  · rw [hlocals] at hwork ⊢
    rw [hnow]
    obtain ⟨d, htimer, hd, hstored⟩ := hs.working n' hwork
    exact ⟨d, htimer, hd, hkeep n' d hd hstored (Or.inl hwork)⟩

theorem exclusive_init (codec : Codec V Lease) (key : String) (interval : ℕ) :
    Exclusive codec key interval (.init fun _ => .new) := by
  refine ⟨fun _ _ => rfl, fun m hm pair l hpair => ?_, fun t n p h => ?_, fun n t l h => ?_,
    fun n t l p r h => ?_, fun n h => ?_⟩
  · have hempty : (Replicas.start : Replicas V).newest[key]? = none := OrdMap.getElem?_empty _
    rw [mem_singleton.mp hm] at hpair
    exact absurd (hempty.symm.trans hpair) nofun
  all_goals cases h

variable [Inhabited V]

theorem Exclusive.act (hs : Exclusive codec key interval s) {a : WorkerStep} {behind : ℕ}
    (h : Cluster.step (leaseProtocol codec key interval) (.act n a behind) s = some s') :
    Exclusive codec key interval s' := by
  have hfresh := hs.fresh.step h
  obtain ⟨m, hm, w, p, hact, hreplicas, hnow, hlocals, -, htickets⟩ := Cluster.act_cases h
  -- A worker that loses its lease keeps or drops its call and proposes nothing.
  have hlose : p = none → w.leaseWork = false → (∀ t l, w.leasing = some (t, l) → (s.locals n).leasing = some (t, l)) →
      Exclusive codec key interval s' := by
    rintro rfl hwork hleasing
    exact hs.act_local hfresh hreplicas hnow hlocals (fun t => Or.inl (congrFun htickets t))
      (fun h => by rw [hwork] at h; cases h) (fun t l h => Or.inl (hleasing t l h))
  cases a with
  | leaseTable =>
    simp only [leaseProtocol] at hact
    split at hact
    · cases hact
    · next hidle =>
      split at hact
      · next l p' hcall =>
        cases hact
        obtain ⟨ver, rfl, hid, huntil, hread⟩ := leaseTable_asked hs hm hcall
        dsimp only at htickets
        refine hs.act_local hfresh hreplicas hnow hlocals (fun t => ?_) (fun h => ⟨h, rfl, rfl⟩)
          (fun t l' h => ?_)
        · rw [htickets]
          by_cases ht : t = s.next
          · subst ht
            refine Or.inr ⟨rfl, _, update_self .., Or.inr ⟨l, ver, rfl, hid, by rw [hnow, huntil],
              by rw [hnow, hreplicas]; exact hread, fun l' hl' => ?_⟩⟩
            rw [hlocals, update_self] at hl'
            exact (Prod.mk.inj (Option.some.inj hl')).2.symm
          · exact Or.inl (update_of_ne ht _ _)
        · cases h
          exact Or.inr ⟨rfl, huntil.le⟩
      · cases hact
        exact hlose rfl rfl fun t l h => h
  | leaseFails =>
    cases hact
    exact hlose rfl rfl fun t l h => nomatch h
  | loseLease =>
    cases hact
    exact hlose rfl rfl fun t l h => h
  | returnTable =>
    simp only [leaseProtocol] at hact
    split at hact
    · cases hact
    · cases hact
      refine hs.act_local hfresh hreplicas hnow hlocals (fun t => ?_) (fun h => ⟨h, rfl, rfl⟩)
        (fun t l h => Or.inl h)
      rw [htickets]
      cases hp : returnTable codec n key (m.get key) with
      | none => exact Or.inl rfl
      | some p =>
        obtain ⟨ver, rfl, hown⟩ := returnTable_asked hm hp
        dsimp only
        by_cases ht : t = s.next
        · subst ht
          exact Or.inr ⟨rfl, _, update_self .., Or.inl ⟨ver, rfl, hreplicas ▸ hown⟩⟩
        · exact Or.inl (update_of_ne ht _ _)
  | close =>
    cases hact
    exact hlose rfl rfl fun t l h => h

theorem Exclusive.tick (hs : Exclusive codec key interval s)
    (h : Cluster.step (leaseProtocol codec key interval) .tick s = some s') : Exclusive codec key interval s' := by
  have hfresh := hs.fresh.step h
  cases h
  refine ⟨hfresh, fun m hm pair l hpair hl => ?_, fun t n p hp => ?_, fun n t l hl => ?_,
    fun n t l p r hl _ _ huntil => ?_, fun n hwork => ?_⟩
  · have hle := hs.bounded m hm pair l hpair hl
    dsimp only
    omega
  · refine AskedFor.mono ?_ ?_ ?_ (hs.asked t n p hp)
    · exact Nat.le_succ s.now
    · exact fun m hm => hm
    · intro l hl
      rwa [← Worker.leasing_elapse (s.now + 1)]
  · have hle := hs.leasing n t l (by rwa [← Worker.leasing_elapse (s.now + 1)])
    dsimp only
    omega
  · have hle := hs.leasing n t l (by rwa [← Worker.leasing_elapse (s.now + 1)])
    dsimp only at huntil
    omega
  · have hsame := Worker.elapse_eq_of_leaseWork hwork
    have hworked : (s.locals n).leaseWork = true := by
      rw [← hsame]
      exact hwork
    obtain ⟨d, htimer, -, hstored⟩ := hs.working n hworked
    have hlt := Worker.lt_of_leaseWork_elapse htimer hwork
    refine ⟨d, ?_, hlt.le, hstored⟩
    have hlocal : (leaseProtocol codec key interval).elapse (s.now + 1) (s.locals n) = s.locals n := hsame
    dsimp only
    rw [hlocal]
    exact htimer

/-- The calls take no time, and a table is returned by a worker that is not at work and
not about to be: a result arrives in the instant in which its expiry was computed, and the
delete of a return is committed while its worker has no lease and asks for none. -/
def Prompt (interval : ℕ) : Event UInt64 WorkerStep → Cluster V UInt64 Worker → Prop
  | .answer t, s => ∀ n ∈ (s.tickets t).owner, ∀ call ∈ (s.locals n).leasing,
    call.1 = t → call.2.untilTime = s.now + interval * 4
  | .commit t _, s => ∀ n ∈ (s.tickets t).owner, (s.tickets t).isDelete = true →
    (s.locals n).leaseWork = false ∧ (s.locals n).leasing = none
  | .tick, _ | .act _ _ _, _ => True

theorem Exclusive.commit (hs : Exclusive codec key interval s) {index : UInt64}
    (hprompt : Prompt interval (.commit t index) s)
    (h : Cluster.step (leaseProtocol codec key interval) (.commit t index) s = some s') :
    Exclusive codec key interval s' := by
  have hfresh := hs.fresh.step h
  obtain ⟨n, p, r, hticket, hcommit, hnow, hlocals, -, htickets⟩ := Cluster.commit_cases h
  obtain ⟨hlt, ⟨hpass, -, hreplicas⟩ | ⟨-, hmismatch, hreplicas⟩⟩ := Replicas.commit_cases hcommit
  · have hsub : ∀ m ∈ s.replicas.states, m ∈ s'.replicas.states :=
      fun m hm => hreplicas ▸ mem_cons_of_mem _ hm
    rcases hs.asked t n p hticket with ⟨ver, rfl, hown⟩ | ⟨l, ver, rfl, hid, hle, hread, heq⟩
    · obtain ⟨hidle, hnone⟩ := hprompt n (by rw [hticket]; rfl) (by rw [hticket]; rfl)
      have hnewest : s'.replicas.newest[key]? = none := by
        rw [hreplicas]
        exact (OrdMap.getElem?_erase ..).trans (if_pos rfl)
      refine hs.of_commit hfresh hnow hlocals htickets hsub (fun m hm pair l hpair hl => ?_)
        (fun n' d _ hstored hbusy => ?_) (fun l hl => by rw [hnone] at hl; cases hl)
      · rcases mem_cons.mp (hreplicas ▸ hm) with rfl | hm
        · rw [hreplicas] at hnewest
          exact absurd (hnewest.symm.trans hpair) nofun
        · exact hs.bounded m hm pair l hpair hl
      · obtain rfl := hown.of_stored hpass hstored
        simp [hidle, hnone] at hbusy
    · have hnewest : s'.replicas.newest[key]? = some ⟨key, codec.encode l, index⟩ := by
        rw [hreplicas]
        exact (OrdMap.getElem?_insert ..).trans (if_pos rfl)
      have hstored : ∀ d ≤ l.untilTime, Stored codec key s'.replicas.newest n d :=
        fun d hd => ⟨_, l, hnewest, codec.lossless l, hid, hd⟩
      refine hs.of_commit hfresh hnow hlocals htickets hsub (fun m hm pair l' hpair hl' => ?_)
        (fun n' d hd hold _ => ?_) (fun l' hl' _ => heq l' hl' ▸ hstored _ le_rfl)
      · rcases mem_cons.mp (hreplicas ▸ hm) with rfl | hm
        · rw [hreplicas] at hnewest
          obtain rfl := Option.some.inj (hnewest.symm.trans hpair)
          rw [codec.lossless] at hl'
          exact Option.some.inj hl' ▸ hle
        · exact hs.bounded m hm pair l' hpair hl'
      · rcases hread.of_stored hpass hold with ⟨rfl, hle'⟩ | hlt'
        · exact hstored d hle'
        · omega
  · refine hs.of_commit hfresh hnow hlocals htickets (fun m hm => hreplicas ▸ hm) (fun m hm => ?_)
      (fun n' d _ hstored _ => hreplicas ▸ hstored) fun l hl hr => absurd hmismatch hr
    rw [hreplicas] at hm
    exact hs.bounded m hm

theorem Exclusive.answer (hs : Exclusive codec key interval s) (hprompt : Prompt interval (.answer t) s)
    (h : Cluster.step (leaseProtocol codec key interval) (.answer t) s = some s') :
    Exclusive codec key interval s' := by
  have hfresh := hs.fresh.step h
  obtain ⟨n, p, r, hticket, hreplicas, hnow, hlocals, -, htickets⟩ := Cluster.answer_cases h
  obtain ⟨w, hw, hanswer⟩ := answer_worker codec key interval n s.now t r (s.locals n)
  rw [hw] at hlocals
  have hleasing : ∀ n' t' l, (s'.locals n').leasing = some (t', l) → (s.locals n').leasing = some (t', l) := by
    intro n' t' l hl
    rw [hlocals] at hl
    by_cases hn : n' = n
    · subst hn
      rw [update_self] at hl
      rcases hanswer with rfl | ⟨-, -, hnone, -⟩
      · exact hl
      · rw [hnone] at hl
        cases hl
    · rwa [update_of_ne hn] at hl
  refine ⟨hfresh, by rw [hreplicas, hnow]; exact hs.bounded, fun t' n' p' hp' => ?_,
    fun n' t' l hl => hnow ▸ hs.leasing n' t' l (hleasing n' t' l hl), fun n' t' l p' r' hl hcommitted => ?_,
    fun n' hwork => ?_⟩
  · rw [htickets] at hp'
    exact (hs.asked t' n' p' (Cluster.of_update_unused hp' nofun)).mono hnow.ge (fun m hm => hreplicas ▸ hm)
      fun l hl => hleasing n' t' l hl
  · rw [htickets] at hcommitted
    rw [hreplicas, hnow]
    exact hs.accepted n' t' l p' r' (hleasing n' t' l hl) (Cluster.of_update_unused hcommitted nofun)
  · rw [hlocals] at hwork ⊢
    rw [hreplicas, hnow]
    by_cases hn : n' = n
    · subst hn
      rw [update_self] at hwork ⊢
      rcases hanswer with rfl | ⟨l, hl, -, hlease⟩
      · exact hs.working n' hwork
      · rcases hlease hwork with ⟨hworked, htimer, hgeneration⟩ | ⟨hr, htimer⟩
        · rw [htimer, hgeneration]
          exact hs.working n' hworked
        · have huntil := hprompt n' (by rw [hticket]; rfl) (t, l) hl rfl
          have hstored := hs.accepted n' t l p r hl hticket hr huntil
          exact ⟨_, htimer, Nat.le_add_right .., huntil ▸ hstored⟩
    · rw [update_of_ne hn] at hwork ⊢
      exact hs.working n' hwork

/-- In every run whose calls are prompt, no two nodes work on the table. -/
theorem workers_exclusive (codec : Codec V Lease) (name : String) (leaseInterval : ℕ)
    (events : List (Event UInt64 WorkerStep)) (s : Cluster V UInt64 Worker)
    (hprompt : Throughout (Cluster.step (leaseProtocol codec (leaseKey name) leaseInterval)) (Prompt leaseInterval)
      events (.init fun _ => .new))
    (hrun : runMachine (Cluster.step (leaseProtocol codec (leaseKey name) leaseInterval)) events
      (.init fun _ => .new) = some s) :
    ∀ n n', (s.locals n).leaseWork = true → (s.locals n').leaseWork = true → n = n' := by
  have hs : Exclusive codec (leaseKey name) leaseInterval s := by
    refine runMachine_keeps_of (fun e s s' hok hs h => ?_) hprompt (exclusive_init codec _ leaseInterval) hrun
    cases e with
    | tick => exact hs.tick h
    | act n a behind => exact hs.act h
    | commit t index => exact hs.commit hok h
    | answer t => exact hs.answer hok h
  intro n n' hn hn'
  obtain ⟨d, -, -, hstored⟩ := hs.working n hn
  obtain ⟨d', -, -, hstored'⟩ := hs.working n' hn'
  exact hstored.id_eq hstored'

end

/-- A store of leases themselves. -/
def leaseCodec : Codec Lease Lease := ⟨id, some, fun _ => rfl⟩

/-- A node takes the lease at once; another one asks in vain. -/
def promptEvents : List (Event UInt64 WorkerStep) :=
  [.act 1 .leaseTable 0, .commit 0 1, .answer 0, .act 2 .leaseTable 0]

theorem workers_exclusive_promptEvents : ∃ s : Cluster Lease UInt64 Worker,
      runMachine (Cluster.step (leaseProtocol leaseCodec (leaseKey "t") 1)) promptEvents (.init fun _ => .new) =
        some s ∧ (s.locals 1).leaseWork = true ∧
      ∀ n n', (s.locals n).leaseWork = true → (s.locals n').leaseWork = true → n = n' := by
  refine ⟨_, rfl, rfl, workers_exclusive leaseCodec "t" 1 promptEvents _ ⟨trivial, fun s1 h1 => ?_⟩ rfl⟩
  cases h1
  refine ⟨fun n hn hdelete => (nomatch hdelete), fun s2 h2 => ?_⟩
  cases h2
  refine ⟨fun n hn call hcall _ => ?_, fun s3 _ => ⟨trivial, fun _ _ => trivial⟩⟩
  cases hn
  cases hcall
  rfl

/-- The result of a call arrives two units late: the worker's timer runs two units longer
than the lease, and for that time two nodes work. -/
theorem workers_overlap : ∃ s : Cluster Lease UInt64 Worker,
      runMachine (Cluster.step (leaseProtocol leaseCodec (leaseKey "t") 1)) [.act 1 .leaseTable 0, .commit 0 1,
        .tick, .tick, .answer 0, .tick, .tick, .tick, .act 2 .leaseTable 0, .commit 1 2, .answer 1]
        (.init fun _ => .new) = some s ∧ (s.locals 1).leaseWork = true ∧ (s.locals 2).leaseWork = true :=
  ⟨_, rfl, rfl, rfl⟩

end Armada.Replication
