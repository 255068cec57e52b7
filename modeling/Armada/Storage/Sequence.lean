import Armada.Kv.Clients

/-! Shard identifiers. Any number of calls take the next identifier from one pair of the
metadata store, each from a read of its own that may be stale; the version check lets
every value of the sequence through once. -/

namespace Armada.Storage

open Ordered Program Kv List Function

def keyPrefix : String := "/tables/"

def storedTableName (name : String) : String := keyPrefix ++ name

def sequenceKey : String := keyPrefix ++ "sys/idseq"

def tableIDsRangeStart : UInt64 := 10000

variable {V N : Type}

/-- `incAndGetIDSeq` up to its proposal: the identifier and what is proposed for it. -/
def incAndGetIDSeq (codec : Codec V UInt64) (get : Except KvError (Pair V)) : Option (UInt64 × Proposal V) := do
  let seq ← match get with
    | .ok pair => some pair
    | .error .notExist => some ⟨sequenceKey, codec.encode tableIDsRangeStart, 0⟩
    | .error _ => none
  let currSeq ← codec.decode seq.value
  let next := currSeq + 1
  return (next, .set seq.key (codec.encode next) seq.ver)

/-- Where a call is. -/
inductive Call where
  | start
  | waiting (next : UInt64) (ticket : ℕ)
  | returned (id : UInt64)
  | failed

inductive CallStep where
  | call
  /-- The read fails, or the caller stops waiting. -/
  | fail

def sequenceProtocol (codec : Codec V UInt64) : Protocol V N CallStep Call where
  act _ a _ ticket m l :=
    match l, a with
    | .start, .call =>
      match incAndGetIDSeq codec (m.get sequenceKey) with
      | some (next, p) => some (.waiting next ticket, some p)
      | none => some (.failed, none)
    | .start, .fail | .waiting _ _, .fail => some (.failed, none)
    | _, _ => none
  answer _ _ ticket r l :=
    match l with
    | .waiting next t =>
      if t = ticket then
        match setReply r with
        | .ok _ => .returned next
        | .error _ => .failed
      else l
    | _ => l
  elapse _ l := l

/-- The identifier comes from a read: of the absent pair, or of a state of the store. -/
def FromRead (codec : Codec V UInt64) (s : Replicas V) (next ver : UInt64) : Prop :=
  (ver = 0 ∧ next = tableIDsRangeStart + 1) ∨
    ∃ m ∈ s.states, ∃ pair curr, m[sequenceKey]? = some pair ∧ pair.ver = ver ∧
      codec.decode pair.value = some curr ∧ next = curr + 1

variable {next ver : UInt64}

variable {s : Replicas V} {codec : Codec V UInt64}

theorem incAndGetIDSeq_fromRead {m : MapStore V} (hm : m ∈ s.states)
    {p : Proposal V} (h : incAndGetIDSeq codec (m.get sequenceKey) = some (next, p)) :
    ∃ ver, p = .set sequenceKey (codec.encode next) ver ∧ FromRead codec s next ver := by
  unfold MapStore.get at h
  cases hread : m[sequenceKey]? with
  | none =>
    simp only [incAndGetIDSeq, hread, Option.bind_eq_bind, Option.bind_some, codec.lossless, Option.pure_def,
      Option.some.injEq, Prod.mk.injEq] at h
    obtain ⟨rfl, rfl⟩ := h
    exact ⟨0, rfl, Or.inl ⟨rfl, rfl⟩⟩
  | some pair =>
    simp only [incAndGetIDSeq, hread, Option.bind_eq_bind, Option.bind_some, Option.bind_eq_some_iff,
      Option.pure_def, Option.some.injEq, Prod.mk.injEq] at h
    obtain ⟨curr, hcurr, rfl, rfl⟩ := h
    refine ⟨pair.ver, ?_, Or.inr ⟨m, hm, pair, curr, hread, rfl, hcurr, rfl⟩⟩
    rw [(s.stamped m hm sequenceKey pair hread).1]

theorem FromRead.mono {s' : Replicas V} (hsub : ∀ m ∈ s.states, m ∈ s'.states)
    (h : FromRead codec s next ver) : FromRead codec s' next ver := by
  rcases h with h | ⟨m, hm, h⟩
  · exact Or.inl h
  · exact Or.inr ⟨m, hsub m hm, h⟩

/-- A call has an identifier: it has returned it, or its write has been accepted. -/
def Holds (s : Cluster V N Call) (c : N) (id : UInt64) : Prop :=
  s.locals c = .returned id ∨
    ∃ t p r, s.locals c = .waiting id t ∧ s.tickets t = .committed c p r ∧ r.value ≠ .versionMismatch

/-- A pending write was made from a read, for a call that waits for it or has given up. -/
def Asked (codec : Codec V UInt64) (s : Cluster V N Call) (t : ℕ) (c : N) (p : Proposal V) : Prop :=
  ∃ next ver, p = .set sequenceKey (codec.encode next) ver ∧ FromRead codec s.replicas next ver ∧
    (s.locals c = .waiting next t ∨ s.locals c = .failed)

/-- The `n` writes accepted so far numbered the identifiers from 1 on, and `ord` has the
number of each call that holds one. -/
structure Allocated (codec : Codec V UInt64) (n : ℕ) (ord : N → ℕ) (s : Cluster V N Call) : Prop where
  fresh : s.Fresh
  count : n ≤ s.replicas.index.toNat
  unset : n = 0 → ∀ m ∈ s.replicas.states, m[sequenceKey]? = none
  current : n ≠ 0 → ∃ pair, s.replicas.newest[sequenceKey]? = some pair ∧
    codec.decode pair.value = some (tableIDsRangeStart + UInt64.ofNat n)
  asked : ∀ t c p, s.tickets t = .pending c p → Asked codec s t c p
  held : ∀ c id, Holds s c id → 1 ≤ ord c ∧ ord c ≤ n ∧ id = tableIDsRangeStart + UInt64.ofNat (ord c)
  distinct : ∀ c c' id id', Holds s c id → Holds s c' id' → ord c = ord c' → c = c'

variable {n : ℕ}

theorem Allocated.next_eq {ord : N → ℕ} {s : Cluster V N Call}
    (hs : Allocated codec n ord s) (hread : FromRead codec s.replicas next ver)
    (hpass : Passes s.replicas.newest (.set sequenceKey (codec.encode next) ver)) :
    next = tableIDsRangeStart + UInt64.ofNat (n + 1) := by
  have hnewest : s.replicas.newest ∈ s.replicas.states := mem_cons_self ..
  by_cases hn : n = 0
  · subst hn
    rcases hread with ⟨-, hnext⟩ | ⟨m, hm, pair, curr, hpair, -⟩
    · exact hnext
    · rw [hs.unset rfl m hm] at hpair
      cases hpair
  · obtain ⟨pair, hpair, hvalue⟩ := hs.current hn
    have hver : pair.ver = ver := hpass pair hpair
    rcases hread with ⟨hzero, -⟩ | ⟨m, hm, read, curr, hreadm, hreadver, hcurr, hnext⟩
    · have hpos := (s.replicas.stamped _ hnewest _ pair hpair).2.1
      rw [hver, hzero] at hpos
      exact absurd hpos (lt_irrefl 0)
    · have heq := s.replicas.eq_of_ver hm hreadm hpair (hver.trans hreadver.symm)
      rw [heq, hcurr, Option.some.injEq] at hvalue
      rw [hnext, hvalue, UInt64.ofNat_add, add_assoc]
      rfl

section
variable {codec : Codec V UInt64} {n : ℕ} {ord : N → ℕ} {s s' : Cluster V N Call}

theorem Allocated.of_held (hs : Allocated codec n ord s) (hfresh : s'.Fresh)
    (hindex : s.replicas.index ≤ s'.replicas.index) (hnewest : s'.replicas.newest = s.replicas.newest)
    (hstates : s'.replicas.states = s.replicas.states) (hasked : ∀ t c p, s'.tickets t = .pending c p →
    Asked codec s' t c p) (hheld : ∀ c id, Holds s' c id → Holds s c id) : Allocated codec n ord s' where
  fresh := hfresh
  count := hs.count.trans (UInt64.le_iff_toNat_le.mp hindex)
  unset h := hstates ▸ hs.unset h
  current h := hnewest ▸ hs.current h
  asked := hasked
  held c id h := hs.held c id (hheld c id h)
  distinct c c' id id' h h' := hs.distinct c c' id id' (hheld c id h) (hheld c' id' h')

variable {next index : UInt64} {ticket : ℕ}

variable {c' c : N} {r : Result V} {p : Proposal V}

theorem holds_of_commit (hlocal : s.locals c = .waiting next ticket ∨ s.locals c = .failed)
    (hlocals : s'.locals = s.locals)
    (htickets : s'.tickets = Function.update s.tickets ticket (.committed c p r)) {id : UInt64}
    (h : Holds s' c' id) : Holds s c' id ∨ (c' = c ∧ id = next ∧ r.value ≠ .versionMismatch) := by
  unfold Holds at h
  rw [hlocals, htickets] at h
  rcases h with hret | ⟨t, p', r', hwaiting, htick, hr'⟩
  · exact Or.inl (Or.inl hret)
  · by_cases ht : t = ticket
    · rw [ht, update_self, Ticket.committed.injEq] at htick
      obtain ⟨rfl, rfl, rfl⟩ := htick
      rw [hwaiting] at hlocal
      simp only [Call.waiting.injEq, reduceCtorEq, or_false] at hlocal
      exact Or.inr ⟨rfl, hlocal.1, hr'⟩
    · rw [update_of_ne ht] at htick
      exact Or.inl (Or.inr ⟨t, p', r', hwaiting, htick, hr'⟩)

theorem asked_of_commit (hs : Allocated codec n ord s)
    (hsub : ∀ m ∈ s.replicas.states, m ∈ s'.replicas.states) (hlocals : s'.locals = s.locals)
    (htickets : s'.tickets = Function.update s.tickets ticket (.committed c p r)) {t : ℕ} {p' : Proposal V}
    (h : s'.tickets t = .pending c' p') : Asked codec s' t c' p' := by
  have ht : t ≠ ticket := by
    rintro rfl
    simp [htickets] at h
  rw [htickets, update_of_ne ht] at h
  obtain ⟨next, ver, rfl, hread, hlocal⟩ := hs.asked t c' p' h
  exact ⟨next, ver, rfl, hread.mono hsub, hlocals ▸ hlocal⟩

theorem allocated_init : Allocated codec 0 (fun _ => 0) (.init fun _ => .start : Cluster V N Call) := by
  have hheld : ∀ (c : N) (id : UInt64), ¬ Holds (.init fun _ => .start : Cluster V N Call) c id := by
    rintro c id (h | ⟨t, p, r, h, -⟩) <;> cases h
  refine ⟨fun _ _ => rfl, Nat.zero_le _, fun _ m hm => ?_, fun h => absurd rfl h, fun t c p h => ?_,
    fun c id h => absurd h (hheld c id), fun c c' id id' h => absurd h (hheld c id)⟩
  · rw [mem_singleton.mp hm]
    exact OrdMap.getElem?_empty _
  · cases h

variable [DecidableEq N]

theorem Allocated.fail (hs : Allocated codec n ord s) (hfresh : s'.Fresh) (hreplicas : s'.replicas = s.replicas)
    (htickets : s'.tickets = s.tickets) (hlocals : s'.locals = Function.update s.locals c .failed) :
    Allocated codec n ord s' := by
  refine hs.of_held hfresh (by rw [hreplicas]) (by rw [hreplicas]) (by rw [hreplicas]) (fun t c' p hp => ?_)
    (fun c' id h => ?_)
  · rw [htickets] at hp
    obtain ⟨next, ver, rfl, hread, hlocal⟩ := hs.asked t c' p hp
    refine ⟨next, ver, rfl, hreplicas ▸ hread, ?_⟩
    rw [hlocals]
    by_cases hc : c' = c
    · rw [hc, update_self]
      exact Or.inr rfl
    · rwa [update_of_ne hc]
  · unfold Holds at h ⊢
    rw [hlocals, htickets] at h
    by_cases hc : c' = c
    · simp [hc] at h
    · rwa [update_of_ne hc] at h

theorem Allocated.accept (hs : Allocated codec n ord s) {ver : UInt64}
    (hticket : s.tickets ticket = .pending c (.set sequenceKey (codec.encode next) ver))
    (hread : FromRead codec s.replicas next ver)
    (hlocal : s.locals c = .waiting next ticket ∨ s.locals c = .failed) (hlt : s.replicas.index < index)
    (hpass : Passes s.replicas.newest (.set sequenceKey (codec.encode next) ver)) (hfresh : s'.Fresh)
    (hreplicas : s'.replicas = s.replicas.write (.set sequenceKey (codec.encode next) ver) index hlt)
    (hlocals : s'.locals = s.locals) (htickets : s'.tickets = Function.update s.tickets ticket
    (.committed c (.set sequenceKey (codec.encode next) ver) r)) :
    Allocated codec (n + 1) (Function.update ord c (n + 1)) s' := by
  have hnext := hs.next_eq hread hpass
  -- The call held nothing: its write was still pending.
  have hnot : ∀ id, ¬ Holds s c id := by
    rintro id (hret | ⟨t, p, r', hwaiting, htick, -⟩)
    · simp [hret] at hlocal
    · rw [hwaiting] at hlocal
      simp only [Call.waiting.injEq, reduceCtorEq, or_false] at hlocal
      rw [hlocal.2, hticket] at htick
      cases htick
  have hord : ∀ c' id, Holds s' c' id →
      (c' ≠ c ∧ Holds s c' id) ∨ (c' = c ∧ id = tableIDsRangeStart + UInt64.ofNat (n + 1)) := by
    intro c' id h
    rcases holds_of_commit hlocal hlocals htickets h with hold | ⟨rfl, rfl, -⟩
    · exact Or.inl ⟨fun hc => hnot id (hc ▸ hold), hold⟩
    · exact Or.inr ⟨rfl, hnext⟩
  refine ⟨hfresh, ?_, by simp, fun _ => ?_, fun t c' p h => ?_, fun c' id h => ?_, fun c1 c2 id id' h h' heq => ?_⟩
  · have hle := hs.count
    have hcount := UInt64.lt_iff_toNat_lt.mp hlt
    rw [hreplicas]
    exact Nat.succ_le_of_lt (hle.trans_lt hcount)
  · refine ⟨⟨sequenceKey, codec.encode next, index⟩, ?_, by rw [codec.lossless, hnext]⟩
    rw [hreplicas]
    exact (OrdMap.getElem?_insert ..).trans (if_pos rfl)
  · exact asked_of_commit hs (fun m hm => hreplicas ▸ mem_cons_of_mem _ hm) hlocals htickets h
  · rcases hord c' id h with ⟨hc, hold⟩ | ⟨rfl, rfl⟩
    · obtain ⟨h1, h2, h3⟩ := hs.held c' id hold
      rw [update_of_ne hc]
      exact ⟨h1, by omega, h3⟩
    · rw [update_self]
      exact ⟨by omega, le_rfl, rfl⟩
  · rcases hord c1 id h with ⟨hc1, h₁⟩ | ⟨rfl, -⟩ <;> rcases hord c2 id' h' with ⟨hc2, h₂⟩ | ⟨rfl, -⟩
    · rw [update_of_ne hc1, update_of_ne hc2] at heq
      exact hs.distinct c1 c2 id id' h₁ h₂ heq
    · have hle := (hs.held c1 id h₁).2.1
      rw [update_of_ne hc1, update_self] at heq
      omega
    · have hle := (hs.held c2 id' h₂).2.1
      rw [update_of_ne hc2, update_self] at heq
      omega
    · rfl

variable [Inhabited V]

theorem Allocated.act (hs : Allocated codec n ord s) {a : CallStep} {behind : ℕ}
    (h : Cluster.step (sequenceProtocol codec) (.act c a behind) s = some s') : Allocated codec n ord s' := by
  have hfresh := hs.fresh.step h
  obtain ⟨m, hm, l, p, hact, hreplicas, -, hlocals, -, htickets⟩ := Cluster.act_cases h
  have hfails : (l, p) = (Call.failed, none) → Allocated codec n ord s' := by
    intro heq
    obtain ⟨rfl, rfl⟩ := Prod.mk.inj heq
    exact hs.fail hfresh hreplicas htickets hlocals
  simp only [sequenceProtocol] at hact
  split at hact
  · next hstart =>
    split at hact
    · next next p' hcall =>
      cases hact
      obtain ⟨ver, rfl, hread⟩ := incAndGetIDSeq_fromRead hm hcall
      dsimp only at htickets
      refine hs.of_held hfresh (by rw [hreplicas]) (by rw [hreplicas]) (by rw [hreplicas]) (fun t c' p hp => ?_)
        (fun c' id h => ?_)
      · rw [htickets] at hp
        by_cases ht : t = s.next
        · rw [ht, update_self, Ticket.pending.injEq] at hp
          obtain ⟨rfl, rfl⟩ := hp
          refine ⟨next, ver, rfl, hreplicas ▸ hread, Or.inl ?_⟩
          rw [hlocals, update_self, ht]
        · rw [update_of_ne ht] at hp
          obtain ⟨next', ver', rfl, hread', hlocal⟩ := hs.asked t c' p hp
          refine ⟨next', ver', rfl, hreplicas ▸ hread', ?_⟩
          have hc : c' ≠ c := by
            rintro rfl
            simp [hstart] at hlocal
          rwa [hlocals, update_of_ne hc]
      · -- The new ticket was unused, so what the other calls hold is as before.
        unfold Holds at h ⊢
        rw [hlocals, htickets] at h
        by_cases hc : c' = c
        · simp [hc] at h
        · rw [update_of_ne hc] at h
          refine h.imp_right ?_
          rintro ⟨t, p, r, hwaiting, hticket, hr⟩
          have ht : t ≠ s.next := by
            rintro rfl
            simp at hticket
          rw [update_of_ne ht] at hticket
          exact ⟨t, p, r, hwaiting, hticket, hr⟩
    · exact hfails (Option.some.inj hact).symm
  · exact hfails (Option.some.inj hact).symm
  · exact hfails (Option.some.inj hact).symm
  · cases hact

omit [DecidableEq N] [Inhabited V] in
theorem answer_call (codec : Codec V UInt64) (c : N) (now t : ℕ) (r : Result V) (l : Call) :
    ∃ l', (sequenceProtocol codec).answer c now t r l = l' ∧ (l' = l ∨
    ∃ next, l = .waiting next t ∧ (l' = .failed ∨ (l' = .returned next ∧ r.value ≠ .versionMismatch))) := by
  refine ⟨_, rfl, ?_⟩
  cases l with
  | start | returned id | failed => exact Or.inl rfl
  | waiting next t' =>
    by_cases ht : t' = t
    · subst ht
      refine Or.inr ⟨next, rfl, ?_⟩
      by_cases hr : r.value = .versionMismatch <;> simp [sequenceProtocol, setReply, hr]
    · exact Or.inl (by simp [sequenceProtocol, ht])

theorem Allocated.answer (hs : Allocated codec n ord s)
    (h : Cluster.step (sequenceProtocol codec) (.answer ticket) s = some s') : Allocated codec n ord s' := by
  have hfresh := hs.fresh.step h
  obtain ⟨c, p, r, hticket, hreplicas, -, hlocals, -, htickets⟩ := Cluster.answer_cases h
  obtain ⟨l, hl, hanswer⟩ := answer_call codec c s.now ticket r (s.locals c)
  rw [hl] at hlocals
  refine hs.of_held hfresh (by rw [hreplicas]) (by rw [hreplicas]) (by rw [hreplicas]) (fun t c' p' hp => ?_)
    (fun c' id hheld => ?_)
  · rw [htickets] at hp
    have hp' := Cluster.of_update_unused hp nofun
    obtain ⟨next, ver, rfl, hread, hlocal⟩ := hs.asked t c' p' hp'
    refine ⟨next, ver, rfl, hreplicas ▸ hread, ?_⟩
    rw [hlocals]
    by_cases hc : c' = c
    · subst hc
      rw [update_self]
      rcases hanswer with rfl | ⟨next', hwaits, -⟩
      · exact hlocal
      · -- The call waits for the answered ticket, which is not pending.
        simp only [hwaits, Call.waiting.injEq, reduceCtorEq, or_false] at hlocal
        rw [← hlocal.2, hticket] at hp'
        cases hp'
    · rwa [update_of_ne hc]
  · unfold Holds at hheld
    rw [hlocals, htickets] at hheld
    by_cases hc : c' = c
    · subst hc
      rw [update_self] at hheld
      rcases hanswer with rfl | ⟨next, hwaits, rfl | ⟨rfl, hr⟩⟩
      · refine hheld.imp_right ?_
        rintro ⟨t, p', r', hwaiting, htick, hr'⟩
        exact ⟨t, p', r', hwaiting, Cluster.of_update_unused htick nofun, hr'⟩
      · simp at hheld
      · simp only [Call.returned.injEq, reduceCtorEq, false_and, exists_false, or_false] at hheld
        exact Or.inr ⟨ticket, p, r, hheld ▸ hwaits, hticket, hr⟩
    · rw [update_of_ne hc] at hheld
      refine hheld.imp_right ?_
      rintro ⟨t, p', r', hwaiting, htick, hr'⟩
      exact ⟨t, p', r', hwaiting, Cluster.of_update_unused htick nofun, hr'⟩

theorem Allocated.commit (hs : Allocated codec n ord s)
    (h : Cluster.step (sequenceProtocol codec) (.commit ticket index) s = some s') :
    ∃ n' ord', Allocated codec n' ord' s' := by
  have hfresh := hs.fresh.step h
  obtain ⟨c, p, r, hticket, hcommit, -, hlocals, -, htickets⟩ := Cluster.commit_cases h
  obtain ⟨next, ver, rfl, hread, hlocal⟩ := hs.asked ticket c p hticket
  obtain ⟨hlt, ⟨hpass, -, hreplicas⟩ | ⟨-, hmismatch, hreplicas⟩⟩ := Replicas.commit_cases hcommit
  · exact ⟨_, _, hs.accept hticket hread hlocal hlt hpass hfresh hreplicas hlocals htickets⟩
  · refine ⟨n, ord, hs.of_held hfresh ?_ ?_ ?_ (fun t c' p h => ?_) fun c' id h => ?_⟩
    · rw [hreplicas]
      exact hlt.le
    · rw [hreplicas]
      rfl
    · rw [hreplicas]
      rfl
    · exact asked_of_commit hs (fun m hm => hreplicas ▸ hm) hlocals htickets h
    · exact (holds_of_commit hlocal hlocals htickets h).resolve_right fun hsucc => hsucc.2.2 hmismatch

theorem Allocated.step (hs : Allocated codec n ord s) {e : Event N CallStep}
    (h : Cluster.step (sequenceProtocol codec) e s = some s') : ∃ n' ord', Allocated codec n' ord' s' := by
  cases e with
  | tick =>
    cases h
    exact ⟨n, ord, hs.fresh, hs.count, hs.unset, hs.current, hs.asked, hs.held, hs.distinct⟩
  | act c a behind => exact ⟨n, ord, hs.act h⟩
  | commit ticket index => exact hs.commit h
  | answer ticket => exact ⟨n, ord, hs.answer h⟩

/-- No two calls return one identifier. All of them are above the start of the range as
long as the log of the store is shorter than the rest of the range. -/
theorem identifiers_distinct (codec : Codec V UInt64) (events : List (Event N CallStep)) (s : Cluster V N Call)
    (hrun : runMachine (Cluster.step (sequenceProtocol codec)) events (.init fun _ => .start) = some s) :
    (∀ c c' id, s.locals c = .returned id → s.locals c' = .returned id → c = c') ∧
      (s.replicas.index.toNat < 2 ^ 64 - tableIDsRangeStart.toNat →
        ∀ c id, s.locals c = .returned id → tableIDsRangeStart < id) := by
  obtain ⟨n, ord, hs⟩ : ∃ n ord, Allocated codec n ord s :=
    runMachine_keeps (P := fun s => ∃ n ord, Allocated codec n ord s)
      (fun e s s' hs h => by
        obtain ⟨n, ord, hs⟩ := hs
        exact hs.step h) ⟨0, _, allocated_init⟩ hrun
  have hsmall : ∀ c id, Holds s c id → ord c < UInt64.size := by
    intro c id h
    exact ((hs.held c id h).2.1.trans hs.count).trans_lt s.replicas.index.toNat_lt
  constructor
  · intro c c' id hc hc'
    obtain ⟨-, -, hid⟩ := hs.held c id (Or.inl hc)
    obtain ⟨-, -, hid'⟩ := hs.held c' id (Or.inl hc')
    refine hs.distinct c c' id id (Or.inl hc) (Or.inl hc') ?_
    have heq : UInt64.ofNat (ord c) = UInt64.ofNat (ord c') := by
      rw [hid] at hid'
      exact add_left_cancel hid'
    have hnat := congrArg UInt64.toNat heq
    rwa [UInt64.toNat_ofNat_of_lt' (hsmall c id (Or.inl hc)),
      UInt64.toNat_ofNat_of_lt' (hsmall c' id (Or.inl hc'))] at hnat
  · intro hroom c id hc
    obtain ⟨hpos, hle, hid⟩ := hs.held c id (Or.inl hc)
    have hcount := hs.count
    rw [hid, UInt64.lt_iff_toNat_lt, UInt64.toNat_add, UInt64.toNat_ofNat_of_lt' (hsmall c id (Or.inl hc)),
      Nat.mod_eq_of_lt (by omega)]
    omega

end

/-! ### The end of the range -/

/-- A store of identifiers themselves. -/
def sequenceCodec : Codec UInt64 UInt64 := ⟨id, some, fun _ => rfl⟩

/-- Two calls at once: one of them gets an identifier. -/
theorem identifiers_distinct_twoCalls : ∃ s : Cluster UInt64 Bool Call,
      runMachine (Cluster.step (sequenceProtocol sequenceCodec)) [.act true .call 0, .act false .call 0,
        .commit 1 1, .commit 0 2, .answer 0, .answer 1] (.init fun _ => .start) = some s ∧
      s.locals false = .returned 10001 ∧ s.locals true = .failed ∧
      (∀ c c' id, s.locals c = .returned id → s.locals c' = .returned id → c = c') ∧
      ∀ c id, s.locals c = .returned id → tableIDsRangeStart < id :=
  have hrun := identifiers_distinct (N := Bool) sequenceCodec [.act true .call 0, .act false .call 0,
    .commit 1 1, .commit 0 2, .answer 0, .answer 1] _ rfl
  ⟨_, rfl, rfl, rfl, hrun.1, hrun.2 (by decide)⟩

/-- One call after the other, each from the newest state. -/
def callEvents (n : ℕ) : List (Event ℕ CallStep) :=
  [.act n .call 0, .commit n (UInt64.ofNat (n + 1)), .answer n]

/-- The state after `n` of these calls. -/
structure AfterCalls (n : ℕ) (s : Cluster UInt64 ℕ Call) : Prop where
  next : s.next = n
  index : s.replicas.index = UInt64.ofNat n
  current : incAndGetIDSeq sequenceCodec (s.replicas.newest.get sequenceKey) =
    some (tableIDsRangeStart + UInt64.ofNat (n + 1),
      .set sequenceKey (tableIDsRangeStart + UInt64.ofNat (n + 1)) (UInt64.ofNat n))
  version : ∀ pair, s.replicas.newest[sequenceKey]? = some pair → pair.ver = UInt64.ofNat n
  waiting : ∀ c, n ≤ c → s.locals c = .start
  last : ∀ c, n = c + 1 → s.locals c = .returned (tableIDsRangeStart + UInt64.ofNat n)

theorem afterCalls_zero : AfterCalls 0 (.init fun _ => .start) :=
  ⟨rfl, rfl, rfl, fun pair h => by simp [Cluster.init, Replicas.start] at h, fun _ _ => rfl,
    fun c h => absurd h (Nat.succ_ne_zero c).symm⟩

theorem AfterCalls.call (hn : n + 1 < 2 ^ 64) {s : Cluster UInt64 ℕ Call} (hs : AfterCalls n s) :
    ∃ s', runMachine (Cluster.step (sequenceProtocol sequenceCodec)) (callEvents n) s = some s' ∧
    AfterCalls (n + 1) s' := by
  have hlt : s.replicas.index < UInt64.ofNat (n + 1) := by
    have hn' : n < UInt64.size := (lt_add_one n).trans hn
    rw [hs.index, UInt64.lt_iff_toNat_lt, UInt64.toNat_ofNat_of_lt' hn', UInt64.toNat_ofNat_of_lt' hn]
    exact lt_add_one n
  have hact : (sequenceProtocol (N := ℕ) sequenceCodec).act n .call s.now s.next s.replicas.newest (s.locals n) =
      some (.waiting (tableIDsRangeStart + UInt64.ofNat (n + 1)) s.next,
        some (.set sequenceKey (tableIDsRangeStart + UInt64.ofNat (n + 1)) (UInt64.ofNat n))) := by
    simp [sequenceProtocol, hs.waiting n le_rfl, hs.current]
  obtain ⟨s', r, hrun, hvalue, hreplicas, hnext, hlocals⟩ := Cluster.run_accepted hact hs.version hlt
  rw [hs.next] at hrun hnext
  have hnewest : s'.replicas.newest[sequenceKey]? =
      some ⟨sequenceKey, tableIDsRangeStart + UInt64.ofNat (n + 1), UInt64.ofNat (n + 1)⟩ := by
    rw [hreplicas]
    exact (OrdMap.getElem?_insert ..).trans (if_pos rfl)
  refine ⟨s', hrun, hnext, by rw [hreplicas]; rfl, ?_, fun pair h => ?_, fun c hc => ?_, fun c hc => ?_⟩
  · simp [incAndGetIDSeq, MapStore.get, hnewest, sequenceCodec, add_assoc]
  · rw [hnewest] at h
    rw [← Option.some.inj h]
  · rw [hlocals, update_of_ne (by omega)]
    exact hs.waiting c (by omega)
  · obtain rfl : n = c := Nat.succ.inj hc
    rw [hlocals, update_self]
    simp [sequenceProtocol, setReply, hvalue]

theorem exists_afterCalls (hn : n < 2 ^ 64) :
    ∃ s, runMachine (Cluster.step (sequenceProtocol sequenceCodec)) ((List.range n).flatMap callEvents)
    (.init fun _ => .start) = some s ∧ AfterCalls n s := by
  induction n with
  | zero => exact ⟨_, rfl, afterCalls_zero⟩
  | succ n ih =>
    obtain ⟨s, hrun, hs⟩ := ih (by omega)
    obtain ⟨s', hrun', hs'⟩ := hs.call hn
    refine ⟨s', ?_, hs'⟩
    rw [range_succ, flatMap_append, runMachine_append, hrun]
    simpa using hrun'

/-- After as many calls as the range has identifiers, the next one returns 0. -/
theorem identifiers_wrap : ∃ (events : List (Event ℕ CallStep)) (s : Cluster UInt64 ℕ Call) (c : ℕ),
      runMachine (Cluster.step (sequenceProtocol sequenceCodec)) events (.init fun _ => .start) = some s ∧
      s.locals c = .returned 0 ∧ ¬ tableIDsRangeStart < 0 := by
  obtain ⟨s, hrun, hs⟩ := exists_afterCalls (n := 2 ^ 64 - 10000) (by norm_num)
  exact ⟨_, s, 2 ^ 64 - 10001, hrun, hs.last _ (by norm_num), by decide⟩

end Armada.Storage
