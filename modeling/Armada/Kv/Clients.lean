import Armada.Kv.Register
import Armada.Program.Machine

/-! Programs over the metadata store. A process reads any state the store has been in,
proposes writes that are committed at any later time or never, and learns the result at
any time after that or gives up. All processes share one clock. -/

namespace Armada.Kv

open Ordered Program List Function

/-! ### The states of the replicated store -/

/-- The states the log has led through, the newest first. A version is the index of an
entry, so a key never has two pairs of one version. -/
structure Replicas (V : Type) where
  newest : MapStore V
  older : List (MapStore V)
  index : UInt64
  stamped : ∀ m ∈ newest :: older, ∀ (key : String) (pair : Pair V), m[key]? = some pair →
    pair.key = key ∧ 0 < pair.ver ∧ pair.ver ≤ index
  agree : ∀ m ∈ newest :: older, ∀ m' ∈ newest :: older, ∀ (key : String) (pair pair' : Pair V),
    m[key]? = some pair → m'[key]? = some pair' → pair.ver = pair'.ver → pair = pair'

variable {V : Type}

theorem getElem?_effect (index : UInt64) (m : MapStore V) (p : Proposal V) (key : String) : (p.effect index m)[key]? =
      if p.key = key then
        match p with
        | .set key value _ => some ⟨key, value, index⟩
        | .delete _ _ => none
      else m[key]? := by
  cases p with
  | set k value ver => exact OrdMap.getElem?_insert m k key _
  | delete k ver =>
    rw [Proposal.effect, MapStore.delete, OrdMap.getElem?_erase]
    rfl

theorem of_effect {index : UInt64} {m : MapStore V} {p : Proposal V} {key : String} {pair : Pair V}
    (h : (p.effect index m)[key]? = some pair) : m[key]? = some pair ∨ (pair.key = key ∧ pair.ver = index) := by
  rw [getElem?_effect] at h
  split at h
  · next hkey =>
    cases p with
    | set k value ver =>
      cases h
      exact Or.inr ⟨hkey, rfl⟩
    | delete k ver => cases h
  · exact Or.inl h

namespace Replicas

/-- The store before its first entry. -/
def start : Replicas V where
  newest := ∅
  older := []
  index := 0
  stamped m hm key pair h := by
    rw [mem_singleton.mp hm] at h
    simp at h
  agree m hm m' hm' key pair pair' h := by
    rw [mem_singleton.mp hm] at h
    simp at h

/-- Every state the store has been in. -/
def states (s : Replicas V) : List (MapStore V) := s.newest :: s.older

/-- A proposal past the check is written at an index above all before it. -/
def write (s : Replicas V) (p : Proposal V) (index : UInt64) (h : s.index < index) : Replicas V where
  newest := p.effect index s.newest
  older := s.newest :: s.older
  index := index
  stamped m hm key pair hpair := by
    have hold : ∀ m ∈ s.newest :: s.older, m[key]? = some pair →
        pair.key = key ∧ 0 < pair.ver ∧ pair.ver ≤ index := by
      intro m hm hp
      have hbound := s.stamped m hm key pair hp
      exact ⟨hbound.1, hbound.2.1, hbound.2.2.trans h.le⟩
    rcases mem_cons.mp hm with rfl | hm
    · rcases of_effect hpair with hp | ⟨hkey, hver⟩
      · exact hold _ (mem_cons_self ..) hp
      · have hzero : (0 : UInt64) ≤ s.index := UInt64.le_iff_toNat_le.mpr (Nat.zero_le _)
        exact ⟨hkey, hver ▸ hzero.trans_lt h, hver.le⟩
    · exact hold m hm hpair
  agree m hm m' hm' key pair pair' hpair hpair' hver := by
    -- A pair stamped with the new index is in no older state.
    have hold : ∀ m ∈ s.newest :: s.older, ∀ pair, m[key]? = some pair → pair.ver ≠ index :=
      fun m hm pair hp heq => absurd (s.stamped m hm key pair hp).2.2 (not_le.mpr (heq ▸ h))
    have hsplit : ∀ m ∈ p.effect index s.newest :: s.newest :: s.older, ∀ pair, m[key]? = some pair →
        (∃ m0 ∈ s.newest :: s.older, m0[key]? = some pair) ∨
          ((p.effect index s.newest)[key]? = some pair ∧ pair.ver = index) := by
      intro m hm pair hp
      rcases mem_cons.mp hm with rfl | hm
      · rcases of_effect hp with hp' | ⟨-, hv⟩
        · exact Or.inl ⟨_, mem_cons_self .., hp'⟩
        · exact Or.inr ⟨hp, hv⟩
      · exact Or.inl ⟨m, hm, hp⟩
    rcases hsplit m hm pair hpair with ⟨m0, hm0, h0⟩ | ⟨h0, hv0⟩ <;>
      rcases hsplit m' hm' pair' hpair' with ⟨m1, hm1, h1⟩ | ⟨h1, hv1⟩
    · exact s.agree m0 hm0 m1 hm1 key pair pair' h0 h1 hver
    · exact absurd (hver.trans hv1) (hold m0 hm0 pair h0)
    · exact absurd (hver.symm.trans hv0) (hold m1 hm1 pair' h1)
    · exact Option.some.inj (h0.symm.trans h1)

/-- A refused proposal leaves its entry in the log and nothing else. -/
def skip (s : Replicas V) (index : UInt64) (h : s.index < index) : Replicas V :=
  { s with
    index := index
    stamped := fun m hm key pair hpair =>
      have hbound := s.stamped m hm key pair hpair
      ⟨hbound.1, hbound.2.1, hbound.2.2.trans h.le⟩ }

/-- A proposal is committed as the entry of an index. -/
def commit [Inhabited V] (s : Replicas V) (p : Proposal V) (index : UInt64) : Option (Result V × Replicas V) :=
  if h : s.index < index then
    match updateEntry ⟨index, some p.update⟩ s.newest with
    | .ok (r, _) => some (r, if Passes s.newest p then s.write p index h else s.skip index h)
    | .error _ => none
  else none

section
variable [Inhabited V] {s s' : Replicas V} {p : Proposal V} {index : UInt64} {r : Result V}

/-- The commit of an accepted proposal is what a replica's update does with its entry. -/
theorem commit_of_passes (hp : Passes s.newest p) (hlt : s.index < index) :
    ∃ r, s.commit p index = some (r, s.write p index hlt) ∧ r.value = .success ∧
    updateEntry ⟨index, some p.update⟩ s.newest = .ok (r, (s.write p index hlt).newest) := by
  obtain ⟨r, hr, -, hvalue⟩ := updateEntry_of_passes hp index
  refine ⟨r, ?_, hvalue, hr⟩
  rw [commit, dif_pos hlt, hr]
  exact congrArg (fun t => some (r, t)) (if_pos hp)

theorem commit_of_not_passes (hp : ¬ Passes s.newest p) (hlt : s.index < index) :
    ∃ r, s.commit p index = some (r, s.skip index hlt) ∧ r.value = .versionMismatch ∧
    updateEntry ⟨index, some p.update⟩ s.newest = .ok (r, (s.skip index hlt).newest) := by
  obtain ⟨r, hr, -, hvalue⟩ := updateEntry_of_not_passes hp index
  refine ⟨r, ?_, hvalue, hr⟩
  rw [commit, dif_pos hlt, hr]
  exact congrArg (fun t => some (r, t)) (if_neg hp)

theorem commit_cases (h : s.commit p index = some (r, s')) : ∃ hlt : s.index < index,
    (Passes s.newest p ∧ r.value = .success ∧ s' = s.write p index hlt) ∨
    (¬ Passes s.newest p ∧ r.value = .versionMismatch ∧ s' = s.skip index hlt) := by
  by_cases hlt : s.index < index
  · refine ⟨hlt, ?_⟩
    by_cases hp : Passes s.newest p
    · obtain ⟨r', hr', hvalue, -⟩ := commit_of_passes hp hlt
      obtain ⟨rfl, rfl⟩ := Prod.mk.inj (Option.some.inj (hr'.symm.trans h))
      exact Or.inl ⟨hp, hvalue, rfl⟩
    · obtain ⟨r', hr', hvalue, -⟩ := commit_of_not_passes hp hlt
      obtain ⟨rfl, rfl⟩ := Prod.mk.inj (Option.some.inj (hr'.symm.trans h))
      exact Or.inr ⟨hp, hvalue, rfl⟩
  · rw [commit, dif_neg hlt] at h
    cases h

theorem ver_of_commit (h : s.commit p index = some (r, s')) (hr : r.value = .success) : r.data.ver = index := by
  rw [commit] at h
  split at h
  · cases hu : updateEntry ⟨index, some p.update⟩ s.newest with
    | error err =>
      rw [hu] at h
      cases h
    | ok out =>
      rw [hu] at h
      obtain ⟨rfl, -⟩ := Prod.mk.inj (Option.some.inj h)
      exact ver_of_updateEntry hu hr
  · cases h

end

theorem eq_of_ver (s : Replicas V) {m : MapStore V} (hm : m ∈ s.states) {key : String} {read pair : Pair V}
    (hread : m[key]? = some read) (hpair : s.newest[key]? = some pair) (hver : pair.ver = read.ver) : pair = read :=
  s.agree _ (mem_cons_self ..) m hm key pair read hpair hread hver

end Replicas

/-- How clients write a value as the text of a pair. -/
structure Codec (V α : Type) where
  encode : α → V
  decode : V → Option α
  lossless : ∀ a, decode (encode a) = some a

/-! ### Processes -/

/-- What a process of each kind does: an action of its own, which sees a state of the
store, the time and the ticket that a proposal of it will have; what it makes of the
result of a ticket; and what the passing of time does to it. -/
structure Protocol (V N A L : Type) where
  act : N → A → ℕ → ℕ → MapStore V → L → Option (L × Option (Proposal V))
  answer : N → ℕ → ℕ → Result V → L → L
  elapse : ℕ → L → L

/-- What has become of a ticket. -/
inductive Ticket (V N : Type) where
  | unused
  | pending (owner : N) (p : Proposal V)
  | committed (owner : N) (p : Proposal V) (result : Result V)
  deriving DecidableEq

def Ticket.owner {V N : Type} : Ticket V N → Option N
  | .unused => none
  | .pending n _ | .committed n _ _ => some n

def Ticket.isDelete {V N : Type} : Ticket V N → Bool
  | .pending _ (.delete _ _) | .committed _ (.delete _ _) _ => true
  | _ => false

structure Cluster (V N L : Type) where
  replicas : Replicas V
  now : ℕ
  locals : N → L
  next : ℕ
  tickets : ℕ → Ticket V N

inductive Event (N A : Type) where
  /-- One unit of time passes. -/
  | tick
  /-- A process acts on the state of the store so many states ago. -/
  | act (n : N) (a : A) (behind : ℕ)
  | commit (ticket : ℕ) (index : UInt64)
  | answer (ticket : ℕ)

section
variable {N L : Type}

/-- Before anything has happened. -/
def Cluster.init (l : N → L) : Cluster V N L := ⟨.start, 0, l, 0, fun _ => .unused⟩

namespace Cluster

variable {s s' : Cluster V N L}

theorem of_update_unused {tickets : ℕ → Ticket V N} {t t' : ℕ} {x : Ticket V N}
    (h : Function.update tickets t .unused t' = x) (hx : x ≠ .unused) : tickets t' = x := by
  rw [← h]
  refine (update_of_ne ?_ _ _).symm
  rintro rfl
  exact hx (h.symm.trans (update_self ..))

/-- Every value that a key has had, or that is proposed for it, has a property. -/
def Everywhere (key : String) (Q : V → Prop) (s : Cluster V N L) : Prop :=
  (∀ m ∈ s.replicas.states, ∀ pair, m[key]? = some pair → Q pair.value) ∧
    ∀ t n value ver, s.tickets t = .pending n (.set key value ver) → Q value

variable {key : String}

variable {Q : V → Prop}

theorem Everywhere.mono {Q' : V → Prop} (hs : s.Everywhere key Q) (hQ : ∀ value, Q value → Q' value) :
    s.Everywhere key Q' :=
  ⟨fun m hm pair h => hQ _ (hs.1 m hm pair h), fun t n value ver h => hQ _ (hs.2 t n value ver h)⟩

theorem everywhere_init (l : N → L) (key : String) (Q : V → Prop) :
    (Cluster.init l : Cluster V N L).Everywhere key Q := by
  refine ⟨fun m hm pair hpair => ?_, fun t n value ver h => nomatch h⟩
  have hempty : (Replicas.start : Replicas V).newest[key]? = none := OrdMap.getElem?_empty _
  rw [mem_singleton.mp hm] at hpair
  exact absurd (hempty.symm.trans hpair) nofun

theorem Everywhere.act {n : N} {p : Option (Proposal V)} (hs : s.Everywhere key Q)
    (hreplicas : s'.replicas = s.replicas) (htickets : s'.tickets = match p with
      | none => s.tickets
      | some p => Function.update s.tickets s.next (.pending n p))
    (hp : ∀ value ver, p = some (.set key value ver) → Q value) : s'.Everywhere key Q := by
  refine ⟨hreplicas ▸ hs.1, fun t n' value ver ht => ?_⟩
  rw [htickets] at ht
  cases p with
  | none => exact hs.2 t n' value ver ht
  | some p =>
    dsimp only at ht
    by_cases hnext : t = s.next
    · rw [hnext, update_self] at ht
      obtain ⟨-, rfl⟩ := Ticket.pending.inj ht
      exact hp value ver rfl
    · rw [update_of_ne hnext] at ht
      exact hs.2 t n' value ver ht

/-- Tickets not handed out yet are unused. -/
def Fresh (s : Cluster V N L) : Prop := ∀ t, s.next ≤ t → s.tickets t = .unused

end Cluster

end

section
variable {N A L : Type} [Inhabited V] [DecidableEq N] (P : Protocol V N A L)

def Cluster.step : Event N A → Cluster V N L → Option (Cluster V N L)
  | .tick, s => some { s with now := s.now + 1, locals := fun n => P.elapse (s.now + 1) (s.locals n) }
  | .act n a behind, s => do
    let m ← s.replicas.states[behind]?
    let (l, p) ← P.act n a s.now s.next m (s.locals n)
    return { s with
      locals := Function.update s.locals n l
      next := s.next + 1
      tickets := match p with
        | none => s.tickets
        | some p => Function.update s.tickets s.next (.pending n p) }
  | .commit ticket index, s =>
    match s.tickets ticket with
    | .pending n p => do
      let (r, replicas) ← s.replicas.commit p index
      return { s with replicas, tickets := Function.update s.tickets ticket (.committed n p r) }
    | _ => none
  | .answer ticket, s =>
    match s.tickets ticket with
    | .committed n _ r => some { s with
        locals := Function.update s.locals n (P.answer n s.now ticket r (s.locals n))
        tickets := Function.update s.tickets ticket .unused }
    | _ => none

namespace Cluster

variable {P} {s s' : Cluster V N L}

variable {a : A} {n : N}

theorem act_cases {behind : ℕ} (h : Cluster.step P (.act n a behind) s = some s') :
    ∃ m ∈ s.replicas.states, ∃ l p, P.act n a s.now s.next m (s.locals n) = some (l, p) ∧
      s'.replicas = s.replicas ∧ s'.now = s.now ∧ s'.locals = Function.update s.locals n l ∧
      s'.next = s.next + 1 ∧ s'.tickets = match p with
        | none => s.tickets
        | some p => Function.update s.tickets s.next (.pending n p) := by
  simp only [Cluster.step, Option.bind_eq_bind, Option.bind_eq_some_iff, Option.pure_def, Option.some.injEq] at h
  obtain ⟨m, hm, ⟨l, p⟩, hact, rfl⟩ := h
  exact ⟨m, mem_of_getElem? hm, l, p, hact, rfl, rfl, rfl, rfl, rfl⟩

variable {ticket : ℕ} {key : String}

variable {index : UInt64}

theorem commit_cases (h : Cluster.step P (.commit ticket index) s = some s') :
    ∃ n p r, s.tickets ticket = .pending n p ∧ s.replicas.commit p index = some (r, s'.replicas) ∧
    s'.now = s.now ∧ s'.locals = s.locals ∧ s'.next = s.next ∧
    s'.tickets = Function.update s.tickets ticket (.committed n p r) := by
  simp only [Cluster.step] at h
  split at h
  · next n p hticket =>
    simp only [Option.bind_eq_bind, Option.bind_eq_some_iff, Option.pure_def, Option.some.injEq] at h
    obtain ⟨⟨r, replicas⟩, hcommit, rfl⟩ := h
    exact ⟨n, p, r, hticket, hcommit, rfl, rfl, rfl, rfl⟩
  · cases h

variable {p : Proposal V}

theorem commit_of_passes (hticket : s.tickets ticket = .pending n p)
    (hpass : Passes s.replicas.newest p) (h : Cluster.step P (.commit ticket index) s = some s') :
    ∃ hlt, s'.replicas = s.replicas.write p index hlt := by
  obtain ⟨n', p', r, hticket', hcommit, -⟩ := commit_cases h
  obtain ⟨rfl, rfl⟩ := Ticket.pending.inj (hticket.symm.trans hticket')
  obtain ⟨hlt, ⟨-, -, heq⟩ | ⟨hnot, -, -⟩⟩ := Replicas.commit_cases hcommit
  · exact ⟨hlt, heq⟩
  · exact absurd hpass hnot

theorem answer_cases (h : Cluster.step P (.answer ticket) s = some s') :
    ∃ n p r, s.tickets ticket = .committed n p r ∧ s'.replicas = s.replicas ∧ s'.now = s.now ∧
    s'.locals = Function.update s.locals n (P.answer n s.now ticket r (s.locals n)) ∧ s'.next = s.next ∧
    s'.tickets = Function.update s.tickets ticket .unused := by
  simp only [Cluster.step] at h
  split at h
  · next n p r hticket =>
    cases h
    exact ⟨n, p, r, hticket, rfl, rfl, rfl, rfl, rfl⟩
  · cases h

theorem run_accepted {l : L} (hact : P.act n a s.now s.next s.replicas.newest (s.locals n) = some (l, some p))
    (hp : Passes s.replicas.newest p) (hlt : s.replicas.index < index) :
    ∃ s' r, runMachine (Cluster.step P) [.act n a 0, .commit s.next index, .answer s.next] s = some s' ∧
    r.value = .success ∧ s'.replicas = s.replicas.write p index hlt ∧ s'.next = s.next + 1 ∧
    s'.locals = Function.update s.locals n (P.answer n s.now s.next r l) := by
  obtain ⟨r, hcommit, hvalue, -⟩ := Replicas.commit_of_passes hp hlt
  have hread : s.replicas.states[0]? = some s.replicas.newest := rfl
  refine ⟨{ s with
    replicas := s.replicas.write p index hlt
    locals := Function.update s.locals n (P.answer n s.now s.next r l)
    next := s.next + 1
    tickets := Function.update s.tickets s.next .unused }, r, ?_, hvalue, rfl, rfl, rfl⟩
  simp [runMachine, Cluster.step, hread, hact, hcommit]

variable {Q : V → Prop}

theorem Everywhere.commit (hs : s.Everywhere key Q)
    (h : Cluster.step P (.commit ticket index) s = some s') : s'.Everywhere key Q := by
  obtain ⟨n, p, r, hticket, hcommit, -, -, -, htickets⟩ := commit_cases h
  refine ⟨fun m hm pair hpair => ?_, fun t n' value ver ht => ?_⟩
  · obtain ⟨hlt, ⟨-, -, hreplicas⟩ | ⟨-, -, hreplicas⟩⟩ := Replicas.commit_cases hcommit
    · rw [hreplicas] at hm
      rcases mem_cons.mp hm with rfl | hm
      · have heffect : (p.effect index s.replicas.newest)[key]? = some pair := hpair
        rw [getElem?_effect] at heffect
        split at heffect
        · next hkey =>
          cases p with
          | set k value ver =>
            cases heffect
            obtain rfl : k = key := hkey
            exact hs.2 ticket n value ver hticket
          | delete k ver => cases heffect
        · exact hs.1 _ (mem_cons_self ..) pair heffect
      · exact hs.1 m hm pair hpair
    · rw [hreplicas] at hm
      exact hs.1 m hm pair hpair
  · rw [htickets] at ht
    by_cases hne : t = ticket
    · rw [hne, update_self] at ht
      cases ht
    · rw [update_of_ne hne] at ht
      exact hs.2 t n' value ver ht

theorem Everywhere.answer (hs : s.Everywhere key Q)
    (h : Cluster.step P (.answer ticket) s = some s') : s'.Everywhere key Q := by
  obtain ⟨n, p, r, -, hreplicas, -, -, -, htickets⟩ := answer_cases h
  refine ⟨hreplicas ▸ hs.1, fun t n' value ver ht => ?_⟩
  rw [htickets] at ht
  exact hs.2 t n' value ver (of_update_unused ht nofun)

theorem Fresh.step {e : Event N A} (hs : s.Fresh) (h : Cluster.step P e s = some s') : s'.Fresh := by
  intro t ht
  cases e with
  | tick =>
    cases h
    exact hs t ht
  | act n a behind =>
    obtain ⟨m, -, l, p, -, -, -, -, hnext, htickets⟩ := act_cases h
    rw [hnext] at ht
    rw [htickets]
    cases p with
    | none => exact hs t (by omega)
    | some p => exact (update_of_ne (by omega) _ _).trans (hs t (by omega))
  | commit ticket index =>
    obtain ⟨n, p, r, hticket, -, -, -, hnext, htickets⟩ := commit_cases h
    rw [hnext] at ht
    have hne : t ≠ ticket := by
      rintro rfl
      rw [hs t ht] at hticket
      cases hticket
    rw [htickets, update_of_ne hne, hs t ht]
  | answer ticket =>
    obtain ⟨n, p, r, -, -, -, -, hnext, htickets⟩ := answer_cases h
    rw [hnext] at ht
    rw [htickets]
    by_cases hne : t = ticket
    · rw [hne, update_self]
    · rw [update_of_ne hne, hs t ht]

end Cluster

end

end Armada.Kv
