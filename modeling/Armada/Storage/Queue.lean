import Armada.Ordered.Bytes
import Armada.Ordered.Map
import Armada.Program.Fallible
import Armada.Util.Heap

/-! The notification queue of a follower. A forwarded write waits in a heap of its table until
the revision the leader gave it has been applied. The loop closes the channel of a waiter, or
sends an error once its context is done; a channel has one slot, so a second error holds up the
loop. -/

namespace Armada.Storage

open Ordered Program Heap List

structure Item where
  ctx : ℕ
  table : String
  revision : UInt64
  waitCh : ℕ
  deriving DecidableEq

def Item.less : Item → Item → Bool := byKey Item.revision

/-- What the loop does on a channel. -/
inductive Signal where
  | error
  | close
  deriving DecidableEq

/-- A channel with one slot, and what has been done on it. -/
structure Chan where
  full : Bool
  signals : List Signal
  deriving DecidableEq

/-- Where the loop stays for good. -/
inductive Halt where
  | blocked (ch : ℕ)
  | closedTwice (ch : ℕ)
  | emptySlice
  deriving DecidableEq

abbrev Chans := ℕ → Chan

/-- `waitCh <- ctx.Err()` -/
def Chans.send (ch : ℕ) (cs : Chans) : Except Halt Chans :=
  if .close ∈ (cs ch).signals then .error (.closedTwice ch)
  else if (cs ch).full then .error (.blocked ch)
  else .ok (Function.update cs ch ⟨true, (cs ch).signals ++ [.error]⟩)

/-- `close(waitCh)` -/
def Chans.close (ch : ℕ) (cs : Chans) : Except Halt Chans :=
  if .close ∈ (cs ch).signals then .error (.closedTwice ch)
  else .ok (Function.update cs ch ⟨(cs ch).full, (cs ch).signals ++ [.close]⟩)

/-- The heaps by table, the contexts that are done, the channels and how many of them have
been handed out. -/
structure Queue where
  items : OrdMap String (List Item)
  done : List ℕ
  chans : Chans
  next : ℕ

namespace Queue

def new : Queue := ⟨∅, [], fun _ => ⟨false, []⟩, 0⟩

/-- The heap that `items.Load` gives, an empty one by default. -/
def heap (q : Queue) (table : String) : List Item := (q.items[table]?).getD []

def setHeap (table : String) (h : List Item) (cs : Chans) (q : Queue) : Queue :=
  { q with items := q.items.insert table h, chans := cs }

/-- A new waiter, on a new channel. -/
def enter (ctx : ℕ) (table : String) (revision : UInt64) (q : Queue) : Queue :=
  { q.setHeap table (push Item.less (q.heap table) ⟨ctx, table, revision, q.next⟩) q.chans with next := q.next + 1 }

def popRoot (h : List Item) : Except Halt (List Item) :=
  match pop Item.less h with
  | none => .error .emptySlice
  | some (_, h) => .ok h

/-- One round of the first loop of a gc tick. -/
def expire (done : List ℕ) (elem : Item) (cs : Chans) : Except Halt (Item × Chans) :=
  if elem.ctx ∈ done then do
    let cs ← cs.send elem.waitCh
    return ({ elem with revision := 0 }, cs)
  else return (elem, cs)

/-- The second loop of a gc tick. -/
def popExpired : ℕ → List Item → Except Halt (List Item)
  | 0, h => .ok h
  | n + 1, h =>
    match peek h with
    | none => .error .emptySlice
    | some elem =>
      if elem.revision = 0 then do
        let h ← popRoot h
        popExpired n h
      else .ok h

/-- A gc tick over one heap. -/
def gcTable (table : String) (q : Queue) : Except Halt (Unit × Queue) := do
  let h := q.heap table
  let r ← runAll (expire q.done) h q.chans
  let h' ← popExpired h.length (fix Item.less r.1 0)
  return ((), q.setHeap table h' r.2)

/-- The loop of a notification. -/
def release (done : List ℕ) (revision : UInt64) : ℕ → List Item → Chans → Except Halt (List Item × Chans)
  | 0, h, cs => .ok (h, cs)
  | n + 1, h, cs =>
    match peek h with
    | none => .error .emptySlice
    | some elem =>
      if elem.ctx ∈ done then do
        let cs ← cs.send elem.waitCh
        let h ← popRoot h
        release done revision n h cs
      else if elem.revision ≤ revision then do
        let cs ← cs.close elem.waitCh
        let h ← popRoot h
        release done revision n h cs
      else .ok (h, cs)

inductive Event where
  | add (ctx : ℕ) (table : String) (revision : UInt64)
  | notify (table : String) (revision : UInt64)
  | len (table : String)
  | gc
  | cancel (ctx : ℕ)
  /-- A waiter takes what is in the slot of its channel. -/
  | receive (ch : ℕ)
  deriving DecidableEq

inductive Reply where
  | none
  | channel (ch : ℕ)
  | length (n : ℕ)
  deriving DecidableEq

/-- One round of `Run`, or what happens around it. -/
def step : Event → Queue → Except Halt (Reply × Queue)
  | .add ctx table revision, q => .ok (.channel q.next, q.enter ctx table revision)
  | .notify table revision, q => do
    let r ← release q.done revision (q.heap table).length (q.heap table) q.chans
    return (.none, q.setHeap table r.1 r.2)
  | .len table, q => .ok (.length (q.heap table).length, q.setHeap table (q.heap table) q.chans)
  | .gc, q => do
    let r ← runAll gcTable q.items.keys q
    return (.none, r.2)
  | .cancel ctx, q => .ok (.none, { q with done := ctx :: q.done })
  | .receive ch, q => .ok (.none, { q with chans := Function.update q.chans ch { q.chans ch with full := false } })

/-- The waiters of a heap whose contexts are done stand at the top of it: only the root may
have a live waiter above one of them. -/
def Topmost (done : List ℕ) (h : List Item) : Prop :=
  ∀ i < h.length, 2 < i → (∀ it ∈ h[i]?, it.ctx ∈ done → ∀ above ∈ h[parent i]?, above.ctx ∈ done)

instance (done : List ℕ) (h : List Item) : Decidable (Topmost done h) :=
  inferInstanceAs (Decidable (∀ i < h.length, _))

/-- Waiters have revisions, and a gc tick finds those that are done at the top of their
heaps. -/
def Orderly : Event → Queue → Prop
  | .add _ _ revision, _ => revision ≠ 0
  | .gc, q => ∀ table ∈ q.items.keys, Topmost q.done (q.heap table)
  | _, _ => True

instance (e : Event) (q : Queue) : Decidable (Orderly e q) :=
  match e with
  | .add _ _ revision => inferInstanceAs (Decidable (revision ≠ 0))
  | .gc => inferInstanceAs (Decidable (∀ table ∈ q.items.keys, Topmost q.done (q.heap table)))
  | .notify .. | .len .. | .cancel .. | .receive .. => isTrue trivial

/-! ### One heap -/

section
variable {done : List ℕ} {h : List Item} {cs : Chans}

/-- Nothing has been done on the channels of these waiters, and each has its own. -/
structure Silent (h : List Item) (cs : Chans) : Prop where
  nodup : (h.map Item.waitCh).Nodup
  unused : ∀ it ∈ h, cs it.waitCh = ⟨false, []⟩

variable {h' : List Item}

theorem Silent.perm (hs : Silent h cs) (hp : h.Perm h') : Silent h' cs :=
  ⟨(hp.map _).nodup_iff.mp hs.nodup, fun it hit => hs.unused it (hp.mem_iff.mpr hit)⟩

/-- One waiter is told, on its own channel. -/
structure Told (ch : ℕ) (s : Signal) (cs cs' : Chans) : Prop where
  signals : (cs' ch).signals = [s]
  other : ∀ ch' ≠ ch, cs' ch' = cs ch'

variable {ch : ℕ}

theorem send_told (h : cs ch = ⟨false, []⟩) : ∃ cs', cs.send ch = .ok cs' ∧ Told ch .error cs cs' := by
  refine ⟨_, by rw [Chans.send, h]; rfl, ⟨by simp, fun ch' hne => Function.update_of_ne hne ..⟩⟩

theorem close_told (h : cs ch = ⟨false, []⟩) : ∃ cs', cs.close ch = .ok cs' ∧ Told ch .close cs cs' := by
  refine ⟨_, by rw [Chans.close, h]; rfl, ⟨by simp, fun ch' hne => Function.update_of_ne hne ..⟩⟩

variable {cs' : Chans} {it : Item}

theorem Silent.tell {s : Signal} (hs : Silent (it :: h) cs) (ht : Told it.waitCh s cs cs') : Silent h cs' := by
  obtain ⟨hnot, hnodup⟩ := nodup_cons.mp hs.nodup
  refine ⟨hnodup, fun it' hit' => ?_⟩
  rw [ht.other]
  · exact hs.unused it' (mem_cons_of_mem _ hit')
  · exact fun heq => hnot (heq ▸ mem_map_of_mem hit')

/-- What a waiter is told when it is taken off its heap. -/
def outcome (done : List ℕ) (it : Item) : Signal := if it.ctx ∈ done then .error else .close

/-- What comes of a heap: each of its waiters is in the new one, on an unused channel, or
has been told. -/
structure Left (done : List ℕ) (h h' : List Item) (cs cs' : Chans) : Prop where
  isHeap : IsHeap Item.revision h'
  silent : Silent h' cs'
  sub : h' ⊆ h
  told : ∀ it ∈ h, it ∈ h' ∨ (cs' it.waitCh).signals = [outcome done it]
  other : ∀ ch, ch ∉ h.map Item.waitCh → cs' ch = cs ch

theorem Left.refl (hh : IsHeap Item.revision h) (hs : Silent h cs) : Left done h h cs cs :=
  ⟨hh, hs, List.Subset.refl _, fun _ hit => .inl hit, fun _ _ => rfl⟩

theorem Left.cons {h'' : List Item} {cs'' : Chans} (hp : h.Perm (it :: h'))
    (hs : Silent h cs) (ht : Told it.waitCh (outcome done it) cs cs')
    (hl : Left done h' h'' cs' cs'') : Left done h h'' cs cs'' := by
  have hnot : it.waitCh ∉ h'.map Item.waitCh := (nodup_cons.mp (hs.perm hp).nodup).1
  refine ⟨hl.isHeap, hl.silent, fun x hx => hp.mem_iff.mpr (mem_cons_of_mem _ (hl.sub hx)), fun x hx => ?_,
    fun ch hch => ?_⟩
  · rcases mem_cons.mp (hp.mem_iff.mp hx) with rfl | hx
    · exact .inr (by rw [hl.other _ hnot, ht.signals])
    · exact hl.told x hx
  · rw [(hp.map Item.waitCh).mem_iff, map_cons, mem_cons, not_or] at hch
    rw [hl.other ch hch.2, ht.other ch hch.1]

theorem popRoot_of_peek (hh : IsHeap Item.revision h) (hpeek : peek h = some it) :
    ∃ h', popRoot h = .ok h' ∧ h.Perm (it :: h') ∧ IsHeap Item.revision h' := by
  cases h with
  | nil => cases hpeek
  | cons x tail =>
    obtain rfl := Option.some.inj hpeek
    have hpop : pop Item.less (x :: tail) = _ := pop_cons x tail
    exact ⟨_, by rw [popRoot, hpop], pop_perm hpop, hh.pop hpop⟩

variable {n : ℕ}

theorem exists_peek (hn : h.length = n + 1) : ∃ it, peek h = some it := by
  cases h with
  | nil => cases hn
  | cons x tail => exact ⟨x, rfl⟩

/-- A notification leaves the waiters above its revision, and tells the others of those
that are not done that they may go on. -/
theorem release_left {revision : UInt64} (hn : h.length = n) (hh : IsHeap Item.revision h)
    (hs : Silent h cs) : ∃ r, release done revision n h cs = .ok r ∧ Left done h r.1 cs r.2 ∧
    (∀ it ∈ r.1, revision < it.revision) ∧ ∀ it ∈ h, it.ctx ∉ done → revision < it.revision → it ∈ r.1 := by
  induction n generalizing h cs with
  | zero =>
    obtain rfl := length_eq_zero_iff.mp hn
    exact ⟨_, rfl, .refl hh hs, by simp, by simp⟩
  | succ n ih =>
    obtain ⟨it, hpeek⟩ := exists_peek hn
    obtain ⟨h', hpop, hperm, hh'⟩ := popRoot_of_peek hh hpeek
    have hlen : h'.length = n := by
      have := hperm.length_eq
      rw [hn, length_cons] at this
      omega
    have hunused := hs.unused it (hperm.mem_iff.mpr (mem_cons_self ..))
    rw [release, hpeek]
    dsimp only
    split_ifs with hdone hle
    · obtain ⟨cs', hsend, htold⟩ := send_told hunused
      obtain ⟨r, hr, hleft, habove, hkept⟩ := ih hlen hh' ((hs.perm hperm).tell htold)
      rw [← show outcome done it = .error from if_pos hdone] at htold
      refine ⟨r, by rw [hsend, ok_bind, hpop, ok_bind, hr], hleft.cons hperm hs htold, habove, ?_⟩
      intro x hx hlive hlt
      rcases mem_cons.mp (hperm.mem_iff.mp hx) with rfl | hx
      · exact absurd hdone hlive
      · exact hkept x hx hlive hlt
    · obtain ⟨cs', hclose, htold⟩ := close_told hunused
      obtain ⟨r, hr, hleft, habove, hkept⟩ := ih hlen hh' ((hs.perm hperm).tell htold)
      rw [← show outcome done it = .close from if_neg hdone] at htold
      refine ⟨r, by rw [hclose, ok_bind, hpop, ok_bind, hr], hleft.cons hperm hs htold, habove, ?_⟩
      intro x hx hlive hlt
      rcases mem_cons.mp (hperm.mem_iff.mp hx) with rfl | hx
      · exact absurd hlt (not_lt.mpr hle)
      · exact hkept x hx hlive hlt
    · refine ⟨_, rfl, .refl hh hs, fun x hx => ?_, fun x hx _ _ => hx⟩
      exact (not_le.mp hle).trans_le (hh.peek_le hpeek hx)

theorem popExpired_eq (hn : h.length = n) (hh : IsHeap Item.revision h) :
    ∃ h' gone, popExpired n h = .ok h' ∧ IsHeap Item.revision h' ∧ h.Perm (gone ++ h') ∧
    (∀ it ∈ gone, it.revision = 0) ∧ ∀ it ∈ h', it.revision ≠ 0 := by
  induction n generalizing h with
  | zero =>
    obtain rfl := length_eq_zero_iff.mp hn
    exact ⟨[], [], rfl, hh, .refl _, by simp, by simp⟩
  | succ n ih =>
    obtain ⟨it, hpeek⟩ := exists_peek hn
    obtain ⟨h1, hpop, hperm, hh1⟩ := popRoot_of_peek hh hpeek
    have hlen : h1.length = n := by
      have := hperm.length_eq
      rw [hn, length_cons] at this
      omega
    rw [popExpired, hpeek]
    dsimp only
    split_ifs with hzero
    · obtain ⟨h', gone, hrest, hh', hperm', hgone, hkept⟩ := ih hlen hh1
      refine ⟨h', it :: gone, by rw [hpop, ok_bind, hrest], hh', hperm.trans (hperm'.cons it), ?_, hkept⟩
      exact forall_mem_cons.mpr ⟨hzero, hgone⟩
    · refine ⟨h, [], rfl, hh, .refl _, by simp, fun x hx h0 => hzero ?_⟩
      have hle := hh.peek_le hpeek hx
      rw [h0] at hle
      exact le_antisymm hle (UInt64.le_iff_toNat_le.mpr (Nat.zero_le _))

/-- A waiter as the first loop of a gc tick leaves it. -/
def mark (done : List ℕ) (it : Item) : Item := if it.ctx ∈ done then { it with revision := 0 } else it

theorem waitCh_mark (it : Item) : (mark done it).waitCh = it.waitCh := by
  unfold mark
  split <;> rfl

theorem mark_of_live (hlive : it.ctx ∉ done) : mark done it = it := if_neg hlive

theorem revision_mark (hdone : it.ctx ∈ done) : (mark done it).revision = 0 := by
  rw [mark, if_pos hdone]

theorem expire_all (hs : Silent h cs) : ∃ cs', runAll (expire done) h cs = .ok (h.map (mark done), cs') ∧
    (∀ it ∈ h, it.ctx ∈ done → (cs' it.waitCh).signals = [.error]) ∧
    ∀ ch, (∀ it ∈ h, it.waitCh = ch → it.ctx ∉ done) → cs' ch = cs ch := by
  induction h generalizing cs with
  | nil => exact ⟨cs, rfl, by simp, fun _ _ => rfl⟩
  | cons it h ih =>
    obtain ⟨hnot, hnodup⟩ := nodup_cons.mp hs.nodup
    have hnot' : ∀ x ∈ h, x.waitCh ≠ it.waitCh := fun x hx heq => hnot (heq ▸ mem_map_of_mem hx)
    by_cases hdone : it.ctx ∈ done
    · obtain ⟨cs1, hsend, htold⟩ := send_told (hs.unused it (mem_cons_self ..))
      obtain ⟨cs', hrun, herror, hother⟩ := ih (hs.tell htold)
      refine ⟨cs', ?_, forall_mem_cons.mpr ⟨fun _ => ?_, herror⟩, fun ch hch => ?_⟩
      · rw [runAll, expire, if_pos hdone, hsend, ok_bind, pure_bind, hrun, ok_bind, map_cons, mark, if_pos hdone]
        rfl
      · rw [hother _ fun x hx heq => absurd heq (hnot' x hx), htold.signals]
      · rw [forall_mem_cons] at hch
        rw [hother ch hch.2, htold.other ch fun heq => hch.1 heq.symm hdone]
    · have htail : Silent h cs := ⟨hnodup, fun x hx => hs.unused x (mem_cons_of_mem _ hx)⟩
      obtain ⟨cs', hrun, herror, hother⟩ := ih htail
      refine ⟨cs', ?_, forall_mem_cons.mpr ⟨fun h => absurd h hdone, herror⟩, fun ch hch => ?_⟩
      · rw [runAll, expire, if_neg hdone, pure_bind, hrun, ok_bind, map_cons, mark_of_live hdone]
        rfl
      · rw [forall_mem_cons] at hch
        exact hother ch hch.2

/-- Setting the revisions of the topmost waiters to zero keeps the order below the root. -/
theorem Topmost.le_mark (htop : Topmost done h) (hh : IsHeap Item.revision h) (c : ℕ) (hc : 2 < c)
    (hcl : c < (h.map (mark done)).length) : Le Item.revision (h.map (mark done)) (parent c) c := by
  rw [length_map] at hcl
  intro x y hx hy
  obtain ⟨above, habove, rfl⟩ := Option.map_eq_some_iff.mp (List.getElem?_map .. ▸ hx)
  obtain ⟨it, hit, rfl⟩ := Option.map_eq_some_iff.mp (List.getElem?_map .. ▸ hy)
  by_cases hdone : above.ctx ∈ done
  · rw [revision_mark hdone]
    exact UInt64.le_iff_toNat_le.mpr (Nat.zero_le _)
  · have hlive : it.ctx ∉ done := fun h => hdone (htop c hcl hc it hit h above habove)
    rw [mark_of_live hdone, mark_of_live hlive]
    exact hh c (by omega) hcl above it habove hit

theorem gcTable_left {table : String} {q : Queue} (hh : IsHeap Item.revision (q.heap table))
    (hs : Silent (q.heap table) q.chans) (hpos : ∀ it ∈ q.heap table, it.revision ≠ 0)
    (htop : Topmost q.done (q.heap table)) :
    ∃ h' cs', gcTable table q = .ok ((), q.setHeap table h' cs') ∧ Left q.done (q.heap table) h' q.chans cs' ∧
    ∀ it ∈ h', it.ctx ∉ q.done := by
  obtain ⟨cs', hexpire, herror, hother⟩ : ∃ cs', runAll (expire q.done) _ _ = .ok (_, cs') ∧ _ := expire_all hs
  have hfix : IsHeap Item.revision (fix Item.less ((q.heap table).map (mark q.done)) 0) :=
    isHeap_fix (htop.le_mark hh)
  have hperm : (fix Item.less _ 0).Perm ((q.heap table).map (mark q.done)) := fix_perm _ 0
  obtain ⟨h', gone, hpop, hh', hsplit, hgone, hkept⟩ := popExpired_eq (by rw [hperm.length_eq, length_map]) hfix
  have hall : ∀ {it}, it ∈ gone ++ h' ↔ it ∈ (q.heap table).map (mark q.done) := (hsplit.symm.trans hperm).mem_iff
  have hlive : ∀ it ∈ h', it ∈ q.heap table ∧ it.ctx ∉ q.done := by
    intro it hit
    obtain ⟨it0, hit0, rfl⟩ := mem_map.mp (hall.mp (mem_append_right _ hit))
    by_cases hdone : it0.ctx ∈ q.done
    · exact absurd (revision_mark hdone) (hkept _ hit)
    · rw [mark_of_live hdone]
      exact ⟨hit0, hdone⟩
  refine ⟨h', cs', ?_,
    ⟨hh', ⟨?_, fun it hit => ?_⟩, fun it hit => (hlive it hit).1, fun it hit => ?_, fun ch hch => ?_⟩,
    fun it hit => (hlive it hit).2⟩
  · rw [gcTable, hexpire, ok_bind, hpop, ok_bind]
    rfl
  · have hmap : ((gone ++ h').map Item.waitCh).Perm ((q.heap table).map Item.waitCh) := by
      have := (hsplit.symm.trans hperm).map Item.waitCh
      rwa [map_map, show Item.waitCh ∘ mark q.done = Item.waitCh from funext waitCh_mark] at this
    rw [map_append] at hmap
    exact (hmap.nodup_iff.mpr hs.nodup).of_append_right
  · obtain ⟨hmem, hnot⟩ := hlive it hit
    rw [hother, hs.unused it hmem]
    intro x hx heq
    rw [inj_on_of_nodup_map hs.nodup hx hmem heq]
    exact hnot
  · by_cases hdone : it.ctx ∈ q.done
    · exact .inr (by rw [herror it hit hdone, outcome, if_pos hdone])
    · have hmem : it ∈ gone ++ h' := hall.mpr (mem_map.mpr ⟨it, hit, mark_of_live hdone⟩)
      rcases mem_append.mp hmem with hg | hk
      · exact absurd (hgone it hg) (hpos it hit)
      · exact .inl hk
  · exact hother ch fun it hit heq => absurd (heq ▸ mem_map_of_mem hit) hch

end

/-! ### All heaps -/

/-- Every waiter is queued with an unused channel of its own, or has been told once. -/
structure Served (q : Queue) : Prop where
  isHeap : ∀ table, IsHeap Item.revision (q.heap table)
  silent : ∀ table, Silent (q.heap table) q.chans
  positive : ∀ table, ∀ it ∈ q.heap table, it.revision ≠ 0
  apart : ∀ table table' it it', it ∈ q.heap table → it' ∈ q.heap table' → it.waitCh = it'.waitCh → table = table'
  known : ∀ table, ∀ it ∈ q.heap table, it.waitCh < q.next
  unused : ∀ ch, q.next ≤ ch → q.chans ch = ⟨false, []⟩
  told : ∀ ch < q.next, (∃ table, ∃ it ∈ q.heap table, it.waitCh = ch) ∨ (q.chans ch).signals.length = 1

theorem heap_setHeap (table table' : String) (h : List Item) (cs : Chans) (q : Queue) :
    (q.setHeap table h cs).heap table' = if table = table' then h else q.heap table' := by
  simp only [heap, setHeap, OrdMap.getElem?_insert]
  split_ifs <;> rfl

variable {cs' : Chans} {h' : List Item} {table : String} {q : Queue}

theorem Left.setHeap_subset (hl : Left q.done (q.heap table) h' q.chans cs') (table' : String) :
    (q.setHeap table h' cs').heap table' ⊆ q.heap table' := by
  rw [heap_setHeap]
  split_ifs with heq
  · exact heq ▸ hl.sub
  · exact List.Subset.refl _

theorem served_new : Served new where
  isHeap _ := isHeap_nil
  silent _ := ⟨.nil, nofun⟩
  positive _ := nofun
  apart _ _ _ _ := nofun
  known _ := nofun
  unused _ _ := rfl
  told _ h := absurd h (Nat.not_lt_zero _)

theorem Served.setHeap (hq : Served q)
    (hl : Left q.done (q.heap table) h' q.chans cs') : Served (q.setHeap table h' cs') := by
  -- The waiters of the other heaps are on other channels.
  have hother : ∀ table' ≠ table, ∀ it ∈ q.heap table', cs' it.waitCh = q.chans it.waitCh := by
    intro table' hne it hit
    refine hl.other _ fun hmem => hne ?_
    obtain ⟨it', hit', heq⟩ := mem_map.mp hmem
    exact (hq.apart table table' it' it hit' hit heq).symm
  have hsub := hl.setHeap_subset
  refine ⟨fun table' => ?_, fun table' => ?_, fun table' it hit => hq.positive table' it (hsub table' hit),
    fun t t' it it' hit hit' => hq.apart t t' it it' (hsub t hit) (hsub t' hit'),
    fun table' it hit => hq.known table' it (hsub table' hit), fun ch hch => ?_, fun ch hch => ?_⟩
  · rw [heap_setHeap]
    split_ifs
    · exact hl.isHeap
    · exact hq.isHeap table'
  · rw [heap_setHeap]
    split_ifs with heq
    · exact hl.silent
    · exact ⟨(hq.silent table').nodup, fun it hit =>
        (hother table' (Ne.symm heq) it hit).trans ((hq.silent table').unused it hit)⟩
  · refine (hl.other ch fun hmem => ?_).trans (hq.unused ch hch)
    obtain ⟨it, hit, rfl⟩ := mem_map.mp hmem
    exact absurd (hq.known table it hit) (not_lt.mpr hch)
  · by_cases hmem : ch ∈ (q.heap table).map Item.waitCh
    · obtain ⟨it, hit, rfl⟩ := mem_map.mp hmem
      rcases hl.told it hit with hkept | hsignals
      · exact .inl ⟨table, it, by rwa [heap_setHeap, if_pos rfl], rfl⟩
      · exact .inr (by rw [show (q.setHeap table h' cs').chans = cs' from rfl, hsignals]; rfl)
    · rcases hq.told ch hch with ⟨table', it, hit, rfl⟩ | hone
      · refine .inl ⟨table', it, ?_, rfl⟩
        rw [heap_setHeap, if_neg]
        · exact hit
        · rintro rfl
          exact hmem (mem_map_of_mem hit)
      · exact .inr (by rw [show (q.setHeap table h' cs').chans = cs' from rfl, hl.other ch hmem]; exact hone)

section
variable {q : Queue}

theorem heap_enter_eq (ctx : ℕ) (table : String) (revision : UInt64) (table' : String) :
    (q.enter ctx table revision).heap table' = if table = table' then
    push Item.less (q.heap table) ⟨ctx, table, revision, q.next⟩ else q.heap table' :=
  heap_setHeap table table' _ q.chans q

theorem heap_enter (ctx : ℕ) (table : String) (revision : UInt64) (table' : String) :
    ((q.enter ctx table revision).heap table').Perm (if table = table' then
    ⟨ctx, table, revision, q.next⟩ :: q.heap table' else q.heap table') := by
  rw [heap_enter_eq]
  split_ifs with heq
  · exact heq ▸ push_perm ..
  · exact .refl _

variable {revision : UInt64} {table : String}

theorem mem_heap_enter {ctx : ℕ} {table' : String} {it : Item} : it ∈ (q.enter ctx table revision).heap table' ↔
    (table = table' ∧ it = ⟨ctx, table, revision, q.next⟩) ∨ it ∈ q.heap table' := by
  rw [(heap_enter ..).mem_iff]
  split_ifs with heq <;> simp [heq]

theorem Served.enter (hq : Served q) (ctx : ℕ) (table : String) (hrev : revision ≠ 0) :
    Served (q.enter ctx table revision) where
  isHeap table' := by
    rw [heap_enter_eq]
    split_ifs
    · exact (hq.isHeap table).push _
    · exact hq.isHeap table'
  silent table' := by
    refine Silent.perm ?_ (heap_enter ..).symm
    split_ifs
    · refine ⟨nodup_cons.mpr ⟨fun hmem => ?_, (hq.silent table').nodup⟩,
        forall_mem_cons.mpr ⟨hq.unused _ le_rfl, (hq.silent table').unused⟩⟩
      obtain ⟨it, hit, heq⟩ := mem_map.mp hmem
      exact absurd (hq.known table' it hit) (heq ▸ lt_irrefl _)
    · exact hq.silent table'
  positive table' it hit := by
    rcases mem_heap_enter.mp hit with ⟨-, rfl⟩ | hit
    · exact hrev
    · exact hq.positive table' it hit
  apart t t' it it' hit hit' heq := by
    rcases mem_heap_enter.mp hit with ⟨rfl, rfl⟩ | hit <;> rcases mem_heap_enter.mp hit' with ⟨rfl, rfl⟩ | hit'
    · rfl
    · exact absurd (hq.known t' it' hit') (heq ▸ lt_irrefl _)
    · exact absurd (hq.known t it hit) (heq ▸ lt_irrefl _)
    · exact hq.apart t t' it it' hit hit' heq
  known table' it hit := by
    rcases mem_heap_enter.mp hit with ⟨-, rfl⟩ | hit
    · exact lt_add_one _
    · exact (hq.known table' it hit).trans (lt_add_one _)
  unused ch hch := hq.unused ch (Nat.le_of_succ_le hch)
  told ch hch := by
    rcases Nat.lt_succ_iff_lt_or_eq.mp hch with hlt | rfl
    · exact (hq.told ch hlt).imp_left fun ⟨table', it, hit, heq⟩ => ⟨table', it, mem_heap_enter.mpr (.inr hit), heq⟩
    · exact .inl ⟨table, _, mem_heap_enter.mpr (.inl ⟨rfl, rfl⟩), rfl⟩

/-- The waiters of a queue that are no longer there later have been told, and nobody is told
again. -/
structure Settled (q q' : Queue) : Prop where
  told : ∀ table, ∀ it ∈ q.heap table, it ∈ q'.heap table ∨ (q'.chans it.waitCh).signals = [outcome q.done it]
  kept : ∀ ch, (q.chans ch).signals ≠ [] → (q'.chans ch).signals = (q.chans ch).signals

theorem Settled.refl (q : Queue) : Settled q q := ⟨fun _ _ hit => .inl hit, fun _ _ => rfl⟩

theorem Settled.trans {q1 q2 : Queue} (h1 : Settled q q1) (hdone : q1.done = q.done) (h2 : Settled q1 q2) :
    Settled q q2 := by
  refine ⟨fun table it hit => ?_, fun ch hch => ?_⟩
  · rcases h1.told table it hit with hmem | hsignals
    · exact hdone ▸ h2.told table it hmem
    · exact .inr (by rw [h2.kept _ (by simp [hsignals]), hsignals])
  · rw [h2.kept ch (by rwa [h1.kept ch hch]), h1.kept ch hch]

theorem Left.settled {h' : List Item} {cs' : Chans} (hs : Silent (q.heap table) q.chans)
    (hl : Left q.done (q.heap table) h' q.chans cs') : Settled q (q.setHeap table h' cs') := by
  refine ⟨fun table' it hit => ?_, fun ch hch => ?_⟩
  · rw [heap_setHeap]
    split_ifs with heq
    · exact hl.told it (heq ▸ hit)
    · exact .inl hit
  · refine congrArg _ (hl.other ch fun hmem => hch ?_)
    obtain ⟨it, hit, rfl⟩ := mem_map.mp hmem
    rw [hs.unused it hit]

theorem Served.gcTables (hq : Served q) {tables : List String}
    (htop : ∀ table ∈ tables, Topmost q.done (q.heap table)) :
    ∃ r, runAll gcTable tables q = .ok r ∧ Served r.2 ∧ r.2.done = q.done ∧
    (∀ table, r.2.heap table ⊆ q.heap table ∧ (table ∈ tables → ∀ it ∈ r.2.heap table, it.ctx ∉ q.done)) ∧
    Settled q r.2 := by
  induction tables generalizing q with
  | nil => exact ⟨_, rfl, hq, rfl, fun table => ⟨List.Subset.refl _, nofun⟩, .refl q⟩
  | cons table tables ih =>
    rw [forall_mem_cons] at htop
    obtain ⟨h', cs', hstep, hleft, hclean⟩ :=
      gcTable_left (hq.isHeap table) (hq.silent table) (hq.positive table) htop.1
    have htop' : ∀ table' ∈ tables, Topmost (q.setHeap table h' cs').done ((q.setHeap table h' cs').heap table') := by
      intro table' ht
      rw [heap_setHeap]
      split_ifs
      · exact fun i _ _ it hit hdone => absurd hdone (hclean it (mem_of_getElem? hit))
      · exact htop.2 table' ht
    obtain ⟨r, hrun, hserved, hdone, hrest, hsettled⟩ := ih (hq.setHeap hleft) htop'
    refine ⟨(() :: r.1, r.2), by rw [runAll, hstep, ok_bind, hrun]; rfl, hserved, hdone, fun table' => ?_,
      (hleft.settled (hq.silent table)).trans rfl hsettled⟩
    refine ⟨List.Subset.trans (hrest table').1 (hleft.setHeap_subset table'), fun ht it hit => ?_⟩
    rcases mem_cons.mp ht with rfl | ht
    · have hmem := (hrest table').1 hit
      rw [heap_setHeap, if_pos rfl] at hmem
      exact hclean it hmem
    · exact (hrest table').2 ht it hit

theorem signals_received (ch ch' : ℕ) :
    (Function.update q.chans ch { q.chans ch with full := false } ch').signals = (q.chans ch').signals := by
  by_cases heq : ch' = ch
  · subst heq
    rw [Function.update_self]
  · rw [Function.update_of_ne heq]

theorem Served.receive (hq : Served q) (ch : ℕ) :
    Served { q with chans := Function.update q.chans ch { q.chans ch with full := false } } := by
  have hunused : ∀ ch', q.chans ch' = ⟨false, []⟩ →
      Function.update q.chans ch { q.chans ch with full := false } ch' = ⟨false, []⟩ := by
    intro ch' h
    by_cases heq : ch' = ch
    · subst heq
      rw [Function.update_self, h]
    · rw [Function.update_of_ne heq, h]
  exact ⟨hq.isHeap, fun table => ⟨(hq.silent table).nodup, fun it hit => hunused _ ((hq.silent table).unused it hit)⟩,
    hq.positive, hq.apart, hq.known, fun ch' hch => hunused ch' (hq.unused ch' hch),
    fun ch' hch => (hq.told ch' hch).imp_right fun h => (congrArg _ (signals_received ch ch')).trans h⟩

theorem heap_of_notMem_keys (h : table ∉ q.items.keys) : q.heap table = [] := by
  rw [Std.ExtTreeMap.mem_keys] at h
  rw [heap, Std.ExtTreeMap.getElem?_eq_none h]
  rfl

/-- What an orderly event does. -/
structure Handled (e : Event) (q q' : Queue) : Prop where
  served : Served q'
  settled : Settled q q'
  notified : ∀ table revision, e = .notify table revision →
    (∀ it ∈ q'.heap table, revision < it.revision) ∧
      ∀ it ∈ q.heap table, it.ctx ∉ q.done → revision < it.revision → it ∈ q'.heap table
  collected : e = .gc → ∀ table, ∀ it ∈ q'.heap table, it.ctx ∉ q'.done
  entered : ∀ table, ∀ it ∈ q'.heap table, it ∈ q.heap table ∨ ∃ ctx, e = .add ctx table it.revision

theorem Served.step (hq : Served q) {e : Event} (hok : Orderly e q) : ∃ r, step e q = .ok r ∧ Handled e q r.2 := by
  cases e with
  | add ctx table revision =>
    refine ⟨_, rfl, hq.enter ctx table hok, ⟨fun table' it hit => ?_, fun _ _ => rfl⟩, nofun, nofun,
      fun table' it hit => ?_⟩
    · exact .inl (mem_heap_enter.mpr (.inr hit))
    · rcases mem_heap_enter.mp hit with ⟨rfl, rfl⟩ | hit
      · exact .inr ⟨ctx, rfl⟩
      · exact .inl hit
  | notify table revision =>
    obtain ⟨r, hr, hleft, habove, hkept⟩ : ∃ r, release q.done revision _ _ _ = .ok r ∧ _ :=
      release_left rfl (hq.isHeap table) (hq.silent table)
    refine ⟨_, by rw [Queue.step, hr]; rfl, hq.setHeap hleft, hleft.settled (hq.silent table), fun t r' heq => ?_,
      nofun, fun table' it hit => .inl (hleft.setHeap_subset table' hit)⟩
    obtain ⟨rfl, rfl⟩ := Event.notify.inj heq
    rw [heap_setHeap, if_pos rfl]
    exact ⟨habove, hkept⟩
  | len table =>
    have hleft : Left q.done (q.heap table) (q.heap table) q.chans q.chans := .refl (hq.isHeap table) (hq.silent table)
    exact ⟨_, rfl, hq.setHeap hleft, hleft.settled (hq.silent table), nofun, nofun,
      fun table' it hit => .inl (hleft.setHeap_subset table' hit)⟩
  | gc =>
    obtain ⟨r, hr, hserved, hdone, hclean, hsettled⟩ := hq.gcTables hok
    refine ⟨_, by rw [Queue.step, hr]; rfl, hserved, hsettled, nofun, fun _ table it hit => ?_,
      fun table it hit => .inl ((hclean table).1 hit)⟩
    rw [hdone]
    by_cases hmem : table ∈ q.items.keys
    · exact (hclean table).2 hmem it hit
    · have h := (hclean table).1 hit
      rw [heap_of_notMem_keys hmem] at h
      cases h
  | cancel ctx =>
    exact ⟨_, rfl, ⟨hq.isHeap, hq.silent, hq.positive, hq.apart, hq.known, hq.unused, hq.told⟩,
      ⟨fun _ _ hit => .inl hit, fun _ _ => rfl⟩, nofun, nofun, fun _ _ hit => .inl hit⟩
  | receive ch =>
    exact ⟨_, rfl, hq.receive ch, ⟨fun _ _ hit => .inl hit, fun ch' _ => signals_received ch ch'⟩, nofun, nofun,
      fun _ _ hit => .inl hit⟩

theorem run_served {events : List Event} (hok : Along Orderly Queue.step events q) (hq : Served q) :
    ∃ rs, runAll Queue.step events q = .ok rs ∧ Served rs.2 := by
  induction events generalizing q with
  | nil => exact ⟨_, rfl, hq⟩
  | cons e events ih =>
    obtain ⟨r, hr, hhandled⟩ := hq.step hok.1
    obtain ⟨rs, hrs, hserved⟩ := ih (hok.2 r hr) hhandled.served
    exact ⟨(r.1 :: rs.1, rs.2), by rw [runAll, hr, ok_bind, hrs]; rfl, hserved⟩

theorem Served.signals_length (hq : Served q) (ch : ℕ) : (q.chans ch).signals.length ≤ 1 ∧
    (ch < q.next → ((q.chans ch).signals = [] ↔ ∃ table, ∃ it ∈ q.heap table, it.waitCh = ch)) := by
  have hqueued : (∃ table, ∃ it ∈ q.heap table, it.waitCh = ch) → (q.chans ch).signals = [] := by
    rintro ⟨table, it, hit, rfl⟩
    rw [(hq.silent table).unused it hit]
  rcases lt_or_ge ch q.next with hlt | hge
  · rcases hq.told ch hlt with hmem | hone
    · simp [hqueued hmem, hmem]
    · refine ⟨hone.le, fun _ => ⟨fun h => ?_, hqueued⟩⟩
      rw [h] at hone
      cases hone
  · exact ⟨by simp [hq.unused ch hge], fun h => absurd h (not_lt.mpr hge)⟩

end

/-- Every waiter of an orderly run gets one outcome, and the right one. -/
theorem waiters_served (events : List Event) (e : Event) (hok : Along Orderly Queue.step (events ++ [e]) new) :
    ∃ rs r, runAll Queue.step events new = .ok rs ∧ Queue.step e rs.2 = .ok r ∧
      (∀ ch, (r.2.chans ch).signals.length ≤ 1 ∧ (ch < r.2.next →
        ((r.2.chans ch).signals = [] ↔ ∃ table, ∃ it ∈ r.2.heap table, it.waitCh = ch))) ∧
      (∀ table, ∀ it ∈ rs.2.heap table, it ∈ r.2.heap table ∨
        (r.2.chans it.waitCh).signals = [if it.ctx ∈ rs.2.done then .error else .close]) ∧
      (∀ table revision, e = .notify table revision → (∀ it ∈ r.2.heap table, revision < it.revision) ∧
        ∀ it ∈ rs.2.heap table, it.ctx ∉ rs.2.done → revision < it.revision → it ∈ r.2.heap table) ∧
      (e = .gc → ∀ table, ∀ it ∈ r.2.heap table, it.ctx ∉ r.2.done) := by
  obtain ⟨hevents, hlast⟩ := Along.append.mp hok
  obtain ⟨rs, hrs, hserved⟩ := run_served hevents served_new
  obtain ⟨r, hr, hhandled⟩ := hserved.step (hlast rs hrs).1
  exact ⟨rs, r, hrs, hr, hhandled.served.signals_length, hhandled.settled.told, hhandled.notified, hhandled.collected⟩

/-- Two waiters are done when the tick comes, at the top of the heap. -/
def tidyEvents : List Event :=
  [.add 0 "t" 1, .add 1 "t" 2, .add 2 "t" 3, .add 3 "t" 4, .cancel 1, .cancel 3, .gc, .notify "t" 1]

theorem waiters_served_tidyEvents :
    Along Orderly Queue.step (tidyEvents ++ [.gc]) new ∧ ∃ rs r, runAll Queue.step tidyEvents new = .ok rs ∧
      Queue.step .gc rs.2 = .ok r ∧ ∀ table, ∀ it ∈ r.2.heap table, it.ctx ∉ r.2.done := by
  have hok : Along Orderly Queue.step (tidyEvents ++ [.gc]) new := by decide +kernel
  obtain ⟨rs, r, hrs, hr, -, -, -, hclean⟩ := waiters_served tidyEvents .gc hok
  exact ⟨hok, rs, r, hrs, hr, hclean rfl⟩

/-- The waiter that is done stands below the second level of its heap when the tick comes,
and is not taken off it. -/
def untidyEvents : List Event :=
  [.add 0 "t" 10, .add 1 "t" 20, .add 2 "t" 30, .add 3 "t" 40, .cancel 3, .gc, .receive 3, .add 4 "t" 21,
    .add 5 "t" 31, .add 6 "t" 32, .add 7 "t" 5, .notify "t" 6, .gc]

/-- It is told at every tick, until the loop stays with its channel. The waiter that was
added below it is passed over by the notification of its revision. -/
theorem waiters_not_served :
    ∃ rs, runAll Queue.step untidyEvents new = .ok rs ∧ (rs.2.chans 3).signals = [.error, .error] ∧
      (∃ it ∈ rs.2.heap "t", it.ctx = 3 ∧ 3 ∈ rs.2.done) ∧
      (∃ it ∈ rs.2.heap "t", it.revision = 5 ∧ it.ctx ∉ rs.2.done) ∧ Queue.step .gc rs.2 = .error (.blocked 3) := by
  have hrun : (do
      let rs ← runAll Queue.step untidyEvents new
      return ((rs.2.chans 3).signals, decide (∃ it ∈ rs.2.heap "t", it.ctx = 3 ∧ 3 ∈ rs.2.done),
        decide (∃ it ∈ rs.2.heap "t", it.revision = 5 ∧ it.ctx ∉ rs.2.done),
        match Queue.step .gc rs.2 with | .error h => some h | .ok _ => none)) =
      Except.ok ([.error, .error], true, true, some (.blocked 3)) := by
    decide +kernel
  simp only [bind_eq_ok_iff, pure_eq_ok_iff, Prod.mk.injEq, decide_eq_true_eq] at hrun
  obtain ⟨rs, hrs, hsignals, hdone, hlive, hstep⟩ := hrun
  refine ⟨rs, hrs, hsignals, hdone, hlive, ?_⟩
  split at hstep
  · next h => rw [h, Option.some.inj hstep]
  · cases hstep

/-! ### Waiters and earlier notifications -/

/-- A waiter that follows a notification of its table waits for a higher revision. -/
def Above : Event → Event → Prop
  | .notify table revision, .add _ table' revision' => table = table' → revision < revision'
  | _, _ => True

instance : DecidableRel Above
  | .notify table revision, .add _ table' revision' =>
    inferInstanceAs (Decidable (table = table' → revision < revision'))
  | .notify .., .notify .. | .notify .., .len .. | .notify .., .gc | .notify .., .cancel .. | .notify .., .receive ..
  | .add .., _ | .len .., _ | .gc, _ | .cancel .., _ | .receive .., _ => isTrue trivial

/-- In an orderly run in which every waiter is added before the notification of its revision,
no notification is lost. -/
theorem no_lost_wakeup (events : List Event) (hok : Along Orderly Queue.step events new)
    (htime : events.Pairwise Above) : ∃ rs, runAll Queue.step events new = .ok rs ∧
      ∀ table revision, .notify table revision ∈ events → ∀ it ∈ rs.2.heap table, revision < it.revision := by
  induction events using List.reverseRecOn with
  | nil => exact ⟨_, rfl, nofun⟩
  | append_singleton events e ih =>
    obtain ⟨hevents, hlast⟩ := Along.append.mp hok
    obtain ⟨htime, -, habove⟩ := pairwise_append.mp htime
    obtain ⟨rs, hrs, hbehind⟩ := ih hevents htime
    obtain ⟨rs', hrs', hserved⟩ := run_served hevents served_new
    obtain rfl : rs = rs' := Except.ok.inj (hrs.symm.trans hrs')
    obtain ⟨r, hr, hhandled⟩ := hserved.step (hlast rs hrs).1
    refine ⟨(rs.1 ++ [r.1], r.2), ?_, fun table revision hmem it hit => ?_⟩
    · rw [runAll_append, hrs, ok_bind, runAll, hr]
      rfl
    · rcases mem_append.mp hmem with hold | hnew
      · rcases hhandled.entered table it hit with hit | ⟨ctx, rfl⟩
        · exact hbehind table revision hold it hit
        · exact (habove _ hold _ (mem_singleton_self _) : table = table → revision < it.revision) rfl
      · exact (hhandled.notified table revision (mem_singleton.mp hnew).symm).1 it hit

theorem no_lost_wakeup_tidyEvents : Along Orderly Queue.step tidyEvents new ∧ tidyEvents.Pairwise Above ∧
      ∃ rs, runAll Queue.step tidyEvents new = .ok rs ∧ ∀ it ∈ rs.2.heap "t", 1 < it.revision := by
  have hok : Along Orderly Queue.step tidyEvents new := by decide +kernel
  have htime : tidyEvents.Pairwise Above := by decide +kernel
  obtain ⟨rs, hrs, hlost⟩ := no_lost_wakeup tidyEvents hok htime
  exact ⟨hok, htime, rs, hrs, hlost "t" 1 (by decide)⟩

/-- The notification of the waiter's revision comes before the waiter. -/
theorem wakeup_lost : ∃ rs, runAll Queue.step [.notify "t" 5, .add 0 "t" 5] new = .ok rs ∧
      ∃ it ∈ rs.2.heap "t", it.ctx ∉ rs.2.done ∧ it.revision = 5 := by
  have hrun : (do
      let rs ← runAll Queue.step [.notify "t" 5, .add 0 "t" 5] new
      return decide (∃ it ∈ rs.2.heap "t", it.ctx ∉ rs.2.done ∧ it.revision = 5)) = Except.ok true := by
    decide +kernel
  simpa only [bind_eq_ok_iff, pure_eq_ok_iff, decide_eq_true_eq] using hrun

end Queue

end Armada.Storage
