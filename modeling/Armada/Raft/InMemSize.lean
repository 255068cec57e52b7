import Armada.Raft.Tracked

/-! The size of the log in memory. A rate limiter counts the bytes of the entries as they come
and go, and a follower that is over its limit tells its leader how many of them are committed. -/

namespace Armada.Raft

open Program List

/-- An entry without its command takes 80 bytes in memory. -/
def getEntrySliceInMemSize (ents : List Entry) : UInt64 :=
  ents.foldl (fun sz e => sz + UInt64.ofNat e.cmd.length + 80) 0

/-- What a follower reported, and when. -/
structure FollowerState where
  tick : UInt64
  inMemLogSize : UInt64

/-- The rate limiter of a replica: the count and its limit, the reports of followers, and whether
the replica was last found limited. -/
structure InMemRateLimiter where
  followerSizes : List (ℕ × FollowerState)
  size : UInt64
  maxSize : UInt64
  tick : UInt64
  tickLimited : UInt64
  limited : Bool

namespace InMemRateLimiter

variable (r : InMemRateLimiter)

def new (maxSize : UInt64) : InMemRateLimiter := ⟨[], 0, maxSize, 1, 0, false⟩

def enabled : Bool := 0 < r.maxSize ∧ r.maxSize ≠ 0xFFFFFFFFFFFFFFFF

def setFollowerState (replicaID : ℕ) (sz : UInt64) : InMemRateLimiter :=
  { r with followerSizes := (replicaID, ⟨r.tick, sz⟩) :: r.followerSizes.filter (·.1 ≠ replicaID) }

def gc : InMemRateLimiter :=
  { r with followerSizes := r.followerSizes.filter fun v => r.tick - v.2.tick ≤ 3 }

/-- Over the limit, or, once limited, not yet under 70 % of it. -/
def limitedByInMemSize : Bool × InMemRateLimiter :=
  if r.enabled then
    let maxInMemSize := r.gc.followerSizes.foldl (fun sz v => max sz v.2.inMemLogSize) r.size
    (if r.limited then r.maxSize * 7 / 10 ≤ maxInMemSize else r.maxSize < maxInMemSize, r.gc)
  else (false, r)

/-- The state changes when more than ten ticks have passed since it last did. -/
def rateLimited : Bool × InMemRateLimiter :=
  let found := r.limitedByInMemSize
  let r' := if found.1 ≠ r.limited ∧ (r.tickLimited = 0 ∨ 10 < r.tick - r.tickLimited) then
    { found.2 with limited := found.1, tickLimited := r.tick } else found.2
  (r'.limited, r')

end InMemRateLimiter

/-- The log in memory with its rate limiter. -/
structure Metered where
  im : InMemory
  rl : InMemRateLimiter

namespace Metered

variable (s : Metered)

def new (lastIndex : ℕ) (maxSize : UInt64) : Metered := ⟨newInMemory lastIndex, .new maxSize⟩

/-- The log is replaced; the count, if there is one, too. -/
def replace (im : InMemory) (size : UInt64) : Metered :=
  ⟨im, if s.rl.enabled then { s.rl with size } else s.rl⟩

def decrease (size sz : UInt64) : UInt64 := size + ~~~(sz - 1)

def merge : List Entry → Except Fault Metered
  | [] => .ok s
  | e :: es => do
    let im ← s.im.merge (e :: es)
    .ok (s.replace im
      (if e.index = s.im.markerIndex + s.im.entries.length then s.rl.size + getEntrySliceInMemSize (e :: es)
      else if e.index ≤ s.im.markerIndex then getEntrySliceInMemSize (e :: es)
      else getEntrySliceInMemSize (e :: es) + getEntrySliceInMemSize (s.im.entries.take (e.index - s.im.markerIndex))))

def appliedLogTo (index : ℕ) : Except Fault Metered := do
  let im ← s.im.appliedLogTo index
  .ok (s.replace im
    (if index < s.im.markerIndex ∨ s.im.entries.getLast?.all (·.index < index) then s.rl.size
    else decrease s.rl.size (getEntrySliceInMemSize (s.im.entries.take (index + 1 - s.im.markerIndex)))))

def restore (ss : Snapshot) : Metered := s.replace (s.im.restore ss) 0

end Metered

inductive MeterEvent where
  | merge (ents : List Entry)
  | appliedLogTo (index : ℕ)
  | restore (ss : Snapshot)
  | commitUpdate (cu : UpdateCommit)
  | tick
  | reset
  | setFollowerState (replicaID : ℕ) (sz : UInt64)
  | rateLimited

namespace Metered

def step (s : Metered) : MeterEvent → Except Fault Metered
  | .merge ents => s.merge ents
  | .appliedLogTo index => s.appliedLogTo index
  | .restore ss => .ok (s.restore ss)
  | .commitUpdate cu => .ok { s with im := s.im.commitUpdate cu }
  | .tick => .ok { s with rl := { s.rl with tick := s.rl.tick + 1 } }
  | .reset => .ok { s with rl := { s.rl with followerSizes := [] } }
  | .setFollowerState replicaID sz => .ok { s with rl := s.rl.setFollowerState replicaID sz }
  | .rateLimited => .ok { s with rl := s.rl.rateLimited.2 }

end Metered

/-- The size of entries in memory as a number. -/
def inMemSize (ents : List Entry) : ℕ := (ents.map fun e => e.cmd.length + 80).sum

theorem inMemSize_cons (e : Entry) (ents : List Entry) :
    inMemSize (e :: ents) = e.cmd.length + 80 + inMemSize ents := rfl

theorem inMemSize_append (ents ents' : List Entry) : inMemSize (ents ++ ents') = inMemSize ents + inMemSize ents' := by
  simp only [inMemSize, map_append, sum_append]

theorem foldl_inMemSize (ents : List Entry) (sz : ℕ) :
    ents.foldl (fun sz e => sz + UInt64.ofNat e.cmd.length + 80) (UInt64.ofNat sz) =
    UInt64.ofNat (sz + inMemSize ents) := by
  induction ents generalizing sz with
  | nil => rfl
  | cons e ents ih =>
    have hnext : UInt64.ofNat sz + UInt64.ofNat e.cmd.length + 80 = UInt64.ofNat (sz + (e.cmd.length + 80)) := by
      simp [add_assoc]
    rw [foldl_cons, hnext, ih, inMemSize_cons, Nat.add_assoc]

theorem getEntrySliceInMemSize_eq (ents : List Entry) :
    getEntrySliceInMemSize ents = UInt64.ofNat (inMemSize ents) := by
  rw [← Nat.zero_add (inMemSize ents)]
  exact foldl_inMemSize ents 0

namespace Metered

theorem decrease_eq (size sz : UInt64) : decrease size sz = size - sz := by
  rw [decrease, UInt64.sub_eq_add_neg]
  apply UInt64.toBitVec_inj.mp
  simp only [UInt64.toBitVec_add, UInt64.toBitVec_not, UInt64.toBitVec_sub, UInt64.toBitVec_neg, UInt64.toBitVec_one]
  bv_omega

/-- The count is that of the entries, as far as it can be written. -/
def Exact (s : Metered) : Prop := s.rl.enabled = true → s.rl.size = UInt64.ofNat (inMemSize s.im.entries)

variable {s : Metered}

theorem exact_replace {im : InMemory} {size : UInt64}
    (h : s.rl.enabled = true → size = UInt64.ofNat (inMemSize im.entries)) : (s.replace im size).Exact := by
  intro hon
  unfold replace at hon ⊢
  split at hon
  · next henabled =>
    rw [if_pos henabled]
    exact h henabled
  · next hoff => exact absurd hon hoff

theorem Exact.merge (h : s.Exact) (ents : List Entry) : Yields (s.merge ents) Exact := by
  cases ents with
  | nil => exact .ok h
  | cons e es =>
    rw [Metered.merge, InMemory.merge]
    split_ifs with happend hreplace
    · refine (Yields.skip fun _ => Cursor.checkMarkerIndex _).bind fun im him => .ok (exact_replace fun hon => ?_)
      rw [him, h hon, getEntrySliceInMemSize_eq, inMemSize_append, UInt64.ofNat_add]
    · refine (Cursor.checkMarkerIndex _).bind fun im him => .ok (exact_replace fun _ => ?_)
      rw [him, getEntrySliceInMemSize_eq]
    · refine Yields.bind (P := fun im => im.entries = s.im.entries.take (e.index - s.im.markerIndex) ++ e :: es)
        ((Cursor.getEntries_marker s.im e.index).bind fun existing hexisting => .skip fun _ =>
          (Cursor.checkMarkerIndex _).mono fun im him => ?_) fun im him => .ok (exact_replace fun _ => ?_)
      · rw [him, hexisting.1]
      · rw [him, getEntrySliceInMemSize_eq, getEntrySliceInMemSize_eq, inMemSize_append, UInt64.ofNat_add, add_comm]

theorem Exact.appliedLogTo (h : s.Exact) (index : ℕ) : Yields (s.appliedLogTo index) Exact := by
  unfold Metered.appliedLogTo InMemory.appliedLogTo
  by_cases hmarker : index < s.im.markerIndex
  · rw [if_pos hmarker, if_pos (.inl hmarker)]
    exact .ok (exact_replace h)
  · rw [if_neg hmarker]
    cases hlast : s.im.entries.getLast? with
    | none =>
      rw [if_pos (.inr rfl)]
      exact .ok (exact_replace h)
    | some last =>
      dsimp only
      by_cases hbelow : last.index < index
      · rw [if_pos hbelow, if_pos (.inr (by simpa using hbelow))]
        exact .ok (exact_replace h)
      · rw [if_neg hbelow, if_neg (by simp [hmarker, hbelow])]
        split
        · exact .error _
        · split_ifs
          · exact .error _
          · refine (Cursor.checkMarkerIndex _).bind fun im him => .ok (exact_replace fun hon => ?_)
            have hsplit := inMemSize_append (s.im.entries.take (index + 1 - s.im.markerIndex))
              (s.im.entries.drop (index + 1 - s.im.markerIndex))
            rw [take_append_drop] at hsplit
            rw [him, h hon, decrease_eq, getEntrySliceInMemSize_eq, hsplit, UInt64.ofNat_add, add_sub_cancel_left]

theorem commitUpdate_entries (im : InMemory) (cu : UpdateCommit) : (im.commitUpdate cu).entries = im.entries := by
  have hlog (index term : ℕ) : (im.savedLogTo index term).entries = im.entries := by
    unfold InMemory.savedLogTo
    split_ifs
    · rfl
    · split
      · rfl
      · split_ifs <;> rfl
  have hsnapshot (im : InMemory) (index : ℕ) : (im.savedSnapshotTo index).entries = im.entries := by
    unfold InMemory.savedSnapshotTo
    split_ifs <;> rfl
  unfold InMemory.commitUpdate
  dsimp only
  split_ifs <;> simp only [hlog, hsnapshot]

/-- Asking the limiter changes neither the count nor the limit. -/
theorem rateLimited_keeps (r : InMemRateLimiter) :
    r.rateLimited.2.size = r.size ∧ r.rateLimited.2.maxSize = r.maxSize := by
  unfold InMemRateLimiter.rateLimited InMemRateLimiter.limitedByInMemSize
  dsimp only
  split_ifs <;> exact ⟨rfl, rfl⟩

theorem Exact.step (h : s.Exact) (event : MeterEvent) : Yields (s.step event) Exact := by
  cases event with
  | merge ents => exact h.merge ents
  | appliedLogTo index => exact h.appliedLogTo index
  | restore ss => exact .ok (exact_replace fun _ => rfl)
  | commitUpdate cu => exact .ok fun hon => (h hon).trans (by rw [commitUpdate_entries])
  | tick => exact .ok h
  | reset => exact .ok h
  | setFollowerState replicaID sz => exact .ok h
  | rateLimited =>
    obtain ⟨hsize, hmax⟩ := rateLimited_keeps s.rl
    refine .ok fun hon => ?_
    rw [InMemRateLimiter.enabled, hmax] at hon
    exact hsize.trans (h hon)

theorem Exact.run (h : s.Exact) (events : List MeterEvent) : Yields (events.foldlM Metered.step s) Exact := by
  induction events generalizing s with
  | nil => exact .ok h
  | cons event events ih =>
    rw [foldlM_cons]
    exact (h.step event).bind fun s' h' => ih h'

end Metered

end Armada.Raft
