import Armada.Fsm.EventSteps
import Armada.Storage.Loads

/-! Incremental snapshots are complete. Between a leader index `f` and the tip of a snapshot, a
key keeps what it showed at `f` or has a version above `f`, as long as no sweep went above `f`.
So the versions above the base bring every replica that stood at the base or later to the tip.
-/

namespace Armada.Storage

open Ordered Keys Pebble Proto Program Fsm List

/-! ### The table right after an index -/

/-- Whether an elementary command runs no later than the one at `f`; a GC command has no
number of its own. -/
def upTo (f : UInt64) (a : UInt64 × Command) : Bool := a.2.type = .gc || a.1 ≤ f

/-- The database of a run right after index `f`: the events that do not go past `f`, and
of the first update that does the commands up to `f`. -/
def rightAfter (f : UInt64) : List Event → FSM → Except FsmError DB
  | [], p => .ok p.db
  | e :: events, p =>
    if e.leaves.all (upTo f) then do
      let r ← e.step p
      rightAfter f events r.2
    else do
      let r ← runAll physical.handleLeaf (e.leaves.takeWhile (upTo f)) p.db
      return r.2

variable {as : List (UInt64 × Command)} {r : List (List EntryResult) × FSM} {p : FSM} {events : List Event}

variable {f : UInt64}

theorem past_of_increasing {bs : List (UInt64 × Command)} {a : UInt64 × Command}
    (h : Increasing (as ++ a :: bs)) (ha : upTo f a = false) : ∀ b ∈ a :: bs, b.2.type ≠ .gc → f < b.1 := by
  simp only [upTo, Bool.or_eq_false_iff, decide_eq_false_iff_not, not_le] at ha
  obtain ⟨-, hsuffix, -⟩ := Increasing.append.mp h
  obtain ⟨-, -, hafter⟩ := Increasing.append.mp (show Increasing ([a] ++ bs) from hsuffix)
  intro b hb hgc
  rcases mem_cons.mp hb with rfl | hb
  · exact ha.2
  · exact ha.2.trans_le (hafter a (mem_singleton_self a) ha.1 b hb hgc)

/-- The key shows what it showed, or it has a version above `f`. -/
def Since (f : UInt64) (n : Bytes → Option (UInt64 × Bytes)) (k : Bytes) (o : Option (UInt64 × Bytes)) : Prop :=
  live o = live (n k) ∨ ∃ s x, o = some (s, x) ∧ f < s

section
variable {f : UInt64} {n : Bytes → Option (UInt64 × Bytes)} {k : Bytes} {o : Option (UInt64 × Bytes)}

theorem Since.foldl_keyStep (h : Since f n k o) {s : UInt64} (hs : f < s) (ops : List KeyOp) :
    Since f n k (ops.foldl (keyStep s) o) := by
  rcases foldl_keyStep_eq_or s o ops with heq | ⟨x, heq⟩
  · rw [heq]
    exact h
  · exact Or.inr ⟨s, x, heq, hs⟩

theorem Since.swept {t H : UInt64} (ht : t < H) (hH : H ≤ f) (h : Since f n k (some (t, tombstoneValue))) :
    Since f n k none := by
  rcases h with hlive | ⟨s, x, heq, hs⟩
  · exact Or.inl hlive
  · obtain ⟨rfl, -⟩ := Prod.mk.inj (Option.some.inj heq)
    exact absurd (ht.trans_le hH) (not_lt.mpr hs.le)

end

variable {m : DB}

/-- Of commands that go past `f`, those up to `f` come first, and the others leave the
table behind what these made of it. -/
theorem takeWhile_since {later : List (UInt64 × Command)} (hm : Kept (fun _ _ => True) m)
    (hlogged : ∀ a ∈ as, IsLogged a) (htype : ∀ a ∈ as, a.2.type ≠ .sequence) (hincreasing : Increasing (as ++ later))
    (hpast : as.all (upTo f) = false) {rs : List (UpdateResult × CommandResult) × DB}
    (hrs : runAll physical.handleLeaf as m = .ok rs) :
    ∃ rs1, runAll physical.handleLeaf (as.takeWhile (upTo f)) m = .ok rs1 ∧
    Kept (Since f (latest rs1.2)) rs.2 ∧ ∀ b ∈ later, b.2.type ≠ .gc → f < b.1 := by
  obtain ⟨a, rest, hrest⟩ : ∃ a rest, as.dropWhile (upTo f) = a :: rest := by
    cases hdrop : as.dropWhile (upTo f) with
    | nil =>
      rw [dropWhile_eq_nil_iff, ← all_eq_true, hpast] at hdrop
      cases hdrop
    | cons a rest => exact ⟨a, rest, rfl⟩
  have ha : upTo f a = false := by
    have hhead := List.head?_dropWhile_not (upTo f) as
    rw [hrest] at hhead
    simpa using hhead
  rw [← as.takeWhile_append_dropWhile (p := upTo f), hrest] at hrs hincreasing hlogged htype
  rw [forall_mem_append] at hlogged htype
  rw [runAll_append] at hrs
  simp only [bind_eq_ok_iff, pure_eq_ok_iff] at hrs
  obtain ⟨rs1, hrs1, rs2, hrs2, rfl⟩ := hrs
  rw [append_assoc] at hincreasing
  have hafter : ∀ b ∈ a :: rest ++ later, b.2.type ≠ .gc → f < b.1 := past_of_increasing hincreasing ha
  rw [forall_mem_append] at hafter
  have hmid : Kept (Since f (latest rs1.2)) rs1.2 :=
    (hm.runAll hlogged.1 htype.1 (fun _ _ _ _ _ _ _ => trivial) hrs1).mono fun _ _ => Or.inl rfl
  have hend := hmid.runAll hlogged.2 htype.2
    (fun b hb hgc k o ops h => h.foldl_keyStep (hafter.1 b hb hgc) ops) hrs2
  exact ⟨rs1, hrs1, hend, hafter.2⟩

/-- A run that goes past `f`, sweeping no higher, is behind its state right after `f`. -/
theorem rightAfter_since (hp : Kept (fun _ _ => True) p.db)
    (hlogged : ∀ a ∈ events.flatMap Event.leaves, IsLogged a) (hincreasing : Increasing (events.flatMap Event.leaves))
    (hsweep : ∀ hides H, .sweep hides H ∈ events → H ≤ f) (hr : runAll Event.step events p = .ok r) :
    ∃ m, rightAfter f events p = .ok m ∧ Kept (Since f (latest m)) r.2.db := by
  induction events generalizing p r with
  | nil =>
    cases hr
    exact ⟨p.db, rfl, hp.mono fun k _ => Or.inl rfl⟩
  | cons e events ih =>
    rw [flatMap_cons] at hlogged hincreasing
    rw [forall_mem_append] at hlogged
    obtain ⟨r1, hr1, tail, htail, rfl⟩ := runAll_cons_iff.mp hr
    have hrest : ∀ hides H, .sweep hides H ∈ events → H ≤ f :=
      fun hides H h => hsweep hides H (mem_cons_of_mem _ h)
    by_cases hwithin : e.leaves.all (upTo f) = true
    · have hp1 := e.step_kept hp hlogged.1 (fun _ _ _ _ _ _ _ => trivial) (fun _ _ _ _ _ _ _ => trivial) hr1
      obtain ⟨m, hm, hsince⟩ := ih hp1 hlogged.2 (Increasing.append.mp hincreasing).2.1 hrest htail
      exact ⟨m, by rw [rightAfter, if_pos hwithin, hr1, ok_bind, hm], hsince⟩
    · -- the update that goes past `f`; after it everything does
      cases e with
      | sweep hides H => exact absurd rfl hwithin
      | update batch =>
        obtain ⟨rs, hrs, hsame⟩ := Event.update_leaves hr1
        obtain ⟨rs1, hrs1, hsince, hlater⟩ := takeWhile_since hp hlogged.1
          (fun a ha => Event.type_of_mem_leaves ha) hincreasing (Bool.not_eq_true _ ▸ hwithin) hrs
        refine ⟨rs1.2, by rw [rightAfter, if_neg hwithin, hrs1]; rfl, ?_⟩
        have hend := runEvents_kept (hsince.of_sameTable hsame) hlogged.2
          (fun b hb hgc k o ops h => h.foldl_keyStep (hlater b hb hgc) ops)
          (fun hides H h k t ht htomb => htomb.swept ht (hrest hides H h)) htail
        exact hend

theorem rightAfter_kept {P : Bytes → Option (UInt64 × Bytes) → Prop}
    (hstep : ∀ s ≤ f, ∀ k o (ops : List KeyOp), P k o → P k (ops.foldl (keyStep s) o))
    (hsweep : ∀ k t, P k (some (t, tombstoneValue)) → P k none)
    (hp : Kept P p.db) (hlogged : ∀ a ∈ events.flatMap Event.leaves, IsLogged a)
    (hm : rightAfter f events p = .ok m) : Kept P m := by
  have hupTo : ∀ a, upTo f a = true → a.2.type ≠ .gc → ∀ k o (ops : List KeyOp),
      P k o → P k (ops.foldl (keyStep a.1) o) := by
    intro a ha hgc
    exact hstep a.1 (by simpa [upTo, hgc] using ha)
  induction events generalizing p with
  | nil =>
    cases hm
    exact hp
  | cons e events ih =>
    rw [flatMap_cons, forall_mem_append] at hlogged
    rw [rightAfter] at hm
    split at hm
    · next hwithin =>
      rw [all_eq_true] at hwithin
      simp only [bind_eq_ok_iff] at hm
      obtain ⟨r, hr, hm⟩ := hm
      exact ih (e.step_kept hp hlogged.1 (fun a ha => hupTo a (hwithin a ha)) (fun _ _ _ k t _ => hsweep k t) hr)
        hlogged.2 hm
    · obtain ⟨rs, hrs, rfl⟩ := map_eq_ok_iff.mp hm
      have hmem : ∀ a ∈ e.leaves.takeWhile (upTo f), a ∈ e.leaves :=
        fun a ha => (takeWhile_sublist (upTo f)).subset ha
      exact hp.runAll (fun a ha => hlogged.1 a (hmem a ha)) (fun a ha => Event.type_of_mem_leaves (hmem a ha))
        (fun a ha => hupTo a (mem_takeWhile_imp ha)) hrs

theorem rightAfter_atMost (hlogged : ∀ a ∈ events.flatMap Event.leaves, IsLogged a)
    (hm : rightAfter f events FSM.fresh = .ok m) : Kept (fun _ o => AtMost f o) m :=
  rightAfter_kept (P := fun _ o => AtMost f o) (fun _ hs _ _ ops h => atMost_foldl_keyStep hs h ops)
    (fun _ _ _ => atMost_none f)
    (.empty fun _ => atMost_none f) hlogged hm

/-! ### The horizon of a run -/

/-- The event does not lower the persisted horizon, and does not sweep above it. -/
def Collects (e : Event) (p : FSM) : Prop :=
  (∀ r, e.step p = .ok r → persistedHorizon p.db ≤ persistedHorizon r.2.db) ∧
    ∀ hides H, e = .sweep hides H → H ≤ persistedHorizon p.db

instance (e : Event) (p : FSM) : Decidable (Collects e p) :=
  have : Decidable (∀ r, e.step p = .ok r → persistedHorizon p.db ≤ persistedHorizon r.2.db) :=
    match h : e.step p with
    | .error _ => isTrue fun r hr => nomatch hr
    | .ok r => decidable_of_iff (persistedHorizon p.db ≤ persistedHorizon r.2.db) (by simp)
  have : Decidable (∀ hides H, e = .sweep hides H → H ≤ persistedHorizon p.db) :=
    match e with
    | .update _ => isTrue fun _ _ h => nomatch h
    | .sweep hides H => decidable_of_iff (H ≤ persistedHorizon p.db) (by simp)
  inferInstanceAs (Decidable (_ ∧ _))

theorem sweep_le_horizon (hcollects : Along Collects Event.step events p) (hr : runAll Event.step events p = .ok r) :
    persistedHorizon p.db ≤ persistedHorizon r.2.db ∧ ∀ hides H, .sweep hides H ∈ events → H ≤
    persistedHorizon r.2.db := by
  induction events generalizing p r with
  | nil =>
    cases hr
    exact ⟨le_rfl, by simp⟩
  | cons e events ih =>
    obtain ⟨r1, hr1, tail, htail, rfl⟩ := runAll_cons_iff.mp hr
    obtain ⟨⟨hfalls, hsweep⟩, hrest⟩ := hcollects
    obtain ⟨hle, hswept⟩ := ih (hrest r1 hr1) htail
    have hhere := (hfalls r1 hr1).trans hle
    refine ⟨hhere, fun hides H h => ?_⟩
    rcases mem_cons.mp h with heq | h
    · exact (hsweep hides H heq.symm).trans hhere
    · exact hswept hides H h

theorem horizon_le_effectiveBase {requestedBase horizon : UInt64} (h : horizon ≠ maxUint64) :
    horizon ≤ effectiveBase requestedBase horizon := by
  unfold effectiveBase
  split
  · have hmax : maxUint64.toNat = 18446744073709551615 := rfl
    have hne : horizon.toNat ≠ 18446744073709551615 :=
      fun heq => h (UInt64.toNat_inj.mp (heq.trans hmax.symm))
    have hlt := horizon.toNat_lt
    rw [UInt64.le_iff_toNat_le, UInt64.toNat_add, UInt64.toNat_one]
    omega
  · next hbase =>
    rcases eq_or_ne horizon 0 with rfl | hne
    · exact UInt64.zero_le
    · have hpos : 0 < horizon := UInt64.pos_iff_ne_zero.mpr hne
      exact (not_le.mp fun hle => hbase ⟨hpos, hle⟩).le

/-! ### Completeness -/

theorem live_change {s : UInt64} {x : Bytes} {o : Option (UInt64 × Bytes)}
    (hstands : live o = live (some (s, x)) ∨ AtMost f o ∧ f < s) :
    live (keyStep s o (changeOp x)) = live (some (s, x)) := by
  have hatMost : AtMost s o ∨ live o = live (some (s, x)) := by
    rcases hstands with hlive | ⟨ho, hs⟩
    · exact Or.inr hlive
    · exact Or.inl fun v hv => (ho v hv).trans hs.le
  unfold changeOp
  split
  · next htomb =>
    have hnone : live (some (s, x)) = none := by simp [live, htomb]
    rw [hnone] at hatMost ⊢
    exact live_delete_iff.mpr hatMost
  · next hvalue =>
    have hsome : live (some (s, x)) = some x := by simp [live, hvalue]
    rw [hsome] at hatMost ⊢
    exact (live_put_iff (by simpa [isTombstone] using hvalue)).mpr hatMost

variable {src : DB}

/-- The versions above the base, loaded over a replica that shows what the leader showed
at `f`, make it show what the leader shows. -/
theorem live_loaded {base : UInt64} (hbase : base ≤ f) {db db' : DB}
    (hsrc : Kept (Since f (latest m)) src) (hdb : WellFormed db)
    (hview : ∀ k, live (latest db k) = live (latest m k)) (hatMost : ∀ k, AtMost f (latest db k))
    (h : Loaded (fun v => decide (v.seqno > base)) src db db') (k : Bytes) :
    live (latest db' k) = live (latest src k) := by
  have hsince := hsrc.latest k
  by_cases hkept : ∃ s x, latest src k = some (s, x) ∧ base < s
  · obtain ⟨s, x, hk, hs⟩ := hkept
    rw [h.latest_kept hdb hk (by simpa using hs), hk]
    apply live_change (f := f)
    rw [hk] at hsince
    rcases hsince with hlive | ⟨s', x', heq, hs'⟩
    · exact Or.inl ((hview k).trans hlive.symm)
    · obtain ⟨rfl, -⟩ := Prod.mk.inj (Option.some.inj heq)
      exact Or.inr ⟨hatMost k, hs'⟩
  · rw [h.latest_other hdb fun s x hk => by simpa using fun hs => hkept ⟨s, x, hk, hs⟩, hview]
    rcases hsince with hlive | ⟨s, x, hk, hs⟩
    · exact hlive.symm
    · exact absurd ⟨s, x, hk, hbase.trans_lt hs⟩ hkept

theorem snapshot_applied {tableName : Bytes} {keep : Version → Bool} (hsrc : WellFormed src)
    {batches : List (List Command)} (hbatches : batches.flatten = snapshotCommands tableName keep src)
    {markers : List Command} (hmarkers : ∀ c ∈ markers, c.type = .dummy) {load : List (List Entry)}
    (hload : load.flatten.map Entry.cmd = (batches.map (snapshotBatch tableName) ++ markers).map some)
    (hp : WellFormed p.db) : ∃ r, runAll updateStep load p = .ok r ∧
    Applied ((snapshotCommands tableName keep src).map ownLeaf) p.db r.2.db := by
  rw [← hbatches]
  refine load_applied (fun cmd hc => ⟨isChange_of_mem_snapshotCommands hsrc (hbatches ▸ hc), ?_⟩) hmarkers hload hp
  obtain ⟨v, rfl, -⟩ := mem_snapshotCommands hsrc (hbatches ▸ hc)
  rw [changeCommand_leaderIndex]
  exact Option.some_ne_none _

/-- An incremental snapshot brings every replica that stands at an index from its base on
to its tip, in sequences of any sizes, as long as the horizon is not the last number. -/
theorem incremental_complete (events : List Event) (hlogged : ∀ a ∈ events.flatMap Event.leaves, IsLogged a)
    (hincreasing : Increasing (events.flatMap Event.leaves))
    (hcollects : Along Collects Event.step events FSM.fresh) (r : List (List EntryResult) × FSM)
    (hrun : runAll Event.step events FSM.fresh = .ok r) (hhorizon : persistedHorizon r.2.db ≠ maxUint64)
    (tableName : Bytes) (requestedBase : UInt64) :
    ∃ cmds response, commandIncrementalSnapshot r.2.db tableName requestedBase = .ok (cmds, response) ∧
      response.tipIndex = readLocalIndex r.2.db sysLocalIndex ∧
      ∀ f, response.baseIndex ≤ f → ∃ m, rightAfter f events FSM.fresh = .ok m ∧
        ∀ p : FSM, WellFormed p.db → (∀ k, live (latest p.db k) = live (latest m k)) →
          (∀ k, AtMost f (latest p.db k)) →
          ∀ (batches : List (List Command)) (markers : List Command) (load : List (List Entry)),
            batches.flatten = cmds → (∀ c ∈ markers, c.type = .dummy) →
            load.flatten.map Entry.cmd = (batches.map (snapshotBatch tableName) ++ markers).map some →
            ∃ r', runAll updateStep load p = .ok r' ∧ ∀ k, live (latest r'.2.db k) = live (latest r.2.db k) := by
  have hfresh : Kept (fun _ _ => True) FSM.fresh.db := .empty fun _ => trivial
  have hsrc := (runEvents_kept hfresh hlogged (fun _ _ _ _ _ _ _ => trivial)
    (fun _ _ _ _ _ _ _ => trivial) hrun).wellFormed
  refine ⟨_, _, commandIncrementalSnapshot_eq hsrc.nullFree tableName requestedBase, rfl, fun f hf => ?_⟩
  have hswept : ∀ hides H, .sweep hides H ∈ events → H ≤ f := fun hides H h =>
    ((sweep_le_horizon hcollects hrun).2 hides H h).trans ((horizon_le_effectiveBase hhorizon).trans hf)
  obtain ⟨m, hm, hsince⟩ := rightAfter_since hfresh hlogged hincreasing hswept hrun
  refine ⟨m, hm, fun p hp hview hat batches markers load hbatches hmarkers hload => ?_⟩
  obtain ⟨r', hr', happlied⟩ := snapshot_applied hsrc hbatches hmarkers hload hp
  exact ⟨r', hr', live_loaded hf hsince hp hview hat (happlied.loaded hsrc)⟩

/-- Two puts, a GC command at the second of them, a delete and, after a sweep, a third
put. The index 3 is inside the first update. -/
def sampleHistory : List Event :=
  [.update [⟨1, some { Command.ofType .put with kv := some ⟨[0x61], [0x31]⟩ }⟩,
      ⟨2, some { Command.ofType .put with kv := some ⟨[0x62], [0x31]⟩ }⟩, ⟨3, some (gcCommand 2)⟩,
      ⟨4, some { Command.ofType .delete with kv := some ⟨[0x61], []⟩ }⟩],
    .sweep (fun _ => false) 2,
    .update [⟨5, some { Command.ofType .put with kv := some ⟨[0x63], [0x31]⟩ }⟩]]

theorem incremental_complete_sampleHistory :
    ∃ r cmds response m r', runAll Event.step sampleHistory FSM.fresh = .ok r ∧
      commandIncrementalSnapshot r.2.db [0x74] 0 = .ok (cmds, response) ∧ response.baseIndex = 3 ∧
      rightAfter 3 sampleHistory FSM.fresh = .ok m ∧
      runAll updateStep [cmds.map fun cmd => ⟨9, some (snapshotBatch [0x74] [cmd])⟩] ⟨m, 0, 3⟩ = .ok r' ∧
      ∀ k, live (latest r'.2.db k) = live (latest r.2.db k) := by
  have hlogged : ∀ a ∈ sampleHistory.flatMap Event.leaves, IsLogged a := by decide
  have hvalues : (do
      let r ← runAll Event.step sampleHistory FSM.fresh
      let s ← commandIncrementalSnapshot r.2.db [0x74] 0
      return (persistedHorizon r.2.db, s.2.baseIndex, s.1.length)) = Except.ok (2, 3, 2) := by decide +kernel
  simp only [bind_eq_ok_iff, pure_eq_ok_iff, Prod.mk.injEq] at hvalues
  obtain ⟨r, hr, ⟨cmds, response⟩, hsnap, hhorizon, hbase, hlength⟩ := hvalues
  obtain ⟨cmds', response', hsnap', -, hall⟩ := incremental_complete sampleHistory hlogged (by decide)
    (by decide +kernel) r hr (by rw [hhorizon]; decide) [0x74] 0
  obtain ⟨rfl, rfl⟩ := Prod.mk.inj (Except.ok.inj (hsnap.symm.trans hsnap'))
  obtain ⟨m, hm, hload⟩ := hall 3 hbase.le
  have hstands := rightAfter_atMost hlogged hm
  obtain ⟨r', hr', hview⟩ := hload ⟨m, 0, 3⟩ hstands.wellFormed (fun _ => rfl) hstands.latest
    (cmds.map fun cmd => [cmd]) [] [cmds.map fun cmd => ⟨9, some (snapshotBatch [0x74] [cmd])⟩]
    (by simp [← flatMap_def]) (by simp) (by simp [Function.comp_def])
  exact ⟨r, cmds, response, m, r', hr, hsnap, hbase, hm, hr', hview⟩

/-- A put and a delete, and a GC command at the last number, to which a sweep goes. -/
def lastHistory : List Event :=
  [.update [⟨1, some { Command.ofType .put with kv := some ⟨[0x61], [0x31]⟩ }⟩,
      ⟨2, some { Command.ofType .delete with kv := some ⟨[0x61], []⟩ }⟩, ⟨3, some (gcCommand maxUint64)⟩],
    .sweep (fun _ => false) maxUint64]

/-- The base above the last number is zero, where a replica may stand that has not seen
the delete; the sweep took the tombstone, and the snapshot is empty. -/
theorem incremental_incomplete :
    (∀ a ∈ lastHistory.flatMap Event.leaves, IsLogged a) ∧ Increasing (lastHistory.flatMap Event.leaves) ∧
      Along Collects Event.step lastHistory FSM.fresh ∧
      ∃ r cmds response m r', runAll Event.step lastHistory FSM.fresh = .ok r ∧
        commandIncrementalSnapshot r.2.db [0x74] 0 = .ok (cmds, response) ∧ response.baseIndex = 0 ∧
        rightAfter 1 lastHistory FSM.fresh = .ok m ∧
        runAll updateStep [[⟨9, some (snapshotBatch [0x74] cmds)⟩]] ⟨m, 0, 1⟩ = .ok r' ∧
        live (latest r'.2.db [0x61]) = some [0x31] ∧ live (latest r.2.db [0x61]) = none := by
  have hvalues : (do
      let r ← runAll Event.step lastHistory FSM.fresh
      let s ← commandIncrementalSnapshot r.2.db [0x74] 0
      let m ← rightAfter 1 lastHistory FSM.fresh
      let r' ← runAll updateStep [[⟨9, some (snapshotBatch [0x74] s.1)⟩]] ⟨m, 0, 1⟩
      return (s.2.baseIndex, live (latest r'.2.db [0x61]), live (latest r.2.db [0x61]))) =
        Except.ok (0, some [0x31], none) := by decide +kernel
  simp only [bind_eq_ok_iff, pure_eq_ok_iff, Prod.mk.injEq] at hvalues
  obtain ⟨r, hr, ⟨cmds, response⟩, hsnap, m, hm, r', hr', hbase, hstale, hdeleted⟩ := hvalues
  exact ⟨by decide, by decide, by decide +kernel, r, cmds, response, m, r', hr, hsnap, hbase, hm, hr', hstale,
    hdeleted⟩

end Armada.Storage
