import Armada.Fsm.Physical

/-! Simulation between storages. A sequence is the list of the elementary commands in it, each
with its sequence number. When every elementary operation keeps two storages related and reads
the same from both, so does every list of entries, and the results agree. An operation may be
guarded by a condition on the state. -/

namespace Armada.Fsm

open Ordered Keys Pebble Proto Program List

/-! ### Elementary commands -/

mutual

/-- The commands other than sequences in a command run at `s`, in order, each with the
sequence number it runs at in place of its leader index. -/
def leaves (s : UInt64) : Command → List (UInt64 × Command)
  | ⟨table, type, kv, _, batch, txn, rangeEnd, prevKvs, sequence, count⟩ =>
    match type with
    | .sequence => leavesAll s sequence
    | _ => [(s, ⟨table, type, kv, none, batch, txn, rangeEnd, prevKvs, sequence, count⟩)]

def leavesAll (s : UInt64) : List Command → List (UInt64 × Command)
  | [] => []
  | cmd :: cmds => leaves (cmd.leaderIndex.getD s) cmd ++ leavesAll s cmds

end

variable {cmd : Command} {a : UInt64 × Command}

theorem leaves_sequence (h : cmd.type = .sequence) (s : UInt64) : leaves s cmd = leavesAll s cmd.sequence := by
  cases cmd
  cases h
  unfold leaves
  rfl

theorem leaves_of_ne (h : cmd.type ≠ .sequence) (s : UInt64) :
    leaves s cmd = [(s, { cmd with leaderIndex := none })] := by
  obtain ⟨_, type⟩ := cmd
  cases type <;> first | exact absurd rfl h | (unfold leaves; rfl)

theorem leavesAll_eq (s : UInt64) (cmds : List Command) :
    leavesAll s cmds = cmds.flatMap fun cmd => leaves (cmd.leaderIndex.getD s) cmd := by
  induction cmds with
  | nil => rfl
  | cons cmd cmds ih => rw [leavesAll, ih, flatMap_cons]

theorem type_of_mem_leaves {s : UInt64} (ha : a ∈ leaves s cmd) : a.2.type ≠ .sequence := by
  induction cmd using Command.induct generalizing s with
  | h cmd ih =>
    by_cases hs : cmd.type = .sequence
    · rw [leaves_sequence hs, leavesAll_eq, mem_flatMap] at ha
      obtain ⟨c, hc, ha⟩ := ha
      exact ih c hc ha
    · rw [leaves_of_ne hs, mem_singleton] at ha
      rw [ha]
      exact hs

/-- The elementary commands of an entry. -/
def Entry.leaves (entry : Entry) : List (UInt64 × Command) :=
  match entry.cmd with
  | none => []
  | some cmd => Fsm.leaves (cmd.leaderIndex.getD entry.index) cmd

theorem Entry.type_of_mem_leaves {entry : Entry} (ha : a ∈ entry.leaves) : a.2.type ≠ .sequence := by
  obtain ⟨index, _ | cmd⟩ := entry
  · cases ha
  · exact Fsm.type_of_mem_leaves ha

theorem type_of_mem_flatMap_leaves {updates : List Entry}
    (ha : a ∈ updates.flatMap Entry.leaves) : a.2.type ≠ .sequence := by
  obtain ⟨e, -, ha⟩ := mem_flatMap.mp ha
  exact e.type_of_mem_leaves ha

namespace Store

variable {S : Type} (X : Store S)

def handleLeaf (a : UInt64 × Command) (x : S) :
    Except FsmError ((UpdateResult × CommandResult) × S) := X.handle a.1 a.2 x

theorem handle_leaderIndex (cmd : Command) (leaderIndex : Option UInt64) (s : UInt64) (x : S) :
    X.handle s { cmd with leaderIndex := leaderIndex } x = X.handle s cmd x := by
  cases cmd
  unfold handle
  rfl

theorem handle_sequence {cmd : Command} (h : cmd.type = .sequence) (s : UInt64) (x : S) : X.handle s cmd x = do
      let rs ← runAll (X.handleChild s) cmd.sequence x
      return ((.success, ⟨(rs.1.map fun r => r.2.responses).flatten, s⟩), rs.2) := by
  cases cmd
  cases h
  unfold handle
  simp [handleSequence_eq]

/-- A command changes the state as its elementary commands do, one after the other. -/
theorem handle_leaves (cmd : Command) (s : UInt64) (x : S) :
    Agree (fun r rs => r.2 = rs.2) (X.handle s cmd x) (runAll X.handleLeaf (leaves s cmd) x) := by
  induction cmd using Command.induct generalizing s x with
  | h cmd ih =>
    by_cases hs : cmd.type = .sequence
    · rw [leaves_sequence hs, X.handle_sequence hs, leavesAll_eq]
      have hrun : ∀ cmds : List Command, (∀ c ∈ cmds, c ∈ cmd.sequence) → ∀ x,
          Agree (fun rs rs' => rs.2 = rs'.2) (runAll (X.handleChild s) cmds x)
            (runAll X.handleLeaf (cmds.flatMap fun c => leaves (c.leaderIndex.getD s) c) x) := by
        intro cmds hcmds
        induction cmds with
        | nil => exact fun x => rfl
        | cons c cmds ihc =>
          intro x
          rw [forall_mem_cons] at hcmds
          rw [flatMap_cons, runAll_append]
          refine (ih c hcmds.1 _ x).bind fun r r' _ _ hr => ?_
          rw [← hr]
          exact (ihc hcmds.2 r.2).bind fun rs rs' _ _ hrs => hrs
      have h := hrun cmd.sequence (fun _ h => h) x
      rw [← bind_pure (runAll X.handleLeaf _ x)]
      exact h.bind fun rs rs' _ _ hrs => hrs
    · rw [leaves_of_ne hs]
      simp only [runAll, handleLeaf, handle_leaderIndex]
      cases X.handle s cmd x <;> simp

theorem applyEntry_leaves (entry : Entry) (x : S) {r : EntryResult × S}
    (h : X.applyEntry entry x = .ok r) : ∃ rs, runAll X.handleLeaf entry.leaves x = .ok (rs, r.2) := by
  obtain ⟨index, _ | cmd⟩ := entry
  · cases h
  · obtain ⟨r', hr', rfl⟩ := map_eq_ok_iff.mp h
    have hleaves := X.handle_leaves cmd (cmd.leaderIndex.getD index) x
    rw [hr'] at hleaves
    obtain ⟨rs, hrs, heq⟩ := hleaves.ok_left
    exact ⟨rs.1, by rw [Entry.leaves, hrs, heq]⟩

theorem applyEntries_leaves (updates : List Entry) (x : S) {rs : List EntryResult × S}
    (h : X.applyEntries updates x = .ok rs) :
    ∃ rs', runAll X.handleLeaf (updates.flatMap Entry.leaves) x = .ok (rs', rs.2) := by
  induction updates generalizing x rs with
  | nil => cases h; exact ⟨[], rfl⟩
  | cons entry updates ih =>
    obtain ⟨r, hr, tail, htail, rfl⟩ := runAll_cons_iff.mp h
    obtain ⟨r', hr'⟩ := X.applyEntry_leaves entry x hr
    obtain ⟨tail', htail'⟩ := ih r.2 htail
    exact ⟨r' ++ tail', by simp [flatMap_cons, runAll_append, hr', htail', pure, Except.pure]⟩

end Store

/-! ### Results -/

/-- Equal responses, but for range reads, which are related by `Q`. -/
def ResponseRel (Q : RangeResponse → RangeResponse → Prop) : ResponseOp → ResponseOp → Prop
  | .range r, .range r' => Q r r'
  | .put r, .put r' => r = r'
  | .deleteRange r, .deleteRange r' => r = r'
  | _, _ => False

theorem responseRel_eq {r r' : ResponseOp} : ResponseRel Eq r r' ↔ r = r' := by
  cases r <;> cases r' <;> simp [ResponseRel]

section
variable (Q : RangeResponse → RangeResponse → Prop)

abbrev ResponsesRel : List ResponseOp → List ResponseOp → Prop := List.Forall₂ (ResponseRel Q)

def ResultRel (r r' : UpdateResult × CommandResult) : Prop :=
  r.1 = r'.1 ∧ ResponsesRel Q r.2.responses r'.2.responses ∧ r.2.revision = r'.2.revision

def EntryResultRel (r r' : EntryResult) : Prop := ResultRel Q (r.value, r.data) (r'.value, r'.data)

end

theorem entryResultRel_eq {r r' : EntryResult} : EntryResultRel Eq r r' ↔ r = r' := by
  obtain ⟨value, responses, revision⟩ := r
  obtain ⟨value', responses', revision'⟩ := r'
  have hrel : ResponseRel Eq = Eq := by
    funext a b
    exact propext responseRel_eq
  simp [EntryResultRel, ResultRel, ResponsesRel, hrel, forall₂_eq_eq_eq]

theorem forall₂_flatten {α β : Type} {V : α → β → Prop} {l : List (List α)} {l' : List (List β)}
    (h : List.Forall₂ (List.Forall₂ V) l l') : List.Forall₂ V l.flatten l'.flatten := by
  induction h with
  | nil => exact .nil
  | cons hhead _ ih => exact rel_append hhead ih

/-! ### Guards -/

/-- A condition on every elementary operation, in the state it meets. -/
structure Guard (S : Type) where
  put : UInt64 → PutOp → S → Prop
  delete : UInt64 → DeleteRangeOp → S → Prop
  compare : Compare → S → Prop
  range : RangeOp → S → Prop
  gc : UInt64 → S → Prop

namespace Guard

variable {S : Type} (G : Guard S) (X : Store S)

def txnOp (s : UInt64) (op : RequestOp) (x : S) : Prop :=
  match op with
  | .range op => G.range op x
  | .put op => G.put s op x
  | .deleteRange op => G.delete s op x
  | .unset => True

def txn (s : UInt64) (t : Txn) (x : S) : Prop :=
  (∀ cmp ∈ t.compare, G.compare cmp x) ∧
    Along (G.txnOp s) (X.txnOp s) (if X.compare x t.compare then t.success else t.failure) x

/-- The condition along an elementary command. -/
def leaf (a : UInt64 × Command) (x : S) : Prop :=
  match a.2.type with
  | .put => ∀ kv ∈ a.2.kv, G.put a.1 ⟨kv.key, kv.value, a.2.prevKvs⟩ x
  | .delete => ∀ kv ∈ a.2.kv, G.delete a.1 ⟨kv.key, a.2.rangeEnd, a.2.prevKvs, a.2.count⟩ x
  | .putBatch =>
    Along (G.put a.1) (X.put a.1) (a.2.batch.map fun kv => ⟨kv.key, kv.value, false⟩) x
  | .deleteBatch =>
    Along (G.delete a.1) (X.delete a.1) (a.2.batch.map fun kv => ⟨kv.key, none, false, false⟩) x
  | .txn => ∀ t ∈ a.2.txn, G.txn X a.1 t x
  | .gc => G.gc a.1 x
  | .dummy | .sequence | .unrecognized => True

/-- The condition along a list of entries. -/
def entries (updates : List Entry) (x : S) : Prop :=
  Along (G.leaf X) X.handleLeaf (updates.flatMap Entry.leaves) x

end Guard

/-! ### Simulation -/

/-- Guarded operations keep the storages related and read the same from both. -/
structure Simulates {S T : Type} (X : Store S) (Y : Store T) (R : S → T → Prop) (G : Guard S)
    (Q : RangeResponse → RangeResponse → Prop) : Prop where
  put : ∀ s op x y, R x y → G.put s op x →
    (op.prevKv → X.point x op.key = Y.point y op.key) ∧
      R (X.write x op.key s op.value) (Y.write y op.key s op.value)
  delete : ∀ s del x y, R x y → G.delete s del x →
    Agree (fun live live' => live = live' ∧
      R (X.removeAll s (live.map KeyValue.key) x) (Y.removeAll s (live.map KeyValue.key) y))
      (X.targets del x) (Y.targets del y)
  compare : ∀ cmp x y, R x y → G.compare cmp x → X.compareOne x cmp = Y.compareOne y cmp
  range : ∀ op x y, R x y → G.range op x → Agree Q (X.lookup x op) (Y.lookup y op)
  gc : ∀ s x y, R x y → G.gc s x → R (X.setHorizon x s) (Y.setHorizon y s)

namespace Simulates

variable {S T : Type} {X : Store S} {Y : Store T} {R : S → T → Prop} {G : Guard S}
  {Q : RangeResponse → RangeResponse → Prop} (h : Simulates X Y R G Q)
include h

variable {y : T} {x : S}

theorem put_agree (s : UInt64) (op : PutOp) (hxy : R x y) (hg : G.put s op x) :
    Agree (fun r r' => r.1 = r'.1 ∧ R r.2 r'.2) (X.put s op x) (Y.put s op y) := by
  obtain ⟨hpoint, hwrite⟩ := h.put s op x y hxy hg
  refine ⟨?_, hwrite⟩
  cases hp : op.prevKv with
  | false => simp
  | true => simp [hpoint hp]

theorem delete_agree (s : UInt64) (del : DeleteRangeOp) (hxy : R x y) (hg : G.delete s del x) :
    Agree (fun r r' => r.1 = r'.1 ∧ R r.2 r'.2) (X.delete s del x) (Y.delete s del y) := by
  refine (h.delete s del x y hxy hg).bind fun live live' _ _ hlive => ?_
  obtain ⟨rfl, hR⟩ := hlive
  exact ⟨rfl, hR⟩

theorem compare_eq (cmps : List Compare) (hxy : R x y)
    (hg : ∀ cmp ∈ cmps, G.compare cmp x) : X.compare x cmps = Y.compare y cmps := by
  rw [Bool.eq_iff_iff]
  simp only [Store.compare, all_eq_true]
  exact forall₂_congr fun cmp hcmp => by rw [h.compare cmp x y hxy (hg cmp hcmp)]

theorem txnOp_agree (s : UInt64) (op : RequestOp) (hxy : R x y) (hg : G.txnOp s op x) :
    Agree (fun r r' => ResponsesRel Q r.1 r'.1 ∧ R r.2 r'.2) (X.txnOp s op x) (Y.txnOp s op y) := by
  cases op with
  | range op =>
    exact (h.range op x y hxy hg).bind fun r r' _ _ hr => ⟨.cons hr .nil, hxy⟩
  | put op =>
    exact (h.put_agree s op hxy hg).bind fun r r' _ _ hr => ⟨.cons hr.1 .nil, hr.2⟩
  | deleteRange op =>
    exact (h.delete_agree s op hxy hg).bind fun r r' _ _ hr => ⟨.cons hr.1 .nil, hr.2⟩
  | unset => exact ⟨.nil, hxy⟩

theorem txn_agree (s : UInt64) (t : Txn) (hxy : R x y) (hg : G.txn X s t x) :
    Agree (fun r r' => (r.1.1 = r'.1.1 ∧ ResponsesRel Q r.1.2 r'.1.2) ∧ R r.2 r'.2) (X.txn s t x) (Y.txn s t y) := by
  unfold Store.txn
  rw [← h.compare_eq t.compare hxy hg.1]
  refine (runAll_agree (fun op _ x y hxy hop => h.txnOp_agree s op hxy hop) hxy hg.2).bind
    fun r r' _ _ hr => ?_
  exact ⟨⟨rfl, forall₂_flatten hr.1⟩, hr.2⟩

theorem leaf_agree (s : UInt64) (cmd : Command) (hs : cmd.type ≠ .sequence) (hxy : R x y) (hg : G.leaf X (s, cmd) x) :
    Agree (fun r r' => ResultRel Q r.1 r'.1 ∧ R r.2 r'.2) (X.handle s cmd x) (Y.handle s cmd y) := by
  obtain ⟨_, type, kv, _, batch, txn⟩ := cmd
  unfold Store.handle
  cases type with
  | put =>
    cases kv with
    | none => rfl
    | some kv =>
      refine (h.put_agree s _ hxy (hg kv rfl)).bind fun r r' _ _ hr => ?_
      exact ⟨⟨rfl, .cons hr.1 .nil, rfl⟩, hr.2⟩
  | delete =>
    cases kv with
    | none => rfl
    | some kv =>
      refine (h.delete_agree s _ hxy (hg kv rfl)).bind fun r r' _ _ hr => ?_
      exact ⟨⟨rfl, .cons hr.1 .nil, rfl⟩, hr.2⟩
  | putBatch =>
    refine (runAll_agree (fun op _ x y hxy hop => h.put_agree s op hxy hop) hxy hg).bind
      fun r r' _ _ hr => ?_
    refine ⟨⟨rfl, ?_, rfl⟩, hr.2⟩
    exact forall₂_map_left_iff.mpr (forall₂_map_right_iff.mpr hr.1)
  | deleteBatch =>
    refine (runAll_agree (fun op _ x y hxy hop => h.delete_agree s op hxy hop) hxy hg).bind
      fun r r' _ _ hr => ?_
    refine ⟨⟨rfl, ?_, rfl⟩, hr.2⟩
    exact forall₂_map_left_iff.mpr (forall₂_map_right_iff.mpr hr.1)
  | txn =>
    cases txn with
    | none => rfl
    | some t =>
      refine (h.txn_agree s t hxy (hg t rfl)).bind fun r r' _ _ hr => ?_
      exact ⟨⟨by simp only [hr.1.1], hr.1.2, rfl⟩, hr.2⟩
  | dummy => exact ⟨⟨rfl, .nil, rfl⟩, hxy⟩
  | gc => exact ⟨⟨rfl, .nil, rfl⟩, h.gc s x y hxy hg⟩
  | unrecognized => rfl
  | sequence => exact absurd rfl hs

theorem handle_agree (cmd : Command) (s : UInt64) (hxy : R x y) (hg : Along (G.leaf X) X.handleLeaf (leaves s cmd) x) :
    Agree (fun r r' => ResultRel Q r.1 r'.1 ∧ R r.2 r'.2) (X.handle s cmd x) (Y.handle s cmd y) := by
  induction cmd using Command.induct generalizing s x y with
  | h cmd ih =>
    by_cases hs : cmd.type = .sequence
    · rw [X.handle_sequence hs, Y.handle_sequence hs]
      rw [leaves_sequence hs, leavesAll_eq] at hg
      -- the condition along the leaves is a condition along the children
      have hchildren : ∀ (cmds : List Command) (x : S),
          Along (G.leaf X) X.handleLeaf (cmds.flatMap fun c => leaves (c.leaderIndex.getD s) c) x →
          Along (fun c x => Along (G.leaf X) X.handleLeaf (leaves (c.leaderIndex.getD s) c) x)
            (X.handleChild s) cmds x := by
        intro cmds
        induction cmds with
        | nil => exact fun _ _ => trivial
        | cons c cmds ihc =>
          intro x hx
          rw [flatMap_cons, Along.append] at hx
          refine ⟨hx.1, fun r hr => ihc r.2 ?_⟩
          have hleaves := X.handle_leaves c (c.leaderIndex.getD s) x
          rw [show X.handle (c.leaderIndex.getD s) c x = .ok r from hr] at hleaves
          obtain ⟨rs, hrs, heq⟩ := hleaves.ok_left
          rw [heq]
          exact hx.2 rs hrs
      refine (runAll_agree (fun c hc x y hxy hok => ih c hc (c.leaderIndex.getD s) hxy hok) hxy
        (hchildren _ x hg)).bind fun rs rs' _ _ hrs => ?_
      refine ⟨⟨rfl, forall₂_flatten ?_, rfl⟩, hrs.2⟩
      rw [forall₂_map_left_iff, forall₂_map_right_iff]
      exact hrs.1.imp fun _ _ hr => hr.2.1
    · rw [leaves_of_ne hs] at hg
      exact h.leaf_agree s cmd hs hxy hg.1

theorem applyEntry_agree (entry : Entry) (hxy : R x y) (hg : Along (G.leaf X) X.handleLeaf entry.leaves x) :
    Agree (fun r r' => EntryResultRel Q r.1 r'.1 ∧ R r.2 r'.2) (X.applyEntry entry x) (Y.applyEntry entry y) := by
  obtain ⟨index, _ | cmd⟩ := entry
  · rfl
  · exact (h.handle_agree cmd _ hxy hg).bind fun r r' _ _ hr => hr

/-- Every list of entries has related results and leaves related storages. -/
theorem applyEntries_agree (updates : List Entry) (hxy : R x y) (hg : G.entries X updates x) :
    Agree (fun rs rs' => List.Forall₂ (EntryResultRel Q) rs.1 rs'.1 ∧ R rs.2 rs'.2)
    (X.applyEntries updates x) (Y.applyEntries updates y) := by
  have hentries : Along (fun e x => Along (G.leaf X) X.handleLeaf e.leaves x) X.applyEntry updates x := by
    clear hxy
    induction updates generalizing x with
    | nil => trivial
    | cons e updates ih =>
      rw [Guard.entries, flatMap_cons, Along.append] at hg
      refine ⟨hg.1, fun r hr => ih ?_⟩
      obtain ⟨rs, hrs⟩ := X.applyEntry_leaves e x hr
      exact hg.2 _ hrs
  exact runAll_agree (fun e _ x y hxy hok => h.applyEntry_agree e hxy hok) hxy hentries

end Simulates

end Armada.Fsm
