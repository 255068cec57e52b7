import Armada.Fsm.Store

/-! The database as the storage of the commands. Every handler, run in an update
context, does to the map its batch presents what the command does to that map at
the sequence number of the context. -/

namespace Armada.Fsm

open Ordered Keys Pebble Proto Program

def physical : Store DB where
  point m key := (seekLatest m key).bind fun e => if isTombstone e.2 then none else some e.2
  scan m low high := liveRecords ((newIter m (iterOptionsForBounds low high)).stops nextUserKey)
  compareRange := txnCompareRange
  page := rangeLookup
  write m key s value := m.insert (encodeUserKey key s) value
  remove m key s := m.insert (encodeUserKey key s) tombstoneValue
  setHorizon m horizon := m.insert sysGCHorizon (littleEndian horizon)

theorem physical_point (m : DB) (key : Bytes) : physical.point m key =
    (seekLatest m key).bind fun e => if isTombstone e.2 then none else some e.2 := rfl

theorem singleLookup_eq (m : DB) (req : RangeOp) :
    singleLookup m req = pointResponse req (physical.point m req.key) := by
  rw [singleLookup, physical_point]
  cases h : seekLatest m req.key with
  | none => rfl
  | some e => cases ht : isTombstone e.2 <;> simp [ht, pointResponse]

theorem txnCompare_eq (m : DB) (cmps : List Compare) : txnCompare m cmps = physical.compare m cmps := by
  unfold txnCompare Store.compare
  congr 1
  funext cmp
  cases hr : cmp.rangeEnd with
  | some rangeEnd => simp only [Store.compareOne, hr, physical]
  | none =>
    simp only [Store.compareOne, hr, txnComparePoint, physical_point]
    cases h : seekLatest m cmp.key with
    | none => rfl
    | some e => cases ht : isTombstone e.2 <;> simp [ht]

theorem lookup_eq (m : DB) (req : RangeOp) : lookup m req = physical.lookup m req := by
  simp only [lookup, Store.lookup, singleLookup_eq]
  rfl

/-! ### Contexts -/

namespace UpdateContext

variable (c : UpdateContext)

/-- What a reader of the batch sees. -/
def reader : DB := c.batch.overlay c.db

def indexed : UpdateContext := { c with batch := { c.batch with indexed := true } }

/-- The context a handler leaves: more may be in the batch, and it may have become
indexed; the rest is as before. -/
structure Leads (c c' : UpdateContext) : Prop where
  db : c'.db = c.db
  index : c'.index = c.index
  leaderIndex : c'.leaderIndex = c.leaderIndex
  indexed : c.batch.indexed = true → c'.batch.indexed = true

theorem Leads.refl : c.Leads c := ⟨rfl, rfl, rfl, id⟩

theorem Leads.trans {c c' c'' : UpdateContext} (h : c.Leads c') (h' : c'.Leads c'') : c.Leads c'' :=
  ⟨h'.db.trans h.db, h'.index.trans h.index, h'.leaderIndex.trans h.leaderIndex,
    fun hi => h'.indexed (h.indexed hi)⟩

theorem Leads.seqno {c c' : UpdateContext} (h : c.Leads c') : c'.seqno = c.seqno := by
  unfold UpdateContext.seqno
  rw [h.index, h.leaderIndex]

theorem leads_indexed : c.Leads c.indexed := ⟨rfl, rfl, rfl, fun _ => rfl⟩

@[simp] theorem reader_indexed : c.indexed.reader = c.reader := rfl

@[simp] theorem seqno_indexed : c.indexed.seqno = c.seqno := rfl

/-- The context after a write. -/
def set (key value : Bytes) : UpdateContext :=
  { c with batch := c.batch.set key value }

theorem leads_set (key value : Bytes) : c.Leads (c.set key value) :=
  ⟨rfl, rfl, rfl, id⟩

@[simp]
theorem reader_set (key value : Bytes) : (c.set key value).reader = c.reader.insert key value := by
  simp [reader, set, Batch.set, Batch.overlay, OrdMap.insertAll_append]

end UpdateContext

/-! ### Handlers -/

/-- From every context that meets `pre`, the handler has the result of the step on
the map the batch presents, and leaves a batch that presents the new map. -/
def Realises (pre : UpdateContext → Prop) {β : Type} (h : Handler β)
    (f : UInt64 → DB → Except FsmError (β × DB)) : Prop :=
  ∀ c, pre c → Agree (fun r r' => r.1 = r'.1 ∧ r.2.reader = r'.2 ∧ c.Leads r.2)
    (h.run c) (f c.seqno c.reader)

abbrev IsIndexed (c : UpdateContext) : Prop := c.batch.indexed = true

@[simp]
theorem ensureIndexed_run (c : UpdateContext) : ensureIndexed.run c = .ok ((), c.indexed) := by
  obtain ⟨⟨_ | _, sets⟩, db, index, leaderIndex⟩ := c <;> rfl

theorem batchReader_run {c : UpdateContext} (h : IsIndexed c) : batchReader.run c = .ok (c.reader, c) := by
  obtain ⟨⟨_ | _, sets⟩, db, index, leaderIndex⟩ := c
  · cases h
  · rfl

@[simp]
theorem batchReader_run_indexed (c : UpdateContext) :
    batchReader.run c.indexed = .ok (c.reader, c.indexed) := batchReader_run rfl

@[simp]
theorem batchSet_run (c : UpdateContext) (key value : Bytes) :
    (batchSet key value).run c = .ok ((), c.set key value) := rfl

@[simp]
theorem getSeqno_run (c : UpdateContext) : getSeqno.run c = .ok (c.seqno, c) := rfl

section
variable {α β : Type} {pre : UpdateContext → Prop}

theorem Realises.congr {h : Handler α} {f g : UInt64 → DB → Except FsmError (α × DB)}
    (hf : Realises pre h f) (hfg : ∀ s m, f s m = g s m) : Realises pre h g := by
  intro c hc
  rw [← hfg]
  exact hf c hc

theorem Realises.pure (a : α) : Realises pre (Pure.pure a) fun _ m => Pure.pure (a, m) :=
  fun c _ => ⟨rfl, rfl, .refl c⟩

theorem Realises.seqno : Realises pre getSeqno fun s m => Pure.pure (s, m) :=
  fun c _ => ⟨rfl, rfl, .refl c⟩

theorem Realises.reader : Realises IsIndexed batchReader fun _ m => Pure.pure (m, m) := by
  intro c hc
  rw [batchReader_run hc]
  exact ⟨rfl, rfl, .refl c⟩

theorem Realises.lift (x : Except FsmError α) : Realises pre (liftM x) fun _ m => do return (← x, m) := by
  intro c _
  cases x with
  | error e => rfl
  | ok a => exact ⟨rfl, rfl, .refl c⟩

theorem Realises.bind {h : Handler α} {k : α → Handler β}
    {f : UInt64 → DB → Except FsmError (α × DB)} {g : α → UInt64 → DB → Except FsmError (β × DB)}
    (hpre : ∀ c c', pre c → c.Leads c' → pre c') (hf : Realises pre h f) (hg : ∀ a, Realises pre (k a) (g a)) :
    Realises pre (h >>= k) (fun s m => f s m >>= fun r => g r.1 s r.2) := by
  intro c hc
  rw [StateT.run_bind]
  refine (hf c hc).bind fun r r' _ _ hr => ?_
  have key := hg r.1 r.2 (hpre c r.2 hc hr.2.2)
  rw [hr.2.2.seqno, hr.2.1] at key
  rw [← hr.1]
  exact key.mono fun _ _ h => ⟨h.1, h.2.1, hr.2.2.trans h.2.2⟩

end

theorem Realises.afterIndexing {β : Type} {k : Handler β} {f : UInt64 → DB → Except FsmError (β × DB)}
    (hf : Realises IsIndexed k f) : Realises (fun _ => True) (ensureIndexed >>= fun _ => k) f := by
  intro c _
  rw [StateT.run_bind, ensureIndexed_run]
  exact (hf c.indexed rfl).mono fun _ _ h => ⟨h.1, h.2.1, c.leads_indexed.trans h.2.2⟩

theorem leads_isIndexed (c c' : UpdateContext) (hc : IsIndexed c) (h : c.Leads c') : IsIndexed c' :=
  h.indexed hc

theorem handlePut_run (op : PutOp) (c : UpdateContext) : (handlePut op).run c =
    .ok (⟨if op.prevKv then (physical.point c.reader op.key).map fun value => ⟨op.key, value⟩ else none⟩,
    (if op.prevKv then c.indexed else c).set (encodeUserKey op.key c.seqno) op.value) := by
  obtain ⟨key, value, _ | _⟩ := op
  · rfl
  · cases hv : physical.point c.reader key <;>
      simp [handlePut, singleLookup_eq, hv, pointResponse, -map_pure, -bind_pure_comp] <;> rfl

theorem handlePut_realises (op : PutOp) : Realises (fun _ => True) (handlePut op) (physical.put · op) := by
  intro c _
  rw [handlePut_run]
  refine ⟨rfl, ?_, ?_⟩
  · cases op.prevKv <;> simp [physical]
  · cases op.prevKv
    · exact c.leads_set _ _
    · exact c.leads_indexed.trans (c.indexed.leads_set _ _)

theorem writeTombstones_realises (pre : UpdateContext → Prop) (keys : List Bytes) :
    Realises pre (writeTombstones keys) fun s m => Pure.pure ((), physical.removeAll s keys m) := by
  intro c hc
  clear hc
  induction keys generalizing c with
  | nil => exact ⟨rfl, rfl, .refl c⟩
  | cons key keys ih =>
    have hset := c.leads_set (encodeUserKey key c.seqno) tombstoneValue
    have hkeys := ih (c.set (encodeUserKey key c.seqno) tombstoneValue)
    rw [hset.seqno, c.reader_set] at hkeys
    exact hkeys.mono fun _ _ h => ⟨rfl, h.2.1, hset.trans h.2.2⟩

theorem handleDeleteSingle_run (del : DeleteRangeOp) (c : UpdateContext) : (handleDeleteSingle del).run c =
      match physical.point c.reader del.key with
      | none => .ok (.empty, c.indexed)
      | some value => .ok (deleteRangeResponse del [⟨del.key, value⟩],
          c.indexed.set (encodeUserKey del.key c.seqno) tombstoneValue) := by
  obtain ⟨key, rangeEnd, prevKv, count⟩ := del
  cases prevKv <;> cases count <;> cases hv : physical.point c.reader key <;>
    simp [handleDeleteSingle, singleLookup_eq, hv, pointResponse, deleteRangeResponse, RangeResponse.empty,
      DeleteRangeResponse.empty, -map_pure, -bind_pure_comp] <;> rfl

theorem handleDeleteRange_realises (del : DeleteRangeOp) (rangeEnd : Bytes) :
    Realises (fun _ => True) (handleDeleteRange del rangeEnd) fun s m => do
      let live ← physical.scan m del.key rangeEnd
      return (deleteRangeResponse del live, physical.removeAll s (live.map KeyValue.key) m) := by
  refine (Realises.reader.bind leads_isIndexed fun m =>
    (Realises.lift (physical.scan m del.key rangeEnd)).bind leads_isIndexed fun live =>
      (writeTombstones_realises _ (live.map KeyValue.key)).bind leads_isIndexed fun _ =>
        .pure (deleteRangeResponse del live)).afterIndexing.congr fun s m => ?_
  simp

theorem handleDelete_realises (del : DeleteRangeOp) :
    Realises (fun _ => True) (handleDelete del) (physical.delete · del) := by
  intro c _
  unfold handleDelete Store.delete Store.targets
  cases hr : del.rangeEnd with
  | some rangeEnd => exact handleDeleteRange_realises del rangeEnd c trivial
  | none =>
    dsimp only
    rw [handleDeleteSingle_run]
    cases physical.point c.reader del.key with
    | none => exact ⟨by simp [deleteRangeResponse, DeleteRangeResponse.empty], rfl, c.leads_indexed⟩
    | some value =>
      exact ⟨rfl, c.indexed.reader_set _ _, c.leads_indexed.trans (c.indexed.leads_set _ _)⟩

theorem Realises.mapM {α β : Type} {h : α → Handler β} {f : UInt64 → α → DB → Except FsmError (β × DB)}
    (hf : ∀ a, Realises (fun _ => True) (h a) (f · a)) (as : List α) :
    Realises (fun _ => True) (as.mapM h) fun s m => runAll (f s) as m := by
  induction as with
  | nil => exact .pure []
  | cons a as ih =>
    rw [List.mapM_cons]
    refine ((hf a).bind (fun _ _ _ _ => trivial) fun b =>
      ih.bind (fun _ _ _ _ => trivial) fun bs => .pure (b :: bs)).congr fun s m => ?_
    rfl

theorem Realises.imp {β : Type} {pre pre' : UpdateContext → Prop} {h : Handler β}
    {f : UInt64 → DB → Except FsmError (β × DB)} (hf : Realises pre h f)
    (hpre : ∀ c, pre' c → pre c) : Realises pre' h f := fun c hc => hf c (hpre c hc)

theorem handleTxnOps_realises (ops : List RequestOp) : Realises IsIndexed (handleTxnOps ops) fun s m => do
      let r ← runAll (physical.txnOp s) ops m
      return (r.1.flatten, r.2) := by
  induction ops with
  | nil => exact .pure []
  | cons op ops ih =>
    cases op with
    | unset => exact ih.congr fun s m => by simp [runAll, Store.txnOp]
    | put op =>
      refine (((handlePut_realises op).imp fun _ _ => trivial).bind leads_isIndexed fun resp =>
        ih.bind leads_isIndexed fun resps => .pure (.put resp :: resps)).congr fun s m => ?_
      simp [runAll, Store.txnOp]
    | deleteRange op =>
      refine (((handleDelete_realises op).imp fun _ _ => trivial).bind leads_isIndexed fun resp =>
        ih.bind leads_isIndexed fun resps => .pure (.deleteRange resp :: resps)).congr fun s m => ?_
      simp [runAll, Store.txnOp]
    | range op =>
      refine (Realises.reader.bind leads_isIndexed fun m => (Realises.lift (lookup m op)).bind leads_isIndexed
        fun resp => ih.bind leads_isIndexed fun resps => .pure (.range resp :: resps)).congr fun s m => ?_
      simp [runAll, Store.txnOp, lookup_eq]

theorem handleTxn_realises (t : Txn) :
    Realises (fun _ => True) (handleTxn t.compare t.success t.failure) (physical.txn · t) := by
  refine (Realises.reader.bind leads_isIndexed fun m =>
    (handleTxnOps_realises (if txnCompare m t.compare then t.success else t.failure)).bind
      leads_isIndexed fun resps => .pure (txnCompare m t.compare, resps)).afterIndexing.congr
        fun s m => ?_
  simp [Store.txn, txnCompare_eq]

/-! ### Commands -/

theorem Realises.command {α : Type} {h : Handler α} {f : UInt64 → DB → Except FsmError (α × DB)}
    (hf : Realises (fun _ => True) h f) (result : α → UpdateResult) (responses : α → List ResponseOp) :
    Realises (fun _ => True) (do let r ← h; return (result r, CommandResult.mk (responses r) (← getSeqno)))
      fun s m => do let r ← f s m; return ((result r.1, ⟨responses r.1, s⟩), r.2) :=
  hf.bind (fun _ _ _ _ => trivial) fun r => Realises.seqno.bind (fun _ _ _ _ => trivial) fun s =>
    .pure (result r, CommandResult.mk (responses r) s)

theorem commandPut_realises (kv : Option KeyValue) (prevKvs : Bool) :
    Realises (fun _ => True) (commandPut kv prevKvs) (physical.commandPut · kv prevKvs) := by
  cases kv with
  | none => exact fun c _ => rfl
  | some kv => exact (handlePut_realises _).command (fun _ => .success) fun resp => [.put resp]

theorem commandDelete_realises (kv : Option KeyValue) (rangeEnd : Option Bytes) (prevKvs count : Bool) :
    Realises (fun _ => True) (commandDelete kv rangeEnd prevKvs count)
    (physical.commandDelete · kv rangeEnd prevKvs count) := by
  cases kv with
  | none => exact fun c _ => rfl
  | some kv =>
    exact (handleDelete_realises _).command (fun _ => .success) fun resp => [.deleteRange resp]

theorem commandPutBatch_realises (batch : List KeyValue) :
    Realises (fun _ => True) (commandPutBatch batch) (physical.commandPutBatch · batch) :=
  (Realises.mapM handlePut_realises _).command (fun _ => .success) fun rop => rop.map .put

theorem commandDeleteBatch_realises (batch : List KeyValue) :
    Realises (fun _ => True) (commandDeleteBatch batch) (physical.commandDeleteBatch · batch) :=
  (Realises.mapM handleDelete_realises _).command (fun _ => .success) fun rop =>
    rop.map .deleteRange

theorem commandTxn_realises (t : Option Txn) : Realises (fun _ => True) (commandTxn t) (physical.commandTxn · t) := by
  cases t with
  | none => exact fun c _ => rfl
  | some t =>
    exact (handleTxn_realises t).command (fun r => if r.1 then .success else .failure) fun r => r.2

/-- A context under another leader index. -/
def UpdateContext.under (c : UpdateContext) (leaderIndex : Option UInt64) : UpdateContext :=
  { c with leaderIndex := leaderIndex }

/-- The children of a sequence leave the leader index of the last of them behind,
which the sequence then resets to its own. -/
theorem handleSequence_realises (sequenceLeaderIndex : Option UInt64) (cmds : List Command)
    (hcmds : ∀ cmd ∈ cmds, Realises (fun _ => True) (handle cmd) (physical.handle · cmd)) (c : UpdateContext) :
    Agree (fun r r' => r.1 = r'.1 ∧ r.2.reader = r'.2 ∧ c.Leads (r.2.under c.leaderIndex))
    ((handleSequence sequenceLeaderIndex cmds).run c)
    (physical.handleSequence (sequenceLeaderIndex.getD c.index) cmds c.reader) := by
  induction cmds generalizing c with
  | nil => exact ⟨rfl, rfl, .refl c⟩
  | cons cmd cmds ih =>
    rw [List.forall_mem_cons] at hcmds
    have hseq : (c.under (cmd.leaderIndex.or sequenceLeaderIndex)).seqno =
        cmd.leaderIndex.getD (sequenceLeaderIndex.getD c.index) := by
      cases cmd.leaderIndex <;> rfl
    have hhead := hcmds.1 (c.under (cmd.leaderIndex.or sequenceLeaderIndex)) trivial
    rw [hseq] at hhead
    unfold handleSequence Store.handleSequence
    refine hhead.bind fun r r' _ _ hr => ?_
    have htail := ih hcmds.2 r.2
    rw [hr.2.2.index, hr.2.1] at htail
    refine htail.bind fun rs rs' _ _ hrs => ?_
    refine ⟨by simp only [hr.1, hrs.1], hrs.2.1, ?_⟩
    exact ⟨hrs.2.2.db.trans hr.2.2.db, hrs.2.2.index.trans hr.2.2.index, rfl,
      fun hi => hrs.2.2.indexed (hr.2.2.indexed hi)⟩

/-- Every command does in a context what it does to the map the context presents. -/
theorem handle_realises (cmd : Command) : Realises (fun _ => True) (handle cmd) (physical.handle · cmd) := by
  induction cmd using Command.induct with
  | h cmd ih =>
    obtain ⟨table, type, kv, leaderIndex, batch, txn, rangeEnd, prevKvs, sequence, count⟩ := cmd
    intro c _
    dsimp only
    unfold handle Store.handle
    cases type with
    | put => exact commandPut_realises kv prevKvs c trivial
    | delete => exact commandDelete_realises kv rangeEnd prevKvs count c trivial
    | putBatch => exact commandPutBatch_realises batch c trivial
    | deleteBatch => exact commandDeleteBatch_realises batch c trivial
    | txn => exact commandTxn_realises txn c trivial
    | dummy => exact ⟨rfl, rfl, .refl c⟩
    | gc => exact ⟨rfl, c.reader_set _ _, c.leads_set _ _⟩
    | unrecognized => rfl
    | sequence =>
      refine (handleSequence_realises c.leaderIndex sequence ih c).bind fun r r' _ _ hr => ?_
      exact ⟨by simp only [hr.1], hr.2.1, hr.2.2⟩

/-! ### Update -/

def Entry.leaderIndex (entry : Entry) : Option UInt64 := entry.cmd.bind Command.leaderIndex

/-- The index of the last entry, zero for none. -/
def lastIndex (updates : List Entry) : UInt64 := (updates.getLast?.map Entry.index).getD 0

/-- The leader index of the last entry, when it carries one. -/
def lastLeaderIndex (updates : List Entry) : Option UInt64 := updates.getLast?.bind Entry.leaderIndex

theorem applyEntry_realises (entry : Entry) (c : UpdateContext) :
    Agree (fun r r' => r.1 = r'.1 ∧ r.2.reader = r'.2 ∧ r.2.db = c.db ∧ r.2.index = entry.index ∧
    r.2.leaderIndex = entry.leaderIndex) ((applyEntry entry).run c) (physical.applyEntry entry c.reader) := by
  obtain ⟨index, _ | cmd⟩ := entry
  · rfl
  · refine (handle_realises cmd ⟨c.batch, c.db, index, cmd.leaderIndex⟩ trivial).bind
      fun r r' _ _ hr => ?_
    exact ⟨by simp only [hr.1], hr.2.1, hr.2.2.db, hr.2.2.index, hr.2.2.leaderIndex⟩

theorem applyEntries_realises (updates : List Entry) (c : UpdateContext) :
    Agree (fun r r' => r.1 = r'.1 ∧ r.2.reader = r'.2 ∧ r.2.db = c.db ∧
    r.2.index = (updates.getLast?.map Entry.index).getD c.index ∧
    r.2.leaderIndex = (updates.getLast?.map Entry.leaderIndex).getD c.leaderIndex)
    ((applyEntries updates).run c) (physical.applyEntries updates c.reader) := by
  induction updates generalizing c with
  | nil => exact ⟨rfl, rfl, rfl, rfl, rfl⟩
  | cons entry updates ih =>
    unfold applyEntries Store.applyEntries runAll
    rw [List.mapM_cons, StateT.run_bind]
    refine (applyEntry_realises entry c).bind fun r r' _ _ hr => ?_
    have htail := ih r.2
    rw [hr.2.1] at htail
    rw [StateT.run_bind]
    refine htail.bind fun rs rs' _ _ hrs => ?_
    refine ⟨by simp only [hr.1, hrs.1], hrs.2.1, hrs.2.2.1.trans hr.2.2.1, ?_, ?_⟩
    · rw [hrs.2.2.2.1, hr.2.2.2.1]
      cases updates <;> simp [List.getLast?_cons]
    · rw [hrs.2.2.2.2, hr.2.2.2.2]
      cases updates <;> simp [List.getLast?_cons]

/-- The writes of a commit besides those of the commands. -/
def stampIndexes (m : DB) (updates : List Entry) : DB :=
  let m := match lastLeaderIndex updates with
    | some leaderIdx => m.insert sysLeaderIndex (littleEndian leaderIdx)
    | none => m
  m.insert sysLocalIndex (littleEndian (lastIndex updates))

theorem commit_eq (c : UpdateContext) (updates : List Entry) (hindex : c.index = lastIndex updates)
    (hleader : c.leaderIndex = lastLeaderIndex updates) : c.commit = stampIndexes c.reader updates := by
  unfold UpdateContext.commit stampIndexes
  rw [hindex, hleader]
  cases lastLeaderIndex updates <;>
    simp [Batch.commit, Batch.set, UpdateContext.reader, Batch.overlay]

/-- `Update` applies the commands to the database in order and then stamps the
indexes of the last entry. -/
theorem update_eq (p : FSM) (updates : List Entry) : p.update updates = do
      let r ← physical.applyEntries updates p.db
      let horizon := gcHorizonApplied r.1
      return (⟨stampIndexes r.2 updates, if horizon > 0 then horizon else p.gcHorizon,
        (lastLeaderIndex updates).getD (lastIndex updates)⟩, r.1) := by
  have h := applyEntries_realises updates (newContext p.db)
  refine Agree.eq ?_
  refine Agree.bind h fun r r' _ _ hr => ?_
  have hleader : r.2.leaderIndex = lastLeaderIndex updates := by
    rw [hr.2.2.2.2, lastLeaderIndex]
    cases updates.getLast? <;> rfl
  have hindex : r.2.index = lastIndex updates := hr.2.2.2.1
  obtain ⟨results, ctx⟩ := r
  simp only [agree_pure]
  rw [commit_eq ctx updates hindex hleader, hr.2.1, ← hr.1, UpdateContext.seqno, hleader, hindex]

end Armada.Fsm
