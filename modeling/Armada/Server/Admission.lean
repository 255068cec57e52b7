import Armada.Fsm.Repeats

/-! What the API lets into the log. A write passes the checks of the server and those of its
table. A put of its own is checked for an empty key, a long key, a null byte and a long value;
of a put inside a transaction only the null bytes are looked at. -/

namespace Armada.Server

open Ordered Keys Pebble Proto Program Fsm List

/-! ### Requests and checks -/

structure PutRequest where
  table : Bytes
  key : Bytes
  value : Bytes
  prevKv : Bool

structure DeleteRangeRequest where
  table : Bytes
  key : Bytes
  rangeEnd : Option Bytes
  prevKv : Bool
  count : Bool

structure TxnRequest where
  table : Bytes
  compare : List Compare
  success : List RequestOp
  failure : List RequestOp

inductive Code where
  | invalidArgument
  | failedPrecondition

structure Status where
  code : Code
  message : String

def invalid (message : String) : Except Status Unit := .error ⟨.invalidArgument, message⟩

/-- A check of the server: the request is refused if it holds. -/
def refuseIf (b : Bool) (message : String) : Except Status Unit := if b then invalid message else .ok ()

def keyContainsNullByte (k : Bytes) : Bool := k.contains 0

def rangeEndContainsNullByte (k : Bytes) : Bool := if k = [0] then false else k.contains 0

def rangeKeyContainsNullByte (k rangeEnd : Bytes) : Bool :=
  if rangeEnd.length > 0 ∧ k = [0] then false else k.contains 0

/-- The checks of a key and a range end. -/
def validateRange (key : Bytes) (rangeEnd : Option Bytes) : Except Status Unit := do
  refuseIf (rangeKeyContainsNullByte key (rangeEnd.getD [])) "key must not contain null bytes"
  refuseIf (rangeEndContainsNullByte (rangeEnd.getD [])) "range_end must not contain null bytes"

def validateRequestOpKeys : RequestOp → Except Status Unit
  | .range r => validateRange r.key r.rangeEnd
  | .put p => refuseIf (keyContainsNullByte p.key) "key must not contain null bytes"
  | .deleteRange d => validateRange d.key d.rangeEnd
  | .unset => .ok ()

def validateTxnKeys (req : TxnRequest) : Except Status Unit := do
  req.compare.forM fun cmp => validateRange cmp.key cmp.rangeEnd
  req.success.forM validateRequestOpKeys
  req.failure.forM validateRequestOpKeys

inductive TableError where
  | emptyKey
  | keyLengthExceeded
  | valueLengthExceeded

def TableError.message : TableError → String
  | .emptyKey => "key must not be empty"
  | .keyLengthExceeded => "key length exceeded max allowed value"
  | .valueLengthExceeded => "value length exceeded max allowed value"

def maxValueLen : ℕ := 2 * 1024 * 1024

namespace ActiveTable

/-- `ActiveTable.Put` up to the proposal. -/
def put (req : PutRequest) : Except TableError Command :=
  if req.key.length = 0 then .error .emptyKey
  else if req.key.length > v2MaxUserKeyLen then .error .keyLengthExceeded
  else if req.value.length > maxValueLen then .error .valueLengthExceeded
  else .ok { Command.ofType .put with table := req.table, kv := some ⟨req.key, req.value⟩, prevKvs := req.prevKv }

/-- `ActiveTable.Delete` up to the proposal. -/
def delete (req : DeleteRangeRequest) : Except TableError Command :=
  if req.key.length = 0 then .error .emptyKey
  else if req.key.length > v2MaxUserKeyLen then .error .keyLengthExceeded
  else .ok { Command.ofType .delete with
    table := req.table, kv := some ⟨req.key, []⟩, prevKvs := req.prevKv, rangeEnd := req.rangeEnd, count := req.count }

def isReadonly (req : TxnRequest) : Bool :=
  (req.success ++ req.failure).all fun | .range _ => true | _ => false

/-- A range end without bytes is not written to the log. -/
def writtenEnd (rangeEnd : Option Bytes) : Option Bytes := rangeEnd.filter (· ≠ [])

def written : RequestOp → RequestOp
  | .range r => .range { r with rangeEnd := writtenEnd r.rangeEnd }
  | .put p => .put p
  | .deleteRange d => .deleteRange { d with rangeEnd := writtenEnd d.rangeEnd }
  | .unset => .unset

/-- `ActiveTable.Txn` up to the proposal; read-only transactions do not go through the log. -/
def txn (req : TxnRequest) : Option Command :=
  if isReadonly req then none
  else some { Command.ofType .txn with
    table := req.table
    txn := some ⟨req.compare.map fun cmp => { cmp with rangeEnd := writtenEnd cmp.rangeEnd },
      req.success.map written, req.failure.map written⟩ }

end ActiveTable

/-- How the server reports an error of the table. -/
def ofTable (r : Except TableError Command) : Except Status (Option Command) :=
  match r with
  | .ok cmd => .ok (some cmd)
  | .error e => .error ⟨.failedPrecondition, e.message⟩

inductive Request where
  | put (req : PutRequest)
  | deleteRange (req : DeleteRangeRequest)
  | txn (req : TxnRequest)

/-- `Put`, `DeleteRange` and `Txn` of the server: the command they propose. -/
def Request.accept : Request → Except Status (Option Command)
  | .put req => do
    refuseIf (req.table.length = 0) "table must be set"
    refuseIf (req.key.length = 0) "key must be set"
    refuseIf (keyContainsNullByte req.key) "key must not contain null bytes"
    ofTable (ActiveTable.put req)
  | .deleteRange req => do
    refuseIf (req.table.length = 0) "table must be set"
    refuseIf (req.key.length = 0) "key must be set"
    validateRange req.key req.rangeEnd
    ofTable (ActiveTable.delete req)
  | .txn req => do
    refuseIf (req.table.length = 0) "table must be set"
    validateTxnKeys req
    return ActiveTable.txn req

/-- The log entry of a request, if it comes to a proposal. -/
def proposal (a : UInt64 × Request) : Option Entry :=
  match a.2.accept with
  | .ok (some cmd) => some ⟨a.1, some cmd⟩
  | _ => none

/-- The keys and values of the puts in a transaction are as those of puts have to be. -/
def PutsFit : Request → Prop
  | .txn req => ∀ op ∈ req.success ++ req.failure, ∀ p, op = .put p →
    p.key ≠ [] ∧ p.key.length ≤ v2MaxUserKeyLen ∧ p.value.length ≤ maxValueLen
  | _ => True

/-! ### What is accepted -/

variable {u : Unit}

theorem refuseIf_eq_ok {b : Bool} {message : String} : refuseIf b message = .ok u ↔ b = false := by
  cases b <;> simp [refuseIf, invalid]

/-- A key free of nulls, or the bounds of a range. -/
def Validated (key : Bytes) : Option Bytes → Prop
  | none => (0 : UInt8) ∉ key
  | some rangeEnd => IsBound key ∧ IsBound rangeEnd

/-- The commands that accepted requests propose. -/
def accepted : Shape where
  put op := Admitted op.key ∧ op.value.length ≤ maxValueLen
  delete del := Validated del.key del.rangeEnd
  compare _ := True
  range op := Validated op.key op.rangeEnd

variable {rangeEnd : Option Bytes} {key : Bytes}

theorem validateRange_eq_ok (h : validateRange key rangeEnd = .ok u) :
    ((0 : UInt8) ∉ key ∨ (rangeEnd.getD [] ≠ [] ∧ key = wildcard)) ∧ IsBound (rangeEnd.getD []) := by
  simp only [validateRange, bind_eq_ok_iff, refuseIf_eq_ok] at h
  obtain ⟨_, hkey, hend⟩ := h
  refine ⟨?_, ?_⟩
  · unfold rangeKeyContainsNullByte at hkey
    split_ifs at hkey with hwild
    · exact .inr ⟨ne_nil_of_length_pos hwild.1, hwild.2⟩
    · exact .inl (by simpa using hkey)
  · unfold rangeEndContainsNullByte at hend
    split_ifs at hend with hwild
    · exact .inr hwild
    · exact .inl (by simpa using hend)

theorem validated_of_ok (h : validateRange key rangeEnd = .ok u) : Validated key rangeEnd := by
  obtain ⟨hkey, hend⟩ := validateRange_eq_ok h
  cases rangeEnd with
  | none => exact hkey.resolve_right fun h => h.1 rfl
  | some rangeEnd => exact ⟨hkey.imp_right And.right, hend⟩

theorem validated_writtenEnd (h : validateRange key rangeEnd = .ok u) :
    Validated key (ActiveTable.writtenEnd rangeEnd) := by
  rcases rangeEnd with _ | _ | ⟨b, rangeEnd⟩
  · exact validated_of_ok h
  · exact (validateRange_eq_ok h).1.resolve_right fun h => h.1 rfl
  · exact validated_of_ok h

theorem forM_eq_ok {α : Type} {f : α → Except Status Unit} {as : List α} (h : as.forM f = .ok u) :
    ∀ a ∈ as, f a = .ok () := by
  induction as with
  | nil => simp
  | cons a as ih =>
    obtain ⟨_, ha, hrest⟩ := bind_eq_ok_iff.mp (show (f a >>= fun _ => as.forM f) = .ok u from h)
    exact forall_mem_cons.mpr ⟨ha, ih hrest⟩

theorem accepted_written {op : RequestOp} (h : validateRequestOpKeys op = .ok ())
    (hfit : ∀ p, op = .put p → p.key ≠ [] ∧ p.key.length ≤ v2MaxUserKeyLen ∧ p.value.length ≤ maxValueLen) :
    accepted.txnOp (ActiveTable.written op) := by
  cases op with
  | range r => exact validated_writtenEnd h
  | put p =>
    obtain ⟨hne, hlen, hvalue⟩ := hfit p rfl
    exact ⟨⟨hne, by simpa [keyContainsNullByte] using refuseIf_eq_ok.mp h, hlen⟩, hvalue⟩
  | deleteRange d => exact validated_writtenEnd h
  | unset => trivial

/-- What an accepted request proposes. -/
structure Proposed (cmd : Command) : Prop where
  elementary : cmd.type ≠ .sequence
  complete : complete cmd = true
  shape : accepted.leaf cmd

variable {cmd : Command}

theorem proposed_put {req : PutRequest} (hnull : keyContainsNullByte req.key = false)
    (h : ActiveTable.put req = .ok cmd) : Proposed cmd := by
  unfold ActiveTable.put at h
  split_ifs at h with hempty hlong hvalue
  obtain rfl := Except.ok.inj h
  refine ⟨by simp [Command.ofType], rfl, fun kv hkv => ?_⟩
  obtain rfl := Option.some.inj hkv
  exact ⟨⟨fun h => hempty (congrArg List.length h), by simpa [keyContainsNullByte] using hnull,
    not_lt.mp hlong⟩, not_lt.mp hvalue⟩

theorem proposed_delete {req : DeleteRangeRequest} (hvalid : validateRange req.key req.rangeEnd = .ok u)
    (h : ActiveTable.delete req = .ok cmd) : Proposed cmd := by
  unfold ActiveTable.delete at h
  split_ifs at h
  obtain rfl := Except.ok.inj h
  refine ⟨by simp [Command.ofType], rfl, fun kv hkv => ?_⟩
  obtain rfl := Option.some.inj hkv
  exact validated_of_ok hvalid

theorem proposed_txn {req : TxnRequest} (hvalid : validateTxnKeys req = .ok u) (hfit : PutsFit (.txn req))
    (h : ActiveTable.txn req = some cmd) : Proposed cmd := by
  simp only [validateTxnKeys, bind_eq_ok_iff] at hvalid
  obtain ⟨_, _, _, hsuccess, hfailure⟩ := hvalid
  unfold ActiveTable.txn at h
  split_ifs at h
  obtain rfl := Option.some.inj h
  refine ⟨by simp [Command.ofType], rfl, fun t ht => ?_⟩
  obtain rfl := Option.some.inj ht
  refine ⟨fun _ _ => trivial, fun ok op hop => ?_⟩
  cases ok with
  | true =>
    obtain ⟨op, hmem, rfl⟩ := mem_map.mp hop
    exact accepted_written (forM_eq_ok hsuccess op hmem) (hfit op (mem_append_left _ hmem))
  | false =>
    obtain ⟨op, hmem, rfl⟩ := mem_map.mp hop
    exact accepted_written (forM_eq_ok hfailure op hmem) (hfit op (mem_append_right _ hmem))

theorem ofTable_eq_ok {r : Except TableError Command} (h : ofTable r = .ok (some cmd)) : r = .ok cmd := by
  cases r with
  | error e => cases h
  | ok cmd' => rw [Option.some.inj (Except.ok.inj h)]

theorem proposed_of_accept {req : Request} (h : req.accept = .ok (some cmd)) (hfit : PutsFit req) : Proposed cmd := by
  cases req with
  | put req =>
    simp only [Request.accept, bind_eq_ok_iff, refuseIf_eq_ok] at h
    obtain ⟨_, _, _, _, _, hnull, h⟩ := h
    exact proposed_put hnull (ofTable_eq_ok h)
  | deleteRange req =>
    simp only [Request.accept, bind_eq_ok_iff, refuseIf_eq_ok] at h
    obtain ⟨_, _, _, _, _, hvalid, h⟩ := h
    exact proposed_delete hvalid (ofTable_eq_ok h)
  | txn req =>
    simp only [Request.accept, bind_eq_ok_iff, refuseIf_eq_ok, pure_eq_ok_iff] at h
    obtain ⟨_, _, _, hvalid, h⟩ := h
    exact proposed_txn hvalid hfit h

/-! ### What is stored -/

/-- Every value is at most as long as a table takes it. -/
def Bounded (m : DB) : Prop := ∀ k s x, ver m k s = some x → x.length ≤ maxValueLen

variable {m : DB}

theorem Bounded.insert (hm : Bounded m) (key : Bytes) (s : UInt64) {value : Bytes}
    (hvalue : value.length ≤ maxValueLen) : Bounded (m.insert (encodeUserKey key s) value) := by
  intro k t x hx
  rw [ver_insert] at hx
  split_ifs at hx
  · by_cases ht : t = s
    · rw [ht, Function.update_self] at hx
      exact Option.some.inj hx ▸ hvalue
    · rw [Function.update_of_ne ht] at hx
      exact hm k t x hx
  · exact hm k t x hx

theorem Bounded.insert_system (hm : Bounded m) {p : Bytes} (hp : p ∈ systemKeys) (value : Bytes) :
    Bounded (m.insert p value) := by
  intro k t x hx
  rw [ver_insert_system m hp] at hx
  exact hm k t x hx

theorem Bounded.removeAll (hm : Bounded m) (s : UInt64) (keys : List Bytes) :
    Bounded (physical.removeAll s keys m) := by
  induction keys generalizing m with
  | nil => exact hm
  | cons key keys ih => exact ih (hm.insert key s (by decide))

theorem Bounded.of_sameTable {m' : DB} (hm : Bounded m) (h : SameTable m' m) : Bounded m' := by
  intro k s x hx
  rw [ver, h.sameUser _ (header_encodeUserKey k s)] at hx
  exact hm k s x hx

theorem admitted_of_point (hm : WellFormed m) (hkey : (0 : UInt8) ∉ key)
    (h : (physical.point m key).isSome) : Admitted key := by
  rcases eq_or_ne key [] with rfl | hne
  · rw [physical_point] at h
    obtain ⟨value, hvalue⟩ := Option.isSome_iff_exists.mp h
    obtain ⟨e, hseek, -⟩ := Option.bind_eq_some_iff.mp hvalue
    obtain ⟨he, -, hpre, -⟩ := (seekLatest_eq_some_iff m [] e).mp hseek
    rcases hm.nullFree e.1 e.2 he with ⟨k, s, hk, heq⟩ | hsys
    · rw [heq] at hpre he
      rcases eq_or_ne k [] with rfl | hk'
      · exact hm.admitted [] s e.2 he
      · exact absurd ((keyPrefix_eq_iff hk' hk ..).mp hpre) hk'
    · exact absurd (header_of_keyPrefix_eq hpre) (not_header_of_mem_systemKeys hsys)
  · rw [physical_point, seekLatest_eq hm.nullFree hne hkey, Option.bind_map] at h
    exact admitted_of_live hm h

/-- What accepted requests store. -/
def Stored (m : DB) : Prop := WellFormed m ∧ Bounded m

theorem stored_succeeds (s : UInt64) : Succeeds physical accepted Stored s where
  put op m hop hm := ⟨hm.1.insert hop.1 s op.value, hm.2.insert op.key s hop.2⟩
  delete del m hdel hm := by
    obtain ⟨key, rangeEnd, prevKv, count⟩ := del
    cases rangeEnd with
    | none =>
      refine ⟨_, rfl, removeAll_wellFormed hm.1 (fun k hk => ?_) s, hm.2.removeAll s _⟩
      rw [mem_map] at hk
      obtain ⟨kv, hkv, rfl⟩ := hk
      obtain ⟨value, hvalue, rfl⟩ := Option.map_eq_some_iff.mp (Option.mem_toList.mp hkv)
      exact admitted_of_point hm.1 hdel (Option.isSome_iff_exists.mpr ⟨value, hvalue⟩)
    | some high =>
      have htarget : IsTarget key (some high) := hdel
      obtain ⟨found, hfound, -⟩ : ∃ found, physical.targets ⟨key, some high, prevKv, count⟩ _ = .ok found ∧ _ :=
        targets_eq hm.1 htarget
      exact ⟨found, hfound, removeAll_wellFormed hm.1
        (fun k hk => (live_of_targets hm.1 htarget hfound k hk).1) s, hm.2.removeAll s _⟩
  range op m hop hm := by
    obtain ⟨key, rangeEnd, limit, keysOnly, countOnly⟩ := op
    cases rangeEnd with
    | none => exact ⟨_, rfl⟩
    | some high => exact ⟨_, by rw [Store.lookup, Option.isSome_some, if_pos rfl, page_eq hm.1 _ hop.1 hop.2]⟩
  gc m hm := ⟨hm.1.insert_system (by simp [systemKeys]) _, hm.2.insert_system (by simp [systemKeys]) _⟩

theorem stored_empty : Stored ∅ := ⟨wellFormed_empty, fun k s x hx => by simp [ver] at hx⟩

theorem run_stored {batches : List (List Entry)} (h : ∀ e ∈ batches.flatten, ∃ cmd, e.cmd = some cmd ∧ Proposed cmd) :
    ∃ r, runAll updateStep batches FSM.fresh = .ok r ∧ Stored r.2.db := by
  have hleaf : ∀ a ∈ runLeaves batches, Proposed a.2 := by
    intro a ha
    obtain ⟨e, he, ha⟩ := mem_flatMap.mp ha
    obtain ⟨cmd, hcmd, hproposed⟩ := h e he
    rw [Entry.leaves, hcmd] at ha
    dsimp only at ha
    rw [leaves_of_ne hproposed.elementary, mem_singleton] at ha
    subst ha
    exact ⟨hproposed.elementary, hproposed.complete, hproposed.shape⟩
  obtain ⟨rs, hrs, hstored⟩ := runAll_ok (f := physical.handleLeaf) (I := Stored) (fun a ha x hx =>
    (stored_succeeds a.1).leaf_ok (hleaf a ha).elementary (hleaf a ha).complete (hleaf a ha).shape hx) stored_empty
  have hdec : ∀ e ∈ batches.flatten, e.cmd ≠ none := by
    intro e he
    obtain ⟨cmd, hcmd, -⟩ := h e he
    simp [hcmd]
  have hagree := runBatches_agree hdec (p := FSM.fresh) (SameTable.refl ∅)
  rw [hrs] at hagree
  obtain ⟨r, hr, hsame⟩ := hagree.ok_right
  exact ⟨r, hr, hstored.1.of_sameTable hsame, hstored.2.of_sameTable hsame⟩

theorem proposal_proposed {batches : List (List (UInt64 × Request))} (hfit : ∀ a ∈ batches.flatten, PutsFit a.2) :
    ∀ e ∈ (batches.map (List.filterMap proposal)).flatten, ∃ cmd, e.cmd = some cmd ∧ Proposed cmd := by
  intro e he
  rw [← filterMap_flatten] at he
  obtain ⟨a, ha, heq⟩ := mem_filterMap.mp he
  unfold proposal at heq
  split at heq
  · next cmd hcmd =>
    obtain rfl := Option.some.inj heq
    exact ⟨cmd, rfl, proposed_of_accept hcmd (hfit a ha)⟩
  · cases heq

/-- Every live key of a table with a fitting history of requests is one that a put may have,
and both a point read and a scan of the whole table find it. -/
theorem stored_keys_addressable (batches : List (List (UInt64 × Request)))
    (hfit : ∀ a ∈ batches.flatten, PutsFit a.2) :
    ∃ r, runAll updateStep (batches.map (List.filterMap proposal)) FSM.fresh = .ok r ∧
      ∀ k v, live (latest r.2.db k) = some v → k ≠ [] ∧ (0 : UInt8) ∉ k ∧ k.length ≤ 1024 ∧ v.length ≤ maxValueLen ∧
        singleLookup r.2.db ⟨k, none, 0, false, false⟩ = ⟨[⟨k, v⟩], false, 1⟩ ∧
        ∃ pages, iterate r.2.db ⟨wildcard, some wildcard, 0, false, false⟩ = .ok pages ∧
          ⟨k, v⟩ ∈ pages.flatMap RangeResponse.kvs := by
  obtain ⟨r, hr, hm, hbounded⟩ := run_stored (proposal_proposed hfit)
  refine ⟨r, hr, fun k v hlive => ?_⟩
  have hk : Admitted k := admitted_of_live hm (by rw [hlive]; rfl)
  refine ⟨hk.nonempty, hk.noNull, hk.length_le, ?_, ?_, _, iterate_eq hm _ (.inr rfl) (.inr rfl), ?_⟩
  · obtain ⟨⟨s, x⟩, hlatest, hx⟩ := Option.bind_eq_some_iff.mp hlive
    dsimp only at hx
    split_ifs at hx
    obtain rfl := Option.some.inj hx
    exact hbounded k s x ((latest_eq_iff hm.nullFree).mp hlatest).1
  · rw [singleLookup_eq]
    show pointResponse _ (physical.point r.2.db k) = _
    rw [point_eq hm hk, hlive]
    rfl
  · show _ ∈ (fillPages .kvPair 0 _ _ 0 0 .empty).flatMap RangeResponse.kvs
    rw [fillPages_kvs]
    refine mem_append_right _ ((mem_liveScan hm _).mpr ⟨⟨wildcard_le hk, .inl rfl⟩, hlive⟩)

/-- A put, a transaction that puts and deletes, and one that is refused. -/
def fittingRequests : List (List (UInt64 × Request)) :=
  [[(1, .put ⟨[0x74], [0x61], [0x31], false⟩),
    (2, .txn ⟨[0x74], [], [.put ⟨[0x62], [0x32], false⟩, .deleteRange ⟨[0x61], none, false, false⟩], []⟩)],
    [(3, .put ⟨[0x74], [], [0x33], false⟩)]]

theorem stored_keys_addressable_fittingRequests :
    ∃ r, runAll updateStep (fittingRequests.map (List.filterMap proposal)) FSM.fresh = .ok r ∧
      live (latest r.2.db [0x62]) = some [0x32] ∧
      singleLookup r.2.db ⟨[0x62], none, 0, false, false⟩ = ⟨[⟨[0x62], [0x32]⟩], false, 1⟩ := by
  have hfit : ∀ a ∈ fittingRequests.flatten, PutsFit a.2 := by
    simp [fittingRequests, PutsFit, v2MaxUserKeyLen, maxValueLen]
  obtain ⟨r, hr, hall⟩ := stored_keys_addressable fittingRequests hfit
  have hrun : (do
      let r ← runAll updateStep (fittingRequests.map (List.filterMap proposal)) FSM.fresh
      return live (latest r.2.db [0x62])) = Except.ok (some [0x32]) := by
    decide +kernel
  rw [hr] at hrun
  have hlive : live (latest r.2.db [0x62]) = some [0x32] := Except.ok.inj hrun
  exact ⟨r, hr, hlive, (hall _ _ hlive).2.2.2.2.1⟩

/-- A transaction puts an empty key, which is then live and cannot be looked up. -/
theorem stored_key_unaddressable :
    ∃ r, runAll updateStep ([[(1, Request.txn ⟨[0x74], [], [.put ⟨[], [0x31], false⟩], []⟩)]].map
        (List.filterMap proposal)) FSM.fresh = .ok r ∧
      live (latest r.2.db []) = some [0x31] ∧ singleLookup r.2.db ⟨[], none, 0, false, false⟩ = .empty := by
  have hrun : (do
      let r ← runAll updateStep ([[(1, Request.txn ⟨[0x74], [], [.put ⟨[], [0x31], false⟩], []⟩)]].map
        (List.filterMap proposal)) FSM.fresh
      return (live (latest r.2.db []), singleLookup r.2.db ⟨[], none, 0, false, false⟩)) =
      Except.ok (some [0x31], .empty) := by
    decide +kernel
  simpa only [bind_eq_ok_iff, pure_eq_ok_iff, Prod.mk.injEq] using hrun

end Armada.Server
