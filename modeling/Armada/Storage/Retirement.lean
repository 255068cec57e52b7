import Armada.Storage.Majority

/-! What the coordinator of a recovery can still do once another node has removed its
record. Its writes name versions from before the removal. They are refused as long as the
table has a record, which is then a newer one; a write that finds no record is taken
whatever its version. -/

namespace Armada.Storage

open Ordered Program Kv List Function

/-- The coordinator holds a record of its table with a version up to a bound, and is not
about to swap in the shard `r`. -/
def Pc.Held (name : String) (bound r : UInt64) : Pc → Prop
  | .idle => True
  | .holding stage record ver | .waiting _ stage record ver _ => record.table = name ∧ ver ≤ bound ∧
    (stage = .drive → record.phase = .swapping → record.recoveryID ≠ r)

section
variable {V : Type} (codec : ManagerCodec V) (cfg : ManagerConfig) (name : String)

/-- A record of the coordinator in the store. -/
def OwnRecord (m : MapStore V) (record : RecoveryRecord) (ver : UInt64) : Prop :=
  getRecovery codec m name = some (record, ver) ∧ record.coordinator = cfg.nodeID

/-- What every step of the coordinator leaves: versions up to the bound, and no table that
is served by `r`. -/
structure Kept (bound r : UInt64) (ticket : ℕ) (out : Coordinator × Option (Proposal V)) : Prop where
  pc : out.1.pc.Held name bound r
  record : ∀ value ver, out.2 = some (.set (recoveryKey name) value ver) → ver ≤ bound ∧
    ∀ record, codec.record.decode value = some record → record.table = name
  table : ∀ value ver, out.2 = some (.set (storedTableName name) value ver) →
    ∀ tbl, codec.table.decode value = some tbl → tbl.clusterID ≠ r
  waiting : ∀ t stage record ver, out.1.pc = .waiting t stage record ver true →
    t = ticket ∧ ∃ value v, out.2 = some (.set (recoveryKey name) value v)

end

section
variable {V : Type} {codec : ManagerCodec V} {cfg : ManagerConfig} {name : String} {bound r : UInt64}
variable {l : Coordinator} {record : RecoveryRecord} {ver : UInt64} {ticket : ℕ} {stage : Stage}

theorem Pc.Held.elsewhere (htable : record.table = name) (hver : ver ≤ bound) (hstage : stage ≠ .drive) :
    (Pc.holding stage record ver).Held name bound r :=
  ⟨htable, hver, fun h => absurd h hstage⟩

theorem kept_stop : Kept codec name bound r ticket l.stop where
  pc := trivial
  record := nofun
  table := nofun
  waiting := nofun

theorem kept_goto (hpc : (Pc.holding stage record ver).Held name bound r) :
    Kept codec name bound r ticket (l.goto stage record ver) where
  pc := hpc
  record := nofun
  table := nofun
  waiting := nofun

theorem kept_put (htable : record.table = name) (hver : ver ≤ bound) (hstage : stage ≠ .drive) :
    Kept codec name bound r ticket (l.put codec ticket stage record ver) where
  pc := .elsewhere htable hver hstage
  record value v h := by
    obtain ⟨-, rfl, rfl⟩ := Proposal.set.inj (Option.some.inj h)
    refine ⟨hver, fun record' hdecode => ?_⟩
    rw [codec.record.lossless] at hdecode
    exact Option.some.inj hdecode ▸ htable
  table value v h := absurd (Proposal.set.inj (Option.some.inj h)).1 (recoveryKey_ne_storedTableName _ _)
  waiting t stage' record' ver' h := by
    obtain ⟨rfl, -⟩ := Pc.waiting.inj h
    exact ⟨rfl, codec.record.encode record, ver, htable ▸ rfl⟩

variable {tblVer : UInt64} {tbl : Table}

theorem kept_propose_table (hpc : (Pc.holding stage record ver).Held name bound r) (hcluster : tbl.clusterID ≠ r) :
    Kept codec name bound r ticket (l.propose ticket (setTableVersion codec tbl tblVer) stage record ver) where
  pc := hpc
  record value v h := absurd (Option.some.inj h) (setTableVersion_ne _ _ value v)
  table value v h tbl' hdecode := by
    obtain ⟨-, rfl, -⟩ := Proposal.set.inj (Option.some.inj h)
    rw [codec.table.lossless] at hdecode
    exact Option.some.inj hdecode ▸ hcluster
  waiting t stage' record' ver' h := by cases h

theorem kept_propose_delete {key : String} {keyVer : UInt64} (hpc : (Pc.holding stage record ver).Held name bound r) :
    Kept codec name bound r ticket (l.propose ticket (.delete key keyVer) stage record ver) where
  pc := hpc
  record := nofun
  table := nofun
  waiting t stage' record' ver' h := by cases h

/-- A value of the table's key that is not a table served by `r`. -/
def NotServed (codec : ManagerCodec V) (r : UInt64) (value : V) : Prop :=
  ∀ tbl, codec.table.decode value = some tbl → tbl.clusterID ≠ r

variable {m : MapStore V}

theorem clusterID_ne (hr : r ≠ 0) (hm : ∀ pair, m[storedTableName name]? = some pair → NotServed codec r pair.value)
    (h : getTableVersion codec m name = some (tbl, tblVer)) : tbl.clusterID ≠ r := by
  unfold getTableVersion at h
  split at h
  · obtain ⟨rfl, -⟩ := Prod.mk.inj (Option.some.inj h)
    exact fun h0 => hr h0.symm
  · next pair hpair =>
    obtain ⟨tbl', hdecode, heq⟩ := Option.map_eq_some_iff.mp h
    obtain ⟨rfl, -⟩ := Prod.mk.inj heq
    exact hm pair hpair tbl' hdecode

theorem kept_pin (hr : r ≠ 0) (hm : ∀ pair, m[storedTableName name]? = some pair → NotServed codec r pair.value)
    (hpc : (Pc.holding stage record ver).Held name bound r) :
    Kept codec name bound r ticket (l.pin codec ticket stage record ver m) := by
  unfold Coordinator.pin
  split
  · exact kept_stop
  · next tbl tblVer htbl =>
    have hcluster : tbl.clusterID ≠ r := clusterID_ne hr hm (hpc.1 ▸ htbl)
    split
    · exact kept_goto hpc
    · exact kept_propose_table hpc hcluster

theorem kept_swap (hphase : record.phase = .swapping) (hpc : (Pc.holding .drive record ver).Held name bound r) :
    Kept codec name bound r ticket (l.swap codec ticket record ver m) := by
  obtain ⟨htable, hver, hswap⟩ := hpc
  have hretire : (Pc.holding .retire record ver).Held name bound r := .elsewhere htable hver (by simp)
  unfold Coordinator.swap
  split
  · exact kept_stop
  · split
    · exact kept_propose_table hretire (hswap rfl hphase)
    · exact kept_goto hretire

theorem kept_act {a : CoordinatorStep} {out : Coordinator × Option (Proposal V)} (hr : r ≠ 0)
    (hrecords : ∀ record ver, OwnRecord codec cfg name m record ver → record.table = name ∧ ver ≤ bound ∧
    (record.phase = .swapping → record.recoveryID ≠ r))
    (htables : ∀ pair, m[storedTableName name]? = some pair → NotServed codec r pair.value)
    (hpc : l.pc.Held name bound r) (h : coordinatorAct codec cfg name a ticket m l = some out) :
    Kept codec name bound r ticket out := by
  refine (?_ : Leads (coordinatorAct codec cfg name a ticket m l) (Kept codec name bound r ticket)) out h
  -- The function of a phase, entered with an old record.
  have hdriven {phase : RecoveryPhase} {f : RecoveryRecord × UInt64 → Coordinator × Option (Proposal V)}
      (hf : ∀ record ver, (Pc.holding .drive record ver).Held name bound r → record.phase = phase →
        Kept codec name bound r ticket (f (record, ver))) :
      Leads ((l.driven phase).map f) (Kept codec name bound r ticket) := by
    intro out hout
    obtain ⟨record, ver, heq, hphase, rfl⟩ := driven_map_eq hout
    rw [heq] at hpc
    exact hf record ver hpc hphase
  have hold {stage : Stage} {record : RecoveryRecord} {ver : UInt64} (heq : l.pc = .holding stage record ver) :
      record.table = name ∧ ver ≤ bound := by
    rw [heq] at hpc
    exact ⟨hpc.1, hpc.2.1⟩
  have hgoto {l' : Coordinator} {stage : Stage} {record : RecoveryRecord} {ver : UInt64}
      (h : record.table = name ∧ ver ≤ bound) (hstage : stage ≠ .drive) :
      Kept codec name bound r ticket (l'.goto stage record ver) := kept_goto (.elsewhere h.1 h.2 hstage)
  cases a with
  | stop => exact .some kept_stop
  | begin incremental =>
    exact .guard fun _ => kept_put rfl (UInt64.le_iff_toNat_le.mpr (Nat.zero_le _)) (by decide)
  | completeDownload recoveryID =>
    refine .bind fun res hread => .ite (fun _ => .none) fun hrefuse => ?_
    simp only [not_or, not_not] at hrefuse
    obtain ⟨htable, hver, -⟩ := hrecords res.1 res.2 ⟨hread, hrefuse.2.1⟩
    exact .ite (fun _ => .some (kept_put htable hver (by decide))) fun _ => .unless fun _ =>
      kept_put htable hver (by decide)
  | read =>
    refine .bind fun res hread => .unless fun hrefuse => ?_
    simp only [not_or, not_not] at hrefuse
    obtain ⟨htable, hver, hswap⟩ := hrecords res.1 res.2 ⟨hread, hrefuse.2⟩
    exact kept_goto ⟨htable, hver, fun _ => hswap⟩
  | pin =>
    intro out h
    obtain ⟨stage, stage', record, ver, heq, hstage, rfl⟩ := pin_act_eq h
    rw [heq] at hpc
    obtain rfl | ⟨rfl, rfl⟩ := hstage
    · exact kept_pin hr htables hpc
    · exact kept_pin hr htables (.elsewhere hpc.1 hpc.2.1 (by simp))
  | load index =>
    refine hdriven fun record ver hheld _ => ?_
    dsimp only
    unfold Coordinator.load
    split_ifs
    · exact kept_stop
    · exact kept_propose_delete (.elsewhere hheld.1 hheld.2.1 (by simp))
    · exact kept_put hheld.1 hheld.2.1 (by decide)
  | redownload => exact hdriven fun _ _ hheld _ => kept_put hheld.1 hheld.2.1 (by decide)
  | abandon =>
    refine hdriven fun record ver hheld _ => ?_
    dsimp only
    unfold Coordinator.abandon abandonRecoveryLocked
    split
    · exact kept_stop
    · next p hp =>
      split at hp
      · cases hp
      · split at hp
        · cases hp
        · obtain rfl := Option.some.inj hp
          exact kept_propose_delete (.elsewhere hheld.1 hheld.2.1 (by simp))
  | seed =>
    refine hdriven fun record ver hheld _ => ?_
    dsimp only
    unfold Coordinator.seed
    split
    · exact kept_put hheld.1 hheld.2.1 (by decide)
    · exact hgoto ⟨hheld.1, hheld.2.1⟩ (by simp)
  | ensured =>
    rw [coordinatorAct]
    split
    · next heq => exact .some (hgoto (hold heq) (by simp))
    · exact .none
  | addLearner answer =>
    rw [coordinatorAct]
    split
    · next todo learners changed record ver heq =>
      have hheld := hold heq
      refine .some ?_
      unfold Coordinator.addLearner
      cases todo with
      | nil =>
        dsimp only
        split
        · exact kept_put hheld.1 hheld.2 (by decide)
        · exact hgoto hheld (by simp)
      | cons id todo =>
        dsimp only
        split_ifs
        · exact hgoto hheld (by simp)
        · exact hgoto hheld (by simp)
        · cases answer <;> exact hgoto hheld (by simp)
    · exact .none
  | addLearnerBreak =>
    rw [coordinatorAct]
    split
    · next heq => exact .some (hgoto (hold heq) (by simp))
    · exact .none
  | decide reports timedOut =>
    rw [coordinatorAct]
    split
    · next heq =>
      have hheld := hold heq
      refine .some ?_
      unfold Coordinator.decide
      dsimp only
      split_ifs
      · exact kept_put hheld.1 hheld.2 (by decide)
      · exact kept_stop
      · exact kept_stop
      · exact kept_put hheld.1 hheld.2 (by decide)
    · exact .none
  | promote reports => exact hdriven fun _ _ hheld _ => hgoto ⟨hheld.1, hheld.2.1⟩ (by simp)
  | promoteNext answer =>
    rw [coordinatorAct]
    split
    · next todo record ver heq =>
      have hheld := hold heq
      refine .some ?_
      unfold Coordinator.promote
      cases todo with
      | nil => exact kept_put hheld.1 hheld.2 (by decide)
      | cons id todo =>
        dsimp only
        split_ifs
        · exact hgoto hheld (by simp)
        · exact kept_put hheld.1 hheld.2 (by simp)
        · cases answer with
          | ok => exact kept_put hheld.1 hheld.2 (by simp)
          | failed => exact kept_stop
          | lost => exact kept_stop
    · exact .none
  | swap => exact hdriven fun _ _ hheld hphase => kept_swap hphase hheld
  | retire =>
    rw [coordinatorAct]
    split
    · next heq => exact .some (kept_propose_delete (.elsewhere (hold heq).1 (hold heq).2 (by simp)))
    · exact .none

/-! ### Runs -/

def IsJournal (name : String) (p : Proposal V) : Prop := ∃ value ver, p = .set (recoveryKey name) value ver

/-- The coordinator is behind: the versions it holds, has proposed and can read are up to a
bound, and nothing that it has or can read has the shard `r` swapped in. -/
structure Behind (codec : ManagerCodec V) (cfg : ManagerConfig) (name : String) (bound r : UInt64)
    (s : Cluster V Party Coordinator) : Prop where
  fresh : s.Fresh
  own : ∀ m ∈ s.replicas.states, ∀ record ver, OwnRecord codec cfg name m record ver →
    ver ≤ bound ∧ (record.phase = .swapping → record.recoveryID ≠ r)
  named : s.Everywhere (recoveryKey name) fun value => ∀ record, codec.record.decode value = some record →
    record.coordinator = cfg.nodeID → record.table = name
  foreign : ∀ t p, s.tickets t = .pending .other p → isForeign codec cfg name p = true
  tables : s.Everywhere (storedTableName name) (NotServed codec r)
  asked : ∀ t value ver, s.tickets t = .pending .coordinator (.set (recoveryKey name) value ver) → ver ≤ bound
  pc : (s.locals .coordinator).pc.Held name bound r
  waiting : ∀ t stage record ver, (s.locals .coordinator).pc = .waiting t stage record ver true → t < s.next ∧
    (∀ n p, s.tickets t = .pending n p → n = .coordinator ∧ IsJournal name p) ∧
      ∀ n p res, s.tickets t = .committed n p res → res.value = .versionMismatch ∨ res.data.ver ≤ bound

theorem OwnRecord.exists_pair (h : OwnRecord codec cfg name m record ver) :
    ∃ pair, m[recoveryKey name]? = some pair ∧ codec.record.decode pair.value = some record ∧ pair.ver = ver := by
  have hread := h.1
  simp only [getRecovery, Option.bind_eq_bind, Option.bind_eq_some_iff, Option.pure_def, Option.some.injEq,
    Prod.mk.injEq] at hread
  obtain ⟨pair, hpair, record', hrecord', rfl, rfl⟩ := hread
  exact ⟨pair, hpair, hrecord', rfl⟩

/-- No other node makes `r` the serving shard. -/
def Elsewhere (codec : ManagerCodec V) (name : String) (r : UInt64) :
    Event Party (PartyStep V) → Cluster V Party Coordinator → Prop
  | .act .other (.foreign p) _, _ => ∀ value ver, p = .set (storedTableName name) value ver → NotServed codec r value
  | _, _ => True

variable {t : ℕ}

theorem answer_held {res : Result V} (hpc : l.pc.Held name bound r)
    (hwaiting : ∀ stage record ver, l.pc = .waiting t stage record ver true →
    res.value = .versionMismatch ∨ res.data.ver ≤ bound) : (coordinatorAnswer t res l).pc.Held name bound r ∧
    ∀ t' stage record ver journal, (coordinatorAnswer t res l).pc = .waiting t' stage record ver journal →
    l.pc = .waiting t' stage record ver journal ∧ t' ≠ t := by
  unfold coordinatorAnswer
  split
  · next t' stage record ver journal heq =>
    rw [heq] at hpc
    by_cases ht : t' = t
    · subst ht
      rw [if_neg (not_not.mpr rfl)]
      split
      · exact ⟨trivial, nofun⟩
      · next hgo =>
        refine ⟨⟨hpc.1, ?_, hpc.2.2⟩, nofun⟩
        cases journal with
        | false => exact hpc.2.1
        | true => exact (hwaiting stage record ver heq).resolve_left fun hm => hgo (Or.inl hm)
    · rw [if_pos ht]
      refine ⟨heq ▸ hpc, fun t'' stage' record' ver' journal' h => ⟨h, ?_⟩⟩
      obtain ⟨rfl, -⟩ := Pc.waiting.inj (heq.symm.trans h)
      exact ht
  · next hne => exact ⟨hpc, fun t' stage record ver journal h => absurd h (hne _ _ _ _ _)⟩

theorem Pc.Held.mono {bound' : UInt64} (hb : bound ≤ bound') {pc : Pc} (h : pc.Held name bound r) :
    pc.Held name bound' r := by
  cases pc with
  | idle => trivial
  | holding stage record ver => exact ⟨h.1, h.2.1.trans hb, h.2.2⟩
  | waiting t stage record ver journal => exact ⟨h.1, h.2.1.trans hb, h.2.2⟩

variable {index : UInt64} {p : Proposal V}

/-- A record that the coordinator reads after a proposal was there before, or is proposed. -/
theorem OwnRecord.of_effect (h : OwnRecord codec cfg name (p.effect index m) record ver) :
    OwnRecord codec cfg name m record ver ∨
    ∃ value v, p = .set (recoveryKey name) value v ∧ codec.record.decode value = some record := by
  by_cases hkey : p.key = recoveryKey name
  · obtain ⟨pair, hpair, hdecode, -⟩ := h.exists_pair
    rw [getElem?_effect, if_pos hkey] at hpair
    cases p with
    | set key value v =>
      obtain rfl := Option.some.inj hpair
      exact Or.inr ⟨value, v, congrArg (Proposal.set · value v) hkey, hdecode⟩
    | delete key v => cases hpair
  · refine Or.inl ⟨?_, h.2⟩
    rw [← h.1]
    simp only [getRecovery, getElem?_effect, if_neg hkey]

/-- The recovery into `r` has got to its swap. -/
def Swapped (codec : ManagerCodec V) (cfg : ManagerConfig) (name : String) (r : UInt64)
    (s : Cluster V Party Coordinator) : Prop :=
  ∃ m ∈ s.replicas.states, ∃ record ver, OwnRecord codec cfg name m record ver ∧ record.phase = .swapping ∧
    record.recoveryID = r

theorem behind_init : Behind codec cfg name 0 r (.init fun _ => .new) := by
  refine ⟨fun _ _ => rfl, fun m hm record ver hown => ?_, Cluster.everywhere_init _ _ _, nofun,
    Cluster.everywhere_init _ _ _, nofun, trivial, nofun⟩
  obtain ⟨pair, hpair, -⟩ := hown.exists_pair
  have hempty : (Replicas.start : Replicas V).newest[recoveryKey name]? = none := OrdMap.getElem?_empty _
  rw [mem_singleton.mp hm] at hpair
  exact absurd (hempty.symm.trans hpair) nofun

variable {s s' : Cluster V Party Coordinator}

/-- The record is gone: what the table has for a record is newer than all that the
coordinator has. -/
structure Retired (codec : ManagerCodec V) (cfg : ManagerConfig) (name : String) (bound r : UInt64)
    (s : Cluster V Party Coordinator) : Prop where
  behind : Behind codec cfg name bound r s
  later : bound ≤ s.replicas.index
  newer : ∀ pair, s.replicas.newest[recoveryKey name]? = some pair → bound < pair.ver

/-- No other node makes `r` the serving shard, and the writes of the coordinator find a
record. -/
def Fenced (codec : ManagerCodec V) (name : String) (r : UInt64) (e : Event Party (PartyStep V))
    (s : Cluster V Party Coordinator) : Prop :=
  Elsewhere codec name r e s ∧ ∀ t index, e = .commit t index → ∀ p, s.tickets t = .pending .coordinator p →
    IsJournal name p → (s.replicas.newest[recoveryKey name]?).isSome

theorem Retired.not_passes (hs : Retired codec cfg name bound r s)
    (hticket : s.tickets t = .pending .coordinator p) (hjournal : IsJournal name p)
    (hfound : (s.replicas.newest[recoveryKey name]?).isSome) : ¬ Passes s.replicas.newest p := by
  intro hpass
  obtain ⟨pair, hpair⟩ := Option.isSome_iff_exists.mp hfound
  obtain ⟨value, ver, rfl⟩ := hjournal
  have hver : pair.ver = ver := hpass pair hpair
  have hold := hs.behind.asked t value ver hticket
  exact absurd (hs.newer pair hpair) (not_lt.mpr (hver ▸ hold))

variable [Inhabited V]

theorem Behind.act (hr : r ≠ 0) (hs : Behind codec cfg name bound r s) {n : Party} {a : PartyStep V} {behind : ℕ}
    (hok : Elsewhere codec name r (.act n a behind) s)
    (h : Cluster.step (recoveryProtocol codec cfg name) (.act n a behind) s = some s') :
    Behind codec cfg name bound r s' := by
  have hfresh := hs.fresh.step h
  obtain ⟨m, hm, l, p, hact, hreplicas, -, hlocals, hnext, htickets⟩ := Cluster.act_cases h
  have htickets' : ∀ t, s'.tickets t = s.tickets t ∨ t = s.next ∧ ∃ p', p = some p' ∧ s'.tickets t = .pending n p' := by
    intro t
    rw [htickets]
    cases p with
    | none => exact Or.inl rfl
    | some p =>
      by_cases ht : t = s.next
      · exact Or.inr ⟨ht, p, rfl, by rw [ht]; exact update_self ..⟩
      · exact Or.inl (update_of_ne ht _ _)
  have hpending {t : ℕ} {n' : Party} {p' : Proposal V} (ht : s'.tickets t = .pending n' p') :
      s.tickets t = .pending n' p' ∨ n' = n ∧ p = some p' := by
    rcases htickets' t with heq | ⟨-, p'', hp'', heq⟩
    · exact .inl (heq ▸ ht)
    · rw [heq] at ht
      obtain ⟨rfl, rfl⟩ := Ticket.pending.inj ht
      exact .inr ⟨rfl, hp''⟩
  cases n with
  | coordinator =>
    cases a with
    | foreign p => cases hact
    | own a =>
      have hkept : Kept codec name bound r s.next (l, p) := by
        refine kept_act hr (fun record ver hown => ?_) (hs.tables.1 m hm) hs.pc hact
        obtain ⟨pair, hpair, hdecode, -⟩ := hown.exists_pair
        exact ⟨hs.named.1 m hm pair hpair record hdecode hown.2, hs.own m hm record ver hown⟩
      have hl : s'.locals .coordinator = l := by rw [hlocals, update_self]
      refine ⟨hfresh, hreplicas ▸ hs.own, hs.named.act hreplicas htickets fun value ver hp record hdecode _ =>
        (hkept.record value ver hp).2 record hdecode, fun t p' hp' => ?_,
        hs.tables.act hreplicas htickets hkept.table, fun t value ver ht => ?_, hl ▸ hkept.pc,
        fun t stage record ver hpc => ?_⟩
      · exact hs.foreign t p' ((hpending hp').resolve_right fun h => by cases h.1)
      · exact (hpending ht).elim (hs.asked t value ver) fun h => (hkept.record value ver h.2).1
      · obtain ⟨rfl, value, v, hp⟩ := hkept.waiting t stage record ver (hl ▸ hpc)
        obtain rfl : p = some (.set (recoveryKey name) value v) := hp
        have ht : s'.tickets s.next = .pending .coordinator (.set (recoveryKey name) value v) := by
          rw [htickets]
          exact update_self ..
        rw [ht]
        refine ⟨by omega, fun n p' hp' => ?_, fun n p' res hres => nomatch hres⟩
        obtain ⟨rfl, rfl⟩ := Ticket.pending.inj hp'
        exact ⟨rfl, value, v, rfl⟩
  | other =>
    cases a with
    | own a => cases hact
    | foreign p0 =>
      have hl : s'.locals .coordinator = s.locals .coordinator := by
        rw [hlocals, update_of_ne (by decide)]
      have hp : p = some p0 ∧ isForeign codec cfg name p0 = true := by
        simp only [recoveryProtocol] at hact
        split at hact
        · next hforeign => exact ⟨(Prod.mk.inj (Option.some.inj hact)).2.symm, hforeign⟩
        · cases hact
      obtain ⟨rfl, hforeign⟩ := hp
      refine ⟨hfresh, hreplicas ▸ hs.own,
        hs.named.act (n := .other) (p := some p0) hreplicas htickets fun value ver hp record hdecode hnode => ?_,
        fun t p' hp' => ?_,
        hs.tables.act (n := .other) (p := some p0) hreplicas htickets fun value ver hp =>
          hok value ver (Option.some.inj hp),
        fun t value ver ht => ?_, hl ▸ hs.pc, fun t stage record ver hpc => ?_⟩
      · obtain rfl := Option.some.inj hp
        simp [isForeign, hdecode, hnode] at hforeign
      · exact (hpending hp').elim (hs.foreign t p') fun h => Option.some.inj h.2 ▸ hforeign
      · exact hs.asked t value ver ((hpending ht).resolve_right fun h => by cases h.1)
      · obtain ⟨hlt, hrest⟩ := hs.waiting t stage record ver (hl ▸ hpc)
        have heq : s'.tickets t = s.tickets t := (htickets' t).resolve_right fun hnew => hlt.ne hnew.1
        exact ⟨by omega, heq ▸ hrest⟩

section
variable (hs : Behind codec cfg name bound r s)
include hs

variable {t : ℕ}

theorem Behind.answer (h : Cluster.step (recoveryProtocol codec cfg name) (.answer t) s = some s') :
    Behind codec cfg name bound r s' := by
  obtain ⟨n, p, res, hticket, hreplicas, -, hlocals, hnext, htickets⟩ := Cluster.answer_cases h
  have hold : ∀ t' x, x ≠ .unused → s'.tickets t' = x → s.tickets t' = x := by
    intro t' x hx hx'
    rw [htickets] at hx'
    exact Cluster.of_update_unused hx' hx
  -- The coordinator has learned of its proposal, or has not changed.
  have hpc : (s'.locals .coordinator).pc.Held name bound r ∧
      ∀ t' stage record ver, (s'.locals .coordinator).pc = .waiting t' stage record ver true →
        (s.locals .coordinator).pc = .waiting t' stage record ver true := by
    rw [hlocals]
    cases n with
    | other =>
      rw [update_of_ne (by decide)]
      exact ⟨hs.pc, fun t' stage record ver h => h⟩
    | coordinator =>
      rw [update_self]
      have hheld := answer_held (t := t) hs.pc fun stage record ver heq =>
        (hs.waiting t stage record ver heq).2.2 .coordinator p res hticket
      exact ⟨hheld.1, fun t' stage record ver heq => (hheld.2 t' stage record ver true heq).1⟩
  refine ⟨hs.fresh.step h, hreplicas ▸ hs.own, hs.named.answer h,
    fun t' p' hp' => hs.foreign t' p' (hold t' _ nofun hp'), hs.tables.answer h,
    fun t' value ver ht' => hs.asked t' value ver (hold t' _ nofun ht'), hpc.1, fun t' stage record ver heq => ?_⟩
  obtain ⟨hlt, hpending, hcommitted⟩ := hs.waiting t' stage record ver (hpc.2 t' stage record ver heq)
  exact ⟨hnext ▸ hlt, fun n p' hp' => hpending n p' (hold t' _ nofun hp'),
    fun n p' res' hres => hcommitted n p' res' (hold t' _ nofun hres)⟩

/-- A commit keeps the coordinator behind a bound that no version passes which it writes,
and behind which the records are that it can read. -/
theorem Behind.commit {index bound' : UInt64} (hb : bound ≤ bound')
    (h : Cluster.step (recoveryProtocol codec cfg name) (.commit t index) s = some s')
    (hown : ∀ m ∈ s'.replicas.states, ∀ record ver, OwnRecord codec cfg name m record ver →
    ver ≤ bound' ∧ (record.phase = .swapping → record.recoveryID ≠ r))
    (hwrite : ∀ p, s.tickets t = .pending .coordinator p → IsJournal name p → Passes s.replicas.newest p →
    index ≤ bound') : Behind codec cfg name bound' r s' := by
  obtain ⟨n, p, res, hticket, hcommit, -, hlocals, hnext, htickets⟩ := Cluster.commit_cases h
  have hold : ∀ t' n' p', s'.tickets t' = .pending n' p' → s.tickets t' = .pending n' p' := by
    intro t' n' p' hp'
    rw [htickets] at hp'
    by_cases ht : t' = t
    · rw [ht, update_self] at hp'
      cases hp'
    · rwa [update_of_ne ht] at hp'
  refine ⟨hs.fresh.step h, hown, hs.named.commit h, fun t' p' hp' => hs.foreign t' p' (hold t' _ p' hp'),
    hs.tables.commit h, fun t' value ver ht' => (hs.asked t' value ver (hold t' _ _ ht')).trans hb,
    hlocals ▸ hs.pc.mono hb, fun t' stage record ver heq => ?_⟩
  obtain ⟨hlt, hpending, hcommitted⟩ := hs.waiting t' stage record ver (hlocals ▸ heq)
  refine ⟨hnext ▸ hlt, fun n' p' hp' => hpending n' p' (hold t' n' p' hp'), fun n' p' res' hres => ?_⟩
  rw [htickets] at hres
  by_cases ht : t' = t
  · rw [ht, update_self] at hres
    obtain ⟨rfl, rfl, rfl⟩ := Ticket.committed.inj hres
    obtain ⟨rfl, hjournal⟩ := hpending n p (ht ▸ hticket)
    obtain ⟨hlt', ⟨hpass, hvalue, -⟩ | ⟨-, hvalue, -⟩⟩ := Replicas.commit_cases hcommit
    · exact Or.inr (Replicas.ver_of_commit hcommit hvalue ▸ hwrite p hticket hjournal hpass)
    · exact Or.inl hvalue
  · rw [update_of_ne ht] at hres
    exact (hcommitted n' p' res' hres).imp_right fun hle => hle.trans hb

theorem Behind.tick
    (h : Cluster.step (recoveryProtocol codec cfg name) .tick s = some s') : Behind codec cfg name bound r s' := by
  have hfresh := hs.fresh.step h
  obtain rfl := Option.some.inj h
  exact ⟨hfresh, hs.own, hs.named, hs.foreign, hs.tables, hs.asked, hs.pc, hs.waiting⟩

end

variable {e : Event Party (PartyStep V)}

/-- As long as the recovery has not got to its swap, the coordinator is behind the log. -/
theorem behind_step (hr : r ≠ 0) (hok : Elsewhere codec name r e s)
    (hs : ¬ Swapped codec cfg name r s → Behind codec cfg name s.replicas.index r s)
    (h : Cluster.step (recoveryProtocol codec cfg name) e s = some s') (hnot : ¬ Swapped codec cfg name r s') :
    Behind codec cfg name s'.replicas.index r s' := by
  cases e with
  | tick =>
    have hs' := (hs (by obtain rfl := Option.some.inj h; exact hnot)).tick h
    obtain rfl := Option.some.inj h
    exact hs'
  | act n a behind =>
    obtain ⟨m, -, l, p, -, hreplicas, -⟩ := Cluster.act_cases h
    rw [hreplicas]
    exact (hs (by rwa [Swapped, ← hreplicas])).act hr hok h
  | answer t =>
    obtain ⟨n, p, res, -, hreplicas, -⟩ := Cluster.answer_cases h
    rw [hreplicas]
    exact (hs (by rwa [Swapped, ← hreplicas])).answer h
  | commit t index =>
    obtain ⟨n, p, res, -, hcommit, -⟩ := Cluster.commit_cases h
    have hreplicas : s.replicas.index < index ∧ s'.replicas.index = index ∧
        ∀ m ∈ s.replicas.states, m ∈ s'.replicas.states := by
      obtain ⟨hlt, ⟨-, -, heq⟩ | ⟨-, -, heq⟩⟩ := Replicas.commit_cases hcommit
      · exact ⟨hlt, heq ▸ rfl, fun m hm => heq ▸ mem_cons_of_mem _ hm⟩
      · exact ⟨hlt, heq ▸ rfl, fun m hm => heq ▸ hm⟩
    obtain ⟨hlt, hindex, hsub⟩ := hreplicas
    have hbefore : ¬ Swapped codec cfg name r s := fun ⟨m, hm, hrest⟩ => hnot ⟨m, hsub m hm, hrest⟩
    refine (hs hbefore).commit (hindex ▸ hlt.le) h (fun m hm record ver hown => ⟨?_, fun hphase hid => ?_⟩)
      fun _ _ _ _ => hindex.ge
    · obtain ⟨pair, hpair, -, rfl⟩ := hown.exists_pair
      exact (s'.replicas.stamped m hm _ pair hpair).2.2
    · exact hnot ⟨m, hm, record, ver, hown, hphase, hid⟩

theorem Retired.commit (hs : Retired codec cfg name bound r s) (hok : Fenced codec name r (.commit t index) s)
    (h : Cluster.step (recoveryProtocol codec cfg name) (.commit t index) s = some s') :
    Retired codec cfg name bound r s' := by
  obtain ⟨n, p, res, hticket, hcommit, -⟩ := Cluster.commit_cases h
  have hrefused : ∀ p', s.tickets t = .pending .coordinator p' → IsJournal name p' → ¬ Passes s.replicas.newest p' :=
    fun p' hp' hjournal => hs.not_passes hp' hjournal (hok.2 t index rfl p' hp' hjournal)
  obtain ⟨hlt, ⟨hpass, -, heq⟩ | ⟨-, -, heq⟩⟩ := Replicas.commit_cases hcommit
  · refine ⟨hs.behind.commit le_rfl h (fun m hm record ver hown => ?_)
      (fun p' hp' hjournal hpass' => absurd hpass' (hrefused p' hp' hjournal)), ?_, fun pair hpair => ?_⟩
    · rw [heq] at hm
      rcases mem_cons.mp hm with rfl | hm
      · rcases OwnRecord.of_effect hown with hold | ⟨value, v, rfl, hdecode⟩
        · exact hs.behind.own _ (mem_cons_self ..) record ver hold
        · -- A record written past the check is another node's.
          cases n with
          | coordinator => exact absurd hpass (hrefused _ hticket ⟨value, v, rfl⟩)
          | other =>
            have hforeign := hs.behind.foreign t _ hticket
            simp [isForeign, hdecode, hown.2] at hforeign
      · exact hs.behind.own m hm record ver hown
    · rw [heq]
      exact hs.later.trans hlt.le
    · rw [heq] at hpair
      rcases of_effect hpair with hold | ⟨-, hver⟩
      · exact hs.newer pair hold
      · exact hver ▸ hs.later.trans_lt hlt
  · refine ⟨hs.behind.commit le_rfl h (heq ▸ hs.behind.own)
      (fun p' hp' hjournal hpass' => absurd hpass' (hrefused p' hp' hjournal)), ?_, heq ▸ hs.newer⟩
    rw [heq]
    exact hs.later.trans hlt.le

theorem Retired.step (hr : r ≠ 0) (hs : Retired codec cfg name bound r s)
    (hok : Fenced codec name r e s) (h : Cluster.step (recoveryProtocol codec cfg name) e s = some s') :
    Retired codec cfg name bound r s' := by
  cases e with
  | tick =>
    refine ⟨hs.behind.tick h, ?_, ?_⟩
    all_goals obtain rfl := Option.some.inj h
    · exact hs.later
    · exact hs.newer
  | act n a behind =>
    obtain ⟨m, -, l, p, -, hreplicas, -⟩ := Cluster.act_cases h
    exact ⟨hs.behind.act hr hok.1 h, hreplicas ▸ hs.later, hreplicas ▸ hs.newer⟩
  | answer t =>
    obtain ⟨n, p, res, -, hreplicas, -⟩ := Cluster.answer_cases h
    exact ⟨hs.behind.answer h, hreplicas ▸ hs.later, hreplicas ▸ hs.newer⟩
  | commit t index => exact hs.commit hok h

/-- The coordinator writes the record of the table, or makes `r` its serving shard. -/
def Revives (codec : ManagerCodec V) (name : String) (r : UInt64) (e : Event Party (PartyStep V))
    (s : Cluster V Party Coordinator) : Prop :=
  ∃ t index p, e = .commit t index ∧ s.tickets t = .pending .coordinator p ∧ Passes s.replicas.newest p ∧
    (IsJournal name p ∨ ∃ value ver tbl, p = .set (storedTableName name) value ver ∧
      codec.table.decode value = some tbl ∧ tbl.clusterID = r)

/-- A recovery whose record another node has removed stays retired, in every run in which
the recovery had not got to its swap and the writes of its coordinator find a record. -/
theorem retired_stays_retired (codec : ManagerCodec V) (cfg : ManagerConfig) (name : String)
    (before after : List (Event Party (PartyStep V))) (s s' : Cluster V Party Coordinator) (target : RecoveryRecord)
    (ver : UInt64) (t : ℕ) (index : UInt64) (hid : target.recoveryID ≠ 0)
    (hbefore : Throughout (Cluster.step (recoveryProtocol codec cfg name)) (Elsewhere codec name target.recoveryID)
      before (.init fun _ => .new))
    (hrun : runMachine (Cluster.step (recoveryProtocol codec cfg name)) before (.init fun _ => .new) = some s)
    (htarget : OwnRecord codec cfg name s.replicas.newest target ver)
    (habandon : s.tickets t = .pending .other (deleteRecovery target ver))
    (hcommit : Cluster.step (recoveryProtocol codec cfg name) (.commit t index) s = some s')
    (hearly : ¬ Swapped codec cfg name target.recoveryID s)
    (hafter : Throughout (Cluster.step (recoveryProtocol codec cfg name)) (Fenced codec name target.recoveryID)
      after s') : Throughout (Cluster.step (recoveryProtocol codec cfg name))
      (fun e s => ¬ Revives codec name target.recoveryID e s) after s' := by
  have hbehind : ¬ Swapped codec cfg name target.recoveryID s →
      Behind codec cfg name s.replicas.index target.recoveryID s :=
    runMachine_keeps_of (P := fun s => ¬ Swapped codec cfg name target.recoveryID s →
        Behind codec cfg name s.replicas.index target.recoveryID s)
      (fun e s s' hok hs h => behind_step hid hok hs h) hbefore (fun _ => behind_init) hrun
  have hnamed : target.table = name := by
    obtain ⟨pair, hpair, hdecode, -⟩ := htarget.exists_pair
    exact (hbehind hearly).named.1 _ (mem_cons_self ..) pair hpair target hdecode htarget.2
  -- The delete finds the version that it names, and the record is gone.
  have hpass : Passes s.replicas.newest (deleteRecovery target ver : Proposal V) := by
    intro pair hpair
    obtain ⟨pair', hpair', -, hver⟩ := htarget.exists_pair
    rw [deleteRecovery, Proposal.key, hnamed] at hpair
    rw [← Option.some.inj (hpair'.symm.trans hpair)]
    exact hver
  obtain ⟨hlt, hwrite⟩ := Cluster.commit_of_passes habandon hpass hcommit
  have hgone : s'.replicas.newest[recoveryKey name]? = none := by
    rw [hwrite]
    refine (getElem?_effect ..).trans (if_pos ?_)
    rw [deleteRecovery, Proposal.key, hnamed]
  have hearly' : ¬ Swapped codec cfg name target.recoveryID s' := by
    rintro ⟨m, hm, record, v, hown, hrest⟩
    obtain ⟨pair, hpair, -⟩ := hown.exists_pair
    rw [hwrite] at hm hgone
    rcases mem_cons.mp hm with rfl | hold
    · exact absurd (hgone.symm.trans hpair) nofun
    · exact hearly ⟨m, hold, record, v, hown, hrest⟩
  have hretired : Retired codec cfg name s'.replicas.index target.recoveryID s' :=
    ⟨behind_step (e := .commit t index) hid trivial hbehind hcommit hearly', le_rfl, fun pair hpair =>
      absurd (hgone.symm.trans hpair) nofun⟩
  refine Throughout.of_keeps (fun e s s' hok hs h => hs.step hid hok h) (fun e s hok hs => ?_) hafter hretired
  rintro ⟨t, index, p, rfl, hticket, hpass, hjournal | ⟨value, v, tbl, rfl, hdecode, hserved⟩⟩
  · exact hs.not_passes hticket hjournal (hok.2 t index rfl p hticket hjournal) hpass
  · exact hs.behind.tables.2 t .coordinator value v hticket tbl hdecode hserved

end

/-! ### A removed record -/

/-- A recovery into the shard 10001 that is about to load its snapshot, and another node that
is about to remove its record. -/
def loadingEvents : List (Event Party (PartyStep (RecoveryRecord ⊕ Table))) :=
  settled (.begin false) 0 1 ++ settled (.completeDownload 10001) 1 2 ++ settled .pin 2 3 ++ unsettled .read ++
    [.act .other (.foreign (.delete (recoveryKey "t") 2)) 0]

def loadingRecord : RecoveryRecord := ⟨"t", .loading, 10001, 1, [1, 2, 3], [], [], 0, false⟩

def otherRecord : RecoveryRecord := ⟨"t", .downloading, 0, 2, [1, 2, 3], [], [], 0, false⟩

/-- Another recovery begins before the coordinator writes its record. -/
def fencedEvents : List (Event Party (PartyStep (RecoveryRecord ⊕ Table))) :=
  [.act .other (.foreign (putRecovery managerCodec otherRecord 0)) 0, .commit 5 5,
    .act .coordinator (.own (.load 5)) 0, .commit 6 6]

/-- The coordinator goes on where it was, up to the swap. -/
def revivingEvents : List (Event Party (PartyStep (RecoveryRecord ⊕ Table))) :=
  unsettled .read ++ unsettled .seed ++ unsettled .ensured ++ unsettled (.addLearner .ok) ++
    unsettled (.addLearner .ok) ++
    settled (.addLearner .ok) 11 6 ++ settled (.decide caughtUpReports false) 12 7 ++ unsettled .read ++
    unsettled (.promote caughtUpReports) ++ settled (.promoteNext .ok) 15 8 ++ settled (.promoteNext .ok) 16 9 ++
    settled (.promoteNext .ok) 17 10 ++ unsettled .read ++ settled .swap 19 11

/-- The states of such runs. -/
abbrev RunsTo (es : List (Event Party (PartyStep (RecoveryRecord ⊕ Table))))
    (s : Cluster (RecoveryRecord ⊕ Table) Party Coordinator) : Prop :=
  runMachine (Cluster.step (recoveryProtocol managerCodec threeMembers "t")) es (.init fun _ => .new) = some s

variable {s : Cluster (RecoveryRecord ⊕ Table) Party Coordinator}

theorem observe {es : List (Event Party (PartyStep (RecoveryRecord ⊕ Table)))} (hrun : RunsTo es s) {α : Type}
    (f : Cluster (RecoveryRecord ⊕ Table) Party Coordinator → α) {a : α}
    (h : (runMachine (Cluster.step (recoveryProtocol managerCodec threeMembers "t")) es (.init fun _ => .new)).map f =
    some a) : f s = a := by
  rw [hrun] at h
  exact Option.some.inj h

def journalOf (s : Cluster (RecoveryRecord ⊕ Table) Party Coordinator) : Option (RecoveryRecord × UInt64) :=
  getRecovery managerCodec s.replicas.newest "t"

def tableOf (s : Cluster (RecoveryRecord ⊕ Table) Party Coordinator) : Option (Table × UInt64) :=
  getTableVersion managerCodec s.replicas.newest "t"

theorem fenced_fencedEvents (hrun : RunsTo (loadingEvents ++ [.commit 4 4]) s) :
    Throughout (Cluster.step (recoveryProtocol managerCodec threeMembers "t")) (Fenced managerCodec "t" 10001)
    fencedEvents s := by
  refine ⟨⟨fun value ver h => ?_, nofun⟩, fun s1 h1 => ⟨⟨trivial, fun t index h p hp => ?_⟩, fun s2 h2 =>
    ⟨⟨trivial, nofun⟩, fun s3 h3 => ⟨⟨trivial, fun t index h p _ _ => ?_⟩, fun _ _ => trivial⟩⟩⟩⟩
  · exact absurd (Proposal.set.inj h).1 (recoveryKey_ne_storedTableName _ _)
  · obtain ⟨rfl, rfl⟩ := Event.commit.inj h
    have howner : (s1.tickets 5).owner = some .other :=
      observe (runMachine_concat hrun h1) (fun s => (s.tickets 5).owner) (by decide +kernel)
    rw [hp] at howner
    cases howner
  · exact observe (runMachine_concat (runMachine_concat (runMachine_concat hrun h1) h2) h3)
      (fun s => (s.replicas.newest[recoveryKey "t"]?).isSome) (by decide +kernel)

theorem retired_stays_retired_fencedEvents : ∃ s s', RunsTo loadingEvents s ∧
      Cluster.step (recoveryProtocol managerCodec threeMembers "t") (.commit 4 4) s = some s' ∧
      RunsTo (loadingEvents ++ [.commit 4 4]) s' ∧
      Throughout (Cluster.step (recoveryProtocol managerCodec threeMembers "t"))
        (fun e s => ¬ Revives managerCodec "t" 10001 e s) fencedEvents s' := by
  have hruns : (runMachine (Cluster.step (recoveryProtocol managerCodec threeMembers "t"))
      (loadingEvents ++ [.commit 4 4]) (.init fun _ => .new)).isSome = true := by
    decide +kernel
  obtain ⟨s', hs'⟩ := Option.isSome_iff_exists.mp hruns
  have happend := hs'
  rw [runMachine_append] at happend
  obtain ⟨s, hs, hlast⟩ := Option.bind_eq_some_iff.mp happend
  obtain ⟨s'', hcommit, heq⟩ := Option.bind_eq_some_iff.mp hlast
  obtain rfl := Option.some.inj heq
  refine ⟨s, s'', hs, hcommit, hs', ?_⟩
  have htarget : journalOf s = some (loadingRecord, 2) := observe hs journalOf (by decide +kernel)
  have hphases : s.replicas.states.map (fun m => (getRecovery managerCodec m "t").map (·.1.phase)) =
      [some .loading, some .loading, some .downloading, none] :=
    observe hs (fun s => s.replicas.states.map fun m => (getRecovery managerCodec m "t").map (·.1.phase))
      (by decide +kernel)
  have habandon : s.tickets 4 = .pending .other (deleteRecovery loadingRecord 2) :=
    observe hs (fun s => s.tickets 4) (by decide +kernel)
  refine retired_stays_retired managerCodec threeMembers "t" loadingEvents fencedEvents s s'' loadingRecord 2 4 4
    (by decide) (throughout_of_forall ?_ _) hs ⟨htarget, rfl⟩ habandon hcommit ?_ (fenced_fencedEvents hs')
  · simp [loadingEvents, settled, unsettled, Elsewhere]
  · rintro ⟨m, hm, record, ver, ⟨hread, -⟩, hphase, -⟩
    have hmem := mem_map_of_mem (f := fun m => (getRecovery managerCodec m "t").map (·.1.phase)) hm
    rw [hphases, hread] at hmem
    simp [hphase] at hmem

/-- The record is removed, and no other one is there when the coordinator writes the next
phase with the version it has: its record is back, and in the end its shard serves. -/
theorem retired_revives : ∃ s s' s'', RunsTo (loadingEvents ++ [.commit 4 4]) s ∧ journalOf s = none ∧
      RunsTo (loadingEvents ++ [.commit 4 4] ++ settled (.load 5) 5 5) s' ∧
      journalOf s' = some ({ loadingRecord with phase := .seeding, seedIndex := 5 }, 5) ∧
      RunsTo (loadingEvents ++ [.commit 4 4] ++ settled (.load 5) 5 5 ++ revivingEvents) s'' ∧
      tableOf s'' = some (⟨"t", 10001, 0, true⟩, 11) := by
  have hrun : ∀ (es : List (Event Party (PartyStep (RecoveryRecord ⊕ Table)))),
      (runMachine (Cluster.step (recoveryProtocol managerCodec threeMembers "t")) es (.init fun _ => .new)).isSome →
        ∃ s, RunsTo es s := fun es h => Option.isSome_iff_exists.mp h
  obtain ⟨s, hs⟩ := hrun (loadingEvents ++ [.commit 4 4]) (by decide +kernel)
  obtain ⟨s', hs'⟩ := hrun (loadingEvents ++ [.commit 4 4] ++ settled (.load 5) 5 5) (by decide +kernel)
  obtain ⟨s'', hs''⟩ := hrun (loadingEvents ++ [.commit 4 4] ++ settled (.load 5) 5 5 ++ revivingEvents)
    (by decide +kernel)
  exact ⟨s, s', s'', hs, observe hs journalOf (by decide +kernel), hs', observe hs' journalOf (by decide +kernel),
    hs'', observe hs'' tableOf (by decide +kernel)⟩

end Armada.Storage
