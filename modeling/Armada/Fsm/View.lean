import Armada.Fsm.Effect

/-! Storages read through the map they present. A table shows its readers a map from
user keys to values, and all reads but two can be answered from that map: a range
compare, which needs its range settled, and the flag of a limited range read. -/

namespace Armada.Fsm

open Ordered Keys Pebble Proto Program

/-- The pairs of a map in a range, in order. -/
def mapRange (view : OrdMap Bytes Bytes) (low high : Bytes) : List KeyValue :=
  (view.toList.filter fun e => InRange low high e.1).map fun e => ⟨e.1, e.2⟩

theorem mem_mapRange (view : OrdMap Bytes Bytes) (low high : Bytes) (kv : KeyValue) :
    kv ∈ mapRange view low high ↔ InRange low high kv.key ∧ view[kv.key]? = some kv.value := by
  simp only [mapRange, List.mem_map, List.mem_filter, decide_eq_true_eq]
  constructor
  · rintro ⟨e, ⟨he, hin⟩, rfl⟩
    exact ⟨hin, (view.mem_toList _ _).mp he⟩
  · rintro ⟨hin, hval⟩
    exact ⟨(kv.key, kv.value), ⟨(view.mem_toList _ _).mpr hval, hin⟩, rfl⟩

theorem mapRange_sorted (view : OrdMap Bytes Bytes) (low high : Bytes) :
    (mapRange view low high).Pairwise (fun a b => a.key < b.key) := by
  rw [mapRange, List.pairwise_map]
  exact view.toList_ascending.filter _

/-- Whether a limited read of the pairs reports that more follows. -/
def mapMore (req : RangeOp) (pairs : List KeyValue) : Bool := req.limit.toNat + 1 < pairs.length

/-- A storage that is read through a map. -/
def Store.ofView {S : Type} (view : S → OrdMap Bytes Bytes) (write : S → Bytes → UInt64 → Bytes → S)
    (remove : S → Bytes → UInt64 → S) : Store S where
  point x key := (view x)[key]?
  scan x low high := .ok (mapRange (view x) low high)
  compareRange x cmp rangeEnd := liveCompare cmp (mapRange (view x) cmp.key rangeEnd)
  page x req :=
    let pairs := mapRange (view x) req.key (req.rangeEnd.getD [])
    .ok (livePage req (mapMore req pairs) pairs)
  write := write
  remove := remove
  setHorizon x _ := x

/-- The database shows its readers the map. -/
structure Shows (m : DB) (view : OrdMap Bytes Bytes) : Prop where
  wellFormed : WellFormed m
  live : ∀ k, live (latest m k) = view[k]?

namespace Shows

variable {m : DB} {view : OrdMap Bytes Bytes} (h : Shows m view)
include h

theorem liveScan_eq (low high : Bytes) : liveScan m low high = mapRange view low high := by
  apply eq_of_pairwise_of_mem (r := fun a b : KeyValue => a.key < b.key)
    (fun a b hab hba => lt_asymm hab hba) (liveScan_sorted h.wellFormed low high)
    (mapRange_sorted view low high)
  intro kv
  rw [mem_liveScan h.wellFormed, mem_mapRange, h.live]

theorem point_eq {key : Bytes} (hkey : Admitted key) : physical.point m key = view[key]? := by
  rw [Fsm.point_eq h.wellFormed hkey, h.live]

theorem targets_eq {S : Type} {X : Store S} {x : S} (hpoint : ∀ key, X.point x key = view[key]?)
    (hscan : ∀ low high, X.scan x low high = .ok (mapRange view low high)) {del : DeleteRangeOp}
    (hdel : IsTarget del.key del.rangeEnd) : physical.targets del m = X.targets del x := by
  obtain ⟨key, rangeEnd, prevKv, count⟩ := del
  cases rangeEnd with
  | some high =>
    simp only [Store.targets, hscan]
    rw [scan_eq h.wellFormed hdel.1 hdel.2, h.liveScan_eq]
  | none => simp only [Store.targets, hpoint, h.point_eq hdel]

end Shows

section
variable {S : Type} {view : S → OrdMap Bytes Bytes} {write : S → Bytes → UInt64 → Bytes → S}
  {remove : S → Bytes → UInt64 → S} {R : DB → S → Prop} {G : Guard DB}
  {Q : RangeResponse → RangeResponse → Prop}

/-- The database simulates a storage that is read through the map it shows, when writes
keep it so, range compares are settled and the flags of range reads are related. -/
theorem physical_simulates_ofView (hview : ∀ m x, R m x → Shows m (view x)) (hput : ∀ s op m x, R m x → G.put s op m →
      Admitted op.key ∧ R (physical.write m op.key s op.value) (write x op.key s op.value))
    (hdelete : ∀ s del m x, R m x → G.delete s del m → IsTarget del.key del.rangeEnd ∧
      ∀ found, physical.targets del m = .ok found → R (physical.removeAll s (found.map KeyValue.key) m)
          ((Store.ofView view write remove).removeAll s (found.map KeyValue.key) x))
    (hcompare : ∀ cmp m x, R m x → G.compare cmp m → IsTarget cmp.key cmp.rangeEnd ∧
      ∀ high ∈ cmp.rangeEnd, Settled m cmp high)
    (hrange : ∀ op m x, R m x → G.range op m → IsTarget op.key op.rangeEnd ∧ (∀ r, Q r r) ∧
      let pairs := mapRange (view x) op.key (op.rangeEnd.getD [])
      op.rangeEnd.isSome → Q (livePage op (moreFollows m op) pairs) (livePage op (mapMore op pairs) pairs))
    (hgc : ∀ s m x, R m x → G.gc s m → R (physical.setHorizon m s) x) :
    Simulates physical (Store.ofView view write remove) R G Q where
  put s op m x hR hG := ⟨fun _ => (hview m x hR).point_eq (hput s op m x hR hG).1, (hput s op m x hR hG).2⟩
  delete s del m x hR hG := by
    obtain ⟨htarget, hkeep⟩ := hdelete s del m x hR hG
    rw [← (hview m x hR).targets_eq (X := Store.ofView view write remove) (x := x) (fun _ => rfl)
      (fun _ _ => rfl) htarget]
    cases htargets : physical.targets del m with
    | error e => rfl
    | ok found => exact ⟨rfl, hkeep found htargets⟩
  compare cmp m x hR hG := by
    obtain ⟨htarget, hsettled⟩ := hcompare cmp m x hR hG
    have hshows := hview m x hR
    cases hr : cmp.rangeEnd with
    | none =>
      rw [hr] at htarget
      simp only [Store.compareOne, hr, hshows.point_eq htarget]
      rfl
    | some high =>
      rw [hr] at htarget hsettled
      simp only [Store.compareOne, hr]
      rw [(compareRange_eq_liveCompare_iff hshows.wellFormed htarget.1 htarget.2).mpr (hsettled high rfl),
        hshows.liveScan_eq]
      rfl
  range op m x hR hG := by
    obtain ⟨htarget, hrefl, hpage⟩ := hrange op m x hR hG
    have hshows := hview m x hR
    cases hr : op.rangeEnd with
    | none =>
      rw [hr] at htarget
      simp only [Store.lookup, hr, Option.isSome_none, Bool.false_eq_true, if_false, hshows.point_eq htarget]
      exact hrefl _
    | some high =>
      rw [hr] at htarget
      have hphysical := page_eq hshows.wellFormed op htarget.1 (by rw [hr]; exact htarget.2)
      have hsome : op.rangeEnd.isSome := by rw [hr]; rfl
      rw [Store.lookup, Store.lookup, if_pos hsome, if_pos hsome, hphysical, hshows.liveScan_eq]
      exact hpage hsome
  gc s m x hR hG := hgc s m x hR hG

end

end Armada.Fsm
