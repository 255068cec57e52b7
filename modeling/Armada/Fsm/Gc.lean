import Armada.Fsm.Command

/-! The sweep that removes old versions. It walks the user records of a snapshot, decides
at the first version below the horizon of every user key where the removal of its older
versions starts, and jumps to the next user key. The removals are range deletions,
committed to the database as it is by then. -/

namespace Armada.Fsm

open Ordered Keys Pebble Proto

/-- The first key after all versions with this prefix: its separator becomes `0x01`. -/
def gcPrefixUpper (pre : Bytes) : Bytes := pre.dropLast ++ [0x01]

/-- The physical key right after this one among the versions of its user key. -/
def incrementStoredSeqno (physKey : Bytes) : Bytes :=
  let seqStart := physKey.length - v2SeqLen
  physKey.take seqStart ++ bigEndian (ofBigEndian (physKey.drop seqStart) + 1)

/-- The iterator of a sweep. `hides` tells which records the block property filter keeps
from it. -/
def gcIter (hides : Bytes → Bool) (snap : DB) : Iterator :=
  let iter := newIter snap ⟨some minEncodedUserKey, some (incrementRightmostByte maxEncodedUserKey)⟩
  { iter with keys := iter.keys.filter fun e => !hides e.1 }

/-- How the loop of `runGC` moves on: past all versions of a user key at the first one
below the horizon, else to the next record. -/
def gcAdvance (gcIndex : UInt64) (iter : Iterator) : Iterator :=
  match iter.rest with
  | [] => iter
  | (physKey, _) :: _ =>
    match decodeBytes physKey with
    | .error _ => iter.next
    | .ok k =>
      if k.keyType = typeUser ∧ k.seqno < gcIndex then
        iter.seekGE (gcPrefixUpper (physKey.take (physKey.length - v2SeqLen)))
      else iter.next

/-- The loop of `runGC`: the ranges to delete. -/
def gcRanges (gcIndex : UInt64) :
    List (List (Bytes × Bytes)) → Bytes → Bool → Except FsmError (List (Bytes × Bytes))
  | [], _, _ => .ok []
  | [] :: _, _, _ => .ok []
  | ((physKey, value) :: _) :: stops, lastPrefix, hasLiveAbove => do
    let k ← decodeKey physKey
    if k.keyType ≠ typeUser then gcRanges gcIndex stops lastPrefix hasLiveAbove
    else
      let pre := physKey.take (physKey.length - v2SeqLen)
      let hasLiveAbove := if lastPrefix = pre then hasLiveAbove else false
      if k.seqno ≥ gcIndex then gcRanges gcIndex stops pre true
      else
        let rangeLo := if hasLiveAbove || isTombstone value then physKey else incrementStoredSeqno physKey
        let ranges ← gcRanges gcIndex stops pre hasLiveAbove
        return (rangeLo, gcPrefixUpper pre) :: ranges

/-- A sweep that took the snapshot `snap` and commits its batches to `db`. -/
def runGC (hides : Bytes → Bool) (snap db : DB) (gcIndex : UInt64) : Except FsmError DB :=
  if gcIndex = 0 then .ok db
  else do
    let ranges ← gcRanges gcIndex ((gcIter hides snap).stops (gcAdvance gcIndex)) [] false
    return ranges.foldl (fun db range => OrdMap.deleteRange db range.1 range.2) db

end Armada.Fsm
