import Armada.Pebble.Engine
import Armada.Proto.Messages

/-! Iteration over user keys. Every user key has one physical record for each of
its versions, newest first; a scan looks at the newest one, skips tombstones and
jumps to the next user key. A range read cuts the live records it finds into pages
below the message size limit. -/

namespace Armada.Fsm

open Ordered Keys Pebble Proto

inductive FsmError where
  | unmarshal | notIndexed | key (err : KeyError) | nilPointer | unknownCommandType
  deriving DecidableEq

def maxUint64 : UInt64 := 0xFFFFFFFFFFFFFFFF

def wildcard : Bytes := [0]

def tombstoneValue : Bytes := [0x00]

def isTombstone (val : Bytes) : Bool := val = tombstoneValue

def decodeKey (raw : Bytes) : Except FsmError Key := (decodeBytes raw).mapError .key

/-- The loop of `incrementRightmostByte`, last byte first. -/
def incrementReversed : Bytes → Bytes
  | [] => [1]
  | b :: bs => if b + 1 ≠ 0 then (b + 1) :: bs else (b + 1) :: incrementReversed bs

def incrementRightmostByte (k : Bytes) : Bytes :=
  if k.isEmpty then k else (incrementReversed k.reverse).reverse

def latestMinKey : Bytes := [0]

def latestMaxKey : Bytes := List.replicate v2MaxUserKeyLen 0xFF

def minEncodedUserKey : Bytes := encodeUserKey latestMinKey maxUint64

def maxEncodedUserKey : Bytes := encodeUserKey latestMaxKey 0

/-- Moves the iterator from a record of one user key to the first record of the
next one. -/
def iterNextUserKey (piter : Iterator) (currentPebbleKey : Bytes) : Iterator :=
  if currentPebbleKey.length ≤ v2SeqLen ∨ currentPebbleKey.headD 0 ≠ v2 then piter.next
  else
    let prefixLen := currentPebbleKey.length - v2SeqLen
    let seekKey := currentPebbleKey.take prefixLen ++ List.replicate v2SeqLen 0xFF
    let piter := piter.seekGE seekKey
    match piter.rest with
    | [] => piter
    | (k, _) :: _ => if k = seekKey then piter.next else piter

def nextUserKey (piter : Iterator) : Iterator :=
  match piter.rest with
  | [] => piter
  | (k, _) :: _ => iterNextUserKey piter k

def iterOptionsForBounds (low high : Bytes) : IterOptions :=
  { lowerBound := some (encodeUserKey low maxUint64)
    upperBound := some (if high = wildcard then incrementRightmostByte maxEncodedUserKey
      else encodeUserKey high maxUint64) }

/-! ### Pages -/

/-- 4 MiB less a sentinel of 1 KiB. -/
def maxRangeSize : ℕ := 4 * 1024 * 1024 - 1024

/-- The loop of `sizeOfVarint`; a 64-bit number takes at most nine shifts. -/
def sizeOfVarintLoop : ℕ → ℕ → ℕ
  | 0, _ => 1
  | n + 1, x => if x ≥ 0x80 then 1 + sizeOfVarintLoop n (x >>> 7) else 1

def sizeOfVarint (x : ℕ) : ℕ := sizeOfVarintLoop 9 x

def sizeRangeResponseKVEntry (keyLen valueLen : ℕ) : ℕ :=
  let keySize := if keyLen > 0 then 1 + keyLen + sizeOfVarint keyLen else 0
  let valueSize := if valueLen > 0 then 1 + valueLen + sizeOfVarint valueLen else 0
  1 + (keySize + valueSize) + sizeOfVarint (keySize + valueSize)

/-- Which function fills the entries of a response, and which one sizes them. -/
inductive FillMode where
  | keyOnly | countOnly | kvPair

def iterFuncsFromReq (req : RangeOp) : FillMode :=
  if req.keysOnly then .keyOnly else if req.countOnly then .countOnly else .kvPair

/-- `addKVPair`, `addKeyOnly` and `addCountOnly`. -/
def FillMode.fill (mode : FillMode) (key value : Bytes) (response : RangeResponse) : RangeResponse :=
  match mode with
  | .kvPair =>
    let kvs := response.kvs ++ [⟨key, value⟩]
    { response with kvs := kvs, count := kvs.length }
  | .keyOnly => { response with kvs := response.kvs ++ [⟨key, []⟩], count := response.count + 1 }
  | .countOnly => { response with count := response.count + 1 }

/-- `sizeKVPair`, `sizeKeyOnly` and `sizeCountOnly`. -/
def FillMode.size (mode : FillMode) (key value : Bytes) : ℕ :=
  match mode with
  | .kvPair => sizeRangeResponseKVEntry key.length value.length
  | .keyOnly => sizeRangeResponseKVEntry key.length 0
  | .countOnly => 0

/-- The loop of `iterate`: `i` entries were filled so far, `responseSize` of them
bytes in the page being filled. -/
def iteratePages (mode : FillMode) (limit : ℤ) :
    List (List (Bytes × Bytes)) → ℕ → ℕ → RangeResponse → Except FsmError (List RangeResponse)
  | [], _, _, response => .ok [response]
  | [] :: _, _, _, response => .ok [response]
  | ((pebbleKey, value) :: older) :: stops, i, responseSize, response => do
    let k ← decodeKey pebbleKey
    if isTombstone value then
      iteratePages mode limit stops i responseSize response
    else if (i : ℤ) = limit ∧ limit ≠ 0 then
      return [{ response with more := nonempty older }]
    else
      let entrySize := mode.size k.key value
      if responseSize + entrySize ≥ maxRangeSize then
        let pages ← iteratePages mode limit stops (i + 1) entrySize (mode.fill k.key value .empty)
        return { response with more := true } :: pages
      else
        iteratePages mode limit stops (i + 1) (responseSize + entrySize)
          (mode.fill k.key value response)

/-- The pages a range read yields, in order. -/
def iterate (reader : DB) (req : RangeOp) : Except FsmError (List RangeResponse) :=
  let piter := newIter reader (iterOptionsForBounds req.key (req.rangeEnd.getD []))
  iteratePages (iterFuncsFromReq req) req.limit (piter.stops nextUserKey) 0 0 .empty

end Armada.Fsm
