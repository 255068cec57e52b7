import Armada.Ordered.Map
import Armada.Ordered.Loop
import Armada.Keys.Codec

/-! The storage engine as the table state machine uses it: a finite ordered map
from physical keys to values, iterators over the keys between two bounds, and
write batches. An indexed batch reads through to the committed map; a batch that
is not indexed cannot be read. -/

namespace Armada.Pebble

open Ordered Keys

/-- The committed contents of a database, or the contents a reader of it sees. -/
abbrev DB := OrdMap Bytes Bytes

structure IterOptions where
  lowerBound : Option Bytes
  upperBound : Option Bytes

def IterOptions.unbounded : IterOptions := ⟨none, none⟩

def IterOptions.within (o : IterOptions) (k : Bytes) : Bool :=
  (match o.lowerBound with | none => true | some lo => decide (lo ≤ k)) &&
    (match o.upperBound with | none => true | some hi => decide (k < hi))

/-- An iterator: the records within its bounds in key order, and those from its
current position on. It is exhausted when none are left. -/
structure Iterator where
  keys : List (Bytes × Bytes)
  rest : List (Bytes × Bytes)

def newIter (db : DB) (o : IterOptions) : Iterator :=
  ⟨db.toList.filter (fun e => o.within e.1), []⟩

namespace Iterator

variable (it : Iterator)

def valid : Bool := !it.rest.isEmpty

def first : Iterator := { it with rest := it.keys }

def next : Iterator := { it with rest := it.rest.tail }

def seekGE (key : Bytes) : Iterator :=
  { it with rest := it.keys.dropWhile (fun e => e.1 < key) }

/-- The first record at or after `key` that shares its prefix. -/
def seekPrefixGE (key : Bytes) : Iterator :=
  let found := it.keys.dropWhile (fun e => e.1 < key)
  { it with rest := found.takeWhile (fun e => keyPrefix e.1 = keyPrefix key) }

/-- The positions at which the body of `for it.First(); it.Valid(); advance(it)`
runs, each with the records from there on. -/
def stops (advance : Iterator → Iterator) (it : Iterator) : List (List (Bytes × Bytes)) :=
  (visits valid advance it.keys.length it.first).map rest

end Iterator

/-- A write batch: the records set so far, in order. -/
structure Batch where
  indexed : Bool
  sets : List (Bytes × Bytes)

namespace Batch

def newBatch : Batch := ⟨false, []⟩

def newIndexedBatch : Batch := ⟨true, []⟩

def set (b : Batch) (key value : Bytes) : Batch := { b with sets := b.sets ++ [(key, value)] }

def apply (b other : Batch) : Batch := { b with sets := b.sets ++ other.sets }

/-- The map an indexed batch over `db` presents. -/
def overlay (b : Batch) (db : DB) : DB := OrdMap.insertAll db b.sets

def commit (b : Batch) (db : DB) : DB := OrdMap.insertAll db b.sets

end Batch

end Armada.Pebble
