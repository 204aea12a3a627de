import DistributedKV.Theory.Journal
import Mathlib.Data.List.Basic

/-!
# The storage engine

`storage.Engine` as its interface describes it: a map of byte strings that is iterated over in the
byte-lexicographic order of its keys, with batches of writes that are committed as a whole or not at
all. Reads succeed; a write is given whether it does.
-/

namespace DistributedKV.Storage

abbrev Bytes := List UInt8

structure Engine where
  content : Std.ExtTreeMap Bytes Bytes compare := ∅

inductive Write where
  | set (key value : Bytes)
  | delete (key : Bytes)

/-- The writes of a batch, in the order in which they were added. -/
abbrev Batch := List Write

namespace Engine

/-- `Get`; `none` is `ErrNotFound`. -/
def get (e : Engine) (key : Bytes) : Option Bytes := e.content[key]?

def write (e : Engine) : Write → Engine
  | .set key value => ⟨e.content.insert key value⟩
  | .delete key => ⟨e.content.erase key⟩

/-- `Commit`, or a single `Set` or `Delete`, with whether it succeeded. -/
def commit (ok : Bool) (e : Engine) (b : Batch) : Engine × Bool :=
  if ok then (b.foldl write e, true) else (e, false)

/-- What an iterator over `[lowerBound, upperBound)` walks through. -/
def newIterator (e : Engine) (lowerBound : Bytes) (upperBound : Option Bytes) :
    List (Bytes × Bytes) :=
  e.content.toList.filter fun kv =>
    (compare lowerBound kv.1).isLE && upperBound.all fun u => (compare kv.1 u).isLT

end Engine

/-! ## Disks -/

/-- An engine on a disk. Its batches reach the disk in the order of their commits; the
`WriteOptions` of a commit say whether it waits until they are there. -/
abbrev Disk := Theory.Journal Engine

namespace Disk

def get (d : Disk) (key : Bytes) : Option Bytes := d.current.get key

def commit (ok sync : Bool) (d : Disk) (b : Batch) : Disk × Bool :=
  if ok then (d.write sync (b.foldl Engine.write d.current), true) else (d, false)

def newIterator (d : Disk) (lowerBound : Bytes) (upperBound : Option Bytes) :
    List (Bytes × Bytes) :=
  d.current.newIterator lowerBound upperBound

end Disk

end DistributedKV.Storage
