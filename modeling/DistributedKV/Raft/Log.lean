import Mathlib.Algebra.Group.Nat.Defs
import Mathlib.Data.List.Basic

/-!
# The persistent log

`PersistentLog` of `internal/raft/log.go` over a storage engine whose keys are typed: the `l/`
keys are a table of entries (the key of an entry is its index), the four `m/` keys are fields.
An absent `m/` key reads as the zero value, which is what `OpenPersistentLog` takes for it.

Every mutator makes one batch. Its argument `commit` is the outcome of `Batch.Commit`; a failed
commit leaves the engine and the index fields alone, but cache entries dropped before the commit
stay dropped. The Boolean result says whether the Go method returns a nil error.

Indices and terms are natural numbers, and a loop over indices is given by its result. The
arithmetic and the loops on `uint64` are in `Raft.WordLog`.
-/

namespace DistributedKV.Raft

abbrev NodeID := String

/-- A `[]byte` value. -/
abbrev Value := List UInt8

inductive EntryType where
  | noop
  | put
  | delete
  deriving DecidableEq

structure Entry where
  index : Nat
  term : Nat
  type : EntryType
  key : String := ""
  value : Value := []
  clientRequestID : String := ""
  deriving DecidableEq

/-! ## Tables of entries keyed by index -/

def lookup (es : List Entry) (i : Nat) : Option Entry :=
  es.find? fun e => e.index = i

def insertEntry (es : List Entry) (e : Entry) : List Entry :=
  e :: es.filter fun x => x.index ≠ e.index

/-- Delete the keys `lo`, ..., `hi`; nothing when `hi < lo`. -/
def deleteRange (lo hi : Nat) (es : List Entry) : List Entry :=
  es.filter fun e => e.index < lo ∨ hi < e.index

/-! ## The log -/

/-- The durable content of the Raft engine. -/
structure Engine where
  log : List Entry := []
  currentTerm : Nat := 0
  votedFor : String := ""
  lastIncludedIndex : Nat := 0
  lastIncludedTerm : Nat := 0

structure PersistentLog where
  engine : Engine
  firstIndex : Nat
  lastIndex : Nat
  lastIncludedIndex : Nat
  lastIncludedTerm : Nat
  currentTerm : Nat
  votedFor : String
  tailCache : List Entry

def tailCacheLimit : Nat := 4096

inductive LogError where
  | compacted (index lastIncludedIndex : Nat)
  | notFound
  deriving DecidableEq

def openPersistentLog (engine : Engine) : PersistentLog where
  engine
  firstIndex := engine.lastIncludedIndex + 1
  lastIndex := engine.log.foldl (fun last e => max last e.index) engine.lastIncludedIndex
  lastIncludedIndex := engine.lastIncludedIndex
  lastIncludedTerm := engine.lastIncludedTerm
  currentTerm := engine.currentTerm
  votedFor := engine.votedFor
  tailCache := []

namespace PersistentLog

def setTermAndVote (commit : Bool) (pl : PersistentLog) (term : Nat) (votedFor : String) :
    PersistentLog × Bool :=
  if commit then
    ({ pl with
        engine := { pl.engine with currentTerm := term, votedFor }
        currentTerm := term
        votedFor }, true)
  else (pl, false)

/-! ### Accessors -/

def getLocked (pl : PersistentLog) (index : Nat) : Except LogError Entry :=
  if index ≤ pl.lastIncludedIndex then .error (.compacted index pl.lastIncludedIndex)
  else match lookup pl.engine.log index with
    | some e => .ok e
    | none => .error .notFound

/-- `Get`: the cache is asked before the boundary is. -/
def get (pl : PersistentLog) (index : Nat) : Except LogError Entry :=
  match lookup pl.tailCache index with
  | some e => .ok e
  | none => pl.getLocked index

def lastTerm (pl : PersistentLog) : Nat :=
  if pl.lastIndex = pl.lastIncludedIndex then pl.lastIncludedTerm
  else match pl.get pl.lastIndex with
    | .ok e => e.term
    | .error _ => 0

def termAt (pl : PersistentLog) (index : Nat) : Option Nat :=
  if index = pl.lastIncludedIndex then some pl.lastIncludedTerm
  else if index < pl.firstIndex ∨ pl.lastIndex < index then none
  else match pl.get index with
    | .ok e => some e.term
    | .error _ => none

/-- `Range`: the entries `lo`, ..., `hi`, each read as `Get` reads it, or the first error. -/
def range (pl : PersistentLog) (lo hi : Nat) : Except LogError (List Entry) :=
  (List.range' lo (hi + 1 - lo)).mapM pl.get

/-! ### Mutators -/

/-- `lastIndex` is the one from before the append, and the subtraction is on `uint64`. -/
def evictTailCache (lastIndex : Nat) (cache : List Entry) : List Entry :=
  if cache.length ≤ tailCacheLimit then cache
  else
    let threshold := (lastIndex + 2 ^ 64 - tailCacheLimit) % 2 ^ 64
    cache.filter fun e => threshold ≤ e.index

def appendEntries (commit : Bool) (pl : PersistentLog) : List Entry → PersistentLog × Bool
  | [] => (pl, true)
  | first :: rest =>
    let entries := first :: rest
    let cache := deleteRange first.index pl.lastIndex pl.tailCache
    if commit then
      let firstIndex :=
        if pl.lastIncludedIndex + 1 < pl.firstIndex then pl.lastIncludedIndex + 1
        else pl.firstIndex
      ({ pl with
          engine := { pl.engine with
            log := entries.foldl insertEntry
              (deleteRange first.index pl.lastIndex pl.engine.log) }
          tailCache := evictTailCache pl.lastIndex (entries.foldl insertEntry cache)
          lastIndex := (rest.getLastD first).index
          firstIndex := if firstIndex = 0 then first.index else firstIndex }, true)
    else ({ pl with tailCache := cache }, false)

/-- `TruncateSuffix`, which no other part of the program calls. -/
def truncateSuffix (commit : Bool) (pl : PersistentLog) (start : Nat) : PersistentLog × Bool :=
  if pl.lastIndex < start then (pl, true)
  else
    let cache := deleteRange start pl.lastIndex pl.tailCache
    if commit then
      ({ pl with
          engine := { pl.engine with log := deleteRange start pl.lastIndex pl.engine.log }
          tailCache := cache
          lastIndex := if start = pl.firstIndex then pl.lastIncludedIndex else start - 1 }, true)
    else ({ pl with tailCache := cache }, false)

def compactPrefix (commit : Bool) (pl : PersistentLog) (index term : Nat) :
    PersistentLog × Bool :=
  if index ≤ pl.lastIncludedIndex then (pl, true)
  else
    let stop := min index pl.lastIndex
    let cache := deleteRange pl.firstIndex stop pl.tailCache
    if commit then
      ({ pl with
          engine := { pl.engine with
            log := deleteRange pl.firstIndex stop pl.engine.log
            lastIncludedIndex := index
            lastIncludedTerm := term }
          tailCache := cache
          lastIncludedIndex := index
          lastIncludedTerm := term
          firstIndex := index + 1
          lastIndex := max pl.lastIndex index }, true)
    else ({ pl with tailCache := cache }, false)

/-- `RestoreSnapshotBoundary` discards the whole log, whatever it holds. -/
def restoreSnapshotBoundary (commit : Bool) (pl : PersistentLog) (index term : Nat) :
    PersistentLog × Bool :=
  if commit then
    ({ pl with
        engine := { pl.engine with
          log := deleteRange pl.firstIndex pl.lastIndex pl.engine.log
          lastIncludedIndex := index
          lastIncludedTerm := term }
        tailCache := []
        lastIncludedIndex := index
        lastIncludedTerm := term
        firstIndex := index + 1
        lastIndex := index }, true)
  else ({ pl with tailCache := [] }, false)

end PersistentLog

end DistributedKV.Raft
