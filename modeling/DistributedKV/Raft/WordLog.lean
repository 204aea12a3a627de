import DistributedKV.Raft.Log
import DistributedKV.Theory.CountingLoop

/-!
# The log on 64-bit words

`PersistentLog` has unbounded indices and describes a loop by what it does in the end. Here its
functions are given again where that makes a difference: indices are `uint64`, sums and differences
wrap around, and the loops are those of `internal/raft/log.go`, with `fuel` for the turns they may
take. The result `none` says that the call has not returned: a loop is still running, or a `make`
has panicked.
-/

namespace DistributedKV.Raft.WordLog

open Theory (forTo)

def succ (i : Nat) : Nat := (i + 1) % 2 ^ 64

def pred (i : Nat) : Nat := (i + 2 ^ 64 - 1) % 2 ^ 64

def openPersistentLog (engine : Engine) : PersistentLog :=
  { Raft.openPersistentLog engine with firstIndex := succ engine.lastIncludedIndex }

/-- `Range`, where `room` is the number of entries that the runtime can reserve memory for. -/
def range (room fuel : Nat) (pl : PersistentLog) (lo hi : Nat) :
    Option (Except LogError (List Entry)) :=
  if hi < lo then some (.ok [])
  else if room < succ (hi - lo) then none
  else
    match forTo 64 (fun i entries => (pl.get i).map fun e => entries ++ [e]) fuel lo hi [] with
    | .ok none => none
    | .ok (some entries) => some (.ok entries)
    | .error err => some (.error err)

def deleteKey (i : Nat) (es : List Entry) : List Entry := es.filter fun e => e.index ≠ i

/-- The loop that deletes the keys `lo`, ..., `hi`, in the table that the batch leaves on disk and
in the cache. -/
def deleteLoop (fuel lo hi : Nat) (tables : List Entry × List Entry) :
    Option (List Entry × List Entry) :=
  Id.run (forTo 64 (fun i tables => pure (deleteKey i tables.1, deleteKey i tables.2))
    fuel lo hi tables)

def appendEntries (fuel : Nat) (commit : Bool) (pl : PersistentLog) :
    List Entry → Option (PersistentLog × Bool)
  | [] => some (pl, true)
  | first :: rest =>
    let entries := first :: rest
    (deleteLoop fuel first.index pl.lastIndex (pl.engine.log, pl.tailCache)).map fun tables =>
      if commit then
        let firstIndex :=
          if succ pl.lastIncludedIndex < pl.firstIndex then succ pl.lastIncludedIndex
          else pl.firstIndex
        ({ pl with
            engine := { pl.engine with log := entries.foldl insertEntry tables.1 }
            tailCache := PersistentLog.evictTailCache pl.lastIndex
              (entries.foldl insertEntry tables.2)
            lastIndex := (rest.getLastD first).index
            firstIndex := if firstIndex = 0 then first.index else firstIndex }, true)
      else ({ pl with tailCache := tables.2 }, false)

def truncateSuffix (fuel : Nat) (commit : Bool) (pl : PersistentLog) (start : Nat) :
    Option (PersistentLog × Bool) :=
  if pl.lastIndex < start then some (pl, true)
  else
    (deleteLoop fuel start pl.lastIndex (pl.engine.log, pl.tailCache)).map fun tables =>
      if commit then
        ({ pl with
            engine := { pl.engine with log := tables.1 }
            tailCache := tables.2
            lastIndex := if start = pl.firstIndex then pl.lastIncludedIndex else pred start }, true)
      else ({ pl with tailCache := tables.2 }, false)

def compactPrefix (fuel : Nat) (commit : Bool) (pl : PersistentLog) (index term : Nat) :
    Option (PersistentLog × Bool) :=
  if index ≤ pl.lastIncludedIndex then some (pl, true)
  else
    let stop := min index pl.lastIndex
    (deleteLoop fuel pl.firstIndex stop (pl.engine.log, pl.tailCache)).map fun tables =>
      if commit then
        ({ pl with
            engine := { pl.engine with
              log := tables.1
              lastIncludedIndex := index
              lastIncludedTerm := term }
            tailCache := tables.2
            lastIncludedIndex := index
            lastIncludedTerm := term
            firstIndex := succ index
            lastIndex := max pl.lastIndex index }, true)
      else ({ pl with tailCache := tables.2 }, false)

/-- `RestoreSnapshotBoundary`, whose loop leaves the cache alone: it is replaced as a whole. -/
def restoreSnapshotBoundary (fuel : Nat) (commit : Bool) (pl : PersistentLog) (index term : Nat) :
    Option (PersistentLog × Bool) :=
  (deleteLoop fuel pl.firstIndex pl.lastIndex (pl.engine.log, [])).map fun tables =>
    if commit then
      ({ pl with
          engine := { pl.engine with
            log := tables.1
            lastIncludedIndex := index
            lastIncludedTerm := term }
          tailCache := []
          lastIncludedIndex := index
          lastIncludedTerm := term
          firstIndex := succ index
          lastIndex := index }, true)
    else ({ pl with tailCache := [] }, false)

end DistributedKV.Raft.WordLog
