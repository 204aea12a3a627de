import DistributedKV.Storage.Engine

/-!
# The key-value state machine

`StateMachine` of `internal/kv/state_machine.go`. Its keys are Go strings, which are byte strings,
and it shares its engine with whatever else keeps its keys off the prefix `d/`. Each operation holds
the mutex from beginning to end and is one step.
-/

namespace DistributedKV.KV

open Storage

/-- `d/` -/
def dataPrefix : Bytes := [0x64, 0x2f]

def dataKey (key : Bytes) : Bytes := dataPrefix ++ key

/-- The loop of `prefixUpperBound`, at `i` places from the start. A byte wraps around. -/
def prefixUpperBoundFrom (upper : Bytes) : Nat → Option Bytes
  | 0 => none
  | i + 1 =>
    let upper := upper.modify i (· + 1)
    if upper[i]? ≠ some 0 then some (upper.take (i + 1)) else prefixUpperBoundFrom upper i

/-- `none` is the `nil` that an iterator takes as no bound. -/
def prefixUpperBound (pre : Bytes) : Option Bytes := prefixUpperBoundFrom pre pre.length

structure StateMachine where
  engine : Engine
  lastApplied : Nat := 0

def newStateMachine (engine : Engine) : StateMachine := { engine }

/-- `Snapshot`: a Go map. -/
structure Snapshot where
  pairs : Std.ExtTreeMap Bytes Bytes compare := ∅

/-- The order in which `range` visits the pairs, which can be any. -/
structure Snapshot.Order (snap : Snapshot) where
  visited : List (Bytes × Bytes)
  perm : visited.Perm snap.pairs.toList

namespace StateMachine

def get (s : StateMachine) (key : Bytes) : Option Bytes := s.engine.get (dataKey key)

/-- The end of an operation that has written to the engine: `lastApplied` moves on only if the
write succeeded. -/
def written (s : StateMachine) (index : Nat) (r : Engine × Bool) : StateMachine × Bool :=
  if r.2 then (⟨r.1, index⟩, true) else ({ s with engine := r.1 }, false)

def applyPut (ok : Bool) (s : StateMachine) (index : Nat) (key value : Bytes) :
    StateMachine × Bool :=
  s.written index (s.engine.commit ok [.set (dataKey key) value])

def applyDelete (ok : Bool) (s : StateMachine) (index : Nat) (key : Bytes) :
    StateMachine × Bool :=
  s.written index (s.engine.commit ok [.delete (dataKey key)])

def applyNoop (s : StateMachine) (index : Nat) : StateMachine := { s with lastApplied := index }

/-- The iterator that `Dump` and `Restore` walk through. -/
def data (s : StateMachine) : List (Bytes × Bytes) :=
  s.engine.newIterator dataPrefix (prefixUpperBound dataPrefix)

def dump (s : StateMachine) : Snapshot where
  pairs := s.data.foldl (fun pairs kv => pairs.insert (kv.1.drop dataPrefix.length) kv.2) ∅

def restore (ok : Bool) (s : StateMachine) (snap : Snapshot) (order : snap.Order)
    (appliedIndex : Nat) : StateMachine × Bool :=
  let b : Batch :=
    (s.data.map fun kv => .delete kv.1) ++ order.visited.map fun kv => .set (dataKey kv.1) kv.2
  s.written appliedIndex (s.engine.commit ok b)

end StateMachine

end DistributedKV.KV
