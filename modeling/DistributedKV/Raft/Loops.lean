import DistributedKV.Raft.Threads

/-!
# The apply loop

What makes a node apply entries: `runApplyLoop` waits at its `select` until `commitAdvancedCh` holds
a signal or its ticker fires, and calls `applyCommitted`. Whoever has advanced `commitIndex` sends a
signal after the critical section (`signalCommitAdvanced`). The channel holds one signal; another
one is dropped.

The calls are those of `Raft.Threads`, where `applyCommitted` can be called at any time; here only
the loop calls it.
-/

namespace DistributedKV.Raft

open Theory (Program)

/-- A process, with the content of `commitAdvancedCh`. -/
structure RunningNode where
  process : Process
  commitAdvanced : Bool := false

inductive Goroutine where
  | call (t : Task)
  /-- A call before `signalCommitAdvanced`, with what it returns afterwards. -/
  | signalCommitAdvanced (r : Result)
  /-- `runApplyLoop` at its `select`. -/
  | applyLoop
  /-- `runApplyLoop` in `applyCommitted`. -/
  | applying (t : Task)

/-- The case that a `select` takes. -/
inductive Wake where
  | stop
  | commitAdvanced
  | tick
  deriving DecidableEq

/-- How the storage calls of a step end, and which case a `select` takes. -/
structure LoopInput where
  storage : StorageOutcome := {}
  wake : Wake := .commitAdvanced

/-- The step has advanced `commitIndex`, and a signal follows it. -/
def Task.signals (me : Member) (o : StorageOutcome) (n : Node) (t : Task) : Bool :=
  match t with
  | .commitSet _ | .tryAdvanceCommitIndex _ => n.commitIndex < (t.effect me o n).commitIndex
  | _ => false

def Goroutine.exec (s : RunningNode) (i : LoopInput) :
    Goroutine → RunningNode × (Goroutine ⊕ Result)
  | .call t =>
    let (process, next) := threads.exec s.process t i.storage
    ({ s with process }, match next with
      | .inl t' => .inl (.call t')
      | .inr r =>
        if t.signals s.process.me i.storage s.process.node then .inl (.signalCommitAdvanced r)
        else .inr r)
  | .signalCommitAdvanced r => ({ s with commitAdvanced := true }, .inr r)
  | .applyLoop =>
    match i.wake with
    | .stop => (s, .inr .returned)
    | .commitAdvanced =>
      if s.commitAdvanced then
        ({ s with commitAdvanced := false }, .inl (.applying .applyCommitted))
      else (s, .inl .applyLoop)
    | .tick => (s, .inl (.applying .applyCommitted))
  | .applying t =>
    let (process, next) := threads.exec s.process t i.storage
    ({ s with process }, match next with
      | .inl t' => .inl (.applying t')
      | .inr _ => .inl .applyLoop)

/-- The goroutines of a process. A new process has a new channel. -/
def goroutines : Program RunningNode Goroutine LoopInput Result Options where
  exec s g i := g.exec s i
  recover s opts := (threads.recover s.process opts).map fun process => { process }

end DistributedKV.Raft
