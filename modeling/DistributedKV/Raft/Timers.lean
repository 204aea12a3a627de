import DistributedKV.Raft.Cluster

/-!
# Timers

What makes a node stand for election: `runTimerLoop` waits at its `select` until a handler has sent
a signal to `electionResetCh`, its timer has fired or its heartbeat ticker has ticked. The loop is
busy while `startElection` or a round of heartbeats runs, and elections are started by nothing else.

A cluster is given a clock and the loop of each node. Time passes between the steps. The runtime
lets a timer expire at any moment from its deadline on, and sends on its channel in a step of its
own: the loop can stop a timer, find its channel empty, set it again and only then get the value.
-/

namespace DistributedKV.Raft

/-- The durations of `Options`, in nanoseconds. -/
structure Timing where
  electionTimeoutMin : Int
  electionTimeoutMax : Int
  heartbeatInterval : Int

/-- `r` is what the generator draws; `Int63n` brings it below the length of the interval. -/
def electionTimeout (r : Nat) (min max : Int) : Int :=
  if max ≤ min then min else min + r % (max - min)

/-- What `runTimerLoop` sets its timer to. -/
def Timing.timeout (t : Timing) (r : Nat) : Int :=
  t.electionTimeoutMin + electionTimeout r 0 (t.electionTimeoutMax - t.electionTimeoutMin)

/-! ## Timers of the runtime -/

/-- The channel of a timer, with room for one value. The runtime takes an expired timer out of its
heap before it sends on the channel: `sends` counts the expiries whose value has not been sent. -/
structure TimeChan where
  sends : Nat := 0
  fired : Bool := false

/-- A value that finds another one in the channel is dropped. -/
def TimeChan.send (ch : TimeChan) : Option TimeChan :=
  match ch.sends with
  | 0 => none
  | k + 1 => some { sends := k, fired := true }

/-- A `time.Timer`: when it expires, if it is active. -/
structure Timer extends TimeChan where
  deadline : Option Int := none

namespace Timer

/-- The answer tells whether the timer was active. It is `false` also while the value of the last
expiry is on its way. -/
def stop (tm : Timer) : Bool × Timer := (tm.deadline.isSome, { tm with deadline := none })

/-- A value that is in the channel stays there, and one that is on its way still arrives. -/
def reset (tm : Timer) (now d : Int) : Timer := { tm with deadline := some (now + d) }

/-- A receive that does not wait. -/
def drain (tm : Timer) : Timer := { tm with fired := false }

def expire (tm : Timer) (now : Int) : Option Timer :=
  match tm.deadline with
  | some d => if d ≤ now then some { tm with deadline := none, sends := tm.sends + 1 } else none
  | none => none

def send (tm : Timer) : Option Timer :=
  tm.toTimeChan.send.map fun toTimeChan => { tm with toTimeChan }

end Timer

/-- A `time.Ticker`: when it ticks next. -/
structure Ticker extends TimeChan where
  next : Int

namespace Ticker

/-- The ticks that were missed are skipped. -/
def expire (tk : Ticker) (interval now : Int) : Option Ticker :=
  if tk.next ≤ now then
    some { tk with
      next := tk.next + interval * (1 + (now - tk.next) / interval)
      sends := tk.sends + 1 }
  else none

def send (tk : Ticker) : Option Ticker :=
  tk.toTimeChan.send.map fun toTimeChan => { tk with toTimeChan }

end Ticker

/-! ## The loop -/

inductive LoopPlace where
  | select
  /-- In `startElection`. -/
  | electing
  /-- In `broadcastAppendEntries`. -/
  | broadcasting
  | stopped
  deriving DecidableEq

inductive TimerCase where
  | stop
  | electionReset
  | timeout
  | heartbeat
  deriving DecidableEq

/-- `runTimerLoop` of one node, with the content of `electionResetCh`. -/
structure TimerLoop where
  place : LoopPlace := .select
  timer : Timer
  heartbeat : Ticker
  electionReset : Bool := false

namespace TimerLoop

/-- The loop up to its `select`. `NewTicker` panics if its interval is not positive. -/
def start (t : Timing) (now : Int) (r : Nat) : Option TimerLoop :=
  if t.heartbeatInterval ≤ 0 then none
  else some {
    timer := Timer.reset {} now (t.timeout r)
    heartbeat := { next := now + t.heartbeatInterval } }

def resetElectionTimer (l : TimerLoop) : TimerLoop := { l with electionReset := true }

/-- A case of the `select`, if it is ready. `role` is what `Role` returns there; a leader that
times out only sets its timer again. `startElection` begins with a signal to its own loop. -/
def runTimerLoop (t : Timing) (now : Int) (role : Role) (r : Nat) (l : TimerLoop) :
    TimerCase → Option TimerLoop
  | .stop => some { l with place := .stopped }
  | .electionReset =>
    if l.electionReset then
      let (active, timer) := l.timer.stop
      let timer := if active then timer else timer.drain
      some { l with electionReset := false, timer := timer.reset now (t.timeout r) }
    else none
  | .timeout =>
    if l.timer.fired then
      if role ≠ .leader then
        some { l.resetElectionTimer with place := .electing, timer := l.timer.drain }
      else some { l with timer := l.timer.drain.reset now (t.timeout r) }
    else none
  | .heartbeat =>
    if l.heartbeat.fired then
      let heartbeat := { l.heartbeat with fired := false }
      if role = .leader then some { l with place := .broadcasting, heartbeat }
      else some { l with heartbeat }
    else none

/-- The call that the loop has made returns. -/
def goOn (t : Timing) (now : Int) (r : Nat) (l : TimerLoop) : Option TimerLoop :=
  match l.place with
  | .electing => some { l with place := .select, timer := l.timer.reset now (t.timeout r) }
  | .broadcasting => some { l with place := .select }
  | .select | .stopped => none

end TimerLoop

/-! ## Clusters in time -/

/-- The handler of the message resets the election timer. -/
def Node.resetsTimer (s : Node) (env : Envelope) : Bool :=
  match env.body with
  | .voteReq req => (s.handleRequestVote req).2.voteGranted
  | .appendReq _ req => s.log.currentTerm ≤ req.term
  | .snapReq req => s.log.currentTerm ≤ req.term
  | _ => false

/-- The step is the delivery of a message to `n` that resets its timer. -/
def Cluster.resetsTimer (c : Cluster) (a : Action) (n : NodeID) : Bool :=
  match a with
  | .deliver k => c.network[k]?.any fun env => env.dst = n ∧ (c.node n).resetsTimer env
  | _ => false

structure TimedCluster where
  cluster : Cluster
  loop : NodeID → TimerLoop
  now : Int

inductive TimedAction where
  | elapse (d : Nat)
  /-- The timer of `n` expires. -/
  | expire (n : NodeID)
  /-- The value of an expiry reaches the channel. -/
  | send (n : NodeID)
  /-- The heartbeat ticker of `n` is due. -/
  | tick (n : NodeID)
  | sendTick (n : NodeID)
  /-- The loop of `n` takes a case of its `select`. -/
  | select (n : NodeID) (w : TimerCase) (r : Nat)
  | goOn (n : NodeID) (r : Nat)
  /-- A step of the cluster that is not the loop's. -/
  | step (a : Action) (r : Nat)

namespace TimedCluster

def setLoop (s : TimedCluster) (n : NodeID) (l : TimerLoop) : TimedCluster :=
  { s with loop := fun m => if m = n then l else s.loop m }

/-- `startElection` returns when its election is over. -/
def returns (s : TimedCluster) (n : NodeID) : Bool :=
  (s.loop n).place ≠ .electing || (s.cluster.node n).election.isNone

/-- A step of the cluster. The loop of a new process starts; a handler may reset a timer. -/
def clusterStep (cfg : Config) (t : Timing) (s : TimedCluster) (r : Nat) (a : Action) :
    Option TimedCluster :=
  match s.cluster.step cfg a with
  | none => none
  | some (c, _) =>
    match a with
    | .act _ .startElection => none
    | .act n .restart =>
      (TimerLoop.start t s.now r).map fun l => { s with cluster := c }.setLoop n l
    | a =>
      some { s with
        cluster := c
        loop := fun n =>
          if s.cluster.resetsTimer a n then (s.loop n).resetElectionTimer else s.loop n }

def step (cfg : Config) (t : Timing) (s : TimedCluster) : TimedAction → Option TimedCluster
  | .elapse d => some { s with now := s.now + d }
  | .expire n =>
    ((s.loop n).timer.expire s.now).map fun timer => s.setLoop n { s.loop n with timer }
  | .send n => (s.loop n).timer.send.map fun timer => s.setLoop n { s.loop n with timer }
  | .tick n =>
    ((s.loop n).heartbeat.expire t.heartbeatInterval s.now).map fun heartbeat =>
      s.setLoop n { s.loop n with heartbeat }
  | .sendTick n =>
    (s.loop n).heartbeat.send.map fun heartbeat => s.setLoop n { s.loop n with heartbeat }
  | .select n w r =>
    if (s.loop n).place = .select then
      match (s.loop n).runTimerLoop t s.now (s.cluster.node n).role r w with
      | none => none
      | some l =>
        if l.place = .electing then
          (s.cluster.step cfg (.act n .startElection)).map fun x =>
            { s with cluster := x.1 }.setLoop n l
        else some (s.setLoop n l)
    else none
  | .goOn n r =>
    if s.returns n then ((s.loop n).goOn t s.now r).map fun l => s.setLoop n l else none
  | .step a r => s.clusterStep cfg t r a

end TimedCluster

/-- Runs in time, with the states they went through and the step taken in each. All loops are
started at time zero. -/
inductive TimedRun (cfg : Config) (t : Timing) :
    List (TimedCluster × TimedAction) → TimedCluster → Prop where
  | init (r : NodeID → Nat) (loop : NodeID → TimerLoop) :
    (∀ n, TimerLoop.start t 0 (r n) = some (loop n)) → TimedRun cfg t [] ⟨Cluster.init, loop, 0⟩
  | step : TimedRun cfg t tr s → s.step cfg t a = some s' → TimedRun cfg t (tr ++ [(s, a)]) s'

/-- Execute a list of steps. -/
def TimedCluster.exec (cfg : Config) (t : Timing) (s : TimedCluster)
    (tr : List (TimedCluster × TimedAction)) :
    List TimedAction → Option (TimedCluster × List (TimedCluster × TimedAction))
  | [] => some (s, tr)
  | a :: as =>
    match s.step cfg t a with
    | some s' => s'.exec cfg t (tr ++ [(s, a)]) as
    | none => none

end DistributedKV.Raft
