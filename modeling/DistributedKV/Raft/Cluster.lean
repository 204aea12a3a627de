import DistributedKV.Raft.Node

/-!
# The cluster

Nodes, the RPCs in flight between them, and the atomic steps a run is made of. A message can be
delivered in any order, at most once, or never. A response carries the request it answers: the
goroutine that made the call still holds it. Rounds of `broadcastAppendEntries` are not
serialised here, so a run may overlap them more freely than `replicationMu` lets it.

A step belongs to one node: it runs one of the node's own activities (`Node.act`) or handles a
message (`Node.receive`), and leaves behind the node's new state, messages, and the events that
clients and an observer see. `Run` collects the steps from the initial cluster together with
their events; its parameter `ok` restricts the steps a run may take.
-/

namespace DistributedKV.Raft

/-- A cluster with distinct, non-empty ids that every member is configured with. -/
structure Config where
  ids : List NodeID
  member : NodeID → Member
  nodup : ids.Nodup
  ne_empty : "" ∉ ids
  member_id : ∀ n, (member n).id = n
  peers_nodup : ∀ n, (member n).peers.Nodup
  mem_peers : ∀ n m, m ∈ (member n).peers ↔ m ∈ ids ∧ m ≠ n

/-- Members that all have the same options and no client address. -/
def Config.uniform (ids : List NodeID) (opts : Options) (nodup : ids.Nodup)
    (ne_empty : "" ∉ ids) : Config where
  ids
  member n := { id := n, peers := ids.filter (· ≠ n), opts, selfClientAddr := "" }
  nodup
  ne_empty
  member_id _ := rfl
  peers_nodup n := nodup.filter _
  mem_peers n m := by simp

/-! ## Messages -/

/-- Who waits for an `AppendEntries` call: a replication round, or a read by its number. -/
inductive Caller where
  | replicate
  | confirm (call : Nat)

inductive Body where
  | voteReq (req : RequestVoteRequest)
  | voteResp (req : RequestVoteRequest) (resp : RequestVoteResponse)
  | appendReq (caller : Caller) (req : AppendEntriesRequest)
  | appendResp (caller : Caller) (req : AppendEntriesRequest) (resp : AppendEntriesResponse)
  | snapReq (req : InstallSnapshotRequest)
  | snapResp (req : InstallSnapshotRequest) (resp : InstallSnapshotResponse)

/-- A message in flight. `epoch` is the one of the process that made the call. -/
structure Envelope where
  src : NodeID
  dst : NodeID
  epoch : Nat
  body : Body

/-! ## Events -/

/-- A call on a node: the epoch of the process and the number of the call in it. -/
abbrev CallID := Nat × Nat

inductive Event where
  | elected (n : NodeID) (term : Nat)
  /-- A leader of `term` advanced its commit index to `index`. -/
  | committed (n : NodeID) (term index : Nat)
  /-- `n` applied `e` at `index`; `woken` is the `Propose` call that was sent nil for it. -/
  | applied (n : NodeID) (index : Nat) (e : Entry) (woken : Option CallID)
  /-- `Propose` returned nil for the entry it had appended. -/
  | proposeOk (n : NodeID) (call : CallID) (e : Entry)
  | readInvoked (n : NodeID) (call : CallID)
  /-- `LinearizableRead` returned nil while `lastApplied` had the given value. -/
  | readOk (n : NodeID) (call : CallID) (lastApplied : Nat)
  deriving DecidableEq

/-! ## Steps of one node -/

structure Effect where
  node : Node
  msgs : List Envelope := []
  events : List Event := []

/-- The activities of a node that no message triggers. -/
inductive Activity where
  | startElection
  | requestVotes
  | concludeElection
  | abandonElection
  | propose (type : EntryType) (key : String) (value : Value) (clientRequestID : String)
  | proposeReturn (call : Nat)
  | proposeCancel (call : Nat)
  | replicate (peer : NodeID)
  | tryAdvanceCommitIndex
  | linearizableRead
  | heartbeat (call : Nat) (peer : NodeID)
  | waitForApplied (call : Nat)
  | readReturn (call : Nat)
  | readCancel (call : Nat)
  | applyBegin
  | applyNext
  | restart

namespace Node

/-- The event of a step that made the node leader. -/
def electedEvents (me : Member) (s s' : Node) : List Event :=
  if s.role ≠ .leader ∧ s'.role = .leader then [.elected me.id s'.log.currentTerm] else []

/-- `startElection` after `becomeCandidate`: a single node becomes leader, another one asks. -/
def requestVotes (me : Member) (s : Node) (el : Election) : Effect :=
  if me.needed = 1 then
    let s' := { s with election := none }.becomeLeader me
    { node := s', events := electedEvents me s s' }
  else
    { node := { s with election := some { el with asked := true, awaiting := me.peers } }
      msgs := me.peers.map fun p => ⟨me.id, p, s.epoch, .voteReq (s.requestVoteRequest me el)⟩ }

def replicate (me : Member) (s : Node) (peer : NodeID) : Option Effect :=
  match s.replicateToPeer me peer s.log.currentTerm with
  | none => none
  | some (.appendEntries req) =>
    some { node := s, msgs := [⟨me.id, peer, s.epoch, .appendReq .replicate req⟩] }
  | some (.installSnapshot req) =>
    some { node := s, msgs := [⟨me.id, peer, s.epoch, .snapReq req⟩] }

def advance (me : Member) (s : Node) : Effect :=
  let s' := s.tryAdvanceCommitIndex me s.log.currentTerm
  { node := s'
    events := if s.commitIndex < s'.commitIndex then
      [.committed me.id s.log.currentTerm s'.commitIndex] else [] }

/-- `Propose` receives from its channel. -/
def proposeReturn (me : Member) (s : Node) (call : Nat) (p : Proposal) : Option Effect :=
  match p.result, p.waitCh with
  | none, some r =>
    some {
      node := { s with proposals := s.proposals.set call { p with result := some r } }
      events := if r = none then [.proposeOk me.id (s.epoch, call) p.entry] else [] }
  | _, _ => none

def sendHeartbeat (me : Member) (s : Node) (call : Nat) (r : Read) (peer : NodeID) : Effect where
  node := { s with reads := s.reads.set call { r with
    unsent := r.unsent.erase peer, awaiting := peer :: r.awaiting } }
  msgs := [⟨me.id, peer, s.epoch, .appendReq (.confirm call) (s.heartbeat me r peer)⟩]

/-- The `Propose` call waiting for index `applied`. -/
def woken (s : Node) (applied : Nat) : Option CallID :=
  (s.writeWaiters.find? fun w => w.1 = applied).map fun w => (s.epoch, w.2)

/-- One iteration of `applyCommitted`, or its end. -/
def applyNext (me : Member) (s : Node) (applied commit : Nat) : Effect :=
  if commit ≤ applied then { node := { s with applying := none } }
  else match s.log.get (applied + 1) with
    | .error _ => { node := { s with applying := none } }
    | .ok e =>
      { node := s.applyOne me (applied + 1) commit e
        events := [.applied me.id (applied + 1) e (s.woken (applied + 1))] }

def act (me : Member) (s : Node) : Activity → Option Effect
  | .startElection =>
    if s.role ≠ .leader ∧ s.election.isNone then some { node := s.startElection me } else none
  | .requestVotes =>
    match s.election with
    | some el => if el.asked then none else some (s.requestVotes me el)
    | none => none
  | .concludeElection =>
    match s.election with
    | some el =>
      if el.won then
        let s' := s.concludeElection me el
        some { node := s', events := electedEvents me s s' }
      else none
    | none => none
  | .abandonElection =>
    match s.election with
    | some el =>
      if el.asked ∧ el.won = false then some { node := { s with election := none } } else none
    | none => none
  | .propose type key value clientRequestID =>
    match s.propose type key value clientRequestID with
    | .ok s' => some { node := s' }
    | .error _ => none
  | .proposeReturn call =>
    match s.proposals[call]? with
    | some p => s.proposeReturn me call p
    | none => none
  | .proposeCancel call =>
    match s.proposals[call]? with
    | some p => if p.result = none then some { node := s.proposeCancel call p } else none
    | none => none
  | .replicate peer => if peer ∈ me.peers then s.replicate me peer else none
  | .tryAdvanceCommitIndex => some (s.advance me)
  | .linearizableRead =>
    match s.linearizableRead me with
    | .ok s' => some { node := s', events := [.readInvoked me.id (s.epoch, s.reads.length)] }
    | .error _ => none
  | .heartbeat call peer =>
    match s.reads[call]? with
    | some r => if peer ∈ r.unsent then some (s.sendHeartbeat me call r peer) else none
    | none => none
  | .waitForApplied call =>
    match s.reads[call]? with
    | some r =>
      if r.phase = .confirming ∧ me.needed ≤ r.confirmed then
        some {
          node := s.waitForApplied call r
          events := if r.readIndex ≤ s.lastApplied then
            [.readOk me.id (s.epoch, call) s.lastApplied] else [] }
      else none
    | none => none
  | .readReturn call =>
    match s.reads[call]? with
    | some r =>
      if r.phase = .waiting true then
        some {
          node := { s with reads := s.reads.set call { r with phase := .returned } }
          events := [.readOk me.id (s.epoch, call) s.lastApplied] }
      else none
    | none => none
  | .readCancel call =>
    match s.reads[call]? with
    | some r => if r.phase = .returned then none else some { node := s.readCancel call r }
    | none => none
  | .applyBegin => if s.applying.isNone then some { node := s.applyBegin } else none
  | .applyNext =>
    match s.applying with
    | some (applied, commit) => some (s.applyNext me applied commit)
    | none => none
  | .restart => some { node := newNode s.log.engine s.sm s.snapStore (s.epoch + 1) }

/-- The answer to the call in `env`, from the node it was sent to. -/
def reply (env : Envelope) (body : Body) : List Envelope := [⟨env.dst, env.src, env.epoch, body⟩]

/-- The node handles a message addressed to it. A response to a call of an earlier process, of
an election that is over or of a read that does not wait for it is discarded. -/
def receive (me : Member) (s : Node) (env : Envelope) : Effect :=
  match env.body with
  | .voteReq req =>
    let r := s.handleRequestVote req
    { node := r.1, msgs := reply env (.voteResp req r.2) }
  | .appendReq caller req =>
    let r := s.handleAppendEntries req
    { node := r.1, msgs := reply env (.appendResp caller req r.2) }
  | .snapReq req =>
    let r := s.handleInstallSnapshot req
    { node := r.1, msgs := reply env (.snapResp req r.2) }
  | .voteResp req resp =>
    match s.election with
    | none => { node := s }
    | some el =>
      if s.epoch = env.epoch ∧ el.term = req.term ∧ env.src ∈ el.awaiting ∧ el.won = false then
        { node := s.countVote me el env.src resp }
      else { node := s }
  | .appendResp .replicate req resp =>
    if s.epoch = env.epoch then { node := s.replicated env.src req resp } else { node := s }
  | .appendResp (.confirm call) _ resp =>
    match s.reads[call]? with
    | none => { node := s }
    | some r =>
      if s.epoch = env.epoch ∧ env.src ∈ r.awaiting then
        { node := s.confirmed call r env.src resp }
      else { node := s }
  | .snapResp req resp =>
    if s.epoch = env.epoch then { node := s.snapshotInstalled env.src req resp }
    else { node := s }

end Node

/-! ## Steps of the cluster -/

structure Cluster where
  node : NodeID → Node
  network : List Envelope

inductive Action where
  | act (n : NodeID) (a : Activity)
  | deliver (k : Nat)
  | drop (k : Nat)

namespace Cluster

def init : Cluster where
  node := fun _ => newNode {} (fun _ => none) none 0
  network := []

/-- `n` has taken a step with effect `ef`, having taken the messages not in `rest` out of the
network. -/
def after (c : Cluster) (n : NodeID) (ef : Effect) (rest : List Envelope) : Cluster where
  node := fun m => if m = n then ef.node else c.node m
  network := rest ++ ef.msgs

def step (cfg : Config) (c : Cluster) : Action → Option (Cluster × List Event)
  | .act n a =>
    if n ∈ cfg.ids then
      match (c.node n).act (cfg.member n) a with
      | some ef => some (c.after n ef c.network, ef.events)
      | none => none
    else none
  | .deliver k =>
    match c.network[k]? with
    | some env =>
      let ef := (c.node env.dst).receive (cfg.member env.dst) env
      some (c.after env.dst ef (c.network.eraseIdx k), ef.events)
    | none => none
  | .drop k => some ({ c with network := c.network.eraseIdx k }, [])

end Cluster

/-- The clusters and traces of the runs whose steps all satisfy `ok`. -/
inductive Run (cfg : Config) (ok : Cluster → Action → Prop) : List Event → Cluster → Prop where
  | init : Run cfg ok [] Cluster.init
  | step : Run cfg ok tr c → ok c a → c.step cfg a = some (c', evs) → Run cfg ok (tr ++ evs) c'

/-- A run may go on from `c` with trace `tr` to `c'` with trace `tr'`. -/
inductive Continues (cfg : Config) (ok : Cluster → Action → Prop) :
    List Event → Cluster → List Event → Cluster → Prop where
  | refl : Continues cfg ok tr c tr c
  | step : Continues cfg ok tr c tr' c' → ok c' a → c'.step cfg a = some (c'', evs) →
    Continues cfg ok tr c (tr' ++ evs) c''

/-- Execute a list of actions that all satisfy `ok`. -/
def Cluster.exec (cfg : Config) (ok : Cluster → Action → Prop) [∀ c a, Decidable (ok c a)]
    (c : Cluster) (tr : List Event) : List Action → Option (Cluster × List Event)
  | [] => some (c, tr)
  | a :: as =>
    if ok c a then
      match c.step cfg a with
      | some (c', evs) => c'.exec cfg ok (tr ++ evs) as
      | none => none
    else none

end DistributedKV.Raft
