import DistributedKV.Raft.Log
import Mathlib.Data.List.Sort

/-!
# A Raft node

The `Node` of `internal/raft` and its operations, each as one function on the node's state:
`election.go`, `node_lifecycle.go`, `replication.go`, `propose.go`, `readindex.go` and
`snapshot.go`. Storage operations succeed here, so every log mutator is called with `commit`
true. Logging, the election timer and the wake-up channel of the apply loop are left out.

A function that waits is cut at the places where it waits. What it keeps in local variables
meanwhile is part of the state: `Election` for `startElection`, `Read` for `LinearizableRead`,
`Proposal` for `Propose`, and `applying` for `applyCommitted`. The state of these calls is lost
in a crash; `epoch` counts the restarts, so that an answer to a call of an earlier process is
recognised.
-/

namespace DistributedKV.Raft

inductive Role where
  | follower
  | candidate
  | leader
  deriving DecidableEq

/-! ## Requests and responses -/

structure RequestVoteRequest where
  term : Nat
  candidateID : NodeID
  lastLogIndex : Nat
  lastLogTerm : Nat

structure RequestVoteResponse where
  term : Nat
  voteGranted : Bool

structure AppendEntriesRequest where
  term : Nat
  leaderID : NodeID
  prevLogIndex : Nat
  prevLogTerm : Nat
  entries : List Entry
  leaderCommit : Nat
  leaderClientAddr : String

structure AppendEntriesResponse where
  term : Nat
  success : Bool
  conflictTerm : Nat := 0
  conflictIndex : Nat := 0

/-- `kv.Snapshot`: the whole content of the state machine. -/
structure Snapshot where
  pairs : String → Option Value

structure SnapshotMeta where
  lastIncludedIndex : Nat
  lastIncludedTerm : Nat

/-- A gob payload, by what it decodes to. -/
inductive SnapshotData where
  | encoded (snap : Snapshot)
  | malformed

def Snapshot.marshal (snap : Snapshot) : SnapshotData := .encoded snap

def unmarshalSnapshot : SnapshotData → Option Snapshot
  | .encoded snap => some snap
  | .malformed => none

structure InstallSnapshotRequest where
  term : Nat
  leaderID : NodeID
  lastIncludedIndex : Nat
  lastIncludedTerm : Nat
  data : SnapshotData

structure InstallSnapshotResponse where
  term : Nat

/-! ## The state -/

structure Options where
  /-- Zero disables snapshots. -/
  snapshotThreshold : Nat
  /-- Zero means no bound. -/
  replicationBatchMaxEntries : Nat

/-- What `NewNode` is given and never changes. `peers` does not include the node itself. -/
structure Member where
  id : NodeID
  peers : List NodeID
  opts : Options
  selfClientAddr : String

/-- `total/2 + 1` of `startElection` and `confirmLeadership`. -/
def Member.needed (me : Member) : Nat := (me.peers.length + 1) / 2 + 1

inductive CallError where
  | notLeader
  | proposalDropped
  | contextDone
  deriving DecidableEq

/-- A call of `Propose` after its append. `waitCh` is the content of its channel, where
`some none` is a nil error; `result` is what the call returned, if it did. -/
structure Proposal where
  entry : Entry
  waitCh : Option (Option CallError) := none
  result : Option (Option CallError) := none

/-- A call of `startElection` after `becomeCandidate`. `awaiting` are the peers whose answer
has not been counted. -/
structure Election where
  term : Nat
  asked : Bool := false
  awaiting : List NodeID := []
  votes : Nat := 1
  won : Bool := false

inductive ReadPhase where
  | confirming
  | waiting (closed : Bool)
  | returned
  deriving DecidableEq

/-- A call of `LinearizableRead` on a leader. `unsent` are the peers whose goroutine has not
built its heartbeat, `awaiting` those whose answer is outstanding. -/
structure Read where
  readIndex : Nat
  term : Nat
  unsent : List NodeID
  awaiting : List NodeID := []
  confirmed : Nat := 1
  phase : ReadPhase := .confirming

structure PendingRead where
  readIndex : Nat
  /-- The call whose `done` channel this is. -/
  call : Nat

structure Node where
  log : PersistentLog
  /-- The content of the state machine. -/
  sm : String → Option Value
  /-- What `LoadLatest` returns, nothing if it fails. -/
  snapStore : Option (Snapshot × SnapshotMeta)
  /-- The meta file of a snapshot whose data file has been lost, which makes `LoadLatest` fail. -/
  orphanMeta : Option SnapshotMeta := none
  role : Role
  commitIndex : Nat
  lastApplied : Nat
  nextIndex : NodeID → Nat
  matchIndex : NodeID → Nat
  leaderID : String
  leaderClientAddr : String
  pendingReads : List PendingRead
  /-- Log index to the call waiting for it. -/
  writeWaiters : List (Nat × Nat)
  epoch : Nat
  election : Option Election
  /-- The locals `applied` and `commit` of a running `applyCommitted`. -/
  applying : Option (Nat × Nat)
  proposals : List Proposal
  reads : List Read

/-- `NewNode` on what a process leaves behind. -/
def newNode (engine : Engine) (sm : String → Option Value)
    (snapStore : Option (Snapshot × SnapshotMeta)) (epoch : Nat) : Node where
  log := openPersistentLog engine
  sm := match snapStore with
    | some (snap, _) => snap.pairs
    | none => sm
  snapStore
  role := .follower
  commitIndex := match snapStore with
    | some (_, info) => info.lastIncludedIndex
    | none => 0
  lastApplied := match snapStore with
    | some (_, info) => info.lastIncludedIndex
    | none => 0
  nextIndex := fun _ => 0
  matchIndex := fun _ => 0
  leaderID := ""
  leaderClientAddr := ""
  pendingReads := []
  writeWaiters := []
  epoch
  election := none
  applying := none
  proposals := []
  reads := []

namespace Node

/-! ## Waiting clients -/

def sendResult (ps : List Proposal) (call : Nat) (r : Option CallError) : List Proposal :=
  ps.modify call fun p => { p with waitCh := some r }

def notifyWritersLocked (n : Node) (appliedIndex : Nat) : Node :=
  match n.writeWaiters.find? fun w => w.1 = appliedIndex with
  | some w =>
    { n with
      proposals := sendResult n.proposals w.2 none
      writeWaiters := n.writeWaiters.filter fun w => w.1 ≠ appliedIndex }
  | none => n

def failStaleWritersLocked (n : Node) : Node :=
  { n with
    proposals := n.writeWaiters.foldl
      (fun ps w => sendResult ps w.2 (some .proposalDropped)) n.proposals
    writeWaiters := [] }

def closeRead (rs : List Read) (call : Nat) : List Read :=
  rs.modify call fun r => { r with phase := .waiting true }

def satisfyPendingReadsLocked (n : Node) : Node :=
  { n with
    reads := (n.pendingReads.filter fun pr => pr.readIndex ≤ n.lastApplied).foldl
      (fun rs pr => closeRead rs pr.call) n.reads
    pendingReads := n.pendingReads.filter fun pr => ¬ pr.readIndex ≤ n.lastApplied }

/-! ## Roles -/

def setTermAndVote (n : Node) (term : Nat) (votedFor : String) : Node :=
  { n with log := (n.log.setTermAndVote true term votedFor).1 }

def becomeFollower (n : Node) (term : Nat) (leaderID leaderClientAddr : String) : Node :=
  let n' := { n with role := .follower, leaderID, leaderClientAddr }
  let n' := if n.role = .leader then n'.failStaleWritersLocked else n'
  if n'.log.currentTerm < term then n'.setTermAndVote term "" else n'

def becomeCandidate (me : Member) (n : Node) : Node :=
  { n.setTermAndVote (n.log.currentTerm + 1) me.id with
    role := .candidate, leaderID := "", leaderClientAddr := "" }

def appendLocal (n : Node) (e : Entry) : Node :=
  let e := { e with term := n.log.currentTerm, index := n.log.lastIndex + 1 }
  { n with log := (n.log.appendEntries true [e]).1 }

def becomeLeader (me : Member) (n : Node) : Node :=
  if n.role ≠ .candidate then n
  else
    let last := n.log.lastIndex
    { n with
      role := .leader
      leaderID := me.id
      leaderClientAddr := me.selfClientAddr
      nextIndex := fun p => if p ∈ me.peers then last + 1 else n.nextIndex p
      matchIndex := fun p => if p ∈ me.peers then 0 else n.matchIndex p
      : Node }.appendLocal { index := 0, term := 0, type := .noop }

/-- The step-down that `HandleRequestVote` and `HandleAppendEntries` write out for a request of
a higher term. -/
def stepDown (n : Node) (term : Nat) : Node :=
  let n := if n.role = .leader then n.failStaleWritersLocked else n
  { n with role := .follower }.setTermAndVote term ""

/-! ## Elections -/

/-- `startElection` up to and including `becomeCandidate`. -/
def startElection (me : Member) (n : Node) : Node :=
  let n := n.becomeCandidate me
  { n with election := some { term := n.log.currentTerm } }

/-- The request every peer is sent; `LastIndex` and `LastTerm` are read after
`becomeCandidate` has returned. -/
def requestVoteRequest (me : Member) (n : Node) (el : Election) : RequestVoteRequest where
  term := el.term
  candidateID := me.id
  lastLogIndex := n.log.lastIndex
  lastLogTerm := n.log.lastTerm

def candidateLogUpToDateLocked (n : Node) (lastLogIndex lastLogTerm : Nat) : Bool :=
  if lastLogTerm ≠ n.log.lastTerm then decide (n.log.lastTerm < lastLogTerm)
  else decide (n.log.lastIndex ≤ lastLogIndex)

def handleRequestVote (n : Node) (req : RequestVoteRequest) : Node × RequestVoteResponse :=
  if req.term < n.log.currentTerm then
    (n, { term := n.log.currentTerm, voteGranted := false })
  else
    let n :=
      if n.log.currentTerm < req.term then
        { n.stepDown req.term with leaderID := "", leaderClientAddr := "" }
      else n
    if (n.log.votedFor = "" ∨ n.log.votedFor = req.candidateID) ∧
        n.candidateLogUpToDateLocked req.lastLogIndex req.lastLogTerm then
      (n.setTermAndVote req.term req.candidateID, { term := req.term, voteGranted := true })
    else (n, { term := req.term, voteGranted := false })

/-- One round of the counting loop, for the answer of `peer`. -/
def countVote (me : Member) (n : Node) (el : Election) (peer : NodeID)
    (resp : RequestVoteResponse) : Node :=
  let el := { el with awaiting := el.awaiting.erase peer }
  if el.term < resp.term then
    { n.becomeFollower resp.term "" "" with election := none }
  else if resp.voteGranted then
    { n with election := some { el with
        votes := el.votes + 1
        won := decide (me.needed ≤ el.votes + 1 ∧ n.role = .candidate ∧
          n.log.currentTerm = el.term) } }
  else { n with election := some el }

/-- The end of `startElection`, once the counting loop is done. -/
def concludeElection (me : Member) (n : Node) (el : Election) : Node :=
  let n := { n with election := none }
  if el.won ∧ n.role = .candidate ∧ n.log.currentTerm = el.term then n.becomeLeader me else n

/-! ## Replication -/

inductive Outgoing where
  | appendEntries (req : AppendEntriesRequest)
  | installSnapshot (req : InstallSnapshotRequest)

def sendInstallSnapshot (me : Member) (n : Node) (term : Nat) : Option Outgoing :=
  match n.snapStore with
  | none => none
  | some (snap, info) => some <| .installSnapshot {
      term
      leaderID := me.id
      lastIncludedIndex := info.lastIncludedIndex
      lastIncludedTerm := info.lastIncludedTerm
      data := snap.marshal }

/-- The last index of a batch that starts at `nextIdx`. -/
def batchEnd (me : Member) (nextIdx lastIndex : Nat) : Nat :=
  let maxBatch := me.opts.replicationBatchMaxEntries
  if 0 < maxBatch ∧ maxBatch < lastIndex - nextIdx + 1 then nextIdx + maxBatch - 1
  else lastIndex

/-- `replicateToPeer` up to the RPC. -/
def replicateToPeer (me : Member) (n : Node) (peerID : NodeID) (term : Nat) :
    Option Outgoing :=
  if n.role ≠ .leader ∨ n.log.currentTerm ≠ term then none
  else
    let nextIdx := n.nextIndex peerID
    if nextIdx < n.log.firstIndex then n.sendInstallSnapshot me term
    else
      let prevLogIndex := nextIdx - 1
      if (n.log.termAt prevLogIndex).isNone ∧ prevLogIndex ≠ 0 then
        n.sendInstallSnapshot me term
      else
        let entries :=
          if nextIdx ≤ n.log.lastIndex then
            n.log.range nextIdx (batchEnd me nextIdx n.log.lastIndex)
          else .ok []
        match entries with
        | .error _ => n.sendInstallSnapshot me term
        | .ok entries => some <| .appendEntries {
            term
            leaderID := me.id
            prevLogIndex
            prevLogTerm := (n.log.termAt prevLogIndex).getD 0
            entries
            leaderCommit := n.commitIndex
            leaderClientAddr := me.selfClientAddr }

/-- The leader's backward scan for the last entry of the conflict term, from `idx` down. -/
def backtrack (log : PersistentLog) (conflictTerm newNext : Nat) : Nat → Nat
  | 0 => newNext
  | idx + 1 =>
    if idx + 1 < log.firstIndex then newNext
    else match log.termAt (idx + 1) with
      | none => newNext
      | some t =>
        if t = conflictTerm then idx + 2
        else if t < conflictTerm then newNext
        else backtrack log conflictTerm newNext idx

/-- `replicateToPeer` after the RPC has answered. -/
def replicated (n : Node) (peerID : NodeID) (req : AppendEntriesRequest)
    (resp : AppendEntriesResponse) : Node :=
  let setNext (n : Node) (next : Nat) : Node :=
    { n with nextIndex := fun p => if p = peerID then next else n.nextIndex p }
  if req.term < resp.term then n.becomeFollower resp.term "" ""
  else if n.role ≠ .leader ∨ n.log.currentTerm ≠ req.term then n
  else if resp.success then
    match req.entries.getLast? with
    | some last =>
      setNext { n with
        matchIndex := fun p => if p = peerID then last.index else n.matchIndex p }
        (last.index + 1)
    | none => n
  else if resp.conflictTerm ≠ 0 then
    setNext n (max 1 (backtrack n.log resp.conflictTerm resp.conflictIndex n.log.lastIndex))
  else if 0 < resp.conflictIndex then setNext n resp.conflictIndex
  else if 1 < n.nextIndex peerID then setNext n (n.nextIndex peerID - 1)
  else n

def matchIndexes (me : Member) (n : Node) : List Nat :=
  n.log.lastIndex :: me.peers.map n.matchIndex

def majorityIndex (me : Member) (n : Node) : Nat :=
  let sorted := (n.matchIndexes me).insertionSort (· ≤ ·)
  sorted.getD ((sorted.length - 1) / 2) 0

def tryAdvanceCommitIndex (me : Member) (n : Node) (term : Nat) : Node :=
  if n.role ≠ .leader ∨ n.log.currentTerm ≠ term then n
  else
    let majorityIndex := n.majorityIndex me
    if majorityIndex ≤ n.commitIndex then n
    else if n.log.termAt majorityIndex ≠ some term then n
    else { n with commitIndex := majorityIndex }

/-- The follower's search for the first index of its conflicting term, from `ci` down. -/
def conflictStart (log : PersistentLog) (conflictTerm : Nat) : Nat → Nat
  | 0 => 0
  | ci + 1 =>
    if log.firstIndex < ci + 1 ∧ log.termAt ci = some conflictTerm then
      conflictStart log conflictTerm ci
    else ci + 1

/-- The log consistency check of `HandleAppendEntries`: the refusal, if there is one. -/
def refusal (log : PersistentLog) (req : AppendEntriesRequest) :
    Option AppendEntriesResponse :=
  if 0 < req.prevLogIndex then
    match log.termAt req.prevLogIndex with
    | none => some {
        term := req.term, success := false, conflictIndex := log.lastIndex + 1 }
    | some myTerm =>
      if myTerm ≠ req.prevLogTerm then some {
        term := req.term
        success := false
        conflictTerm := myTerm
        conflictIndex := conflictStart log myTerm req.prevLogIndex }
      else none
  else none

/-- The follower's commit rule: capped by its own last index. -/
def followCommit (n : Node) (leaderCommit : Nat) : Node :=
  if n.commitIndex < leaderCommit then
    let newCommit := min leaderCommit n.log.lastIndex
    if n.commitIndex < newCommit then { n with commitIndex := newCommit } else n
  else n

def handleAppendEntries (n : Node) (req : AppendEntriesRequest) :
    Node × AppendEntriesResponse :=
  if req.term < n.log.currentTerm then
    (n, { term := n.log.currentTerm, success := false })
  else
    let n :=
      if n.log.currentTerm < req.term then n.stepDown req.term
      else if n.role = .candidate then { n with role := .follower }
      else n
    let n := { n with leaderID := req.leaderID, leaderClientAddr := req.leaderClientAddr }
    match refusal n.log req with
    | some resp => (n, resp)
    | none =>
      let n := { n with log := (n.log.appendEntries true req.entries).1 }
      (n.followCommit req.leaderCommit, { term := req.term, success := true })

/-! ## Snapshots -/

def maybeSnapshot (n : Node) (appliedIndex : Nat) : Node :=
  if n.snapStore.any fun s => appliedIndex ≤ s.2.lastIncludedIndex then n
  else match n.log.termAt appliedIndex with
    | none => n
    | some term =>
      { n with
        snapStore := some (⟨n.sm⟩, ⟨appliedIndex, term⟩)
        orphanMeta := none
        log := (n.log.compactPrefix true appliedIndex term).1 }

def handleInstallSnapshot (n : Node) (req : InstallSnapshotRequest) :
    Node × InstallSnapshotResponse :=
  if req.term < n.log.currentTerm then (n, { term := n.log.currentTerm })
  else
    let n := if n.log.currentTerm < req.term then n.setTermAndVote req.term "" else n
    let n := { n with role := .follower, leaderID := req.leaderID }
    if n.snapStore.any fun s => req.lastIncludedIndex ≤ s.2.lastIncludedIndex then
      (n, { term := req.term })
    else match unmarshalSnapshot req.data with
      | none => (n, { term := req.term })
      | some snap =>
        ({ n with
            snapStore := some (snap, ⟨req.lastIncludedIndex, req.lastIncludedTerm⟩)
            orphanMeta := none
            sm := snap.pairs
            log := (n.log.restoreSnapshotBoundary true
              req.lastIncludedIndex req.lastIncludedTerm).1
            lastApplied := req.lastIncludedIndex
            commitIndex := req.lastIncludedIndex }, { term := req.term })

/-- `sendInstallSnapshot` after the RPC has answered. -/
def snapshotInstalled (n : Node) (peerID : NodeID) (req : InstallSnapshotRequest)
    (resp : InstallSnapshotResponse) : Node :=
  if req.term < resp.term then n.becomeFollower resp.term "" ""
  else if n.role = .leader ∧ n.log.currentTerm = req.term then
    { n with
      nextIndex := fun p => if p = peerID then req.lastIncludedIndex + 1 else n.nextIndex p
      matchIndex := fun p => if p = peerID then req.lastIncludedIndex else n.matchIndex p }
  else n

/-! ## Applying -/

def applyEntry (sm : String → Option Value) (e : Entry) : String → Option Value :=
  match e.type with
  | .put => fun k => if k = e.key then some e.value else sm k
  | .delete => fun k => if k = e.key then none else sm k
  | .noop => sm

/-- The beginning of `applyCommitted`. -/
def applyBegin (n : Node) : Node := { n with applying := some (n.lastApplied, n.commitIndex) }

/-- One iteration of the loop of `applyCommitted`, for the entry `e` read at `applied`. -/
def applyOne (me : Member) (n : Node) (applied commit : Nat) (e : Entry) : Node :=
  let n := { n with sm := applyEntry n.sm e, lastApplied := applied
                    applying := some (applied, commit) }
  let n := (n.notifyWritersLocked applied).satisfyPendingReadsLocked
  if 0 < me.opts.snapshotThreshold ∧ applied % me.opts.snapshotThreshold = 0 then
    n.maybeSnapshot applied
  else n

/-! ## Client calls -/

def propose (n : Node) (type : EntryType) (key : String) (value : Value)
    (clientRequestID : String) : Except CallError Node :=
  if n.role ≠ .leader then .error .notLeader
  else
    let entry : Entry := {
      index := n.log.lastIndex + 1, term := n.log.currentTerm
      type, key, value, clientRequestID }
    .ok { n with
      log := (n.log.appendEntries true [entry]).1
      proposals := n.proposals ++ [{ entry }]
      writeWaiters := (entry.index, n.proposals.length) ::
        n.writeWaiters.filter fun w => w.1 ≠ entry.index }

/-- `Propose` gives up because its context is done. -/
def proposeCancel (n : Node) (call : Nat) (p : Proposal) : Node :=
  { n with
    proposals := n.proposals.modify call fun p => { p with result := some (some .contextDone) }
    writeWaiters := n.writeWaiters.filter fun w => w.1 ≠ p.entry.index }

/-- `LinearizableRead` up to `confirmLeadership`. -/
def linearizableRead (me : Member) (n : Node) : Except CallError Node :=
  if n.role ≠ .leader then .error .notLeader
  else .ok { n with reads := n.reads ++ [{
    readIndex := n.commitIndex, term := n.log.currentTerm, unsent := me.peers }] }

/-- The heartbeat `confirmLeadership` builds for a peer. Neither the role nor the term is
checked again. -/
def heartbeat (me : Member) (n : Node) (r : Read) (peerID : NodeID) :
    AppendEntriesRequest where
  term := r.term
  leaderID := me.id
  prevLogIndex := n.nextIndex peerID - 1
  prevLogTerm := (n.log.termAt (n.nextIndex peerID - 1)).getD 0
  entries := []
  leaderCommit := n.commitIndex
  leaderClientAddr := ""

/-- What `confirmLeadership` does with the answer of `peer`. -/
def confirmed (n : Node) (call : Nat) (r : Read) (peer : NodeID)
    (resp : AppendEntriesResponse) : Node :=
  let r := { r with awaiting := r.awaiting.erase peer }
  if r.term < resp.term then
    { n.becomeFollower resp.term "" "" with reads := n.reads.set call r }
  else { n with reads := n.reads.set call { r with confirmed := r.confirmed + 1 } }

/-- `waitForApplied` up to its `select`. -/
def waitForApplied (n : Node) (call : Nat) (r : Read) : Node :=
  if r.readIndex ≤ n.lastApplied then
    { n with reads := n.reads.set call { r with phase := .returned } }
  else
    { n with
      reads := n.reads.set call { r with phase := .waiting false }
      pendingReads := n.pendingReads ++ [⟨r.readIndex, call⟩] }

/-- The read gives up. -/
def readCancel (n : Node) (call : Nat) (r : Read) : Node :=
  { n with
    reads := n.reads.set call { r with phase := .returned }
    pendingReads := n.pendingReads.filter fun pr => pr.call ≠ call }

end Node

end DistributedKV.Raft
