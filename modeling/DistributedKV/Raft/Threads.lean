import DistributedKV.Raft.SnapshotStore

/-!
# The threads of a node

The operations of a node again, cut at every point where another goroutine can run: a step is one
critical section of `n.mu`, or one call of the log, the state machine or the snapshot store made
outside of it. `Task` lists the places in the code where a call can stand, with the local variables
alive there. `Task.effect` is what the step taken there does to the node, `Task.next` where the
call goes on or what it returns.

Here storage may fail: a step is given the outcome of the storage calls it makes. Calls can begin
at any time; what makes a goroutine begin one (the timer, the apply loop, the counting of votes, the
server) is not modelled, and neither is the waiting of `Propose` and `replicateToPeer` for their
results. Indices are natural numbers as in `Raft.Node`; the term that `becomeCandidate` computes
wraps around as the source's does.
-/

namespace DistributedKV.Raft

open Theory (Program)

/-- How the storage calls of a step end. -/
structure StorageOutcome where
  commit : Bool := true
  /-- The second `SetTermAndVote` of `HandleRequestVote`. -/
  again : Bool := true
  save : SaveOutcome := .done
  deriving DecidableEq

/-- A running process: what `NewNode` was given, and the node. -/
structure Process where
  me : Member
  node : Node

/-! ## Critical sections and storage calls -/

namespace Node

def setTermAndVoteWith (commit : Bool) (n : Node) (term : Nat) (votedFor : String) : Node :=
  { n with log := (n.log.setTermAndVote commit term votedFor).1 }

def becomeFollowerLocked (n : Node) (leaderID leaderClientAddr : String) : Node :=
  let n' := { n with role := .follower, leaderID, leaderClientAddr }
  if n.role = .leader then n'.failStaleWritersLocked else n'

def becomeLeaderLocked (me : Member) (n : Node) : Node :=
  if n.role ≠ .candidate then n
  else
    let last := n.log.lastIndex
    { n with
      role := .leader
      leaderID := me.id
      leaderClientAddr := me.selfClientAddr
      nextIndex := fun p => if p ∈ me.peers then last + 1 else n.nextIndex p
      matchIndex := fun p => if p ∈ me.peers then 0 else n.matchIndex p }

def stepDownWith (commit : Bool) (n : Node) (term : Nat) : Node :=
  let n := if n.role = .leader then n.failStaleWritersLocked else n
  { n with role := .follower }.setTermAndVoteWith commit term ""

/-- The entry `Propose` makes. -/
def proposed (n : Node) (type : EntryType) (key : String) (value : Value)
    (clientRequestID : String) : Entry :=
  { index := n.log.lastIndex + 1, term := n.log.currentTerm, type, key, value, clientRequestID }

/-- The critical section of `Propose` on a leader. -/
def proposeLocked (commit : Bool) (n : Node) (e : Entry) : Node :=
  if commit then
    { n with
      log := (n.log.appendEntries true [e]).1
      proposals := n.proposals ++ [{ entry := e }]
      writeWaiters := (e.index, n.proposals.length) ::
        n.writeWaiters.filter fun w => w.1 ≠ e.index }
  else
    { n with
      log := (n.log.appendEntries false [e]).1
      writeWaiters := n.writeWaiters.filter fun w => w.1 ≠ e.index }

def handleRequestVoteLocked (o : StorageOutcome) (n : Node) (req : RequestVoteRequest) :
    Node × RequestVoteResponse :=
  if req.term < n.log.currentTerm then
    (n, { term := n.log.currentTerm, voteGranted := false })
  else
    let n :=
      if n.log.currentTerm < req.term then
        { n.stepDownWith o.commit req.term with leaderID := "", leaderClientAddr := "" }
      else n
    if (n.log.votedFor = "" ∨ n.log.votedFor = req.candidateID) ∧
        n.candidateLogUpToDateLocked req.lastLogIndex req.lastLogTerm then
      (n.setTermAndVoteWith o.again req.term req.candidateID,
        { term := req.term, voteGranted := true })
    else (n, { term := req.term, voteGranted := false })

/-- The first critical section of `HandleAppendEntries`, for a request that is not stale. -/
def handleAppendEntriesLocked (commit : Bool) (n : Node) (req : AppendEntriesRequest) : Node :=
  let n :=
    if n.log.currentTerm < req.term then n.stepDownWith commit req.term
    else if n.role = .candidate then { n with role := .follower }
    else n
  { n with leaderID := req.leaderID, leaderClientAddr := req.leaderClientAddr }

/-- The last critical section of `HandleAppendEntries`. -/
def commitLocked (n : Node) (leaderCommit : Nat) : Node :=
  let newCommit := min leaderCommit n.log.lastIndex
  if n.commitIndex < newCommit then { n with commitIndex := newCommit } else n

/-- The critical section of `applyCommitted` after an entry has been applied. -/
def markApplied (n : Node) (applied : Nat) : Node :=
  ({ n with lastApplied := applied }.notifyWritersLocked applied).satisfyPendingReadsLocked

def saveSnapshot (o : SaveOutcome) (n : Node) (snap : Snapshot) (info : SnapshotMeta) : Node :=
  { n with
    snapStore := o.store n.snapStore n.orphanMeta snap info
    orphanMeta := o.orphan n.snapStore n.orphanMeta }

end Node

/-! ## Places in the code -/

inductive Task where
  -- `becomeCandidate`
  | becomeCandidate
  | candidateTerm (newTerm : Nat)
  | candidateRole (newTerm : Nat)
  -- `becomeFollower`
  | becomeFollower (term : Nat) (leaderID leaderClientAddr : String)
  | followerCheck (term : Nat)
  | followerTerm (term : Nat)
  -- `becomeLeader`, up to the broadcast, with `appendLocal`
  | becomeLeader
  | appendLocal (e : Entry)
  | appendLocalIndex (e : Entry)
  | appendEntries (es : List Entry)
  -- `Propose`, up to the broadcast
  | propose (type : EntryType) (key : String) (value : Value) (clientRequestID : String)
  | handleRequestVote (req : RequestVoteRequest)
  -- `HandleAppendEntries`
  | handleAppendEntries (req : AppendEntriesRequest)
  | checkPrev (req : AppendEntriesRequest)
  | refuseShort (req : AppendEntriesRequest)
  | refuseFirst (req : AppendEntriesRequest) (conflictTerm conflictIndex : Nat)
  | refuseTerm (req : AppendEntriesRequest) (conflictTerm conflictIndex : Nat)
  | appendRequest (req : AppendEntriesRequest)
  | commitCheck (req : AppendEntriesRequest)
  | commitSet (req : AppendEntriesRequest)
  -- `HandleInstallSnapshot`
  | handleInstallSnapshot (req : InstallSnapshotRequest)
  | installTerm (req : InstallSnapshotRequest)
  | installRole (req : InstallSnapshotRequest)
  | installLoad (req : InstallSnapshotRequest)
  | installSave (req : InstallSnapshotRequest) (snap : Snapshot)
  | installRestore (req : InstallSnapshotRequest) (snap : Snapshot)
  | installBoundary (req : InstallSnapshotRequest)
  | installIndices (req : InstallSnapshotRequest)
  -- `applyCommitted` with `maybeSnapshot`; `applied` is the loop's variable
  | applyCommitted
  | applyNext (applied commit : Nat)
  | applyEntry (applied commit : Nat) (e : Entry)
  | applyMark (applied commit : Nat)
  | snapLoad (applied commit : Nat)
  | snapTerm (applied commit : Nat)
  | snapDump (applied commit term : Nat)
  | snapSave (applied commit term : Nat) (dump : Snapshot)
  | snapCompact (applied commit term : Nat)
  -- `replicateToPeer`, up to the RPC, with `sendInstallSnapshot`
  | replicateToPeer (peerID : NodeID) (term : Nat)
  | replFirst (term nextIdx : Nat)
  | replPrev (term nextIdx : Nat)
  | replLast (term nextIdx prevLogTerm : Nat)
  | replRange (term nextIdx prevLogTerm stop : Nat)
  | replSend (term nextIdx prevLogTerm : Nat) (entries : List Entry)
  | sendInstallSnapshot (term : Nat)
  -- `replicateToPeer` and `sendInstallSnapshot` after the RPC has answered
  | replicated (peerID : NodeID) (req : AppendEntriesRequest) (resp : AppendEntriesResponse)
  | snapshotInstalled (peerID : NodeID) (req : InstallSnapshotRequest)
      (resp : InstallSnapshotResponse)
  | tryAdvanceCommitIndex (term : Nat)

/-- What a call returns, or hands to the transport. -/
inductive Result where
  | returned
  | term (newTerm : Nat)
  | proposed (e : Entry)
  | notLeader
  | appendFailed
  | vote (resp : RequestVoteResponse)
  | append (resp : AppendEntriesResponse)
  | snapshot (resp : InstallSnapshotResponse)
  | sent (out : Node.Outgoing)

namespace Task

/-- The first steps of the calls that goroutines make. -/
def IsCall : Task → Bool
  | .becomeCandidate | .becomeFollower .. | .becomeLeader | .propose ..
  | .handleRequestVote _ | .handleAppendEntries _ | .handleInstallSnapshot _
  | .applyCommitted | .replicateToPeer .. | .replicated .. | .snapshotInstalled ..
  | .tryAdvanceCommitIndex _ => true
  | _ => false

/-- What the step does to the node. A step that is not listed only reads. -/
def effect (me : Member) (o : StorageOutcome) (n : Node) : Task → Node
  | .candidateTerm newTerm => n.setTermAndVoteWith o.commit newTerm me.id
  | .candidateRole _ => { n with role := .candidate, leaderID := "", leaderClientAddr := "" }
  | .becomeFollower _ leaderID leaderClientAddr =>
    n.becomeFollowerLocked leaderID leaderClientAddr
  | .followerTerm term => n.setTermAndVoteWith o.commit term ""
  | .becomeLeader => n.becomeLeaderLocked me
  | .appendEntries es => { n with log := (n.log.appendEntries o.commit es).1 }
  | .propose type key value clientRequestID =>
    if n.role ≠ .leader then n
    else n.proposeLocked o.commit (n.proposed type key value clientRequestID)
  | .handleRequestVote req => (n.handleRequestVoteLocked o req).1
  | .handleAppendEntries req =>
    if req.term < n.log.currentTerm then n else n.handleAppendEntriesLocked o.commit req
  | .appendRequest req => { n with log := (n.log.appendEntries o.commit req.entries).1 }
  | .commitSet req => n.commitLocked req.leaderCommit
  | .installTerm req => n.setTermAndVoteWith o.commit req.term ""
  | .installRole req => { n with role := .follower, leaderID := req.leaderID }
  | .installSave req snap =>
    n.saveSnapshot o.save snap ⟨req.lastIncludedIndex, req.lastIncludedTerm⟩
  | .installRestore _ snap => if o.commit then { n with sm := snap.pairs } else n
  | .installBoundary req =>
    { n with log := (n.log.restoreSnapshotBoundary o.commit req.lastIncludedIndex
        req.lastIncludedTerm).1 }
  | .installIndices req =>
    { n with lastApplied := req.lastIncludedIndex, commitIndex := req.lastIncludedIndex }
  | .applyEntry _ _ e => if o.commit then { n with sm := Node.applyEntry n.sm e } else n
  | .applyMark applied _ => n.markApplied applied
  | .snapSave applied _ term dump => n.saveSnapshot o.save dump ⟨applied, term⟩
  | .snapCompact applied _ term =>
    { n with log := (n.log.compactPrefix o.commit applied term).1 }
  | .replicated peerID req resp =>
    if req.term < resp.term then n else n.replicated peerID req resp
  | .snapshotInstalled peerID req resp =>
    if req.term < resp.term then n else n.snapshotInstalled peerID req resp
  | .tryAdvanceCommitIndex term => n.tryAdvanceCommitIndex me term
  | _ => n

/-- Where the call stands after the step, or what it returns. -/
def next (me : Member) (o : StorageOutcome) (n : Node) : Task → Task ⊕ Result
  | .becomeCandidate => .inl (.candidateTerm ((n.log.currentTerm + 1) % 2 ^ 64))
  | .candidateTerm newTerm => .inl (.candidateRole newTerm)
  | .candidateRole newTerm => .inr (.term newTerm)
  | .becomeFollower term _ _ => .inl (.followerCheck term)
  | .followerCheck term =>
    if n.log.currentTerm < term then .inl (.followerTerm term) else .inr .returned
  | .followerTerm _ => .inr .returned
  | .becomeLeader =>
    if n.role ≠ .candidate then .inr .returned
    else .inl (.appendLocal { index := 0, term := 0, type := .noop })
  | .appendLocal e => .inl (.appendLocalIndex { e with term := n.log.currentTerm })
  | .appendLocalIndex e => .inl (.appendEntries [{ e with index := n.log.lastIndex + 1 }])
  | .appendEntries _ => .inr .returned
  | .propose type key value clientRequestID =>
    if n.role ≠ .leader then .inr .notLeader
    else if o.commit then .inr (.proposed (n.proposed type key value clientRequestID))
    else .inr .appendFailed
  | .handleRequestVote req => .inr (.vote (n.handleRequestVoteLocked o req).2)
  | .handleAppendEntries req =>
    if req.term < n.log.currentTerm then
      .inr (.append { term := n.log.currentTerm, success := false })
    else .inl (.checkPrev req)
  | .checkPrev req =>
    if 0 < req.prevLogIndex then
      match n.log.termAt req.prevLogIndex with
      | none => .inl (.refuseShort req)
      | some myTerm =>
        if myTerm ≠ req.prevLogTerm then .inl (.refuseFirst req myTerm req.prevLogIndex)
        else .inl (.appendRequest req)
    else .inl (.appendRequest req)
  | .refuseShort req =>
    .inr (.append { term := req.term, success := false, conflictIndex := n.log.lastIndex + 1 })
  | .refuseFirst req conflictTerm conflictIndex =>
    if n.log.firstIndex < conflictIndex then .inl (.refuseTerm req conflictTerm conflictIndex)
    else .inr (.append { term := req.term, success := false, conflictTerm, conflictIndex })
  | .refuseTerm req conflictTerm conflictIndex =>
    if n.log.termAt (conflictIndex - 1) = some conflictTerm then
      .inl (.refuseFirst req conflictTerm (conflictIndex - 1))
    else .inr (.append { term := req.term, success := false, conflictTerm, conflictIndex })
  | .appendRequest req =>
    if req.entries = [] ∨ o.commit then .inl (.commitCheck req)
    else .inr (.append { term := req.term, success := false })
  | .commitCheck req =>
    if n.commitIndex < req.leaderCommit then .inl (.commitSet req)
    else .inr (.append { term := req.term, success := true })
  | .commitSet req => .inr (.append { term := req.term, success := true })
  | .handleInstallSnapshot req =>
    if req.term < n.log.currentTerm then .inr (.snapshot { term := n.log.currentTerm })
    else if n.log.currentTerm < req.term then .inl (.installTerm req)
    else .inl (.installRole req)
  | .installTerm req => .inl (.installRole req)
  | .installRole req => .inl (.installLoad req)
  | .installLoad req =>
    if n.snapStore.any fun s => req.lastIncludedIndex ≤ s.2.lastIncludedIndex then
      .inr (.snapshot { term := req.term })
    else match unmarshalSnapshot req.data with
      | none => .inr (.snapshot { term := req.term })
      | some snap => .inl (.installSave req snap)
  | .installSave req snap =>
    if o.save = .done then .inl (.installRestore req snap)
    else .inr (.snapshot { term := req.term })
  | .installRestore req _ =>
    if o.commit then .inl (.installBoundary req) else .inr (.snapshot { term := req.term })
  | .installBoundary req =>
    if o.commit then .inl (.installIndices req) else .inr (.snapshot { term := req.term })
  | .installIndices req => .inr (.snapshot { term := req.term })
  | .applyCommitted => .inl (.applyNext n.lastApplied n.commitIndex)
  | .applyNext applied commit =>
    if applied < commit then
      match n.log.get (applied + 1) with
      | .ok e => .inl (.applyEntry (applied + 1) commit e)
      | .error _ => .inr .returned
    else .inr .returned
  | .applyEntry applied commit e =>
    if o.commit ∨ e.type = .noop then .inl (.applyMark applied commit) else .inr .returned
  | .applyMark applied commit =>
    if 0 < me.opts.snapshotThreshold ∧ applied % me.opts.snapshotThreshold = 0 then
      .inl (.snapLoad applied commit)
    else .inl (.applyNext applied commit)
  | .snapLoad applied commit =>
    if n.snapStore.any fun s => applied ≤ s.2.lastIncludedIndex then
      .inl (.applyNext applied commit)
    else .inl (.snapTerm applied commit)
  | .snapTerm applied commit =>
    match n.log.termAt applied with
    | none => .inl (.applyNext applied commit)
    | some term => .inl (.snapDump applied commit term)
  | .snapDump applied commit term => .inl (.snapSave applied commit term ⟨n.sm⟩)
  | .snapSave applied commit term _ =>
    if o.save = .done then .inl (.snapCompact applied commit term)
    else .inl (.applyNext applied commit)
  | .snapCompact applied commit _ => .inl (.applyNext applied commit)
  | .replicateToPeer peerID term =>
    if n.role ≠ .leader ∨ n.log.currentTerm ≠ term then .inr .returned
    else .inl (.replFirst term (n.nextIndex peerID))
  | .replFirst term nextIdx =>
    if nextIdx < n.log.firstIndex then .inl (.sendInstallSnapshot term)
    else .inl (.replPrev term nextIdx)
  | .replPrev term nextIdx =>
    if (n.log.termAt (nextIdx - 1)).isNone ∧ nextIdx - 1 ≠ 0 then
      .inl (.sendInstallSnapshot term)
    else .inl (.replLast term nextIdx ((n.log.termAt (nextIdx - 1)).getD 0))
  | .replLast term nextIdx prevLogTerm =>
    if nextIdx ≤ n.log.lastIndex then
      .inl (.replRange term nextIdx prevLogTerm (Node.batchEnd me nextIdx n.log.lastIndex))
    else .inl (.replSend term nextIdx prevLogTerm [])
  | .replRange term nextIdx prevLogTerm stop =>
    match n.log.range nextIdx stop with
    | .error _ => .inl (.sendInstallSnapshot term)
    | .ok entries => .inl (.replSend term nextIdx prevLogTerm entries)
  | .replSend term nextIdx prevLogTerm entries =>
    .inr (.sent (.appendEntries {
      term
      leaderID := me.id
      prevLogIndex := nextIdx - 1
      prevLogTerm
      entries
      leaderCommit := n.commitIndex
      leaderClientAddr := me.selfClientAddr }))
  | .sendInstallSnapshot term =>
    match n.sendInstallSnapshot me term with
    | none => .inr .returned
    | some out => .inr (.sent out)
  | .replicated _ req resp =>
    if req.term < resp.term then .inl (.becomeFollower resp.term "" "") else .inr .returned
  | .snapshotInstalled _ req resp =>
    if req.term < resp.term then .inl (.becomeFollower resp.term "" "") else .inr .returned
  | .tryAdvanceCommitIndex _ => .inr .returned

end Task

/-- The calls of one process. After a crash `NewNode` starts from what the storage holds, with
options that may have been changed; it returns the error of a `LoadLatest` that fails. -/
def threads : Program Process Task StorageOutcome Result Options where
  exec s t o := ({ s with node := t.effect s.me o s.node }, t.next s.me o s.node)
  recover s opts :=
    if s.node.orphanMeta.isSome then none
    else some {
      me := { s.me with opts }
      node := newNode s.node.log.engine s.node.sm s.node.snapStore (s.node.epoch + 1) }

end DistributedKV.Raft
