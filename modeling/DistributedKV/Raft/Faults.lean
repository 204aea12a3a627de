import DistributedKV.Raft.Threads

/-!
# Handlers with storage faults

`HandleRequestVote` and `HandleInstallSnapshot` with an outcome for each of the storage calls they
make, reads included. A call of `Task` gives one outcome to a step and lets reads succeed; these
handlers say what the response of a node is worth whatever fails. The second version of
`HandleInstallSnapshot` works on the files of the snapshot store, down to the system calls of
`Save`.
-/

namespace DistributedKV.Raft

/-- `LastTerm`, where `read` says whether the engine can read the entry. An error counts as
term 0. -/
def PersistentLog.lastTermWith (read : Bool) (pl : PersistentLog) : Nat :=
  if pl.lastIndex = pl.lastIncludedIndex then pl.lastIncludedTerm
  else match lookup pl.tailCache pl.lastIndex with
    | some e => e.term
    | none =>
      match read, pl.getLocked pl.lastIndex with
      | true, .ok e => e.term
      | _, _ => 0

/-- How the storage calls of `HandleRequestVote` end. -/
structure VoteOutcome where
  /-- `SetTermAndVote` for the higher term. -/
  stepDown : Bool := true
  /-- The read in `LastTerm`. -/
  lastTerm : Bool := true
  /-- `SetTermAndVote` for the vote. -/
  vote : Bool := true

/-- How the storage calls of `HandleInstallSnapshot` end. -/
structure InstallOutcome where
  /-- `SetTermAndVote` for the higher term. -/
  stepDown : Bool := true
  /-- `LoadLatest`. -/
  load : Bool := true
  save : SaveOutcome := .done
  /-- `Restore` of the state machine. -/
  restore : Bool := true
  /-- `RestoreSnapshotBoundary`. -/
  boundary : Bool := true

namespace Node

def candidateLogUpToDateWith (read : Bool) (n : Node) (lastLogIndex lastLogTerm : Nat) : Bool :=
  if lastLogTerm ≠ n.log.lastTermWith read then decide (n.log.lastTermWith read < lastLogTerm)
  else decide (n.log.lastIndex ≤ lastLogIndex)

/-- `HandleRequestVote`, which ignores the errors of `SetTermAndVote`. -/
def handleRequestVoteWith (o : VoteOutcome) (n : Node) (req : RequestVoteRequest) :
    Node × RequestVoteResponse :=
  if req.term < n.log.currentTerm then
    (n, { term := n.log.currentTerm, voteGranted := false })
  else
    let n :=
      if n.log.currentTerm < req.term then
        { n.stepDownWith o.stepDown req.term with leaderID := "", leaderClientAddr := "" }
      else n
    if (n.log.votedFor = "" ∨ n.log.votedFor = req.candidateID) ∧
        n.candidateLogUpToDateWith o.lastTerm req.lastLogIndex req.lastLogTerm then
      (n.setTermAndVoteWith o.vote req.term req.candidateID,
        { term := req.term, voteGranted := true })
    else (n, { term := req.term, voteGranted := false })

/-- `HandleInstallSnapshot` once the node follows the sender. It returns early when something fails;
a `LoadLatest` that fails counts as if there were no snapshot. -/
def installWith (o : InstallOutcome) (n : Node) (req : InstallSnapshotRequest) : Node :=
  if o.load ∧ n.snapStore.any fun s => req.lastIncludedIndex ≤ s.2.lastIncludedIndex then n
  else match unmarshalSnapshot req.data with
    | none => n
    | some snap =>
      let n := n.saveSnapshot o.save snap ⟨req.lastIncludedIndex, req.lastIncludedTerm⟩
      if o.save ≠ .done then n
      else if o.restore = false then n
      else
        let n := { n with
          sm := snap.pairs
          log := (n.log.restoreSnapshotBoundary o.boundary req.lastIncludedIndex
            req.lastIncludedTerm).1 }
        if o.boundary = false then n
        else
          { n with
            lastApplied := req.lastIncludedIndex
            commitIndex := req.lastIncludedIndex }

/-- `HandleInstallSnapshot`, which gives the same answer at all its exits after the first one. -/
def handleInstallSnapshotWith (o : InstallOutcome) (n : Node) (req : InstallSnapshotRequest) :
    Node × InstallSnapshotResponse :=
  if req.term < n.log.currentTerm then (n, { term := n.log.currentTerm })
  else
    let n :=
      if n.log.currentTerm < req.term then n.setTermAndVoteWith o.stepDown req.term "" else n
    let n := { n with role := .follower, leaderID := req.leaderID }
    (n.installWith o req, { term := req.term })

end Node

/-! ## On the snapshot directory -/

/-- How the storage calls of `HandleInstallSnapshot` end, down to the system calls of `Save`. -/
structure InstallCalls where
  /-- `SetTermAndVote` for the higher term. -/
  stepDown : Bool := true
  /-- `LoadLatest`. -/
  load : Bool := true
  /-- The system calls of `Save`, ten of them if none fails. -/
  save : List Bool := List.replicate 10 true
  /-- `Restore` of the state machine. -/
  restore : Bool := true
  /-- `RestoreSnapshotBoundary`. -/
  boundary : Bool := true

/-- What `LoadLatest` finds, where an error is ignored. -/
def Files.latest (fs : Files) : Option (Snapshot × SnapshotMeta) :=
  match fs.loadLatest with
  | .ok latest => latest
  | .error _ => none

namespace Node

/-- `HandleInstallSnapshot` after `Save` has succeeded. -/
def installSaved (o : InstallCalls) (n : Node) (req : InstallSnapshotRequest) (snap : Snapshot) :
    Node :=
  if o.restore = false then n
  else
    let n := { n with
      sm := snap.pairs
      log := (n.log.restoreSnapshotBoundary o.boundary req.lastIncludedIndex
        req.lastIncludedTerm).1 }
    if o.boundary = false then n
    else
      { n with
        lastApplied := req.lastIncludedIndex
        commitIndex := req.lastIncludedIndex }

/-- `installWith` on the directory `fs`, which stands in place of `snapStore`. -/
def installOn (o : InstallCalls) (n : Node) (fs : Files) (req : InstallSnapshotRequest) :
    Node × Files :=
  if o.load ∧ fs.latest.any fun s => req.lastIncludedIndex ≤ s.2.lastIncludedIndex then (n, fs)
  else match unmarshalSnapshot req.data with
    | none => (n, fs)
    | some snap =>
      match saver.advance fs (.start snap ⟨req.lastIncludedIndex, req.lastIncludedTerm⟩) o.save with
      | (fs, .inr (.ok ())) => (n.installSaved o req snap, fs)
      | (fs, _) => (n, fs)

def handleInstallSnapshotOn (o : InstallCalls) (n : Node) (fs : Files)
    (req : InstallSnapshotRequest) : (Node × Files) × InstallSnapshotResponse :=
  if req.term < n.log.currentTerm then ((n, fs), { term := n.log.currentTerm })
  else
    let n :=
      if n.log.currentTerm < req.term then n.setTermAndVoteWith o.stepDown req.term "" else n
    let n := { n with role := .follower, leaderID := req.leaderID }
    (n.installOn o fs req, { term := req.term })

end Node

end DistributedKV.Raft
