import DistributedKV.Raft.Threads
import DistributedKV.Verify.Node

/-!
# The threads and the atomic operations

A call that nothing disturbs, on storage that does not fail, does in its steps what the operation
of the same name in `Raft.Node` does in one. The second part says what a single step can do to the
parts of a node that other calls rely on.
-/

namespace DistributedKV.Raft

open Theory

variable {me : Member} {n : Node}

/-! ## Calls by themselves -/

theorem Goes.task {t : Task} (h : t.next me o n = .inl t₁)
    (hg : threads.Goes o ⟨me, t.effect me o n⟩ t₁ s' x) : threads.Goes o ⟨me, n⟩ t s' x :=
  .next (congrArg (Prod.mk _) h) hg

theorem Goes.result {t : Task} (h : t.next me o n = .inr r) :
    threads.Goes o ⟨me, n⟩ t ⟨me, t.effect me o n⟩ (.inr r) :=
  .ret (congrArg (Prod.mk _) h)

/-- The last step of a call, if it does not change the node. -/
theorem Goes.result_same {t : Task} (h : t.next me o n = .inr r) (he : t.effect me o n = n) :
    threads.Goes o ⟨me, n⟩ t ⟨me, n⟩ (.inr r) := by
  have := Goes.result h
  rwa [he] at this

theorem goes_becomeFollower (term : ℕ) (leaderID addr : String) :
    threads.Goes {} ⟨me, n⟩ (.becomeFollower term leaderID addr)
      ⟨me, n.becomeFollower term leaderID addr⟩ (.inr .returned) := by
  set m := n.becomeFollowerLocked leaderID addr
  have hdef : n.becomeFollower term leaderID addr =
      if m.log.currentTerm < term then m.setTermAndVote term "" else m := rfl
  refine Goes.task rfl ?_
  rw [hdef]
  split
  · next hlt => exact Goes.task (if_pos hlt) (Goes.result rfl)
  · next hge => exact Goes.result (if_neg hge)

theorem goes_becomeCandidate (h : n.log.currentTerm + 1 < 2 ^ 64) :
    threads.Goes {} ⟨me, n⟩ .becomeCandidate ⟨me, n.becomeCandidate me⟩
      (.inr (.term (n.log.currentTerm + 1))) := by
  have hread : Task.becomeCandidate.next me {} n =
      .inl (.candidateTerm (n.log.currentTerm + 1)) := by
    rw [Task.next, Nat.mod_eq_of_lt h]
  exact Goes.task hread (Goes.task rfl (Goes.result rfl))

theorem goes_becomeLeader :
    threads.Goes {} ⟨me, n⟩ .becomeLeader ⟨me, n.becomeLeader me⟩ (.inr .returned) := by
  unfold Node.becomeLeader
  split
  · next hrole => exact Goes.result_same (t := .becomeLeader) (if_pos hrole) (if_pos hrole)
  · next hrole =>
    refine Goes.task (if_neg hrole) (Goes.task rfl (Goes.task rfl ?_))
    have heff : Task.becomeLeader.effect me {} n = _ := if_neg hrole
    rw [heff]
    exact Goes.result rfl

theorem goes_propose (h : n.propose type key value clientRequestID = .ok n') :
    threads.Goes {} ⟨me, n⟩ (.propose type key value clientRequestID) ⟨me, n'⟩
      (.inr (.proposed (n.proposed type key value clientRequestID))) := by
  unfold Node.propose at h
  split at h
  · cases h
  · next hrole =>
    cases h
    have hgo : threads.Goes {} ⟨me, n⟩ (.propose type key value clientRequestID)
        ⟨me, (Task.propose type key value clientRequestID).effect me {} n⟩
        (.inr (.proposed (n.proposed type key value clientRequestID))) :=
      Goes.result (if_neg hrole)
    have heff : (Task.propose type key value clientRequestID).effect me {} n = _ := if_neg hrole
    rwa [heff] at hgo

theorem goes_handleRequestVote (req : RequestVoteRequest) :
    threads.Goes {} ⟨me, n⟩ (.handleRequestVote req) ⟨me, (n.handleRequestVote req).1⟩
      (.inr (.vote (n.handleRequestVote req).2)) := Goes.result rfl

/-- The search for the first index of the conflicting term. -/
theorem goes_refuseFirst (req : AppendEntriesRequest) (conflictTerm conflictIndex : ℕ) :
    threads.Goes {} ⟨me, n⟩ (.refuseFirst req conflictTerm conflictIndex) ⟨me, n⟩
      (.inr (.append {
        term := req.term, success := false, conflictTerm
        conflictIndex := Node.conflictStart n.log conflictTerm conflictIndex })) := by
  induction conflictIndex with
  | zero => exact Goes.result rfl
  | succ i ih =>
    unfold Node.conflictStart
    by_cases hfirst : n.log.firstIndex < i + 1
    · refine Goes.task (if_pos hfirst) ?_
      by_cases hterm : n.log.termAt i = some conflictTerm
      · rw [if_pos ⟨hfirst, hterm⟩]
        exact Goes.task (if_pos hterm) ih
      · rw [if_neg fun h => hterm h.2]
        exact Goes.result (if_neg hterm)
    · rw [if_neg fun h => hfirst h.1]
      exact Goes.result (if_neg hfirst)

/-- A request that has passed the consistency check. -/
theorem goes_appendRequest (req : AppendEntriesRequest) :
    threads.Goes {} ⟨me, n⟩ (.appendRequest req)
      ⟨me, { n with log := (n.log.appendEntries true req.entries).1 }.followCommit
        req.leaderCommit⟩ (.inr (.append { term := req.term, success := true })) := by
  refine Goes.task (if_pos (.inr rfl)) ?_
  unfold Node.followCommit
  split
  · next hlt => exact Goes.task (if_pos hlt) (Goes.result rfl)
  · next hge => exact Goes.result (if_neg hge)

theorem goes_checkPrev (me : Member) (n : Node) (req : AppendEntriesRequest) :
    threads.Goes {} ⟨me, n⟩ (.checkPrev req)
      ⟨me, match Node.refusal n.log req with
        | some _ => n
        | none => { n with log := (n.log.appendEntries true req.entries).1 }.followCommit
            req.leaderCommit⟩
      (.inr (.append (match Node.refusal n.log req with
        | some resp => resp
        | none => { term := req.term, success := true }))) := by
  unfold Node.refusal
  by_cases hprev : 0 < req.prevLogIndex
  · have hnext : (Task.checkPrev req).next me {} n = _ := if_pos hprev
    simp only [hprev, if_true]
    cases hterm : n.log.termAt req.prevLogIndex with
    | none =>
      rw [hterm] at hnext
      exact Goes.task hnext (Goes.result rfl)
    | some myTerm =>
      rw [hterm] at hnext
      by_cases heq : myTerm = req.prevLogTerm
      · simp only [heq, ne_eq, not_true_eq_false, if_false] at hnext ⊢
        exact Goes.task hnext (goes_appendRequest req)
      · simp only [heq, ne_eq, not_false_eq_true, if_true] at hnext ⊢
        exact Goes.task hnext (goes_refuseFirst ..)
  · simp only [hprev, if_false]
    exact Goes.task (if_neg hprev) (goes_appendRequest req)

theorem goes_handleAppendEntries (req : AppendEntriesRequest) :
    threads.Goes {} ⟨me, n⟩ (.handleAppendEntries req) ⟨me, (n.handleAppendEntries req).1⟩
      (.inr (.append (n.handleAppendEntries req).2)) := by
  by_cases hstale : req.term < n.log.currentTerm
  · rw [Node.handleAppendEntries_stale hstale]
    exact Goes.result_same (t := .handleAppendEntries req) (if_pos hstale) (if_pos hstale)
  · set m := n.handleAppendEntriesLocked true req
    have heff : (Task.handleAppendEntries req).effect me {} n = m := if_neg hstale
    have hdef : n.handleAppendEntries req = match Node.refusal m.log req with
        | some resp => (m, resp)
        | none => ({ m with log := (m.log.appendEntries true req.entries).1 }.followCommit
            req.leaderCommit, { term := req.term, success := true }) := by
      rw [Node.handleAppendEntries, if_neg hstale]
      rfl
    have hrest := goes_checkPrev me m req
    refine Goes.task (if_neg hstale) ?_
    rw [heff, hdef]
    cases href : Node.refusal m.log req <;> rw [href] at hrest <;> exact hrest

/-- `HandleInstallSnapshot` once the node follows. -/
theorem goes_installLoad (me : Member) (n : Node) (req : InstallSnapshotRequest) :
    threads.Goes {} ⟨me, n⟩ (.installLoad req)
      ⟨me, if n.snapStore.any fun s => req.lastIncludedIndex ≤ s.2.lastIncludedIndex then n
        else match unmarshalSnapshot req.data with
          | none => n
          | some snap => { n with
            snapStore := some (snap, ⟨req.lastIncludedIndex, req.lastIncludedTerm⟩)
            orphanMeta := none
            sm := snap.pairs
            log := (n.log.restoreSnapshotBoundary true
              req.lastIncludedIndex req.lastIncludedTerm).1
            lastApplied := req.lastIncludedIndex
            commitIndex := req.lastIncludedIndex }⟩
      (.inr (.snapshot { term := req.term })) := by
  split
  · next hold => exact Goes.result (if_pos hold)
  · next hnew =>
    have hnext : (Task.installLoad req).next me {} n = _ := if_neg hnew
    cases hdata : unmarshalSnapshot req.data with
    | none =>
      rw [hdata] at hnext
      exact Goes.result hnext
    | some snap =>
      rw [hdata] at hnext
      exact Goes.task hnext (Goes.task rfl (Goes.task rfl (Goes.task rfl (Goes.result rfl))))

theorem goes_handleInstallSnapshot (req : InstallSnapshotRequest) :
    threads.Goes {} ⟨me, n⟩ (.handleInstallSnapshot req) ⟨me, (n.handleInstallSnapshot req).1⟩
      (.inr (.snapshot (n.handleInstallSnapshot req).2)) := by
  by_cases hstale : req.term < n.log.currentTerm
  · rw [Node.handleInstallSnapshot_stale hstale]
    exact Goes.result (if_pos hstale)
  -- the node that follows the sender in the request's term
  set m : Node := if n.log.currentTerm < req.term then n.setTermAndVote req.term "" else n with hm
  have hload := goes_installLoad me { m with role := .follower, leaderID := req.leaderID } req
  have hdef : n.handleInstallSnapshot req =
      (if m.snapStore.any fun s => req.lastIncludedIndex ≤ s.2.lastIncludedIndex then
        { m with role := .follower, leaderID := req.leaderID }
      else match unmarshalSnapshot req.data with
        | none => { m with role := .follower, leaderID := req.leaderID }
        | some snap => { m with
          role := .follower
          leaderID := req.leaderID
          snapStore := some (snap, ⟨req.lastIncludedIndex, req.lastIncludedTerm⟩)
          orphanMeta := none
          sm := snap.pairs
          log := (m.log.restoreSnapshotBoundary true
            req.lastIncludedIndex req.lastIncludedTerm).1
          lastApplied := req.lastIncludedIndex
          commitIndex := req.lastIncludedIndex }, { term := req.term }) := by
    rw [Node.handleInstallSnapshot, if_neg hstale]
    show (if m.snapStore.any _ then _ else _) = _
    split
    · rfl
    · cases unmarshalSnapshot req.data <;> rfl
  rw [hdef]
  have hfirst : (Task.handleInstallSnapshot req).next me {} n = _ := if_neg hstale
  by_cases hlt : n.log.currentTerm < req.term
  · rw [if_pos hlt] at hfirst
    rw [if_pos hlt] at hm
    refine Goes.task hfirst (Goes.task rfl (Goes.task rfl ?_))
    rw [hm] at hload ⊢
    exact hload
  · rw [if_neg hlt] at hfirst
    rw [if_neg hlt] at hm
    refine Goes.task hfirst (Goes.task rfl ?_)
    rw [hm] at hload ⊢
    exact hload

/-- What `replicateToPeer` hands to the transport, if anything. -/
def Result.ofSend : Option Node.Outgoing → Result
  | none => .returned
  | some out => .sent out

theorem goes_sendInstallSnapshot (term : ℕ) :
    threads.Goes {} ⟨me, n⟩ (.sendInstallSnapshot term) ⟨me, n⟩
      (.inr (.ofSend (n.sendInstallSnapshot me term))) := by
  refine Goes.result (t := .sendInstallSnapshot term) ?_
  show (match n.sendInstallSnapshot me term with | none => _ | some out => _) = _
  cases n.sendInstallSnapshot me term <;> rfl

theorem goes_replicateToPeer (peerID : NodeID) (term : ℕ) :
    threads.Goes {} ⟨me, n⟩ (.replicateToPeer peerID term) ⟨me, n⟩
      (.inr (.ofSend (n.replicateToPeer me peerID term))) := by
  unfold Node.replicateToPeer
  split
  · next hout => exact Goes.result (t := .replicateToPeer peerID term) (if_pos hout)
  next hin =>
  refine Goes.task (if_neg hin) ?_
  dsimp only
  split
  · next hlt => exact Goes.task (if_pos hlt) (goes_sendInstallSnapshot term)
  next hge =>
  refine Goes.task (if_neg hge) ?_
  split
  · next hno => exact Goes.task (if_pos hno) (goes_sendInstallSnapshot term)
  next hyes =>
  refine Goes.task (if_neg hyes) ?_
  by_cases hle : n.nextIndex peerID ≤ n.log.lastIndex
  · refine Goes.task (if_pos hle) ?_
    rw [if_pos hle]
    cases hr : n.log.range (n.nextIndex peerID)
        (Node.batchEnd me (n.nextIndex peerID) n.log.lastIndex) with
    | error =>
      have hnext (t p : ℕ) : (Task.replRange t (n.nextIndex peerID) p
          (Node.batchEnd me (n.nextIndex peerID) n.log.lastIndex)).next me {} n =
          .inl (.sendInstallSnapshot t) := by rw [Task.next, hr]
      exact Goes.task (hnext _ _) (goes_sendInstallSnapshot term)
    | ok entries =>
      have hnext (t p : ℕ) : (Task.replRange t (n.nextIndex peerID) p
          (Node.batchEnd me (n.nextIndex peerID) n.log.lastIndex)).next me {} n =
          .inl (.replSend t (n.nextIndex peerID) p entries) := by rw [Task.next, hr]
      exact Goes.task (hnext _ _) (Goes.result rfl)
  · rw [if_neg hle]
    exact Goes.task (if_neg hle) (Goes.result rfl)

theorem goes_maybeSnapshot (i commit : ℕ) :
    threads.Goes {} ⟨me, n⟩ (.snapLoad i commit) ⟨me, n.maybeSnapshot i⟩
      (.inl (.applyNext i commit)) := by
  unfold Node.maybeSnapshot
  split
  · next hold => exact Goes.task (if_pos hold) .refl
  · next hnew =>
    refine Goes.task (if_neg hnew) ?_
    cases hterm : n.log.termAt i with
    | none =>
      have hnext : (Task.snapTerm i commit).next me {} n = .inl (.applyNext i commit) := by
        rw [Task.next, hterm]
      exact Goes.task hnext .refl
    | some term =>
      have hnext : (Task.snapTerm i commit).next me {} n = .inl (.snapDump i commit term) := by
        rw [Task.next, hterm]
      exact Goes.task hnext (Goes.task rfl (Goes.task rfl (Goes.task rfl .refl)))

/-- One iteration of the apply loop. `Node.applying`, where the atomic model keeps the variables
of the loop, does not change here. -/
theorem goes_applyNext {i commit : ℕ} (hi : i < commit) (he : n.log.get (i + 1) = .ok e) :
    threads.Goes {} ⟨me, n⟩ (.applyNext i commit)
      ⟨me, { n.applyOne me (i + 1) commit e with applying := n.applying }⟩
      (.inl (.applyNext (i + 1) commit)) := by
  have hget : (Task.applyNext i commit).next me {} n = .inl (.applyEntry (i + 1) commit e) := by
    simp [Task.next, hi, he]
  have happly : (Task.applyEntry (i + 1) commit e).next me {} n =
      .inl (.applyMark (i + 1) commit) := by simp [Task.next]
  set m : Node := { n.afterApply (i + 1) commit e with applying := n.applying }
  have hmark : Node.markApplied { n with sm := Node.applyEntry n.sm e } (i + 1) = m := by
    unfold Node.markApplied m Node.afterApply Node.notifyWritersLocked
    dsimp only
    split <;> rfl
  have hsnap : { (n.afterApply (i + 1) commit e).maybeSnapshot (i + 1) with
      applying := n.applying } = m.maybeSnapshot (i + 1) := by
    unfold Node.maybeSnapshot m
    dsimp only
    split
    · rfl
    · cases (n.afterApply (i + 1) commit e).log.termAt (i + 1) <;> rfl
  have hone : { n.applyOne me (i + 1) commit e with applying := n.applying } =
      if 0 < me.opts.snapshotThreshold ∧ (i + 1) % me.opts.snapshotThreshold = 0 then
        m.maybeSnapshot (i + 1)
      else m := by
    rw [← hsnap]
    unfold Node.applyOne
    split <;> rfl
  refine Goes.task hget (Goes.task happly ?_)
  rw [hone]
  split
  · next hthr =>
    refine Goes.task (if_pos hthr) ?_
    change threads.Goes {}
      ⟨me, Node.markApplied { n with sm := Node.applyEntry n.sm e } (i + 1)⟩ _ _ _
    rw [hmark]
    exact goes_maybeSnapshot (i + 1) commit
  · next hthr =>
    refine Goes.task (if_neg hthr) ?_
    change threads.Goes {}
      ⟨me, Node.markApplied { n with sm := Node.applyEntry n.sm e } (i + 1)⟩ _ _ _
    rw [hmark]
    exact .refl

/-! ## Which call a task belongs to -/

inductive Call where
  | candidate
  | follower
  | leader
  | propose
  | requestVote
  | appendEntries
  | installSnapshot
  | apply
  | replicate
  | advance
  deriving DecidableEq

/-- The handling of a response ends in `becomeFollower` and counts as that. -/
def Task.inCall : Task → Call
  | .becomeCandidate | .candidateTerm _ | .candidateRole _ => .candidate
  | .becomeFollower .. | .followerCheck _ | .followerTerm _
  | .replicated .. | .snapshotInstalled .. => .follower
  | .becomeLeader | .appendLocal _ | .appendLocalIndex _ | .appendEntries _ => .leader
  | .propose .. => .propose
  | .handleRequestVote _ => .requestVote
  | .handleAppendEntries _ | .checkPrev _ | .refuseShort _ | .refuseFirst .. | .refuseTerm ..
  | .appendRequest _ | .commitCheck _ | .commitSet _ => .appendEntries
  | .handleInstallSnapshot _ | .installTerm _ | .installRole _ | .installLoad _
  | .installSave .. | .installRestore .. | .installBoundary _ | .installIndices _ =>
    .installSnapshot
  | .applyCommitted | .applyNext .. | .applyEntry .. | .applyMark .. | .snapLoad ..
  | .snapTerm .. | .snapDump .. | .snapSave .. | .snapCompact .. => .apply
  | .replicateToPeer .. | .replFirst .. | .replPrev .. | .replLast .. | .replRange ..
  | .replSend .. | .sendInstallSnapshot _ => .replicate
  | .tryAdvanceCommitIndex _ => .advance

theorem Task.next_inCall {t : Task} (h : t.next me o n = .inl t') : t'.inCall = t.inCall := by
  cases t with
  | checkPrev =>
    dsimp only [Task.next] at h
    split at h
    · split at h
      · cases h; rfl
      · split at h <;> cases h <;> rfl
    · cases h; rfl
  | handleInstallSnapshot =>
    dsimp only [Task.next] at h
    split at h
    · cases h
    · split at h <;> cases h <;> rfl
  | installLoad | propose =>
    dsimp only [Task.next] at h
    split at h
    · cases h
    · split at h <;> cases h <;> rfl
  | applyNext =>
    dsimp only [Task.next] at h
    split at h
    · split at h <;> cases h
      rfl
    · cases h
  | followerCheck | becomeLeader | handleAppendEntries | refuseFirst | refuseTerm | appendRequest
  | commitCheck | installSave | installRestore | installBoundary | applyEntry | applyMark
  | snapLoad | snapTerm | snapSave | replicateToPeer | replFirst | replPrev | replLast
  | replRange | sendInstallSnapshot | replicated | snapshotInstalled =>
    dsimp only [Task.next] at h
    split at h <;> cases h <;> rfl
  | _ => cases h <;> rfl

/-! ## What a step does to the log -/

namespace Task

/-- The log after a step. -/
def log (me : Member) (o : StorageOutcome) (n : Node) : Task → PersistentLog
  | .candidateTerm newTerm => (n.log.setTermAndVote o.commit newTerm me.id).1
  | .followerTerm term => (n.log.setTermAndVote o.commit term "").1
  | .installTerm req => (n.log.setTermAndVote o.commit req.term "").1
  | .handleRequestVote req => (n.handleRequestVoteLocked o req).1.log
  | .handleAppendEntries req =>
    if n.log.currentTerm < req.term then (n.log.setTermAndVote o.commit req.term "").1 else n.log
  | .appendEntries es => (n.log.appendEntries o.commit es).1
  | .propose type key value clientRequestID =>
    if n.role ≠ .leader then n.log
    else (n.log.appendEntries o.commit [n.proposed type key value clientRequestID]).1
  | .appendRequest req => (n.log.appendEntries o.commit req.entries).1
  | .installBoundary req =>
    (n.log.restoreSnapshotBoundary o.commit req.lastIncludedIndex req.lastIncludedTerm).1
  | .snapCompact applied _ term => (n.log.compactPrefix o.commit applied term).1
  | _ => n.log

theorem stepDownWith_log (n : Node) (commit : Bool) (term : ℕ) :
    (n.stepDownWith commit term).log = (n.log.setTermAndVote commit term "").1 := by
  unfold Node.stepDownWith
  split <;> rfl

theorem effect_log (me : Member) (o : StorageOutcome) (n : Node) (t : Task) :
    (t.effect me o n).log = t.log me o n := by
  cases t with
  | becomeFollower => dsimp only [effect, Node.becomeFollowerLocked]; split <;> rfl
  | becomeLeader => dsimp only [effect, Node.becomeLeaderLocked]; split <;> rfl
  | propose =>
    dsimp only [effect, log, Node.proposeLocked]
    split
    · rfl
    · cases o.commit <;> rfl
  | handleAppendEntries req =>
    dsimp only [effect, log, Node.handleAppendEntriesLocked]
    split
    · rw [if_neg (by omega)]
    · split
      · exact stepDownWith_log ..
      · split <;> rfl
  | commitSet => dsimp only [effect, Node.commitLocked]; split <;> rfl
  | installRestore => dsimp only [effect]; split <;> rfl
  | applyEntry => dsimp only [effect]; split <;> rfl
  | applyMark =>
    dsimp only [effect, Node.markApplied]
    rw [Node.notifyWritersLocked_eq]
    rfl
  | replicated peerID req resp =>
    dsimp only [effect]
    split
    · rfl
    · next hle => rw [Node.replicated_eq]; simp [hle]; rfl
  | snapshotInstalled peerID req resp =>
    dsimp only [effect]
    split
    · rfl
    · next hle => rw [Node.snapshotInstalled_eq]; simp [hle]; rfl
  | tryAdvanceCommitIndex =>
    dsimp only [effect]
    rw [Node.tryAdvanceCommitIndex_eq]
    rfl
  | _ => rfl

end Task

/-! ## Schedules -/

abbrev NodePool := Pool Process Task
abbrev NodeTurn := Turn Task StorageOutcome Options
abbrev NodeTrace := Trace Process Task StorageOutcome Options

/-- The step taken in a turn. -/
def stepOf (x : NodePool × NodeTurn) : Option (Task × StorageOutcome) :=
  match x.2 with
  | .run k o => x.1.tasks[k]?.map fun t => (t, o)
  | _ => none

theorem stepOf_run {p : NodePool} (ht : p.tasks = l₁ ++ t :: l₂) :
    stepOf (p, .run l₁.length o) = some (t, o) := by simp [stepOf, ht]

theorem mem_of_stepOf (h : stepOf x = some (t, o)) : t ∈ x.1.tasks := by
  unfold stepOf at h
  split at h
  · obtain ⟨t', ht, heq⟩ := Option.map_eq_some_iff.mp h
    cases heq
    exact List.mem_of_getElem? ht
  · cases h

/-- A process starts again unless the data file of its snapshot is lost. -/
theorem recover_eq (h : threads.recover s opts = some s') :
    s.node.orphanMeta = none ∧ s' = ⟨{ s.me with opts },
      newNode s.node.log.engine s.node.sm s.node.snapStore (s.node.epoch + 1)⟩ := by
  obtain ⟨hno, heq⟩ := Option.ite_none_left_eq_some.mp h
  exact ⟨by simpa using hno, (Option.some.inj heq).symm⟩

/-- Which calls may begin, which steps may be taken, and whether the process may crash. A step is
judged by the process, the other calls in progress, the task that moves, and the outcome of its
storage calls. -/
def Allows (calls : NodePool → Task → Prop)
    (steps : Process → List Task → Task → StorageOutcome → Prop) (crashes : Bool) (p : NodePool) :
    NodeTurn → Prop
  | .call t => calls p t
  | .run k o => ∀ t ∈ p.tasks[k]?, steps p.state (p.tasks.eraseIdx k) t o
  | .crash _ => crashes = true

instance [∀ p t, Decidable (calls p t)] [∀ s us t o, Decidable (steps s us t o)] (p : NodePool)
    (a : NodeTurn) : Decidable (Allows calls steps crashes p a) :=
  match a with
  | .call t => inferInstanceAs (Decidable (calls p t))
  | .run k _ => inferInstanceAs (Decidable (∀ t ∈ p.tasks[k]?, _))
  | .crash _ => inferInstanceAs (Decidable (_ = true))

theorem Allows.of_run {p : NodePool} (h : Allows calls steps crashes p (.run l₁.length o))
    (ht : p.tasks = l₁ ++ t :: l₂) : steps p.state (l₁ ++ l₂) t o := by
  have hget : p.tasks[l₁.length]? = some t := by simp [ht]
  have herase : p.tasks.eraseIdx l₁.length = l₁ ++ l₂ := by
    rw [ht, List.eraseIdx_append_of_length_le le_rfl]
    simp
  have := h t hget
  rwa [herase] at this

/-- Any call may begin at any time; the steps satisfy `steps`. -/
abbrev OnStep (steps : Process → List Task → Task → StorageOutcome → Prop) :
    NodePool → NodeTurn → Prop :=
  Allows (fun _ t => t.IsCall) steps true

/-- Every interleaving. -/
abbrev anyStep : Process → List Task → Task → StorageOutcome → Prop := fun _ _ _ _ => True

/-- The `k`th call in progress runs `m` steps, on storage that does not fail. -/
def stepsOf (k m : ℕ) : List NodeTurn := List.replicate m (.run k {})

/-- The first of three nodes, just installed, with a snapshot at each multiple of `threshold`. -/
def newProcess (threshold : ℕ) : Process where
  me := { id := "n1", peers := ["n2", "n3"], opts := ⟨threshold, 0⟩, selfClientAddr := "" }
  node := newNode {} (fun _ => none) none 0

end DistributedKV.Raft
