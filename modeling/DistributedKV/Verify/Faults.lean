import DistributedKV.Raft.Faults
import DistributedKV.Verify.Replication

/-!
# Responses under storage faults

What a vote and the acknowledgement of a snapshot are worth when storage fails. The handlers ignore
errors and answer as if all had gone well, so each of the two promises holds exactly if the calls it
rests on succeed, or happen not to matter.
-/

namespace DistributedKV.Raft

/-! ## Without faults -/

theorem PersistentLog.lastTermWith_true (pl : PersistentLog) :
    pl.lastTermWith true = pl.lastTerm := by
  unfold lastTermWith lastTerm get
  split
  · rfl
  · cases lookup pl.tailCache pl.lastIndex with
    | some e => rfl
    | none => cases pl.getLocked pl.lastIndex <;> rfl

namespace Node

theorem candidateLogUpToDateWith_true (n : Node) (lastLogIndex lastLogTerm : ℕ) :
    n.candidateLogUpToDateWith true lastLogIndex lastLogTerm =
      n.candidateLogUpToDateLocked lastLogIndex lastLogTerm := by
  rw [candidateLogUpToDateWith, PersistentLog.lastTermWith_true, candidateLogUpToDateLocked]

/-- With successful reads this is the vote of `Task`. -/
theorem handleRequestVoteWith_reads (stepDown vote : Bool) (n : Node) (req : RequestVoteRequest) :
    n.handleRequestVoteWith ⟨stepDown, true, vote⟩ req =
      n.handleRequestVoteLocked { commit := stepDown, again := vote } req := by
  simp only [handleRequestVoteWith, candidateLogUpToDateWith_true]
  rfl

theorem handleRequestVoteWith_ok (n : Node) (req : RequestVoteRequest) :
    n.handleRequestVoteWith {} req = n.handleRequestVote req := by
  rw [handleRequestVoteWith_reads]
  rfl

theorem handleInstallSnapshotWith_ok (n : Node) (req : InstallSnapshotRequest) :
    n.handleInstallSnapshotWith {} req = n.handleInstallSnapshot req := by
  rcases lt_or_ge req.term n.log.currentTerm with hst | hle
  · simp [handleInstallSnapshotWith, handleInstallSnapshot, hst]
  · let n₁ : Node := { (if n.log.currentTerm < req.term then
      n.setTermAndVote req.term "" else n) with role := .follower, leaderID := req.leaderID }
    have hs : n.handleInstallSnapshotWith {} req = (n₁.installWith {} req, { term := req.term }) :=
      if_neg (by omega)
    rw [hs, handleInstallSnapshot_current hle (rfl : n₁ = _), installWith]
    split
    · next h => rw [if_pos h.2]
    · next h =>
      rw [if_neg fun h' => h ⟨rfl, h'⟩]
      cases unmarshalSnapshot req.data <;> rfl

end Node

/-! ## Votes -/

/-- The candidate's last entry is at least as up to date as the last entry of the log. -/
def RequestVoteRequest.UpToDate (req : RequestVoteRequest) (pl : PersistentLog) : Prop :=
  pl.lastTerm < req.lastLogTerm ∨ pl.lastTerm = req.lastLogTerm ∧ pl.lastIndex ≤ req.lastLogIndex

instance : Decidable (RequestVoteRequest.UpToDate req pl) := inferInstanceAs (Decidable (_ ∨ _))

/-- `LastTerm` succeeds, because its read does or because it needs none. -/
def PersistentLog.LastTermRead (read : Bool) (pl : PersistentLog) : Prop :=
  read = true ∨ pl.lastIndex = pl.lastIncludedIndex ∨ (lookup pl.tailCache pl.lastIndex).isSome

theorem PersistentLog.LastTermRead.eq {read : Bool} {pl : PersistentLog}
    (h : pl.LastTermRead read) :
    pl.lastTermWith read = pl.lastTerm := by
  rw [← lastTermWith_true]
  rcases h with rfl | h | h
  · rfl
  · simp only [lastTermWith, if_pos h]
  · obtain ⟨e, he⟩ := Option.isSome_iff_exists.mp h
    simp only [lastTermWith, he]

namespace Node

variable {o : VoteOutcome} {n : Node} {req : RequestVoteRequest}

theorem upToDate_iff : n.candidateLogUpToDateLocked req.lastLogIndex req.lastLogTerm = true ↔
    req.UpToDate n.log := by
  unfold candidateLogUpToDateLocked RequestVoteRequest.UpToDate
  split
  · next hne => simp [Ne.symm hne]
  · next heq =>
    rw [not_not] at heq
    simp [heq]

/-- The vote the node has on record when it decides. -/
def recordedVote (o : VoteOutcome) (n : Node) (req : RequestVoteRequest) : String :=
  if n.log.currentTerm < req.term ∧ o.stepDown = true then "" else n.log.votedFor

/-- `HandleRequestVote` votes for the candidate, as far as it can tell. -/
def Grants (o : VoteOutcome) (n : Node) (req : RequestVoteRequest) : Prop :=
  n.log.currentTerm ≤ req.term ∧
    (n.recordedVote o req = "" ∨ n.recordedVote o req = req.candidateID) ∧
    n.candidateLogUpToDateWith o.lastTerm req.lastLogIndex req.lastLogTerm = true

/-- The vote is in storage before it is written. -/
def VoteStored (o : VoteOutcome) (n : Node) (req : RequestVoteRequest) : Prop :=
  if n.log.currentTerm < req.term ∧ o.stepDown = true then req.candidateID = ""
  else n.log.engine.currentTerm = req.term ∧ n.log.engine.votedFor = req.candidateID

/-- The node decides in a state `n₁` that has met the term of the request. -/
theorem handleRequestVoteWith_current (h : n.log.currentTerm ≤ req.term) :
    ∃ n₁ : Node, n₁.log.votedFor = n.recordedVote o req ∧
      n₁.candidateLogUpToDateWith o.lastTerm = n.candidateLogUpToDateWith o.lastTerm ∧
      (n₁.log.engine.currentTerm = req.term ∧ n₁.log.engine.votedFor = req.candidateID ↔
        n.VoteStored o req) ∧
      n.handleRequestVoteWith o req =
        if (n₁.log.votedFor = "" ∨ n₁.log.votedFor = req.candidateID) ∧
            n₁.candidateLogUpToDateWith o.lastTerm req.lastLogIndex req.lastLogTerm then
          (n₁.setTermAndVoteWith o.vote req.term req.candidateID,
            { term := req.term, voteGranted := true })
        else (n₁, { term := req.term, voteGranted := false }) := by
  let n₁ := if n.log.currentTerm < req.term then
    { n.stepDownWith o.stepDown req.term with leaderID := "", leaderClientAddr := "" } else n
  have hlog : n₁.log = if n.log.currentTerm < req.term ∧ o.stepDown = true then
      (n.log.setTermAndVote true req.term "").1 else n.log := by
    simp only [n₁, stepDownWith]
    by_cases hlt : n.log.currentTerm < req.term
    · cases hd : o.stepDown <;> simp only [hlt, if_true, true_and] <;> split <;> rfl
    · simp [hlt]
  refine ⟨n₁, ?_, ?_, ?_, if_neg (by omega)⟩
  · rw [hlog, recordedVote]
    split <;> rfl
  · unfold candidateLogUpToDateWith
    rw [hlog]
    split <;> rfl
  · rw [hlog, VoteStored]
    split
    · exact ⟨fun h => h.2.symm, fun h => ⟨rfl, h.symm⟩⟩
    · rfl

/-- Which votes are granted, and what is stored then. -/
theorem handleRequestVoteWith_spec (o : VoteOutcome) (n : Node) (req : RequestVoteRequest) :
    ((n.handleRequestVoteWith o req).2.voteGranted = true ↔ n.Grants o req) ∧
    (n.Grants o req → (n.handleRequestVoteWith o req).2.term = req.term ∧
      ((n.handleRequestVoteWith o req).1.log.engine.currentTerm = req.term ∧
        (n.handleRequestVoteWith o req).1.log.engine.votedFor = req.candidateID ↔
          o.vote = true ∨ n.VoteStored o req)) := by
  rcases lt_or_ge req.term n.log.currentTerm with hst | hle
  · have hno : ¬n.Grants o req := fun h => absurd h.1 (by omega)
    simp [handleRequestVoteWith, hst, hno]
  obtain ⟨n₁, hvote, hup, hstored, hs⟩ := handleRequestVoteWith_current (o := o) hle
  rw [hvote, hup] at hs
  by_cases hg : n.Grants o req
  · rw [hs, if_pos hg.2]
    refine ⟨by simp [hg], fun _ => ⟨rfl, ?_⟩⟩
    cases hw : o.vote with
    | true => simp [setTermAndVoteWith, PersistentLog.setTermAndVote]
    | false => simpa [setTermAndVoteWith, PersistentLog.setTermAndVote] using hstored
  · rw [hs, if_neg fun h => hg ⟨hle, h⟩]
    simp [hg]

end Node

/-- **A vote is honest** exactly if it is not granted, or else its own write succeeds or was not
needed, and `LastTerm` can be read or the candidate is up to date anyway. -/
theorem vote_honest (o : VoteOutcome) (n : Node) (req : RequestVoteRequest) :
    ((n.handleRequestVoteWith o req).2.voteGranted = true →
      (n.handleRequestVoteWith o req).1.log.engine.currentTerm =
          (n.handleRequestVoteWith o req).2.term ∧
        (n.handleRequestVoteWith o req).1.log.engine.votedFor = req.candidateID ∧
        req.UpToDate n.log) ↔
      (n.Grants o req → (o.vote = true ∨ n.VoteStored o req) ∧
        (n.log.LastTermRead o.lastTerm ∨ req.UpToDate n.log)) := by
  obtain ⟨hgrant, hspec⟩ := Node.handleRequestVoteWith_spec o n req
  rw [hgrant]
  refine imp_congr_right fun hg => ?_
  obtain ⟨hterm, hstored⟩ := hspec hg
  rw [hterm, ← and_assoc, hstored]
  refine and_congr_right fun _ => ⟨.inr, fun h => h.elim (fun hread => ?_) id⟩
  have hup := hg.2.2
  rw [Node.candidateLogUpToDateWith, hread.eq] at hup
  exact Node.upToDate_iff.mp hup

/-- In the first case the vote is not written. In the second one the last entry cannot be read, and
a candidate with an older log gets the vote. -/
theorem vote_honest_fails :
    let n := followerWith 2 [1, 2]
    let unwritten := n.handleRequestVoteWith { vote := false } ⟨2, "n1", 2, 2⟩
    let unread := n.handleRequestVoteWith { lastTerm := false } ⟨2, "n1", 2, 1⟩
    unwritten.2.voteGranted = true ∧ unwritten.1.log.engine.votedFor ≠ "n1" ∧
      unread.2.voteGranted = true ∧ ¬RequestVoteRequest.UpToDate ⟨2, "n1", 2, 1⟩ n.log := by
  decide

/-! ## Acknowledged snapshots -/

namespace Node

variable {n : Node} {req : InstallSnapshotRequest}

/-- `sendInstallSnapshot` sets `matchIndex` of the peer to the index of the snapshot, whatever it
was. -/
def Records (n : Node) (peer : NodeID) (req : InstallSnapshotRequest)
    (resp : InstallSnapshotResponse) : Prop :=
  ∀ m, ({ n with matchIndex := m }.snapshotInstalled peer req resp).matchIndex peer =
    req.lastIncludedIndex

theorem records_iff : n.Records peer req resp ↔
    n.role = .leader ∧ n.log.currentTerm = req.term ∧ resp.term ≤ req.term := by
  unfold Records
  constructor
  · intro h
    -- another value before would be there still
    have h := h fun _ => req.lastIncludedIndex + 1
    rw [snapshotInstalled_eq] at h
    split at h
    · rw [becomeFollower_eq] at h
      simp at h
    · next hle =>
      dsimp only at h
      split at h
      · next hg => exact ⟨hg.1, hg.2.1, not_lt.mp hle⟩
      · omega
  · rintro ⟨hrole, hterm, hle⟩ m
    rw [snapshotInstalled_eq, if_neg (not_lt.mpr hle)]
    simp [hrole, hterm]

/-- All of `HandleInstallSnapshot` succeeds. -/
def Succeeds (o : InstallOutcome) (n : Node) (req : InstallSnapshotRequest) : Prop :=
  ¬(o.load = true ∧ n.snapStore.any fun s => req.lastIncludedIndex ≤ s.2.lastIncludedIndex) ∧
    (unmarshalSnapshot req.data).isSome ∧ o.save = .done ∧ o.restore = true ∧ o.boundary = true

theorem installWith_lastIndex (o : InstallOutcome) (n : Node) (req : InstallSnapshotRequest) :
    n.Succeeds o req ∧ (n.installWith o req).log.lastIndex = req.lastIncludedIndex ∨
      ¬n.Succeeds o req ∧ (n.installWith o req).log.lastIndex = n.log.lastIndex := by
  unfold installWith
  split
  · next hdup => exact .inr ⟨fun h => h.1 hdup, rfl⟩
  next hnew =>
  split
  · next hdata =>
    refine .inr ⟨fun h => ?_, rfl⟩
    have := h.2.1
    simp [hdata] at this
  next snap hdata =>
  dsimp only
  split
  · next hsave => exact .inr ⟨fun h => hsave h.2.2.1, rfl⟩
  next hsave =>
  split
  · next hrestore => exact .inr ⟨fun h => Bool.eq_false_iff.mp hrestore h.2.2.2.1, rfl⟩
  next hrestore =>
  split
  · next hb =>
    refine .inr ⟨fun h => Bool.eq_false_iff.mp hb h.2.2.2.2, ?_⟩
    rw [hb]
    rfl
  · next hb =>
    rw [Bool.not_eq_false] at hrestore hb
    refine .inl ⟨⟨hnew, by simp [hdata], not_not.mp hsave, hrestore, hb⟩, ?_⟩
    rw [hb]
    rfl

theorem handleInstallSnapshotWith_spec (o : InstallOutcome) (n : Node)
    (req : InstallSnapshotRequest) :
    ((n.handleInstallSnapshotWith o req).2.term ≤ req.term ↔ n.log.currentTerm ≤ req.term) ∧
    (n.log.currentTerm ≤ req.term → (n.Succeeds o req ∧
        (n.handleInstallSnapshotWith o req).1.log.lastIndex = req.lastIncludedIndex ∨
      ¬n.Succeeds o req ∧
        (n.handleInstallSnapshotWith o req).1.log.lastIndex = n.log.lastIndex)) := by
  rcases lt_or_ge req.term n.log.currentTerm with hst | hle
  · simp [handleInstallSnapshotWith, hst, not_le.mpr hst]
  let n₁ : Node := { (if n.log.currentTerm < req.term then
    n.setTermAndVoteWith o.stepDown req.term "" else n) with
      role := .follower, leaderID := req.leaderID }
  have hs : n.handleInstallSnapshotWith o req = (n₁.installWith o req, { term := req.term }) :=
    if_neg (by omega)
  have hsame : n₁.log.lastIndex = n.log.lastIndex ∧ (n₁.Succeeds o req ↔ n.Succeeds o req) := by
    simp only [n₁, setTermAndVoteWith, PersistentLog.setTermAndVote]
    split
    · cases o.stepDown <;> exact ⟨rfl, Iff.rfl⟩
    · exact ⟨rfl, Iff.rfl⟩
  rw [hs, ← hsame.1, ← hsame.2]
  exact ⟨iff_of_true le_rfl hle, fun _ => installWith_lastIndex o n₁ req⟩

end Node

/-- **An acknowledged snapshot is there** exactly if it is not acknowledged, the log reaches as far
without it, or all of `HandleInstallSnapshot` succeeds. -/
theorem install_acknowledged (leader follower : Node) (o : InstallOutcome) (peer : NodeID)
    (req : InstallSnapshotRequest) :
    (leader.Records peer req (follower.handleInstallSnapshotWith o req).2 →
      req.lastIncludedIndex ≤ (follower.handleInstallSnapshotWith o req).1.log.lastIndex) ↔
    (leader.role = .leader → leader.log.currentTerm = req.term →
      follower.log.currentTerm ≤ req.term →
      req.lastIncludedIndex ≤ follower.log.lastIndex ∨ follower.Succeeds o req) := by
  obtain ⟨hterm, hspec⟩ := Node.handleInstallSnapshotWith_spec o follower req
  rw [Node.records_iff, hterm]
  constructor
  · intro h hrole heq hle
    rcases hspec hle with ⟨hyes, -⟩ | ⟨-, hlast⟩
    · exact .inr hyes
    · exact .inl (hlast ▸ h ⟨hrole, heq, hle⟩)
  · rintro h ⟨hrole, heq, hle⟩
    rcases hspec hle with ⟨-, hlast⟩ | ⟨hno, hlast⟩ <;> rw [hlast]
    exact (h hrole heq hle).resolve_right hno

/-- `Save` fails on a follower without a log, and the leader takes it to have three entries. -/
theorem install_acknowledged_fails :
    let leader := { followerWith 2 [1, 1, 1] with role := .leader }
    let follower := followerWith 2 []
    let r := follower.handleInstallSnapshotWith { save := .before } (snapshotRequest 3 1)
    (leader.snapshotInstalled "n2" (snapshotRequest 3 1) r.2).matchIndex "n2" = 3 ∧
      leader.matchIndex "n2" = 0 ∧ ¬3 ≤ r.1.log.lastIndex := by
  decide

end DistributedKV.Raft
