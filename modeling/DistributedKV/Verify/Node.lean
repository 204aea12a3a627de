import DistributedKV.Raft.Cluster
import DistributedKV.Verify.Log

/-!
# What the operations of a node change

Each operation with branches is described once, by an equation that lists the fields it may
change (`..._eq`), so that a proof about other fields does not look into the branches. The three
request handlers begin alike, by meeting the request's term (`Meets`); their specifications say
what follows.
-/

namespace DistributedKV.Raft.Node

/-! ## Shapes -/

theorem notifyWritersLocked_eq (s : Node) (i : ℕ) :
    s.notifyWritersLocked i = { s with
      proposals := (s.notifyWritersLocked i).proposals
      writeWaiters := (s.notifyWritersLocked i).writeWaiters } := by
  unfold notifyWritersLocked; split <;> rfl

theorem becomeFollower_eq (s : Node) (term : ℕ) (l a : String) :
    s.becomeFollower term l a = { s with
      role := .follower
      leaderID := l
      leaderClientAddr := a
      proposals := (s.becomeFollower term l a).proposals
      writeWaiters := (s.becomeFollower term l a).writeWaiters
      log :=
        if s.log.currentTerm < term then (s.log.setTermAndVote true term "").1 else s.log } := by
  unfold becomeFollower
  by_cases hrole : s.role = .leader <;> by_cases hterm : s.log.currentTerm < term <;>
    simp [hrole, hterm, failStaleWritersLocked, setTermAndVote]

/-- A leader that steps down fails the calls of `Propose` that wait. -/
theorem becomeFollower_calls (s : Node) (term : ℕ) (l a : String) :
    s.role ≠ .leader ∧ (s.becomeFollower term l a).proposals = s.proposals ∧
        (s.becomeFollower term l a).writeWaiters = s.writeWaiters ∨
      s.role = .leader ∧
        (s.becomeFollower term l a).proposals = s.failStaleWritersLocked.proposals ∧
        (s.becomeFollower term l a).writeWaiters = [] := by
  unfold becomeFollower
  by_cases hrole : s.role = .leader
  · right
    simp only [if_pos hrole]
    split <;> exact ⟨hrole, rfl, rfl⟩
  · left
    simp only [if_neg hrole]
    split <;> exact ⟨hrole, rfl, rfl⟩

theorem becomeLeader_eq {s : Node} (me : Member) (h : s.role = .candidate) :
    s.becomeLeader me = { s with
      role := .leader
      leaderID := me.id
      leaderClientAddr := me.selfClientAddr
      nextIndex := (s.becomeLeader me).nextIndex
      matchIndex := fun p => if p ∈ me.peers then 0 else s.matchIndex p
      log := (s.log.appendEntries true
        [{ index := s.log.lastIndex + 1, term := s.log.currentTerm, type := .noop }]).1 } := by
  simp [becomeLeader, h, appendLocal]

theorem becomeLeader_of_ne {s : Node} (me : Member) (h : s.role ≠ .candidate) :
    s.becomeLeader me = s := by simp [becomeLeader, h]

theorem tryAdvanceCommitIndex_cases (me : Member) (s : Node) (term : ℕ) :
    s.tryAdvanceCommitIndex me term = s ∨
      s.role = .leader ∧ s.commitIndex < s.majorityIndex me ∧
        s.log.termAt (s.majorityIndex me) = some term ∧
        s.tryAdvanceCommitIndex me term = { s with commitIndex := s.majorityIndex me } := by
  unfold tryAdvanceCommitIndex
  split
  · exact .inl rfl
  next hrole =>
  dsimp only
  split
  · exact .inl rfl
  next hlt =>
  split
  · exact .inl rfl
  next hterm =>
  simp only [not_or, ne_eq, not_not] at hrole
  exact .inr ⟨hrole.1, not_le.mp hlt, not_not.mp hterm, rfl⟩

theorem tryAdvanceCommitIndex_eq (me : Member) (s : Node) (term : ℕ) :
    s.tryAdvanceCommitIndex me term = { s with
      commitIndex := (s.tryAdvanceCommitIndex me term).commitIndex } := by
  rcases tryAdvanceCommitIndex_cases me s term with h | ⟨-, -, -, h⟩ <;> rw [h]

theorem waitForApplied_eq (s : Node) (call : ℕ) (rd : Read) :
    s.waitForApplied call rd = { s with
      reads := (s.waitForApplied call rd).reads
      pendingReads := (s.waitForApplied call rd).pendingReads } := by
  unfold waitForApplied; split <;> rfl

theorem maybeSnapshot_eq (s : Node) (i : ℕ) :
    s.maybeSnapshot i = { s with
      snapStore := (s.maybeSnapshot i).snapStore
      orphanMeta := (s.maybeSnapshot i).orphanMeta
      log := (s.maybeSnapshot i).log } := by
  unfold maybeSnapshot
  split
  · rfl
  · split <;> rfl

/-- `applyOne` before `maybeSnapshot`. -/
def afterApply (s : Node) (i commit : ℕ) (e : Entry) : Node :=
  ({ s with
      sm := applyEntry s.sm e
      lastApplied := i
      applying := some (i, commit) }.notifyWritersLocked i).satisfyPendingReadsLocked

theorem afterApply_eq (s : Node) (i commit : ℕ) (e : Entry) :
    s.afterApply i commit e = { s with
      sm := applyEntry s.sm e
      lastApplied := i
      applying := some (i, commit)
      proposals := (s.afterApply i commit e).proposals
      writeWaiters := (s.afterApply i commit e).writeWaiters
      reads := (s.afterApply i commit e).reads
      pendingReads := (s.afterApply i commit e).pendingReads } := by
  unfold afterApply
  rw [notifyWritersLocked_eq]
  rfl

theorem applyOne_cases (me : Member) (s : Node) (i commit : ℕ) (e : Entry) :
    s.applyOne me i commit e = s.afterApply i commit e ∨
      s.applyOne me i commit e = (s.afterApply i commit e).maybeSnapshot i := by
  show (if _ then _ else _) = _ ∨ (if _ then _ else _) = _
  split
  · exact .inr rfl
  · exact .inl rfl

/-- An entry is applied at `i`; there may be a snapshot, if the stored one is older. -/
theorem applyOne_spec (me : Member) (s : Node) (i commit : ℕ) (e : Entry) :
    (s.applyOne me i commit e).lastApplied = i ∧
      (s.applyOne me i commit e).commitIndex = s.commitIndex ∧
      (s.applyOne me i commit e).applying = some (i, commit) ∧
      ((s.applyOne me i commit e).log = s.log ∧
          (s.applyOne me i commit e).snapStore = s.snapStore ∨
        ∃ snap t, (∀ st ∈ s.snapStore, st.2.lastIncludedIndex < i) ∧ s.log.termAt i = some t ∧
          (s.applyOne me i commit e).log = (s.log.compactPrefix true i t).1 ∧
          (s.applyOne me i commit e).snapStore = some (snap, ⟨i, t⟩)) := by
  have hlog : (s.afterApply i commit e).log = s.log := by rw [afterApply_eq]
  have hstore : (s.afterApply i commit e).snapStore = s.snapStore := by rw [afterApply_eq]
  rcases applyOne_cases me s i commit e with heq | heq
  · rw [heq, afterApply_eq]
    exact ⟨rfl, rfl, rfl, .inl ⟨rfl, rfl⟩⟩
  · refine ⟨by rw [heq, maybeSnapshot_eq, afterApply_eq],
      by rw [heq, maybeSnapshot_eq, afterApply_eq],
      by rw [heq, maybeSnapshot_eq, afterApply_eq], ?_⟩
    rw [heq]
    unfold maybeSnapshot
    rw [hlog, hstore]
    split
    · exact .inl ⟨hlog, hstore⟩
    · next hold =>
      split
      · exact .inl ⟨hlog, hstore⟩
      · next t ht =>
        refine .inr ⟨_, t, fun st hst => ?_, ht, rfl, rfl⟩
        simp only [Option.any_eq_true, not_exists, not_and, decide_eq_true_eq, not_le] at hold
        exact hold st hst

/-- What an applied entry means for the waiting calls. -/
theorem applyOne_calls (me : Member) (s : Node) (i commit : ℕ) (e : Entry) :
    (s.applyOne me i commit e).epoch = s.epoch ∧ (s.applyOne me i commit e).role = s.role ∧
      (s.applyOne me i commit e).writeWaiters = (s.notifyWritersLocked i).writeWaiters ∧
      (s.applyOne me i commit e).proposals = (s.notifyWritersLocked i).proposals ∧
      (s.applyOne me i commit e).reads = (s.afterApply i commit e).reads ∧
      (s.applyOne me i commit e).pendingReads = s.pendingReads.filter fun pr =>
        ¬pr.readIndex ≤ i := by
  have h : (s.afterApply i commit e).epoch = s.epoch ∧ (s.afterApply i commit e).role = s.role ∧
      (s.afterApply i commit e).writeWaiters = (s.notifyWritersLocked i).writeWaiters ∧
      (s.afterApply i commit e).proposals = (s.notifyWritersLocked i).proposals := by
    unfold afterApply satisfyPendingReadsLocked notifyWritersLocked
    dsimp only
    split <;> exact ⟨rfl, rfl, rfl, rfl⟩
  have hpr : (s.afterApply i commit e).pendingReads = s.pendingReads.filter fun pr =>
      ¬pr.readIndex ≤ i := by
    unfold afterApply
    rw [notifyWritersLocked_eq]
    rfl
  rcases applyOne_cases me s i commit e with heq | heq <;> rw [heq]
  · exact ⟨h.1, h.2.1, h.2.2.1, h.2.2.2, rfl, hpr⟩
  · rw [maybeSnapshot_eq]
    exact ⟨h.1, h.2.1, h.2.2.1, h.2.2.2, rfl, hpr⟩

/-- What the apply loop does not touch. -/
theorem applyNext_shape (me : Member) (s : Node) (i commit : ℕ) :
    (s.applyNext me i commit).node = { s with
      log := (s.applyNext me i commit).node.log
      sm := (s.applyNext me i commit).node.sm
      snapStore := (s.applyNext me i commit).node.snapStore
      orphanMeta := (s.applyNext me i commit).node.orphanMeta
      lastApplied := (s.applyNext me i commit).node.lastApplied
      applying := (s.applyNext me i commit).node.applying
      proposals := (s.applyNext me i commit).node.proposals
      writeWaiters := (s.applyNext me i commit).node.writeWaiters
      reads := (s.applyNext me i commit).node.reads
      pendingReads := (s.applyNext me i commit).node.pendingReads } := by
  unfold applyNext
  split
  · rfl
  · split
    · rfl
    · next e _ =>
      rcases applyOne_cases me s (i + 1) commit e with heq | heq
      · simp only [heq]; rw [afterApply_eq]
      · simp only [heq]; rw [maybeSnapshot_eq, afterApply_eq]

theorem followCommit_eq (s : Node) (lc : ℕ) :
    s.followCommit lc = { s with commitIndex := (s.followCommit lc).commitIndex } := by
  unfold followCommit
  split
  · dsimp only; split <;> rfl
  · rfl

theorem followCommit_commitIndex (s : Node) (lc : ℕ) :
    (s.followCommit lc).commitIndex = max s.commitIndex (min lc s.log.lastIndex) := by
  unfold followCommit
  split
  · dsimp only
    split
    · show min lc s.log.lastIndex = _; omega
    · omega
  · omega

/-! ## Client calls -/

/-- The entry `Propose` appends. -/
def proposal (s : Node) (type : EntryType) (key : String) (value : Value)
    (clientRequestID : String) : Entry where
  index := s.log.lastIndex + 1
  term := s.log.currentTerm
  type := type
  key := key
  value := value
  clientRequestID := clientRequestID

theorem propose_ok {s : Node} (h : s.propose type key value clientRequestID = .ok s') :
    s.role = .leader ∧ s' = { s with
      log := (s.log.appendEntries true [s.proposal type key value clientRequestID]).1
      proposals := s.proposals ++ [{ entry := s.proposal type key value clientRequestID }]
      writeWaiters := (s.log.lastIndex + 1, s.proposals.length) ::
        s.writeWaiters.filter fun w => w.1 ≠ s.log.lastIndex + 1 } := by
  unfold propose at h
  split at h
  · cases h
  · next hr => cases h; exact ⟨not_not.mp hr, rfl⟩

theorem linearizableRead_ok {s : Node} (h : s.linearizableRead me = .ok s') :
    s.role = .leader ∧ s' = { s with reads := s.reads ++ [{
      readIndex := s.commitIndex, term := s.log.currentTerm, unsent := me.peers }] } := by
  unfold linearizableRead at h
  split at h
  · cases h
  · next hr => cases h; exact ⟨not_not.mp hr, rfl⟩

/-! ## Reads -/

theorem getElem?_foldl_closeRead (prs : List PendingRead) (rs : List Read) (call : ℕ) :
    (prs.foldl (fun rs pr => closeRead rs pr.call) rs)[call]? =
      rs[call]?.map fun rd =>
        if ∃ pr ∈ prs, pr.call = call then { rd with phase := .waiting true } else rd := by
  induction prs generalizing rs with
  | nil => simp
  | cons pr prs ih =>
    rw [List.foldl_cons, ih, closeRead, List.getElem?_modify]
    by_cases hc : pr.call = call
    · simp [hc, Function.comp_def]
    · simp [hc]

/-- Applying an entry only closes reads that wait for it. -/
theorem afterApply_reads (s : Node) (i commit : ℕ) (e : Entry) (call : ℕ) :
    (s.afterApply i commit e).reads[call]? = s.reads[call]?.map fun rd =>
      if ∃ pr ∈ s.pendingReads, pr.readIndex ≤ i ∧ pr.call = call then
        { rd with phase := .waiting true }
      else rd := by
  unfold afterApply
  rw [notifyWritersLocked_eq]
  refine (getElem?_foldl_closeRead ..).trans ?_
  simp [and_assoc]

/-! ## Responses -/

theorem countVote_eq (me : Member) (s : Node) (el : Election) (peer : NodeID)
    (resp : RequestVoteResponse) :
    s.countVote me el peer resp =
      if el.term < resp.term then
        { s.becomeFollower resp.term "" "" with election := none }
      else if resp.voteGranted then
        { s with election := some { el with
            awaiting := el.awaiting.erase peer
            votes := el.votes + 1
            won := decide (me.needed ≤ el.votes + 1 ∧ s.role = .candidate ∧
              s.log.currentTerm = el.term) } }
      else { s with election := some { el with awaiting := el.awaiting.erase peer } } := rfl

/-- A response to `replicateToPeer` of a higher term, or one that only moves `nextIndex` and
`matchIndex`. -/
theorem replicated_eq (s : Node) (peer : NodeID) (req : AppendEntriesRequest)
    (resp : AppendEntriesResponse) :
    s.replicated peer req resp =
      if req.term < resp.term then s.becomeFollower resp.term "" ""
      else { s with
        nextIndex := (s.replicated peer req resp).nextIndex
        matchIndex := fun p =>
          if s.role = .leader ∧ s.log.currentTerm = req.term ∧ resp.success ∧ p = peer then
            (req.entries.getLast?.map Entry.index).getD (s.matchIndex p)
          else s.matchIndex p } := by
  unfold replicated
  split
  · rfl
  · split
    · next h =>
      have : ¬(s.role = .leader ∧ s.log.currentTerm = req.term) := fun h' =>
        h.elim (· h'.1) (· h'.2)
      simp [← and_assoc, this]
    · next h =>
      simp only [not_or, ne_eq, not_not] at h
      obtain ⟨hrole, hterm⟩ := h
      split
      · next hs =>
        split
        · next last hlast =>
          simp only [hrole, hterm, hs, hlast, true_and, Option.map_some, Option.getD_some]
        · next hlast => simp [hlast]
      · next hs =>
        simp only [hs, Bool.false_eq_true, and_false, false_and, if_false]
        split
        · rfl
        · split
          · rfl
          · split <;> rfl

theorem snapshotInstalled_eq (s : Node) (peer : NodeID) (req : InstallSnapshotRequest)
    (resp : InstallSnapshotResponse) :
    s.snapshotInstalled peer req resp =
      if req.term < resp.term then s.becomeFollower resp.term "" ""
      else { s with
        nextIndex := (s.snapshotInstalled peer req resp).nextIndex
        matchIndex := fun p =>
          if s.role = .leader ∧ s.log.currentTerm = req.term ∧ p = peer then
            req.lastIncludedIndex
          else s.matchIndex p } := by
  unfold snapshotInstalled
  split
  · rfl
  · split
    · next h => simp [h]
    · next h => simp [← and_assoc, h]

/-! ## Senders -/

/-- What a leader puts into an `AppendEntries` request. -/
structure Sends (me : Member) (s : Node) (peer : NodeID) (req : AppendEntriesRequest) : Prop where
  role : s.role = .leader
  term : req.term = s.log.currentTerm
  next : s.log.firstIndex ≤ s.nextIndex peer
  prevLogIndex : req.prevLogIndex = s.nextIndex peer - 1
  prevLogTerm : req.prevLogIndex = 0 ∨ s.log.termAt req.prevLogIndex = some req.prevLogTerm
  entries : req.entries = [] ∨ s.nextIndex peer ≤ s.log.lastIndex ∧
    s.log.range (s.nextIndex peer) (batchEnd me (s.nextIndex peer) s.log.lastIndex) =
      .ok req.entries
  leaderCommit : req.leaderCommit = s.commitIndex

/-- What a leader puts into an `InstallSnapshot` request. -/
structure SendsSnapshot (s : Node) (req : InstallSnapshotRequest) : Prop where
  role : s.role = .leader
  term : req.term = s.log.currentTerm
  snap : ∃ snap, s.snapStore = some (snap, ⟨req.lastIncludedIndex, req.lastIncludedTerm⟩) ∧
    req.data = snap.marshal

def Outgoing.From (me : Member) (s : Node) (peer : NodeID) : Outgoing → Prop
  | .appendEntries req => Sends me s peer req
  | .installSnapshot req => SendsSnapshot s req

theorem sendInstallSnapshot_eq {s : Node} (h : s.sendInstallSnapshot me term = some out) :
    ∃ snap info, s.snapStore = some (snap, info) ∧ out = .installSnapshot {
      term
      leaderID := me.id
      lastIncludedIndex := info.lastIncludedIndex
      lastIncludedTerm := info.lastIncludedTerm
      data := snap.marshal } := by
  unfold sendInstallSnapshot at h
  split at h
  · cases h
  · next snap info hsnap => cases h; exact ⟨snap, info, hsnap, rfl⟩

theorem replicateToPeer_spec {me : Member} {s : Node}
    (h : s.replicateToPeer me peer s.log.currentTerm = some out) : out.From me s peer := by
  unfold replicateToPeer at h
  split at h
  · cases h
  next hrole =>
  have hrole : s.role = .leader := by
    by_contra hne
    exact hrole (.inl hne)
  -- every refusal to use the log ends in the snapshot
  have snapshot (h : s.sendInstallSnapshot me s.log.currentTerm = some out) :
      out.From me s peer := by
    obtain ⟨snap, info, hsnap, rfl⟩ := sendInstallSnapshot_eq h
    exact ⟨hrole, rfl, snap, hsnap, rfl⟩
  dsimp only at h
  split at h
  · exact snapshot h
  next hnext =>
  split at h
  · exact snapshot h
  next hprev =>
  split at h
  · exact snapshot h
  next es hes =>
  cases h
  refine ⟨hrole, rfl, not_lt.mp hnext, rfl, ?_, ?_, rfl⟩
  · cases ht : s.log.termAt (s.nextIndex peer - 1) with
    | none =>
      left
      by_contra hne
      exact hprev ⟨by simp [ht], hne⟩
    | some t => exact .inr (by simp)
  · split at hes
    · next hle => exact .inr ⟨hle, hes⟩
    · cases hes; exact .inl rfl

/-! ## Requests -/

@[simp] theorem termAt_setTermAndVote (pl : PersistentLog) (commit : Bool) (t : ℕ) (v : String) :
    (pl.setTermAndVote commit t v).1.termAt = pl.termAt := by
  cases commit <;> rfl

theorem conflictStart_setTermAndVote (pl : PersistentLog) (commit : Bool) (t : ℕ) (v : String)
    (ct i : ℕ) : conflictStart (pl.setTermAndVote commit t v).1 ct i = conflictStart pl ct i := by
  induction i with
  | zero => rfl
  | succ i ih =>
    simp only [conflictStart, termAt_setTermAndVote, ih]
    cases commit <;> rfl

@[simp] theorem refusal_setTermAndVote (pl : PersistentLog) (commit : Bool) (t : ℕ) (v : String)
    (req : AppendEntriesRequest) :
    refusal (pl.setTermAndVote commit t v).1 req = refusal pl req := by
  simp only [refusal, termAt_setTermAndVote, conflictStart_setTermAndVote]
  cases commit <;> rfl

/-- `s₁` is `s` having met a request of term `t`: its term is `t` and, if that is news, it has
voted for nobody and follows. -/
structure Meets (s s₁ : Node) (t : ℕ) : Prop where
  eq : s₁ = { s with
    role := s₁.role
    log := s₁.log
    leaderID := s₁.leaderID
    leaderClientAddr := s₁.leaderClientAddr
    proposals := s₁.proposals
    writeWaiters := s₁.writeWaiters }
  log : s₁.log = if s.log.currentTerm < t then (s.log.setTermAndVote true t "").1 else s.log
  role : s₁.role = .follower ∨ s₁.role = s.role ∧ s.log.currentTerm = t
  calls : s₁.proposals = s.proposals ∧ s₁.writeWaiters = s.writeWaiters ∨
    s₁.proposals = s.failStaleWritersLocked.proposals ∧ s₁.writeWaiters = []

theorem Meets.currentTerm (h : Meets s s₁ t) (ht : s.log.currentTerm ≤ t) :
    s₁.log.currentTerm = t := by
  rw [h.log]
  split
  · rfl
  · omega

theorem Meets.role' (h : Meets s s₁ t) :
    s₁.role = .follower ∨ s₁.role = s.role ∧ ¬s.log.currentTerm < t :=
  h.role.imp_right fun h' => ⟨h'.1, h'.2.not_lt⟩

theorem Meets.boundary (h : Meets s s₁ t) :
    s₁.log.lastIncludedIndex = s.log.lastIncludedIndex ∧
      s₁.log.lastIncludedTerm = s.log.lastIncludedTerm ∧ s₁.log.lastIndex = s.log.lastIndex := by
  rw [h.log]
  split <;> exact ⟨rfl, rfl, rfl⟩

theorem Meets.refusal (h : Meets s s₁ t) (req : AppendEntriesRequest) :
    refusal s₁.log req = refusal s.log req := by
  rw [h.log]
  split
  · exact refusal_setTermAndVote ..
  · rfl

theorem handleRequestVote_stale {s : Node} (h : req.term < s.log.currentTerm) :
    s.handleRequestVote req = (s, { term := s.log.currentTerm, voteGranted := false }) := by
  simp [handleRequestVote, h]

theorem handleRequestVote_spec {s : Node} {req : RequestVoteRequest}
    (h : s.log.currentTerm ≤ req.term) :
    ∃ s₁, Meets s s₁ req.term ∧ (s.role = .leader → s₁.role = .leader ∨ s₁.writeWaiters = []) ∧
      (s.handleRequestVote req = (s₁, { term := req.term, voteGranted := false }) ∨
        (s₁.log.votedFor = "" ∨ s₁.log.votedFor = req.candidateID) ∧
        s₁.candidateLogUpToDateLocked req.lastLogIndex req.lastLogTerm = true ∧
        s.handleRequestVote req = (s₁.setTermAndVote req.term req.candidateID,
          { term := req.term, voteGranted := true })) := by
  let s₁ := if s.log.currentTerm < req.term then
      { s.stepDown req.term with leaderID := "", leaderClientAddr := "" }
    else s
  have hs : s.handleRequestVote req =
      if (s₁.log.votedFor = "" ∨ s₁.log.votedFor = req.candidateID) ∧
          s₁.candidateLogUpToDateLocked req.lastLogIndex req.lastLogTerm then
        (s₁.setTermAndVote req.term req.candidateID, { term := req.term, voteGranted := true })
      else (s₁, { term := req.term, voteGranted := false }) := by
    rw [handleRequestVote, if_neg (by omega)]
  refine ⟨s₁, ?_, ?_, ?_⟩
  · by_cases hlt : s.log.currentTerm < req.term
    · by_cases hrole : s.role = .leader <;>
        constructor <;> simp [s₁, hlt, hrole, stepDown, setTermAndVote, failStaleWritersLocked]
    · constructor <;> simp [s₁, hlt]
      omega
  · intro hrole
    by_cases hlt : s.log.currentTerm < req.term
    · right; simp [s₁, hlt, stepDown, hrole, setTermAndVote, failStaleWritersLocked]
    · left; simp [s₁, hlt, hrole]
  · rw [hs]
    split
    · next hg => exact .inr ⟨hg.1, hg.2, rfl⟩
    · exact .inl rfl

/-- What the consistency check has checked. -/
theorem refusal_none (h : refusal pl req = none) :
    req.prevLogIndex = 0 ∨ pl.termAt req.prevLogIndex = some req.prevLogTerm := by
  unfold refusal at h
  split at h
  · split at h
    · cases h
    · next t ht =>
      split at h
      · cases h
      · next heq => exact .inr (ht.trans (congrArg some (not_not.mp heq)))
  · exact .inl (by omega)

theorem refusal_some (h : refusal pl req = some resp) :
    resp.success = false ∧ resp.term = req.term := by
  unfold refusal at h
  split at h
  · split at h
    · cases h; exact ⟨rfl, rfl⟩
    · split at h <;> cases h
      exact ⟨rfl, rfl⟩
  · cases h

theorem handleAppendEntries_stale {s : Node} (h : req.term < s.log.currentTerm) :
    s.handleAppendEntries req = (s, { term := s.log.currentTerm, success := false }) := by
  simp [handleAppendEntries, h]

theorem handleAppendEntries_current {s s₁ : Node} (h : s.log.currentTerm ≤ req.term)
    (hs : s₁ = { (if s.log.currentTerm < req.term then s.stepDown req.term
      else if s.role = .candidate then { s with role := .follower } else s) with
        leaderID := req.leaderID, leaderClientAddr := req.leaderClientAddr }) :
    s.handleAppendEntries req =
      match refusal s₁.log req with
      | some resp => (s₁, resp)
      | none => ({ s₁ with log := (s₁.log.appendEntries true req.entries).1 }.followCommit
          req.leaderCommit, { term := req.term, success := true }) := by
  subst hs
  exact if_neg (by omega)

theorem handleAppendEntries_spec {s : Node} {req : AppendEntriesRequest}
    (h : s.log.currentTerm ≤ req.term) :
    ∃ s₁, Meets s s₁ req.term ∧ s₁.role ≠ .candidate ∧
      (s.role = .leader → s₁.role = .leader ∨ s₁.writeWaiters = []) ∧
      ((∃ resp, refusal s.log req = some resp ∧ resp.success = false ∧
          s.handleAppendEntries req = (s₁, resp)) ∨
        refusal s.log req = none ∧
        s.handleAppendEntries req =
          ({ s₁ with log := (s₁.log.appendEntries true req.entries).1 }.followCommit
            req.leaderCommit, { term := req.term, success := true })) := by
  let s₀ := if s.log.currentTerm < req.term then s.stepDown req.term
    else if s.role = .candidate then { s with role := .follower } else s
  let s₁ := { s₀ with leaderID := req.leaderID, leaderClientAddr := req.leaderClientAddr }
  have hs := handleAppendEntries_current h (rfl : s₁ = _)
  have hm : Meets s s₁ req.term ∧ s₁.role ≠ .candidate ∧
      (s.role = .leader → s₁.role = .leader ∨ s₁.writeWaiters = []) := by
    by_cases hlt : s.log.currentTerm < req.term
    · by_cases hrole : s.role = .leader
      · refine ⟨?_, ?_, ?_⟩
        · constructor <;>
            simp [s₁, s₀, hlt, hrole, stepDown, setTermAndVote, failStaleWritersLocked]
        · simp [s₁, s₀, hlt, hrole, stepDown, setTermAndVote, failStaleWritersLocked]
        · simp [s₁, s₀, hlt, hrole, stepDown, setTermAndVote, failStaleWritersLocked]
      · refine ⟨?_, ?_, fun h' => (hrole h').elim⟩
        · constructor <;> simp [s₁, s₀, hlt, hrole, stepDown, setTermAndVote]
        · simp [s₁, s₀, hlt, hrole, stepDown, setTermAndVote]
    · have heq : s.log.currentTerm = req.term := by omega
      by_cases hrole : s.role = .candidate
      · refine ⟨?_, ?_, fun h' => by rw [hrole] at h'; cases h'⟩
        · constructor <;> simp [s₁, s₀, hlt, hrole]
        · simp [s₁, s₀, hlt, hrole]
      · refine ⟨?_, ?_, fun h' => .inl ?_⟩
        · constructor <;> simp [s₁, s₀, hrole, heq]
        · simp [s₁, s₀, hlt, hrole]
        · simp [s₁, s₀, hlt, h']
  refine ⟨s₁, hm.1, hm.2.1, hm.2.2, ?_⟩
  rw [hs, hm.1.refusal]
  cases hr : refusal s.log req with
  | none => exact .inr ⟨rfl, rfl⟩
  | some resp => exact .inl ⟨resp, rfl, (refusal_some hr).1, rfl⟩

/-- No answer has a term lower than the node's. -/
theorem handleAppendEntries_term (s : Node) (req : AppendEntriesRequest) :
    s.log.currentTerm ≤ (s.handleAppendEntries req).2.term := by
  by_cases hst : req.term < s.log.currentTerm
  · rw [handleAppendEntries_stale hst]
  · obtain ⟨s₁, -, -, -, ⟨resp, hr, -, hs⟩ | ⟨-, hs⟩⟩ :=
      handleAppendEntries_spec (not_lt.mp hst) <;> rw [hs]
    · exact (refusal_some hr).2 ▸ not_lt.mp hst
    · exact not_lt.mp hst

/-- What no request handler touches. -/
theorem handleRequestVote_shape (s : Node) (req : RequestVoteRequest) :
    (s.handleRequestVote req).1 = { s with
      role := (s.handleRequestVote req).1.role
      log := (s.handleRequestVote req).1.log
      leaderID := (s.handleRequestVote req).1.leaderID
      leaderClientAddr := (s.handleRequestVote req).1.leaderClientAddr
      proposals := (s.handleRequestVote req).1.proposals
      writeWaiters := (s.handleRequestVote req).1.writeWaiters } := by
  by_cases hst : req.term < s.log.currentTerm
  · rw [handleRequestVote_stale hst]
  · obtain ⟨s₁, hm, -, hs | ⟨-, -, hs⟩⟩ := handleRequestVote_spec (not_lt.mp hst) <;> rw [hs]
    · exact hm.eq
    · exact congrArg (fun n : Node => n.setTermAndVote req.term req.candidateID) hm.eq

theorem handleAppendEntries_shape (s : Node) (req : AppendEntriesRequest) :
    (s.handleAppendEntries req).1 = { s with
      role := (s.handleAppendEntries req).1.role
      log := (s.handleAppendEntries req).1.log
      commitIndex := (s.handleAppendEntries req).1.commitIndex
      leaderID := (s.handleAppendEntries req).1.leaderID
      leaderClientAddr := (s.handleAppendEntries req).1.leaderClientAddr
      proposals := (s.handleAppendEntries req).1.proposals
      writeWaiters := (s.handleAppendEntries req).1.writeWaiters } := by
  by_cases hst : req.term < s.log.currentTerm
  · rw [handleAppendEntries_stale hst]
  · obtain ⟨s₁, hm, -, -, ⟨resp, -, -, hs⟩ | ⟨-, hs⟩⟩ :=
      handleAppendEntries_spec (not_lt.mp hst) <;> rw [hs]
    · rw [hm.eq]
    · rw [followCommit_eq, hm.eq]

/-- The snapshot of the request replaces the state of the node. -/
def installs (s : Node) (req : InstallSnapshotRequest) : Bool :=
  decide (s.log.currentTerm ≤ req.term) &&
    !(s.snapStore.any fun st => req.lastIncludedIndex ≤ st.2.lastIncludedIndex) &&
    (unmarshalSnapshot req.data).isSome

theorem handleInstallSnapshot_stale {s : Node} (h : req.term < s.log.currentTerm) :
    s.handleInstallSnapshot req = (s, { term := s.log.currentTerm }) := by
  simp [handleInstallSnapshot, h]

theorem handleInstallSnapshot_current {s s₁ : Node} (h : s.log.currentTerm ≤ req.term)
    (hs : s₁ = { (if s.log.currentTerm < req.term then s.setTermAndVote req.term "" else s) with
      role := .follower, leaderID := req.leaderID }) :
    s.handleInstallSnapshot req =
      if s₁.snapStore.any fun st => req.lastIncludedIndex ≤ st.2.lastIncludedIndex then
        (s₁, { term := req.term })
      else match unmarshalSnapshot req.data with
        | none => (s₁, { term := req.term })
        | some snap => ({ s₁ with
          snapStore := some (snap, ⟨req.lastIncludedIndex, req.lastIncludedTerm⟩)
          orphanMeta := none
          sm := snap.pairs
          log := (s₁.log.restoreSnapshotBoundary true
            req.lastIncludedIndex req.lastIncludedTerm).1
          lastApplied := req.lastIncludedIndex
          commitIndex := req.lastIncludedIndex }, { term := req.term }) := by
  subst hs
  exact if_neg (by omega)

theorem handleInstallSnapshot_spec {s : Node} {req : InstallSnapshotRequest}
    (h : s.log.currentTerm ≤ req.term) :
    ∃ s₁, Meets s s₁ req.term ∧ s₁.role = .follower ∧ s₁.writeWaiters = s.writeWaiters ∧
      (s.installs req = false ∧ s.handleInstallSnapshot req = (s₁, { term := req.term }) ∨
        ∃ snap, s.installs req = true ∧ unmarshalSnapshot req.data = some snap ∧
          s.handleInstallSnapshot req = ({ s₁ with
            snapStore := some (snap, ⟨req.lastIncludedIndex, req.lastIncludedTerm⟩)
            orphanMeta := none
            sm := snap.pairs
            log := (s₁.log.restoreSnapshotBoundary true
              req.lastIncludedIndex req.lastIncludedTerm).1
            lastApplied := req.lastIncludedIndex
            commitIndex := req.lastIncludedIndex }, { term := req.term })) := by
  let s₁ : Node := { (if s.log.currentTerm < req.term then s.setTermAndVote req.term "" else s) with
    role := .follower, leaderID := req.leaderID }
  have hsnap : s₁.snapStore = s.snapStore := by simp only [s₁]; split <;> rfl
  refine ⟨s₁, ?_, rfl, ?_, ?_⟩
  · by_cases hlt : s.log.currentTerm < req.term
    · constructor <;> simp [s₁, hlt, setTermAndVote]
    · constructor <;> simp [s₁, hlt]
  · simp only [s₁]; split <;> rfl
  · rw [handleInstallSnapshot_current h (rfl : s₁ = _), hsnap]
    cases hany : s.snapStore.any fun st => req.lastIncludedIndex ≤ st.2.lastIncludedIndex with
    | true => exact .inl ⟨by simp [installs, hany], rfl⟩
    | false =>
      cases hdata : unmarshalSnapshot req.data with
      | none => exact .inl ⟨by simp [installs, hdata], rfl⟩
      | some snap => exact .inr ⟨snap, by simp [installs, hany, hdata, h], rfl, rfl⟩

theorem handleInstallSnapshot_shape (s : Node) (req : InstallSnapshotRequest) :
    (s.handleInstallSnapshot req).1 = { s with
      role := (s.handleInstallSnapshot req).1.role
      log := (s.handleInstallSnapshot req).1.log
      sm := (s.handleInstallSnapshot req).1.sm
      snapStore := (s.handleInstallSnapshot req).1.snapStore
      orphanMeta := (s.handleInstallSnapshot req).1.orphanMeta
      commitIndex := (s.handleInstallSnapshot req).1.commitIndex
      lastApplied := (s.handleInstallSnapshot req).1.lastApplied
      leaderID := (s.handleInstallSnapshot req).1.leaderID
      leaderClientAddr := (s.handleInstallSnapshot req).1.leaderClientAddr
      proposals := (s.handleInstallSnapshot req).1.proposals
      writeWaiters := (s.handleInstallSnapshot req).1.writeWaiters } := by
  by_cases hst : req.term < s.log.currentTerm
  · rw [handleInstallSnapshot_stale hst]
  · obtain ⟨s₁, hm, -, -, ⟨-, hs⟩ | ⟨snap, -, -, hs⟩⟩ :=
      handleInstallSnapshot_spec (not_lt.mp hst) <;> rw [hs, hm.eq]

end DistributedKV.Raft.Node
