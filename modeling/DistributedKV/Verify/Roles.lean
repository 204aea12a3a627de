import DistributedKV.Verify.Waiters

/-!
# Stepping down, and the leader a node points to

A leader steps down for a higher term, but also for an answer to a call it made as leader of an
earlier term, because that is the term the answer is compared with (`Timely`). Clients are sent to
`leaderID` at `leaderClientAddr`. Two of the paths that set the former do not set the latter
(`Addressed`).
-/

namespace DistributedKV.Raft

open Theory (BallotInv)

/-! ## Stepping down -/

namespace Node

variable {me : Member} {s : Node}

/-- The term of a call and the term of its answer, as `s` compares them. -/
def compared (s : Node) (env : Envelope) : Option (ℕ × ℕ) :=
  match env.body with
  | .appendResp .replicate req resp => some (req.term, resp.term)
  | .appendResp (.confirm call) _ resp => s.reads[call]?.map fun rd => (rd.term, resp.term)
  | .snapResp req resp => some (req.term, resp.term)
  | _ => none

/-- An answer to `s` of a higher term than the call's is of a higher term than a leader is in. -/
def HearsTimely (s : Node) (env : Envelope) : Prop :=
  s.role = .leader → env.epoch = s.epoch → ∀ x ∈ s.compared env, x.1 < x.2 → s.log.currentTerm < x.2

instance : Decidable (HearsTimely s env) :=
  inferInstanceAs (Decidable (_ → _ → ∀ x ∈ s.compared env, _))

/-- `s'` is still leader, or in a higher term than `s`. -/
def Yields (s s' : Node) : Prop := s'.role = .leader ∨ s.log.currentTerm < s'.log.currentTerm

theorem yields_becomeFollower (l a : String) (h : s.log.currentTerm < t) :
    s.Yields (s.becomeFollower t l a) := by
  rw [becomeFollower_eq, if_pos h]
  exact .inr h

theorem yields_handleRequestVote (hl : s.role = .leader) (req : RequestVoteRequest) :
    s.Yields (s.handleRequestVote req).1 := by
  rw [handleRequestVote]
  split
  · exact .inl hl
  · rcases lt_or_ge s.log.currentTerm req.term with hlt | hge
    · right
      rw [if_pos hlt]
      dsimp only
      split <;> exact hlt
    · left
      rw [if_neg (not_lt.mpr hge)]
      dsimp only
      split <;> exact hl

theorem yields_handleAppendEntries (hl : s.role = .leader) (req : AppendEntriesRequest) :
    s.Yields (s.handleAppendEntries req).1 := by
  rcases lt_or_ge req.term s.log.currentTerm with hst | hle
  · rw [handleAppendEntries_stale hst]
    exact .inl hl
  · rcases hle.lt_or_eq with hlt | heq
    · right
      obtain ⟨s₁, hm, -, -, ⟨resp, -, -, hs⟩ | ⟨-, hs⟩⟩ := handleAppendEntries_spec hle <;> rw [hs]
      · exact hlt.trans_eq (hm.currentTerm hle).symm
      · rw [followCommit_eq]
        refine hlt.trans_eq ((hm.currentTerm hle).symm.trans ?_)
        exact (PersistentLog.SameBallot.appendEntries true s₁.log req.entries).currentTerm.symm
    · left
      rw [handleAppendEntries_current hle rfl, if_neg heq.not_lt, if_neg (by rw [hl]; decide)]
      split
      · exact hl
      · rw [followCommit_eq]
        exact hl

theorem yields_handleInstallSnapshot (req : InstallSnapshotRequest)
    (hl : s.role = .leader) (hne : s.log.currentTerm ≠ req.term) :
    s.Yields (s.handleInstallSnapshot req).1 := by
  rcases hne.lt_or_gt with hlt | hst
  · right
    obtain ⟨s₁, hm, -, -, ⟨-, hs⟩ | ⟨snap, -, -, hs⟩⟩ := handleInstallSnapshot_spec hlt.le <;>
      rw [hs] <;> exact hlt.trans_eq (hm.currentTerm hlt.le).symm
  · rw [handleInstallSnapshot_stale hst]
    exact .inl hl

/-- A leader steps down for a higher term, if it hears answers in time and no other node leads its
own term. -/
theorem Receives.yields (hrec : s.Receives me env ef) (hl : s.role = .leader)
    (hel : s.election = none)
    (hsnap : ∀ req, env.body = .snapReq req → s.log.currentTerm ≠ req.term)
    (ht : s.HearsTimely env) : s.Yields ef.node := by
  cases hrec with
  | voteReq => exact yields_handleRequestVote hl _
  | appendReq => exact yields_handleAppendEntries hl _
  | snapReq => exact yields_handleInstallSnapshot _ hl (hsnap _ rfl)
  | voteResp h => rw [hel] at h; cases h
  | replicated =>
    rw [replicated_eq]
    split
    · next hlt => exact yields_becomeFollower _ _ (ht hl rfl _ rfl hlt)
    · exact .inl hl
  | @confirmed src dst call req resp rd hrd =>
    unfold Node.confirmed
    dsimp only
    split
    · next hlt =>
      have hx : (rd.term, resp.term) ∈
          s.compared ⟨src, dst, s.epoch, .appendResp (.confirm call) req resp⟩ := by
        simp [compared, hrd]
      exact yields_becomeFollower _ _ (ht hl rfl _ hx hlt)
    · exact .inl hl
  | snapResp =>
    rw [snapshotInstalled_eq]
    split
    · next hlt => exact yields_becomeFollower _ _ (ht hl rfl _ rfl hlt)
    · exact .inl hl
  | discard => exact .inl hl

/-- A leader does not count votes. -/
def Settled (s : Node) : Prop := s.role = .leader → s.election = none

theorem Settled.act (h : s.Settled) (ha : s.Acts me a ef) : ef.node.Settled := by
  cases ha with
  | startElection => exact fun hl => by cases hl
  | ask hel => exact fun hl => by rw [h hl] at hel; cases hel
  | lead _ _ _ hs => exact fun _ => by rw [hs]
  | dissolve => exact fun _ => rfl
  | propose hs => obtain ⟨-, rfl⟩ := propose_ok hs; exact h
  | tryAdvanceCommitIndex => rw [advance, tryAdvanceCommitIndex_eq]; exact h
  | linearizableRead hs => obtain ⟨-, rfl⟩ := linearizableRead_ok hs; exact h
  | waitForApplied => rw [waitForApplied_eq]; exact h
  | applyNext => rw [applyNext_shape]; exact h
  | restart => exact fun _ => rfl
  | _ => exact h

theorem Settled.receive (h : s.Settled) (hrec : s.Receives me env ef) : ef.node.Settled := by
  intro hl
  -- nobody becomes leader by a message
  have hold : s.role = .leader := by
    cases hrec.outcome with
    | quiet _ hret => obtain ⟨t, hret⟩ := hret; exact (hret.leader hl).1
    | vote _ hm => exact (hm.retreats.leader hl).1
    | append _ hm _ _ hs => rw [hs, followCommit_eq] at hl; exact (hm.retreats.leader hl).1
    | install _ _ hr _ hs => rw [hs] at hl; exact absurd (hr.symm.trans hl) (by decide)
  cases hrec with
  | voteReq => rw [handleRequestVote_shape]; exact h hold
  | appendReq => rw [handleAppendEntries_shape]; exact h hold
  | snapReq => rw [handleInstallSnapshot_shape]; exact h hold
  | voteResp hel => rw [h hold] at hel; cases hel
  | replicated =>
    rw [replicated_eq]
    split
    · rw [becomeFollower_eq]; exact h hold
    · exact h hold
  | confirmed =>
    unfold Node.confirmed
    dsimp only
    split
    · rw [becomeFollower_eq]; exact h hold
    · exact h hold
  | snapResp =>
    rw [snapshotInstalled_eq]
    split
    · rw [becomeFollower_eq]; exact h hold
    · exact h hold
  | discard => exact h hold

end Node

theorem Run.settled (h : Run cfg ok tr c) (n : NodeID) : (c.node n).Settled := by
  induction h with
  | init => exact fun _ => rfl
  | step _ _ hs ih =>
    cases Cluster.step_changes hs n with
    | same heq => rw [heq]; exact ih
    | act _ _ ha heq => rw [heq]; exact ih.act ha
    | receive _ _ _ hrec heq => rw [heq]; exact ih.receive hrec

/-- Answers of a higher term than their call's reach a leader before it is in that term itself. -/
def Timely (c : Cluster) (a : Action) : Prop :=
  ∀ env ∈ c.delivered a, (c.node env.dst).HearsTimely env

instance : Decidable (Timely c a) := inferInstanceAs (Decidable (∀ env ∈ c.delivered a, _))

/-- **A leader steps down only for a higher term**, in any run, by a step that is in time. -/
theorem deposed_by_higher_term {cfg : Config} (h : Run cfg ok tr c)
    (hs : c.step cfg a = some (c', evs)) (hne : a ≠ .act n .restart) (ht : Timely c a)
    (hl : (c.node n).role = .leader) (hl' : (c'.node n).role ≠ .leader) :
    (c.node n).log.currentTerm < (c'.node n).log.currentTerm := by
  obtain ⟨r, hsh⟩ := h.shadow
  obtain ⟨B, V⟩ := hsh.voting
  cases Cluster.step_changes hs n with
  | same heq => rw [heq] at hl'; exact (hl' hl).elim
  | act ha _ hacts heq =>
    rw [heq] at hl'
    refine (hl' (hacts.stays_leader hl fun hb => hne ?_)).elim
    rw [ha, hb]
  | @receive k env ef ha henv hdst hrec heq =>
    subst hdst
    rw [heq] at hl' ⊢
    refine (hrec.yields hl (h.settled _ hl) (fun req hb heq => ?_) ?_).resolve_left hl'
    · -- the sender would lead the same term
      have hled := hsh.led.msg env (List.mem_of_getElem? henv)
      simp only [led, LedMsg, hb] at hled
      exact hled.1 (B.leads_unique ((V.node _).leader hl) (heq ▸ hled.2))
    · exact ht env (by simp [Cluster.delivered, ha, henv])

/-- `n1` leads term 1 and sends `n3` its no-op. `n3` has voted for `n2` in term 2 and refuses it. -/
def refusedInTermTwo : List Action :=
  electBy "n1" 0 ++ ([.act "n1" (.replicate "n3"), .act "n2" .startElection,
    .act "n2" .requestVotes, .deliver 3, .deliver 1] : List Action)

theorem deposed_by_higher_term_refused : ∃ tr c c' evs, Run (trio 0) unrestricted tr c ∧
    c.step (trio 0) (.deliver 3) = some (c', evs) ∧ (c.node "n1").role = .leader ∧
    (c'.node "n1").role ≠ .leader ∧
    (c.node "n1").log.currentTerm < (c'.node "n1").log.currentTerm := by
  have hx : Cluster.init.Reaches (trio 0) unrestricted [] refusedInTermTwo fun c _ =>
      (c.node "n1").role = .leader ∧ Timely c (.deliver 3) ∧
        ∃ x ∈ c.step (trio 0) (.deliver 3), (x.1.node "n1").role ≠ .leader := by
    decide +kernel
  obtain ⟨c, tr, h, hl, ht, ⟨c', evs⟩, hs, hl'⟩ := hx.run
  exact ⟨tr, c, c', evs, h, hs, hl, hl', deposed_by_higher_term h hs nofun ht hl hl'⟩

/-- The refusal reaches `n1` when it leads term 3. -/
theorem deposed_by_higher_term_fails : ∃ tr c c' evs, Run (trio 0) unrestricted tr c ∧
    c.step (trio 0) (.deliver 2) = some (c', evs) ∧ (c.node "n1").role = .leader ∧
    (c'.node "n1").role ≠ .leader ∧
    ¬(c.node "n1").log.currentTerm < (c'.node "n1").log.currentTerm := by
  have hx : Cluster.init.Reaches (trio 0) unrestricted []
      (refusedInTermTwo ++ ([.deliver 1, .act "n1" .startElection, .act "n1" .requestVotes,
        .deliver 5, .deliver 5, .act "n1" .concludeElection] : List Action)) fun c _ =>
      (c.node "n1").role = .leader ∧ ∃ x ∈ c.step (trio 0) (.deliver 2),
        (x.1.node "n1").role ≠ .leader ∧
        ¬(c.node "n1").log.currentTerm < (x.1.node "n1").log.currentTerm := by
    decide +kernel
  obtain ⟨c, tr, h, hl, ⟨c', evs⟩, hs, hl', ht⟩ := hx.run
  exact ⟨tr, c, c', evs, h, hs, hl, hl', ht⟩

/-! ## The leader clients are sent to -/

namespace Node

variable {me : Member} {s : Node}

/-- The address in `LeaderHint` is the one of the leader it names. -/
structure Hints (cfg : Config) (s : Node) : Prop where
  known : s.leaderID ≠ "" → s.leaderClientAddr = (cfg.member s.leaderID).selfClientAddr
  unknown : s.leaderID = "" → s.leaderClientAddr = ""

theorem Hints.none (hid : s.leaderID = "") (ha : s.leaderClientAddr = "") : s.Hints cfg :=
  ⟨fun h => (h hid).elim, fun _ => ha⟩

theorem Hints.some {cfg : Config} (hn : n ∈ cfg.ids) (hid : s.leaderID = n)
    (ha : s.leaderClientAddr = (cfg.member n).selfClientAddr) : s.Hints cfg := by
  refine ⟨fun _ => by rw [ha, hid], fun h => ?_⟩
  rw [hid] at h
  exact (cfg.ne_empty (h ▸ hn)).elim

theorem Hints.congr {s' : Node} (h : s.Hints cfg) (hid : s'.leaderID = s.leaderID)
    (ha : s'.leaderClientAddr = s.leaderClientAddr) : s'.Hints cfg := by
  refine ⟨?_, ?_⟩ <;> rw [hid, ha]
  exacts [h.known, h.unknown]

end Node

/-- Requests are signed by their sender. Replication adds its client address. -/
def Envelope.Signed (cfg : Config) (env : Envelope) : Prop :=
  match env.body with
  | .appendReq .replicate req => env.src ∈ cfg.ids ∧ req.leaderID = env.src ∧
      req.leaderClientAddr = (cfg.member env.src).selfClientAddr
  | .appendReq (.confirm _) req => env.src ∈ cfg.ids ∧ req.leaderID = env.src ∧
      req.leaderClientAddr = ""
  | .snapReq req => env.src ∈ cfg.ids ∧ req.leaderID = env.src
  | _ => True

/-- A heartbeat of `confirmLeadership`, which carries no address, comes from a leader that has none,
and a snapshot comes from the leader whose address the node has. Stale requests apart. -/
def Node.Addressed (cfg : Config) (s : Node) (env : Envelope) : Prop :=
  match env.body with
  | .appendReq (.confirm _) req =>
    s.log.currentTerm ≤ req.term → (cfg.member env.src).selfClientAddr = ""
  | .snapReq req =>
    s.log.currentTerm ≤ req.term → s.leaderClientAddr = (cfg.member env.src).selfClientAddr
  | _ => True

instance : Decidable (Node.Addressed cfg s env) := by
  unfold Node.Addressed
  split <;> infer_instance

def Addressed (cfg : Config) (c : Cluster) (a : Action) : Prop :=
  ∀ env ∈ c.delivered a, (c.node env.dst).Addressed cfg env

instance : Decidable (Addressed cfg c a) := inferInstanceAs (Decidable (∀ env ∈ c.delivered a, _))

namespace Node

variable {me : Member} {s : Node}

def Outgoing.Signed (me : Member) : Outgoing → Prop
  | .appendEntries req => req.leaderID = me.id ∧ req.leaderClientAddr = me.selfClientAddr
  | .installSnapshot req => req.leaderID = me.id

theorem replicateToPeer_signed (h : s.replicateToPeer me peer term = some out) :
    out.Signed me := by
  have snapshot (h : s.sendInstallSnapshot me term = some out) : out.Signed me := by
    obtain ⟨snap, info, -, rfl⟩ := sendInstallSnapshot_eq h
    exact rfl
  unfold replicateToPeer at h
  split at h
  · cases h
  dsimp only at h
  split at h
  · exact snapshot h
  split at h
  · exact snapshot h
  split at h
  · exact snapshot h
  cases h
  exact ⟨rfl, rfl⟩

theorem Acts.signed {cfg : Config} (hn : n ∈ cfg.ids) (ha : s.Acts (cfg.member n) a ef)
    (henv : env ∈ ef.msgs) : env.Signed cfg := by
  have hid := cfg.member_id n
  cases ha.emits henv with
  | voteReq => trivial
  | appendReq _ hreq =>
    have hsigned : Outgoing.Signed .. := replicateToPeer_signed hreq
    exact ⟨hid.symm ▸ hn, hsigned.1, by rw [hid]; exact hsigned.2⟩
  | snapReq _ hreq => exact ⟨hid.symm ▸ hn, replicateToPeer_signed hreq⟩
  | heartbeat => exact ⟨hid.symm ▸ hn, rfl, rfl⟩

theorem Receives.signed (hrec : s.Receives me env ef) (henv : env' ∈ ef.msgs) :
    env'.Signed cfg := by
  cases hrec.replies henv with
  | voteReq | appendReq | snapReq => trivial

theorem Hints.act {cfg : Config} (h : s.Hints cfg) (hn : n ∈ cfg.ids)
    (ha : s.Acts (cfg.member n) a ef) : ef.node.Hints cfg := by
  cases ha with
  | startElection => exact .none rfl rfl
  | lead _ _ _ hs => rw [hs]; exact .some hn (cfg.member_id n) rfl
  | propose hs => obtain ⟨-, rfl⟩ := propose_ok hs; exact h.congr rfl rfl
  | tryAdvanceCommitIndex => rw [advance, tryAdvanceCommitIndex_eq]; exact h.congr rfl rfl
  | linearizableRead hs => obtain ⟨-, rfl⟩ := linearizableRead_ok hs; exact h.congr rfl rfl
  | waitForApplied => rw [waitForApplied_eq]; exact h.congr rfl rfl
  | applyNext => rw [applyNext_shape]; exact h.congr rfl rfl
  | restart => exact .none rfl rfl
  | _ => exact h.congr rfl rfl

theorem Hints.handleRequestVote (h : s.Hints cfg) (req : RequestVoteRequest) :
    (s.handleRequestVote req).1.Hints cfg := by
  rw [Node.handleRequestVote]
  split
  · exact h
  · have hs {s₁ : Node} (h₁ : s₁.Hints cfg) :
        (if (s₁.log.votedFor = "" ∨ s₁.log.votedFor = req.candidateID) ∧
            s₁.candidateLogUpToDateLocked req.lastLogIndex req.lastLogTerm then
          (s₁.setTermAndVote req.term req.candidateID, { term := req.term, voteGranted := true })
        else (s₁, ({ term := req.term, voteGranted := false } : RequestVoteResponse))).1.Hints
          cfg := by
      split
      · exact h₁.congr rfl rfl
      · exact h₁
    refine hs ?_
    split
    · exact .none rfl rfl
    · exact h

theorem handleAppendEntries_hint (hle : s.log.currentTerm ≤ req.term) :
    (s.handleAppendEntries req).1.leaderID = req.leaderID ∧
      (s.handleAppendEntries req).1.leaderClientAddr = req.leaderClientAddr := by
  rw [handleAppendEntries_current hle rfl]
  split
  · exact ⟨rfl, rfl⟩
  · rw [followCommit_eq]
    exact ⟨rfl, rfl⟩

theorem handleInstallSnapshot_hint (hle : s.log.currentTerm ≤ req.term) :
    (s.handleInstallSnapshot req).1.leaderID = req.leaderID ∧
      (s.handleInstallSnapshot req).1.leaderClientAddr = s.leaderClientAddr := by
  let s₁ : Node := { (if s.log.currentTerm < req.term then s.setTermAndVote req.term "" else s) with
    role := .follower, leaderID := req.leaderID }
  have ha : s₁.leaderClientAddr = s.leaderClientAddr := by
    simp only [s₁]
    split <;> rfl
  rw [handleInstallSnapshot_current hle (rfl : s₁ = _)]
  split
  · exact ⟨rfl, ha⟩
  · split <;> exact ⟨rfl, ha⟩

theorem Hints.receive (h : s.Hints cfg) (hsig : env.Signed cfg) (hok : s.Addressed cfg env)
    (hrec : s.Receives me env ef) : ef.node.Hints cfg := by
  obtain ⟨src, dst, ep, body⟩ := env
  cases hrec.hears with
  | voteReq _ heq => rw [heq]; exact h.handleRequestVote _
  | @appendReq caller req hb heq =>
    cases hb
    rw [heq]
    rcases lt_or_ge req.term s.log.currentTerm with hst | hle
    · rw [handleAppendEntries_stale hst]
      exact h
    · obtain ⟨hid, ha⟩ := handleAppendEntries_hint hle
      cases caller with
      | replicate => exact .some hsig.1 (hid.trans hsig.2.1) (ha.trans hsig.2.2)
      | confirm =>
        exact .some hsig.1 (hid.trans hsig.2.1) (ha.trans (hsig.2.2.trans (hok hle).symm))
  | @snapReq req hb heq =>
    cases hb
    rw [heq]
    rcases lt_or_ge req.term s.log.currentTerm with hst | hle
    · rw [handleInstallSnapshot_stale hst]
      exact h
    · obtain ⟨hid, ha⟩ := handleInstallSnapshot_hint hle
      exact .some hsig.1 (hid.trans hsig.2) (ha.trans (hok hle))
  | @follow t heq => rw [heq, becomeFollower_eq]; exact .none rfl rfl
  | note heq => rw [heq]; exact h.congr rfl rfl

end Node

theorem Run.signed (h : Run cfg ok tr c) : ∀ env ∈ c.network, env.Signed cfg := by
  induction h with
  | init => nofun
  | step _ _ hs ih =>
    intro env henv
    cases Cluster.step_network hs henv with
    | old henv => exact ih env henv
    | act hn ha henv => exact ha.signed hn henv
    | reply _ hrec henv => exact hrec.signed henv

theorem Run.hints (h : Run cfg (Addressed cfg) tr c) (n : NodeID) : (c.node n).Hints cfg := by
  induction h with
  | init => exact .none rfl rfl
  | step h hok hs ih =>
    cases Cluster.step_changes hs n with
    | same heq => rw [heq]; exact ih
    | act _ hn ha heq => rw [heq]; exact ih.act hn ha
    | @receive k env ef ha henv hdst hrec heq =>
      subst hdst
      rw [heq]
      exact ih.receive (h.signed env (List.mem_of_getElem? henv))
        (hok env (by simp [Cluster.delivered, ha, henv])) hrec

/-- **Clients are sent to the address of the leader they are told of**, if heartbeats without an
address come from leaders without one, and snapshots from a leader whose address is known. -/
theorem hint_coherent (h : Run cfg (Addressed cfg) tr c) (n : NodeID) :
    ((c.node n).leaderID ≠ "" →
      (c.node n).leaderClientAddr = (cfg.member (c.node n).leaderID).selfClientAddr) ∧
    ((c.node n).leaderID = "" → (c.node n).leaderClientAddr = "") :=
  ⟨(h.hints n).known, (h.hints n).unknown⟩

/-- Three nodes, each with its id as its client address. -/
def addressedTrio : Config :=
  { trio 0 with
    member := fun n => { (trio 0).member n with selfClientAddr := n }
    member_id := fun _ => rfl }

/-- A follower that has heard of `n1` by replication. -/
theorem hint_coherent_follower : ∃ tr c, Run addressedTrio (Addressed addressedTrio) tr c ∧
    (c.node "n2").leaderID = "n1" ∧ (c.node "n2").leaderClientAddr = "n1" := by
  have hx : Cluster.init.Reaches addressedTrio (Addressed addressedTrio) []
      (electBy "n1" 0 ++ ([.act "n1" (.replicate "n2"), .deliver 1] : List Action))
      fun c _ => (c.node "n2").leaderID = "n1" := by decide +kernel
  obtain ⟨c, tr, h, hid⟩ := hx.run
  refine ⟨tr, c, h, hid, ?_⟩
  rw [(hint_coherent h "n2").1 (by rw [hid]; decide), hid]
  rfl

/-- A read on `n1` sends `n2` a heartbeat: it knows the leader, but not the address. -/
theorem hint_coherent_fails : ∃ tr c, Run addressedTrio unrestricted tr c ∧
    (c.node "n2").leaderID = "n1" ∧
    (c.node "n2").leaderClientAddr ≠ (addressedTrio.member "n1").selfClientAddr := by
  have hx : Cluster.init.Reaches addressedTrio unrestricted []
      (electBy "n1" 0 ++ ([.act "n1" .linearizableRead, .act "n1" (.heartbeat 0 "n2"),
        .deliver 1] : List Action))
      fun c _ => (c.node "n2").leaderID = "n1" ∧
        (c.node "n2").leaderClientAddr ≠ (addressedTrio.member "n1").selfClientAddr := by
    decide +kernel
  obtain ⟨c, tr, h, hp⟩ := hx.run
  exact ⟨tr, c, h, hp⟩

end DistributedKV.Raft
