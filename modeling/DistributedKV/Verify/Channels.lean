import DistributedKV.Theory.Cells
import DistributedKV.Verify.Blocked

/-!
# Channels

The node answers waiting clients while it holds `n.mu`: a send on a channel that already holds a
value would block there for ever, and a second close of a channel would panic. `Raft.Node` has the
sends and closes without these; here they are stated with them, and in no run of the cluster do they
differ (`channels_ready`).
-/

namespace DistributedKV.Raft

open Theory

/-- `ch <- r` on the channel of a call of `Propose`, which has room for one value. -/
def trySend (r : Option CallError) (ps : List Proposal) (call : ℕ) : Option (List Proposal) :=
  consume (fun p => p.waitCh.isNone) (fun p => { p with waitCh := some r }) ps call

/-- `close(done)` on the channel of a read. -/
def tryClose (rs : List Read) (call : ℕ) : Option (List Read) :=
  consume (fun r => r.phase = .waiting false) (fun r => { r with phase := .waiting true }) rs call

namespace Node

variable {me : Member} {s s' : Node}

/-- The sends of `notifyWritersLocked`. -/
def notifySends (s : Node) (appliedIndex : ℕ) : Option (List Proposal) :=
  match s.writeWaiters.find? fun w => w.1 = appliedIndex with
  | some w => trySend none s.proposals w.2
  | none => some s.proposals

/-- The sends of `failStaleWritersLocked`. -/
def failSends (s : Node) : Option (List Proposal) :=
  (s.writeWaiters.map Prod.snd).foldlM (trySend (some .proposalDropped)) s.proposals

/-- The closes of `satisfyPendingReadsLocked`. -/
def satisfyCloses (s : Node) : Option (List Read) :=
  ((s.pendingReads.filter fun pr => pr.readIndex ≤ s.lastApplied).map PendingRead.call).foldlM
    tryClose s.reads

/-! ## The invariant -/

/-- Every registered call waits with an empty channel of its own. -/
def WritersReady (s : Node) : Prop :=
  Fresh (fun p : Proposal => p.waitCh.isNone) s.proposals (s.writeWaiters.map Prod.snd)

/-- Every pending read waits with an open channel of its own. -/
def ReadersReady (s : Node) : Prop :=
  Fresh (fun r : Read => r.phase = .waiting false) s.reads (s.pendingReads.map PendingRead.call)

namespace WritersReady

theorem same (h : WritersReady s) (hp : s'.proposals = s.proposals)
    (hw : s'.writeWaiters = s.writeWaiters) : WritersReady s' := by
  unfold WritersReady
  rw [hp, hw]
  exact h

theorem of_nil (hw : s'.writeWaiters = []) : WritersReady s' := by
  unfold WritersReady
  rw [hw]
  exact .nil

theorem calls (h : WritersReady s) (hc : s.SameCalls s') : WritersReady s' := by
  rcases hc with ⟨hp, hw⟩ | ⟨-, hw⟩
  · exact h.same hp hw
  · exact of_nil hw

/-- The call that is told is not registered any more. -/
theorem notify (h : WritersReady s) (i : ℕ) : WritersReady (s.notifyWritersLocked i) := by
  unfold notifyWritersLocked
  split
  · next w hfind =>
    have hmem := List.mem_of_find?_eq_some hfind
    have hi : w.1 = i := by simpa using List.find?_some hfind
    refine (h.sublist (List.filter_sublist.map _)).modify fun hcall => ?_
    simp only [List.mem_map, List.mem_filter, decide_eq_true_eq] at hcall
    obtain ⟨w', ⟨hw', hne⟩, heq⟩ := hcall
    exact absurd ((List.inj_on_of_nodup_map h.nodup hw' hmem heq) ▸ hi) hne
  · exact h

theorem propose (h : WritersReady s) (hs : s.propose type key value clientRequestID = .ok s') :
    WritersReady s' := by
  obtain ⟨-, rfl⟩ := propose_ok hs
  exact (h.sublist (List.filter_sublist.map _)).cons_append rfl

theorem act (h : WritersReady s) (ha : s.Acts me a ef) : WritersReady ef.node := by
  cases ha with
  | lead _ _ _ hs => rw [hs]; exact h.same rfl rfl
  | propose hs => exact h.propose hs
  | proposeReturn hp => exact Fresh.set h hp fun _ => rfl
  | proposeCancel =>
    exact Fresh.modify (h.sublist (List.filter_sublist.map _)) fun _ _ => rfl
  | tryAdvanceCommitIndex => rw [advance, tryAdvanceCommitIndex_eq]; exact h.same rfl rfl
  | linearizableRead hs => obtain ⟨-, rfl⟩ := linearizableRead_ok hs; exact h.same rfl rfl
  | waitForApplied => unfold Node.waitForApplied; split <;> exact h.same rfl rfl
  | @applyNext i stop =>
    unfold Node.applyNext
    split
    · exact h.same rfl rfl
    · split
      · exact h.same rfl rfl
      · next e _ =>
        obtain ⟨-, -, hw, hp, -⟩ := applyOne_calls me s (i + 1) stop e
        exact (h.notify (i + 1)).same hp hw
  | restart => exact .nil
  | startElection | ask | dissolve | replicate | sendSnapshot | heartbeat | readReturn | readCancel
  | applyBegin => exact h.same rfl rfl

theorem receive (h : WritersReady s) (hrec : s.Receives me env ef) : WritersReady ef.node := by
  cases hrec.hears with
  | @voteReq req _ heq =>
    rw [heq]
    rcases lt_or_ge req.term s.log.currentTerm with hst | hle
    · rw [handleRequestVote_stale hst]
      exact h
    · obtain ⟨s₁, hm, -, hs | ⟨-, -, hs⟩⟩ := handleRequestVote_spec hle <;> rw [hs]
      · exact h.calls hm.calls
      · exact (h.calls hm.calls).same rfl rfl
  | @appendReq _ req _ heq =>
    rw [heq]
    rcases lt_or_ge req.term s.log.currentTerm with hst | hle
    · rw [handleAppendEntries_stale hst]
      exact h
    · obtain ⟨s₁, hm, -, -, ⟨resp, -, -, hs⟩ | ⟨-, hs⟩⟩ := handleAppendEntries_spec hle <;> rw [hs]
      · exact h.calls hm.calls
      · rw [followCommit_eq]
        exact (h.calls hm.calls).same rfl rfl
  | @snapReq req _ heq =>
    rw [heq]
    rcases lt_or_ge req.term s.log.currentTerm with hst | hle
    · rw [handleInstallSnapshot_stale hst]
      exact h
    · obtain ⟨s₁, hm, -, -, ⟨-, hs⟩ | ⟨snap, -, -, hs⟩⟩ := handleInstallSnapshot_spec hle <;>
        rw [hs]
      · exact h.calls hm.calls
      · exact (h.calls hm.calls).same rfl rfl
  | @follow t heq =>
    have hcalls : s.SameCalls (s.becomeFollower t "" "") :=
      (s.becomeFollower_calls t "" "").imp And.right And.right
    rw [heq]
    exact (h.calls hcalls).same rfl rfl
  | note heq => rw [heq]; exact h.same rfl rfl

end WritersReady

namespace ReadersReady

theorem same (h : ReadersReady s) (hr : s'.reads = s.reads)
    (hp : s'.pendingReads = s.pendingReads) : ReadersReady s' := by
  unfold ReadersReady
  rw [hr, hp]
  exact h

/-- A read that does not wait is not pending. -/
theorem not_pending (h : ReadersReady s) (hr : s.reads[call]? = some r)
    (hphase : r.phase ≠ .waiting false) : call ∉ s.pendingReads.map PendingRead.call := by
  intro hmem
  have := h.fresh call hmem
  rw [hr] at this
  exact hphase (of_decide_eq_true this)

theorem applyOne (h : ReadersReady s) : ReadersReady (s.applyOne me i stop e) := by
  obtain ⟨-, -, -, -, hr, hp⟩ := applyOne_calls me s i stop e
  unfold ReadersReady
  rw [hr, hp]
  have hrest := h.sublist ((List.filter_sublist (p := fun pr => ¬ pr.readIndex ≤ i)).map
    PendingRead.call)
  refine ⟨hrest.nodup, fun call hmem => ?_⟩
  have hopen := hrest.fresh call hmem
  -- a read that is closed has no other entry among those that remain
  have hkept : ¬ ∃ pr ∈ s.pendingReads, pr.readIndex ≤ i ∧ pr.call = call := by
    rintro ⟨pr, hpr, hle, rfl⟩
    obtain ⟨pr', hpr', heq⟩ := List.mem_map.mp hmem
    obtain ⟨hpr', hgt⟩ := List.mem_filter.mp hpr'
    rw [List.inj_on_of_nodup_map h.nodup hpr' hpr heq] at hgt
    exact of_decide_eq_true hgt hle
  rw [afterApply_reads]
  simpa only [hkept, if_false, Option.map_id'] using hopen

theorem act (h : ReadersReady s) (ha : s.Acts me a ef) : ReadersReady ef.node := by
  cases ha with
  | lead _ _ _ hs => rw [hs]; exact h.same rfl rfl
  | propose hs => obtain ⟨-, rfl⟩ := propose_ok hs; exact h.same rfl rfl
  | tryAdvanceCommitIndex => rw [advance, tryAdvanceCommitIndex_eq]; exact h.same rfl rfl
  | linearizableRead hs => obtain ⟨-, rfl⟩ := linearizableRead_ok hs; exact Fresh.append h _
  | heartbeat hr => exact Fresh.set h hr fun _ => rfl
  | waitForApplied hr hphase =>
    have hnot := h.not_pending hr (by simp [hphase])
    unfold Node.waitForApplied
    split
    · exact Fresh.set h hr fun hmem => (hnot hmem).elim
    · unfold ReadersReady
      rw [List.map_append]
      exact Fresh.renew h hr hnot rfl
  | readReturn hr hphase =>
    exact Fresh.set h hr fun hmem => (h.not_pending hr (by simp [hphase]) hmem).elim
  | readCancel hr =>
    refine Fresh.set (h.sublist (List.filter_sublist.map _)) hr fun hmem => ?_
    obtain ⟨pr, hpr, rfl⟩ := List.mem_map.mp hmem
    exact (of_decide_eq_true (List.mem_filter.mp hpr).2 rfl).elim
  | applyNext =>
    unfold Node.applyNext
    split
    · exact h.same rfl rfl
    · split
      · exact h.same rfl rfl
      · exact h.applyOne
  | restart => exact .nil
  | startElection | ask | dissolve | proposeReturn | proposeCancel | replicate | sendSnapshot
  | applyBegin => exact h.same rfl rfl

theorem receive (h : ReadersReady s) (hrec : s.Receives me env ef) : ReadersReady ef.node := by
  cases hrec with
  | voteReq => rw [handleRequestVote_shape]; exact h.same rfl rfl
  | appendReq => rw [handleAppendEntries_shape]; exact h.same rfl rfl
  | snapReq => rw [handleInstallSnapshot_shape]; exact h.same rfl rfl
  | voteResp =>
    rw [countVote_eq]
    split
    · rw [becomeFollower_eq]; exact h.same rfl rfl
    · split <;> exact h.same rfl rfl
  | replicated =>
    rw [replicated_eq]
    split
    · rw [becomeFollower_eq]; exact h.same rfl rfl
    · exact h.same rfl rfl
  | confirmed hr =>
    unfold Node.confirmed
    dsimp only
    split
    · rw [becomeFollower_eq]
      exact Fresh.set h hr fun _ => rfl
    · exact Fresh.set h hr fun _ => rfl
  | snapResp =>
    rw [snapshotInstalled_eq]
    split
    · rw [becomeFollower_eq]; exact h.same rfl rfl
    · exact h.same rfl rfl
  | discard => exact h.same rfl rfl

end ReadersReady

theorem WritersReady.failSends (h : WritersReady s) :
    s.failSends = some s.failStaleWritersLocked.proposals := by
  refine (h.foldlM_consume _).trans ?_
  rw [List.foldl_map]
  rfl

theorem WritersReady.notifySends (h : WritersReady s) (i : ℕ) :
    s.notifySends i = some (s.notifyWritersLocked i).proposals := by
  unfold Node.notifySends notifyWritersLocked
  cases hfind : s.writeWaiters.find? fun w => w.1 = i with
  | none => rfl
  | some w => exact if_pos (h.fresh w.2 (List.mem_map_of_mem (List.mem_of_find?_eq_some hfind)))

theorem ReadersReady.satisfyCloses (h : ReadersReady s) :
    s.satisfyCloses = some s.satisfyPendingReadsLocked.reads := by
  refine ((h.sublist (List.filter_sublist.map _)).foldlM_consume _).trans ?_
  rw [List.foldl_map]
  rfl

end Node

/-! ## Runs -/

theorem Run.channels (h : Run cfg ok tr c) (n : NodeID) :
    (c.node n).WritersReady ∧ (c.node n).ReadersReady := by
  induction h with
  | init => exact ⟨.nil, .nil⟩
  | step _ _ hs ih =>
    cases Cluster.step_changes hs n with
    | same heq => rw [heq]; exact ih
    | act _ _ hacts heq => rw [heq]; exact ⟨ih.1.act hacts, ih.2.act hacts⟩
    | receive _ _ _ hrec heq => rw [heq]; exact ⟨ih.1.receive hrec, ih.2.receive hrec⟩

/-- **Clients are answered without blocking.** In every state of every run, whatever index is
applied next and whenever the node steps down, each answer is sent on an empty channel and each
channel that is closed is open. -/
theorem channels_ready (h : Run cfg unrestricted tr c) (n : NodeID) (i : ℕ) :
    (c.node n).notifySends i = some ((c.node n).notifyWritersLocked i).proposals ∧
      (c.node n).failSends = some (c.node n).failStaleWritersLocked.proposals ∧
      { c.node n with lastApplied := i }.satisfyCloses =
        some { c.node n with lastApplied := i }.satisfyPendingReadsLocked.reads := by
  obtain ⟨hw, hr⟩ := h.channels n
  have hr' : { c.node n with lastApplied := i }.ReadersReady := hr.same rfl rfl
  exact ⟨hw.notifySends i, hw.failSends, hr'.satisfyCloses⟩

/-- Two calls of `Propose` and a read wait on the leader of three. -/
theorem channels_ready_waiting : ∃ tr c, Run (trio 0) unrestricted tr c ∧
    (c.node "n1").writeWaiters = [(3, 1), (2, 0)] ∧ (c.node "n1").pendingReads.length = 1 ∧
    (c.node "n1").notifySends 2 = some ((c.node "n1").notifyWritersLocked 2).proposals ∧
    (c.node "n1").failSends = some (c.node "n1").failStaleWritersLocked.proposals ∧
    { c.node "n1" with lastApplied := 2 }.satisfyCloses =
      some { c.node "n1" with lastApplied := 2 }.satisfyPendingReadsLocked.reads := by
  have hx : Cluster.init.Reaches (trio 0) unrestricted []
      (electBy "n1" 0 ++
        ([.drop 0, .act "n1" (.propose .put "k" [] ""), .act "n1" (.replicate "n2"), .deliver 0,
          .deliver 0, .act "n1" .tryAdvanceCommitIndex, .act "n1" (.propose .put "l" [] ""),
          .act "n1" .linearizableRead, .act "n1" (.heartbeat 0 "n2"), .deliver 0, .deliver 0,
          .act "n1" (.waitForApplied 0)] : List Action))
      fun c _ => (c.node "n1").writeWaiters = [(3, 1), (2, 0)] ∧
        (c.node "n1").pendingReads.length = 1 := by
    decide +kernel
  obtain ⟨c, tr, h, hw, hr⟩ := hx.run
  exact ⟨tr, c, h, hw, hr, channels_ready h "n1" 2⟩

end DistributedKV.Raft
