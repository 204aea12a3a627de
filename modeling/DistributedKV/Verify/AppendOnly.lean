import DistributedKV.Verify.Sending
import DistributedKV.Verify.Waiters

/-!
# A leader only appends

As long as a node leads a term, its log loses entries to snapshots only, and gets entries of that
term only (`leader_append_only`). This needs no condition on the run: whatever a message can do to
the log of a follower, nobody else leads the term in which it would do that to a leader.

Steps are those of `Raft.Cluster`, where `becomeLeader` with its `appendLocal` is one. In the steps
of `Raft.Threads` the index of the no-op is read before the no-op is written, and a proposal that
comes in between is overwritten.
-/

namespace DistributedKV.Raft

/-! ## Logs that grow -/

namespace PersistentLog

variable {pl pl' pl'' : PersistentLog} {x : Entry} {t : ℕ}

/-- `pl'` is `pl` with entries of the present term after its end, and maybe compacted. -/
structure GrowsTo (pl pl' : PersistentLog) : Prop where
  lastIndex : pl.lastIndex ≤ pl'.lastIndex
  boundary : pl.lastIncludedIndex ≤ pl'.lastIncludedIndex
  kept : ∀ {i}, pl'.lastIncludedIndex < i → i ≤ pl.lastIndex → pl'.retained i = pl.retained i
  own : ∀ {i e}, pl.lastIndex < i → pl'.retained i = some e → e.term = pl'.currentTerm

theorem Tidy.retained (h : Tidy pl) (i : ℕ) : pl.retained i =
    if pl.lastIncludedIndex < i ∧ i ≤ pl.lastIndex then lookup pl.engine.log i else none := by
  unfold PersistentLog.retained
  split
  · next hi => exact h.get hi.1
  · rfl

theorem le_of_retained (h : pl.retained i = some e) : i ≤ pl.lastIndex :=
  (Option.ite_none_right_eq_some.mp h).1.2

namespace GrowsTo

theorem refl (pl : PersistentLog) : pl.GrowsTo pl := by
  refine ⟨le_rfl, le_rfl, fun _ _ => rfl, fun hlt he => ?_⟩
  exact absurd (le_of_retained he) (not_le.mpr hlt)

theorem setTermAndVote (pl : PersistentLog) (t : ℕ) (v : String) :
    pl.GrowsTo (pl.setTermAndVote true t v).1 := by
  refine ⟨le_rfl, le_rfl, fun _ _ => rfl, fun hlt he => ?_⟩
  exact absurd (le_of_retained he) (not_le.mpr hlt)

theorem trans (h : pl.GrowsTo pl') (h' : pl'.GrowsTo pl'')
    (ht : pl''.currentTerm = pl'.currentTerm) : pl.GrowsTo pl'' := by
  refine ⟨h.lastIndex.trans h'.lastIndex, h.boundary.trans h'.boundary, fun {i} hi hle => ?_,
    fun {i e} hlt he => ?_⟩
  · rw [h'.kept hi (hle.trans h.lastIndex), h.kept (h'.boundary.trans_lt hi) hle]
  · by_cases hle : i ≤ pl'.lastIndex
    · have hi : pl''.lastIncludedIndex < i := (Option.ite_none_right_eq_some.mp he).1.1
      rw [h'.kept hi hle] at he
      rw [h.own hlt he, ht]
    · exact h'.own (not_le.mp hle) he

theorem snoc (h : Tidy pl) (hx : x.index = pl.lastIndex + 1) (ht : x.term = pl.currentTerm) :
    pl.GrowsTo (pl.appendEntries true [x]).1 := by
  have h' := h.appendEntries true [x]
  have hlast : (pl.appendEntries true [x]).1.lastIndex = pl.lastIndex + 1 := hx
  have hlog : (pl.appendEntries true [x]).1.engine.log =
      insertEntry (deleteRange x.index pl.lastIndex pl.engine.log) x := rfl
  refine ⟨by omega, le_rfl, fun {i} hi hle => ?_, fun {i e} hlt he => ?_⟩
  · have hbound : pl.lastIncludedIndex < i := hi
    rw [h'.retained, h.retained, if_pos ⟨hi, by omega⟩, if_pos ⟨hbound, hle⟩, hlog,
      lookup_insertEntry, if_neg (by omega), lookup_deleteRange, if_pos (by omega)]
  · have hi : i = x.index := by
      have := le_of_retained he
      omega
    rw [h'.retained, hlog, lookup_insertEntry, if_pos hi.symm] at he
    cases (Option.ite_none_right_eq_some.mp he).2
    exact ht

theorem compactPrefix (h : Tidy pl) (index term : ℕ) :
    pl.GrowsTo (pl.compactPrefix true index term).1 := by
  have h' := h.compactPrefix true index term
  by_cases hle : index ≤ pl.lastIncludedIndex
  · unfold PersistentLog.compactPrefix
    rw [if_pos hle]
    exact refl pl
  · obtain ⟨hb, hlast, hlog⟩ : (pl.compactPrefix true index term).1.lastIncludedIndex = index ∧
        (pl.compactPrefix true index term).1.lastIndex = max pl.lastIndex index ∧
        (pl.compactPrefix true index term).1.engine.log =
          deleteRange pl.firstIndex (min index pl.lastIndex) pl.engine.log := by
      unfold PersistentLog.compactPrefix
      rw [if_neg hle]
      exact ⟨rfl, rfl, rfl⟩
    refine ⟨by omega, by omega, fun {i} hi hil => ?_, fun {i e} hlt he => ?_⟩
    · rw [h'.retained, h.retained, if_pos (by omega), if_pos (by omega), hlog, lookup_deleteRange,
        if_pos (by omega)]
    · obtain ⟨⟨hi, hil⟩, -⟩ := Option.ite_none_right_eq_some.mp he
      omega

end GrowsTo

end PersistentLog

open PersistentLog (Tidy)

namespace Node

variable {me : Member} {s : Node}

theorem Moves.tidy (hm : s.Moves me a s') (h : Tidy s.log) : Tidy s'.log := by
  cases hm with
  | stay hlog => rw [hlog]; exact h
  | stand hlog => rw [hlog]; exact h.setTermAndVote ..
  | grow _ hlog => rw [hlog]; exact h.appendEntries ..
  | commit | begin | halt => exact h
  | @apply i stop x =>
    obtain ⟨-, -, -, ⟨hlog, -⟩ | ⟨snap, t, -, -, hlog, -⟩⟩ := applyOne_spec me s (i + 1) stop x <;>
      rw [hlog]
    · exact h
    · exact h.compactPrefix ..
  | restart => exact .reopen _

theorem Meets.tidy (hm : s.Meets s₁ t) (h : Tidy s.log) : Tidy s₁.log := by
  rw [hm.log]
  split
  · exact h.setTermAndVote ..
  · exact h

theorem Outcome.tidy (ho : s.Outcome env ef) (h : Tidy s.log) : Tidy ef.node.log := by
  cases ho with
  | quiet _ hret =>
    obtain ⟨t, hret⟩ := hret
    rw [hret.log]
    split
    · exact h.setTermAndVote ..
    · exact h
  | vote _ hm => exact (hm.tidy h).setTermAndVote ..
  | append _ hm _ _ hs => rw [hs, followCommit_eq]; exact (hm.tidy h).appendEntries ..
  | install _ hm _ _ hs => rw [hs]; exact (hm.tidy h).restoreSnapshotBoundary ..

/-- What a leader does to its log. -/
theorem Acts.grows (ha : s.Acts me a ef) (h : Tidy s.log) (hl : s.role = .leader)
    (hne : a ≠ .restart) : s.log.GrowsTo ef.node.log := by
  cases ha with
  | startElection hrole => exact (hrole hl).elim
  | lead _ _ hr => rw [hl] at hr; cases hr
  | propose hs => obtain ⟨-, rfl⟩ := propose_ok hs; exact .snoc h rfl rfl
  | tryAdvanceCommitIndex => rw [advance, tryAdvanceCommitIndex_eq]; exact .refl _
  | linearizableRead hs => obtain ⟨-, rfl⟩ := linearizableRead_ok hs; exact .refl _
  | waitForApplied => rw [waitForApplied_eq]; exact .refl _
  | @applyNext i stop =>
    unfold Node.applyNext
    split
    · exact .refl _
    · split
      · exact .refl _
      · next e _ =>
        obtain ⟨-, -, -, ⟨hlog, -⟩ | ⟨snap, t, -, -, hlog, -⟩⟩ :=
          applyOne_spec me s (i + 1) stop e <;> rw [hlog]
        · exact .refl _
        · exact .compactPrefix h ..
  | restart => exact (hne rfl).elim
  | ask | dissolve | proposeReturn | proposeCancel | replicate | sendSnapshot | heartbeat
  | readReturn | readCancel | applyBegin => exact .refl _

end Node

/-! ## Runs -/

theorem Run.tidy (h : Run cfg ok tr c) (n : NodeID) : Tidy (c.node n).log := by
  induction h with
  | init => exact .reopen _
  | step _ _ hs ih =>
    cases Cluster.step_changes hs n with
    | same heq => rw [heq]; exact ih
    | act _ _ ha heq => rw [heq]; exact ha.moves.tidy ih
    | receive _ _ _ hrec heq => rw [heq]; exact hrec.outcome.tidy ih

/-- No message changes the log of a node that goes on leading. -/
theorem Shadow.leader_log (h : Shadow cfg ok tr c r) (henv : env ∈ c.network)
    (hrec : (c.node env.dst).Receives me env ef) (hl : ef.node.role = .leader) :
    (c.node env.dst).log.GrowsTo ef.node.log := by
  obtain ⟨B, V⟩ := h.voting
  cases hrec.outcome with
  | quiet _ hret =>
    obtain ⟨t, hret⟩ := hret
    rw [(hret.leader hl).2]
    exact .refl _
  | vote _ hmeet =>
    rw [← (hmeet.retreats.leader hl).2]
    exact .setTermAndVote ..
  | @append _ _ _ _ req s₁ s' _ _ hmeet _ _ hs =>
    have hled : LedMsg r _ := h.led.msg _ henv
    have hrole : s'.role = s₁.role := by rw [hs, Node.followCommit_eq]
    exact ((V.node _).meets_ne_leader B hled.2.1 hled.1 hmeet (hrole ▸ hl)).elim
  | install _ _ hrole _ hs =>
    rw [hs] at hl
    exact absurd (hrole.symm.trans hl) (by decide)

/-- **Leader append-only.** Between two moments of a run at which a node leads one term, its log
keeps every entry at its index unless that has been compacted, and gets entries of that term
only. -/
theorem leader_append_only (h : Run cfg unrestricted tr c)
    (hc : Continues cfg unrestricted tr c tr' c') (hl : (c.node n).role = .leader)
    (hl' : (c'.node n).role = .leader)
    (ht : (c'.node n).log.currentTerm = (c.node n).log.currentTerm) :
    (c.node n).log.GrowsTo (c'.node n).log := by
  obtain ⟨r, hsh⟩ := h.shadow
  induction hc with
  | refl => exact .refl _
  | @step tr₁ c₁ a c₂ evs hc _ hs ih =>
    obtain ⟨r₁, hsh₁, hmono⟩ := hsh.continues hc
    cases Cluster.step_changes hs n with
    | same heq => rw [heq] at hl' ht ⊢; exact ih hl' ht
    | act _ _ ha heq =>
      rw [heq] at hl' ht ⊢
      obtain ⟨hterm, ⟨hrole, hne, -⟩ | ⟨hcand, -⟩⟩ := ha.leader hl'
      · exact (ih hrole (hterm ▸ ht)).trans (ha.grows (hsh₁.run.tidy n) hrole hne) hterm
      · -- a candidate of a term that it has led already
        have hleads := hmono _ _ (hsh.leads_of_leader hl)
        rw [← ht, hterm] at hleads
        exact ((hsh₁.voting.2.node n).candidate hcand hleads).elim
    | receive _ henv hdst hrec heq =>
      subst hdst
      rw [heq] at hl' ht ⊢
      obtain ⟨hrole, hterm⟩ := hrec.outcome.leader hl'
      exact (ih hrole (hterm ▸ ht)).trans
        (hsh₁.leader_log (List.mem_of_getElem? henv) hrec hl') hterm

/-- `n1` compacts its first entry and appends a third one, while `n2` leads the next term. -/
theorem leader_append_only_compacted : ∃ tr c tr' c', Run (trio 1) unrestricted tr c ∧
    Continues (trio 1) unrestricted tr c tr' c' ∧ (c.node "n1").role = .leader ∧
    (c'.node "n1").role = .leader ∧ (c'.node "n2").role = .leader ∧
    (c.node "n1").log.lastIndex = 2 ∧ (c'.node "n1").log.lastIncludedIndex = 1 ∧
    (c'.node "n1").log.lastIndex = 3 ∧ (c.node "n1").log.GrowsTo (c'.node "n1").log := by
  have hx : Cluster.init.Reaches (trio 1) unrestricted []
      (electBy "n1" 0 ++ ([.drop 0, .act "n1" (.replicate "n2"), .deliver 0, .deliver 0,
        .act "n1" .tryAdvanceCommitIndex, .act "n1" (.propose .put "k" [1] "")] : List Action))
      fun c tr => (c.node "n1").role = .leader ∧ (c.node "n1").log.lastIndex = 2 ∧
      c.Reaches (trio 1) unrestricted tr
        [.act "n1" .applyBegin, .act "n1" .applyNext, .act "n1" (.propose .put "l" [2] ""),
          .act "n2" .startElection, .act "n2" .requestVotes, .deliver 1, .deliver 1,
          .act "n2" .concludeElection]
        fun c' _ => (c'.node "n1").role = .leader ∧ (c'.node "n2").role = .leader ∧
          (c'.node "n1").log.lastIncludedIndex = 1 ∧ (c'.node "n1").log.lastIndex = 3 ∧
          (c'.node "n1").log.currentTerm = (c.node "n1").log.currentTerm := by decide +kernel
  obtain ⟨c, tr, h, hl, hlast, hx⟩ := hx.run
  obtain ⟨c', tr', hc, hl', hl₂, hb, hlast', ht⟩ := hx.continues
  exact ⟨tr, c, tr', c', h, hc, hl, hl', hl₂, hlast, hb, hlast', leader_append_only h hc hl hl' ht⟩

end DistributedKV.Raft
