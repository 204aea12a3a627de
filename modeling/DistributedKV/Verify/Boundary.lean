import DistributedKV.Verify.Indices
import DistributedKV.Verify.LogRefinement

/-!
# The log above the snapshot boundary

Every change a node makes to its log is an operation of the log's interface, and the log stands for
the entries above its boundary as long as each append starts where there is a log. The check of the
previous entry sees to that, for all requests but those that have none: these are taken as they are,
and write below the boundary of a log that has been compacted in the meantime.
-/

namespace DistributedKV.Raft

/-- The log stands for a sequence of entries above its boundary. -/
def PersistentLog.Intact (pl : PersistentLog) : Prop := ∃ s, Represents pl s

namespace PersistentLog.Intact

variable {pl : PersistentLog}

theorem perform (h : Intact pl) (op : LogOp) (hop : op.Legal pl) (commit : Bool) :
    Intact (pl.perform commit op).1 :=
  let ⟨_, h⟩ := h
  ⟨_, h.perform hop commit⟩

theorem reopen (h : Intact pl) : Intact (openPersistentLog pl.engine) :=
  let ⟨s, h⟩ := h
  ⟨s, h.reopen⟩

theorem firstIndex (h : Intact pl) : pl.firstIndex = pl.lastIncludedIndex + 1 :=
  let ⟨_, h⟩ := h
  h.firstIndex.trans (congrArg (· + 1) h.boundary.1.symm)

theorem le_lastIndex (h : Intact pl) : pl.lastIncludedIndex ≤ pl.lastIndex := by
  obtain ⟨s, h⟩ := h
  rw [h.boundary.1, h.lastIndex]
  exact Nat.le_add_right ..

theorem stored_iff (h : Intact pl) (i : ℕ) :
    (lookup pl.engine.log i).isSome ↔ pl.firstIndex ≤ i ∧ i ≤ pl.lastIndex := by
  obtain ⟨s, h⟩ := h
  rw [h.disk, LogState.at?_isSome, h.firstIndex, h.lastIndex, Nat.succ_le_iff]

/-- The entries above the boundary can be read. -/
theorem get_ok_iff (h : Intact pl) :
    (∃ e, pl.get i = .ok e) ↔ pl.lastIncludedIndex < i ∧ i ≤ pl.lastIndex := by
  obtain ⟨s, h⟩ := h
  simp only [h.get, LogState.get_eq_ok]
  rw [← Option.isSome_iff_exists, LogState.at?_isSome, h.boundary.1, h.lastIndex]

/-- Terms are known from the boundary on. -/
theorem termAt_isSome (h : Intact pl) :
    (pl.termAt i).isSome ↔ pl.lastIncludedIndex ≤ i ∧ i ≤ pl.lastIndex := by
  have hle := h.le_lastIndex
  obtain ⟨s, h⟩ := h
  have hin := LogState.at?_isSome (s := s) (i := i)
  rw [h.termAt, LogState.termAt]
  rw [h.boundary.1, h.lastIndex] at hle ⊢
  split
  · next heq =>
    subst heq
    exact ⟨fun _ => ⟨le_rfl, hle⟩, fun _ => rfl⟩
  · rw [Option.isSome_map, hin]
    omega

theorem of_termAt (h : Intact pl) (ht : pl.termAt i = some t) :
    pl.lastIncludedIndex ≤ i ∧ i ≤ pl.lastIndex :=
  h.termAt_isSome.mp (ht ▸ rfl)

end PersistentLog.Intact

namespace Node

/-- A request from the start of the log meets a log that has not been compacted, if it has
entries to write. -/
def MeetsWhole (s : Node) (req : AppendEntriesRequest) : Prop :=
  s.log.currentTerm ≤ req.term → req.prevLogIndex = 0 → req.entries ≠ [] →
    s.log.lastIncludedIndex = 0

instance (s : Node) (req : AppendEntriesRequest) : Decidable (s.MeetsWhole req) := by
  unfold MeetsWhole
  infer_instance

/-! ## Steps -/

/-- An activity changes the log by one operation, or opens it again. -/
theorem Moves.intact {s : Node} (hm : s.Moves me a s') (h : s.log.Intact) : s'.log.Intact := by
  cases hm with
  | stay hlog => exact hlog ▸ h
  | stand hlog => rw [hlog]; exact h.perform (.setTermAndVote _ _) trivial true
  | @grow e _ _ hidx hlog =>
    have hcons : Consecutive (s.log.lastIndex + 1) [e] := by
      intro i x hx
      obtain ⟨rfl, rfl⟩ : i = 0 ∧ e = x := by
        cases i with
        | zero => exact ⟨rfl, Option.some.inj hx⟩
        | succ i => simp at hx
      exact hidx
    rw [hlog]
    refine h.perform (.appendEntries _ [e] hcons) ⟨?_, le_rfl⟩ true
    rw [h.firstIndex]
    exact Nat.succ_le_succ h.le_lastIndex
  | commit | begin | halt => exact h
  | @apply i stop e =>
    rcases (applyOne_spec me s (i + 1) stop e).2.2.2 with ⟨hlog, -⟩ | ⟨snap, t, -, -, hlog, -⟩
    · exact hlog ▸ h
    · rw [hlog]; exact h.perform (.compactPrefix _ _) trivial true
  | restart => exact h.reopen

theorem Retreats.intact {s : Node} (hret : s.Retreats s' t) (h : s.log.Intact) : s'.log.Intact := by
  rw [hret.log]
  split
  · exact h.perform (.setTermAndVote _ _) trivial true
  · exact h

/-- The entries of an accepted request start where there is a log. -/
theorem legal_of_refusal {pl : PersistentLog} (h : pl.Intact) (href : refusal pl req = none)
    (hcons : Consecutive (req.prevLogIndex + 1) req.entries)
    (hwhole : req.prevLogIndex = 0 → pl.lastIncludedIndex = 0) :
    LogOp.Legal pl (.appendEntries _ req.entries hcons) := by
  have hfirst := h.firstIndex
  have hle := h.le_lastIndex
  show pl.firstIndex ≤ req.prevLogIndex + 1 ∧ req.prevLogIndex + 1 ≤ pl.lastIndex + 1
  rcases refusal_none href with h0 | ht
  · have := hwhole h0
    omega
  · obtain ⟨hlo, hhi⟩ := h.of_termAt ht
    omega

/-- So does a message, if it does not write below the boundary. -/
theorem Outcome.intact {s : Node} (hout : s.Outcome env ef) (h : s.log.Intact)
    (hcons : AdjacentMsg env)
    (hwhole : ∀ {caller req}, env.body = .appendReq caller req → s.MeetsWhole req) :
    ef.node.log.Intact := by
  cases hout with
  | quiet _ hret =>
    obtain ⟨t, hret⟩ := hret
    exact hret.intact h
  | vote _ hmeet => exact (hmeet.retreats.intact h).perform (.setTermAndVote _ _) trivial true
  | @append src dst ep caller req s₁ s' msgs hterm hmeet hcand href hs hops =>
    have h₁ := hmeet.retreats.intact h
    rw [hs, followCommit_eq]
    rcases eq_or_ne req.entries [] with hnil | hne
    · rw [hnil]
      exact h₁
    · refine h₁.perform (.appendEntries _ req.entries (hcons rfl)) ?_ true
      refine legal_of_refusal h₁ ((hmeet.refusal req).trans href) (hcons rfl) fun h0 => ?_
      rw [hmeet.boundary.1]
      exact hwhole rfl hterm h0 hne
  | install _ hmeet _ _ hs =>
    rw [hs]
    exact (hmeet.retreats.intact h).perform (.restoreSnapshotBoundary _ _) trivial true

end Node

/-! ## Runs -/

def intactLogs : LocalInv := ⟨fun _ _ s => s.log.Intact, fun _ env => AdjacentMsg env⟩

theorem Shadow.intactLogs (h : Shadow cfg (OnAppend Node.MeetsWhole) tr c r) :
    intactLogs.Holds c r := by
  induction h with
  | init => exact ⟨fun n => ⟨_, .init⟩, by simp [Cluster.init]⟩
  | @step tr c r a c' evs hsh hok hs H =>
    cases Cluster.step_inv hs with
    | @act n a ef hn ha =>
      have h₁ : (c.node n).log.Intact := H.node n
      refine H.after (List.Subset.refl _) (ha.moves.intact h₁) (ha.adjacent ?_)
        (fun _ _ h => h) fun _ _ h => h
      rw [h₁.firstIndex]
      exact Nat.succ_pos _
    | @deliver k env ef henv hef hrec =>
      exact H.after (List.eraseIdx_subset ..)
        (hrec.outcome.intact (H.node env.dst) (H.msg env (List.mem_of_getElem? henv))
          (hok.of_deliver henv))
        hrec.adjacent (fun _ _ h => h) fun _ _ h => h
    | drop => exact H.drop _

/-- **The log stays above its boundary.** -/
theorem log_above_boundary (h : Run cfg (OnAppend Node.MeetsWhole) tr c) (n : NodeID) :
    (c.node n).log.firstIndex = (c.node n).log.lastIncludedIndex + 1 ∧
      (c.node n).log.lastIncludedIndex ≤ (c.node n).log.lastIndex ∧
      ∀ i, (lookup (c.node n).log.engine.log i).isSome ↔
        (c.node n).log.firstIndex ≤ i ∧ i ≤ (c.node n).log.lastIndex := by
  obtain ⟨r, h⟩ := h.shadow
  have H : (c.node n).log.Intact := h.intactLogs.node n
  exact ⟨H.firstIndex, H.le_lastIndex, H.stored_iff⟩

/-- A follower takes a snapshot at its first entry and is sent a second one. -/
theorem log_above_boundary_trio : ∃ tr c, Run (trio 1) (OnAppend Node.MeetsWhole) tr c ∧
    (c.node "n2").log.lastIncludedIndex = 1 ∧ (c.node "n2").log.lastIndex = 2 ∧
    ∀ i, (lookup (c.node "n2").log.engine.log i).isSome ↔
      (c.node "n2").log.firstIndex ≤ i ∧ i ≤ (c.node "n2").log.lastIndex := by
  have hx : Cluster.init.Reaches (trio 1) (OnAppend Node.MeetsWhole) []
      (electBy "n1" 0 ++
        ([.drop 0, .act "n1" (.replicate "n2"), .deliver 0, .deliver 0,
          .act "n1" .tryAdvanceCommitIndex, .act "n1" (.replicate "n2"), .deliver 0,
          .act "n2" .applyBegin, .act "n2" .applyNext, .act "n1" (.propose .put "k" [] ""),
          .act "n1" (.replicate "n2"), .deliver 1] : List Action))
      fun c _ => (c.node "n2").log.lastIncludedIndex = 1 ∧ (c.node "n2").log.lastIndex = 2 := by
    decide +kernel
  obtain ⟨c, tr, h, hli, hlast⟩ := hx.run
  exact ⟨tr, c, h, hli, hlast, (log_above_boundary h "n2").2.2⟩

/-- The first entry is sent twice. Between the two the follower takes a snapshot that covers it, and
the second request writes it below the boundary. -/
theorem log_above_boundary_fails : ∃ tr c, Run (trio 1) unrestricted tr c ∧
    (lookup (c.node "n2").log.engine.log 1).isSome ∧ ¬(c.node "n2").log.firstIndex ≤ 1 := by
  have hx : Cluster.init.Reaches (trio 1) unrestricted []
      (electBy "n1" 0 ++
        ([.drop 0, .act "n1" (.replicate "n2"), .act "n1" (.replicate "n2"), .deliver 0, .deliver 1,
          .act "n1" .tryAdvanceCommitIndex, .act "n1" (.replicate "n2"), .deliver 1,
          .act "n2" .applyBegin, .act "n2" .applyNext, .deliver 0] : List Action))
      fun c _ => (lookup (c.node "n2").log.engine.log 1).isSome ∧
        ¬(c.node "n2").log.firstIndex ≤ 1 := by
    decide +kernel
  obtain ⟨c, tr, h, hc⟩ := hx.run
  exact ⟨tr, c, h, hc⟩

end DistributedKV.Raft
