import DistributedKV.Verify.Boundary
import DistributedKV.Verify.Replay

/-!
# The stores after a crash

A node keeps its log, its state and its snapshots in three stores, and `NewNode` takes the indices
from the last and the log from the first. So the stored snapshot must not lie beyond the log, and
the log must not be compacted beyond the stored snapshot. The first part follows
`HandleInstallSnapshot` from one durable step to the next, the second one runs of a node that does
one thing at a time.
-/

namespace DistributedKV.Raft

open Theory

/-! ## What is recovered -/

theorem PersistentLog.Intact.reopen_boundary {pl : PersistentLog} (h : Intact pl) :
    (openPersistentLog pl.engine).lastIncludedIndex = pl.lastIncludedIndex :=
  let ⟨_, h⟩ := h
  h.reopen.boundary.1.trans h.boundary.1.symm

theorem recover_indices (h : threads.recover s opts = some s') :
    s'.node.lastApplied = s.node.snapIndex ∧ s'.node.commitIndex = s.node.snapIndex := by
  obtain ⟨-, rfl⟩ := recover_eq h
  refine ⟨?_, s.node.newNode_commitIndex⟩
  dsimp only [newNode, Node.snapIndex]
  cases s.node.snapStore <;> rfl

namespace Node

/-- The last index that `OpenPersistentLog` finds in the engine. -/
def storedLastIndex (n : Node) : ℕ := (openPersistentLog n.log.engine).lastIndex

/-- The index in the meta file, whether or not there is a data file. -/
def metaIndex (n : Node) : ℕ :=
  (metaFile n.snapStore n.orphanMeta).elim 0 SnapshotMeta.lastIncludedIndex

theorem metaIndex_eq {n : Node} (h : n.orphanMeta = none) : n.metaIndex = n.snapIndex := by
  unfold metaIndex metaFile snapIndex
  rw [h]
  cases n.snapStore <;> rfl

theorem saveSnapshot_metaIndex (n : Node) (so : SaveOutcome) (snap : Snapshot)
    (info : SnapshotMeta) :
    (n.saveSnapshot so snap info).metaIndex =
      match so with
      | .before | .dataRemoved | .dataOnly => n.metaIndex
      | .metaRemoved => 0
      | .done => info.lastIncludedIndex := by
  unfold metaIndex saveSnapshot SaveOutcome.store SaveOutcome.orphan
  cases so with
  | dataOnly => cases metaFile n.snapStore n.orphanMeta <;> rfl
  | before | dataRemoved | metaRemoved | done => rfl

end Node

/-- `NewNode` succeeds, and puts the two indices where the log reaches. -/
theorem recovers_iff (s : Process) (opts : Options) :
    (∃ s', threads.recover s opts = some s' ∧ s'.node.lastApplied = s'.node.commitIndex ∧
        s'.node.commitIndex ≤ s'.node.log.lastIndex) ↔
      s.node.orphanMeta = none ∧ s.node.snapIndex ≤ s.node.storedLastIndex := by
  constructor
  · rintro ⟨s', h, -, hle⟩
    rw [(recover_indices h).2] at hle
    obtain ⟨hno, rfl⟩ := recover_eq h
    exact ⟨hno, hle⟩
  · rintro ⟨hno, hle⟩
    have h : threads.recover s opts = some _ := if_neg (by simp [hno])
    obtain ⟨happlied, hcommit⟩ := recover_indices h
    exact ⟨_, h, happlied.trans hcommit.symm, hcommit.le.trans hle⟩

/-! ## Installing a snapshot -/

/-- How far `HandleInstallSnapshot` has got with its durable steps. -/
inductive InstallPoint where
  /-- `Save` has got so far, and the log has not been reset. -/
  | save (o : SaveOutcome)
  /-- `RestoreSnapshotBoundary` has reset the log. -/
  | reset

namespace Task

/-- The point at which a call of `HandleInstallSnapshot` stands. -/
def installPoint : Task → InstallPoint
  | .installRestore .. | .installBoundary _ => .save .done
  | .installIndices _ => .reset
  | _ => .save .before

/-- The point at which a step ends the call. -/
def returnPoint (o : StorageOutcome) : Task → InstallPoint
  | .installSave .. => .save o.save
  | t => t.installPoint

/-- The request of a call of `HandleInstallSnapshot`. -/
def installs? : Task → Option InstallSnapshotRequest
  | .handleInstallSnapshot req | .installTerm req | .installRole req | .installLoad req
  | .installSave req _ | .installRestore req _ | .installBoundary req | .installIndices req =>
    some req
  | _ => none

end Task

/-- The point that a call gets to before the process crashes. -/
def installPoint (s : Process) (t : Task) : List StorageOutcome → InstallPoint
  | [] => t.installPoint
  | o :: os =>
    match threads.exec s t o with
    | (s', .inl t') => installPoint s' t' os
    | (_, .inr _) => t.returnPoint o

namespace InstallPoint

variable {n m : Node} {req : InstallSnapshotRequest}

/-- The stores are in step when a call for `req` on `n` gets to this point: the snapshot can be
loaded, and does not lie beyond the log. -/
def InStep (n : Node) (req : InstallSnapshotRequest) : InstallPoint → Prop
  | .save .before => n.orphanMeta = none ∧ n.metaIndex ≤ n.storedLastIndex
  | .save .dataRemoved => metaFile n.snapStore n.orphanMeta = none
  | .save .dataOnly => n.metaIndex ≤ n.storedLastIndex
  | .save .metaRemoved => True
  | .save .done => req.lastIncludedIndex ≤ n.storedLastIndex
  | .reset => True

/-- The stores of `m` are those that a call for `req` on `n` leaves at this point. -/
def Leaves (n : Node) (req : InstallSnapshotRequest) (m : Node) : InstallPoint → Prop
  | .save o => m.storedLastIndex = n.storedLastIndex ∧
    m.orphanMeta = o.orphan n.snapStore n.orphanMeta ∧
    ∃ snap, m.snapStore =
      o.store n.snapStore n.orphanMeta snap ⟨req.lastIncludedIndex, req.lastIncludedTerm⟩
  | .reset => m.orphanMeta = none ∧ m.snapIndex = req.lastIncludedIndex ∧
    req.lastIncludedIndex ≤ m.storedLastIndex

theorem Leaves.inStep {pt : InstallPoint} (h : pt.Leaves n req m) :
    m.orphanMeta = none ∧ m.snapIndex ≤ m.storedLastIndex ↔ pt.InStep n req := by
  cases pt with
  | reset =>
    obtain ⟨hno, hidx, hle⟩ := h
    exact iff_of_true ⟨hno, hidx ▸ hle⟩ trivial
  | save o =>
    obtain ⟨hlast, horphan, snap, hstore⟩ := h
    rw [Node.snapIndex, hlast, horphan, hstore]
    cases o with
    | before =>
      refine and_congr_right fun hno => ?_
      rw [Node.metaIndex_eq hno]
      rfl
    | dataRemoved => exact ⟨And.left, fun h => ⟨h, Nat.zero_le _⟩⟩
    | dataOnly =>
      have hidx : Option.elim (SaveOutcome.dataOnly.store n.snapStore n.orphanMeta snap
          ⟨req.lastIncludedIndex, req.lastIncludedTerm⟩) 0 (fun st => st.2.lastIncludedIndex) =
            n.metaIndex := by
        unfold Node.metaIndex SaveOutcome.store
        cases metaFile n.snapStore n.orphanMeta <;> rfl
      rw [hidx]
      exact ⟨And.right, fun h => ⟨rfl, h⟩⟩
    | metaRemoved => exact iff_of_true ⟨rfl, Nat.zero_le _⟩ trivial
    | done => exact ⟨And.right, fun h => ⟨rfl, h⟩⟩

end InstallPoint

/-- A step of the call. -/
theorem InstallPoint.Leaves.step {n m : Node} {t : Task} (me : Member) (o : StorageOutcome)
    (ht : t.installs? = some req) (h : t.installPoint.Leaves n req m) :
    (∀ {t'}, t.next me o m = .inl t' →
      t'.installs? = some req ∧ t'.installPoint.Leaves n req (t.effect me o m)) ∧
    ∀ {r}, t.next me o m = .inr r → (t.returnPoint o).Leaves n req (t.effect me o m) := by
  cases t with
  | handleInstallSnapshot req' =>
    cases ht
    refine ⟨fun hnext => ?_, fun _ => h⟩
    dsimp only [Task.next] at hnext
    split at hnext
    · cases hnext
    · split at hnext <;> cases hnext <;> exact ⟨rfl, h⟩
  | installTerm req' =>
    cases ht
    refine ⟨fun hnext => ?_, nofun⟩
    cases hnext
    refine ⟨rfl, ?_⟩
    dsimp only [Task.effect, Node.setTermAndVoteWith]
    cases o.commit <;> exact h
  | installRole req' =>
    cases ht
    exact ⟨fun hnext => by cases hnext; exact ⟨rfl, h⟩, nofun⟩
  | installLoad req' =>
    cases ht
    refine ⟨fun hnext => ?_, fun _ => h⟩
    dsimp only [Task.next] at hnext
    split at hnext
    · cases hnext
    · split at hnext <;> cases hnext
      exact ⟨rfl, h⟩
  | installSave req' snap =>
    cases ht
    have hsave : (InstallPoint.save o.save).Leaves n req
        (m.saveSnapshot o.save snap ⟨req.lastIncludedIndex, req.lastIncludedTerm⟩) := by
      obtain ⟨hlast, horphan, snap', hstore⟩ := h
      refine ⟨hlast, ?_, snap, ?_⟩ <;> dsimp only [Node.saveSnapshot] <;> rw [horphan, hstore] <;>
        rfl
    refine ⟨fun hnext => ?_, fun _ => hsave⟩
    dsimp only [Task.next] at hnext
    split at hnext <;> cases hnext
    next hdone =>
    rw [hdone] at hsave
    refine ⟨rfl, ?_⟩
    dsimp only [Task.effect]
    rw [hdone]
    exact hsave
  | installRestore req' snap =>
    cases ht
    dsimp only [Task.next, Task.effect]
    cases o.commit with
    | true => exact ⟨fun hnext => by cases hnext; exact ⟨rfl, h⟩, nofun⟩
    | false => exact ⟨nofun, fun _ => h⟩
  | installBoundary req' =>
    cases ht
    obtain ⟨hlast, horphan, snap, hstore⟩ := h
    dsimp only [Task.next, Task.effect]
    cases o.commit with
    | false => exact ⟨nofun, fun _ => ⟨hlast, horphan, snap, hstore⟩⟩
    | true =>
      refine ⟨fun hnext => ?_, nofun⟩
      cases hnext
      refine ⟨rfl, horphan, ?_, (Rep.foldl_max ..).1⟩
      unfold Node.snapIndex
      rw [hstore]
      rfl
  | installIndices req' =>
    cases ht
    exact ⟨nofun, fun _ => h⟩
  | _ => cases ht

theorem InstallPoint.Leaves.advance {n m : Node} {t : Task} (me : Member)
    (ht : t.installs? = some req) (h : t.installPoint.Leaves n req m) (os : List StorageOutcome) :
    (installPoint ⟨me, m⟩ t os).Leaves n req (threads.advance ⟨me, m⟩ t os).1.node := by
  induction os generalizing m t with
  | nil => exact h
  | cons o os ih =>
    obtain ⟨hgo, hret⟩ := h.step me o ht
    unfold installPoint Program.advance
    cases hnext : t.next me o m with
    | inl t' =>
      have hexec : threads.exec ⟨me, m⟩ t o = (⟨me, t.effect me o m⟩, .inl t') :=
        congrArg (Prod.mk _) hnext
      obtain ⟨ht', h'⟩ := hgo hnext
      rw [hexec]
      exact ih ht' h'
    | inr r =>
      have hexec : threads.exec ⟨me, m⟩ t o = (⟨me, t.effect me o m⟩, .inr r) :=
        congrArg (Prod.mk _) hnext
      rw [hexec]
      exact hret hnext

/-- **A crash in `HandleInstallSnapshot` leaves the stores in step** exactly if the snapshot that
is stored at that point can be loaded and does not lie beyond the log: before the new meta file is
in place that is the old snapshot, up to the reset of the log it is the new one, and from then on
they are in step. -/
theorem install_recovers (me : Member) (n : Node) (req : InstallSnapshotRequest)
    (os : List StorageOutcome) (opts : Options) :
    (∃ s, threads.recover (threads.advance ⟨me, n⟩ (.handleInstallSnapshot req) os).1 opts =
        some s ∧ s.node.lastApplied = s.node.commitIndex ∧
        s.node.commitIndex ≤ s.node.log.lastIndex) ↔
      (installPoint ⟨me, n⟩ (.handleInstallSnapshot req) os).InStep n req := by
  have h₀ : (InstallPoint.save .before).Leaves n req n := ⟨rfl, rfl, ⟨n.sm⟩, rfl⟩
  have h := InstallPoint.Leaves.advance (t := .handleInstallSnapshot req) me rfl h₀ os
  exact (recovers_iff ..).trans h.inStep

/-- The process starts again, with a node that satisfies `goal`. -/
def Restarts (s : Process) (opts : Options) (goal : Node → Prop) : Prop :=
  match threads.recover s opts with
  | some s' => goal s'.node
  | none => False

instance {goal : Node → Prop} [∀ n, Decidable (goal n)] : Decidable (Restarts s opts goal) :=
  match h : threads.recover s opts with
  | some s' => decidable_of_iff (goal s'.node) (by simp [Restarts, h])
  | none => isFalse (by simp [Restarts, h])

theorem Restarts.recover {goal : Node → Prop} (h : Restarts s opts goal) :
    ∃ s', threads.recover s opts = some s' ∧ goal s'.node := by
  unfold Restarts at h
  split at h
  · next s' hs => exact ⟨s', hs, h⟩
  · exact h.elim

/-- A node with two entries that are not known to be committed. -/
def twoNoops : Node :=
  { newNode {} (fun _ => none) none 0 with
    log := ((openPersistentLog {}).appendEntries true (noops 1 [1, 1])).1 }

theorem twoNoops_intact : twoNoops.log.Intact :=
  PersistentLog.Intact.perform ⟨_, .init⟩ (.appendEntries 1 (noops 1 [1, 1]) (.noops _ _))
    (by decide) true

def emptySnapshot (i : ℕ) : InstallSnapshotRequest := ⟨1, "n2", i, 1, .encoded ⟨fun _ => none⟩⟩

/-- The crash comes right after `Save`, with a snapshot of the first entry. -/
theorem install_recovers_covered :
    installPoint ⟨(newProcess 0).me, twoNoops⟩ (.handleInstallSnapshot (emptySnapshot 1))
      (List.replicate 5 {}) = .save .done ∧
    ∃ s, threads.recover (threads.advance ⟨(newProcess 0).me, twoNoops⟩
        (.handleInstallSnapshot (emptySnapshot 1)) (List.replicate 5 {})).1 ⟨0, 0⟩ = some s ∧
      s.node.lastApplied = s.node.commitIndex ∧ s.node.commitIndex ≤ s.node.log.lastIndex := by
  have hpt : installPoint ⟨(newProcess 0).me, twoNoops⟩
      (.handleInstallSnapshot (emptySnapshot 1)) (List.replicate 5 {}) = .save .done := rfl
  refine ⟨hpt, (install_recovers ..).mpr ?_⟩
  rw [hpt]
  show 1 ≤ twoNoops.storedLastIndex
  decide

/-- The crash comes right after `Save`, with a snapshot of five entries, on a log of two. -/
theorem install_recovers_fails : ∃ me n req os opts s,
    n.log.Intact ∧ n.snapStore = none ∧ n.orphanMeta = none ∧ n.lastApplied ≤ n.commitIndex ∧
      n.commitIndex ≤ n.log.lastIndex ∧ (∀ o ∈ os, o = {}) ∧
      threads.recover (threads.advance ⟨me, n⟩ (.handleInstallSnapshot req) os).1 opts = some s ∧
      s.node.lastApplied = 5 ∧ s.node.commitIndex = 5 ∧ s.node.log.lastIndex = 2 :=
  ⟨(newProcess 0).me, twoNoops, emptySnapshot 5, List.replicate 5 {}, ⟨0, 0⟩, _, twoNoops_intact,
    rfl, rfl, by decide, by decide, by decide, rfl, by decide +kernel⟩

/-! ## Compaction -/

/-- The log above the stored snapshot is complete, as the meta file has its index. -/
structure Node.Retained (n : Node) : Prop where
  intact : n.log.Intact
  boundary : n.log.lastIncludedIndex ≤ n.metaIndex

/-- Up to where an operation may move the boundary. -/
def LogOp.boundary : LogOp → ℕ
  | .compactPrefix index _ | .restoreSnapshotBoundary index _ => index
  | _ => 0

theorem PersistentLog.perform_boundary_le (pl : PersistentLog) (commit : Bool) (op : LogOp) :
    (pl.perform commit op).1.lastIncludedIndex ≤ max pl.lastIncludedIndex op.boundary := by
  cases op with
  | setTermAndVote => cases commit <;> exact le_max_left ..
  | appendEntries first es =>
    cases es with
    | nil => exact le_max_left ..
    | cons => cases commit <;> exact le_max_left ..
  | truncateSuffix start =>
    dsimp only [perform, truncateSuffix]
    split
    · exact le_max_left ..
    · cases commit <;> exact le_max_left ..
  | compactPrefix index term =>
    dsimp only [perform, compactPrefix]
    split
    · exact le_max_left ..
    · cases commit
      · exact le_max_left ..
      · exact le_max_right ..
  | restoreSnapshotBoundary index term =>
    cases commit
    · exact le_max_left ..
    · exact le_max_right ..

namespace Node.Retained

variable {n n' : Node}

theorem of_eq (h : n.Retained) (hlog : n'.log = n.log) (hmeta : n'.metaIndex = n.metaIndex) :
    n'.Retained := ⟨hlog ▸ h.intact, by rw [hlog, hmeta]; exact h.boundary⟩

theorem perform (h : n.Retained) (op : LogOp) (hop : op.Legal n.log)
    (hb : op.boundary ≤ n.metaIndex) (commit : Bool) :
    Retained { n with log := (n.log.perform commit op).1 } :=
  ⟨h.intact.perform op hop commit,
    (PersistentLog.perform_boundary_le ..).trans (max_le h.boundary hb)⟩

/-- A snapshot is saved that is not from before the boundary, or part of it. -/
theorem save (h : n.Retained) (snap : Snapshot) (info : SnapshotMeta)
    (hkeep : so = .metaRemoved → n.log.lastIncludedIndex = 0)
    (hnew : so = .done → n.log.lastIncludedIndex ≤ info.lastIncludedIndex) :
    (n.saveSnapshot so snap info).Retained := by
  refine ⟨h.intact, ?_⟩
  show n.log.lastIncludedIndex ≤ _
  rw [n.saveSnapshot_metaIndex]
  cases so with
  | before | dataRemoved | dataOnly => exact h.boundary
  | metaRemoved => exact (hkeep rfl).le
  | done => exact hnew rfl

end Node.Retained

instance : Decidable (Consecutive first es) :=
  decidable_of_iff (∀ i : Fin es.length, (es.get i).index = first + i)
    ⟨fun h i e he => by
      obtain ⟨hi, rfl⟩ := List.getElem?_eq_some_iff.mp he
      exact h ⟨i, hi⟩,
    fun h i => h i _ (List.getElem?_eq_getElem i.isLt)⟩

/-- Entries follow each other, the first one at an index where there is a log. -/
def PersistentLog.Takes (pl : PersistentLog) (es : List Entry) : Prop :=
  ∀ e ∈ es.head?, Consecutive e.index es ∧ pl.firstIndex ≤ e.index ∧ e.index ≤ pl.lastIndex + 1

instance (pl : PersistentLog) (es : List Entry) : Decidable (pl.Takes es) :=
  inferInstanceAs (Decidable (∀ e ∈ es.head?, _))

/-- A log append, an advance of the commit index, `applyCommitted` or `HandleInstallSnapshot`
begins when nothing else is in progress. -/
def oneAtATime (p : NodePool) (t : Task) : Prop :=
  p.tasks.isEmpty ∧
    match t with
    | .appendEntries es => p.state.node.log.Takes es
    | .commitSet _ | .tryAdvanceCommitIndex _ | .applyCommitted | .handleInstallSnapshot _ => True
    | _ => False

instance (p : NodePool) (t : Task) : Decidable (oneAtATime p t) := by
  unfold oneAtATime
  cases t <;> infer_instance

/-- `Save` does not lose the meta file of a node that has compacted its log, and no snapshot from
before the boundary is installed over it. A node whose snapshot loads sees to the second part
itself. -/
def KeepsMeta (s : Process) (_ : List Task) (t : Task) (o : StorageOutcome) : Prop :=
  match t with
  | .installSave req _ => (o.save = .metaRemoved → s.node.log.lastIncludedIndex = 0) ∧
    (o.save = .done → s.node.log.lastIncludedIndex ≤ req.lastIncludedIndex)
  | .snapSave .. => o.save = .metaRemoved → s.node.log.lastIncludedIndex = 0
  | _ => True

instance (s : Process) (us : List Task) (t : Task) (o : StorageOutcome) :
    Decidable (KeepsMeta s us t o) := by
  unfold KeepsMeta
  split <;> infer_instance

/-- What holds at each place of these calls. -/
def Task.Retains (n : Node) : Task → Prop
  | .appendEntries es => n.log.Takes es
  | .installRestore req _ | .installBoundary req => req.lastIncludedIndex ≤ n.metaIndex
  | .snapDump applied _ _ | .snapSave applied _ _ _ => n.log.lastIncludedIndex ≤ applied
  | .snapCompact applied _ _ => applied ≤ n.metaIndex
  | .commitSet _ | .tryAdvanceCommitIndex _ | .handleInstallSnapshot _ | .installTerm _
  | .installRole _ | .installLoad _ | .installSave .. | .installIndices _ | .applyCommitted
  | .applyNext .. | .applyEntry .. | .applyMark .. | .snapLoad .. | .snapTerm .. => True
  | _ => False

theorem Task.Retains.step {n : Node} (h : t.Retains n) (hn : n.Retained)
    (hkeep : KeepsMeta ⟨me, n⟩ us t o) :
    (t.effect me o n).Retained ∧
      ∀ {t'}, t.next me o n = .inl t' → t'.Retains (t.effect me o n) := by
  cases t with
  | appendEntries es =>
    refine ⟨?_, nofun⟩
    cases es with
    | nil => exact hn
    | cons e es =>
      obtain ⟨hcons, hle⟩ := h e rfl
      exact hn.perform (.appendEntries _ _ hcons) hle (Nat.zero_le _) o.commit
  | commitSet req =>
    refine ⟨hn.of_eq (Task.effect_log me o n (.commitSet req)) ?_, nofun⟩
    dsimp only [effect, Node.commitLocked]
    split <;> rfl
  | tryAdvanceCommitIndex term =>
    refine ⟨hn.of_eq (Task.effect_log me o n (.tryAdvanceCommitIndex term)) ?_, nofun⟩
    dsimp only [effect]
    rw [Node.tryAdvanceCommitIndex_eq]
    rfl
  | handleInstallSnapshot req =>
    refine ⟨hn, fun ht => ?_⟩
    dsimp only [next] at ht
    split at ht
    · cases ht
    · split at ht <;> cases ht <;> trivial
  | installTerm req =>
    refine ⟨hn.perform (.setTermAndVote _ _) trivial (Nat.zero_le _) o.commit, fun ht => ?_⟩
    cases ht
    trivial
  | installRole req => exact ⟨hn.of_eq rfl rfl, fun ht => by cases ht; trivial⟩
  | installLoad req =>
    refine ⟨hn, fun ht => ?_⟩
    dsimp only [next] at ht
    split at ht
    · cases ht
    · split at ht <;> cases ht
      trivial
  | installSave req snap =>
    refine ⟨hn.save snap _ hkeep.1 hkeep.2, fun ht => ?_⟩
    dsimp only [next] at ht
    split at ht <;> cases ht
    next hdone =>
    show req.lastIncludedIndex ≤ (n.saveSnapshot ..).metaIndex
    rw [n.saveSnapshot_metaIndex, hdone]
  | installRestore req snap =>
    dsimp only [next, effect]
    cases o.commit with
    | true => exact ⟨hn.of_eq rfl rfl, fun ht => by cases ht; exact h⟩
    | false => exact ⟨hn, nofun⟩
  | installBoundary req =>
    refine ⟨hn.perform (.restoreSnapshotBoundary _ _) trivial h o.commit, fun ht => ?_⟩
    dsimp only [next] at ht
    split at ht <;> cases ht
    trivial
  | installIndices req => exact ⟨hn.of_eq rfl rfl, nofun⟩
  | applyCommitted => exact ⟨hn, fun ht => by cases ht; trivial⟩
  | applyNext applied commit =>
    refine ⟨hn, fun ht => ?_⟩
    dsimp only [next] at ht
    split at ht
    · split at ht <;> cases ht
      trivial
    · cases ht
  | applyEntry applied commit e =>
    refine ⟨?_, fun ht => ?_⟩
    · dsimp only [effect]
      split
      · exact hn.of_eq rfl rfl
      · exact hn
    · dsimp only [next] at ht
      split at ht <;> cases ht
      trivial
  | applyMark applied commit =>
    obtain ⟨-, hstore, -, hlog⟩ := n.markApplied_state applied
    refine ⟨hn.of_eq hlog ?_, fun ht => ?_⟩
    · show (n.markApplied applied).metaIndex = _
      rw [Node.metaIndex, hstore, n.markApplied_orphanMeta]
      rfl
    · dsimp only [next] at ht
      split at ht <;> cases ht <;> trivial
  | snapLoad applied commit =>
    refine ⟨hn, fun ht => ?_⟩
    dsimp only [next] at ht
    split at ht <;> cases ht <;> trivial
  | snapTerm applied commit =>
    refine ⟨hn, fun ht => ?_⟩
    dsimp only [next] at ht
    split at ht <;> cases ht
    · trivial
    · next hterm => exact (hn.intact.of_termAt hterm).1
  | snapDump applied commit term => exact ⟨hn, fun ht => by cases ht; exact h⟩
  | snapSave applied commit term dump =>
    refine ⟨hn.save dump _ hkeep fun _ => h, fun ht => ?_⟩
    dsimp only [next] at ht
    split at ht <;> cases ht
    · next hdone =>
      show applied ≤ (n.saveSnapshot ..).metaIndex
      rw [n.saveSnapshot_metaIndex, hdone]
    · trivial
  | snapCompact applied commit term =>
    exact ⟨hn.perform (.compactPrefix _ _) trivial h o.commit, fun ht => by cases ht; trivial⟩
  | _ => exact h.elim

/-- One call at a time. -/
def retaining : Outline Process Task StorageOutcome Options where
  shared _ p := p.state.node.Retained
  here _ s t := t.Retains s.node
  apart _ _ := False

theorem retaining_valid : retaining.Valid threads (Allows oneAtATime KeepsMeta true) where
  symm := id
  call := by
    intro tr p t h ⟨hempty, ht⟩
    refine ⟨h.shared, ?_, fun u hu => ?_⟩
    · cases t with
      | appendEntries | commitSet | tryAdvanceCommitIndex | applyCommitted
      | handleInstallSnapshot => exact ht
      | _ => exact ht.elim
    · rw [List.isEmpty_iff.mp hempty] at hu
      cases hu
  run := by
    intro tr p t o s l₁ l₂ x h hok ht hex
    cases hex
    obtain ⟨hstate, hnext⟩ := (h.self ht).step h.shared (hok.of_run ht)
    have halone : ∀ u ∈ l₁ ++ l₂, False := fun u hu => h.apart_other id ht hu
    exact ⟨hstate, fun u hu => (halone u hu).elim, fun t' ht' => ⟨hnext ht', halone⟩⟩
  crash := by
    intro tr p opts s h hok hrec
    obtain ⟨hno, rfl⟩ := recover_eq hrec
    refine ⟨h.shared.intact.reopen, ?_⟩
    refine h.shared.intact.reopen_boundary.le.trans (h.shared.boundary.trans ?_)
    rw [Node.metaIndex_eq hno]
    exact (Node.metaIndex_eq (n := newNode ..) rfl).ge

/-- **Compaction does not outrun the snapshot.** Whatever a node that does one thing at a time has
been through, with storage failures and crashes, if it starts again then with a log that has every
entry after the ones it takes as applied. -/
theorem compaction_covered
    (h : Runs threads (Allows oneAtATime KeepsMeta true) ⟨me, newNode {} sm none epoch⟩ tr p)
    (hrec : threads.recover p.state opts = some s) :
    ∀ i, s.node.lastApplied < i → i ≤ s.node.log.lastIndex → ∃ e, s.node.log.get i = .ok e := by
  have h₀ : retaining.shared [] ⟨⟨me, newNode {} sm none epoch⟩, []⟩ := ⟨⟨_, .init⟩, le_rfl⟩
  have hn : p.state.node.Retained := (retaining_valid.holds h₀ h).shared
  intro i hlo hhi
  rw [(recover_indices hrec).1] at hlo
  obtain ⟨hno, rfl⟩ := recover_eq hrec
  refine hn.intact.reopen.get_ok_iff.mpr ⟨?_, hhi⟩
  rw [hn.intact.reopen_boundary]
  exact (hn.boundary.trans (Node.metaIndex_eq hno).le).trans_lt hlo

/-- A node applies its first entry and takes a snapshot, and crashes in the next one before its meta
file is replaced. -/
theorem compaction_covered_torn : ∃ tr p s,
    Runs threads (Allows oneAtATime KeepsMeta true) (newProcess 1) tr p ∧
    p.state.node.lastApplied = 1 ∧ p.state.node.log.lastIndex = 2 ∧
    threads.recover p.state ⟨1, 0⟩ = some s ∧ ∃ e, s.node.log.get 2 = .ok e := by
  have hx : Reaches threads (Allows oneAtATime KeepsMeta true) (newProcess 1)
      ((.call (.appendEntries (noops 1 [1, 1])) :: stepsOf 0 1 : List NodeTurn) ++
        (.call (.commitSet (feed [] 2)) :: stepsOf 0 1 : List NodeTurn) ++
        (.call .applyCommitted :: stepsOf 0 15 : List NodeTurn) ++
        ([.run 0 { save := .dataOnly }, .crash ⟨1, 0⟩] : List NodeTurn))
      fun _ p => p.state.node.lastApplied = 1 ∧ p.state.node.log.lastIndex = 2 ∧
        Restarts p.state ⟨1, 0⟩ fun n => n.lastApplied < 2 ∧ 2 ≤ n.log.lastIndex := by
    decide +kernel
  obtain ⟨tr, p, h, happ, hlast, hx⟩ := hx.runs
  obtain ⟨s, hrec, hlo, hhi⟩ := hx.recover
  exact ⟨tr, p, s, h, happ, hlast, hrec, compaction_covered h hrec 2 hlo hhi⟩

/-- In its second snapshot the node loses the meta file, after the first one has been compacted. Or
it loses the data file of its second snapshot in the third one, and crashes when it has saved an
older one that was sent to it. -/
theorem compaction_covered_fails :
    (∃ tr p s, Runs threads (Allows oneAtATime anyStep true) (newProcess 1) tr p ∧
      threads.recover p.state ⟨1, 0⟩ = some s ∧ s.node.lastApplied < 1 ∧
      1 ≤ s.node.log.lastIndex ∧ s.node.log.get 1 = .error (.compacted 1 1)) ∧
    ∃ tr p s, Runs threads (Allows oneAtATime anyStep true) (newProcess 1) tr p ∧
      threads.recover p.state ⟨1, 0⟩ = some s ∧ s.node.lastApplied < 2 ∧
      2 ≤ s.node.log.lastIndex ∧ s.node.log.get 2 = .error (.compacted 2 2) := by
  have hmeta : Reaches threads (Allows oneAtATime anyStep true) (newProcess 1)
      ((.call (.appendEntries (noops 1 [1, 1])) :: stepsOf 0 1 : List NodeTurn) ++
        (.call (.commitSet (feed [] 2)) :: stepsOf 0 1 : List NodeTurn) ++
        (.call .applyCommitted :: stepsOf 0 15 : List NodeTurn) ++
        ([.run 0 { save := .metaRemoved }] : List NodeTurn))
      fun _ p => Restarts p.state ⟨1, 0⟩ fun n => n.lastApplied < 1 ∧ 1 ≤ n.log.lastIndex ∧
        n.log.get 1 = .error (.compacted 1 1) := by
    decide +kernel
  have hdata : Reaches threads (Allows oneAtATime anyStep true) (newProcess 1)
      ((.call (.appendEntries (noops 1 [1, 1, 1])) :: stepsOf 0 1 : List NodeTurn) ++
        (.call (.commitSet (feed [] 3)) :: stepsOf 0 1 : List NodeTurn) ++
        (.call .applyCommitted :: stepsOf 0 23 : List NodeTurn) ++
        (.run 0 { save := .dataRemoved } :: stepsOf 0 1 : List NodeTurn) ++
        (.call (.handleInstallSnapshot (emptySnapshot 1)) :: stepsOf 0 5 : List NodeTurn))
      fun _ p => Restarts p.state ⟨1, 0⟩ fun n => n.lastApplied < 2 ∧ 2 ≤ n.log.lastIndex ∧
        n.log.get 2 = .error (.compacted 2 2) := by
    decide +kernel
  obtain ⟨tr, p, h, hx⟩ := hmeta.runs
  obtain ⟨tr', p', h', hx'⟩ := hdata.runs
  obtain ⟨s, hrec, hn⟩ := hx.recover
  obtain ⟨s', hrec', hn'⟩ := hx'.recover
  exact ⟨⟨tr, p, s, h, hrec, hn⟩, tr', p', s', h', hrec', hn'⟩

end DistributedKV.Raft
