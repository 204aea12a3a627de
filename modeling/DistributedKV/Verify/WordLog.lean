import DistributedKV.Raft.WordLog
import DistributedKV.Verify.LogRefinement

/-!
# The log on 64-bit words

As long as the indices it is given leave room for the next one (`LogOp.Fits`), the log on words does
what the unbounded one does, and its loops end. So it refines the specification (`log_refines`). A
boundary at the largest word leaves `firstIndex` at 0 and `lastIndex` at a word that no counter
exceeds, and the next operation that clears the log does not return.
-/

namespace DistributedKV.Raft

open Theory

namespace WordLog

variable {pl : PersistentLog} {s : LogState} {op : LogOp}

theorem succ_eq (h : i + 1 < 2 ^ 64) : succ i = i + 1 := Nat.mod_eq_of_lt h

theorem pred_eq (hpos : 0 < i) (h : i < 2 ^ 64) : pred i = i - 1 := by
  unfold pred
  omega

/-! ## Loops -/

theorem deleteRange_of_lt (h : hi < lo) (es : List Entry) : deleteRange lo hi es = es := by
  refine List.filter_eq_self.mpr fun e _ => ?_
  simp only [decide_eq_true_eq]
  omega

theorem deleteRange_deleteKey (h : lo ≤ hi) (es : List Entry) :
    deleteRange (lo + 1) hi (deleteKey lo es) = deleteRange lo hi es := by
  unfold deleteRange deleteKey
  rw [List.filter_filter]
  refine List.filter_congr fun e _ => ?_
  simp only [← Bool.decide_and, decide_eq_decide]
  omega

theorem foldl_deleteKey (lo hi : ℕ) (log cache : List Entry) :
    (wordsTo lo hi).foldl (fun tables i => (deleteKey i tables.1, deleteKey i tables.2))
      (log, cache) = (deleteRange lo hi log, deleteRange lo hi cache) := by
  induction hn : hi + 1 - lo generalizing lo log cache with
  | zero =>
    have hlt : hi < lo := by omega
    rw [wordsTo_of_lt hlt, deleteRange_of_lt hlt, deleteRange_of_lt hlt]
    rfl
  | succ n ih =>
    have hle : lo ≤ hi := by omega
    rw [wordsTo_of_le hle, List.foldl_cons, ih (lo + 1) _ _ (by omega), deleteRange_deleteKey hle,
      deleteRange_deleteKey hle]

theorem deleteLoop_eq (hhi : hi + 1 < 2 ^ 64) (hfuel : 2 ^ 64 ≤ fuel) (log cache : List Entry) :
    deleteLoop fuel lo hi (log, cache) =
      some (deleteRange lo hi log, deleteRange lo hi cache) := by
  unfold deleteLoop
  rw [forTo_eq hhi (by omega), ← foldl_deleteKey]
  simp

theorem deleteLoop_never (fuel : ℕ) (hlo : lo < 2 ^ 64) (tables : List Entry × List Entry) :
    deleteLoop fuel lo (2 ^ 64 - 1) tables = none := forTo_never _ fuel hlo tables

/-! ## Operations -/

def perform (fuel : ℕ) (commit : Bool) (pl : PersistentLog) : LogOp → Option (PersistentLog × Bool)
  | .setTermAndVote term votedFor => some (pl.setTermAndVote commit term votedFor)
  | .appendEntries _ entries _ => appendEntries fuel commit pl entries
  | .truncateSuffix start => truncateSuffix fuel commit pl start
  | .compactPrefix index term => compactPrefix fuel commit pl index term
  | .restoreSnapshotBoundary index term => restoreSnapshotBoundary fuel commit pl index term

/-- The indices of the log leave room for the next one. -/
structure Bounded (pl : PersistentLog) : Prop where
  first : 0 < pl.firstIndex
  boundary : pl.lastIncludedIndex + 1 < 2 ^ 64
  last : pl.lastIndex + 1 < 2 ^ 64

theorem Bounded.of_represents (h : Represents pl s) (hs : s.lastIndex + 1 < 2 ^ 64) :
    Bounded pl := by
  refine ⟨?_, ?_, ?_⟩
  · rw [h.firstIndex]
    exact Nat.succ_pos _
  · rw [h.boundary.1]
    rw [LogState.lastIndex] at hs
    omega
  · rw [h.lastIndex]
    exact hs

theorem openPersistentLog_eq {engine : Engine} (h : engine.lastIncludedIndex + 1 < 2 ^ 64) :
    openPersistentLog engine = Raft.openPersistentLog engine := by
  rw [openPersistentLog, succ_eq h]
  rfl

/-- Within the bounds an operation returns, with what the unbounded one does. -/
theorem perform_eq (hb : Bounded pl) (hop : op.Legal pl) (hfits : op.Fits) (commit : Bool)
    (hfuel : 2 ^ 64 ≤ fuel) : perform fuel commit pl op = some (pl.perform commit op) := by
  cases op with
  | setTermAndVote => rfl
  | appendEntries first es hes =>
    cases es with
    | nil => rfl
    | cons x rest =>
      dsimp only [perform, appendEntries]
      rw [deleteLoop_eq hb.last hfuel, succ_eq hb.boundary]
      cases commit <;> rfl
  | truncateSuffix start =>
    dsimp only [perform, truncateSuffix, PersistentLog.perform, PersistentLog.truncateSuffix]
    split
    · rfl
    · next hge =>
      have hpos : 0 < start := hb.first.trans_le hop
      have := hb.last
      rw [deleteLoop_eq hb.last hfuel, pred_eq hpos (by omega)]
      cases commit <;> rfl
  | compactPrefix index term =>
    dsimp only [perform, compactPrefix, PersistentLog.perform, PersistentLog.compactPrefix]
    split
    · rfl
    · have := hb.last
      rw [deleteLoop_eq (by omega) hfuel, succ_eq hfits.1]
      cases commit <;> rfl
  | restoreSnapshotBoundary index term =>
    dsimp only [perform, restoreSnapshotBoundary]
    rw [deleteLoop_eq hb.last hfuel, succ_eq hfits.1]
    cases commit <;> rfl

/-! ## Reading a range -/

theorem foldlM_get (is : List ℕ) (entries : List Entry) :
    is.foldlM (fun entries i => (pl.get i).map fun e => entries ++ [e]) entries =
      (is.mapM pl.get).map (entries ++ ·) := by
  induction is generalizing entries with
  | nil => simp [Except.map, pure, Except.pure]
  | cons i is ih =>
    rw [List.foldlM_cons, List.mapM_cons]
    cases pl.get i with
    | error err => rfl
    | ok e =>
      refine (ih (entries ++ [e])).trans ?_
      simp only [bind, Except.bind]
      cases is.mapM pl.get with
      | error err => rfl
      | ok es => simp [Except.map, pure, Except.pure]

theorem le_of_range_ok (hle : lo ≤ hi) (h : s.range lo hi = .ok es) : hi ≤ s.lastIndex := by
  unfold LogState.range at h
  rw [if_neg (not_lt.mpr hle)] at h
  split at h
  · cases h
  · split at h
    · cases h
    · next hgt => exact not_lt.mp hgt

/-- `Range` returns what the specification has, if there is room for it. The loop reads the first
missing entry before its counter wraps around. -/
theorem range_eq (h : Represents pl s) (hs : s.lastIndex + 1 < 2 ^ 64) (hhi : hi < 2 ^ 64)
    (hroom : lo ≤ hi → succ (hi - lo) ≤ room) (hfuel : 2 ^ 64 < fuel) :
    range room fuel pl lo hi = some (s.range lo hi) := by
  unfold range
  split
  · next hlt =>
    rw [LogState.range, if_pos hlt]
  · next hle =>
    replace hle := not_lt.mp hle
    have hread : (wordsTo lo hi).foldlM
        (fun entries i => (pl.get i).map fun e => entries ++ [e]) [] = s.range lo hi := by
      rw [foldlM_get, ← h.range]
      show Except.map _ (pl.range lo hi) = _
      cases pl.range lo hi <;> rfl
    rw [if_neg (not_lt.mpr (hroom hle))]
    cases hr : s.range lo hi with
    | error err => rw [forTo_error hhi (by omega) (hread.trans hr)]
    | ok es =>
      have := le_of_range_ok hle hr
      rw [forTo_eq (by omega) (by omega), hread, hr]
      rfl

end WordLog

/-! ## Runs -/

/-- The call returns `r`, whatever time it is given beyond what it needs. -/
def WordLog.Returns (pl : PersistentLog) (commit : Bool) (op : LogOp) (r : PersistentLog × Bool) :
    Prop :=
  ∃ N, ∀ fuel ≥ N, WordLog.perform fuel commit pl op = some r

/-- The logs that can come of an empty engine by operations whose indices leave room for the next
one, with the outcomes of their commits. The log may be opened again at any time. -/
inductive WordLogRuns : List (LogOp × Bool) → PersistentLog → Prop where
  | init : WordLogRuns [] (WordLog.openPersistentLog {})
  | step (op : LogOp) (commit : Bool) : WordLogRuns ops pl → op.Legal pl → op.Fits →
    WordLog.Returns pl commit op (pl', ok) → WordLogRuns (ops ++ [(op, commit)]) pl'
  | reopen : WordLogRuns ops pl → WordLogRuns ops (WordLog.openPersistentLog pl.engine)

namespace WordLog

variable {pl : PersistentLog} {op : LogOp}

theorem Returns.eq (h : Returns pl commit op r) (hb : Bounded pl) (hop : op.Legal pl)
    (hfits : op.Fits) : r = pl.perform commit op := by
  obtain ⟨N, h⟩ := h
  have := h (max N (2 ^ 64)) (le_max_left ..)
  rw [perform_eq hb hop hfits commit (le_max_right ..)] at this
  exact (Option.some.inj this).symm

theorem returns (hb : Bounded pl) (hop : op.Legal pl) (hfits : op.Fits) (commit : Bool) :
    Returns pl commit op (pl.perform commit op) :=
  ⟨2 ^ 64, fun _ hfuel => perform_eq hb hop hfits commit hfuel⟩

end WordLog

/-- These are runs of the unbounded log, and stay within the bounds. -/
theorem WordLogRuns.logRuns (h : WordLogRuns ops pl) :
    LogRuns ops pl ∧ (LogState.after ops).lastIndex + 1 < 2 ^ 64 := by
  induction h with
  | init => exact ⟨.init, by decide⟩
  | @step ops pl pl' ok op commit _ hop hfits hret ih =>
    obtain ⟨hrun, hlt⟩ := ih
    have hrep := hrun.represents
    have heq := hret.eq (.of_represents hrep hlt) hop hfits
    obtain rfl : pl' = (pl.perform commit op).1 := congrArg Prod.fst heq
    refine ⟨hrun.step op commit hop, ?_⟩
    rw [LogState.after, List.foldl_append]
    cases commit with
    | true => exact hfits.lastIndex_act hlt hrep hop
    | false => exact hlt
  | @reopen ops pl _ ih =>
    obtain ⟨hrun, hlt⟩ := ih
    have hb : pl.engine.lastIncludedIndex + 1 < 2 ^ 64 := by
      rw [hrun.represents.engine.1]
      rw [LogState.lastIndex] at hlt
      omega
    rw [WordLog.openPersistentLog_eq hb]
    exact ⟨hrun.reopen, hlt⟩

/-- Everything that can be read off `pl` is read off `s`. -/
structure Answers (pl : PersistentLog) (s : LogState) : Prop where
  currentTerm : pl.currentTerm = s.currentTerm
  votedFor : pl.votedFor = s.votedFor
  boundary : pl.lastIncludedIndex = s.lastIncludedIndex ∧ pl.lastIncludedTerm = s.lastIncludedTerm
  firstIndex : pl.firstIndex = s.lastIncludedIndex + 1
  lastIndex : pl.lastIndex = s.lastIndex
  lastTerm : pl.lastTerm = s.lastTerm
  termAt : ∀ i, pl.termAt i = s.termAt i
  get : ∀ i, pl.get i = s.get i
  range : ∀ {room lo hi}, hi < 2 ^ 64 → (lo ≤ hi → WordLog.succ (hi - lo) ≤ room) →
    ∃ N, ∀ fuel ≥ N, WordLog.range room fuel pl lo hi = some (s.range lo hi)

theorem WordLogRuns.answers (h : WordLogRuns ops pl) : Answers pl (.after ops) := by
  obtain ⟨hrun, hlt⟩ := h.logRuns
  have h := hrun.represents
  exact ⟨h.ballot.1, h.ballot.2, h.boundary, h.firstIndex, h.lastIndex, h.lastTerm, h.termAt, h.get,
    fun hhi hroom => ⟨2 ^ 64 + 1, fun _ hfuel => WordLog.range_eq h hlt hhi hroom hfuel⟩⟩

/-- **The log refines its specification**, over all sequences of operations whose indices leave room
for the next one, with successful and failed commits: what is read comes from the specification, the
log is opened again as what it was, and the next operation returns. -/
theorem log_refines (h : WordLogRuns ops pl) :
    Consecutive ((LogState.after ops).lastIncludedIndex + 1) (LogState.after ops).entries ∧
      Answers pl (.after ops) ∧ Answers (WordLog.openPersistentLog pl.engine) (.after ops) ∧
      ∀ op commit, op.Legal pl → op.Fits → ∃ r, WordLog.Returns pl commit op r := by
  obtain ⟨hrun, hlt⟩ := h.logRuns
  refine ⟨hrun.represents.consecutive, h.answers, h.reopen.answers, fun op commit hop hfits => ?_⟩
  exact ⟨_, WordLog.returns (.of_represents hrun.represents hlt) hop hfits commit⟩

theorem WordLogRuns.perform (h : WordLogRuns ops pl) (op : LogOp) (commit : Bool)
    (hop : op.Legal pl) (hfits : op.Fits) :
    WordLogRuns (ops ++ [(op, commit)]) (pl.perform commit op).1 := by
  obtain ⟨hrun, hlt⟩ := h.logRuns
  exact h.step op commit hop hfits
    (WordLog.returns (.of_represents hrun.represents hlt) hop hfits commit)

/-- Three entries, a failed append over the last two, one that replaces the last, and a
compaction. -/
theorem log_refines_conflict : ∃ ops pl, WordLogRuns ops pl ∧ pl.lastIndex = 3 ∧
    pl.termAt 3 = some 2 ∧ (LogState.after ops).entries.map Entry.term = [1, 2] ∧
    Consecutive ((LogState.after ops).lastIncludedIndex + 1) (LogState.after ops).entries ∧
      Answers pl (.after ops) ∧ Answers (WordLog.openPersistentLog pl.engine) (.after ops) ∧
      ∀ op commit, op.Legal pl → op.Fits → ∃ r, WordLog.Returns pl commit op r := by
  have h := WordLogRuns.init
    |>.perform (.appendEntries 1 (noops 1 [1, 1, 1]) (.noops _ _)) true (by decide) (by decide)
    |>.perform (.appendEntries 2 (noops 2 [2]) (.noops _ _)) false (by decide) (by decide)
    |>.perform (.appendEntries 3 (noops 3 [2]) (.noops _ _)) true (by decide) (by decide)
    |>.perform (.compactPrefix 1 1) true trivial (by decide)
  exact ⟨_, _, h, rfl, rfl, rfl, log_refines h⟩

/-- A log whose boundary is the largest index. -/
def WordLog.atLimit : PersistentLog := WordLog.openPersistentLog ⟨[], 0, "", 2 ^ 64 - 1, 1⟩

/-- After a reset to the largest index the log cannot be reset again. -/
theorem log_refines_fails :
    WordLog.Returns (WordLog.openPersistentLog {}) true
      (.restoreSnapshotBoundary (2 ^ 64 - 1) 1) (WordLog.atLimit, true) ∧
    WordLog.atLimit.firstIndex = 0 ∧ WordLog.atLimit.lastIndex = 2 ^ 64 - 1 ∧
    ∀ fuel commit index term,
      WordLog.perform fuel commit WordLog.atLimit (.restoreSnapshotBoundary index term) = none := by
  refine ⟨⟨2 ^ 64, fun fuel hfuel => ?_⟩, ?_, rfl, fun fuel commit index term => ?_⟩
  · dsimp only [WordLog.perform, WordLog.restoreSnapshotBoundary]
    rw [WordLog.deleteLoop_eq (by decide) hfuel]
    rfl
  · decide
  · exact congrArg (Option.map _) (WordLog.deleteLoop_never fuel (by decide) _)

end DistributedKV.Raft
