import DistributedKV.Verify.Boundary
import Mathlib.Order.Bounds.Defs

/-!
# Replication, one call at a time

What a follower should keep and commit, and exactly when it does: `HandleAppendEntries` replaces
everything after `PrevLogIndex`, whether it conflicts or not, and commits up to its own last index;
`HandleInstallSnapshot` drops the whole log. The leader commits by the median of what its followers
have.
-/

namespace DistributedKV.Raft

/-- The entries of the log, from the first index on. -/
def PersistentLog.entries (pl : PersistentLog) : Except LogError (List Entry) :=
  pl.range pl.firstIndex pl.lastIndex

theorem Represents.entries {pl : PersistentLog} (h : Represents pl s) :
    pl.entries = .ok s.entries := by
  rw [PersistentLog.entries, h.range, h.firstIndex, h.lastIndex, LogState.range,
    LogState.lastIndex]
  split
  · next hlt => rw [List.length_eq_zero_iff.mp (by omega : s.entries.length = 0)]
  · rw [if_neg (by omega), if_neg (by omega), Nat.sub_self, List.drop_zero,
      List.take_of_length_le (by omega)]

/-! ## Merging -/

/-- How many of the entries `new` stand in `old` with the same terms, before one conflicts or is
missing. -/
def agreed : List Entry → List Entry → ℕ
  | x :: old, e :: new => if x.term = e.term then agreed old new + 1 else 0
  | _, _ => 0

/-- `old` if it has all of `new`, and else `old` up to the first conflict followed by the rest of
`new`. -/
def merged (old new : List Entry) : List Entry :=
  if agreed old new = new.length then old
  else old.take (agreed old new) ++ new.drop (agreed old new)

theorem agreed_le (old new : List Entry) :
    agreed old new ≤ old.length ∧ agreed old new ≤ new.length := by
  induction old generalizing new with
  | nil => simp [agreed]
  | cons x old ih =>
    cases new with
    | nil => simp [agreed]
    | cons e new =>
      have := ih new
      simp only [agreed, List.length_cons]
      split <;> omega

/-- Writing `new` over `old` merges it if the entries that agree are the same, and `old` does not go
on after them. -/
theorem merged_eq_iff (old new : List Entry) :
    merged old new = new ↔
      old.take (agreed old new) = new.take (agreed old new) ∧
        (agreed old new = new.length → old.length = new.length) := by
  obtain ⟨hold, hnew⟩ := agreed_le old new
  unfold merged
  split
  · next hall =>
    rw [hall, List.take_length]
    constructor
    · rintro rfl
      exact ⟨List.take_length, fun _ => rfl⟩
    · rintro ⟨htake, hlen⟩
      rwa [List.take_of_length_le (hlen rfl).le] at htake
  · next hsome =>
    have hsplit : new = new.take (agreed old new) ++ new.drop (agreed old new) :=
      (List.take_append_drop ..).symm
    constructor
    · intro h
      exact ⟨List.append_cancel_right (h.trans hsplit), fun hall => (hsome hall).elim⟩
    · rintro ⟨htake, -⟩
      rw [htake]
      exact hsplit.symm

/-! ## Appending -/

namespace Node

variable {n : Node} {s : LogState} {req : AppendEntriesRequest}

theorem Meets.represents (h : n.Meets n₁ t) (hrep : Represents n.log s) :
    ∃ s₁, Represents n₁.log s₁ ∧ s₁.lastIncludedIndex = s.lastIncludedIndex ∧
      s₁.entries = s.entries := by
  rw [h.log]
  split
  · exact ⟨_, hrep.setTermAndVote t "", rfl, rfl⟩
  · exact ⟨s, hrep, rfl, rfl⟩

/-- A request with entries above the boundary starts within the log. -/
theorem refusal_start (hrep : Represents n.log s) (href : refusal n.log req = none)
    (hcons : Consecutive (req.prevLogIndex + 1) req.entries)
    (habove : ∀ e ∈ req.entries, s.lastIncludedIndex < e.index) (hne : req.entries ≠ []) :
    s.lastIncludedIndex ≤ req.prevLogIndex ∧ req.prevLogIndex ≤ s.lastIndex := by
  obtain ⟨x, rest, hes⟩ := List.exists_cons_of_ne_nil hne
  have hx : x.index = req.prevLogIndex + 1 := hcons 0 x (by rw [hes]; rfl)
  have hlo := habove x (by rw [hes]; exact List.mem_cons_self)
  refine ⟨by omega, ?_⟩
  rcases refusal_none href with h0 | ht
  · omega
  · have hle := (PersistentLog.Intact.of_termAt ⟨s, hrep⟩ ht).2
    rwa [hrep.lastIndex] at hle

/-- The log of a follower that has taken a request. -/
theorem handleAppendEntries_entries (hrep : Represents n.log s)
    (hterm : n.log.currentTerm ≤ req.term) (href : refusal n.log req = none)
    (hcons : Consecutive (req.prevLogIndex + 1) req.entries)
    (habove : ∀ e ∈ req.entries, s.lastIncludedIndex < e.index) :
    (n.handleAppendEntries req).1.log.entries =
      .ok (if req.entries = [] then s.entries
        else s.entries.take (req.prevLogIndex - s.lastIncludedIndex) ++ req.entries) := by
  obtain ⟨n₁, hm, -, -, ⟨resp, hno, -⟩ | ⟨-, hs⟩⟩ := handleAppendEntries_spec hterm
  · rw [href] at hno; cases hno
  obtain ⟨s₁, h₁, hli, hent⟩ := hm.represents hrep
  rw [hs, followCommit_eq]
  rcases eq_or_ne req.entries [] with hnil | hne
  · rw [if_pos hnil, hnil, ← hent]
    exact h₁.entries
  · have hstart := refusal_start hrep href hcons habove hne
    have hlast : s₁.lastIndex = s.lastIndex := by rw [LogState.lastIndex, hli, hent]; rfl
    obtain ⟨x, rest, hes⟩ := List.exists_cons_of_ne_nil hne
    rw [if_neg hne, ← hent, ← hli]
    rw [hes] at hcons ⊢
    refine (h₁.appendEntries hcons (by omega) (by omega)).entries.trans ?_
    rw [LogState.append, Nat.add_sub_add_right]

end Node

/-- **A request is merged into the log** exactly if the log is the same where it agrees with the
request, and does not go on after a request that it agrees with throughout. A request whose entries
the log has already changes nothing exactly if the log ends with them. -/
theorem append_merges {n : Node} (hrep : Represents n.log s)
    (hterm : n.log.currentTerm ≤ req.term) (href : Node.refusal n.log req = none)
    (hcons : Consecutive (req.prevLogIndex + 1) req.entries)
    (habove : ∀ e ∈ req.entries, s.lastIncludedIndex < e.index) :
    let old := s.entries.drop (req.prevLogIndex - s.lastIncludedIndex)
    let k := agreed old req.entries
    ((n.handleAppendEntries req).1.log.entries =
        .ok (s.entries.take (req.prevLogIndex - s.lastIncludedIndex) ++ merged old req.entries) ↔
      old.take k = req.entries.take k ∧ (req.entries ≠ [] → k = req.entries.length →
        n.log.lastIndex = req.prevLogIndex + req.entries.length)) ∧
    (req.entries <+: old →
      ((n.handleAppendEntries req).1.log.entries = n.log.entries ↔
        req.entries = [] ∨ n.log.lastIndex = req.prevLogIndex + req.entries.length)) := by
  intro old k
  have hkeep : s.entries.take (req.prevLogIndex - s.lastIncludedIndex) ++ old = s.entries :=
    List.take_append_drop ..
  rw [Node.handleAppendEntries_entries hrep hterm href hcons habove, hrep.entries]
  rcases eq_or_ne req.entries [] with hnil | hne
  · have hk : k = 0 := by
      show agreed old req.entries = 0
      rw [hnil]
      cases old <;> rfl
    have hm : merged old [] = old := by simp [merged, agreed]
    simp only [hnil, hm, hkeep, hk]
    simp
  · have hstart := Node.refusal_start hrep href hcons habove hne
    have hlen : n.log.lastIndex = req.prevLogIndex + req.entries.length ↔
        old.length = req.entries.length := by
      rw [hrep.lastIndex]
      unfold LogState.lastIndex at hstart ⊢
      rw [List.length_drop]
      omega
    simp only [if_neg hne, Except.ok.injEq, hlen]
    refine ⟨?_, fun hpre => ?_⟩
    · rw [List.append_cancel_left_eq, eq_comm, merged_eq_iff]
      simp [hne, k]
    · simp only [hne, false_or]
      constructor
      · intro h
        rw [List.append_cancel_left (h.trans hkeep.symm)]
      · intro h
        rw [hpre.eq_of_length h.symm]
        exact hkeep

/-- A follower in term `term` that has started with entries of the given terms. -/
def followerWith (term : ℕ) (terms : List ℕ) : Node :=
  newNode { log := noops 1 terms, currentTerm := term } (fun _ => none) none 0

theorem followerWith_represents (term : ℕ) (terms : List ℕ) :
    Represents (followerWith term terms).log { currentTerm := term, entries := noops 1 terms } :=
  .of_entries { currentTerm := term, entries := noops 1 terms } (.noops 1 terms)

/-- A request from a leader in term 2 with no-ops of the given terms. -/
def noopRequest (prevLogIndex prevLogTerm : ℕ) (terms : List ℕ) (leaderCommit : ℕ) :
    AppendEntriesRequest where
  term := 2
  leaderID := "n1"
  prevLogIndex
  prevLogTerm
  entries := noops (prevLogIndex + 1) terms
  leaderCommit
  leaderClientAddr := ""

/-- A request whose first entry is there and whose second one conflicts. -/
theorem append_merges_conflict :
    let n := followerWith 2 [1, 1, 1]
    let req := noopRequest 1 1 [1, 2] 0
    agreed ((noops 1 [1, 1, 1]).drop 1) req.entries = 1 ∧
      (n.handleAppendEntries req).1.log.entries =
        .ok (noops 1 [1] ++ merged (noops 2 [1, 1]) req.entries) :=
  ⟨by decide, (append_merges (followerWith_represents 2 [1, 1, 1]) (by decide) (by decide)
    (.noops _ _) (by decide)).1.mpr (by decide)⟩

/-- The first two of three entries are sent again, and the third one is lost. -/
theorem append_merges_fails :
    let n := followerWith 2 [1, 1, 1]
    let req := noopRequest 0 0 [1, 1] 0
    Represents n.log { currentTerm := 2, entries := noops 1 [1, 1, 1] } ∧
      n.log.currentTerm ≤ req.term ∧ Node.refusal n.log req = none ∧
      Consecutive 1 req.entries ∧ req.entries <+: noops 1 [1, 1, 1] ∧
      merged (noops 1 [1, 1, 1]) req.entries = noops 1 [1, 1, 1] ∧
      (n.handleAppendEntries req).1.log.entries = .ok (noops 1 [1, 1]) :=
  ⟨followerWith_represents 2 [1, 1, 1], by decide, by decide, .noops _ _, by decide, by decide,
    by decide⟩

/-! ## Committing -/

/-- **A request commits what it vouches for** exactly if it is stale or refused, or does not reach
beyond its last entry: it has entries, or its commit index or the log does not reach beyond
`PrevLogIndex`. -/
theorem append_commits_vouched (n : Node) (req : AppendEntriesRequest) :
    (n.handleAppendEntries req).1.commitIndex ≤
        max n.commitIndex (req.prevLogIndex + req.entries.length) ↔
      req.term < n.log.currentTerm ∨ (Node.refusal n.log req).isSome ∨
        min req.leaderCommit ((req.entries.getLast?.map Entry.index).getD n.log.lastIndex) ≤
          max n.commitIndex (req.prevLogIndex + req.entries.length) := by
  rcases lt_or_ge req.term n.log.currentTerm with hst | hle
  · rw [Node.handleAppendEntries_stale hst]
    simp [hst]
  obtain ⟨n₁, hm, -, -, ⟨resp, href, -, hs⟩ | ⟨href, hs⟩⟩ := Node.handleAppendEntries_spec hle
  · have hc : n₁.commitIndex = n.commitIndex := by rw [hm.eq]
    rw [hs]
    simp [href, hc]
  · have hc : n₁.commitIndex = n.commitIndex := by rw [hm.eq]
    rw [hs, Node.followCommit_commitIndex]
    dsimp only
    rw [PersistentLog.appendEntries_lastIndex, hm.boundary.2.2, hc]
    simp only [href, not_lt.mpr hle, Option.isSome_none, Bool.false_eq_true, false_or]
    omega

/-- A heartbeat from a leader that has committed two entries commits two entries of an old term. -/
theorem append_commits_vouched_fails :
    let n := followerWith 2 [1, 1]
    let req := noopRequest 0 0 [] 2
    ¬(n.handleAppendEntries req).1.commitIndex ≤
      max n.commitIndex (req.prevLogIndex + req.entries.length) := by
  decide

/-! ## Installing a snapshot -/

/-- **An installed snapshot leaves what lies above it** exactly if it is not installed or nothing
does. -/
theorem install_keeps_suffix {n : Node} (hlog : n.log.Intact) (req : InstallSnapshotRequest)
    (hterm : n.log.currentTerm ≤ req.term) :
    ((n.log.termAt req.lastIncludedIndex = some req.lastIncludedTerm ∨
          req.lastIncludedIndex ≤ n.commitIndex) →
        ∀ i e, req.lastIncludedIndex < i → n.log.get i = .ok e →
          (n.handleInstallSnapshot req).1.log.get i = .ok e) ↔
      ((n.log.termAt req.lastIncludedIndex = some req.lastIncludedTerm ∨
          req.lastIncludedIndex ≤ n.commitIndex) →
        n.installs req = false ∨
          n.log.lastIndex ≤ max req.lastIncludedIndex n.log.lastIncludedIndex) := by
  refine imp_congr_right fun _ => ?_
  obtain ⟨s, hrep⟩ := hlog
  obtain ⟨n₁, hm, -, -, ⟨hno, hs⟩ | ⟨snap, hyes, -, hs⟩⟩ := Node.handleInstallSnapshot_spec hterm
  · -- the log is as it was
    obtain ⟨s₁, h₁, hli, hent⟩ := hm.represents hrep
    have hget (i : ℕ) : n₁.log.get i = n.log.get i := by
      rw [h₁.get, hrep.get, LogState.get, LogState.get, LogState.at?, LogState.at?, hli, hent]
    rw [hs]
    simp only [hno, hget, true_or, iff_true]
    exact fun i e _ he => he
  · -- nothing can be read above the new boundary
    obtain ⟨s₁, h₁, -, -⟩ := hm.represents hrep
    have hget (i : ℕ) (e : Entry) : (n.handleInstallSnapshot req).1.log.get i ≠ .ok e := by
      rw [hs]
      have hnone : (s₁.reset req.lastIncludedIndex req.lastIncludedTerm).at? i = none := by
        simp [LogState.at?, LogState.reset]
      intro he
      rw [(h₁.restoreSnapshotBoundary _ _).get, LogState.get_eq_ok, hnone] at he
      cases he
    simp only [hyes, Bool.true_eq_false, false_or]
    constructor
    · intro h
      by_contra hlt
      obtain ⟨e, he⟩ := (PersistentLog.Intact.get_ok_iff ⟨s, hrep⟩ (i := n.log.lastIndex)).mpr
        ⟨by omega, le_rfl⟩
      exact hget _ _ (h _ e (by omega) he)
    · intro hle i e hi he
      have := (PersistentLog.Intact.get_ok_iff ⟨s, hrep⟩).mp ⟨e, he⟩
      omega

/-- A snapshot of an empty state machine from a leader in term 2. -/
def snapshotRequest (lastIncludedIndex lastIncludedTerm : ℕ) : InstallSnapshotRequest where
  term := 2
  leaderID := "n1"
  lastIncludedIndex
  lastIncludedTerm
  data := .encoded ⟨fun _ => none⟩

/-- A snapshot that the follower has already. -/
theorem install_keeps_suffix_duplicate :
    let n := { followerWith 2 [1, 1, 1] with snapStore := some (⟨fun _ => none⟩, ⟨1, 1⟩) }
    n.log.termAt 1 = some 1 ∧ ∀ i e, 1 < i → n.log.get i = .ok e →
      (n.handleInstallSnapshot (snapshotRequest 1 1)).1.log.get i = .ok e := by
  intro n
  have hlog : n.log.Intact := ⟨_, followerWith_represents 2 [1, 1, 1]⟩
  have hterm : n.log.termAt 1 = some 1 := by decide
  exact ⟨hterm, (install_keeps_suffix hlog (snapshotRequest 1 1) (by decide)).mpr
    (fun _ => .inl rfl) (.inl hterm)⟩

/-- A snapshot of the first of three entries, which the follower has: the other two are lost. -/
theorem install_keeps_suffix_fails :
    let n := followerWith 2 [1, 1, 1]
    let req := snapshotRequest 1 1
    n.log.currentTerm ≤ req.term ∧
      n.log.termAt req.lastIncludedIndex = some req.lastIncludedTerm ∧
      n.log.get 2 = .ok ⟨2, 1, .noop, "", [], ""⟩ ∧
      (n.handleInstallSnapshot req).1.log.get 2 = .error .notFound := by
  decide

/-! ## The commit rule -/

/-- Leaders may commit up to index `N`: a majority has it, and the entry there is of their term. -/
def Node.Committable (me : Member) (n : Node) (N : ℕ) : Prop :=
  n.commitIndex < N ∧ me.needed ≤ (n.matchIndexes me).countP (N ≤ ·) ∧
    n.log.termAt N = some n.log.currentTerm

namespace Node

variable {me : Member} {n : Node}

/-- A majority has an index exactly if the median is no less. -/
theorem le_majorityIndex_iff (me : Member) (n : Node) (N : ℕ) :
    N ≤ n.majorityIndex me ↔ me.needed ≤ (n.matchIndexes me).countP (N ≤ ·) := by
  have hlen : ((n.matchIndexes me).insertionSort (· ≤ ·)).length = me.peers.length + 1 := by
    rw [List.length_insertionSort]
    simp [matchIndexes]
  have hget : ((n.matchIndexes me).insertionSort (· ≤ ·))[me.peers.length / 2]? =
      some (n.majorityIndex me) := by
    unfold majorityIndex
    dsimp only
    rw [hlen, Nat.add_sub_cancel, List.getD_eq_getElem?_getD,
      List.getElem?_eq_getElem (by omega), Option.getD_some]
  rw [Theory.le_insertionSort_iff hget]
  have hneeded : (n.matchIndexes me).length - me.peers.length / 2 = me.needed := by
    simp only [matchIndexes, List.length_cons, List.length_map, Member.needed]
    omega
  rw [hneeded]

theorem majorityIndex_le (hmatch : ∀ p ∈ me.peers, n.matchIndex p ≤ n.log.lastIndex) :
    n.majorityIndex me ≤ n.log.lastIndex := by
  have hpos := (le_majorityIndex_iff me n (n.majorityIndex me)).mp le_rfl
  obtain ⟨x, hx, hle⟩ := List.countP_pos_iff.mp
    (Nat.lt_of_lt_of_le (Nat.succ_pos _) hpos)
  refine (of_decide_eq_true hle).trans ?_
  rcases List.mem_cons.mp hx with rfl | hx
  · exact le_rfl
  · obtain ⟨p, hp, rfl⟩ := List.mem_map.mp hx
    exact hmatch p hp

end Node

/-- **The commit rule.** The leader commits up to the greatest index that it may commit up to, and
changes nothing if there is none. -/
theorem commit_rule {me : Member} {n : Node} (hrep : Represents n.log s) (hrole : n.role = .leader)
    (hsorted : s.terms.Pairwise (· ≤ ·)) (hterm : ∀ t ∈ s.terms, t ≤ n.log.currentTerm)
    (hmatch : ∀ p ∈ me.peers, n.matchIndex p ≤ n.log.lastIndex) :
    ((∃ N, n.Committable me N) →
      ∃ N, IsGreatest {N | n.Committable me N} N ∧
        n.tryAdvanceCommitIndex me n.log.currentTerm = { n with commitIndex := N }) ∧
    ((¬∃ N, n.Committable me N) → n.tryAdvanceCommitIndex me n.log.currentTerm = n) := by
  -- what may be committed lies below the median
  have hup {N : ℕ} (h : n.Committable me N) : N ≤ n.majorityIndex me :=
    (Node.le_majorityIndex_iff me n N).mpr h.2.1
  have hmed {N : ℕ} (h : n.Committable me N) : n.Committable me (n.majorityIndex me) := by
    refine ⟨h.1.trans_le (hup h), (Node.le_majorityIndex_iff me n _).mp le_rfl, ?_⟩
    have hlog : n.log.Intact := ⟨s, hrep⟩
    have hN := h.2.2
    obtain ⟨t, ht⟩ := Option.isSome_iff_exists.mp (hlog.termAt_isSome.mpr
      ⟨(hlog.of_termAt hN).1.trans (hup h), Node.majorityIndex_le hmatch⟩)
    rw [hrep.termAt] at hN ht ⊢
    rw [ht, le_antisymm (hterm t (LogState.termAt_mem ht))
      (LogState.termAt_mono hsorted (hup h) hN ht)]
  constructor
  · rintro ⟨N, hN⟩
    refine ⟨_, ⟨hmed hN, fun N hN => hup hN⟩, ?_⟩
    obtain ⟨hlt, -, ht⟩ := hmed hN
    simp [Node.tryAdvanceCommitIndex, hrole, not_le.mpr hlt, ht]
  · intro hno
    rcases Node.tryAdvanceCommitIndex_cases me n n.log.currentTerm with heq | ⟨-, hlt, ht, -⟩
    · exact heq
    · exact (hno ⟨_, hlt, (Node.le_majorityIndex_iff me n _).mp le_rfl, ht⟩).elim

/-- A leader of five in term 2 with entries of terms 1, 1, 2, 2, 2. Three servers have the fourth
entry. -/
theorem commit_rule_quintet :
    let me := (quintet 0).member "n1"
    let n := { followerWith 2 [1, 1, 2, 2, 2] with
      role := .leader
      matchIndex := fun p => if p = "n2" then 4 else if p = "n3" then 5 else 2 }
    n.Committable me 4 ∧ ∃ N, IsGreatest {N | n.Committable me N} N ∧
      n.tryAdvanceCommitIndex me n.log.currentTerm = { n with commitIndex := N } := by
  intro me n
  have hN : n.Committable me 4 := by
    unfold Node.Committable
    decide
  have hrep : Represents n.log { currentTerm := 2, entries := noops 1 [1, 1, 2, 2, 2] } :=
    followerWith_represents 2 [1, 1, 2, 2, 2]
  exact ⟨hN, (commit_rule hrep rfl (by decide) (by decide) (by decide)).1 ⟨4, hN⟩⟩

end DistributedKV.Raft
