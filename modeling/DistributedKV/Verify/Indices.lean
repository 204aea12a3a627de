import DistributedKV.Verify.Step

/-!
# Commit and apply indices

How `commitIndex`, `lastApplied` and the bounds of the log move. Three places of the code can put
them out of order, and each has its condition here:

* an accepted request replaces the suffix of the log, also below the commit index (`Covers`);
* a snapshot is installed if it is newer than the stored one, also when the commit index is ahead
  of it (`InstallsAhead`);
* the apply loop counts on from a copy of `lastApplied`. When a snapshot has overtaken it, it ends
  at the first entry it cannot read, unless a request without a previous entry has put old
  entries back into the cache (`NotStale`).
-/

namespace DistributedKV.Raft

/-! ## Bounds of the log -/

namespace PersistentLog

structure Framed (pl : PersistentLog) : Prop where
  engine : pl.engine.lastIncludedIndex = pl.lastIncludedIndex
  firstIndex : pl.firstIndex = pl.lastIncludedIndex + 1
  le : pl.lastIncludedIndex ≤ pl.lastIndex

theorem appendEntries_lastIndex (pl : PersistentLog) (es : List Entry) :
    (pl.appendEntries true es).1.lastIndex = (es.getLast?.map Entry.index).getD pl.lastIndex := by
  cases es with
  | nil => rfl
  | cons e es =>
    rw [List.getLast?_cons, ← List.getLastD_eq_getLast?]
    rfl

theorem mem_tailCache_appendEntries {pl : PersistentLog}
    (h : e ∈ (pl.appendEntries true es).1.tailCache) : e ∈ es ∨ e ∈ pl.tailCache := by
  cases es with
  | nil => exact .inr h
  | cons x es =>
    have hmem : e ∈ (x :: es).foldl insertEntry
        (deleteRange x.index pl.lastIndex pl.tailCache) := by
      change e ∈ evictTailCache .. at h
      unfold evictTailCache at h
      split at h
      · exact h
      · exact List.mem_of_mem_filter h
    rcases mem_foldl_insertEntry hmem with h | h
    · exact .inl h
    · exact .inr (List.mem_of_mem_filter h)

namespace Framed

variable {pl : PersistentLog}

theorem appendEntries (h : Framed pl)
    (hle : pl.lastIncludedIndex ≤ (pl.appendEntries true es).1.lastIndex) :
    Framed (pl.appendEntries true es).1 ∧
      (pl.appendEntries true es).1.lastIncludedIndex = pl.lastIncludedIndex := by
  cases es with
  | nil => exact ⟨h, rfl⟩
  | cons e es =>
    refine ⟨⟨h.engine, ?_, hle⟩, rfl⟩
    show (if _ = 0 then _ else _) = pl.lastIncludedIndex + 1
    rw [h.firstIndex]
    simp

theorem compactPrefix (hi : pl.lastIncludedIndex < i) :
    Framed (pl.compactPrefix true i t).1 ∧
      (pl.compactPrefix true i t).1.lastIncludedIndex = i ∧
      pl.lastIndex ≤ (pl.compactPrefix true i t).1.lastIndex := by
  unfold PersistentLog.compactPrefix
  rw [if_neg (by omega)]
  exact ⟨⟨rfl, rfl, Nat.le_max_right ..⟩, rfl, Nat.le_max_left ..⟩

theorem restoreSnapshotBoundary : Framed (pl.restoreSnapshotBoundary true i t).1 :=
  ⟨rfl, rfl, le_rfl⟩

theorem reopen : Framed (openPersistentLog pl.engine) :=
  ⟨rfl, rfl, (Rep.foldl_max ..).1⟩

theorem le_of_termAt (h : Framed pl) (ht : pl.termAt i = some t) : i ≤ pl.lastIndex := by
  have hle := h.le
  unfold PersistentLog.termAt at ht
  split at ht
  · omega
  · split at ht
    · cases ht
    · omega

end Framed

end PersistentLog

/-! ## What a snapshot must not fall behind -/

namespace Node

/-- The index of the stored snapshot, zero if there is none. -/
def snapIndex (s : Node) : ℕ := s.snapStore.elim 0 fun st => st.2.lastIncludedIndex

/-- The snapshot that a leader sends is the one in its store. -/
theorem SendsSnapshot.snapIndex {s : Node} (h : s.SendsSnapshot req) :
    s.snapIndex = req.lastIncludedIndex := by
  obtain ⟨snap, hsnap, -⟩ := h.snap
  rw [Node.snapIndex, hsnap]
  rfl

theorem newNode_commitIndex (s : Node) :
    (newNode s.log.engine s.sm s.snapStore (s.epoch + 1)).commitIndex = s.snapIndex := by
  unfold newNode snapIndex
  cases s.snapStore <;> rfl

/-- A snapshot that is installed reaches the commit index. -/
def InstallsAhead (s : Node) (req : InstallSnapshotRequest) : Prop :=
  s.installs req = true → s.commitIndex ≤ req.lastIncludedIndex

instance : Decidable (InstallsAhead s req) := inferInstanceAs (Decidable (_ → _))

/-- Nothing has been applied or compacted, nor will be by the apply loop, that is not
committed. -/
structure Bounded (s : Node) : Prop where
  snap : s.snapIndex ≤ s.commitIndex
  applied : s.lastApplied ≤ s.commitIndex
  loop : ∀ {i commit}, s.applying = some (i, commit) → i ≤ commit ∧ commit ≤ s.commitIndex

variable {me : Member} {s s' : Node}

theorem SameIndices.snapIndex (h : s.SameIndices s') : s'.snapIndex = s.snapIndex := by
  rw [Node.snapIndex, h.snapStore]; rfl

theorem Moves.commitIndex_le (hm : s.Moves me a s') (ha : a ≠ .restart) :
    s.commitIndex ≤ s'.commitIndex := by
  cases hm with
  | stay _ hsame | stand _ hsame | grow _ _ hsame => exact hsame.commitIndex.ge
  | commit _ hlt => exact hlt.le
  | begin | halt => exact le_rfl
  | apply => exact (applyOne_spec ..).2.1.ge
  | restart => exact (ha rfl).elim

theorem Outcome.commitIndex_le (hout : s.Outcome env ef)
    (hsnap : ∀ {req}, env.body = .snapReq req → s.InstallsAhead req) :
    s.commitIndex ≤ ef.node.commitIndex := by
  cases hout with
  | quiet _ hret => obtain ⟨t, hret⟩ := hret; exact hret.commitIndex.ge
  | vote _ hmeet => exact hmeet.retreats.commitIndex.ge
  | append _ hmeet _ _ hs =>
    rw [hs, followCommit_commitIndex, ← hmeet.retreats.commitIndex]
    exact le_max_left ..
  | install _ _ _ hinst hs => rw [hs]; exact hsnap rfl hinst

namespace Bounded

theorem same (h : Bounded s) (hsame : s.SameIndices s') : Bounded s' where
  snap := by rw [hsame.snapIndex, hsame.commitIndex]; exact h.snap
  applied := by rw [hsame.lastApplied, hsame.commitIndex]; exact h.applied
  loop hap := by
    rw [hsame.applying] at hap
    rw [hsame.commitIndex]; exact h.loop hap

/-- The commit index may rise. -/
theorem raise (h : Bounded s) (hle : s.commitIndex ≤ i) : Bounded { s with commitIndex := i } where
  snap := h.snap.trans hle
  applied := h.applied.trans hle
  loop hap := ⟨(h.loop hap).1, (h.loop hap).2.trans hle⟩

theorem act (h : Bounded s) (hm : s.Moves me a s') : Bounded s' := by
  cases hm with
  | stay _ hsame | stand _ hsame | grow _ _ hsame => exact h.same hsame
  | commit _ hlt => exact h.raise hlt.le
  | begin => exact ⟨h.snap, h.applied, fun hap => by cases hap; exact ⟨h.applied, le_rfl⟩⟩
  | halt => exact ⟨h.snap, h.applied, nofun⟩
  | @apply i commit e a hap hlt hg =>
    obtain ⟨hla, hc, hap', hstore⟩ := applyOne_spec me s (i + 1) commit e
    have hcommit := (h.loop hap).2
    refine ⟨?_, ?_, fun hap => ?_⟩
    · rw [hc]
      rcases hstore with ⟨-, hsnap⟩ | ⟨snap, t, -, -, -, hsnap⟩
      · rw [snapIndex, hsnap]; exact h.snap
      · rw [snapIndex, hsnap]; exact (Nat.succ_le_of_lt hlt).trans hcommit
    · rw [hla, hc]; exact (Nat.succ_le_of_lt hlt).trans hcommit
    · rw [hap'] at hap
      cases hap
      rw [hc]; exact ⟨hlt, hcommit⟩
  | restart => exact ⟨s.newNode_commitIndex.ge, le_rfl, nofun⟩

theorem receive (h : Bounded s) (hsnap : ∀ {req}, env.body = .snapReq req → s.InstallsAhead req)
    (hout : s.Outcome env ef) : Bounded ef.node := by
  cases hout with
  | quiet _ hret => obtain ⟨t, hret⟩ := hret; exact h.same hret.toSameIndices
  | vote _ hmeet => exact (h.same hmeet.retreats.toSameIndices).same ⟨rfl, rfl, rfl, rfl⟩
  | append _ hmeet _ _ hs =>
    have h₁ := h.same hmeet.retreats.toSameIndices
    rw [hs, followCommit_eq]
    refine raise (h₁.same ⟨rfl, rfl, rfl, rfl⟩) ?_
    rw [followCommit_commitIndex]
    exact le_max_left ..
  | install _ hmeet _ hinst hs =>
    rw [hs]
    refine ⟨le_rfl, le_rfl, fun hap => ?_⟩
    obtain ⟨h₁, h₂⟩ := h.loop (hmeet.retreats.applying.symm.trans hap)
    exact ⟨h₁, h₂.trans (hsnap rfl hinst)⟩

end Bounded

end Node

theorem Shadow.bounded (h : Shadow cfg ok tr c r)
    (hok : ∀ {c a}, ok c a → OnSnapshot Node.InstallsAhead c a) (n : NodeID) :
    (c.node n).Bounded := by
  induction h with
  | init => exact ⟨le_rfl, le_rfl, nofun⟩
  | @step tr c r a c' evs hsh hoka hs ih =>
    cases Cluster.step_changes hs n with
    | same heq => rw [heq]; exact ih
    | act _ _ hacts heq => rw [heq]; exact ih.act hacts.moves
    | receive ha henv hdst hrec heq =>
      subst ha hdst
      rw [heq]
      exact ih.receive ((hok hoka).of_deliver henv) hrec.outcome

/-! ## The order of the indices -/

namespace Node

/-- The entries of an accepted request reach the commit index. -/
def Covers (s : Node) (req : AppendEntriesRequest) : Prop :=
  s.log.currentTerm ≤ req.term → refusal s.log req = none →
    ∀ last ∈ req.entries.getLast?, s.commitIndex ≤ last.index

instance : Decidable (Covers s req) := inferInstanceAs (Decidable (_ → _ → _))

/-- A request without a previous entry does not meet an apply loop that a snapshot has
overtaken. -/
def NotStale (s : Node) (req : AppendEntriesRequest) : Prop :=
  s.log.currentTerm ≤ req.term → req.prevLogIndex = 0 → req.entries ≠ [] →
    ∀ ap ∈ s.applying, ap.1 < ap.2 → s.log.lastIncludedIndex ≤ ap.1

instance : Decidable (NotStale s req) := inferInstanceAs (Decidable (_ → _ → _ → _))

structure Indices (s : Node) : Prop extends Bounded s where
  log : s.log.Framed
  boundary : s.log.lastIncludedIndex = s.snapIndex
  snapApplied : s.snapIndex ≤ s.lastApplied
  commit : s.commitIndex ≤ s.log.lastIndex
  /-- The apply loop goes on from `lastApplied`, or it was overtaken and finds nothing to read. -/
  stale : ∀ {i stop}, s.applying = some (i, stop) → i < stop → i = s.lastApplied ∨
    i < s.log.lastIncludedIndex ∧ ∀ e ∈ s.log.tailCache, s.log.lastIncludedIndex < e.index

namespace Indices

/-- A loop that was overtaken finds nothing to read. -/
theorem eq_of_get (h : Indices s) (hap : s.applying = some (i, stop)) (hlt : i < stop)
    (hg : s.log.get (i + 1) = .ok e) : i = s.lastApplied := by
  refine (h.stale hap hlt).resolve_right fun ⟨hlt, hcache⟩ => ?_
  unfold PersistentLog.get at hg
  split at hg
  · next hl =>
    obtain ⟨hidx, hmem⟩ := lookup_some hl
    have := hcache _ hmem
    omega
  · rw [PersistentLog.getLocked, if_pos (by omega)] at hg
    cases hg

/-- The log is written to above the boundary, and the commit index may rise. -/
theorem write (h : Indices s) (hsnap : s'.snapStore = s.snapStore)
    (hla : s'.lastApplied = s.lastApplied) (hap : s'.applying = s.applying)
    (hle : s.commitIndex ≤ s'.commitIndex) (hlen : s'.commitIndex ≤ s'.log.lastIndex)
    (hframed : s'.log.Framed) (hli : s'.log.lastIncludedIndex = s.log.lastIncludedIndex)
    (hcache : ∀ {i stop}, s.applying = some (i, stop) → i < stop →
      i < s.log.lastIncludedIndex →
      ∀ e ∈ s'.log.tailCache, e ∈ s.log.tailCache ∨ s.log.lastIncludedIndex < e.index) :
    Indices s' := by
  have hsnapIndex : s'.snapIndex = s.snapIndex := by rw [snapIndex, hsnap]; rfl
  refine ⟨⟨?_, ?_, fun hap' => ?_⟩, hframed, ?_, ?_, hlen, fun {i stop} hap' hlt => ?_⟩
  · rw [hsnapIndex]; exact h.snap.trans hle
  · rw [hla]; exact h.applied.trans hle
  · rw [hap] at hap'
    exact ⟨(h.loop hap').1, (h.loop hap').2.trans hle⟩
  · rw [hli, hsnapIndex]; exact h.boundary
  · rw [hsnapIndex, hla]; exact h.snapApplied
  · rw [hap] at hap'
    rw [hli, hla]
    refine (h.stale hap' hlt).imp_right fun ⟨hlt', hold⟩ => ⟨hlt', fun e he => ?_⟩
    exact (hcache hap' hlt hlt' e he).elim (hold e) id

theorem ballot (h : Indices s) (hsame : s.SameIndices s')
    (hlog : s'.log = s.log ∨ ∃ t v, s'.log = (s.log.setTermAndVote true t v).1) : Indices s' := by
  refine h.write hsame.snapStore hsame.lastApplied hsame.applying hsame.commitIndex.ge ?_ ?_ ?_ ?_
  · rw [hsame.commitIndex]
    rcases hlog with hlog | ⟨t, v, hlog⟩ <;> rw [hlog] <;> exact h.commit
  · rcases hlog with hlog | ⟨t, v, hlog⟩ <;> rw [hlog]
    · exact h.log
    · exact ⟨h.log.engine, h.log.firstIndex, h.log.le⟩
  · rcases hlog with hlog | ⟨t, v, hlog⟩ <;> (rw [hlog]; try rfl)
  · rcases hlog with hlog | ⟨t, v, hlog⟩ <;> rw [hlog] <;> exact fun _ _ _ e he => .inl he

/-- Entries are appended, to a log that reaches the commit index before and after. -/
theorem append (h : Indices s) (hlog : s'.log = (s.log.appendEntries true es).1)
    (hsnap : s'.snapStore = s.snapStore) (hla : s'.lastApplied = s.lastApplied)
    (hap : s'.applying = s.applying) (hle : s.commitIndex ≤ s'.commitIndex)
    (hlen : s'.commitIndex ≤ s'.log.lastIndex)
    (hes : ∀ {i stop}, s.applying = some (i, stop) → i < stop → i < s.log.lastIncludedIndex →
      ∀ e ∈ es, s.log.lastIncludedIndex < e.index) : Indices s' := by
  have hli : s.log.lastIncludedIndex ≤ s.commitIndex := h.boundary.le.trans h.snap
  have hreach : s.log.lastIncludedIndex ≤ (s.log.appendEntries true es).1.lastIndex :=
    hlog ▸ (hli.trans hle).trans hlen
  obtain ⟨hf, hli'⟩ := h.log.appendEntries hreach
  refine h.write hsnap hla hap hle hlen (hlog ▸ hf) (hlog ▸ hli') fun hap hlt hlt' e he => ?_
  rw [hlog] at he
  exact (PersistentLog.mem_tailCache_appendEntries he).symm.imp_right (hes hap hlt hlt' e)

theorem act (h : Indices s) (hm : s.Moves me a s') : Indices s' := by
  have hb := h.toBounded.act hm
  cases hm with
  | stay hlog hsame => exact h.ballot hsame (.inl hlog)
  | stand hlog hsame => exact h.ballot hsame (.inr ⟨_, _, hlog⟩)
  | @grow e s' a he hlog hsame =>
    refine h.append hlog hsame.snapStore hsame.lastApplied hsame.applying hsame.commitIndex.ge ?_ ?_
    · rw [hlog, hsame.commitIndex]
      show s.commitIndex ≤ e.index
      have := h.commit
      omega
    · intro i stop _ _ _ e' he'
      cases List.mem_singleton.mp he'
      have := h.log.le
      omega
  | commit _ hlt _ hterm =>
    exact h.write rfl rfl rfl hlt.le (h.log.le_of_termAt hterm) h.log rfl fun _ _ _ _ => .inl
  | begin =>
    refine ⟨hb, h.log, h.boundary, h.snapApplied, h.commit, fun hap _ => ?_⟩
    cases hap
    exact .inl rfl
  | halt => exact ⟨hb, h.log, h.boundary, h.snapApplied, h.commit, nofun⟩
  | @apply i stop e a hap hlt hg =>
    obtain ⟨hla, hc, hap', hstore⟩ := applyOne_spec me s (i + 1) stop e
    have heq := h.eq_of_get hap hlt hg
    have hstale {s' : Node} (h₁ : s'.applying = some (i + 1, stop)) (h₂ : s'.lastApplied = i + 1)
        {j stop'} (h' : s'.applying = some (j, stop')) : j = s'.lastApplied := by
      rw [h₁] at h'; cases h'; exact h₂.symm
    rcases hstore with ⟨hlog, hsnap⟩ | ⟨snap, t, hold, -, hlog, hsnap⟩
    · refine ⟨hb, hlog ▸ h.log, ?_, ?_, ?_, fun h' _ => .inl (hstale hap' hla h')⟩
      · rw [hlog, snapIndex, hsnap]; exact h.boundary
      · rw [snapIndex, hsnap, hla]
        have := h.snapApplied
        exact (this.trans heq.ge).trans (Nat.le_succ i)
      · rw [hlog, hc]; exact h.commit
    · have hlt' : s.log.lastIncludedIndex < i + 1 := by
        rw [h.boundary, snapIndex]
        cases hst : s.snapStore with
        | none => exact Nat.succ_pos i
        | some st => exact hold st hst
      obtain ⟨hf, hli, hle⟩ := PersistentLog.Framed.compactPrefix (t := t) hlt'
      refine ⟨hb, hlog ▸ hf, ?_, ?_, ?_, fun h' _ => .inl (hstale hap' hla h')⟩
      · rw [hlog, hli, snapIndex, hsnap]; rfl
      · rw [snapIndex, hsnap, hla]; rfl
      · rw [hlog, hc]; exact h.commit.trans hle
  | restart =>
    have hf : (openPersistentLog s.log.engine).Framed := .reopen
    have hli : (openPersistentLog s.log.engine).lastIncludedIndex = s.snapIndex :=
      h.log.engine.trans h.boundary
    have hc := s.newNode_commitIndex
    refine ⟨hb, hf, hli, ?_, ?_, nofun⟩
    · exact hc.ge
    · rw [hc, ← hli]; exact hf.le

theorem retreats (h : Indices s) (hret : s.Retreats s' t) : Indices s' := by
  refine h.ballot hret.toSameIndices ?_
  rw [hret.log]
  split
  · exact .inr ⟨t, "", rfl⟩
  · exact .inl rfl

/-- The entries of an accepted request lie above the boundary, as far as an overtaken apply loop
is concerned. -/
theorem lt_index (h : Indices s) (href : refusal s.log req = none)
    (hcons : Consecutive (req.prevLogIndex + 1) req.entries)
    (hstale : req.prevLogIndex = 0 → req.entries ≠ [] →
      ∀ ap ∈ s.applying, ap.1 < ap.2 → s.log.lastIncludedIndex ≤ ap.1)
    (hap : s.applying = some (i, stop)) (hrun : i < stop) (hlt : i < s.log.lastIncludedIndex)
    (he : e ∈ req.entries) : s.log.lastIncludedIndex < e.index := by
  have hprev : s.log.lastIncludedIndex ≤ req.prevLogIndex := by
    rcases refusal_none href with h0 | ht
    · exact ((hstale h0 (List.ne_nil_of_mem he) _ hap hrun).not_gt hlt).elim
    · unfold PersistentLog.termAt at ht
      split at ht
      · omega
      · split at ht
        · cases ht
        · next hin => rw [h.log.firstIndex] at hin; omega
  obtain ⟨k, hk⟩ := List.mem_iff_getElem?.mp he
  rw [hcons k e hk]
  omega

theorem receive (h : Indices s)
    (hcons : ∀ {caller req}, env.body = .appendReq caller req →
      Consecutive (req.prevLogIndex + 1) req.entries)
    (hstale : ∀ {caller req}, env.body = .appendReq caller req → s.NotStale req)
    (hsnap : ∀ {req}, env.body = .snapReq req → s.InstallsAhead req)
    (hout : s.Outcome env ef) (hlen : s.commitIndex ≤ ef.node.log.lastIndex) :
    Indices ef.node := by
  have hb := h.toBounded.receive hsnap hout
  have hle := hout.commitIndex_le hsnap
  cases hout with
  | quiet _ hret => obtain ⟨t, hret⟩ := hret; exact h.retreats hret
  | vote _ hmeet =>
    exact (h.retreats hmeet.retreats).ballot ⟨rfl, rfl, rfl, rfl⟩ (.inr ⟨_, _, rfl⟩)
  | @append src dst ep caller req s₁ s' msgs hterm hmeet hcand href hs hops =>
    have h₁ := h.retreats hmeet.retreats
    have hc₁ : s₁.commitIndex = s.commitIndex := hmeet.retreats.commitIndex
    have hcommit : s'.commitIndex = max s₁.commitIndex (min req.leaderCommit s'.log.lastIndex) := by
      rw [hs, followCommit_commitIndex, followCommit_eq]
    rw [followCommit_eq] at hs
    refine h₁.append (by rw [hs]) (by rw [hs]) (by rw [hs]) (by rw [hs]) (hc₁.le.trans hle) ?_ ?_
    · rw [hcommit, hc₁]
      exact max_le hlen (min_le_right ..)
    · intro i stop hap hrun hlt e he
      refine h₁.lt_index ((hmeet.refusal req).trans href) (hcons rfl) ?_ hap hrun hlt he
      rw [hmeet.retreats.applying, hmeet.boundary.1]
      exact hstale rfl hterm
  | @install src dst ep req s₁ s' snap msgs hterm hmeet hrole hinst hs hops =>
    subst hs
    refine ⟨hb, .restoreSnapshotBoundary, rfl, le_rfl, le_rfl, fun {i stop} hap _ => ?_⟩
    have hap' : s.applying = some (i, stop) := hmeet.retreats.applying.symm.trans hap
    obtain ⟨h₁, h₂⟩ := h.loop hap'
    have h₃ : s.commitIndex ≤ req.lastIncludedIndex := hsnap rfl hinst
    rcases (h₁.trans (h₂.trans h₃)).eq_or_lt with heq | hlt
    · exact .inl heq
    · exact .inr ⟨hlt, nofun⟩

/-- Neither index goes back, except in a restart. -/
theorem act_le (h : Indices s) (hm : s.Moves me a s') (ha : a ≠ .restart) :
    s.commitIndex ≤ s'.commitIndex ∧ s.lastApplied ≤ s'.lastApplied := by
  refine ⟨hm.commitIndex_le ha, ?_⟩
  cases hm with
  | stay _ hsame | stand _ hsame | grow _ _ hsame => exact hsame.lastApplied.ge
  | commit | begin | halt => exact le_rfl
  | apply hap hlt hg =>
    rw [(applyOne_spec ..).1, ← h.eq_of_get hap hlt hg]
    exact Nat.le_succ _
  | restart => exact (ha rfl).elim

theorem receive_le (h : Indices s)
    (hsnap : ∀ {req}, env.body = .snapReq req → s.InstallsAhead req) (hout : s.Outcome env ef) :
    s.commitIndex ≤ ef.node.commitIndex ∧ s.lastApplied ≤ ef.node.lastApplied := by
  refine ⟨hout.commitIndex_le hsnap, ?_⟩
  cases hout with
  | quiet _ hret => obtain ⟨t, hret⟩ := hret; exact hret.lastApplied.ge
  | vote _ hmeet => exact hmeet.retreats.lastApplied.ge
  | append _ hmeet _ _ hs =>
    rw [hs, followCommit_eq]
    exact hmeet.retreats.lastApplied.ge
  | install _ _ _ hinst hs =>
    rw [hs]
    exact h.applied.trans (hsnap rfl hinst)

end Indices

/-- The log reaches the commit index after a message that covers it. -/
theorem Indices.commit_le (h : Indices s)
    (hcov : ∀ {caller req}, env.body = .appendReq caller req → s.Covers req)
    (hsnap : ∀ {req}, env.body = .snapReq req → s.InstallsAhead req)
    (hout : s.Outcome env ef) : s.commitIndex ≤ ef.node.log.lastIndex := by
  have keep {s₁ t} (hret : s.Retreats s₁ t) : s₁.log.lastIndex = s.log.lastIndex := by
    rw [hret.log]; split <;> rfl
  cases hout with
  | quiet _ hret => obtain ⟨t, hret⟩ := hret; exact keep hret ▸ h.commit
  | vote _ hmeet => exact (keep hmeet.retreats).symm ▸ h.commit
  | @append src dst ep caller req s₁ s' msgs hterm hmeet hcand href hs hops =>
    rw [hs, followCommit_eq]
    show _ ≤ (s₁.log.appendEntries true req.entries).1.lastIndex
    rw [PersistentLog.appendEntries_lastIndex]
    cases hlast : req.entries.getLast? with
    | none => exact (keep hmeet.retreats).symm ▸ h.commit
    | some last => exact hcov rfl hterm href last hlast
  | install _ _ _ hinst hs =>
    rw [hs]
    exact hsnap rfl hinst

end Node

/-! ## Entries in flight -/

/-- The entries of a request stand right after its previous entry. -/
def AdjacentMsg (env : Envelope) : Prop :=
  ∀ {caller req}, env.body = .appendReq caller req → Consecutive (req.prevLogIndex + 1) req.entries

theorem Node.Acts.adjacent {s : Node} (ha : s.Acts me a ef) (hlog : 0 < s.log.firstIndex) :
    ∀ env ∈ ef.msgs, AdjacentMsg env := by
  intro env henv caller req hbody
  cases ha.emits henv with
  | voteReq | snapReq => cases hbody
  | appendReq hp hreq =>
    cases hbody
    have hsends : Node.Sends .. := Node.replicateToPeer_spec hreq
    have hnext := hsends.next
    rw [hsends.prevLogIndex, Nat.sub_add_cancel (by omega)]
    rcases hsends.entries with hnil | ⟨-, hr⟩
    · rw [hnil]; intro i e he; simp at he
    · exact PersistentLog.range_consecutive hr
  | heartbeat =>
    cases hbody
    intro i e he; simp [Node.heartbeat] at he

theorem Node.Receives.adjacent {s : Node} (hrec : s.Receives me env ef) :
    ∀ env' ∈ ef.msgs, AdjacentMsg env' := by
  intro env' henv' caller req hbody
  cases hrec.replies henv' with
  | voteReq | appendReq | snapReq => cases hbody

/-! ## Runs -/

/-- A step whose message does not set back what has been applied. -/
def Forward (c : Cluster) (a : Action) : Prop :=
  OnAppend Node.NotStale c a ∧ OnSnapshot Node.InstallsAhead c a

instance : Decidable (Forward c a) := inferInstanceAs (Decidable (_ ∧ _))

/-- A step whose message does not set the indices back. -/
def InOrder (c : Cluster) (a : Action) : Prop := OnAppend Node.Covers c a ∧ Forward c a

instance : Decidable (InOrder c a) := inferInstanceAs (Decidable (_ ∧ _))

def indices : LocalInv := ⟨fun _ _ s => s.Indices, fun _ env => AdjacentMsg env⟩

/-- The indices are in order in runs that go forward, if messages leave the log as long as the
commit index says. -/
theorem Shadow.indices (h : Shadow cfg ok tr c r) (hok : ∀ {c a}, ok c a → Forward c a)
    (hlen : ∀ {tr c r k env ef}, Shadow cfg ok tr c r → ok c (.deliver k) →
      c.network[k]? = some env → (c.node env.dst).receive (cfg.member env.dst) env = ef →
      (c.node env.dst).Indices → (c.node env.dst).commitIndex ≤ ef.node.log.lastIndex) :
    indices.Holds c r := by
  induction h with
  | init =>
    exact ⟨fun n => ⟨⟨le_rfl, le_rfl, nofun⟩, ⟨rfl, rfl, le_rfl⟩, rfl, le_rfl, le_rfl, nofun⟩,
      by simp [Cluster.init]⟩
  | @step tr c r a c' evs hsh hoka hs H =>
    cases Cluster.step_inv hs with
    | @act n a ef hn ha =>
      have h₁ : (c.node n).Indices := H.node n
      refine H.after (List.Subset.refl _) (h₁.act ha.moves) (ha.adjacent ?_)
        (fun _ _ h => h) fun _ _ h => h
      rw [h₁.log.firstIndex]; exact Nat.succ_pos _
    | @deliver k env ef henv hef hrec =>
      have h₁ : (c.node env.dst).Indices := H.node env.dst
      exact H.after (List.eraseIdx_subset ..)
        (h₁.receive (H.msg env (List.mem_of_getElem? henv)) ((hok hoka).1.of_deliver henv)
          ((hok hoka).2.of_deliver henv) hrec.outcome (hlen hsh hoka henv hef h₁))
        hrec.adjacent (fun _ _ h => h) fun _ _ h => h
    | drop => exact H.drop _

/-- None of the indices goes back between restarts. -/
theorem Cluster.indices_le {c : Cluster} (H : ∀ n, (c.node n).Indices) (hok : Forward c a)
    (hs : c.step cfg a = some (c', evs)) (hne : a ≠ .act n .restart) :
    (c.node n).commitIndex ≤ (c'.node n).commitIndex ∧
      (c.node n).lastApplied ≤ (c'.node n).lastApplied := by
  cases Cluster.step_changes hs n with
  | same heq => rw [heq]; exact ⟨le_rfl, le_rfl⟩
  | act ha _ hacts heq =>
    rw [heq]
    exact (H n).act_le hacts.moves fun h' => hne (h' ▸ ha)
  | receive ha henv hdst hrec heq =>
    subst ha hdst
    rw [heq]
    exact (H _).receive_le (hok.2.of_deliver henv) hrec.outcome

/-- **The indices are in order**, and none goes back between restarts. -/
theorem indices_ordered (h : Run cfg InOrder tr c) :
    (∀ n, (c.node n).lastApplied ≤ (c.node n).commitIndex ∧
      (c.node n).commitIndex ≤ (c.node n).log.lastIndex) ∧
    ∀ a c' evs, InOrder c a → c.step cfg a = some (c', evs) → ∀ n, a ≠ .act n .restart →
      (c.node n).commitIndex ≤ (c'.node n).commitIndex ∧
      (c.node n).lastApplied ≤ (c'.node n).lastApplied := by
  obtain ⟨r, h⟩ := h.shadow
  have hlen {tr c r k env ef} (_ : Shadow cfg InOrder tr c r) (hok : InOrder c (.deliver k))
      (henv : c.network[k]? = some env)
      (hef : (c.node env.dst).receive (cfg.member env.dst) env = ef)
      (h₁ : (c.node env.dst).Indices) : (c.node env.dst).commitIndex ≤ ef.node.log.lastIndex := by
    subst hef
    exact h₁.commit_le (hok.1.of_deliver henv) (hok.2.2.of_deliver henv)
      (Node.receive_inv ..).outcome
  have H (n) : (c.node n).Indices := (h.indices And.right hlen).node n
  exact ⟨fun n => ⟨(H n).applied, (H n).commit⟩,
    fun a c' evs hok hs n hne => Cluster.indices_le H hok.2 hs hne⟩

/-- A follower commits, applies and takes a snapshot, and its indices do not go back. -/
theorem indices_ordered_trio : ∃ tr c, Run (trio 1) InOrder tr c ∧
    (c.node "n2").lastApplied = 1 ∧ (c.node "n2").commitIndex = 1 ∧
    (c.node "n2").commitIndex ≤ (c.node "n2").log.lastIndex ∧
    ∀ c' evs, InOrder c (.deliver 1) → c.step (trio 1) (.deliver 1) = some (c', evs) →
      (c.node "n2").commitIndex ≤ (c'.node "n2").commitIndex := by
  have hx : Cluster.init.Reaches (trio 1) InOrder []
      (electBy "n1" 0 ++
        ([.drop 0, .act "n1" (.replicate "n2"), .deliver 0, .deliver 0,
          .act "n1" .tryAdvanceCommitIndex, .act "n1" (.replicate "n2"), .deliver 0,
          .act "n2" .applyBegin, .act "n2" .applyNext, .act "n1" (.propose .put "k" [] ""),
          .act "n1" (.replicate "n2")] : List Action))
      fun c _ => (c.node "n2").lastApplied = 1 ∧ (c.node "n2").commitIndex = 1 := by decide +kernel
  obtain ⟨c, tr, h, ha, hc⟩ := hx.run
  obtain ⟨ho, hle⟩ := indices_ordered h
  exact ⟨tr, c, h, ha, hc, (ho "n2").2, fun c' evs hok hs => (hle _ c' evs hok hs "n2" nofun).1⟩

/-- A request with the first of two committed entries arrives late. -/
theorem indices_ordered_fails : ∃ tr c, Run (trio 0) unrestricted tr c ∧
    ¬(c.node "n2").commitIndex ≤ (c.node "n2").log.lastIndex := by
  have hx : Cluster.init.Reaches (trio 0) unrestricted []
      (electBy "n1" 0 ++
        ([.drop 0, .act "n1" (.replicate "n2"), .act "n1" (.propose .put "k" [] ""),
          .act "n1" (.replicate "n2"), .deliver 1, .deliver 1, .act "n1" .tryAdvanceCommitIndex,
          .act "n1" (.replicate "n2"), .deliver 1, .deliver 0] : List Action))
      fun c _ => ¬(c.node "n2").commitIndex ≤ (c.node "n2").log.lastIndex := by decide +kernel
  obtain ⟨c, tr, h, hc⟩ := hx.run
  exact ⟨tr, c, h, hc⟩

end DistributedKV.Raft
