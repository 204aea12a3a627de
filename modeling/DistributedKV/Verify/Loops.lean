import DistributedKV.Raft.Loops
import DistributedKV.Verify.Races
import DistributedKV.Verify.Recovery

/-!
# No lost wake-up

The signal of a commit is sent after the critical section, it is dropped when the channel is full,
and the loop takes a signal before it reads `commitIndex`. In any interleaving of these, committed
entries that have not been applied have a signal in the channel, a call that is about to send one,
or a pass of the loop that has read the present `commitIndex` or is about to (`no_lost_wakeup`): the
ticker of the loop is not needed for them. It is needed after a pass that a storage failure has
ended, and when `HandleInstallSnapshot` moves the indices under a pass; such steps are excluded.
-/

namespace DistributedKV.Raft

open Theory

variable {me : Member} {n n' : Node} {o : StorageOutcome} {t t' : Task}

/-! ## The indices -/

/-- Only the marking of an applied entry and a snapshot that is installed change `lastApplied`, and
without them `commitIndex` changes with a signal only. -/
theorem Task.effect_indices (me : Member) (o : StorageOutcome) (n : Node)
    (hmark : ∀ applied commit, t ≠ .applyMark applied commit)
    (hinstall : ∀ req, t ≠ .installIndices req) :
    (t.effect me o n).lastApplied = n.lastApplied ∧
      (t.signals me o n = false → (t.effect me o n).commitIndex = n.commitIndex) := by
  cases t with
  | applyMark applied commit => exact absurd rfl (hmark applied commit)
  | installIndices req => exact absurd rfl (hinstall req)
  | becomeFollower =>
    dsimp only [Task.effect, Node.becomeFollowerLocked]
    split <;> exact ⟨rfl, fun _ => rfl⟩
  | becomeLeader =>
    dsimp only [Task.effect, Node.becomeLeaderLocked]
    split <;> exact ⟨rfl, fun _ => rfl⟩
  | propose =>
    dsimp only [Task.effect, Node.proposeLocked]
    split
    · exact ⟨rfl, fun _ => rfl⟩
    · split <;> exact ⟨rfl, fun _ => rfl⟩
  | handleRequestVote =>
    dsimp only [Task.effect, Node.handleRequestVoteLocked, Node.stepDownWith,
      Node.failStaleWritersLocked, Node.setTermAndVoteWith]
    (repeat' split) <;> exact ⟨rfl, fun _ => rfl⟩
  | handleAppendEntries req =>
    have hsame := Task.effect_sameState (t := .handleAppendEntries req) me o n
      (by simp [Task.inCall]) (by simp [Task.inCall])
    refine ⟨hsame.lastApplied, fun _ => ?_⟩
    dsimp only [Task.effect]
    split
    · rfl
    · exact Node.handleAppendEntriesLocked_commitIndex ..
  | commitSet req =>
    have hsame := Task.effect_sameState (t := .commitSet req) me o n (by simp [Task.inCall])
      (by simp [Task.inCall])
    refine ⟨hsame.lastApplied, fun hs => ?_⟩
    have hle : ¬ n.commitIndex < (n.commitLocked req.leaderCommit).commitIndex :=
      of_decide_eq_false hs
    dsimp only [Task.effect, Node.commitLocked] at hle ⊢
    split at hle
    · next hlt => exact absurd hlt hle
    · next hge => rw [if_neg hge]
  | installRestore | applyEntry =>
    dsimp only [Task.effect]
    split <;> exact ⟨rfl, fun _ => rfl⟩
  | replicated peerID req resp =>
    dsimp only [Task.effect]
    split
    · exact ⟨rfl, fun _ => rfl⟩
    · next hle =>
      rw [Node.replicated_eq]; simp only [hle, if_false]; exact ⟨trivial, fun _ => trivial⟩
  | snapshotInstalled peerID req resp =>
    dsimp only [Task.effect]
    split
    · exact ⟨rfl, fun _ => rfl⟩
    · next hle =>
      rw [Node.snapshotInstalled_eq]; simp only [hle, if_false]; exact ⟨trivial, fun _ => trivial⟩
  | tryAdvanceCommitIndex term =>
    have hsame := Task.effect_sameState (t := .tryAdvanceCommitIndex term) me o n
      (by simp [Task.inCall]) (by simp [Task.inCall])
    refine ⟨hsame.lastApplied, fun hs => ?_⟩
    have hle : ¬ n.commitIndex < (n.tryAdvanceCommitIndex me term).commitIndex :=
      of_decide_eq_false hs
    dsimp only [Task.effect]
    rcases n.tryAdvanceCommitIndex_cases me term with h | ⟨-, hlt, -, h⟩ <;> rw [h] at hle ⊢
    exact absurd hlt hle
  | _ => exact ⟨rfl, fun _ => rfl⟩

/-- A call that signals has returned otherwise. -/
theorem Task.next_of_signals (h : t.signals me o n = true) : ∃ r, t.next me o n = .inr r := by
  cases t with
  | commitSet | tryAdvanceCommitIndex => exact ⟨_, rfl⟩
  | _ => cases h

/-! ## A pass of the loop -/

namespace Task

/-- The local variable `applied` of a pass agrees with the node. -/
def Keeps (n : Node) : Task → Prop
  | .applyCommitted => True
  | .applyEntry applied _ _ | .applyMark applied _ => applied = n.lastApplied + 1
  | .applyNext applied _ | .snapLoad applied _ | .snapTerm applied _ | .snapDump applied _ _
  | .snapSave applied _ _ _ | .snapCompact applied _ _ => applied = n.lastApplied
  | _ => False

/-- The pass goes on up to `i`: it has not read `commitIndex` yet, or has read at least that. -/
def covers (i : ℕ) : Task → Bool
  | .applyCommitted => true
  | .applyEntry _ commit _ | .applyMark _ commit | .applyNext _ commit | .snapLoad _ commit
  | .snapTerm _ commit | .snapDump _ commit _ | .snapSave _ commit _ _
  | .snapCompact _ commit _ => i ≤ commit
  | _ => false

/-- The storage calls of the pass succeed. -/
def succeeds (o : StorageOutcome) (n : Node) : Task → Bool
  | .applyNext applied commit => applied < commit → (n.log.get (applied + 1)).toBool
  | .applyEntry _ _ e => o.commit ∨ e.type = .noop
  | _ => true

theorem Keeps.effect_indices (me : Member) (o : StorageOutcome) (h : t.Keeps n) :
    n.lastApplied ≤ (t.effect me o n).lastApplied ∧
      (t.effect me o n).commitIndex = n.commitIndex := by
  by_cases hmark : ∃ applied commit, t = .applyMark applied commit
  · obtain ⟨applied, commit, rfl⟩ := hmark
    obtain rfl : applied = n.lastApplied + 1 := h
    refine ⟨(Nat.le_succ _).trans_eq (n.markApplied_state _).2.2.1.symm, ?_⟩
    dsimp only [Task.effect, Node.markApplied]
    rw [Node.notifyWritersLocked_eq]
    rfl
  · have hinstall (req : InstallSnapshotRequest) : t ≠ .installIndices req := by
      rintro rfl
      exact h
    have hsig : t.signals me o n = false := by
      cases t with
      | commitSet | tryAdvanceCommitIndex => exact h.elim
      | _ => rfl
    obtain ⟨hlast, hcommit⟩ := Task.effect_indices me o n
      (fun applied commit ht => hmark ⟨applied, commit, ht⟩) hinstall
    exact ⟨hlast.ge, hcommit hsig⟩

/-- A step of a pass that succeeds keeps `applied`, and goes on to where as much is covered. -/
theorem Keeps.next (h : t.Keeps n) (ht : t.next me o n = .inl t') :
    t'.Keeps (t.effect me o n) ∧ (t.covers n.commitIndex → t'.covers n.commitIndex) := by
  cases t with
  | applyCommitted => cases ht; exact ⟨rfl, fun _ => decide_eq_true le_rfl⟩
  | applyNext applied commit =>
    obtain rfl : applied = n.lastApplied := h
    dsimp only [Task.next] at ht
    split at ht
    · split at ht <;> cases ht
      exact ⟨rfl, id⟩
    · cases ht
  | applyEntry applied commit e =>
    obtain rfl : applied = n.lastApplied + 1 := h
    dsimp only [Task.next, Task.effect] at ht ⊢
    split at ht <;> cases ht
    refine ⟨?_, id⟩
    split <;> rfl
  | applyMark applied commit =>
    obtain rfl : applied = n.lastApplied + 1 := h
    have hlast : (n.markApplied (n.lastApplied + 1)).lastApplied = n.lastApplied + 1 :=
      (n.markApplied_state _).2.2.1
    dsimp only [Task.next, Task.effect] at ht ⊢
    split at ht <;> cases ht <;> exact ⟨hlast.symm, id⟩
  | snapLoad | snapTerm | snapSave =>
    dsimp only [Task.next] at ht
    split at ht <;> cases ht <;> exact ⟨h, id⟩
  | snapDump | snapCompact => cases ht; exact ⟨h, id⟩
  | _ => exact h.elim

/-- A pass that succeeds ends when everything it covers has been applied. -/
theorem Keeps.returns (h : t.Keeps n) (hs : t.succeeds o n) (ht : t.next me o n = .inr r)
    (hc : t.covers n.commitIndex) : n.commitIndex ≤ n.lastApplied := by
  cases t with
  | applyNext applied commit =>
    obtain rfl : applied = n.lastApplied := h
    dsimp only [Task.next] at ht
    split at ht
    · next hlt =>
      have hget : (n.log.get (n.lastApplied + 1)).toBool = true := of_decide_eq_true hs hlt
      split at ht
      · cases ht
      · next he => rw [he] at hget; cases hget
    · next hge => exact (of_decide_eq_true hc).trans (Nat.le_of_not_lt hge)
  | applyEntry applied commit e =>
    have hok : o.commit ∨ e.type = .noop := of_decide_eq_true hs
    dsimp only [Task.next] at ht
    rw [if_pos hok] at ht
    cases ht
  | applyMark | snapLoad | snapTerm | snapSave =>
    dsimp only [Task.next] at ht
    split at ht <;> cases ht
  | applyCommitted | snapDump | snapCompact => cases ht
  | _ => exact h.elim

end Task

/-! ## Schedules -/

abbrev LoopPool := Pool RunningNode Goroutine
abbrev LoopTurn := Turn Goroutine LoopInput Options

namespace Goroutine

def isLoop : Goroutine → Bool
  | .applyLoop | .applying _ => true
  | _ => false

def isApplying : Goroutine → Bool
  | .applying _ => true
  | _ => false

theorem isLoop_symm {g u : Goroutine} (h : g.isLoop → u.isLoop = false) (hu : u.isLoop) :
    g.isLoop = false := by
  cases hg : g.isLoop with
  | false => rfl
  | true => rw [h hg] at hu; cases hu

theorem isApplying_of_isLoop (g : Goroutine) (h : g.isLoop = false) : g.isApplying = false := by
  cases g with
  | applying => cases h
  | call | signalCommitAdvanced | applyLoop => rfl

/-- No storage call fails in a pass of the loop, and no snapshot is installed during a pass. -/
def undisturbed (p : LoopPool) (o : StorageOutcome) : Goroutine → Bool
  | .call (.installIndices _) => p.tasks.all fun g => !g.isApplying
  | .applying t => t.succeeds o p.state.process.node
  | _ => true

end Goroutine

/-- The process starts the loop once, and only the loop calls `applyCommitted`. -/
def Scheduled (p : LoopPool) : LoopTurn → Prop
  | .call (.call t) => t.IsCall ∧ t.isApply = false
  | .call .applyLoop => ∀ g ∈ p.tasks, g.isLoop = false
  | .call _ => False
  | .run k i => ∀ g ∈ p.tasks[k]?, g.undisturbed p i.storage
  | .crash _ => True

instance (p : LoopPool) (a : LoopTurn) : Decidable (Scheduled p a) :=
  match a with
  | .call (.call _) => inferInstanceAs (Decidable (_ ∧ _))
  | .call .applyLoop => inferInstanceAs (Decidable (∀ g ∈ p.tasks, _))
  | .call (.signalCommitAdvanced _) | .call (.applying _) => inferInstanceAs (Decidable False)
  | .run k _ => inferInstanceAs (Decidable (∀ g ∈ p.tasks[k]?, _))
  | .crash _ => inferInstanceAs (Decidable True)

/-! ## The outline -/

/-- The loop is going to see the present `commitIndex`: a signal is in the channel, a call is about
to send one, or a pass of the loop covers it. -/
def Noticed (s : RunningNode) (gs : List Goroutine) : Prop :=
  s.commitAdvanced = true ∨ (∃ r, .signalCommitAdvanced r ∈ gs) ∨
    ∃ t, .applying t ∈ gs ∧ t.covers s.process.node.commitIndex

theorem Noticed.mono {s s' : RunningNode} (h : Noticed s gs) (hsub : gs ⊆ gs')
    (hch : s'.commitAdvanced = s.commitAdvanced)
    (hcommit : s'.process.node.commitIndex = s.process.node.commitIndex) : Noticed s' gs' := by
  unfold Noticed
  rw [hch, hcommit]
  rcases h with h | ⟨r, hr⟩ | ⟨t, ht, hc⟩
  · exact .inl h
  · exact .inr (.inl ⟨r, hsub hr⟩)
  · exact .inr (.inr ⟨t, hsub ht, hc⟩)

/-- What a call or the loop at its `select` does for this is nothing. -/
theorem Noticed.others {s : RunningNode} (h : Noticed s (l₁ ++ g :: l₂))
    (hg : (∃ t, g = .call t) ∨ g = .applyLoop) : Noticed s (l₁ ++ l₂) := by
  have hmem (u : Goroutine) (hu : u ∈ l₁ ++ g :: l₂) (hne : u ≠ g) : u ∈ l₁ ++ l₂ := by
    simp only [List.mem_append, List.mem_cons] at hu ⊢
    tauto
  rcases h with h | ⟨r, hr⟩ | ⟨t, ht, hc⟩
  · exact .inl h
  · refine .inr (.inl ⟨r, hmem _ hr ?_⟩)
    rintro rfl
    simp at hg
  · refine .inr (.inr ⟨t, hmem _ ht ?_, hc⟩)
    rintro rfl
    simp at hg

/-- A pass that is the only one covers `commitIndex`, or the others are enough. -/
theorem Noticed.of_applying {s : RunningNode} (h : Noticed s (l₁ ++ .applying t :: l₂))
    (hone : ∀ g ∈ l₁ ++ l₂, g.isLoop = false) :
    Noticed s (l₁ ++ l₂) ∨ t.covers s.process.node.commitIndex := by
  rcases h with h | ⟨r, hr⟩ | ⟨u, hu, hc⟩
  · exact .inl (.inl h)
  · exact .inl (.inr (.inl ⟨r, by simpa using hr⟩))
  · by_cases hut : u = t
    · exact .inr (hut ▸ hc)
    · have hmem : Goroutine.applying u ∈ l₁ ++ l₂ := by simpa [hut] using hu
      cases hone _ hmem

/-- Where a goroutine stands. -/
def Goroutine.Stands (s : RunningNode) : Goroutine → Prop
  | .call t => t.isApply = false
  | .applying t => t.Keeps s.process.node
  | _ => True

def wakeups : Outline RunningNode Goroutine LoopInput Options where
  shared _ p := p.state.process.node.commitIndex ≤ p.state.process.node.lastApplied ∨
    Noticed p.state p.tasks
  here _ s g := g.Stands s
  apart g u := g.isLoop → u.isLoop = false

theorem Task.Keeps.of_lastApplied (h : t.Keeps n) (hn : n'.lastApplied = n.lastApplied) :
    t.Keeps n' := by
  cases t with
  | applyCommitted | applyEntry | applyMark | applyNext | snapLoad | snapTerm | snapDump | snapSave
  | snapCompact => unfold Task.Keeps at h ⊢; rw [hn]; exact h
  | _ => exact h.elim

theorem Goroutine.Stands.of_lastApplied {s s' : RunningNode} {g : Goroutine} (h : g.Stands s)
    (hn : s'.process.node.lastApplied = s.process.node.lastApplied) : g.Stands s' := by
  cases g with
  | applying t => exact Task.Keeps.of_lastApplied h hn
  | call | signalCommitAdvanced | applyLoop => exact h

theorem Goroutine.Stands.of_not_applying {s s' : RunningNode} {g : Goroutine} (h : g.Stands s)
    (ha : g.isApplying = false) : g.Stands s' := by
  cases g with
  | applying => cases ha
  | call | signalCommitAdvanced | applyLoop => exact h

/-- What a step leaves behind, with the goroutines that do not move in `l₁` and `l₂`. -/
structure Leaves (l₁ l₂ : List Goroutine) (s' : RunningNode) (n : Goroutine ⊕ Result)
    (loop : Bool) : Prop where
  shared : s'.process.node.commitIndex ≤ s'.process.node.lastApplied ∨
    Noticed s' (l₁ ++ (Sum.getLeft? n).toList ++ l₂)
  others : ∀ g ∈ l₁ ++ l₂, g.Stands s'
  next : ∀ g', n = .inl g' → g'.Stands s' ∧ (g'.isLoop → loop)

theorem subset_insert_middle (l₁ l₂ : List α) (x : α ⊕ β) :
    l₁ ++ l₂ ⊆ l₁ ++ (Sum.getLeft? x).toList ++ l₂ := by
  intro u hu
  simp only [List.mem_append] at hu ⊢
  tauto

section
variable {s s' : RunningNode} {i : LoopInput} {l₁ l₂ : List Goroutine} {x : Goroutine ⊕ Result}

/-- A call sends a signal when it has advanced `commitIndex`; an installed snapshot leaves nothing
to apply. -/
theorem leaves_call (hshared : s.process.node.commitIndex ≤ s.process.node.lastApplied ∨
      Noticed s (l₁ ++ .call t :: l₂)) (ha : t.isApply = false)
    (hothers : ∀ g ∈ l₁ ++ l₂, g.Stands s)
    (hquiet : (∃ req, t = .installIndices req) → ∀ g ∈ l₁ ++ l₂, g.isApplying = false)
    (hex : Goroutine.exec s i (.call t) = (s', x)) : Leaves l₁ l₂ s' x false := by
  by_cases hinst : ∃ req, t = .installIndices req
  · obtain ⟨req, rfl⟩ := hinst
    cases hex
    exact ⟨.inl le_rfl, fun g hg => (hothers g hg).of_not_applying (hquiet ⟨req, rfl⟩ g hg),
      by rintro _ ⟨⟩⟩
  · have hmark (applied commit : ℕ) : t ≠ .applyMark applied commit := by
      rintro rfl
      simp [Task.isApply, Task.inCall] at ha
    obtain ⟨hlast, hcommit⟩ := Task.effect_indices s.process.me i.storage s.process.node hmark
      fun req h => hinst ⟨req, h⟩
    have hs' : s' = { s with process := (threads.exec s.process t i.storage).1 } :=
      (congrArg Prod.fst hex).symm
    replace hlast : s'.process.node.lastApplied = s.process.node.lastApplied := by
      rw [hs']; exact hlast
    have hothers' : ∀ g ∈ l₁ ++ l₂, g.Stands s' := fun g hg => (hothers g hg).of_lastApplied hlast
    cases hsig : t.signals s.process.me i.storage s.process.node with
    | true =>
      obtain ⟨r, hr⟩ := Task.next_of_signals hsig
      obtain rfl : .inl (.signalCommitAdvanced r) = x := by
        simpa only [Goroutine.exec, threads, hr, hsig, if_true] using congrArg Prod.snd hex
      refine ⟨.inr (.inr (.inl ⟨r, by simp⟩)), hothers', ?_⟩
      rintro _ ⟨⟩
      exact ⟨trivial, by rintro ⟨⟩⟩
    | false =>
      replace hcommit : s'.process.node.commitIndex = s.process.node.commitIndex := by
        rw [hs']; exact hcommit hsig
      have hch : s'.commitAdvanced = s.commitAdvanced := by rw [hs']
      refine ⟨hshared.imp (fun h => by rwa [hcommit, hlast]) fun h =>
        (h.others (.inl ⟨t, rfl⟩)).mono (subset_insert_middle l₁ l₂ x) hch hcommit, hothers', ?_⟩
      rintro g' rfl
      cases hnext : t.next s.process.me i.storage s.process.node with
      | inl t' =>
        obtain rfl : .call t' = g' := Sum.inl.inj (by
          simpa only [Goroutine.exec, threads, hnext] using congrArg Prod.snd hex)
        exact ⟨(Task.isApply_next hnext).trans ha, by rintro ⟨⟩⟩
      | inr r =>
        have := congrArg Prod.snd hex
        simp [Goroutine.exec, threads, hnext, hsig] at this

/-- A pass goes on covering what it covers until that has been applied. -/
theorem leaves_applying (hshared : s.process.node.commitIndex ≤ s.process.node.lastApplied ∨
      Noticed s (l₁ ++ .applying t :: l₂)) (hk : t.Keeps s.process.node)
    (hothers : ∀ g ∈ l₁ ++ l₂, g.Stands s) (hone : ∀ g ∈ l₁ ++ l₂, g.isLoop = false)
    (hs : t.succeeds i.storage s.process.node)
    (hex : Goroutine.exec s i (.applying t) = (s', x)) : Leaves l₁ l₂ s' x true := by
  obtain ⟨hle, hcommit⟩ := hk.effect_indices s.process.me i.storage
  have hstand : ∀ g ∈ l₁ ++ l₂, g.Stands s' := fun g hg =>
    (hothers g hg).of_not_applying (g.isApplying_of_isLoop (hone g hg))
  cases hnext : t.next s.process.me i.storage s.process.node with
  | inl t' =>
    obtain ⟨hk', hc⟩ := hk.next hnext
    simp only [Goroutine.exec, threads, hnext] at hex
    cases hex
    refine ⟨?_, hstand, by rintro _ ⟨⟩; exact ⟨hk', fun _ => rfl⟩⟩
    rcases hshared with h | h
    · exact .inl (hcommit.trans_le (h.trans hle))
    · rcases h.of_applying hone with h | h
      · exact .inr (h.mono (subset_insert_middle ..) rfl hcommit)
      · exact .inr (.inr (.inr ⟨t', by simp, by rw [hcommit]; exact hc h⟩))
  | inr r =>
    simp only [Goroutine.exec, threads, hnext] at hex
    cases hex
    refine ⟨?_, hstand, by rintro _ ⟨⟩; exact ⟨trivial, fun _ => rfl⟩⟩
    rcases hshared with h | h
    · exact .inl (hcommit.trans_le (h.trans hle))
    · rcases h.of_applying hone with h | h
      · exact .inr (h.mono (subset_insert_middle ..) rfl hcommit)
      · exact .inl (hcommit.trans_le ((hk.returns hs hnext h).trans hle))

theorem leaves_applyLoop (hshared : s.process.node.commitIndex ≤ s.process.node.lastApplied ∨
      Noticed s (l₁ ++ .applyLoop :: l₂)) (hothers : ∀ g ∈ l₁ ++ l₂, g.Stands s)
    (hex : Goroutine.exec s i .applyLoop = (s', x)) : Leaves l₁ l₂ s' x true := by
  have hkept := hshared.imp id fun h => Noticed.others h (.inr rfl)
  dsimp only [Goroutine.exec] at hex
  split at hex
  · cases hex
    exact ⟨hkept.imp id fun h => h.mono (subset_insert_middle ..) rfl rfl, hothers,
      by rintro _ ⟨⟩⟩
  · split at hex <;> cases hex
    · exact ⟨.inr (.inr (.inr ⟨.applyCommitted, by simp, rfl⟩)), fun g hg =>
        (hothers g hg).of_lastApplied rfl, by
        rintro _ ⟨⟩; exact ⟨trivial, fun _ => rfl⟩⟩
    · exact ⟨hkept.imp id fun h => h.mono (subset_insert_middle ..) rfl rfl, hothers, by
        rintro _ ⟨⟩; exact ⟨trivial, fun _ => rfl⟩⟩
  · cases hex
    exact ⟨.inr (.inr (.inr ⟨.applyCommitted, by simp, rfl⟩)), hothers, by
      rintro _ ⟨⟩; exact ⟨trivial, fun _ => rfl⟩⟩

end

theorem wakeups_valid : wakeups.Valid goroutines Scheduled where
  symm := Goroutine.isLoop_symm
  call := by
    intro tr p g h hok
    have hkept : p.state.process.node.commitIndex ≤ p.state.process.node.lastApplied ∨
        Noticed p.state (p.tasks ++ [g]) :=
      h.shared.imp id fun hn => hn.mono (List.subset_append_left ..) rfl rfl
    cases g with
    | call t => exact ⟨hkept, hok.2, fun u hu => ⟨h.here u hu, fun _ => rfl⟩⟩
    | applyLoop =>
      exact ⟨hkept, trivial, fun u hu => ⟨h.here u hu, fun hl => by rw [hok u hu] at hl; cases hl⟩⟩
    | signalCommitAdvanced | applying => exact hok.elim
  run := by
    intro tr p g i s' l₁ l₂ x h hok ht hex
    have hrun : g.undisturbed p i.storage := hok g (by simp [ht])
    have hshared : _ ∨ Noticed p.state p.tasks := h.shared
    rw [ht] at hshared
    have hothers : ∀ u ∈ l₁ ++ l₂, u.Stands p.state := fun u hu => h.other ht hu
    have hone : ∀ u ∈ l₁ ++ l₂, g.isLoop → u.isLoop = false := fun u hu =>
      Goroutine.isLoop_symm (h.apart_other Goroutine.isLoop_symm ht hu)
    have hleaves : Leaves l₁ l₂ s' x g.isLoop := by
      cases g with
      | call t =>
        refine leaves_call hshared (h.self ht) hothers ?_ hex
        rintro ⟨req, rfl⟩ u hu
        have hmem : u ∈ p.tasks := by
          simp only [ht, List.mem_append, List.mem_cons] at hu ⊢
          tauto
        simpa using List.all_eq_true.mp hrun u hmem
      | signalCommitAdvanced r => cases hex; exact ⟨.inr (.inl rfl), hothers, by rintro _ ⟨⟩⟩
      | applyLoop => exact leaves_applyLoop hshared hothers hex
      | applying t =>
        exact leaves_applying hshared (h.self ht) hothers (fun u hu => hone u hu rfl) hrun hex
    refine ⟨hleaves.shared, hleaves.others, fun g' hg' =>
      ⟨(hleaves.next g' hg').1, fun u hu hl => ?_⟩⟩
    cases hg : g'.isLoop with
    | false => rfl
    | true =>
      have := hone u hu ((hleaves.next g' hg').2 hg)
      rw [this] at hl
      cases hl
  crash := by
    intro tr p opts s h hok hs
    obtain ⟨process, hrec, rfl⟩ := Option.map_eq_some_iff.mp hs
    obtain ⟨hlast, hcommit⟩ := recover_indices hrec
    exact .inl (hcommit.trans hlast.symm).le

/-- **No lost wake-up.** In every interleaving of the calls, the signals and the apply loop, with
crashes, committed entries that have not been applied are noticed: a signal is in the channel, a
call is about to send one, or a pass of the loop goes on up to `commitIndex`. -/
theorem no_lost_wakeup
    (h : Runs goroutines Scheduled ⟨⟨me, newNode engine sm snapStore epoch⟩, false⟩ tr p)
    (hlt : p.state.process.node.lastApplied < p.state.process.node.commitIndex) :
    Noticed p.state p.tasks := by
  have h₀ : wakeups.shared [] ⟨⟨⟨me, newNode engine sm snapStore epoch⟩, false⟩, []⟩ := by
    refine .inl ?_
    cases snapStore <;> exact le_rfl
  exact (wakeups_valid.holds h₀ h).shared.resolve_left (Nat.not_le_of_lt hlt)

/-- A second commit while the loop is in a pass that has read the first one. -/
theorem no_lost_wakeup_burst : ∃ tr p,
    Runs goroutines Scheduled ⟨newProcess 0, false⟩ tr p ∧
    p.state.process.node.lastApplied = 0 ∧ p.state.process.node.commitIndex = 2 ∧
    p.state.commitAdvanced = false ∧ Noticed p.state p.tasks := by
  have hx : Reaches goroutines Scheduled ⟨newProcess 0, false⟩
      (([.call .applyLoop, .call (.call (.handleAppendEntries (feed twoPuts 1)))] :
          List LoopTurn) ++
        (List.replicate 6 (.run 1 {}) : List LoopTurn) ++
        ([.run 0 {}, .run 0 {}, .call (.call (.handleAppendEntries (feed [] 2)))] :
          List LoopTurn) ++
        (List.replicate 5 (.run 1 {}) : List LoopTurn))
      fun _ p => p.state.process.node.lastApplied = 0 ∧ p.state.process.node.commitIndex = 2 ∧
        p.state.commitAdvanced = false := by decide +kernel
  obtain ⟨tr, p, h, hlast, hcommit, hch⟩ := hx.runs
  exact ⟨tr, p, h, hlast, hcommit, hch, no_lost_wakeup h (by omega)⟩

end DistributedKV.Raft
