import DistributedKV.Verify.Threads

/-!
# The state machine and the committed sequence

What the state machine and the stored snapshot hold, for a node whose apply loop reads the entries
of a fixed sequence `l`. Across crashes and restarts entries are applied again to a state that
already has their effects; each key then holds what it held after some entry that is not before
`lastApplied`, and once the loop has caught up the state is that of the sequence
(`replay_converges`).
-/

namespace DistributedKV.Raft

open Theory

variable {me : Member} {n : Node} {o : StorageOutcome} {t : Task} {l : List Entry}

/-! ## The sequence -/

/-- The content of the state machine after `l` has been applied to the empty map. -/
def replay (l : List Entry) : String → Option Value := l.foldl Node.applyEntry fun _ => none

theorem replay_take_succ (h : l[i]? = some e) :
    replay (l.take (i + 1)) = Node.applyEntry (replay (l.take i)) e := by
  rw [List.take_add_one, h]
  simp [replay]

/-- An entry decides what a key holds, or leaves it alone. -/
theorem Node.applyEntry_key (e : Entry) (k : String) :
    (∀ sm sm', applyEntry sm e k = applyEntry sm' e k) ∨ ∀ sm, applyEntry sm e k = sm k := by
  unfold Node.applyEntry
  cases e.type with
  | noop => exact .inr fun _ => rfl
  | put | delete =>
    by_cases hk : k = e.key
    · exact .inl fun _ _ => by simp [hk]
    · exact .inr fun _ => by simp [hk]

/-! ## Applying -/

/-- The only call of its kind that can run at a time. -/
def Task.isApply (t : Task) : Bool := t.inCall = .apply

/-- What the apply loop reads next is the next entry of `l`. -/
def ReadsFrom (l : List Entry) (s : Process) (_ : List Task) (t : Task) (_ : StorageOutcome) :
    Prop :=
  match t with
  | .applyNext applied _ => ∀ e ∈ (s.node.log.get (applied + 1)).toOption, l[applied]? = some e
  | _ => True

instance : Decidable (ReadsFrom l s us t o) := by
  apply Task.casesOn (motive := fun t => Decidable (ReadsFrom l s us t o)) t <;> intros <;>
    unfold ReadsFrom <;> infer_instance

/-- Any call but `HandleInstallSnapshot` may begin, `applyCommitted` if it is not running. -/
def oneApply (p : NodePool) (t : Task) : Prop :=
  t.IsCall ∧ t.inCall ≠ .installSnapshot ∧ (t.isApply → ∀ u ∈ p.tasks, u.isApply = false)

instance : Decidable (oneApply p t) := inferInstanceAs (Decidable (_ ∧ _ ∧ (_ → _)))

/-- The runs of a node that applies `l` and nothing else. -/
abbrev Replaying (l : List Entry) : NodePool → NodeTurn → Prop := Allows oneApply (ReadsFrom l) true

/-- The index that a step applies. -/
def Task.applies (o : StorageOutcome) : Task → Option ℕ
  | .applyEntry applied _ e => if o.commit ∨ e.type = .noop then some applied else none
  | _ => none

/-- The indices that have been applied in a run. -/
def appliedIn (tr : NodeTrace) : List ℕ :=
  tr.filterMap fun x => (stepOf x).bind fun st => st.1.applies st.2

theorem appliedIn_append (tr tr' : NodeTrace) :
    appliedIn (tr ++ tr') = appliedIn tr ++ appliedIn tr' := List.filterMap_append

theorem appliedIn_run {p : NodePool} (ht : p.tasks = l₁ ++ t :: l₂) (ha : t.applies o = some i) :
    i ∈ appliedIn (tr ++ [(p, .run l₁.length o)]) := by
  simp [appliedIn, stepOf_run ht, ha]

/-- Each key holds what it held after some entry that has been applied and is not before `i`. -/
structure Covers (l : List Entry) (tr : NodeTrace) (i : ℕ) (sm : String → Option Value) : Prop where
  le : i ≤ l.length
  key : ∀ k, ∃ j, i ≤ j ∧ (j = 0 ∨ j ∈ appliedIn tr) ∧ sm k = replay (l.take j) k

namespace Covers

variable {tr tr' : NodeTrace} {i j : ℕ} {sm : String → Option Value}

theorem zero (l : List Entry) (tr : NodeTrace) : Covers l tr 0 fun _ => none :=
  ⟨Nat.zero_le _, fun _ => ⟨0, le_rfl, .inl rfl, rfl⟩⟩

theorem mono (h : Covers l tr i sm) (tr' : NodeTrace) : Covers l (tr ++ tr') i sm := by
  refine ⟨h.le, fun k => ?_⟩
  obtain ⟨j, hij, hj, hk⟩ := h.key k
  refine ⟨j, hij, hj.imp_right fun hj => ?_, hk⟩
  rw [appliedIn_append]
  exact List.mem_append_left _ hj

theorem anti (h : Covers l tr i sm) (hji : j ≤ i) : Covers l tr j sm := by
  refine ⟨hji.trans h.le, fun k => ?_⟩
  obtain ⟨j', hj', h⟩ := h.key k
  exact ⟨j', hji.trans hj', h⟩

/-- The entry at `i + 1` is applied, for the first time or again. -/
theorem apply (h : Covers l tr i sm) (he : l[i]? = some e)
    (hsub : ∀ j ∈ appliedIn tr, j ∈ appliedIn tr') (hi : i + 1 ∈ appliedIn tr') :
    Covers l tr' (i + 1) (Node.applyEntry sm e) := by
  refine ⟨(List.getElem?_eq_some_iff.mp he).1, fun k => ?_⟩
  have hnew := congrFun (replay_take_succ he) k
  obtain ⟨j, hij, hj, hk⟩ := h.key k
  rcases Node.applyEntry_key e k with hset | hkeep
  · -- the entry sets `k`
    exact ⟨i + 1, le_rfl, .inr hi, by rw [hnew]; exact hset ..⟩
  · rcases hij.eq_or_lt with rfl | hlt
    · exact ⟨i + 1, le_rfl, .inr hi, by rw [hnew, hkeep, hkeep, hk]⟩
    · exact ⟨j, hlt, hj.imp_right (hsub j), by rw [hkeep, hk]⟩

/-- Nothing beyond `i` has been applied. -/
theorem eq_replay (h : Covers l tr i sm) (hall : ∀ j ∈ appliedIn tr, j ≤ i) :
    sm = replay (l.take i) := by
  funext k
  obtain ⟨j, hij, hj, hk⟩ := h.key k
  have hji : j ≤ i := hj.elim (fun h0 => h0 ▸ Nat.zero_le i) (hall j)
  rw [hk, le_antisymm hji hij]

end Covers

/-- The parts of a node that applying is about. -/
structure Node.SameState (n n' : Node) : Prop where
  sm : n'.sm = n.sm
  snapStore : n'.snapStore = n.snapStore
  orphanMeta : n'.orphanMeta = n.orphanMeta
  lastApplied : n'.lastApplied = n.lastApplied

theorem Node.SameState.refl (n : Node) : n.SameState n := ⟨rfl, rfl, rfl, rfl⟩

/-- Only the apply loop and `HandleInstallSnapshot` change these parts. -/
theorem Task.effect_sameState (me : Member) (o : StorageOutcome) (n : Node)
    (hinstall : t.inCall ≠ .installSnapshot) (happly : t.inCall ≠ .apply) :
    n.SameState (t.effect me o n) := by
  cases t with
  | candidateTerm | candidateRole | followerTerm | appendEntries | appendRequest =>
    exact ⟨rfl, rfl, rfl, rfl⟩
  | becomeFollower =>
    dsimp only [Task.effect, Node.becomeFollowerLocked]
    split <;> exact ⟨rfl, rfl, rfl, rfl⟩
  | becomeLeader =>
    dsimp only [Task.effect, Node.becomeLeaderLocked]
    split <;> exact ⟨rfl, rfl, rfl, rfl⟩
  | propose =>
    dsimp only [Task.effect, Node.proposeLocked]
    split
    · exact .refl n
    · split <;> exact ⟨rfl, rfl, rfl, rfl⟩
  | handleRequestVote =>
    dsimp only [Task.effect, Node.handleRequestVoteLocked, Node.stepDownWith,
      Node.failStaleWritersLocked, Node.setTermAndVoteWith]
    (repeat' split) <;> exact ⟨rfl, rfl, rfl, rfl⟩
  | handleAppendEntries =>
    dsimp only [Task.effect, Node.handleAppendEntriesLocked, Node.stepDownWith,
      Node.failStaleWritersLocked, Node.setTermAndVoteWith]
    (repeat' split) <;> exact ⟨rfl, rfl, rfl, rfl⟩
  | commitSet =>
    dsimp only [Task.effect, Node.commitLocked]
    split <;> exact ⟨rfl, rfl, rfl, rfl⟩
  | replicated peerID req resp =>
    dsimp only [Task.effect]
    split
    · exact .refl n
    · next hle => rw [Node.replicated_eq]; simp only [hle, if_false]; exact ⟨rfl, rfl, rfl, rfl⟩
  | snapshotInstalled peerID req resp =>
    dsimp only [Task.effect]
    split
    · exact .refl n
    · next hle =>
      rw [Node.snapshotInstalled_eq]
      simp only [hle, if_false]
      exact ⟨rfl, rfl, rfl, rfl⟩
  | tryAdvanceCommitIndex =>
    dsimp only [Task.effect]
    rw [Node.tryAdvanceCommitIndex_eq]
    exact ⟨rfl, rfl, rfl, rfl⟩
  | handleInstallSnapshot | installTerm | installRole | installLoad | installSave | installRestore
  | installBoundary | installIndices => exact absurd rfl hinstall
  | applyEntry | applyMark | snapSave | snapCompact => exact absurd rfl happly
  | _ => exact .refl n

theorem Node.markApplied_state (n : Node) (i : ℕ) :
    (n.markApplied i).sm = n.sm ∧ (n.markApplied i).snapStore = n.snapStore ∧
      (n.markApplied i).lastApplied = i ∧ (n.markApplied i).log = n.log := by
  unfold Node.markApplied
  rw [Node.notifyWritersLocked_eq]
  exact ⟨rfl, rfl, rfl, rfl⟩

theorem Node.markApplied_orphanMeta (n : Node) (i : ℕ) :
    (n.markApplied i).orphanMeta = n.orphanMeta := by
  unfold Node.markApplied
  rw [Node.notifyWritersLocked_eq]
  rfl

/-! ## Restarts -/

/-- The state machine is at `lastApplied` or ahead of it, and the snapshot is at its index or ahead
of it. A meta file whose data file is lost is not ahead of `lastApplied`, so that new data can be
put under it. -/
structure Replayed (l : List Entry) (tr : NodeTrace) (n : Node) : Prop where
  state : Covers l tr n.lastApplied n.sm
  store : ∀ s ∈ n.snapStore, Covers l tr s.2.lastIncludedIndex s.1.pairs
  orphan : ∀ info ∈ n.orphanMeta, info.lastIncludedIndex ≤ n.lastApplied

theorem Replayed.mono (h : Replayed l tr n) (tr' : NodeTrace) : Replayed l (tr ++ tr') n :=
  ⟨h.state.mono tr', fun s hs => (h.store s hs).mono tr', h.orphan⟩

theorem Replayed.of_same {n' : Node} (h : Replayed l tr n) (hs : n.SameState n') :
    Replayed l tr n' := by
  refine ⟨?_, ?_, ?_⟩
  · rw [hs.sm, hs.lastApplied]; exact h.state
  · rw [hs.snapStore]; exact h.store
  · rw [hs.orphanMeta, hs.lastApplied]; exact h.orphan

/-- The stored snapshot is not ahead of `i`. -/
def Node.StoredBelow (n : Node) (i : ℕ) : Prop := ∀ s ∈ n.snapStore, s.2.lastIncludedIndex ≤ i

/-- What the apply loop relies on. -/
def Task.Replays (l : List Entry) (tr : NodeTrace) (n : Node) : Task → Prop
  | .applyNext applied _ | .snapLoad applied _ | .snapCompact applied _ _ => n.lastApplied = applied
  | .applyEntry applied _ e => n.lastApplied + 1 = applied ∧ l[n.lastApplied]? = some e
  | .applyMark applied _ => n.lastApplied ≤ applied ∧ Covers l tr applied n.sm
  | .snapTerm applied _ | .snapDump applied _ _ =>
    n.lastApplied = applied ∧ n.StoredBelow applied
  | .snapSave applied _ _ dump =>
    n.lastApplied = applied ∧ n.StoredBelow applied ∧ Covers l tr applied dump.pairs
  | _ => True

theorem Task.Replays.of_not_apply (h : t.isApply = false) : t.Replays l tr n := by
  cases t with
  | applyNext | applyEntry | applyMark | snapLoad | snapTerm | snapDump | snapSave
  | snapCompact => cases h
  | _ => trivial

theorem Task.Replays.keeps {n' : Node} (h : t.Replays l tr n) (hs : n.SameState n')
    (tr' : NodeTrace) : t.Replays l (tr ++ tr') n' := by
  have hbelow {i : ℕ} (h : n.StoredBelow i) : n'.StoredBelow i := by
    unfold Node.StoredBelow
    rw [hs.snapStore]
    exact h
  cases t with
  | applyNext | snapLoad | snapCompact => exact hs.lastApplied.trans h
  | applyEntry =>
    dsimp only [Task.Replays]
    rw [hs.lastApplied]
    exact h
  | applyMark =>
    dsimp only [Task.Replays]
    rw [hs.sm, hs.lastApplied]
    exact ⟨h.1, h.2.mono tr'⟩
  | snapTerm | snapDump => exact ⟨hs.lastApplied.trans h.1, hbelow h.2⟩
  | snapSave => exact ⟨hs.lastApplied.trans h.1, hbelow h.2.1, h.2.2.mono tr'⟩
  | _ => trivial

/-- A snapshot of a state that covers `applied` is saved, or part of it. -/
theorem Replayed.save {applied term : ℕ} {dump : Snapshot} (h : Replayed l tr n)
    (hlast : n.lastApplied = applied) (hbelow : n.StoredBelow applied)
    (hdump : Covers l tr applied dump.pairs) (so : SaveOutcome) :
    Replayed l tr (n.saveSnapshot so dump ⟨applied, term⟩) := by
  -- the meta file on disk, with or without its data
  have hmeta : ∀ info ∈ metaFile n.snapStore n.orphanMeta, info.lastIncludedIndex ≤ applied := by
    intro info hinfo
    rcases Option.or_eq_some_iff.mp hinfo with hs | ⟨-, horphan⟩
    · obtain ⟨s, hstore, rfl⟩ := Option.map_eq_some_iff.mp hs
      exact hbelow s hstore
    · exact hlast ▸ h.orphan info horphan
  refine ⟨h.state, fun s hs => ?_, fun info hinfo => ?_⟩
  · cases so with
    | before => exact h.store s hs
    | dataOnly =>
      -- the new data under the old index
      obtain ⟨info, hinfo, rfl⟩ := Option.map_eq_some_iff.mp hs
      exact hdump.anti (hmeta info hinfo)
    | dataRemoved | metaRemoved => cases hs
    | done => cases hs; exact hdump
  · cases so with
    | before => exact h.orphan info hinfo
    | dataRemoved => exact hlast ▸ hmeta info hinfo
    | dataOnly | metaRemoved | done => cases hinfo

/-- A step of the apply loop. -/
theorem Task.Replays.step (me : Member) (tr' : NodeTrace) (ha : t.isApply)
    (hread : ReadsFrom l ⟨me, n⟩ us t o)
    (happ : ∀ {i}, t.applies o = some i → i ∈ appliedIn (tr ++ tr')) (hs : Replayed l tr n)
    (h : t.Replays l tr n) :
    Replayed l (tr ++ tr') (t.effect me o n) ∧
      ∀ {t'}, t.next me o n = .inl t' → t'.Replays l (tr ++ tr') (t.effect me o n) := by
  have hs' := hs.mono tr'
  cases t with
  | applyCommitted => exact ⟨hs', fun ht => by cases ht; exact rfl⟩
  | applyNext applied commit =>
    refine ⟨hs', fun ht => ?_⟩
    obtain rfl : n.lastApplied = applied := h
    dsimp only [Task.next] at ht
    split at ht
    · split at ht <;> cases ht
      next e he => exact ⟨rfl, hread e (by rw [he]; rfl)⟩
    · cases ht
  | applyEntry applied commit e =>
    obtain ⟨rfl, he⟩ := h
    have hsub : ∀ j ∈ appliedIn tr, j ∈ appliedIn (tr ++ tr') := fun j hj => by
      rw [appliedIn_append]
      exact List.mem_append_left _ hj
    dsimp only [Task.next, Task.effect, Task.applies] at happ ⊢
    by_cases hc : o.commit = true
    · have hnew := hs.state.apply he hsub (happ (if_pos (.inl hc)))
      rw [if_pos hc, if_pos (.inl hc)]
      refine ⟨⟨hnew.anti (Nat.le_succ _), hs'.store, hs'.orphan⟩, fun ht => ?_⟩
      cases ht
      exact ⟨Nat.le_succ _, hnew⟩
    · rw [if_neg hc]
      refine ⟨hs', fun ht => ?_⟩
      split at ht <;> cases ht
      next hor =>
      -- a no-op cannot fail
      have hnoop := hor.resolve_left hc
      have hnew := hs.state.apply he hsub (happ (if_pos hor))
      have hsame : Node.applyEntry n.sm e = n.sm := by simp [Node.applyEntry, hnoop]
      rw [hsame] at hnew
      exact ⟨Nat.le_succ _, hnew⟩
  | applyMark applied commit =>
    obtain ⟨hle, hcov⟩ := h
    obtain ⟨hsm, hstore, hlast, -⟩ := n.markApplied_state applied
    refine ⟨⟨?_, ?_, fun info hinfo => ?_⟩, fun ht => ?_⟩
    · show Covers l _ (n.markApplied applied).lastApplied (n.markApplied applied).sm
      rw [hsm, hlast]
      exact hcov.mono tr'
    · show ∀ s ∈ (n.markApplied applied).snapStore, _
      rw [hstore]
      exact hs'.store
    · have horphan : info ∈ (n.markApplied applied).orphanMeta := hinfo
      rw [n.markApplied_orphanMeta] at horphan
      show _ ≤ (n.markApplied applied).lastApplied
      rw [hlast]
      exact (hs.orphan info horphan).trans hle
    · dsimp only [Task.next] at ht
      split at ht <;> cases ht <;> exact hlast
  | snapLoad applied commit =>
    refine ⟨hs', fun ht => ?_⟩
    dsimp only [Task.next] at ht
    split at ht <;> cases ht
    · exact h
    · next hnew =>
      refine ⟨h, fun s hstore => ?_⟩
      simp only [Option.any_eq_true, not_exists, not_and, decide_eq_true_eq, not_le] at hnew
      exact (hnew s hstore).le
  | snapTerm applied commit =>
    refine ⟨hs', fun ht => ?_⟩
    dsimp only [Task.next] at ht
    split at ht <;> cases ht
    · exact h.1
    · exact h
  | snapDump applied commit term =>
    refine ⟨hs', fun ht => ?_⟩
    cases ht
    exact ⟨h.1, h.2, h.1 ▸ hs'.state⟩
  | snapSave applied commit term dump =>
    obtain ⟨hlast, hbelow, hdump⟩ := h
    refine ⟨hs'.save hlast hbelow (hdump.mono tr') o.save, fun ht => ?_⟩
    dsimp only [Task.next] at ht
    split at ht <;> cases ht <;> exact hlast
  | snapCompact applied commit term =>
    exact ⟨⟨hs'.state, hs'.store, hs'.orphan⟩, fun ht => by cases ht; exact h⟩
  | _ => cases ha

theorem Task.isApply_next (ht : t.next me o n = .inl t') : t'.isApply = t.isApply := by
  unfold Task.isApply
  rw [Task.next_inCall ht]

theorem Task.isApply_symm {u : Task} (h : t.isApply → u.isApply = false) (hu : u.isApply) :
    t.isApply = false := by
  cases ht : t.isApply with
  | false => rfl
  | true => exact absurd hu (by simp [h ht])

def replaying (l : List Entry) : Outline Process Task StorageOutcome Options where
  shared tr p := Replayed l tr p.state.node
  here tr s t := t.inCall ≠ .installSnapshot ∧ t.Replays l tr s.node
  apart t u := t.isApply → u.isApply = false

theorem replaying_valid (l : List Entry) : (replaying l).Valid threads (Replaying l) where
  symm := Task.isApply_symm
  call := by
    intro tr p t h ⟨hcall, hinstall, hone⟩
    refine ⟨h.shared.mono _, ⟨hinstall, ?_⟩, fun u hu => ⟨⟨(h.here u hu).1, ?_⟩, fun hu' => ?_⟩⟩
    · cases t with
      | applyNext | applyEntry | applyMark | snapLoad | snapTerm | snapDump | snapSave
      | snapCompact => cases hcall
      | _ => trivial
    · exact (h.here u hu).2.keeps (.refl _) _
    · exact Task.isApply_symm (fun ht => hone ht u hu) hu'
  run := by
    intro tr p t o s l₁ l₂ x h hok ht hex
    cases hex
    obtain ⟨hinstall, hself⟩ := h.self ht
    have hapart : ∀ u ∈ l₁ ++ l₂, u.isApply → t.isApply = false := fun u hu =>
      h.apart_other Task.isApply_symm ht hu
    have hnext {t'} (ht' : t.next p.state.me o p.state.node = .inl t') :
        t'.inCall ≠ .installSnapshot ∧ ∀ u ∈ l₁ ++ l₂, u.isApply → t'.isApply = false := by
      rw [Task.next_inCall ht', Task.isApply_next ht']
      exact ⟨hinstall, hapart⟩
    cases ha : t.isApply with
    | true =>
      obtain ⟨hstate, hgoes⟩ := hself.step p.state.me [(p, .run l₁.length o)] ha (hok.of_run ht)
        (fun ha => appliedIn_run ht ha) h.shared
      exact ⟨hstate, fun u hu => ⟨(h.other ht hu).1,
        .of_not_apply (Task.isApply_symm (hapart u hu) ha)⟩, fun t' ht' =>
        ⟨⟨(hnext ht').1, hgoes ht'⟩, (hnext ht').2⟩⟩
    | false =>
      have hsame := Task.effect_sameState p.state.me o p.state.node hinstall
        (by simpa [Task.isApply] using ha)
      refine ⟨(h.shared.mono _).of_same hsame, fun u hu => ⟨(h.other ht hu).1,
        (h.other ht hu).2.keeps hsame _⟩, fun t' ht' => ⟨⟨(hnext ht').1, .of_not_apply ?_⟩,
        (hnext ht').2⟩⟩
      rw [Task.isApply_next ht', ha]
  crash := by
    intro tr p opts s h hok hrec
    obtain ⟨-, rfl⟩ := recover_eq hrec
    have hs := h.shared.mono [(p, .crash opts)]
    refine ⟨?_, hs.store, fun info hinfo => by cases hinfo⟩
    dsimp only [newNode]
    cases hstore : p.state.node.snapStore with
    | none => exact hs.state.anti (Nat.zero_le _)
    | some s => exact hs.store s hstore

/-- **Replay converges.** A node that applies the entries of `l`, with crashes and restarts and
storage failures at any point, holds the state of the sequence whenever `lastApplied` is not below
an index that was ever applied. -/
theorem replay_converges
    (h : Runs threads (Replaying l) ⟨me, newNode engine (fun _ => none) none epoch⟩ tr p)
    (hall : ∀ i ∈ appliedIn tr, i ≤ p.state.node.lastApplied) :
    p.state.node.lastApplied ≤ l.length ∧
      p.state.node.sm = replay (l.take p.state.node.lastApplied) := by
  have h₀ : (replaying l).shared [] ⟨⟨me, newNode engine (fun _ => none) none epoch⟩, []⟩ :=
    ⟨.zero l [], fun s hs => (by cases hs), fun info hinfo => (by cases hinfo)⟩
  have hstate := ((replaying_valid l).holds h₀ h).shared.state
  exact ⟨hstate.le, hstate.eq_replay hall⟩

/-- Two entries, and the requests that bring them to a follower. -/
def twoPuts : List Entry := [⟨1, 1, .put, "a", [1], ""⟩, ⟨2, 1, .put, "b", [2], ""⟩]

def feed (es : List Entry) (leaderCommit : ℕ) : AppendEntriesRequest :=
  ⟨1, "n2", 0, 0, es, leaderCommit, ""⟩

/-- The process crashes in its second snapshot, when the new data file has been put in place and the
meta file has not, and applies the second entry again. -/
theorem replay_converges_torn : ∃ tr p,
    Runs threads (Replaying twoPuts) (newProcess 1) tr p ∧ appliedIn tr = [1, 2, 2] ∧
    p.state.node.lastApplied = 2 ∧ p.state.node.lastApplied ≤ twoPuts.length ∧
    p.state.node.sm = replay (twoPuts.take p.state.node.lastApplied) := by
  have hx : Reaches threads (Replaying twoPuts) (newProcess 1)
      ((.call (.handleAppendEntries (feed twoPuts 2)) :: stepsOf 0 5 : List NodeTurn) ++
        (.call .applyCommitted :: stepsOf 0 15 : List NodeTurn) ++
        (.run 0 { save := .dataOnly } :: .crash ⟨0, 0⟩ ::
          .call (.handleAppendEntries (feed [] 2)) :: stepsOf 0 5 : List NodeTurn) ++
        (.call .applyCommitted :: stepsOf 0 5 : List NodeTurn))
      fun tr p => appliedIn tr = [1, 2, 2] ∧ p.state.node.lastApplied = 2 := by decide +kernel
  obtain ⟨tr, p, h, happ, hlast⟩ := hx.runs
  exact ⟨tr, p, h, happ, hlast, replay_converges h (by simp [happ, hlast])⟩

end DistributedKV.Raft
