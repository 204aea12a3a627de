import DistributedKV.Verify.Replay

/-!
# Snapshots that are installed beside the apply loop

`HandleInstallSnapshot` replaces the stored snapshot, the state machine, the log and the indices one
by one, while `applyCommitted` works from its own copy of `lastApplied`. The state machine is that
of the committed sequence as long as a restore and the work on an entry do not overlap
(`state_in_sync`).
-/

namespace DistributedKV.Raft

open Theory

variable {me : Member} {n : Node} {o : StorageOutcome} {t : Task} {l : List Entry}

/-! ## Clearing the log -/

namespace PersistentLog

variable {pl : PersistentLog}

/-- The keys of the log lie between its first and its last index. -/
def Keyed (pl : PersistentLog) : Prop :=
  ∀ e ∈ pl.engine.log, pl.firstIndex ≤ e.index ∧ e.index ≤ pl.lastIndex

/-- There is no entry in the log. -/
def Cleared (pl : PersistentLog) : Prop := pl.engine.log = [] ∧ pl.tailCache = []

theorem Cleared.get (h : Cleared pl) : ¬∃ e, pl.get i = .ok e := by
  rintro ⟨e, he⟩
  unfold PersistentLog.get PersistentLog.getLocked at he
  rw [h.1, h.2] at he
  dsimp only [lookup, List.find?_nil] at he
  split at he <;> cases he

theorem Keyed.setTermAndVote (h : Keyed pl) (commit : Bool) (term : ℕ) (v : String) :
    Keyed (pl.setTermAndVote commit term v).1 := by cases commit <;> exact h

theorem Cleared.setTermAndVote (h : Cleared pl) (commit : Bool) (term : ℕ) (v : String) :
    Cleared (pl.setTermAndVote commit term v).1 := by cases commit <;> exact h

theorem Keyed.compactPrefix (h : Keyed pl) (commit : Bool) (index term : ℕ) :
    Keyed (pl.compactPrefix commit index term).1 := by
  unfold PersistentLog.compactPrefix
  split
  · exact h
  · cases commit with
    | false => exact h
    | true =>
      intro e he
      obtain ⟨hlo, hhi⟩ := h e (List.mem_of_mem_filter he)
      have hout := List.of_mem_filter he
      simp only [decide_eq_true_eq] at hout
      refine ⟨?_, hhi.trans (le_max_left ..)⟩
      show index + 1 ≤ e.index
      omega

theorem Cleared.compactPrefix (h : Cleared pl) (commit : Bool) (index term : ℕ) :
    Cleared (pl.compactPrefix commit index term).1 := by
  unfold PersistentLog.compactPrefix
  split
  · exact h
  · cases commit with
    | false => exact ⟨h.1, by dsimp only; rw [h.2]; rfl⟩
    | true => exact ⟨by dsimp only [if_true]; rw [h.1]; rfl, by dsimp only [if_true]; rw [h.2]; rfl⟩

/-- A snapshot boundary clears the log. -/
theorem Keyed.restoreSnapshotBoundary (h : Keyed pl) (index term : ℕ) :
    Cleared (pl.restoreSnapshotBoundary true index term).1 := by
  refine ⟨List.filter_eq_nil_iff.mpr fun e he => ?_, rfl⟩
  have := h e he
  simp only [decide_eq_true_eq]
  omega

theorem Cleared.keyed (h : Cleared pl) : Keyed pl := by
  intro e he
  rw [h.1] at he
  cases he

end PersistentLog

open PersistentLog (Keyed Cleared)

/-! ## The two calls -/

/-- The request carries a snapshot of `l`. -/
structure SnapshotOf (l : List Entry) (req : InstallSnapshotRequest) : Prop where
  le : req.lastIncludedIndex ≤ l.length
  pairs : ∀ {snap}, unmarshalSnapshot req.data = some snap →
    snap.pairs = replay (l.take req.lastIncludedIndex)

/-- The calls that change the state machine. -/
def installing (l : List Entry) (p : NodePool) : Task → Prop
  | .applyCommitted => ∀ u ∈ p.tasks, u.isApply = false
  | .handleInstallSnapshot req => SnapshotOf l req
  | _ => False

/-- A snapshot is being installed, and the state machine has been restored. -/
def Task.restoring : Task → Bool
  | .installBoundary _ | .installIndices _ => true
  | _ => false

/-- The apply loop has read an entry, and has not dumped the state after it. -/
def Task.applying : Task → Bool
  | .applyEntry .. | .applyMark .. | .snapLoad .. | .snapTerm .. | .snapDump .. => true
  | _ => false

/-- The step restores the state machine. -/
def Task.restores (o : StorageOutcome) : Task → Bool
  | .installRestore .. => o.commit
  | _ => false

/-- The step reads an entry that will be applied. -/
def Task.readsEntry (n : Node) : Task → Bool
  | .applyNext applied commit => applied < commit && (n.log.get (applied + 1)).isOk
  | _ => false

/-- The step leaves a restored state machine behind without its index, or snapshot data under
another snapshot's index. -/
def Task.tears (o : StorageOutcome) : Task → Bool
  | .installBoundary _ => !o.commit
  | .installSave .. | .snapSave .. => o.save = .dataOnly
  | _ => false

/-- A snapshot is not restored while another one is, or while the apply loop works on an entry, and
the apply loop does not read an entry meanwhile. -/
def Separate (s : Process) (us : List Task) (t : Task) (o : StorageOutcome) : Prop :=
  t.tears o = false ∧
  (t.restores o → ∀ u ∈ us, u.restoring = false ∧ u.applying = false) ∧
  (t.readsEntry s.node → ∀ u ∈ us, u.restoring = false)

instance : Decidable (Separate s us t o) := inferInstanceAs (Decidable (_ ∧ (_ → _) ∧ (_ → _)))

/-- The state machine holds what it holds after the first `i` entries of `l`. -/
structure Synced (l : List Entry) (i : ℕ) (sm : String → Option Value) : Prop where
  le : i ≤ l.length
  eq : sm = replay (l.take i)

/-- The stored snapshot is one of `l`, and a boundary would clear the log. -/
structure Stored (l : List Entry) (n : Node) : Prop where
  store : ∀ s ∈ n.snapStore, Synced l s.2.lastIncludedIndex s.1.pairs
  keyed : Keyed n.log

/-- What the two calls rely on. -/
def Task.Syncs (l : List Entry) (n : Node) : Task → Prop
  | .applyCommitted => True
  | .applyNext applied _ | .snapCompact applied _ _ => n.lastApplied = applied ∨ Cleared n.log
  | .applyEntry applied _ e =>
    n.lastApplied + 1 = applied ∧ l[n.lastApplied]? = some e ∧ Synced l n.lastApplied n.sm
  | .applyMark applied _ => Synced l applied n.sm
  | .snapLoad applied _ | .snapTerm applied _ | .snapDump applied _ _ =>
    n.lastApplied = applied ∧ Synced l applied n.sm
  | .snapSave applied _ _ dump =>
    (n.lastApplied = applied ∨ Cleared n.log) ∧ Synced l applied dump.pairs
  | .handleInstallSnapshot req | .installTerm req | .installRole req | .installLoad req =>
    SnapshotOf l req
  | .installSave req snap | .installRestore req snap => Synced l req.lastIncludedIndex snap.pairs
  | .installBoundary req => Synced l req.lastIncludedIndex n.sm
  | .installIndices req => Synced l req.lastIncludedIndex n.sm ∧ Cleared n.log
  | _ => False

/-- `lastApplied` is not the index of the state machine. -/
def Task.unsettled : Task → Bool
  | .applyMark .. | .installBoundary _ | .installIndices _ => true
  | _ => false

/-- Which of the two calls' steps exclude each other. -/
structure Task.Excludes (t u : Task) : Prop where
  apply : t.isApply → u.isApply = false
  restoring : t.restoring → u.restoring = false ∧ u.applying = false
  applying : t.applying → u.restoring = false

theorem Task.Excludes.symm {u : Task} (h : t.Excludes u) : u.Excludes t := by
  refine ⟨Task.isApply_symm h.apply, fun hu => ⟨?_, ?_⟩, fun hu => ?_⟩
  · cases ht : t.restoring with
    | false => rfl
    | true => exact absurd hu (by simp [(h.restoring ht).1])
  · cases ht : t.applying with
    | false => rfl
    | true => exact absurd hu (by simp [h.applying ht])
  · cases ht : t.restoring with
    | false => rfl
    | true => exact absurd hu (by simp [(h.restoring ht).2])

/-! ## Steps -/

/-- A step that neither applies nor restores anything. -/
theorem Task.Syncs.quiet (me : Member) (h : t.Syncs l n) (happly : t.applying = false)
    (hrestoring : t.restoring = false) (hrestores : t.restores o = false) :
    (t.effect me o n).sm = n.sm ∧ (t.effect me o n).lastApplied = n.lastApplied := by
  cases t with
  | applyEntry | applyMark | snapLoad | snapTerm | snapDump => cases happly
  | installBoundary | installIndices => cases hrestoring
  | installRestore =>
    dsimp only [Task.effect]
    rw [if_neg (by simpa [Task.restores] using hrestores)]
    exact ⟨rfl, rfl⟩
  | applyCommitted | applyNext | snapSave | snapCompact | handleInstallSnapshot | installTerm
  | installRole | installLoad | installSave => exact ⟨rfl, rfl⟩
  | _ => exact h.elim

theorem Task.Syncs.cleared (me : Member) (o : StorageOutcome) (h : t.Syncs l n)
    (hc : Cleared n.log) : Cleared (t.effect me o n).log := by
  rw [Task.effect_log]
  cases t with
  | installTerm => exact hc.setTermAndVote ..
  | snapCompact => exact hc.compactPrefix ..
  | installBoundary =>
    dsimp only [Task.log]
    cases o.commit with
    | false => exact ⟨hc.1, rfl⟩
    | true => exact hc.keyed.restoreSnapshotBoundary ..
  | applyCommitted | applyNext | applyEntry | applyMark | snapLoad | snapTerm | snapDump | snapSave
  | handleInstallSnapshot | installRole | installLoad | installSave | installRestore
  | installIndices => exact hc
  | _ => exact h.elim

/-- The step of another task leaves alone what `u` relies on. -/
theorem Task.Syncs.other {u : Task} (me : Member) (hu : u.Syncs l n) (ht : t.Syncs l n)
    (hex : t.Excludes u)
    (hrestores : t.restores o → u.restoring = false ∧ u.applying = false) :
    u.Syncs l (t.effect me o n) := by
  have hcl := ht.cleared me o
  -- a task in one of the two regions sees the state machine and `lastApplied` unchanged
  have hquiet (hr : u.restoring = true ∨ u.applying = true ∧ u.isApply = true) :
      (t.effect me o n).sm = n.sm ∧ (t.effect me o n).lastApplied = n.lastApplied := by
    have hsymm := hex.symm
    refine ht.quiet me ?_ ?_ ?_
    · rcases hr with hr | ⟨-, ha⟩
      · exact (hsymm.restoring hr).2
      · have := hsymm.apply ha
        cases t with
        | applyEntry | applyMark | snapLoad | snapTerm | snapDump => cases this
        | _ => rfl
    · exact hr.elim (fun hr => (hsymm.restoring hr).1) fun hr => hsymm.applying hr.1
    · cases hc : t.restores o with
      | false => rfl
      | true => exact absurd (hrestores hc) (by rcases hr with hr | ⟨hr, -⟩ <;> simp [hr])
  -- the index changes under a loop that is between two entries only if the log has been cleared
  have hloop (ha : u.isApply = true) {i : ℕ} (h : n.lastApplied = i ∨ Cleared n.log) :
      (t.effect me o n).lastApplied = i ∨ Cleared (t.effect me o n).log := by
    rcases h with rfl | hc
    · have hna := hex.symm.apply ha
      cases t with
      | installIndices => exact .inr (hcl ht.2)
      | installRestore => dsimp only [Task.effect]; split <;> exact .inl rfl
      | handleInstallSnapshot | installTerm | installRole | installLoad | installSave
      | installBoundary => exact .inl rfl
      | applyCommitted | applyNext | applyEntry | applyMark | snapLoad | snapTerm | snapDump
      | snapSave | snapCompact => cases hna
      | _ => exact ht.elim
    · exact .inr (hcl hc)
  cases u with
  | applyCommitted => trivial
  | applyNext | snapCompact => exact hloop rfl hu
  | snapSave => exact ⟨hloop rfl hu.1, hu.2⟩
  | applyEntry | snapLoad | snapTerm | snapDump =>
    obtain ⟨hsm, hlast⟩ := hquiet (.inr ⟨rfl, rfl⟩)
    dsimp only [Task.Syncs]
    rw [hsm, hlast]
    exact hu
  | applyMark =>
    dsimp only [Task.Syncs]
    rw [(hquiet (.inr ⟨rfl, rfl⟩)).1]
    exact hu
  | installBoundary =>
    dsimp only [Task.Syncs]
    rw [(hquiet (.inl rfl)).1]
    exact hu
  | installIndices =>
    dsimp only [Task.Syncs]
    rw [(hquiet (.inl rfl)).1]
    exact ⟨hu.1, hcl hu.2⟩
  | handleInstallSnapshot | installTerm | installRole | installLoad | installSave
  | installRestore => exact hu
  | _ => exact hu.elim

theorem Synced.apply (h : Synced l i sm) (he : l[i]? = some e) :
    Synced l (i + 1) (Node.applyEntry sm e) :=
  ⟨(List.getElem?_eq_some_iff.mp he).1, by rw [replay_take_succ he, h.eq]⟩

theorem Stored.save {info : SnapshotMeta} {snap : Snapshot} {so : SaveOutcome} (h : Stored l n)
    (hsnap : Synced l info.lastIncludedIndex snap.pairs) (hso : so ≠ .dataOnly) :
    Stored l (n.saveSnapshot so snap info) := by
  refine ⟨fun s hs => ?_, h.keyed⟩
  cases so with
  | before => exact h.store s hs
  | dataOnly => exact absurd rfl hso
  | dataRemoved | metaRemoved => cases hs
  | done => cases hs; exact hsnap

theorem Task.Syncs.stored (me : Member) (h : t.Syncs l n) (hs : Stored l n)
    (htear : t.tears o = false) : Stored l (t.effect me o n) := by
  cases t with
  | installTerm => exact ⟨hs.store, hs.keyed.setTermAndVote _ _ _⟩
  | snapCompact => exact ⟨hs.store, hs.keyed.compactPrefix _ _ _⟩
  | installBoundary req =>
    refine ⟨hs.store, ?_⟩
    rw [Task.effect_log]
    dsimp only [Task.log]
    cases hc : o.commit with
    | false => exact hs.keyed
    | true => exact (hs.keyed.restoreSnapshotBoundary ..).keyed
  | installSave req snap => exact hs.save h (by simpa [Task.tears] using htear)
  | snapSave applied commit term dump => exact hs.save h.2 (by simpa [Task.tears] using htear)
  | installRestore | applyEntry =>
    dsimp only [Task.effect]
    split <;> exact ⟨hs.store, hs.keyed⟩
  | applyMark applied =>
    obtain ⟨-, hstore, -, hlog⟩ := n.markApplied_state applied
    refine ⟨?_, ?_⟩
    · show ∀ s ∈ (n.markApplied applied).snapStore, _
      rw [hstore]
      exact hs.store
    · show Keyed (n.markApplied applied).log
      rw [hlog]
      exact hs.keyed
  | installIndices | installRole => exact ⟨hs.store, hs.keyed⟩
  | applyCommitted | applyNext | snapLoad | snapTerm | snapDump | handleInstallSnapshot
  | installLoad => exact hs
  | _ => exact h.elim

/-- Where the two calls get after a step. -/
theorem Task.Syncs.next (h : t.Syncs l n) (hs : Stored l n) (hread : ReadsFrom l ⟨me, n⟩ us t o)
    (hsync : t.readsEntry n → Synced l n.lastApplied n.sm) (ht : t.next me o n = .inl t') :
    t'.Syncs l (t.effect me o n) := by
  cases t with
  | applyCommitted => cases ht; exact .inl rfl
  | applyNext applied commit =>
    dsimp only [Task.next] at ht
    split at ht
    · next hlt =>
      split at ht <;> cases ht
      next e he =>
      -- there is an entry, so the log has not been cleared
      obtain rfl : n.lastApplied = applied := h.resolve_right fun hc => hc.get ⟨e, he⟩
      exact ⟨rfl, hread e (by rw [he]; rfl), hsync (by simp [Task.readsEntry, hlt, he, Except.isOk,
        Except.toBool])⟩
    · cases ht
  | applyEntry applied commit e =>
    obtain ⟨rfl, he, hstate⟩ := h
    dsimp only [Task.next, Task.effect] at ht ⊢
    split at ht <;> cases ht
    next hor =>
    show Synced l _ (if o.commit = true then { n with sm := Node.applyEntry n.sm e } else n).sm
    split
    · exact hstate.apply he
    · next hc =>
      have hsame : Node.applyEntry n.sm e = n.sm := by
        simp [Node.applyEntry, hor.resolve_left hc]
      exact hsame ▸ hstate.apply he
  | applyMark applied commit =>
    obtain ⟨hsm, -, hlast, -⟩ := n.markApplied_state applied
    dsimp only [Task.next] at ht
    split at ht <;> cases ht
    · refine ⟨hlast, ?_⟩
      show Synced l applied (n.markApplied applied).sm
      rw [hsm]
      exact h
    · exact .inl hlast
  | snapLoad =>
    dsimp only [Task.next] at ht
    split at ht <;> cases ht
    · exact .inl h.1
    · exact h
  | snapTerm =>
    dsimp only [Task.next] at ht
    split at ht <;> cases ht
    · exact .inl h.1
    · exact h
  | snapDump => cases ht; exact ⟨.inl h.1, h.2⟩
  | snapSave =>
    dsimp only [Task.next] at ht
    split at ht <;> cases ht <;> exact h.1
  | snapCompact => cases ht; exact h.imp_right fun hc => hc.compactPrefix ..
  | handleInstallSnapshot =>
    dsimp only [Task.next] at ht
    split at ht
    · cases ht
    · split at ht <;> cases ht <;> exact h
  | installTerm => cases ht; exact h
  | installRole => cases ht; exact h
  | installLoad req =>
    dsimp only [Task.next] at ht
    split at ht
    · cases ht
    · split at ht <;> cases ht
      next hsnap => exact ⟨h.le, h.pairs hsnap⟩
  | installSave =>
    dsimp only [Task.next] at ht
    split at ht <;> cases ht
    exact h
  | installRestore =>
    dsimp only [Task.next, Task.effect] at ht ⊢
    split at ht <;> cases ht
    next hc =>
    rw [if_pos hc]
    exact h
  | installBoundary req =>
    dsimp only [Task.next] at ht
    split at ht <;> cases ht
    next hc =>
    refine ⟨h, ?_⟩
    dsimp only [Task.effect]
    rw [hc]
    exact hs.keyed.restoreSnapshotBoundary ..
  | installIndices => cases ht
  | _ => exact h.elim

/-- A step puts the state machine and `lastApplied` in agreement, or takes them apart for the time
being, or leaves them as they are. -/
theorem Task.Syncs.settles (me : Member) (h : t.Syncs l n) (htear : t.tears o = false) :
    Synced l (t.effect me o n).lastApplied (t.effect me o n).sm ∨
    (∃ t', t.next me o n = .inl t' ∧ t'.unsettled) ∨
    t.unsettled = false ∧ (t.effect me o n).sm = n.sm ∧
      (t.effect me o n).lastApplied = n.lastApplied := by
  cases t with
  | applyEntry applied commit e =>
    dsimp only [Task.next, Task.effect]
    by_cases hor : o.commit = true ∨ e.type = .noop
    · exact .inr (.inl ⟨_, if_pos hor, rfl⟩)
    · rw [if_neg fun hc => hor (.inl hc)]
      exact .inr (.inr ⟨rfl, rfl, rfl⟩)
  | applyMark applied commit =>
    obtain ⟨hsm, -, hlast, -⟩ := n.markApplied_state applied
    left
    show Synced l (n.markApplied applied).lastApplied (n.markApplied applied).sm
    rw [hsm, hlast]
    exact h
  | installIndices => exact .inl h.1
  | installRestore =>
    dsimp only [Task.next, Task.effect]
    cases o.commit with
    | true => exact .inr (.inl ⟨_, rfl, rfl⟩)
    | false => exact .inr (.inr ⟨rfl, rfl, rfl⟩)
  | installBoundary req =>
    have hc : o.commit = true := by simpa [Task.tears] using htear
    exact .inr (.inl ⟨_, if_pos hc, rfl⟩)
  | applyCommitted | applyNext | snapLoad | snapTerm | snapDump | snapSave | snapCompact
  | handleInstallSnapshot | installTerm | installRole | installLoad | installSave =>
    exact .inr (.inr ⟨rfl, rfl, rfl⟩)
  | _ => exact h.elim

theorem Task.inCall_of_restoring (h : t.restoring) : t.inCall = .installSnapshot := by
  cases t with
  | installBoundary | installIndices => rfl
  | _ => cases h

theorem Task.inCall_of_applying (h : t.applying) : t.inCall = .apply := by
  cases t with
  | applyEntry | applyMark | snapLoad | snapTerm | snapDump => rfl
  | _ => cases h

/-- The regions are entered by a restore and by the reading of an entry. -/
theorem Task.regions_next (ht : t.next me o n = .inl t') :
    (t'.restoring → t.restoring ∨ t.restores o) ∧ (t'.applying → t.applying ∨ t.readsEntry n) := by
  cases t with
  | applyNext applied commit =>
    dsimp only [Task.next] at ht
    split at ht
    · next hlt =>
      split at ht <;> cases ht
      next e he =>
      exact ⟨fun h => (by cases h), fun _ =>
        .inr (by simp [Task.readsEntry, hlt, he, Except.isOk, Except.toBool])⟩
    · cases ht
  | applyEntry | applyMark | snapLoad | snapTerm =>
    dsimp only [Task.next] at ht
    split at ht <;> cases ht <;> exact ⟨fun h => (by cases h), fun _ => .inl rfl⟩
  | installRestore =>
    dsimp only [Task.next] at ht
    split at ht <;> cases ht
    next hc => exact ⟨fun _ => .inr hc, fun h => (by cases h)⟩
  | installBoundary =>
    dsimp only [Task.next] at ht
    split at ht <;> cases ht
    exact ⟨fun _ => .inl rfl, fun h => (by cases h)⟩
  | applyCommitted | snapDump | snapCompact | installTerm | installRole =>
    cases ht
    exact ⟨fun h => (by cases h), fun h => (by cases h)⟩
  | snapSave | installSave =>
    dsimp only [Task.next] at ht
    split at ht <;> cases ht <;> exact ⟨fun h => (by cases h), fun h => (by cases h)⟩
  | handleInstallSnapshot | installLoad =>
    dsimp only [Task.next] at ht
    split at ht
    · cases ht
    · split at ht <;> cases ht <;> exact ⟨fun h => (by cases h), fun h => (by cases h)⟩
  | installIndices => cases ht
  | _ =>
    have hcall := Task.next_inCall ht
    exact ⟨fun h => (by cases hcall.symm.trans (Task.inCall_of_restoring h)),
      fun h => (by cases hcall.symm.trans (Task.inCall_of_applying h))⟩

theorem Task.Excludes.next {u : Task} (h : u.Excludes t) (ht : t.next me o n = .inl t')
    (hrestores : t.restores o → u.restoring = false ∧ u.applying = false)
    (hreads : t.readsEntry n → u.restoring = false) : u.Excludes t' := by
  obtain ⟨hres, happ⟩ := Task.regions_next ht
  have hsymm := h.symm
  have hres' (hr : t'.restoring) : u.restoring = false ∧ u.applying = false :=
    (hres hr).elim hsymm.restoring hrestores
  have happ' (ha : t'.applying) : u.restoring = false := (happ ha).elim hsymm.applying hreads
  refine Task.Excludes.symm ⟨fun ha => ?_, hres', happ'⟩
  exact hsymm.apply (Task.isApply_next ht ▸ ha)

/-- While the apply loop reads an entry, nothing else keeps the state machine and `lastApplied`
apart. -/
theorem Task.settled_of_reads {u : Task} (ht : t.readsEntry n) (hu : u.unsettled)
    (hne : u = t ∨ u.Excludes t ∧ u.restoring = false) : False := by
  cases t with
  | applyNext =>
    rcases hne with rfl | ⟨hex, hres⟩
    · cases hu
    · cases u with
      | applyMark => cases hex.apply rfl
      | installBoundary | installIndices => cases hres
      | _ => cases hu
  | _ => cases ht

/-! ## Interleavings -/

def installingOutline (l : List Entry) : Outline Process Task StorageOutcome Options where
  shared _ p := Stored l p.state.node ∧
    (Synced l p.state.node.lastApplied p.state.node.sm ∨ ∃ u ∈ p.tasks, u.unsettled)
  here _ s t := t.Syncs l s.node
  apart := Task.Excludes

/-- One `applyCommitted` at a time and any number of `HandleInstallSnapshot` calls, on the sequence
`l`, that keep apart. -/
abbrev Installing (l : List Entry) : NodePool → NodeTurn → Prop :=
  Allows (installing l) (fun s us t o => ReadsFrom l s us t o ∧ Separate s us t o) false

theorem installing_valid (l : List Entry) : (installingOutline l).Valid threads (Installing l) where
  symm := Task.Excludes.symm
  call := by
    intro tr p t h hok
    have hstate : Synced l p.state.node.lastApplied p.state.node.sm ∨
        ∃ u ∈ p.tasks ++ [t], u.unsettled :=
      h.shared.2.imp_right fun ⟨u, hu, hset⟩ => ⟨u, List.mem_append_left _ hu, hset⟩
    cases t with
    | applyCommitted =>
      refine ⟨⟨h.shared.1, hstate⟩, trivial, fun u hu => ⟨h.here u hu, ?_⟩⟩
      have hu' : u.isApply = false := hok u hu
      refine ⟨fun ha => absurd ha (by simp [hu']), fun _ => ⟨rfl, rfl⟩, fun _ => rfl⟩
    | handleInstallSnapshot req =>
      exact ⟨⟨h.shared.1, hstate⟩, hok, fun u hu => ⟨h.here u hu,
        ⟨fun _ => rfl, fun _ => ⟨rfl, rfl⟩, fun _ => rfl⟩⟩⟩
    | _ => exact hok.elim
  run := by
    intro tr p t o s l₁ l₂ x h hok ht hex
    cases hex
    have hself : t.Syncs l p.state.node := h.self ht
    obtain ⟨hread, htear, hrestores, hreads⟩ := hok.of_run ht
    have hex {u} (hu : u ∈ l₁ ++ l₂) : u.Excludes t := h.apart_other Task.Excludes.symm ht hu
    refine ⟨⟨hself.stored p.state.me h.shared.1 htear, ?_⟩, fun u hu => ?_, fun t' ht' => ⟨?_, ?_⟩⟩
    · rcases hself.settles p.state.me htear with hs | ⟨t', ht', hset⟩ | ⟨hset, hsm, hlast⟩
      · exact .inl hs
      · refine .inr ⟨t', ?_, hset⟩
        dsimp only [threads]
        rw [ht']
        simp
      · rcases h.shared.2 with hs | ⟨u, hu, hset'⟩
        · left
          dsimp only [threads]
          rw [hsm, hlast]
          exact hs
        · -- the task that is unsettled is not the one that moves
          refine .inr ⟨u, ?_, hset'⟩
          rw [ht] at hu
          have hne : u ≠ t := fun heq => by simp [heq, hset] at hset'
          simp only [List.mem_append, List.mem_cons] at hu ⊢
          tauto
    · exact (h.other ht hu : u.Syncs l _).other p.state.me hself (hex hu).symm
        fun hr => hrestores hr u hu
    · refine hself.next h.shared.1 hread (fun hr => ?_) ht'
      refine h.shared.2.resolve_right fun ⟨u, hu, hset⟩ => Task.settled_of_reads hr hset ?_
      rw [ht] at hu
      have hu : u = t ∨ u ∈ l₁ ++ l₂ := by
        simp only [List.mem_append, List.mem_cons] at hu ⊢
        tauto
      exact hu.imp_right fun hu => ⟨hex hu, hreads hr u hu⟩
    · exact fun u hu => (hex hu).next ht' (fun hr => hrestores hr u hu) fun hr => hreads hr u hu
  crash h hok hs := by cases hok

/-- **The state machine is at `lastApplied` whenever no call is in progress, and the stored snapshot
is at its index**, in interleavings in which a snapshot is not restored while the apply loop works
on an entry or another snapshot is being restored. -/
theorem state_in_sync (hkeyed : n.log.Keyed) (hstate : Synced l n.lastApplied n.sm)
    (hstore : ∀ s ∈ n.snapStore, Synced l s.2.lastIncludedIndex s.1.pairs)
    (h : Runs threads (Installing l) ⟨me, n⟩ tr p) :
    (p.tasks = [] → Synced l p.state.node.lastApplied p.state.node.sm) ∧
      ∀ s ∈ p.state.node.snapStore, Synced l s.2.lastIncludedIndex s.1.pairs := by
  have h₀ : (installingOutline l).shared [] ⟨⟨me, n⟩, []⟩ := ⟨⟨hstore, hkeyed⟩, .inl hstate⟩
  obtain ⟨hstored, hsync⟩ := ((installing_valid l).holds h₀ h).shared
  refine ⟨fun hidle => hsync.resolve_right fun ⟨u, hu, _⟩ => ?_, hstored.store⟩
  rw [hidle] at hu
  cases hu

/-! ## A follower with one entry -/

/-- A follower that has the first entry of `twoPuts` and knows that it is committed. -/
def fed (threshold : ℕ) : Process :=
  let s := newProcess threshold
  { s with node := (s.node.handleAppendEntries (feed (twoPuts.take 1) 1)).1 }

def snapshotReq (l : List Entry) (i : ℕ) : InstallSnapshotRequest :=
  ⟨1, "n2", i, 1, .encoded ⟨replay (l.take i)⟩⟩

theorem SnapshotOf.snapshotReq (hi : i ≤ l.length) : SnapshotOf l (snapshotReq l i) :=
  ⟨hi, fun h => by cases h; rfl⟩

theorem fed_keyed (threshold : ℕ) : (fed threshold).node.log.Keyed := by
  intro e (he : e ∈ twoPuts.take 1)
  cases List.mem_singleton.mp he
  exact ⟨le_rfl, le_rfl⟩

theorem fed_synced (threshold : ℕ) :
    Synced twoPuts (fed threshold).node.lastApplied (fed threshold).node.sm :=
  ⟨Nat.zero_le _, rfl⟩

theorem fed_store (threshold : ℕ) : ∀ s ∈ (fed threshold).node.snapStore,
    Synced twoPuts s.2.lastIncludedIndex s.1.pairs := fun s hs => by cases hs

/-- As `installing`, without a look into the snapshots. -/
def installs (p : NodePool) : Task → Prop
  | .applyCommitted => ∀ u ∈ p.tasks, u.isApply = false
  | .handleInstallSnapshot _ => True
  | _ => False

instance : Decidable (installs p t) := by
  apply Task.casesOn (motive := fun t => Decidable (installs p t)) t <;> intros <;>
    unfold installs <;> infer_instance

/-- One apply loop, that is stopped after `j` steps for a snapshot at index 2 to be installed and
then takes `k` more. -/
def overtaken (j k : ℕ) : List NodeTurn :=
  (.call .applyCommitted :: stepsOf 0 j : List NodeTurn) ++
    (.call (.handleInstallSnapshot (snapshotReq twoPuts 2)) :: stepsOf 1 7 : List NodeTurn) ++
    stepsOf 0 k

theorem overtaken_allowed {steps : Process → List Task → Task → StorageOutcome → Prop}
    {q : NodePool} {a : NodeTurn} (ha : a ∈ overtaken j k) (hq : Allows installs steps false q a) :
    Allows (installing twoPuts) steps false q a := by
  cases a with
  | call t =>
    cases t with
    | applyCommitted => exact hq
    | handleInstallSnapshot req =>
      have hreq : req = snapshotReq twoPuts 2 := by
        simpa [overtaken, stepsOf, List.mem_replicate] using ha
      exact hreq ▸ SnapshotOf.snapshotReq (by decide)
    | _ => exact hq.elim
  | run => exact hq
  | crash => exact hq

/-- The snapshot is installed when the apply loop is between two entries. -/
theorem state_in_sync_between : ∃ tr p,
    Runs threads (Installing twoPuts) (fed 1) tr p ∧ p.tasks = [] ∧
    p.state.node.lastApplied = 2 ∧
    (p.tasks = [] → Synced twoPuts p.state.node.lastApplied p.state.node.sm) ∧
    ∀ s ∈ p.state.node.snapStore, Synced twoPuts s.2.lastIncludedIndex s.1.pairs := by
  have hx : Reaches threads (Allows installs
      (fun s us t o => ReadsFrom twoPuts s us t o ∧ Separate s us t o) false) (fed 1)
      (overtaken 9 1) fun _ p => p.tasks.isEmpty ∧ p.state.node.lastApplied = 2 := by
    decide +kernel
  obtain ⟨tr, p, h, hidle, hlast⟩ := hx.runs_of overtaken_allowed
  exact ⟨tr, p, h, List.isEmpty_iff.mp hidle, hlast,
    state_in_sync (fed_keyed 1) (fed_synced 1) (fed_store 1) h⟩

/-- The apply loop applies the first entry to the state of the second one, or labels the state of
the second one with the index of the first. -/
theorem state_in_sync_fails :
    (∃ tr p, Runs threads (Allows (installing twoPuts) (ReadsFrom twoPuts) false) (fed 0) tr p ∧
      p.tasks = [] ∧ ¬Synced twoPuts p.state.node.lastApplied p.state.node.sm) ∧
    ∃ tr p, Runs threads (Allows (installing twoPuts) (ReadsFrom twoPuts) false) (fed 1) tr p ∧
      p.tasks = [] ∧
        ∃ s ∈ p.state.node.snapStore, ¬Synced twoPuts s.2.lastIncludedIndex s.1.pairs := by
  have hstate : Reaches threads (Allows installs (ReadsFrom twoPuts) false) (fed 0)
      (overtaken 2 3) fun _ p => p.tasks.isEmpty ∧
        p.state.node.sm "b" ≠ replay (twoPuts.take p.state.node.lastApplied) "b" := by
    decide +kernel
  have hstore : Reaches threads (Allows installs (ReadsFrom twoPuts) false) (fed 1)
      (overtaken 6 4) fun _ p => p.tasks.isEmpty ∧ ∃ s ∈ p.state.node.snapStore,
        s.1.pairs "b" ≠ replay (twoPuts.take s.2.lastIncludedIndex) "b" := by
    decide +kernel
  obtain ⟨tr, p, h, hidle, hb⟩ := hstate.runs_of overtaken_allowed
  obtain ⟨tr', p', h', hidle', s, hs, hb'⟩ := hstore.runs_of overtaken_allowed
  exact ⟨⟨tr, p, h, List.isEmpty_iff.mp hidle, fun hsync => hb (congrFun hsync.eq "b")⟩,
    tr', p', h', List.isEmpty_iff.mp hidle', s, hs, fun hsync => hb' (congrFun hsync.eq "b")⟩

end DistributedKV.Raft
