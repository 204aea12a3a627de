import DistributedKV.Raft.SnapshotStore

/-!
# Saving a snapshot

What the snapshot directory holds at each system call of `Save`. A crash or an error is harmless
except between the two renames, where the new data stand under the old meta, and in the fallback of
`replaceFile` between its `Remove` and its second `Rename` (`save_atomic`). The rest of the node,
which sees the store and not the files, needs to know no more than how far `Save` got
(`save_outcome`).
-/

namespace DistributedKV.Raft

open Theory

variable {fs₀ fs : Files} {snap : Snapshot} {info : SnapshotMeta}

/-- The `.tmp` file is complete. -/
def SysCall.written : SysCall → Bool
  | .openFile | .write => false
  | _ => true

/-- What `Save` has done to the directory when the call at `pt` comes next, or has failed. -/
structure SavedTo (fs₀ : Files) (snap : Snapshot) (info : SnapshotMeta) (fs : Files)
    (pt : SavePoint) : Prop where
  dataFile : fs.data = match pt.target, pt.call with
    | .data, .renameAgain => none
    | .data, _ => fs₀.data
    | .info, _ => some snap.marshal
  metaFile : fs.info = match pt.target, pt.call with
    | .info, .renameAgain => none
    | _, _ => fs₀.info
  tmp : pt.call.written → match pt.target with
    | .data => fs.tmpData = some snap.marshal
    | .info => fs.tmpMeta = some (.encoded info)

/-- What `Save` has done so far, or at its end. -/
def SaveState (fs₀ : Files) (snap : Snapshot) (info : SnapshotMeta) (fs : Files) :
    Saving ⊕ Except SavePoint Unit → Prop
  | .inl sv => sv.snap = snap ∧ sv.info = info ∧ SavedTo fs₀ snap info fs sv.point
  | .inr (.error pt) => SavedTo fs₀ snap info fs pt
  | .inr (.ok ()) => fs.data = some snap.marshal ∧ fs.info = some (.encoded info)

theorem SaveState.exec (h : SaveState fs₀ snap info fs (.inl sv)) (ok : Bool) :
    SaveState fs₀ snap info (sv.exec fs ok).1 (sv.exec fs ok).2 := by
  obtain ⟨snap', info', target, call⟩ := sv
  obtain ⟨rfl, rfl, hdata, hmeta, htmp⟩ := h
  dsimp only at hdata hmeta htmp
  cases ok with
  | false =>
    cases call with
    | rename => cases target <;> exact ⟨rfl, rfl, hdata, hmeta, htmp⟩
    | openFile | write | sync | close | remove | renameAgain => exact ⟨hdata, hmeta, htmp⟩
  | true =>
    cases call with
    | openFile => cases target <;> exact ⟨rfl, rfl, hdata, hmeta, fun h => by cases h⟩
    | write => cases target <;> exact ⟨rfl, rfl, hdata, hmeta, fun _ => rfl⟩
    | sync | close => cases target <;> exact ⟨rfl, rfl, hdata, hmeta, htmp⟩
    | remove =>
      cases target with
      | data => exact ⟨rfl, rfl, rfl, hmeta, htmp⟩
      | info => exact ⟨rfl, rfl, hdata, rfl, htmp⟩
    | rename | renameAgain =>
      cases target with
      | data => exact ⟨rfl, rfl, htmp rfl, hmeta, fun h => by cases h⟩
      | info => exact ⟨hdata, htmp rfl⟩

/-- However far `Save` gets. -/
theorem save_state (fs₀ : Files) (snap : Snapshot) (info : SnapshotMeta) (is : List Bool) :
    SaveState fs₀ snap info (saver.advance fs₀ (.start snap info) is).1
      (saver.advance fs₀ (.start snap info) is).2 := by
  refine Program.advance_induct (P := saver) (fun _ => True) (fun h _ => SaveState.exec h _)
    ⟨rfl, rfl, rfl, rfl, fun h => ?_⟩ fun _ _ => trivial
  cases h

/-! ## Loading -/

theorem Files.loadLatest_congr (hdata : fs.data = fs₀.data) (hmeta : fs.info = fs₀.info) :
    fs.loadLatest = fs₀.loadLatest := by
  unfold Files.loadLatest
  rw [hdata, hmeta]

theorem Files.loadLatest_none (hmeta : fs.info = none) : fs.loadLatest = .ok none := by
  unfold Files.loadLatest
  rw [hmeta]

theorem Files.loadLatest_some (hdata : fs.data = some snap.marshal)
    (hmeta : fs.info = some (.encoded info)) : fs.loadLatest = .ok (some (snap, info)) := by
  unfold Files.loadLatest
  rw [hdata, hmeta]
  rfl

/-- A store that loads has no meta file, or two files that belong together. -/
theorem Files.loadLatest_ok (h : fs.loadLatest = .ok prev) :
    prev = none ∧ fs.info = none ∨
      ∃ snap info, prev = some (snap, info) ∧ fs.data = some snap.marshal ∧
        fs.info = some (.encoded info) := by
  unfold Files.loadLatest at h
  cases hmeta : fs.info with
  | none => rw [hmeta] at h; cases h; exact .inl ⟨rfl, rfl⟩
  | some m =>
    rw [hmeta] at h
    cases m with
    | malformed => cases h
    | encoded info =>
      cases hdata : fs.data with
      | none => rw [hdata] at h; cases h
      | some data =>
        rw [hdata] at h
        cases data with
        | malformed => cases h
        | encoded snap => cases h; exact .inr ⟨snap, info, rfl, rfl, rfl⟩

/-- Where a `Save` stopped, if not at its end. -/
def stoppedAt : Saving ⊕ Except SavePoint Unit → Option SavePoint
  | .inl sv => some sv.point
  | .inr (.error pt) => some pt
  | .inr (.ok ()) => none

namespace SavePoint

/-- One of the two files has been replaced or removed. -/
def torn (pt : SavePoint) : Bool := pt.target = .info ∨ pt.call = .renameAgain

/-- The data file has been replaced, and the meta file is the one that was there before. -/
def mixed (pt : SavePoint) : Bool := pt.target = .info ∧ pt.call ≠ .renameAgain

end SavePoint

theorem SaveState.stopped {x : Saving ⊕ Except SavePoint Unit} (h : SaveState fs₀ snap info fs x) :
    (∃ pt, stoppedAt x = some pt ∧ SavedTo fs₀ snap info fs pt) ∨
      x = .inr (.ok ()) ∧ fs.data = some snap.marshal ∧ fs.info = some (.encoded info) := by
  match x, h with
  | .inl sv, ⟨_, _, h⟩ => exact .inl ⟨_, rfl, h⟩
  | .inr (.error pt), h => exact .inl ⟨_, rfl, h⟩
  | .inr (.ok ()), h => exact .inr ⟨rfl, h⟩

/-- A `Save` that has not returned nil. -/
theorem save_stopped (hadv : saver.advance fs₀ (.start snap info) is = (fs, x))
    (hx : x ≠ .inr (.ok ())) : ∃ pt, SavedTo fs₀ snap info fs pt := by
  have hstate := save_state fs₀ snap info is
  rw [hadv] at hstate
  rcases hstate.stopped with ⟨pt, -, h⟩ | ⟨rfl, -⟩
  · exact ⟨pt, h⟩
  · exact absurd rfl hx

theorem SavedTo.untorn (h : SavedTo fs₀ snap info fs pt) (ht : pt.torn = false) :
    fs.data = fs₀.data ∧ fs.info = fs₀.info := by
  obtain ⟨target, call⟩ := pt
  obtain ⟨hdata, hmeta, -⟩ := h
  cases target with
  | info => cases ht
  | data =>
    cases call with
    | renameAgain => cases ht
    | openFile | write | sync | close | rename | remove => exact ⟨hdata, hmeta⟩

theorem SavedTo.metaFile_none (h : SavedTo fs₀ snap info fs pt) (hnone : fs₀.info = none) :
    fs.info = none := by
  rw [h.metaFile]
  split
  · rfl
  · exact hnone

theorem save_returned (hadv : saver.advance fs₀ (.start snap info) is = (fs, .inr (.ok ()))) :
    fs.loadLatest = .ok (some (snap, info)) := by
  have hstate := save_state fs₀ snap info is
  rw [hadv] at hstate
  exact Files.loadLatest_some hstate.1 hstate.2

/-- What loads where a `Save` on a directory with a snapshot has stopped. -/
theorem SavedTo.loads (h : SavedTo fs₀ snap info fs pt)
    (hload : fs₀.loadLatest = .ok (some (snap₀, info₀))) :
    fs.loadLatest = match pt.target, pt.call with
      | .data, .renameAgain => .error .dataMissing
      | .data, _ => .ok (some (snap₀, info₀))
      | .info, .renameAgain => .ok none
      | .info, _ => .ok (some (snap, info₀)) := by
  obtain ⟨_, _, heq, -, hsome⟩ := (Files.loadLatest_ok hload).resolve_left fun h => by cases h.1
  cases heq
  by_cases ht : pt.torn = true
  · obtain ⟨target, call⟩ := pt
    obtain ⟨hdata, hmeta, -⟩ := h
    cases target with
    | data =>
      obtain rfl : call = .renameAgain := by simpa [SavePoint.torn] using ht
      unfold Files.loadLatest
      rw [hdata, hmeta, hsome]
    | info =>
      cases call with
      | renameAgain => exact Files.loadLatest_none hmeta
      | openFile | write | sync | close | rename | remove =>
        exact Files.loadLatest_some hdata (hmeta.trans hsome)
  · obtain ⟨hdata, hmeta⟩ := h.untorn (by simpa using ht)
    rw [Files.loadLatest_congr hdata hmeta, hload]
    obtain ⟨target, call⟩ := pt
    cases target with
    | info => exact (ht rfl).elim
    | data =>
      cases call with
      | renameAgain => exact (ht rfl).elim
      | openFile | write | sync | close | rename | remove => rfl

/-- **A `Save` that crashes or fails leaves the previous snapshot or the new one** exactly if there
was no snapshot before, or it does not stop where one of the files has been replaced or removed, or
it stops between the two renames and the two pairs have their data or their meta in common. -/
theorem save_atomic (hload : fs₀.loadLatest = .ok prev) (snap : Snapshot) (info : SnapshotMeta)
    (is : List Bool) :
    (saver.advance fs₀ (.start snap info) is).1.loadLatest = .ok prev ∨
        (saver.advance fs₀ (.start snap info) is).1.loadLatest = .ok (some (snap, info)) ↔
      ∀ pt ∈ stoppedAt (saver.advance fs₀ (.start snap info) is).2, ∀ p ∈ prev,
        pt.torn = false ∨ pt.mixed = true ∧ (snap = p.1 ∨ info = p.2) := by
  rcases (save_state fs₀ snap info is).stopped with ⟨pt, hstop, hpart⟩ | ⟨hend, hdata, hmeta⟩
  · rw [hstop]
    rcases Files.loadLatest_ok hload with ⟨rfl, hnone⟩ | ⟨snap₀, info₀, rfl, -⟩
    · simp [Files.loadLatest_none (hpart.metaFile_none hnone)]
    · rw [hpart.loads hload]
      obtain ⟨target, call⟩ := pt
      cases target <;> cases call <;>
        simp [SavePoint.torn, SavePoint.mixed, @eq_comm _ info]
  · rw [hend, Files.loadLatest_some hdata hmeta]
    simp [stoppedAt]

/-- A directory with a snapshot of index 1, and the snapshot of index 2 to be saved. -/
def savedOnce : Files where
  data := some (.encoded ⟨fun _ => none⟩)
  info := some (.encoded ⟨1, 1⟩)

def second : Snapshot := ⟨fun k => if k = "a" then some [1] else none⟩

/-- The data file cannot be renamed or removed, so the previous snapshot stays. -/
theorem save_atomic_refused :
    savedOnce.loadLatest = .ok (some (⟨fun _ => none⟩, ⟨1, 1⟩)) ∧
    stoppedAt (saver.advance savedOnce (.start second ⟨2, 1⟩)
      [true, true, true, true, false, false]).2 = some ⟨.data, .remove⟩ ∧
    ((saver.advance savedOnce (.start second ⟨2, 1⟩)
        [true, true, true, true, false, false]).1.loadLatest =
          .ok (some (⟨fun _ => none⟩, ⟨1, 1⟩)) ∨
      (saver.advance savedOnce (.start second ⟨2, 1⟩)
        [true, true, true, true, false, false]).1.loadLatest = .ok (some (second, ⟨2, 1⟩))) := by
  refine ⟨rfl, rfl, (save_atomic rfl second ⟨2, 1⟩ _).mpr fun pt hpt _ _ => ?_⟩
  cases hpt
  exact .inl rfl

/-- A crash after the data file has been renamed leaves the new data under the old meta. With the
fallback of `replaceFile`, a crash leaves a directory that does not load, or an empty one. -/
theorem save_atomic_fails :
    savedOnce.loadLatest = .ok (some (⟨fun _ => none⟩, ⟨1, 1⟩)) ∧
    (saver.advance savedOnce (.start second ⟨2, 1⟩)
      [true, true, true, true, true]).1.loadLatest = .ok (some (second, ⟨1, 1⟩)) ∧
    (saver.advance savedOnce (.start second ⟨2, 1⟩)
      [true, true, true, true, false, true]).1.loadLatest = .error .dataMissing ∧
    (saver.advance savedOnce (.start second ⟨2, 1⟩)
      [true, true, true, true, true, true, true, true, true, false, true]).1.loadLatest =
        .ok none ∧
    second ≠ ⟨fun _ => none⟩ := by
  refine ⟨rfl, rfl, rfl, rfl, fun h => ?_⟩
  have := congrArg (fun s : Snapshot => s.pairs "a") h
  cases this

/-! ## What the node sees -/

/-- The directory loads `latest`, or it has the meta file `orphan` and no data file. -/
inductive Files.Holds (fs : Files) :
    Option (Snapshot × SnapshotMeta) → Option SnapshotMeta → Prop where
  | empty : fs.info = none → fs.Holds none none
  | pair {s : Snapshot} {m : SnapshotMeta} : fs.info = some (.encoded m) →
    fs.data = some s.marshal → fs.Holds (some (s, m)) none
  | orphan {m : SnapshotMeta} : fs.info = some (.encoded m) → fs.data = none →
    fs.Holds none (some m)

namespace Files.Holds

variable {prev : Option (Snapshot × SnapshotMeta)} {orphan info₀ : Option SnapshotMeta}

theorem congr (h : fs₀.Holds prev orphan) (hdata : fs.data = fs₀.data)
    (hmeta : fs.info = fs₀.info) : fs.Holds prev orphan := by
  cases h with
  | empty h => exact .empty (hmeta.trans h)
  | pair h hd => exact .pair (hmeta.trans h) (hdata.trans hd)
  | orphan h hd => exact .orphan (hmeta.trans h) (hdata.trans hd)

theorem info_eq (h : fs.Holds prev orphan) : fs.info = (metaFile prev orphan).map .encoded := by
  cases h with
  | empty h => exact h
  | pair h | orphan h => exact h

/-- The meta file stays, the data file is gone. -/
theorem lose (hdata : fs.data = none) (hmeta : fs.info = info₀.map .encoded) :
    fs.Holds none info₀ := by
  cases info₀ with
  | none => exact .empty hmeta
  | some info₀ => exact .orphan hmeta hdata

/-- The meta file stays, the data file is a new one. -/
theorem mix (hdata : fs.data = some snap.marshal) (hmeta : fs.info = info₀.map .encoded) :
    fs.Holds (info₀.map fun info => (snap, info)) none := by
  cases info₀ with
  | none => exact .empty hmeta
  | some info₀ => exact .pair hmeta hdata

end Files.Holds

theorem SavedTo.outcome (h : SavedTo fs₀ snap info fs pt) (hold : fs₀.Holds prev orphan) :
    ∃ so : SaveOutcome, so ≠ .done ∧
      fs.Holds (so.store prev orphan snap info) (so.orphan prev orphan) := by
  cases ht : pt.torn with
  | false =>
    obtain ⟨hdata, hmeta⟩ := h.untorn ht
    exact ⟨.before, by simp, hold.congr hdata hmeta⟩
  | true =>
    obtain ⟨target, call⟩ := pt
    obtain ⟨hdata, hmeta, -⟩ := h
    cases target with
    | data =>
      obtain rfl : call = .renameAgain := by simpa [SavePoint.torn] using ht
      exact ⟨.dataRemoved, by simp, .lose hdata (hmeta.trans hold.info_eq)⟩
    | info =>
      cases call with
      | renameAgain => exact ⟨.metaRemoved, by simp, .empty hmeta⟩
      | openFile | write | sync | close | rename | remove =>
        exact ⟨.dataOnly, by simp, .mix hdata (hmeta.trans hold.info_eq)⟩

/-- What a `Save` leaves behind is one of the outcomes that the node's steps are given; it is the
last one exactly if `Save` returns nil. -/
theorem save_outcome (hold : fs₀.Holds prev orphan) (snap : Snapshot) (info : SnapshotMeta)
    (is : List Bool) :
    ∃ so : SaveOutcome,
      (saver.advance fs₀ (.start snap info) is).1.Holds (so.store prev orphan snap info)
        (so.orphan prev orphan) ∧
      ((saver.advance fs₀ (.start snap info) is).2 = .inr (.ok ()) ↔ so = .done) := by
  rcases (save_state fs₀ snap info is).stopped with ⟨pt, hstop, hpart⟩ | ⟨hend, hdata, hmeta⟩
  · obtain ⟨so, hso, hnext⟩ := hpart.outcome hold
    refine ⟨so, hnext, fun hend => ?_, fun hdone => absurd hdone hso⟩
    rw [hend] at hstop
    cases hstop
  · exact ⟨.done, .pair hmeta hdata, fun _ => rfl, fun _ => hend⟩

end DistributedKV.Raft
