import DistributedKV.Raft.Faults
import DistributedKV.Verify.Replication
import DistributedKV.Verify.SnapshotStore

/-!
# Snapshots that are sent again

`HandleInstallSnapshot` saves the snapshot before it does anything else with it, and takes a
snapshot that is in the store for one that has been installed. A leader that sends the snapshot
again makes up for a `Save` that failed, wherever that was, but not for what failed after it.
-/

namespace DistributedKV.Raft

/-! ## The snapshot directory -/

namespace Files

/-- The meta file, if there is one, is of a snapshot before `index`. -/
def Older (fs : Files) (index : ℕ) : Prop :=
  ∀ info, fs.info = some (.encoded info) → info.lastIncludedIndex < index

theorem latest_eq {fs : Files} (h : fs.loadLatest = .ok prev) : fs.latest = prev := by
  rw [latest, h]

/-- The meta file of a directory without a data file. -/
def orphan (fs : Files) : Option SnapshotMeta :=
  match fs.info, fs.data with
  | some (.encoded info), none => some info
  | _, _ => none

namespace Holds

variable {fs : Files} {prev : Option (Snapshot × SnapshotMeta)} {info₀ : Option SnapshotMeta}

theorem latest (h : fs.Holds prev info₀) : fs.latest = prev := by
  cases h with
  | empty hmeta => exact latest_eq (loadLatest_none hmeta)
  | pair hmeta hdata => exact latest_eq (loadLatest_some hdata hmeta)
  | orphan hmeta hdata =>
    unfold Files.latest loadLatest
    rw [hmeta, hdata]

theorem orphan_eq (h : fs.Holds prev info₀) : fs.orphan = info₀ := by
  unfold Files.orphan
  cases h with
  | empty hmeta => rw [hmeta]
  | pair hmeta hdata => rw [hmeta, hdata]
  | orphan hmeta hdata => rw [hmeta, hdata]

end Holds

theorem Older.latest {fs : Files} (h : fs.Older index) :
    fs.latest.any (fun s => index ≤ s.2.lastIncludedIndex) = false := by
  unfold Files.latest
  cases hload : fs.loadLatest with
  | error => rfl
  | ok prev =>
    rcases loadLatest_ok hload with ⟨rfl, -⟩ | ⟨snap, info, rfl, -, hinfo⟩
    · rfl
    · simpa using h info hinfo

end Files

/-- A `Save` that stops midway leaves the meta file or none. -/
theorem SavedTo.older (h : SavedTo fs₀ snap info fs pt) (hold : fs₀.Older index) :
    fs.Older index := by
  intro info' hinfo
  rw [h.metaFile] at hinfo
  split at hinfo
  · cases hinfo
  · exact hold info' hinfo

namespace Node

variable {n : Node} {fs : Files} {req : InstallSnapshotRequest} {snap : Snapshot}

/-- The node with what the directory holds in its store. -/
def mount (n : Node) (fs : Files) : Node :=
  { n with snapStore := fs.latest, orphanMeta := fs.orphan }

theorem mount_eq (hold : fs.Holds n.snapStore n.orphanMeta) : n.mount fs = n := by
  rw [mount, hold.latest, hold.orphan_eq]

theorem installSaved_mount (o : InstallCalls) (n : Node) (req : InstallSnapshotRequest)
    (snap : Snapshot) (fs : Files) :
    (n.installSaved o req snap).mount fs = (n.mount fs).installSaved o req snap := by
  unfold installSaved
  cases o.restore with
  | false => rfl
  | true => cases o.boundary <;> rfl

/-- What happens on a directory happens on the store that it holds. -/
theorem installOn_refines (o : InstallCalls) (n : Node) (req : InstallSnapshotRequest)
    (hold : fs.Holds n.snapStore n.orphanMeta) :
    ∃ so, (n.installOn o fs req).1.mount (n.installOn o fs req).2 =
      n.installWith ⟨o.stepDown, o.load, so, o.restore, o.boundary⟩ req := by
  unfold installOn installWith
  rw [hold.latest]
  split
  · exact ⟨.done, mount_eq hold⟩
  cases unmarshalSnapshot req.data with
  | none => exact ⟨.done, mount_eq hold⟩
  | some snap =>
    dsimp only
    obtain ⟨so, hnext, hdone⟩ :=
      save_outcome hold snap ⟨req.lastIncludedIndex, req.lastIncludedTerm⟩ o.save
    refine ⟨so, ?_⟩
    split
    · next fs' hadv =>
      rw [hadv] at hnext hdone
      obtain rfl : so = .done := hdone.mp rfl
      rw [installSaved_mount, mount, hnext.latest, hnext.orphan_eq]
      rfl
    · next fs' x hno hadv =>
      rw [hadv] at hnext hdone
      rw [if_pos fun h => hno (hdone.mpr h), mount, hnext.latest, hnext.orphan_eq]
      rfl

/-- `HandleInstallSnapshot` on the directory is the one on the store, for one of the outcomes of
`Save`. -/
theorem handleInstallSnapshotOn_refines (o : InstallCalls)
    (hold : fs.Holds n.snapStore n.orphanMeta) :
    let r := n.handleInstallSnapshotOn o fs req
    ∃ so, (r.1.1.mount r.1.2, r.2) =
      n.handleInstallSnapshotWith ⟨o.stepDown, o.load, so, o.restore, o.boundary⟩ req := by
  unfold handleInstallSnapshotOn handleInstallSnapshotWith
  split
  · exact ⟨.done, congrArg (·, _) (mount_eq hold)⟩
  · let n₁ : Node := { (if n.log.currentTerm < req.term then
      n.setTermAndVoteWith o.stepDown req.term "" else n) with
        role := .follower, leaderID := req.leaderID }
    have hstore : n₁.snapStore = n.snapStore ∧ n₁.orphanMeta = n.orphanMeta := by
      simp only [n₁]
      split <;> exact ⟨rfl, rfl⟩
    obtain ⟨so, hso⟩ := installOn_refines o n₁ req (by rw [hstore.1, hstore.2]; exact hold)
    exact ⟨so, congrArg (·, _) hso⟩

end Node

/-! ## The second attempt -/

namespace Node

variable {n : Node} {fs : Files} {req : InstallSnapshotRequest} {snap : Snapshot}

/-- `Save` of the snapshot in `req` returns nil. -/
def Saves (o : InstallCalls) (fs : Files) (req : InstallSnapshotRequest) (snap : Snapshot) : Prop :=
  (saver.advance fs (.start snap ⟨req.lastIncludedIndex, req.lastIncludedTerm⟩) o.save).2 =
    .inr (.ok ())

/-- The node once it follows the sender. -/
def following (n : Node) (req : InstallSnapshotRequest) : Node :=
  { n with role := .follower, leaderID := req.leaderID }

/-- In its own term the node goes on with the installation. -/
theorem handleInstallSnapshotOn_current (hterm : req.term = n.log.currentTerm) :
    (n.handleInstallSnapshotOn o fs req).1 = (n.following req).installOn o fs req := by
  simp [handleInstallSnapshotOn, following, hterm]

/-- A snapshot that is newer than the stored one, up to the end of `Save`. -/
theorem handleInstallSnapshotOn_new (o : InstallCalls) (hterm : req.term = n.log.currentTerm)
    (hdata : unmarshalSnapshot req.data = some snap) (hold : fs.Older req.lastIncludedIndex) :
    (¬Saves o fs req snap ∧ ∃ fs', fs'.Older req.lastIncludedIndex ∧
      (n.handleInstallSnapshotOn o fs req).1 = (n.following req, fs')) ∨
    Saves o fs req snap ∧ ∃ fs',
      fs'.loadLatest = .ok (some (snap, ⟨req.lastIncludedIndex, req.lastIncludedTerm⟩)) ∧
      (n.handleInstallSnapshotOn o fs req).1 =
        ((n.following req).installSaved o req snap, fs') := by
  rw [handleInstallSnapshotOn_current hterm, installOn,
    if_neg fun h => by simp [hold.latest] at h, hdata, Saves]
  dsimp only
  split
  · next fs' hadv => exact .inr ⟨by rw [hadv], fs', save_returned hadv, rfl⟩
  · next fs' x hno hadv =>
    obtain ⟨pt, hpart⟩ := save_stopped hadv hno
    exact .inl ⟨by rw [hadv]; exact hno, fs', hpart.older hold, rfl⟩

/-- If nothing fails. -/
theorem handleInstallSnapshotOn_done (hterm : req.term = n.log.currentTerm)
    (hdata : unmarshalSnapshot req.data = some snap) (hold : fs.Older req.lastIncludedIndex) :
    ∃ fs', fs'.loadLatest = .ok (some (snap, ⟨req.lastIncludedIndex, req.lastIncludedTerm⟩)) ∧
      (n.handleInstallSnapshotOn {} fs req).1 =
        ((n.following req).installSaved {} req snap, fs') := by
  rcases handleInstallSnapshotOn_new {} hterm hdata hold with ⟨hno, -⟩ | ⟨-, h⟩
  · exact absurd rfl hno
  · exact h

/-- A snapshot that is stored is not installed again. -/
theorem handleInstallSnapshotOn_stored (hterm : req.term = n.log.currentTerm)
    (hload : fs.loadLatest = .ok (some (snap, ⟨req.lastIncludedIndex, req.lastIncludedTerm⟩))) :
    (n.handleInstallSnapshotOn {} fs req).1 = (n.following req, fs) := by
  rw [handleInstallSnapshotOn_current hterm, installOn, Files.latest_eq hload]
  exact if_pos ⟨rfl, by simp⟩

theorem installSaved_currentTerm :
    (n.installSaved o req snap).log.currentTerm = n.log.currentTerm := by
  unfold installSaved
  split
  · rfl
  · dsimp only
    split <;> exact (PersistentLog.SameBallot.restoreSnapshotBoundary ..).currentTerm

/-- The boundary and the indices are those of the snapshot. -/
def AtSnapshot (n : Node) (req : InstallSnapshotRequest) : Prop :=
  n.log.lastIncludedIndex = req.lastIncludedIndex ∧ n.log.lastIncludedTerm = req.lastIncludedTerm ∧
    n.commitIndex = req.lastIncludedIndex ∧ n.lastApplied = req.lastIncludedIndex

@[simp] theorem following_sm : (n.following req).sm = n.sm := rfl

@[simp] theorem following_atSnapshot : (n.following req).AtSnapshot req ↔ n.AtSnapshot req := .rfl

theorem installSaved_spec (o : InstallCalls) (n : Node) (req : InstallSnapshotRequest)
    (snap : Snapshot) :
    (n.installSaved o req snap).sm = (if o.restore then snap.pairs else n.sm) ∧
      ((n.installSaved o req snap).AtSnapshot req ↔
        o.restore = true ∧ o.boundary = true ∨ n.AtSnapshot req) := by
  unfold installSaved
  cases o.restore with
  | false => simp
  | true =>
    cases o.boundary with
    | false => simp [AtSnapshot, PersistentLog.restoreSnapshotBoundary]
    | true => simp [AtSnapshot, PersistentLog.restoreSnapshotBoundary]

end Node

/-- The two followers have the same contents, boundary, indices and stored snapshot. -/
structure SameInstalled (x y : Node × Files) : Prop where
  sm : x.1.sm = y.1.sm
  boundary : x.1.log.lastIncludedIndex = y.1.log.lastIncludedIndex ∧
    x.1.log.lastIncludedTerm = y.1.log.lastIncludedTerm
  commitIndex : x.1.commitIndex = y.1.commitIndex
  lastApplied : x.1.lastApplied = y.1.lastApplied
  stored : x.2.loadLatest = y.2.loadLatest

theorem sameInstalled_iff {x y : Node × Files} (hsm : y.1.sm = sm) (hat : y.1.AtSnapshot req) :
    SameInstalled x y ↔
      x.1.sm = sm ∧ x.1.AtSnapshot req ∧ x.2.loadLatest = y.2.loadLatest := by
  obtain ⟨hi, ht, hc, hl⟩ := hat
  unfold Node.AtSnapshot
  rw [← hsm, ← hi, ← ht]
  constructor
  · rintro ⟨hsm, ⟨hi', ht'⟩, hc', hl', hstored⟩
    exact ⟨hsm, ⟨hi', ht', hc'.trans (hc.trans hi.symm), hl'.trans (hl.trans hi.symm)⟩, hstored⟩
  · rintro ⟨hsm, ⟨hi', ht', hc', hl'⟩, hstored⟩
    exact ⟨hsm, ⟨hi', ht'⟩, hc'.trans (hi.trans hc.symm), hl'.trans (hi.trans hl.symm), hstored⟩

/-- **A failed installation can be retried** exactly if it is `Save` that fails, or the part that is
left out would change nothing. -/
theorem install_retriable {n : Node} {fs : Files} {req : InstallSnapshotRequest} {snap : Snapshot}
    (o : InstallCalls) (hterm : req.term = n.log.currentTerm)
    (hdata : unmarshalSnapshot req.data = some snap) (hold : fs.Older req.lastIncludedIndex) :
    let first := (n.handleInstallSnapshotOn o fs req).1
    SameInstalled (first.1.handleInstallSnapshotOn {} first.2 req).1
        (n.handleInstallSnapshotOn {} fs req).1 ↔
      ¬Node.Saves o fs req snap ∨ o.restore = true ∧ o.boundary = true ∨
        (o.restore = true ∨ n.sm = snap.pairs) ∧ n.AtSnapshot req := by
  intro first
  obtain ⟨fs₁, hload, hdone⟩ := Node.handleInstallSnapshotOn_done hterm hdata hold
  have hsm : ((n.following req).installSaved {} req snap).sm = snap.pairs := rfl
  have hat : ((n.following req).installSaved {} req snap).AtSnapshot req := ⟨rfl, rfl, rfl, rfl⟩
  rw [hdone, sameInstalled_iff hsm hat]
  rcases Node.handleInstallSnapshotOn_new o hterm hdata hold with
    ⟨hno, fs₂, hold', hs⟩ | ⟨hyes, fs₂, hload', hs⟩
  · -- the retry starts from where the first attempt did
    obtain ⟨fs₃, hload₃, hretry⟩ :=
      Node.handleInstallSnapshotOn_done (n := n.following req) hterm hdata hold'
    simp only [first, hs, hretry]
    exact iff_of_true ⟨hsm, hat, hload₃.trans hload.symm⟩ (.inl hno)
  · -- the retry is taken for a duplicate
    have hterm' : req.term = ((n.following req).installSaved o req snap).log.currentTerm := by
      rw [Node.installSaved_currentTerm]
      exact hterm
    obtain ⟨hsm', hat'⟩ := Node.installSaved_spec o (n.following req) req snap
    have hstored : fs₂.loadLatest = fs₁.loadLatest := hload'.trans hload.symm
    simp only [first, hs, Node.handleInstallSnapshotOn_stored hterm' hload', hstored, and_true,
      Node.following_sm, Node.following_atSnapshot, hsm', hat', hyes, not_true, false_or]
    cases o.restore <;> simp

/-- `Save` cannot create its first file. -/
theorem install_retriable_unsaved :
    let n := followerWith 2 [1, 1]
    let req := snapshotRequest 3 1
    let first := (n.handleInstallSnapshotOn { save := [false] } savedOnce req).1
    first.1.log.lastIncludedIndex = 0 ∧
      SameInstalled (first.1.handleInstallSnapshotOn {} first.2 req).1
        (n.handleInstallSnapshotOn {} savedOnce req).1 :=
  ⟨rfl, (install_retriable { save := [false] } rfl rfl fun _ h => by cases h; decide).mpr
    (.inl fun h => by cases h)⟩

/-- In the first case the state machine cannot be restored, in the second one the boundary cannot.
The retry changes neither, nor the indices. -/
theorem install_retriable_fails :
    let n := followerWith 2 [1, 1]
    let req := { snapshotRequest 3 1 with data := .encoded second }
    let done := (n.handleInstallSnapshotOn {} savedOnce req).1
    let unrestored := (n.handleInstallSnapshotOn { restore := false } savedOnce req).1
    let unbounded := (n.handleInstallSnapshotOn { boundary := false } savedOnce req).1
    let again := (unrestored.1.handleInstallSnapshotOn {} unrestored.2 req).1
    let again' := (unbounded.1.handleInstallSnapshotOn {} unbounded.2 req).1
    (done.1.sm "a" = some [1] ∧ done.1.log.lastIncludedIndex = 3 ∧ done.1.commitIndex = 3) ∧
    (again.1.sm "a" = none ∧ again.1.log.lastIncludedIndex = 0 ∧ again.1.commitIndex = 0) ∧
    (again'.1.sm "a" = some [1] ∧ again'.1.log.lastIncludedIndex = 0 ∧
      again'.1.commitIndex = 0) := by
  decide

end DistributedKV.Raft
