import DistributedKV.Raft.StoredLog
import DistributedKV.Verify.LogRefinement
import DistributedKV.Verify.StateMachine

/-!
# The log and its bytes

The bytes of an engine stand for a typed engine (`Stores`): every entry of the table is under its
key, encoded, and the metadata under theirs. On such an engine the accessors of the log read what
those of the typed log read, a commit leads to the image of what the typed operation leads to
(`perform_on`), and the log is opened as the typed one is (`Stores.openStoredLog`).
-/

namespace DistributedKV

namespace Storage

def Write.key : Write → Bytes
  | .set key _ => key
  | .delete key => key

/-- A batch leaves the keys alone that it does not name. -/
theorem Engine.foldl_write_get {e : Engine} {b : Batch} (h : ∀ w ∈ b, w.key ≠ key) :
    (b.foldl Engine.write e).get key = e.get key := by
  induction b generalizing e with
  | nil => rfl
  | cons w b ih =>
    rw [List.foldl_cons, ih fun w' hw' => h w' (List.mem_cons_of_mem _ hw')]
    have hw := h w List.mem_cons_self
    cases w with
    | set k v => exact (write_set_get ..).trans (if_neg hw)
    | delete k => exact (write_delete_get ..).trans (if_neg hw)

end Storage

namespace Raft

open Storage Theory

/-! ## Keys -/

theorem bytesOf_inj : bytesOf s = bytesOf s' ↔ s = s' := KV.utf8_inj

theorem pow_64 : 2 ^ 64 = 256 ^ 8 := by decide

theorem uint64_putUint64 (h : n < 2 ^ 64) : uint64 (putUint64 n) = some n := by
  rw [pow_64] at h
  rw [uint64, putUint64, BigEndian.length_put, if_neg (by omega),
    List.take_of_length_le (by simp), BigEndian.get_put_of_lt h]

theorem logPrefix_logKey (i : ℕ) : logPrefix <+: logKey i := List.prefix_append ..

theorem indexFromLogKey_logKey (h : i < 2 ^ 64) : indexFromLogKey (logKey i) = some i := by
  rw [indexFromLogKey, logKey, List.drop_left, uint64_putUint64 h]

theorem logKey_inj (hi : i < 2 ^ 64) (hj : j < 2 ^ 64) : logKey i = logKey j ↔ i = j := by
  refine ⟨fun h => ?_, fun h => h ▸ rfl⟩
  rw [← Option.some_inj, ← indexFromLogKey_logKey hi, h, indexFromLogKey_logKey hj]

/-- The keys of the entries are in the order of their indices. -/
theorem logKey_lt (hij : i < j) (hj : j < 2 ^ 64) : logKey i < logKey j := by
  rw [pow_64] at hj
  exact List.append_left_lt (BigEndian.put_lt_put (hij.trans hj) hj hij)

/-- Keys of the metadata are not among those of the entries. -/
theorem logKey_ne (hkey : ¬logPrefix <+: key) (i : ℕ) : logKey i ≠ key :=
  fun heq => hkey (heq ▸ logPrefix_logKey i)

def metaKeys : List Bytes := [keyTerm, keyVotedFor, keyLastIncludedIndex, keyLastIncludedTerm]

theorem not_logPrefix_meta : ∀ key ∈ metaKeys, ¬logPrefix <+: key := by decide +kernel

@[simp] theorem metaKeys_ne : keyTerm ≠ keyVotedFor ∧ keyTerm ≠ keyLastIncludedIndex ∧
    keyTerm ≠ keyLastIncludedTerm ∧ keyVotedFor ≠ keyLastIncludedIndex ∧
    keyVotedFor ≠ keyLastIncludedTerm ∧ keyLastIncludedIndex ≠ keyLastIncludedTerm := by
  decide +kernel

/-! ## Images -/

/-- The engine holds the entries of the table `log`, and no others. -/
structure HoldsEntries (codec : EntryCodec) (e : Storage.Engine) (log : List Entry) : Prop where
  entry : ∀ {i}, i < 2 ^ 64 → e.get (logKey i) = (lookup log i).map codec.encode
  key : ∀ {k v}, e.get k = some v → logPrefix <+: k → ∃ i < 2 ^ 64, k = logKey i
  fits : ∀ x ∈ log, x.Fits

/-- A number of the metadata of an engine. -/
def numberAt (e : Storage.Engine) (key : Bytes) : Option ℕ := (e.get key).elim (some 0) uint64

theorem metaUint64_eq (d : Disk) (key : Bytes) : metaUint64 d key = numberAt d.current key := by
  unfold metaUint64 numberAt Disk.get
  cases d.current.get key <;> rfl

/-- The engine holds what the typed engine holds. -/
structure Stores (codec : EntryCodec) (e : Storage.Engine) (t : Raft.Engine) : Prop where
  log : HoldsEntries codec e t.log
  currentTerm : numberAt e keyTerm = some t.currentTerm
  votedFor : (e.get keyVotedFor).getD [] = bytesOf t.votedFor
  lastIncludedIndex : numberAt e keyLastIncludedIndex = some t.lastIncludedIndex
  lastIncludedTerm : numberAt e keyLastIncludedTerm = some t.lastIncludedTerm

namespace HoldsEntries

variable {codec : EntryCodec} {e : Storage.Engine} {log : List Entry}

theorem set (h : HoldsEntries codec e log) (hx : x.Fits) :
    HoldsEntries codec (e.write (.set (logKey x.index) (codec.encode x))) (insertEntry log x) where
  entry := by
    intro i hi
    rw [Engine.write_set_get, lookup_insertEntry, h.entry hi]
    simp only [logKey_inj hx.1 hi]
    split <;> rfl
  key := by
    intro k v hk hpre
    rw [Engine.write_set_get] at hk
    split at hk
    · next heq => exact ⟨x.index, hx.1, heq.symm⟩
    · exact h.key hk hpre
  fits := by
    intro y hy
    rcases List.mem_cons.mp hy with rfl | hy
    · exact hx
    · exact h.fits y (List.mem_of_mem_filter hy)

theorem sets (h : HoldsEntries codec e log) {entries : List Entry}
    (hfits : ∀ x ∈ entries, x.Fits) :
    HoldsEntries codec ((entries.map fun x =>
      Write.set (logKey x.index) (codec.encode x)).foldl Engine.write e)
      (entries.foldl insertEntry log) := by
  induction entries generalizing e log with
  | nil => exact h
  | cons x entries ih =>
    exact ih (h.set (hfits x List.mem_cons_self)) fun y hy => hfits y (List.mem_cons_of_mem _ hy)

theorem deletes_get (lo hi : ℕ) (key : Bytes) :
    ((StoredLog.deletes lo hi).foldl Engine.write e).get key =
      if key ∈ (List.range' lo (hi + 1 - lo)).map logKey then none else e.get key := by
  have hget := e.deletes_get ((List.range' lo (hi + 1 - lo)).map fun i => (logKey i, [])) key
  rwa [List.map_map, List.map_map] at hget

theorem deletes (h : HoldsEntries codec e log) (lo : ℕ) (hhi : hi < 2 ^ 64) :
    HoldsEntries codec ((StoredLog.deletes lo hi).foldl Engine.write e)
      (deleteRange lo hi log) where
  entry := by
    intro i hi'
    have hiff : logKey i ∈ (List.range' lo (hi + 1 - lo)).map logKey ↔ ¬(i < lo ∨ hi < i) := by
      simp only [List.mem_map, List.mem_range'_1]
      constructor
      · rintro ⟨j, hj, heq⟩
        rw [logKey_inj (by omega) hi'] at heq
        omega
      · intro hin
        exact ⟨i, by omega, rfl⟩
    rw [deletes_get, lookup_deleteRange, h.entry hi']
    simp only [hiff, ite_not]
    split <;> rfl
  key := by
    intro k v hk hpre
    rw [deletes_get] at hk
    split at hk
    · cases hk
    · exact h.key hk hpre
  fits := fun x hx => h.fits x (List.mem_of_mem_filter hx)

/-- Writes to the metadata leave the entries alone. -/
theorem of_get (h : HoldsEntries codec e log)
    (hget : ∀ k, logPrefix <+: k → e'.get k = e.get k) : HoldsEntries codec e' log where
  entry hi := (hget _ (logPrefix_logKey _)).trans (h.entry hi)
  key hk hpre := h.key ((hget _ hpre).symm.trans hk) hpre
  fits := h.fits

end HoldsEntries

namespace Stores

variable {codec : EntryCodec} {e e' : Storage.Engine} {t : Raft.Engine}

theorem init : Stores codec {} {} where
  log := ⟨fun _ => rfl, fun hk => (by cases hk), fun x hx => (by cases hx)⟩
  currentTerm := rfl
  votedFor := by decide +kernel
  lastIncludedIndex := rfl
  lastIncludedTerm := rfl

/-- A batch that writes entries only. -/
theorem entries (h : Stores codec e t) {b : Batch} {es : List Entry}
    (hb : ∀ w ∈ b, ∃ i, w.key = logKey i)
    (hlog : HoldsEntries codec (b.foldl Engine.write e) es) :
    Stores codec (b.foldl Engine.write e) { t with log := es } := by
  have hget : ∀ key ∈ metaKeys, (b.foldl Engine.write e).get key = e.get key := by
    intro key hkey
    refine Engine.foldl_write_get fun w hw heq => ?_
    obtain ⟨i, hi⟩ := hb w hw
    exact logKey_ne (not_logPrefix_meta key hkey) i (hi.symm.trans heq)
  refine ⟨hlog, ?_, ?_, ?_, ?_⟩
  · rw [numberAt, hget keyTerm (by simp [metaKeys])]
    exact h.currentTerm
  · rw [hget keyVotedFor (by simp [metaKeys])]
    exact h.votedFor
  · rw [numberAt, hget keyLastIncludedIndex (by simp [metaKeys])]
    exact h.lastIncludedIndex
  · rw [numberAt, hget keyLastIncludedTerm (by simp [metaKeys])]
    exact h.lastIncludedTerm

/-- A write to the metadata. -/
theorem log_set (h : Stores codec e t) (hkey : key ∈ metaKeys) (v : Bytes) :
    HoldsEntries codec (e.write (.set key v)) t.log := by
  refine h.log.of_get fun k hk => ?_
  rw [Engine.write_set_get, if_neg]
  rintro rfl
  exact not_logPrefix_meta key hkey hk

theorem setTermAndVote (h : Stores codec e t) (hterm : term < 2 ^ 64) (v : String) :
    Stores codec (([.set keyTerm (putUint64 term), .set keyVotedFor (bytesOf v)] : Batch).foldl
      Engine.write e) { t with currentTerm := term, votedFor := v } := by
  have h₁ : Stores codec (e.write (.set keyTerm (putUint64 term)))
      { t with currentTerm := term } := by
    refine ⟨h.log_set (by simp [metaKeys]) _, ?_, ?_, ?_, ?_⟩
    · simp [numberAt, uint64_putUint64 hterm]
    · simpa using h.votedFor
    · simpa [numberAt] using h.lastIncludedIndex
    · simpa [numberAt] using h.lastIncludedTerm
  refine ⟨h₁.log_set (by simp [metaKeys]) _, ?_, ?_, ?_, ?_⟩
  · simpa [numberAt, metaKeys_ne.1.symm] using h₁.currentTerm
  · simp
  · simpa [numberAt] using h₁.lastIncludedIndex
  · simpa [numberAt] using h₁.lastIncludedTerm

theorem boundary (h : Stores codec e t) (hi : index < 2 ^ 64) (ht : term < 2 ^ 64) :
    Stores codec ((StoredLog.boundary index term).foldl Engine.write e)
      { t with lastIncludedIndex := index, lastIncludedTerm := term } := by
  have h₁ : Stores codec (e.write (.set keyLastIncludedIndex (putUint64 index)))
      { t with lastIncludedIndex := index } := by
    refine ⟨h.log_set (by simp [metaKeys]) _, ?_, ?_, ?_, ?_⟩
    · simpa [numberAt, metaKeys_ne.2.1.symm] using h.currentTerm
    · simpa [metaKeys_ne.2.2.2.1.symm] using h.votedFor
    · simp [numberAt, uint64_putUint64 hi]
    · simpa [numberAt] using h.lastIncludedTerm
  rw [StoredLog.boundary, List.foldl_cons, List.foldl_cons, List.foldl_nil]
  refine ⟨h₁.log_set (by simp [metaKeys]) _, ?_, ?_, ?_, ?_⟩
  · simpa [numberAt, metaKeys_ne.2.2.1.symm] using h₁.currentTerm
  · simpa [metaKeys_ne.2.2.2.2.1.symm] using h₁.votedFor
  · simpa [numberAt, metaKeys_ne.2.2.2.2.2.symm] using h₁.lastIncludedIndex
  · simp [numberAt, uint64_putUint64 ht]

end Stores

/-! ## Reading -/

/-- The log `pl`, on the disk `d`. -/
def PersistentLog.on (pl : PersistentLog) (d : Disk) : StoredLog where
  engine := d
  firstIndex := pl.firstIndex
  lastIndex := pl.lastIndex
  lastIncludedIndex := pl.lastIncludedIndex
  lastIncludedTerm := pl.lastIncludedTerm
  currentTerm := pl.currentTerm
  votedFor := bytesOf pl.votedFor
  tailCache := pl.tailCache

section
variable (pl : PersistentLog) (d : Disk)

@[simp] theorem on_firstIndex : (pl.on d).firstIndex = pl.firstIndex := rfl

@[simp] theorem on_lastIndex : (pl.on d).lastIndex = pl.lastIndex := rfl

@[simp] theorem on_lastIncludedIndex : (pl.on d).lastIncludedIndex = pl.lastIncludedIndex := rfl

@[simp] theorem on_lastIncludedTerm : (pl.on d).lastIncludedTerm = pl.lastIncludedTerm := rfl

end

section Reading

variable {codec : EntryCodec} {d : Disk} {pl : PersistentLog}
  (h : Stores codec d.current pl.engine)
include h

theorem get_on (hi : i < 2 ^ 64) :
    (pl.on d).get codec i = (pl.get i).mapError StoreError.log := by
  have hget : d.get (logKey i) = (lookup pl.engine.log i).map codec.encode := h.log.entry hi
  simp only [StoredLog.get, PersistentLog.get, StoredLog.getLocked, PersistentLog.getLocked,
    PersistentLog.on, hget]
  cases lookup pl.tailCache i with
  | some e => rfl
  | none =>
    dsimp only
    split
    · rfl
    · cases hl : lookup pl.engine.log i with
      | none => rfl
      | some e =>
        simp only [Option.map_some, codec.decode_encode (h.log.fits e (lookup_some hl).2)]
        rfl

theorem lastTerm_on (hlast : pl.lastIndex < 2 ^ 64) : (pl.on d).lastTerm codec = pl.lastTerm := by
  unfold StoredLog.lastTerm PersistentLog.lastTerm
  rw [on_lastIndex, on_lastIncludedIndex, get_on h hlast]
  cases pl.get pl.lastIndex <;> rfl

theorem termAt_on (hlast : pl.lastIndex < 2 ^ 64) (i : ℕ) :
    (pl.on d).termAt codec i = pl.termAt i := by
  unfold StoredLog.termAt PersistentLog.termAt
  rw [on_lastIncludedIndex, on_lastIncludedTerm, on_firstIndex, on_lastIndex]
  split
  · rfl
  · split
    · rfl
    · rw [get_on h (by omega)]
      cases pl.get i <;> rfl

omit h in
theorem mapM_mapError {f : ℕ → Except LogError Entry} {g : ℕ → Except StoreError Entry}
    {l : List ℕ} (hfg : ∀ i ∈ l, g i = (f i).mapError StoreError.log) :
    l.mapM g = (l.mapM f).mapError StoreError.log := by
  induction l with
  | nil => rfl
  | cons i l ih =>
    rw [List.mapM_cons, List.mapM_cons, hfg i List.mem_cons_self,
      ih fun j hj => hfg j (List.mem_cons_of_mem _ hj)]
    cases f i with
    | error e => rfl
    | ok e => cases l.mapM f <;> rfl

theorem range_on (hhi : hi < 2 ^ 64) :
    (pl.on d).range codec lo hi = (pl.range lo hi).mapError StoreError.log := by
  refine mapM_mapError fun i hi' => get_on h ?_
  rw [List.mem_range'_1] at hi'
  omega

end Reading

/-! ## Opening -/

theorem mapM_eq_filterMap {f : α → Option β} {l : List α} (h : ∀ a ∈ l, (f a).isSome) :
    l.mapM f = some (l.filterMap f) := by
  induction l with
  | nil => rfl
  | cons a l ih =>
    obtain ⟨b, hb⟩ := Option.isSome_iff_exists.mp (h a List.mem_cons_self)
    rw [List.mapM_cons, ih fun x hx => h x (List.mem_cons_of_mem _ hx), List.filterMap_cons, hb]
    rfl

theorem foldl_max_le {l : List ℕ} : l.foldl max b ≤ m ↔ b ≤ m ∧ ∀ i ∈ l, i ≤ m := by
  induction l generalizing b with
  | nil => simp
  | cons i l ih => rw [List.foldl_cons, ih, max_le_iff, List.forall_mem_cons, and_assoc]

/-- What is opened is the log of the typed engine. -/
theorem Stores.openStoredLog {codec : EntryCodec} {d : Disk} {t : Raft.Engine}
    (h : Stores codec d.current t) :
    openStoredLog d = some ((openPersistentLog t).on d) := by
  have hkey : ∀ kv ∈ d.newIterator logPrefix (KV.prefixUpperBound logPrefix),
      ∃ i < 2 ^ 64, kv = (logKey i, kv.2) ∧ d.get (logKey i) = some kv.2 := by
    intro kv hkv
    obtain ⟨hpre, hget⟩ := KV.mem_newIterator.mp hkv
    obtain ⟨i, hi, heq⟩ := h.log.key hget hpre
    exact ⟨i, hi, Prod.ext heq rfl, heq ▸ hget⟩
  have hindices := mapM_eq_filterMap (f := fun kv : Bytes × Bytes => indexFromLogKey kv.1)
    fun kv hkv => by
      obtain ⟨i, hi, heq, -⟩ := hkey kv hkv
      rw [heq, indexFromLogKey_logKey hi]
      rfl
  -- the keys have the indices of the table
  have hmem : ∀ i, i ∈ (d.newIterator logPrefix (KV.prefixUpperBound logPrefix)).filterMap
      (fun kv => indexFromLogKey kv.1) ↔ i ∈ t.log.map Entry.index := by
    intro i
    rw [List.mem_filterMap, List.mem_map]
    constructor
    · rintro ⟨kv, hkv, hi⟩
      obtain ⟨j, hj, heq, hget⟩ := hkey kv hkv
      rw [heq, indexFromLogKey_logKey hj, Option.some_inj] at hi
      rw [Disk.get, h.log.entry hj, Option.map_eq_some_iff] at hget
      obtain ⟨x, hx, -⟩ := hget
      obtain ⟨hidx, hx⟩ := lookup_some hx
      exact ⟨x, hx, hidx.trans hi⟩
    · rintro ⟨x, hx, rfl⟩
      obtain ⟨y, hy⟩ := Option.isSome_iff_exists.mp (lookup_isSome hx)
      have hfits := (h.log.fits x hx).1
      refine ⟨(logKey x.index, codec.encode y), KV.mem_newIterator.mpr ⟨logPrefix_logKey _, ?_⟩,
        indexFromLogKey_logKey hfits⟩
      rw [h.log.entry hfits, hy]
      rfl
  have hlast : List.foldl max t.lastIncludedIndex
      ((d.newIterator logPrefix (KV.prefixUpperBound logPrefix)).filterMap fun kv =>
        indexFromLogKey kv.1) = (Raft.openPersistentLog t).lastIndex := by
    have htyped : (Raft.openPersistentLog t).lastIndex =
        (t.log.map Entry.index).foldl max t.lastIncludedIndex := List.foldl_map.symm
    refine eq_of_forall_ge_iff fun m => ?_
    rw [htyped, foldl_max_le, foldl_max_le]
    simp only [hmem]
  have hvote : (d.get keyVotedFor).getD [] = bytesOf t.votedFor := h.votedFor
  unfold Raft.openStoredLog
  rw [metaUint64_eq, metaUint64_eq, metaUint64_eq, h.currentTerm, h.lastIncludedIndex,
    h.lastIncludedTerm]
  simp only [Option.bind_eq_bind, Option.bind_some, hindices, Option.pure_def, hlast, hvote]
  rfl

/-! ## Writing -/

namespace LogOp

/-- Entries are appended, and a suffix is cut off, at a place where there is a log. -/
def InPlace (firstIndex lastIndex : ℕ) : LogOp → Prop
  | .appendEntries first _ _ => firstIndex ≤ first ∧ first ≤ lastIndex + 1
  | .truncateSuffix start => firstIndex ≤ start
  | _ => True

/-- The operation has something to commit. -/
def writes (lastIncludedIndex lastIndex : ℕ) : LogOp → Bool
  | .appendEntries _ entries _ => !entries.isEmpty
  | .truncateSuffix start => start ≤ lastIndex
  | .compactPrefix index _ => lastIncludedIndex < index
  | _ => true

/-- The commit waits for the disk. -/
def syncs (fsyncOnAppend : Bool) : LogOp → Bool
  | .appendEntries .. => fsyncOnAppend
  | _ => true

end LogOp

def StoredLog.perform (codec : EntryCodec) (fsyncOnAppend ok : Bool) (sl : StoredLog) :
    LogOp → StoredLog × Bool
  | .setTermAndVote term votedFor => sl.setTermAndVote ok term (bytesOf votedFor)
  | .appendEntries _ entries _ => sl.appendEntries codec ok fsyncOnAppend entries
  | .truncateSuffix start => sl.truncateSuffix ok start
  | .compactPrefix index term => sl.compactPrefix ok index term
  | .restoreSnapshotBoundary index term => sl.restoreSnapshotBoundary ok index term

section Writing

variable {codec : EntryCodec} {d : Disk} {pl : PersistentLog} {op : LogOp}

theorem deletes_key (hw : w ∈ StoredLog.deletes lo hi) : ∃ i, w.key = logKey i := by
  obtain ⟨i, -, rfl⟩ := List.mem_map.mp hw
  exact ⟨i, rfl⟩

/-- A commit that succeeds leads to the image of what the typed operation leads to. -/
theorem perform_on (h : Stores codec d.current pl.engine) (hlast : pl.lastIndex < 2 ^ 64)
    (hfits : op.Fits) (hw : op.writes pl.lastIncludedIndex pl.lastIndex) (sync : Bool) :
    ∃ e, (pl.on d).perform codec sync true op =
        ((pl.perform true op).1.on (d.write (op.syncs sync) e), true) ∧
      Stores codec e (pl.perform true op).1.engine := by
  cases op with
  | setTermAndVote term v => exact ⟨_, rfl, h.setTermAndVote hfits v⟩
  | appendEntries first es hes =>
    cases es with
    | nil => cases hw
    | cons x rest =>
      refine ⟨_, rfl, h.entries (fun w hw => ?_) ?_⟩
      · rcases List.mem_append.mp hw with hw | hw
        · exact deletes_key hw
        · obtain ⟨y, -, rfl⟩ := List.mem_map.mp hw
          exact ⟨y.index, rfl⟩
      · rw [List.foldl_append]
        refine (h.log.deletes _ hlast).sets fun y hy => ⟨?_, hfits.2 y hy⟩
        obtain ⟨k, hk⟩ := List.mem_iff_getElem?.mp hy
        have := (List.getElem?_eq_some_iff.mp hk).1
        have := hfits.1
        rw [hes k y hk]
        omega
  | truncateSuffix start =>
    have hle : ¬pl.lastIndex < start := not_lt.mpr (of_decide_eq_true hw)
    rw [StoredLog.perform, PersistentLog.perform, StoredLog.truncateSuffix, on_lastIndex,
      if_neg hle, PersistentLog.truncateSuffix, if_neg hle]
    exact ⟨_, rfl, h.entries (fun w hw => deletes_key hw) (h.log.deletes start hlast)⟩
  | compactPrefix index term =>
    have hlt : ¬index ≤ pl.lastIncludedIndex := not_le.mpr (of_decide_eq_true hw)
    have hdel := h.entries (fun w hw => deletes_key hw)
      (h.log.deletes pl.firstIndex ((min_le_right index pl.lastIndex).trans_lt hlast))
    rw [StoredLog.perform, PersistentLog.perform, StoredLog.compactPrefix, on_lastIncludedIndex,
      if_neg hlt, PersistentLog.compactPrefix, if_neg hlt]
    refine ⟨_, rfl, ?_⟩
    rw [List.foldl_append]
    exact hdel.boundary (Nat.lt_of_succ_lt hfits.1) hfits.2
  | restoreSnapshotBoundary index term =>
    have hdel := h.entries (fun w hw => deletes_key hw) (h.log.deletes pl.firstIndex hlast)
    refine ⟨_, rfl, ?_⟩
    rw [List.foldl_append]
    exact hdel.boundary (Nat.lt_of_succ_lt hfits.1) hfits.2

variable (codec d) in
/-- Nothing is written if the commit fails or there is nothing to commit. -/
theorem perform_on_idle (h : ok = false ∨ op.writes pl.lastIncludedIndex pl.lastIndex = false)
    (sync : Bool) :
    (pl.on d).perform codec sync ok op =
        ((pl.perform ok op).1.on d, (pl.perform ok op).2) ∧
      (pl.perform ok op).1.engine = pl.engine := by
  cases op with
  | setTermAndVote term v =>
    cases ok with
    | true => simp [LogOp.writes] at h
    | false => exact ⟨rfl, rfl⟩
  | appendEntries first es hes =>
    cases es with
    | nil => exact ⟨rfl, rfl⟩
    | cons x rest =>
      cases ok with
      | true => simp [LogOp.writes] at h
      | false => exact ⟨rfl, rfl⟩
  | truncateSuffix start =>
    rw [StoredLog.perform, PersistentLog.perform, StoredLog.truncateSuffix, on_lastIndex,
      PersistentLog.truncateSuffix]
    by_cases hlt : pl.lastIndex < start
    · rw [if_pos hlt, if_pos hlt]
      exact ⟨rfl, rfl⟩
    · obtain rfl : ok = false := h.resolve_right (by simpa [LogOp.writes] using hlt)
      rw [if_neg hlt, if_neg hlt]
      exact ⟨rfl, rfl⟩
  | compactPrefix index term =>
    rw [StoredLog.perform, PersistentLog.perform, StoredLog.compactPrefix, on_lastIncludedIndex,
      PersistentLog.compactPrefix]
    by_cases hle : index ≤ pl.lastIncludedIndex
    · rw [if_pos hle, if_pos hle]
      exact ⟨rfl, rfl⟩
    · obtain rfl : ok = false := h.resolve_right (by simpa [LogOp.writes] using hle)
      rw [if_neg hle, if_neg hle]
      exact ⟨rfl, rfl⟩
  | restoreSnapshotBoundary index term =>
    cases ok with
    | true => simp [LogOp.writes] at h
    | false => exact ⟨rfl, rfl⟩

end Writing

end Raft

end DistributedKV
