import DistributedKV.Verify.LogRefinement

/-!
# The tail cache stays small

The cache holds an index at most once, so its size is bounded by the range of its indices. An append
evicts what is more than `tailCacheLimit` behind the last index from before the append. In a log
that was shorter than that, the subtraction wraps around to a threshold above all indices.
-/

namespace DistributedKV.Raft

variable {es cache : List Entry}

/-! ## Size of a table -/

/-- No index occurs twice. -/
def IndexedOnce (es : List Entry) : Prop := (es.map Entry.index).Nodup

namespace IndexedOnce

theorem filter (h : IndexedOnce es) (q : Entry → Bool) : IndexedOnce (es.filter q) :=
  h.sublist (List.filter_sublist.map Entry.index)

theorem insertEntry (h : IndexedOnce es) (e : Entry) : IndexedOnce (insertEntry es e) := by
  refine List.nodup_cons.mpr ⟨fun hmem => ?_, h.filter _⟩
  obtain ⟨x, hx, heq⟩ := List.mem_map.mp hmem
  simpa [heq] using List.of_mem_filter hx

theorem foldl_insertEntry (h : IndexedOnce es) (new : List Entry) :
    IndexedOnce (new.foldl Raft.insertEntry es) := by
  induction new generalizing es with
  | nil => exact h
  | cons e new ih => exact ih (h.insertEntry e)

theorem evictTailCache (h : IndexedOnce cache) (lastIndex : ℕ) :
    IndexedOnce (PersistentLog.evictTailCache lastIndex cache) := by
  unfold PersistentLog.evictTailCache
  split
  · exact h
  · exact h.filter _

theorem length_le (h : IndexedOnce es) (lo : ℕ) (hes : ∀ e ∈ es, lo ≤ e.index ∧ e.index < lo + k) :
    es.length ≤ k := by
  have hsub : es.map Entry.index ⊆ List.range' lo k := by
    intro i hi
    obtain ⟨e, he, rfl⟩ := List.mem_map.mp hi
    exact List.mem_range'_1.mpr (hes e he)
  simpa using (List.subperm_of_subset h hsub).length_le

end IndexedOnce

/-- Entries with new indices are added to those of the table. -/
theorem length_foldl_insertEntry {new : List Entry} (hnew : Consecutive lo new)
    (hes : ∀ e ∈ es, e.index < lo) :
    (new.foldl insertEntry es).length = es.length + new.length := by
  induction new generalizing es lo with
  | nil => rfl
  | cons e new ih =>
    have he : e.index = lo := hnew 0 e rfl
    have hkeep : insertEntry es e = e :: es := by
      refine congrArg (e :: ·) (List.filter_eq_self.mpr fun x hx => ?_)
      have := hes x hx
      simp only [decide_eq_true_eq]
      omega
    rw [List.foldl_cons, hkeep, ih hnew.tail, List.length_cons, List.length_cons]
    · omega
    · intro x hx
      rcases List.mem_cons.mp hx with rfl | hx
      · omega
      · exact Nat.lt_succ_of_lt (hes x hx)

/-! ## Eviction -/

theorem evictTailCache_length (h : IndexedOnce cache) (hlast : lastIndex < 2 ^ 64)
    (hmax : ∀ e ∈ cache, e.index ≤ lastIndex + b ∧ e.index < 2 ^ 64 - tailCacheLimit) :
    (PersistentLog.evictTailCache lastIndex cache).length ≤ tailCacheLimit + 1 + b := by
  unfold PersistentLog.evictTailCache
  split
  · omega
  rcases lt_or_ge lastIndex tailCacheLimit with hlt | hge
  · -- the threshold wraps around, and nothing is kept
    have hwrap : (lastIndex + 2 ^ 64 - tailCacheLimit) % 2 ^ 64 =
        lastIndex + 2 ^ 64 - tailCacheLimit := Nat.mod_eq_of_lt (by omega)
    have hnil : cache.filter (fun e => lastIndex + 2 ^ 64 - tailCacheLimit ≤ e.index) = [] := by
      refine List.filter_eq_nil_iff.mpr fun e he => ?_
      have := (hmax e he).2
      simp only [decide_eq_true_eq]
      omega
    simp only [hwrap, hnil, List.length_nil, Nat.zero_le]
  · have hthr : (lastIndex + 2 ^ 64 - tailCacheLimit) % 2 ^ 64 = lastIndex - tailCacheLimit := by
      rw [Nat.sub_add_comm hge, Nat.add_mod_right, Nat.mod_eq_of_lt (by omega)]
    simp only [hthr]
    refine (h.filter _).length_le (lastIndex - tailCacheLimit) fun e he => ?_
    obtain ⟨he, hkept⟩ := List.mem_filter.mp he
    have := (hmax e he).1
    have := of_decide_eq_true hkept
    omega

/-! ## Runs -/

theorem PersistentLog.perform_indexedOnce {pl : PersistentLog} (h : IndexedOnce pl.tailCache)
    (commit : Bool) (op : LogOp) : IndexedOnce (pl.perform commit op).1.tailCache := by
  cases op with
  | setTermAndVote => cases commit <;> exact h
  | appendEntries first es hes =>
    cases es with
    | nil => exact h
    | cons x rest =>
      cases commit with
      | false => exact h.filter _
      | true => exact ((h.filter _).foldl_insertEntry _).evictTailCache _
  | truncateSuffix start =>
    dsimp only [perform, truncateSuffix]
    split
    · exact h
    · cases commit <;> exact h.filter _
  | compactPrefix index term =>
    dsimp only [perform, compactPrefix]
    split
    · exact h
    · cases commit <;> exact h.filter _
  | restoreSnapshotBoundary => cases commit <;> exact List.nodup_nil

theorem LogRuns.indexedOnce (h : LogRuns ops pl) : IndexedOnce pl.tailCache := by
  induction h with
  | init => exact List.nodup_nil
  | step op commit _ _ ih => exact PersistentLog.perform_indexedOnce ih commit op
  | reopen => exact List.nodup_nil

theorem Represents.cached {pl : PersistentLog} (h : Represents pl s) (he : e ∈ pl.tailCache) :
    pl.firstIndex ≤ e.index ∧ e.index ≤ pl.lastIndex := by
  obtain ⟨e', he'⟩ := Option.isSome_iff_exists.mp (lookup_isSome he)
  have hat := LogState.at?_isSome.mp (Option.isSome_of_eq_some (h.cache he'))
  rw [h.firstIndex, h.lastIndex]
  exact hat

/-- What an append makes of the cache. -/
theorem PersistentLog.appendEntries_cache (pl : PersistentLog) (hes : Consecutive first es)
    (hne : es ≠ []) :
    (pl.appendEntries true es).1.tailCache = evictTailCache pl.lastIndex
        (es.foldl insertEntry (deleteRange first pl.lastIndex pl.tailCache)) ∧
      (pl.appendEntries true es).1.lastIndex + 1 = first + es.length := by
  cases es with
  | nil => exact absurd rfl hne
  | cons x rest =>
    have hx : x.index = first := hes 0 x rfl
    refine ⟨by rw [← hx]; rfl, ?_⟩
    show (rest.getLastD x).index + 1 = _
    rw [hes.getLastD, List.length_cons, Nat.add_assoc]

/-- **The tail cache stays small**: after an append of `b` entries it holds no more than
`tailCacheLimit + 1 + b` if there is an entry at all, and only indices from the first to the
last. -/
theorem tail_cache_bounded (h : LogRuns ops pl) (hes : Consecutive first es)
    (hlo : pl.firstIndex ≤ first) (hhi : first ≤ pl.lastIndex + 1)
    (hok : (pl.appendEntries commit es).2 = true)
    (hlast : pl.lastIndex < 2 ^ 64 - tailCacheLimit)
    (hnext : (pl.appendEntries commit es).1.lastIndex < 2 ^ 64 - tailCacheLimit) :
    let pl' := (pl.appendEntries commit es).1
    (es ≠ [] → pl'.tailCache.length ≤ tailCacheLimit + 1 + es.length) ∧
      ∀ e ∈ pl'.tailCache, pl'.firstIndex ≤ e.index ∧ e.index ≤ pl'.lastIndex := by
  have hreach := h.step (.appendEntries first es hes) commit ⟨hlo, hhi⟩
  refine ⟨fun hne => ?_, fun e he => hreach.represents.cached he⟩
  cases commit with
  | false =>
    cases es with
    | nil => exact absurd rfl hne
    | cons => cases hok
  | true =>
    obtain ⟨hcache, hend⟩ := pl.appendEntries_cache hes hne
    rw [hcache]
    refine evictTailCache_length ((h.indexedOnce.filter _).foldl_insertEntry _) (by omega) ?_
    intro e he
    rcases mem_foldl_insertEntry he with hnew | hold
    · obtain ⟨i, hi⟩ := List.mem_iff_getElem?.mp hnew
      have hlt : i < es.length := (List.getElem?_eq_some_iff.mp hi).1
      have hidx : e.index = first + i := hes i e hi
      omega
    · have := (h.represents.cached (List.mem_of_mem_filter hold)).2
      omega

theorem tail_cache_bounded_first :
    let pl := openPersistentLog {}
    let pl' := (pl.appendEntries true (noops 1 [1, 1, 1])).1
    pl'.tailCache.length ≤ tailCacheLimit + 1 + 3 ∧
      ∀ e ∈ pl'.tailCache, pl'.firstIndex ≤ e.index ∧ e.index ≤ pl'.lastIndex :=
  (tail_cache_bounded .init (.noops 1 [1, 1, 1]) (by decide) (by decide) (by decide) (by decide)
    (by decide)).imp_left fun hlen => hlen (by decide)

/-- An append without entries evicts nothing, so all that the append before it has added is still
there. -/
theorem tail_cache_bounded_fails : ∃ ops pl, LogRuns ops pl ∧
    pl.lastIndex < 2 ^ 64 - tailCacheLimit ∧ (pl.appendEntries true []).2 = true ∧
    ¬(pl.appendEntries true []).1.tailCache.length ≤ tailCacheLimit + 1 + 0 := by
  obtain ⟨es, hes, hlen⟩ : ∃ es, Consecutive (tailCacheLimit + 1) es ∧
      es.length = tailCacheLimit + 2 :=
    ⟨noops _ (List.replicate (tailCacheLimit + 2) 1), .noops _ _, by simp [noops]⟩
  have hne : es ≠ [] := List.ne_nil_of_length_pos (by omega)
  let pl := ((openPersistentLog {}).restoreSnapshotBoundary true tailCacheLimit 1).1
  have h : LogRuns _ (pl.appendEntries true es).1 := LogRuns.init
    |>.step (.restoreSnapshotBoundary tailCacheLimit 1) true trivial
    |>.step (.appendEntries _ es hes) true ⟨le_rfl, le_rfl⟩
  obtain ⟨hcache, hlast⟩ := pl.appendEntries_cache hes hne
  refine ⟨_, _, h, ?_, rfl, ?_⟩
  · have : tailCacheLimit = 4096 := rfl
    omega
  · -- the threshold is 0
    have hkeep (cache : List Entry) :
        PersistentLog.evictTailCache tailCacheLimit cache = cache := by
      simp [PersistentLog.evictTailCache]
    have hnil (pl : PersistentLog) : pl.appendEntries true [] = (pl, true) := rfl
    rw [hnil, hcache, show pl.lastIndex = tailCacheLimit from rfl, hkeep,
      length_foldl_insertEntry hes]
    · omega
    · exact List.forall_mem_nil _

end DistributedKV.Raft
