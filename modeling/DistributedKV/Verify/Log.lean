import DistributedKV.Raft.Log
import DistributedKV.Theory.Completeness

/-!
# What a persistent log represents

A `PersistentLog` stands for a list of entries, the log as it would be had nothing been compacted
(`Rep`): position `i` of the list is index `i + 1`. Below the snapshot boundary nothing of the
list can be read back but the term of its last entry there. Each operation of the log is described
by what it does to the list. The term and the vote are apart from this (`SameBallot`).
-/

namespace DistributedKV.Raft

variable {es cache : List Entry} {e : Entry} {i j lo hi : ℕ}

/-! ## Tables -/

theorem lookup_some (h : lookup es i = some e) : e.index = i ∧ e ∈ es :=
  ⟨by simpa using List.find?_some h, List.mem_of_find?_eq_some h⟩

@[simp] theorem lookup_insertEntry :
    lookup (insertEntry es e) i = if e.index = i then some e else lookup es i := by
  unfold insertEntry lookup
  rw [List.find?_cons]
  by_cases h : e.index = i
  · simp [h]
  · simp only [h, decide_false, if_false, List.find?_filter]
    congr 1
    funext x
    by_cases hx : x.index = i
    · simp [hx, Ne.symm h]
    · simp [hx]

/-- Rows are selected by their key. -/
theorem lookup_filter (q : ℕ → Bool) :
    lookup (es.filter fun x => q x.index) i = if q i then lookup es i else none := by
  unfold lookup
  rw [List.find?_filter]
  cases h : q i with
  | true =>
    simp only [if_true]
    congr 1
    funext x
    by_cases hx : x.index = i
    · simp [hx, h]
    · simp [hx]
  | false =>
    simp only [Bool.false_eq_true, if_false, List.find?_eq_none]
    intro x _
    by_cases hx : x.index = i
    · simp [hx, h]
    · simp [hx]

@[simp] theorem lookup_deleteRange :
    lookup (deleteRange lo hi es) i = if i < lo ∨ hi < i then lookup es i else none := by
  refine (lookup_filter fun k => decide (k < lo ∨ hi < k)).trans ?_
  simp only [decide_eq_true_eq]

theorem lookup_of_deleteRange (h : lookup (deleteRange lo hi es) i = some e) :
    lookup es i = some e :=
  (Option.ite_none_right_eq_some.mp (lookup_deleteRange.symm.trans h)).2

/-- The entries of `es` have the indices `lo`, `lo + 1`, ... -/
def Consecutive (lo : ℕ) (es : List Entry) : Prop :=
  ∀ i e, es[i]? = some e → e.index = lo + i

theorem Consecutive.tail (h : Consecutive lo (e :: es)) : Consecutive (lo + 1) es := by
  intro i e' he
  rw [h (i + 1) e' he]
  omega

theorem Consecutive.drop (h : Consecutive lo es) : Consecutive (lo + i) (es.drop i) := by
  intro j e he
  rw [List.getElem?_drop] at he
  rw [h _ e he]
  omega

theorem Consecutive.of_isPrefix (h : Consecutive lo es) (hp : es' <+: es) :
    Consecutive lo es' := by
  intro i e he
  obtain ⟨s, rfl⟩ := hp
  exact h i e ((List.getElem?_append_left (List.getElem?_eq_some_iff.mp he).1).trans he)

theorem Consecutive.append {es' : List Entry} (h : Consecutive lo es)
    (h' : Consecutive (lo + es.length) es') : Consecutive lo (es ++ es') := by
  intro i e he
  rw [List.getElem?_append] at he
  split at he
  · exact h i e he
  · rw [h' _ e he]
    omega

/-- The index of the last entry. -/
theorem Consecutive.getLastD (h : Consecutive lo (e :: es)) :
    (es.getLastD e).index = lo + es.length := by
  have hget : (e :: es)[es.length]? = some (es.getLastD e) := by
    rw [List.getLastD_eq_getLast?, ← List.getLast?_cons, List.getLast?_eq_getElem?]
    rfl
  exact h _ _ hget

theorem lookup_isSome (h : e ∈ es) : (lookup es e.index).isSome := by
  rw [lookup, List.find?_isSome]
  exact ⟨e, h, by simp⟩

theorem Consecutive.lookup (h : Consecutive lo es) :
    lookup es i = if lo ≤ i then es[i - lo]? else none := by
  induction es generalizing lo with
  | nil => simp [Raft.lookup]
  | cons e es ih =>
    have he : e.index = lo := h 0 e rfl
    rw [Raft.lookup, List.find?_cons]
    rcases lt_trichotomy i lo with hlt | rfl | hgt
    · rw [if_neg (by omega), decide_eq_false (by omega)]
      refine (ih h.tail).trans (if_neg (by omega))
    · rw [if_pos le_rfl, decide_eq_true he, Nat.sub_self]
      rfl
    · rw [if_pos hgt.le, decide_eq_false (by omega), show i - lo = i - (lo + 1) + 1 by omega]
      exact (ih h.tail).trans (if_pos (by omega))

theorem lookup_foldl_insertEntry {new : List Entry} (h : Consecutive lo new) :
    lookup (new.foldl insertEntry es) i =
      if lo ≤ i ∧ i < lo + new.length then new[i - lo]? else lookup es i := by
  induction new generalizing es lo with
  | nil => simp
  | cons e new ih =>
    rw [List.foldl_cons, ih h.tail, lookup_insertEntry]
    have he : e.index = lo := h 0 e rfl
    rcases Nat.lt_trichotomy i lo with hlt | rfl | hgt
    · have h₁ : ¬(lo + 1 ≤ i) := by omega
      have h₂ : ¬lo ≤ i := by omega
      have h₃ : e.index ≠ i := by omega
      simp [h₁, h₂, h₃]
    · simp [he]
    · obtain ⟨k, rfl⟩ := Nat.exists_eq_add_of_lt hgt
      have h₁ : lo + k + 1 - lo = k + 1 := by omega
      have h₂ : lo + k + 1 - (lo + 1) = k := by omega
      have h₃ : e.index ≠ lo + k + 1 := by omega
      simp only [h₁, h₂, h₃, if_false, List.getElem?_cons_succ, List.length_cons]
      congr 1
      simp only [eq_iff_iff]
      omega

theorem mem_foldl_insertEntry {new : List Entry} (h : e ∈ new.foldl insertEntry es) :
    e ∈ new ∨ e ∈ es := by
  induction new generalizing es with
  | nil => exact .inr h
  | cons x new ih =>
    rcases ih h with h | h
    · exact .inl (List.mem_cons_of_mem _ h)
    · rcases List.mem_cons.mp h with rfl | h
      · exact .inl List.mem_cons_self
      · exact .inr (List.mem_of_mem_filter h)

theorem lookup_evictTailCache (h : lookup (PersistentLog.evictTailCache lo cache) i = some e) :
    lookup cache i = some e := by
  unfold PersistentLog.evictTailCache at h
  split at h
  · exact h
  · have hf := (lookup_filter fun k => decide (_ ≤ k)).symm.trans h
    exact (Option.ite_none_right_eq_some.mp hf).2

/-! ## Terms and votes on disk -/

namespace PersistentLog

/-- The term and vote in memory are the ones on disk. -/
def Durable (pl : PersistentLog) : Prop :=
  pl.engine.currentTerm = pl.currentTerm ∧ pl.engine.votedFor = pl.votedFor

/-- `pl'` has the term and the vote of `pl`. -/
structure SameBallot (pl pl' : PersistentLog) : Prop where
  currentTerm : pl'.currentTerm = pl.currentTerm
  votedFor : pl'.votedFor = pl.votedFor
  durable : pl.Durable → pl'.Durable

theorem SameBallot.refl (pl : PersistentLog) : pl.SameBallot pl := ⟨rfl, rfl, id⟩

theorem SameBallot.appendEntries (commit : Bool) (pl : PersistentLog) (es : List Entry) :
    pl.SameBallot (pl.appendEntries commit es).1 := by
  unfold PersistentLog.appendEntries
  split
  · exact .refl pl
  · cases commit <;> exact ⟨rfl, rfl, id⟩

theorem SameBallot.compactPrefix (commit : Bool) (pl : PersistentLog) (index term : ℕ) :
    pl.SameBallot (pl.compactPrefix commit index term).1 := by
  unfold PersistentLog.compactPrefix
  split
  · exact .refl pl
  · cases commit <;> exact ⟨rfl, rfl, id⟩

theorem SameBallot.restoreSnapshotBoundary (commit : Bool) (pl : PersistentLog)
    (index term : ℕ) : pl.SameBallot (pl.restoreSnapshotBoundary commit index term).1 := by
  unfold PersistentLog.restoreSnapshotBoundary
  cases commit <;> exact ⟨rfl, rfl, id⟩

theorem SameBallot.reopen {pl : PersistentLog} (h : pl.Durable) :
    pl.SameBallot (openPersistentLog pl.engine) := ⟨h.1, h.2, fun _ => ⟨rfl, rfl⟩⟩

end PersistentLog

/-! ## Reading -/

namespace PersistentLog

theorem get_index {pl : PersistentLog} (h : pl.get i = .ok e) : e.index = i := by
  unfold PersistentLog.get PersistentLog.getLocked at h
  split at h
  · next hc => cases h; exact (lookup_some hc).1
  · split at h
    · cases h
    · split at h
      · next he => cases h; exact (lookup_some he).1
      · cases h

theorem range_get {pl : PersistentLog} (h : pl.range lo hi = .ok es) :
    ∀ i e, es[i]? = some e → pl.get (lo + i) = .ok e := by
  unfold PersistentLog.range at h
  generalize hi + 1 - lo = k at h
  induction k generalizing lo es with
  | zero => cases h; simp
  | succ k ih =>
    rw [List.range'_succ, List.mapM_cons] at h
    cases hg : pl.get lo with
    | error => rw [hg] at h; cases h
    | ok x =>
      rw [hg] at h
      cases hrest : (List.range' (lo + 1) k).mapM pl.get with
      | error => rw [hrest] at h; cases h
      | ok rest =>
        rw [hrest] at h
        cases h
        intro i e he
        cases i with
        | zero => cases he; exact hg
        | succ i =>
          rw [← Nat.add_assoc, Nat.add_right_comm]
          exact ih hrest i e he

/-- A range that is not empty begins with an entry that can be read. -/
theorem range_first {pl : PersistentLog} (h : pl.range lo hi = .ok es) (hle : lo ≤ hi) :
    ∃ e, pl.get lo = .ok e := by
  unfold PersistentLog.range at h
  obtain ⟨k, hk⟩ : ∃ k, hi + 1 - lo = k + 1 := ⟨hi - lo, by omega⟩
  rw [hk, List.range'_succ, List.mapM_cons] at h
  cases hg : pl.get lo with
  | error => rw [hg] at h; cases h
  | ok e => exact ⟨e, rfl⟩

theorem range_consecutive {pl : PersistentLog} (h : pl.range lo hi = .ok es) :
    Consecutive lo es := fun i e he => get_index (range_get h i e he)

end PersistentLog

/-! ## Representation -/

/-- The entry at index `i`, if that lies above the snapshot boundary and in the log. -/
def PersistentLog.retained (pl : PersistentLog) (i : ℕ) : Option Entry :=
  if pl.lastIncludedIndex < i ∧ i ≤ pl.lastIndex then (pl.get i).toOption else none

/-- `pl` stands for the log `l`. -/
structure Rep (pl : PersistentLog) (l : List Entry) : Prop where
  engine : pl.engine.lastIncludedIndex = pl.lastIncludedIndex ∧
    pl.engine.lastIncludedTerm = pl.lastIncludedTerm
  firstIndex : pl.firstIndex = pl.lastIncludedIndex + 1
  le : pl.lastIncludedIndex ≤ pl.lastIndex
  length : l.length = pl.lastIndex
  index : Consecutive 1 l
  entry : ∀ {i}, pl.lastIncludedIndex ≤ i → i < pl.lastIndex →
    lookup pl.engine.log (i + 1) = l[i]?
  cache : ∀ {i e}, lookup pl.tailCache (i + 1) = some e → l[i]? = some e
  keys : ∀ e ∈ pl.engine.log, e.index ≤ pl.lastIndex
  /-- The boundary stands for the entry it covers last. -/
  term : ∀ {i}, pl.lastIncludedIndex = i + 1 → ∃ e, l[i]? = some e ∧ e.term = pl.lastIncludedTerm
  zero : pl.lastIncludedIndex = 0 → pl.lastIncludedTerm = 0

namespace Rep

variable {pl : PersistentLog} {l new : List Entry} {prev t : ℕ} {v : String}

theorem init : Rep (openPersistentLog {}) [] where
  engine := ⟨rfl, rfl⟩
  firstIndex := rfl
  le := le_rfl
  length := rfl
  index := fun _ _ h => by simp at h
  entry := fun _ h => absurd h (Nat.not_lt_zero _)
  cache := fun h => by simp [openPersistentLog, lookup] at h
  keys := fun e he => by simp [openPersistentLog] at he
  term := fun h => by simp [openPersistentLog] at h
  zero := fun _ => rfl

/-! ### Reading -/

theorem get_ok (h : Rep pl l) (hg : pl.get (i + 1) = .ok e) : l[i]? = some e := by
  unfold PersistentLog.get at hg
  split at hg
  · next hc => cases hg; exact h.cache hc
  · unfold PersistentLog.getLocked at hg
    split at hg
    · cases hg
    · next hle =>
      split at hg
      · next he =>
        cases hg
        obtain ⟨hidx, hmem⟩ := lookup_some he
        have hlt := h.keys _ hmem
        rw [← h.entry (by omega) (by omega)]
        exact he
      · cases hg

theorem get_of (h : Rep pl l) (hi : pl.lastIncludedIndex ≤ i) (he : l[i]? = some e) :
    pl.get (i + 1) = .ok e := by
  have hlt : i < pl.lastIndex := h.length ▸ (List.getElem?_eq_some_iff.mp he).1
  unfold PersistentLog.get
  split
  · next e' hc =>
    have := h.cache hc
    rw [he] at this
    cases this; rfl
  · simp only [PersistentLog.getLocked, h.entry hi hlt, he]
    rw [if_neg (by omega)]

theorem retained (h : Rep pl l) (he : pl.retained i = some e) : 0 < i ∧ l[i - 1]? = some e := by
  unfold PersistentLog.retained at he
  split at he
  · next hi =>
    obtain ⟨j, rfl⟩ := Nat.exists_eq_succ_of_ne_zero (Nat.ne_of_gt (Nat.zero_lt_of_lt hi.1))
    refine ⟨Nat.succ_pos j, h.get_ok ?_⟩
    cases hg : pl.get (j + 1) with
    | ok e' => rw [hg] at he; cases he; exact hg
    | error => rw [hg] at he; cases he
  · cases he

theorem retained_or (h : Rep pl l) (he : l[i]? = some e) :
    pl.retained (i + 1) = some e ∨ i + 1 ≤ pl.lastIncludedIndex := by
  have hlt : i < pl.lastIndex := h.length ▸ (List.getElem?_eq_some_iff.mp he).1
  by_cases hi : pl.lastIncludedIndex < i + 1
  · left
    rw [PersistentLog.retained, if_pos ⟨hi, hlt⟩, h.get_of (by omega) he]
    rfl
  · exact .inr (not_lt.mp hi)

theorem termAt_some (h : Rep pl l) (ht : pl.termAt (i + 1) = some t) :
    ∃ e, l[i]? = some e ∧ e.term = t := by
  unfold PersistentLog.termAt at ht
  split at ht
  · next hb => cases ht; exact h.term hb.symm
  · split at ht
    · cases ht
    · split at ht
      · next hg => cases ht; exact ⟨_, h.get_ok hg, rfl⟩
      · cases ht

theorem termAt_of (h : Rep pl l) (hi : pl.lastIncludedIndex ≤ i + 1) (he : l[i]? = some e) :
    pl.termAt (i + 1) = some e.term := by
  have hlt : i < pl.lastIndex := h.length ▸ (List.getElem?_eq_some_iff.mp he).1
  unfold PersistentLog.termAt
  split
  · next hb =>
    obtain ⟨e', he', ht⟩ := h.term hb.symm
    rw [he] at he'
    cases he'
    rw [ht]
  · next hb =>
    rw [if_neg (by rw [h.firstIndex]; omega), h.get_of (by omega) he]

theorem le_of_termAt (h : Rep pl l) (ht : pl.termAt i = some t) :
    pl.lastIncludedIndex ≤ i ∧ i ≤ pl.lastIndex := by
  have hle := h.le
  unfold PersistentLog.termAt at ht
  split at ht
  · omega
  · split at ht
    · cases ht
    · next hout => rw [h.firstIndex] at hout; omega

/-- The last term is that of the list. -/
theorem lastTerm (h : Rep pl l) : pl.lastTerm = Theory.lastTerm Entry.term l := by
  unfold PersistentLog.lastTerm Theory.lastTerm
  rw [List.getLast?_eq_getElem?, h.length]
  split
  · next heq =>
    cases hi : pl.lastIndex with
    | zero =>
      rw [h.zero (by omega)]
      have hnil : l = [] := List.eq_nil_of_length_eq_zero (h.length.trans hi)
      simp [hnil]
    | succ i =>
      obtain ⟨e, he, ht⟩ := h.term (i := i) (by omega)
      simp [he, ht]
  · next hne =>
    have hle := h.le
    obtain ⟨i, hi⟩ : ∃ i, pl.lastIndex = i + 1 := ⟨pl.lastIndex - 1, by omega⟩
    obtain ⟨e, he⟩ : ∃ e, l[i]? = some e :=
      ⟨_, List.getElem?_eq_getElem (by rw [h.length]; omega)⟩
    rw [hi, h.get_of (by omega) he]
    simp [he]

/-- `Range` reads a segment of the list. -/
theorem range_ok (h : Rep pl l) (hr : pl.range (lo + 1) hi = .ok new) : new <+: l.drop lo := by
  refine List.prefix_iff_getElem?.mpr fun i hi => ?_
  rw [List.getElem?_drop]
  refine h.get_ok ?_
  rw [Nat.add_right_comm]
  exact PersistentLog.range_get hr i _ (List.getElem?_eq_getElem hi)

/-! ### Writing -/

theorem setTermAndVote (h : Rep pl l) : Rep (pl.setTermAndVote true t v).1 l :=
  ⟨h.engine, h.firstIndex, h.le, h.length, h.index, h.entry, h.cache, h.keys, h.term, h.zero⟩

/-- Appending after position `prev` replaces what was there. The boundary must lie before `prev`,
or `new` must agree with it. -/
theorem appendEntries (h : Rep pl l) (hne : new ≠ []) (hnew : Consecutive (prev + 1) new)
    (hprev : prev ≤ pl.lastIndex)
    (hb : pl.lastIncludedIndex ≤ prev ∨ ∃ i e, pl.lastIncludedIndex = i + 1 ∧
      (l.take prev ++ new)[i]? = some e ∧ e.term = pl.lastIncludedTerm) :
    Rep (pl.appendEntries true new).1 (l.take prev ++ new) := by
  obtain ⟨first, rest, rfl⟩ := List.exists_cons_of_ne_nil hne
  set new := first :: rest with hnewdef
  have hfirst : first.index = prev + 1 := hnew 0 first rfl
  have htake : (l.take prev).length = prev := by simp [h.length, hprev]
  have hlast : (rest.getLastD first).index = prev + new.length := by
    rw [hnew.getLastD, hnewdef, List.length_cons]
    omega
  have hval (i : ℕ) : (l.take prev ++ new)[i]? = if i < prev then l[i]? else new[i - prev]? := by
    rw [List.getElem?_append, htake]
    split
    · next hi => rw [List.getElem?_take_of_lt hi]
    · rfl
  -- what a table holds afterwards, from `prev` on and before
  have htable (es : List Entry) (i : ℕ) :
      lookup (new.foldl insertEntry (deleteRange first.index pl.lastIndex es)) (i + 1) =
        if prev ≤ i ∧ i < prev + new.length then new[i - prev]?
        else if i < prev ∨ pl.lastIndex < i + 1 then lookup es (i + 1) else none := by
    rw [lookup_foldl_insertEntry hnew, lookup_deleteRange, hfirst]
    have h₁ : i + 1 - (prev + 1) = i - prev := by omega
    have h₂ : (prev + 1 ≤ i + 1 ∧ i + 1 < prev + 1 + new.length) ↔
        (prev ≤ i ∧ i < prev + new.length) := by omega
    simp only [h₁, h₂, Nat.add_lt_add_iff_right]
  have hli : pl.lastIncludedIndex ≤ prev + new.length := by
    rcases hb with hb | ⟨i, e, hi, he, -⟩
    · omega
    · have := (List.getElem?_eq_some_iff.mp he).1
      rw [List.length_append, htake] at this
      omega
  refine ⟨h.engine, ?_, ?_, ?_, ?_, ?_, ?_, ?_, ?_, h.zero⟩
  · show (if _ = 0 then _ else _) = pl.lastIncludedIndex + 1
    rw [h.firstIndex]; simp
  · show _ ≤ (rest.getLastD first).index
    rw [hlast]; exact hli
  · show _ = (rest.getLastD first).index
    rw [hlast, List.length_append, htake]
  · intro i e he
    rw [hval] at he
    split at he
    · exact h.index i e he
    · rw [hnew _ e he]; omega
  · intro i hi hlt
    replace hlt : i < (rest.getLastD first).index := hlt
    rw [hlast] at hlt
    refine (htable _ i).trans ?_
    rw [hval]
    by_cases hip : i < prev
    · rw [if_neg (by omega), if_pos (.inl hip), if_pos hip]
      exact h.entry hi (by omega)
    · rw [if_pos (by omega), if_neg hip]
  · intro i e he
    replace he := (htable _ i).symm.trans (lookup_evictTailCache he)
    rw [hval]
    by_cases hip : i < prev
    · rw [if_neg (by omega), if_pos (.inl hip)] at he
      rw [if_pos hip]; exact h.cache he
    · rw [if_neg hip]
      split at he
      · exact he
      · split at he
        · next hor =>
          -- beyond the old end nothing is cached
          have := (List.getElem?_eq_some_iff.mp (h.cache he)).1
          rw [h.length] at this
          omega
        · cases he
  · intro e he
    show e.index ≤ (rest.getLastD first).index
    rw [hlast]
    rcases mem_foldl_insertEntry he with he | he
    · obtain ⟨i, hi⟩ := List.mem_iff_getElem?.mp he
      have hlt : i < new.length := (List.getElem?_eq_some_iff.mp hi).1
      rw [hnew i e hi]; omega
    · have hmem := List.mem_of_mem_filter he
      have hkeep := List.of_mem_filter he
      have := h.keys e hmem
      simp only [decide_eq_true_eq] at hkeep
      omega
  · intro i (hi : pl.lastIncludedIndex = i + 1)
    rcases hb with hb | ⟨i', e, hi', he, ht⟩
    · obtain ⟨e, he, ht⟩ := h.term hi
      refine ⟨e, ?_, ht⟩
      rw [hval, if_pos (by omega)]; exact he
    · obtain rfl : i = i' := by omega
      exact ⟨e, he, ht⟩

theorem snoc (h : Rep pl l) (he : e.index = pl.lastIndex + 1) :
    Rep (pl.appendEntries true [e]).1 (l ++ [e]) := by
  have hnew : Consecutive (pl.lastIndex + 1) [e] := by
    intro i e' he'
    obtain ⟨hi, rfl⟩ := List.getElem?_eq_some_iff.mp he'
    obtain rfl : i = 0 := by simpa using hi
    exact he
  have := h.appendEntries (by simp) hnew le_rfl (.inl h.le)
  rwa [← h.length, List.take_length] at this

/-- Compaction at an index of the log moves the boundary and nothing else. -/
theorem compactPrefix (h : Rep pl l) (hi : pl.lastIncludedIndex ≤ i)
    (ht : pl.termAt (i + 1) = some t) : Rep (pl.compactPrefix true (i + 1) t).1 l := by
  obtain ⟨e, he, het⟩ := h.termAt_some ht
  have hlt : i < pl.lastIndex := h.length ▸ (List.getElem?_eq_some_iff.mp he).1
  have hmin : min (i + 1) pl.lastIndex = i + 1 := by omega
  have hmax : max pl.lastIndex (i + 1) = pl.lastIndex := by omega
  unfold PersistentLog.compactPrefix
  rw [if_neg (by omega)]
  simp only [if_true, hmin, hmax, h.firstIndex]
  refine ⟨⟨rfl, rfl⟩, rfl, by dsimp only; omega, h.length, h.index, ?_, ?_, ?_, ?_, ?_⟩
  · intro j (hj : i + 1 ≤ j) hjl
    rw [lookup_deleteRange, if_pos (by omega)]
    exact h.entry (by omega) hjl
  · exact fun he' => h.cache (lookup_of_deleteRange he')
  · exact fun e' he' => h.keys e' (List.mem_of_mem_filter he')
  · intro j (hj : i + 1 = j + 1)
    obtain rfl : i = j := by omega
    exact ⟨e, he, het⟩
  · intro h0; simp at h0

/-- A restored boundary stands for any list that ends in its term. -/
theorem restoreSnapshotBoundary (h : Rep pl l) (hlt : pl.lastIncludedIndex ≤ i)
    (hl' : l'.length = i + 1) (hidx : Consecutive 1 l') (he : l'[i]? = some e) :
    Rep (pl.restoreSnapshotBoundary true (i + 1) e.term).1 l' := by
  refine ⟨⟨rfl, rfl⟩, rfl, le_rfl, hl', hidx, ?_, ?_, ?_, ?_, ?_⟩
  · intro j (hj : i + 1 ≤ j) (hjl : j < i + 1)
    omega
  · intro j e' he'
    cases he'
  · intro e' he'
    show e'.index ≤ i + 1
    have hmem := List.mem_of_mem_filter he'
    have hkeep := List.of_mem_filter he'
    have := h.keys e' hmem
    simp only [h.firstIndex, decide_eq_true_eq] at hkeep
    omega
  · intro j (hj : i + 1 = j + 1)
    obtain rfl : i = j := by omega
    exact ⟨e, he, rfl⟩
  · intro h0; cases h0

theorem foldl_max (es : List Entry) (b : ℕ) :
    b ≤ es.foldl (fun last e => max last e.index) b ∧
      (∀ e ∈ es, e.index ≤ es.foldl (fun last e => max last e.index) b) ∧
      (∀ m, b ≤ m → (∀ e ∈ es, e.index ≤ m) → es.foldl (fun last e => max last e.index) b ≤ m) := by
  induction es generalizing b with
  | nil => exact ⟨le_rfl, by simp, fun m hb _ => hb⟩
  | cons e es ih =>
    obtain ⟨h₁, h₂, h₃⟩ := ih (max b e.index)
    refine ⟨by rw [List.foldl_cons]; omega, ?_, ?_⟩
    · intro x hx
      rw [List.foldl_cons]
      rcases List.mem_cons.mp hx with rfl | hx
      · omega
      · exact h₂ x hx
    · intro m hb hall
      have := hall e List.mem_cons_self
      exact h₃ m (by omega) fun x hx => hall x (List.mem_cons_of_mem _ hx)

/-- A log is opened again as what it was. -/
theorem reopen (h : Rep pl l) : Rep (openPersistentLog pl.engine) l := by
  obtain ⟨hle, hmem, hleast⟩ := foldl_max pl.engine.log pl.engine.lastIncludedIndex
  have hlast : (openPersistentLog pl.engine).lastIndex = pl.lastIndex := by
    refine le_antisymm (hleast _ (h.engine.1 ▸ h.le) h.keys) ?_
    rcases h.le.eq_or_lt with heq | hlt
    · rw [← heq, ← h.engine.1]; exact hle
    · -- the last entry is on disk
      obtain ⟨i, hi⟩ : ∃ i, pl.lastIndex = i + 1 := ⟨pl.lastIndex - 1, by omega⟩
      have hi' : i < l.length := by rw [h.length]; omega
      have he := (h.entry (i := i) (by omega) (by omega)).trans (List.getElem?_eq_getElem hi')
      obtain ⟨hidx, hm⟩ := lookup_some he
      have := hmem _ hm
      rw [hidx] at this
      rw [hi]; exact this
  refine ⟨⟨rfl, rfl⟩, rfl, hle, hlast ▸ h.length, h.index, ?_, ?_, ?_, ?_, ?_⟩
  · intro i hi hlt
    exact h.entry (h.engine.1 ▸ hi) (hlast ▸ hlt)
  · intro i e he; cases he
  · intro e he; rw [hlast]; exact h.keys e he
  · intro i hi
    obtain ⟨e, he, ht⟩ := h.term (i := i) (h.engine.1 ▸ hi)
    exact ⟨e, he, ht.trans h.engine.2.symm⟩
  · intro h0
    exact h.engine.2.trans (h.zero (h.engine.1 ▸ h0))

end Rep

/-! ## One entry -/

/-- Whatever is read at the index of `e` is `e`. -/
structure PersistentLog.Holds (pl : PersistentLog) (e : Entry) : Prop where
  le : e.index ≤ pl.lastIndex
  cache : ∀ {x}, lookup pl.tailCache e.index = some x → x = e
  engine : ∀ {x}, lookup pl.engine.log e.index = some x → x = e

namespace PersistentLog.Holds

variable {pl : PersistentLog} {x y : Entry} {t : ℕ}

theorem get (h : Holds pl e) (hg : pl.get e.index = .ok x) : x = e := by
  unfold PersistentLog.get PersistentLog.getLocked at hg
  split at hg
  · next hc => cases hg; exact h.cache hc
  · split at hg
    · cases hg
    · split at hg
      · next hx => cases hg; exact h.engine hx
      · cases hg

/-- What is found after one entry was appended: that entry, or what was there. -/
theorem lookup_snoc {es : List Entry}
    (h : lookup (insertEntry (deleteRange lo hi es) x) i = some y) :
    x.index = i ∧ y = x ∨ lookup es i = some y := by
  rw [lookup_insertEntry] at h
  split at h
  · next heq => cases h; exact .inl ⟨heq, rfl⟩
  · exact .inr (lookup_of_deleteRange h)

theorem snoc (h : Holds pl e) (hx : x.index = pl.lastIndex + 1) :
    Holds (pl.appendEntries true [x]).1 e := by
  have hle := h.le
  refine ⟨?_, fun {y} hy => ?_, fun {y} hy => ?_⟩
  · show e.index ≤ x.index
    omega
  · rcases lookup_snoc (lookup_evictTailCache hy) with ⟨heq, -⟩ | hy
    · omega
    · exact h.cache hy
  · rcases lookup_snoc hy with ⟨heq, -⟩ | hy
    · omega
    · exact h.engine hy

theorem self (pl : PersistentLog) (e : Entry) : Holds (pl.appendEntries true [e]).1 e := by
  refine ⟨le_rfl, fun {y} hy => ?_, fun {y} hy => ?_⟩
  · have hy : lookup (insertEntry _ e) e.index = some y := lookup_evictTailCache hy
    rw [lookup_insertEntry, if_pos rfl] at hy
    cases hy; rfl
  · have hy : lookup (insertEntry _ e) e.index = some y := hy
    rw [lookup_insertEntry, if_pos rfl] at hy
    cases hy; rfl

theorem compactPrefix (h : Holds pl e) : Holds (pl.compactPrefix true i t).1 e := by
  unfold PersistentLog.compactPrefix
  split
  · exact h
  · refine ⟨h.le.trans (le_max_left ..), fun hx => h.cache ?_, fun hx => h.engine ?_⟩
    · exact lookup_of_deleteRange hx
    · exact lookup_of_deleteRange hx

/-- A failed append only drops cached entries. -/
theorem append_failed (h : Holds pl e) (es : List Entry) :
    Holds (pl.appendEntries false es).1 e := by
  cases es with
  | nil => exact h
  | cons x es =>
    refine ⟨h.le, fun hy => h.cache ?_, h.engine⟩
    exact lookup_of_deleteRange hy

end PersistentLog.Holds

end DistributedKV.Raft
