import DistributedKV.Verify.Log

/-!
# The log as a state

A `PersistentLog` is specified by a `LogState`: the term and the vote, the snapshot boundary, and
the entries above it. Disk, cache and index fields all agree with one such state (`Represents`), and
what is read depends on it alone. Every operation acts on it as its name says, and a failed commit
does not change it (`LogRuns.represents`). Indices are unbounded here; `Verify.WordLog` is about the
same log with the indices and the loops of the source.
-/

namespace DistributedKV.Raft

/-! ## The specification -/

structure LogState where
  currentTerm : ℕ := 0
  votedFor : String := ""
  lastIncludedIndex : ℕ := 0
  lastIncludedTerm : ℕ := 0
  /-- The entries from `lastIncludedIndex + 1` on. -/
  entries : List Entry := []

namespace LogState

def lastIndex (s : LogState) : ℕ := s.lastIncludedIndex + s.entries.length

/-- The entry at index `i`. -/
def at? (s : LogState) (i : ℕ) : Option Entry :=
  if s.lastIncludedIndex < i then s.entries[i - (s.lastIncludedIndex + 1)]? else none

def lastTerm (s : LogState) : ℕ := (s.entries.getLast?.map Entry.term).getD s.lastIncludedTerm

def termAt (s : LogState) (i : ℕ) : Option ℕ :=
  if i = s.lastIncludedIndex then some s.lastIncludedTerm else (s.at? i).map Entry.term

def get (s : LogState) (i : ℕ) : Except LogError Entry :=
  match s.at? i with
  | some e => .ok e
  | none =>
    if i ≤ s.lastIncludedIndex then .error (.compacted i s.lastIncludedIndex) else .error .notFound

def range (s : LogState) (lo hi : ℕ) : Except LogError (List Entry) :=
  if hi < lo then .ok []
  else if lo ≤ s.lastIncludedIndex then .error (.compacted lo s.lastIncludedIndex)
  else if s.lastIndex < hi then .error .notFound
  else .ok ((s.entries.drop (lo - (s.lastIncludedIndex + 1))).take (hi + 1 - lo))

/-- Append from index `first` on, in place of what was there. -/
def append (s : LogState) (first : ℕ) (entries : List Entry) : LogState :=
  { s with entries := s.entries.take (first - (s.lastIncludedIndex + 1)) ++ entries }

/-- Cut off the entries from index `start` on. -/
def truncate (s : LogState) (start : ℕ) : LogState :=
  { s with entries := s.entries.take (start - (s.lastIncludedIndex + 1)) }

/-- Move the boundary up to `index`. -/
def compact (s : LogState) (index term : ℕ) : LogState :=
  if index ≤ s.lastIncludedIndex then s
  else { s with
    lastIncludedIndex := index
    lastIncludedTerm := term
    entries := s.entries.drop (index - s.lastIncludedIndex) }

/-- Start from the boundary `index`, with no entries. -/
def reset (s : LogState) (index term : ℕ) : LogState :=
  { s with lastIncludedIndex := index, lastIncludedTerm := term, entries := [] }

end LogState

/-- The operations that change the log. The entries of an append have the indices `first`,
`first + 1`, ... -/
inductive LogOp where
  | setTermAndVote (term : ℕ) (votedFor : String)
  | appendEntries (first : ℕ) (entries : List Entry) (consecutive : Consecutive first entries)
  | truncateSuffix (start : ℕ)
  | compactPrefix (index term : ℕ)
  | restoreSnapshotBoundary (index term : ℕ)

namespace LogOp

/-- What an operation does to the state if its commit succeeds. -/
def act (s : LogState) : LogOp → LogState
  | .setTermAndVote term votedFor => { s with currentTerm := term, votedFor }
  | .appendEntries _ [] _ => s
  | .appendEntries first entries _ => s.append first entries
  | .truncateSuffix start => s.truncate start
  | .compactPrefix index term => s.compact index term
  | .restoreSnapshotBoundary index term => s.reset index term

/-- Entries are appended, and a suffix is cut off, at a place where there is a log. -/
def Legal (pl : PersistentLog) : LogOp → Prop
  | .appendEntries first _ _ => pl.firstIndex ≤ first ∧ first ≤ pl.lastIndex + 1
  | .truncateSuffix start => pl.firstIndex ≤ start
  | _ => True

instance (pl : PersistentLog) (op : LogOp) : Decidable (op.Legal pl) := by
  unfold Legal
  split <;> infer_instance

/-- The numbers of the operation are `uint64`, with room for the next index. -/
def Fits : LogOp → Prop
  | .setTermAndVote term _ => term < 2 ^ 64
  | .appendEntries first entries _ =>
    first + entries.length < 2 ^ 64 ∧ ∀ x ∈ entries, x.term < 2 ^ 64
  | .truncateSuffix _ => True
  | .compactPrefix index term => index + 1 < 2 ^ 64 ∧ term < 2 ^ 64
  | .restoreSnapshotBoundary index term => index + 1 < 2 ^ 64 ∧ term < 2 ^ 64

instance : (op : LogOp) → Decidable op.Fits
  | .setTermAndVote .. => inferInstanceAs (Decidable (_ < _))
  | .appendEntries .. => inferInstanceAs (Decidable (_ ∧ _))
  | .truncateSuffix _ => .isTrue trivial
  | .compactPrefix .. => inferInstanceAs (Decidable (_ ∧ _))
  | .restoreSnapshotBoundary .. => inferInstanceAs (Decidable (_ ∧ _))

end LogOp

def PersistentLog.perform (commit : Bool) (pl : PersistentLog) : LogOp → PersistentLog × Bool
  | .setTermAndVote term votedFor => pl.setTermAndVote commit term votedFor
  | .appendEntries _ entries _ => pl.appendEntries commit entries
  | .truncateSuffix start => pl.truncateSuffix commit start
  | .compactPrefix index term => pl.compactPrefix commit index term
  | .restoreSnapshotBoundary index term => pl.restoreSnapshotBoundary commit index term

/-! ## Representation -/

/-- Disk, cache and index fields of `pl` stand for `s`. -/
structure Represents (pl : PersistentLog) (s : LogState) : Prop where
  durable : pl.Durable
  ballot : pl.currentTerm = s.currentTerm ∧ pl.votedFor = s.votedFor
  engine : pl.engine.lastIncludedIndex = s.lastIncludedIndex ∧
    pl.engine.lastIncludedTerm = s.lastIncludedTerm
  boundary : pl.lastIncludedIndex = s.lastIncludedIndex ∧ pl.lastIncludedTerm = s.lastIncludedTerm
  firstIndex : pl.firstIndex = s.lastIncludedIndex + 1
  lastIndex : pl.lastIndex = s.lastIndex
  consecutive : Consecutive (s.lastIncludedIndex + 1) s.entries
  disk : ∀ i, lookup pl.engine.log i = s.at? i
  cache : ∀ {i e}, lookup pl.tailCache i = some e → s.at? i = some e

namespace LogState

variable {s : LogState} {i : ℕ}

theorem at?_of_le (h : i ≤ s.lastIncludedIndex) : s.at? i = none := if_neg (not_lt.mpr h)

theorem at?_of_gt (h : s.lastIndex < i) : s.at? i = none := by
  unfold at? lastIndex at *
  split
  · exact List.getElem?_eq_none (by omega)
  · rfl

theorem at?_isSome : (s.at? i).isSome ↔ s.lastIncludedIndex < i ∧ i ≤ s.lastIndex := by
  unfold at? lastIndex
  split
  · rw [Option.isSome_iff_ne_none, ne_eq, List.getElem?_eq_none_iff]
    omega
  · simp only [Option.isSome_none, Bool.false_eq_true, false_iff]
    omega

/-- The terms from the boundary on. -/
def terms (s : LogState) : List ℕ := s.lastIncludedTerm :: s.entries.map Entry.term

theorem termAt_eq (s : LogState) (i : ℕ) :
    s.termAt i = if s.lastIncludedIndex ≤ i then s.terms[i - s.lastIncludedIndex]? else none := by
  unfold termAt at? terms
  rcases lt_trichotomy i s.lastIncludedIndex with hlt | rfl | hgt
  · rw [if_neg (by omega), if_neg (by omega), if_neg (by omega)]
    rfl
  · simp
  · rw [if_neg (by omega), if_pos hgt, if_pos hgt.le,
      show i - s.lastIncludedIndex = i - (s.lastIncludedIndex + 1) + 1 by omega,
      List.getElem?_cons_succ, List.getElem?_map]

theorem termAt_mem (h : s.termAt i = some t) : t ∈ s.terms := by
  rw [termAt_eq] at h
  exact List.mem_of_getElem? (Option.ite_none_right_eq_some.mp h).2

theorem termAt_mono (hs : s.terms.Pairwise (· ≤ ·)) (hij : i ≤ j) (hi : s.termAt i = some t)
    (hj : s.termAt j = some u) : t ≤ u := by
  rw [termAt_eq] at hi hj
  obtain ⟨hli, hi⟩ := Option.ite_none_right_eq_some.mp hi
  obtain ⟨-, hj⟩ := Option.ite_none_right_eq_some.mp hj
  exact Theory.pairwise_getElem? hs (fun _ => le_rfl) (Nat.sub_le_sub_right hij _) hi hj

theorem get_eq_ok : s.get i = .ok e ↔ s.at? i = some e := by
  unfold get
  cases s.at? i with
  | some x => simp
  | none =>
    dsimp only
    split <;> simp

end LogState

namespace Represents

variable {pl : PersistentLog} {s : LogState} {i : ℕ}

theorem init : Represents (openPersistentLog {}) {} where
  durable := ⟨rfl, rfl⟩
  ballot := ⟨rfl, rfl⟩
  engine := ⟨rfl, rfl⟩
  boundary := ⟨rfl, rfl⟩
  firstIndex := rfl
  lastIndex := rfl
  consecutive := fun i e h => by simp at h
  disk := fun i => by simp [openPersistentLog, lookup, LogState.at?]
  cache := fun h => by simp [openPersistentLog, lookup] at h

/-! ### Reading -/

theorem get (h : Represents pl s) (i : ℕ) : pl.get i = s.get i := by
  unfold PersistentLog.get LogState.get PersistentLog.getLocked
  cases hc : lookup pl.tailCache i with
  | some e => rw [h.cache hc]
  | none =>
    dsimp only
    rw [h.disk, h.boundary.1]
    rcases le_or_gt i s.lastIncludedIndex with hle | hgt
    · rw [if_pos hle, LogState.at?_of_le hle, if_pos hle]
    · have hno : ¬i ≤ s.lastIncludedIndex := not_le.mpr hgt
      cases s.at? i with
      | some e => exact if_neg hno
      | none => exact (if_neg hno).trans (if_neg hno).symm

theorem termAt (h : Represents pl s) (i : ℕ) : pl.termAt i = s.termAt i := by
  unfold PersistentLog.termAt LogState.termAt
  rw [h.boundary.1, h.boundary.2]
  split
  · rfl
  next hne =>
  rw [h.firstIndex, h.lastIndex, h.get]
  have hin := LogState.at?_isSome (s := s) (i := i)
  cases he : s.at? i with
  | none =>
    -- nothing is stored outside of the range
    rw [if_pos (by simp [he] at hin; omega)]
    rfl
  | some e =>
    rw [if_neg (by simp [he] at hin; omega), LogState.get, he]
    rfl

theorem lastTerm (h : Represents pl s) : pl.lastTerm = s.lastTerm := by
  unfold PersistentLog.lastTerm LogState.lastTerm
  rw [h.boundary.1, h.boundary.2, h.lastIndex, h.get]
  unfold LogState.lastIndex
  rcases List.eq_nil_or_concat s.entries with hnil | ⟨es, e, hes⟩
  · simp [hnil]
  · have hat : s.at? (s.lastIncludedIndex + s.entries.length) = some e := by
      unfold LogState.at?
      rw [if_pos (by simp [hes]), hes, List.concat_eq_append, List.length_append,
        List.length_singleton, show s.lastIncludedIndex + (es.length + 1) -
          (s.lastIncludedIndex + 1) = es.length by omega]
      simp
    rw [if_neg (by simp [hes]), LogState.get, hat, hes]
    simp

theorem mapM_error {f : ℕ → Except LogError Entry} (hlo : ∀ j < k, ∃ e, f (lo + j) = .ok e)
    (herr : f (lo + k) = .error err) (hk : k < m) :
    (List.range' lo m).mapM f = .error err := by
  induction k generalizing lo m with
  | zero =>
    obtain ⟨m, rfl⟩ := Nat.exists_eq_succ_of_ne_zero (Nat.ne_of_gt hk)
    rw [List.range'_succ, List.mapM_cons]
    have : f lo = .error err := herr
    rw [this]
    rfl
  | succ k ih =>
    obtain ⟨m, rfl⟩ := Nat.exists_eq_succ_of_ne_zero (Nat.ne_of_gt (Nat.zero_lt_of_lt hk))
    obtain ⟨e, he⟩ := hlo 0 (Nat.succ_pos k)
    have he : f lo = .ok e := he
    have hrest : (List.range' (lo + 1) m).mapM f = .error err := by
      refine ih (fun j hj => ?_) ?_ (by omega)
      · have := hlo (j + 1) (by omega)
        rwa [← Nat.add_assoc, Nat.add_right_comm] at this
      · rwa [← Nat.add_assoc, Nat.add_right_comm] at herr
    rw [List.range'_succ, List.mapM_cons, he, hrest]
    rfl

theorem mapM_ok {f : ℕ → Except LogError Entry} {es : List Entry}
    (h : ∀ j e, es[j]? = some e → f (lo + j) = .ok e) :
    (List.range' lo es.length).mapM f = .ok es := by
  induction es generalizing lo with
  | nil => rfl
  | cons e es ih =>
    have he : f lo = .ok e := h 0 e rfl
    have hrest : (List.range' (lo + 1) es.length).mapM f = .ok es := by
      refine ih fun j x hx => ?_
      have := h (j + 1) x hx
      rwa [← Nat.add_assoc, Nat.add_right_comm] at this
    rw [List.length_cons, List.range'_succ, List.mapM_cons, he, hrest]
    rfl

theorem range (h : Represents pl s) (lo hi : ℕ) : pl.range lo hi = s.range lo hi := by
  unfold PersistentLog.range LogState.range
  have hget (i : ℕ) : pl.get i = s.get i := h.get i
  rw [funext hget]
  split
  · next hlt =>
    rw [show hi + 1 - lo = 0 by omega]
    rfl
  next hle =>
  split
  · next hlo =>
    refine mapM_error (k := 0) (by simp) ?_ (by omega)
    show s.get lo = _
    rw [LogState.get, LogState.at?_of_le hlo, if_pos hlo]
  next hlo =>
  have hok (j : ℕ) (hj : lo + j ≤ s.lastIndex) :
      ∃ e, s.entries[lo - (s.lastIncludedIndex + 1) + j]? = some e ∧ s.get (lo + j) = .ok e := by
    have hat : s.at? (lo + j) = s.entries[lo - (s.lastIncludedIndex + 1) + j]? := by
      unfold LogState.at?
      rw [if_pos (by omega)]
      congr 1
      omega
    obtain ⟨e, he⟩ := Option.isSome_iff_exists.mp
      (LogState.at?_isSome.mpr ⟨Nat.lt_of_lt_of_le (by omega) (Nat.le_add_right lo j), hj⟩)
    exact ⟨e, hat.symm.trans he, by rw [LogState.get, he]⟩
  split
  · next hhi =>
    -- the first index after the log
    refine mapM_error (k := s.lastIndex + 1 - lo) (fun j hj => ?_) ?_ (by omega)
    · obtain ⟨e, -, he⟩ := hok j (by omega)
      exact ⟨e, he⟩
    · rw [LogState.get, LogState.at?_of_gt (by omega), if_neg (by omega)]
  · next hhi =>
    set es := (s.entries.drop (lo - (s.lastIncludedIndex + 1))).take (hi + 1 - lo) with hes
    have hlen : es.length = hi + 1 - lo := by
      unfold LogState.lastIndex at hhi
      rw [hes, List.length_take, List.length_drop]
      omega
    rw [← hlen]
    refine mapM_ok fun j e he => ?_
    have hj : j < es.length := (List.getElem?_eq_some_iff.mp he).1
    rw [hes, List.getElem?_take_of_lt (by omega), List.getElem?_drop] at he
    obtain ⟨e', he', hget'⟩ := hok j (by omega)
    rw [he] at he'
    cases he'
    exact hget'

/-! ### Writing -/

theorem uncache (h : Represents pl s)
    (hc : ∀ {i e}, lookup es i = some e → lookup pl.tailCache i = some e) :
    Represents { pl with tailCache := es } s :=
  ⟨h.durable, h.ballot, h.engine, h.boundary, h.firstIndex, h.lastIndex, h.consecutive, h.disk,
    fun hl => h.cache (hc hl)⟩

theorem setTermAndVote (h : Represents pl s) (term : ℕ) (v : String) :
    Represents (pl.setTermAndVote true term v).1 { s with currentTerm := term, votedFor := v } :=
  ⟨⟨rfl, rfl⟩, ⟨rfl, rfl⟩, h.engine, h.boundary, h.firstIndex, h.lastIndex, h.consecutive, h.disk,
    h.cache⟩

theorem appendEntries (h : Represents pl s) (hnew : Consecutive first (x :: rest))
    (hlo : s.lastIncludedIndex + 1 ≤ first) (hhi : first ≤ s.lastIndex + 1) :
    Represents (pl.appendEntries true (x :: rest)).1 (s.append first (x :: rest)) := by
  have hx : x.index = first := hnew 0 x rfl
  have htake : (s.entries.take (first - (s.lastIncludedIndex + 1))).length =
      first - (s.lastIncludedIndex + 1) := by
    unfold LogState.lastIndex at hhi
    rw [List.length_take]
    omega
  -- what is at an index afterwards
  have hat (i : ℕ) : (s.append first (x :: rest)).at? i =
      if first ≤ i ∧ i < first + (x :: rest).length then (x :: rest)[i - first]?
      else if i < first then s.at? i else none := by
    unfold LogState.at? LogState.append
    dsimp only
    rw [List.getElem?_append, htake]
    rcases lt_or_ge i first with hlt | hge
    · have hout : ¬(first ≤ i ∧ i < first + (x :: rest).length) := by omega
      rw [if_neg hout, if_pos hlt]
      split
      · rw [if_pos (by omega), List.getElem?_take_of_lt (by omega)]
      · rfl
    · have hnot : ¬i < first := not_lt.mpr hge
      have hafter : ¬i - (s.lastIncludedIndex + 1) < first - (s.lastIncludedIndex + 1) := by omega
      rw [if_neg hnot, if_pos (by omega), if_neg hafter, show i - (s.lastIncludedIndex + 1) -
        (first - (s.lastIncludedIndex + 1)) = i - first by omega]
      split
      · rfl
      · rw [List.getElem?_eq_none (by omega)]
  have htable (es : List Entry) (i : ℕ) :
      lookup ((x :: rest).foldl insertEntry (deleteRange x.index pl.lastIndex es)) i =
        if first ≤ i ∧ i < first + (x :: rest).length then (x :: rest)[i - first]?
        else if i < first ∨ s.lastIndex < i then lookup es i else none := by
    rw [lookup_foldl_insertEntry hnew, lookup_deleteRange, hx, h.lastIndex]
  refine ⟨h.durable, h.ballot, h.engine, h.boundary, ?_, ?_, ?_, fun i => ?_, fun {i e} hl => ?_⟩
  · show (if _ = 0 then _ else _) = s.lastIncludedIndex + 1
    rw [h.firstIndex, h.boundary.1]
    simp
  · show (rest.getLastD x).index = s.lastIncludedIndex + (_ ++ x :: rest).length
    rw [hnew.getLastD, List.length_append, htake, List.length_cons]
    omega
  · refine (h.consecutive.of_isPrefix (List.take_prefix ..)).append ?_
    rw [htake, show s.lastIncludedIndex + 1 + (first - (s.lastIncludedIndex + 1)) = first by omega]
    exact hnew
  · refine (htable pl.engine.log i).trans ?_
    rw [hat, h.disk]
    split
    · rfl
    · rcases lt_or_ge i first with hlt | hge
      · rw [if_pos (.inl hlt), if_pos hlt]
      · have hnot : ¬i < first := not_lt.mpr hge
        rw [if_neg hnot]
        split
        · next hor => exact LogState.at?_of_gt (by omega)
        · rfl
  · replace hl := (htable pl.tailCache i).symm.trans (lookup_evictTailCache hl)
    rw [hat]
    split at hl
    · next hin => rw [if_pos hin]; exact hl
    · next hout =>
      rw [if_neg hout]
      split at hl
      · next hor =>
        have hs := h.cache hl
        have := LogState.at?_isSome.mp (Option.isSome_of_eq_some hs)
        rw [if_pos (by omega)]
        exact hs
      · cases hl

theorem truncateSuffix (h : Represents pl s) (hlo : s.lastIncludedIndex + 1 ≤ start) :
    Represents (pl.truncateSuffix true start).1 (s.truncate start) := by
  have hlen : s.lastIndex = s.lastIncludedIndex + s.entries.length := rfl
  unfold PersistentLog.truncateSuffix LogState.truncate
  split
  · next hgt =>
    rw [h.lastIndex] at hgt
    rw [List.take_of_length_le (by omega)]
    exact h
  next hle =>
  rw [h.lastIndex] at hle
  have hat (i : ℕ) : (s.truncate start).at? i =
      if i < start ∨ s.lastIndex < i then s.at? i else none := by
    unfold LogState.at? LogState.truncate
    dsimp only
    by_cases hi : s.lastIncludedIndex < i
    · rw [if_pos hi, if_pos hi]
      rcases lt_or_ge i start with hlt | hge
      · rw [if_pos (.inl hlt), List.getElem?_take_of_lt (by omega)]
      · rw [List.getElem?_eq_none (by rw [List.length_take]; omega)]
        split
        · exact (List.getElem?_eq_none (by omega)).symm
        · rfl
    · rw [if_neg hi, if_neg hi, ite_self]
  refine ⟨h.durable, h.ballot, h.engine, h.boundary, h.firstIndex, ?_, ?_, fun i => ?_,
    fun {i e} hl => ?_⟩
  · show (if start = pl.firstIndex then pl.lastIncludedIndex else start - 1) =
      s.lastIncludedIndex + (s.entries.take _).length
    rw [h.firstIndex, h.boundary.1, List.length_take]
    split <;> omega
  · exact h.consecutive.of_isPrefix (List.take_prefix ..)
  · refine (lookup_deleteRange.trans ?_).trans (hat i).symm
    rw [h.lastIndex, h.disk]
  · refine (hat i).trans ?_
    have hl : lookup (deleteRange start pl.lastIndex pl.tailCache) i = some e := hl
    rw [lookup_deleteRange, h.lastIndex] at hl
    obtain ⟨hout, hl⟩ := Option.ite_none_right_eq_some.mp hl
    rw [if_pos hout]
    exact h.cache hl

theorem compactPrefix (h : Represents pl s) (index term : ℕ) :
    Represents (pl.compactPrefix true index term).1 (s.compact index term) := by
  have hlen : s.lastIndex = s.lastIncludedIndex + s.entries.length := rfl
  unfold PersistentLog.compactPrefix LogState.compact
  rw [h.boundary.1]
  split
  · exact h
  next hgt =>
  have hat (i : ℕ) : ({ s with
      lastIncludedIndex := index, lastIncludedTerm := term
      entries := s.entries.drop (index - s.lastIncludedIndex) } : LogState).at? i =
        if i < s.lastIncludedIndex + 1 ∨ min index s.lastIndex < i then s.at? i else none := by
    unfold LogState.at?
    dsimp only
    rcases lt_or_ge index i with hlt | hge
    · have hout : i < s.lastIncludedIndex + 1 ∨ min index s.lastIndex < i := .inr (by omega)
      rw [if_pos hlt, if_pos hout, if_pos (by omega), List.getElem?_drop]
      congr 1
      omega
    · rw [if_neg (not_lt.mpr hge)]
      split
      · split
        · exact (List.getElem?_eq_none (by omega)).symm
        · rfl
      · rfl
  dsimp only [if_true]
  refine ⟨h.durable, h.ballot, ⟨rfl, rfl⟩, ⟨rfl, rfl⟩, rfl, ?_, ?_, fun i => ?_, fun {i e} hl => ?_⟩
  · show max pl.lastIndex index = index + (s.entries.drop _).length
    rw [h.lastIndex, List.length_drop]
    omega
  · have hdrop := h.consecutive.drop (i := index - s.lastIncludedIndex)
    rw [show s.lastIncludedIndex + 1 + (index - s.lastIncludedIndex) = index + 1 by omega] at hdrop
    exact hdrop
  · rw [hat]
    refine lookup_deleteRange.trans ?_
    rw [h.lastIndex, h.firstIndex, h.disk]
  · rw [hat]
    have hl : lookup (deleteRange pl.firstIndex (min index pl.lastIndex) pl.tailCache) i =
        some e := hl
    rw [lookup_deleteRange, h.lastIndex, h.firstIndex] at hl
    obtain ⟨hout, hl⟩ := Option.ite_none_right_eq_some.mp hl
    rw [if_pos hout]
    exact h.cache hl

theorem restoreSnapshotBoundary (h : Represents pl s) (index term : ℕ) :
    Represents (pl.restoreSnapshotBoundary true index term).1 (s.reset index term) := by
  refine ⟨h.durable, h.ballot, ⟨rfl, rfl⟩, ⟨rfl, rfl⟩, rfl, rfl,
    fun i e he => by simp [LogState.reset] at he,
    fun i => ?_, fun hl => by cases hl⟩
  have hnone : (s.reset index term).at? i = none := by simp [LogState.at?, LogState.reset]
  rw [hnone]
  refine lookup_deleteRange.trans ?_
  rw [h.firstIndex, h.lastIndex, h.disk]
  split
  · next hor =>
    rcases hor with hle | hgt
    · exact LogState.at?_of_le (by omega)
    · exact LogState.at?_of_gt hgt
  · rfl

/-- A log that is opened is what the engine holds. -/
theorem opened {engine : Engine}
    (hballot : engine.currentTerm = s.currentTerm ∧ engine.votedFor = s.votedFor)
    (hengine : engine.lastIncludedIndex = s.lastIncludedIndex ∧
      engine.lastIncludedTerm = s.lastIncludedTerm)
    (hcons : Consecutive (s.lastIncludedIndex + 1) s.entries)
    (hdisk : ∀ i, lookup engine.log i = s.at? i) : Represents (openPersistentLog engine) s := by
  obtain ⟨hle, hmem, hleast⟩ := Rep.foldl_max engine.log engine.lastIncludedIndex
  have hlast : (openPersistentLog engine).lastIndex = s.lastIndex := by
    refine le_antisymm (hleast _ ?_ fun e he => ?_) ?_
    · rw [hengine.1]
      exact Nat.le_add_right ..
    · have hin := lookup_isSome he
      rw [hdisk] at hin
      exact (LogState.at?_isSome.mp hin).2
    · rcases Nat.eq_zero_or_pos s.entries.length with h0 | hpos
      · rw [LogState.lastIndex, h0, ← hengine.1]
        exact hle
      · -- the last entry is on disk
        have hin : (s.at? s.lastIndex).isSome := LogState.at?_isSome.mpr
          ⟨by rw [LogState.lastIndex]; omega, le_rfl⟩
        obtain ⟨e, he⟩ := Option.isSome_iff_exists.mp hin
        obtain ⟨hidx, hm⟩ := lookup_some ((hdisk _).trans he)
        rw [← hidx]
        exact hmem e hm
  exact ⟨⟨rfl, rfl⟩, hballot, hengine, hengine, congrArg (· + 1) hengine.1, hlast, hcons, hdisk,
    fun hl => by cases hl⟩

/-- The log is opened again as what it was. -/
theorem reopen (h : Represents pl s) : Represents (openPersistentLog pl.engine) s :=
  opened ⟨h.durable.1.trans h.ballot.1, h.durable.2.trans h.ballot.2⟩ h.engine h.consecutive
    h.disk

/-- A log that is opened on a table of consecutive entries above the boundary. -/
theorem of_entries (s : LogState) (hcons : Consecutive (s.lastIncludedIndex + 1) s.entries) :
    Represents (openPersistentLog
      ⟨s.entries, s.currentTerm, s.votedFor, s.lastIncludedIndex, s.lastIncludedTerm⟩) s := by
  refine opened ⟨rfl, rfl⟩ ⟨rfl, rfl⟩ hcons fun i => ?_
  rw [hcons.lookup]
  rfl

/-- One operation, whose commit succeeds or fails. -/
theorem perform (h : Represents pl s) (hop : op.Legal pl) (commit : Bool) :
    Represents (pl.perform commit op).1 (if commit then op.act s else s) := by
  cases commit with
  | true =>
    cases op with
    | setTermAndVote term v => exact h.setTermAndVote term v
    | appendEntries first es hes =>
      cases es with
      | nil => exact h
      | cons x rest =>
        obtain ⟨hlo, hhi⟩ := hop
        rw [h.firstIndex] at hlo
        rw [h.lastIndex] at hhi
        exact h.appendEntries hes hlo hhi
    | truncateSuffix start =>
      have hlo : pl.firstIndex ≤ start := hop
      rw [h.firstIndex] at hlo
      exact h.truncateSuffix hlo
    | compactPrefix index term => exact h.compactPrefix index term
    | restoreSnapshotBoundary index term => exact h.restoreSnapshotBoundary index term
  | false =>
    -- cache entries may have been dropped before the commit
    cases op with
    | setTermAndVote => exact h
    | appendEntries first es hes =>
      cases es with
      | nil => exact h
      | cons x rest => exact h.uncache fun hl => lookup_of_deleteRange hl
    | truncateSuffix start =>
      dsimp only [PersistentLog.perform, PersistentLog.truncateSuffix]
      split
      · exact h
      · exact h.uncache fun hl => lookup_of_deleteRange hl
    | compactPrefix index term =>
      dsimp only [PersistentLog.perform, PersistentLog.compactPrefix]
      split
      · exact h
      · exact h.uncache fun hl => lookup_of_deleteRange hl
    | restoreSnapshotBoundary => exact h.uncache fun hl => by cases hl

end Represents

/-! ## Runs -/

/-- Indices stay below the limit. -/
theorem LogOp.Fits.lastIndex_act {op : LogOp} {s : LogState} {pl : PersistentLog} (h : op.Fits)
    (hs : s.lastIndex + 1 < 2 ^ 64) (hrep : Represents pl s) (hop : op.Legal pl) :
    (op.act s).lastIndex + 1 < 2 ^ 64 := by
  unfold LogState.lastIndex at *
  cases op with
  | setTermAndVote => exact hs
  | appendEntries first es hes =>
    cases es with
    | nil => exact hs
    | cons x rest =>
      have hlo : pl.firstIndex ≤ first := hop.1
      rw [hrep.firstIndex] at hlo
      have := h.1
      simp only [act, LogState.append, List.length_append, List.length_take]
      omega
  | truncateSuffix start =>
    simp only [act, LogState.truncate, List.length_take]
    omega
  | compactPrefix index term =>
    have := h.1
    simp only [act, LogState.compact]
    split
    · exact hs
    · simp only [List.length_drop]
      omega
  | restoreSnapshotBoundary index term => exact h.1

/-- The logs that can come of an empty engine, with the operations performed on the way and the
outcomes of their commits. The log may be opened again at any time. -/
inductive LogRuns : List (LogOp × Bool) → PersistentLog → Prop where
  | init : LogRuns [] (openPersistentLog {})
  | step (op : LogOp) (commit : Bool) : LogRuns ops pl → op.Legal pl →
    LogRuns (ops ++ [(op, commit)]) (pl.perform commit op).1
  | reopen : LogRuns ops pl → LogRuns ops (openPersistentLog pl.engine)

/-- The state that a sequence of operations makes of the empty one. -/
def LogState.after (ops : List (LogOp × Bool)) : LogState :=
  ops.foldl (fun s op => if op.2 then op.1.act s else s) {}

theorem LogRuns.represents (h : LogRuns ops pl) : Represents pl (.after ops) := by
  induction h with
  | init => exact .init
  | step op commit _ hop ih =>
    rw [LogState.after, List.foldl_append]
    exact ih.perform hop commit
  | reopen _ ih => exact ih.reopen

/-- No-ops of the given terms, from index `first` on. -/
def noops (first : ℕ) (terms : List ℕ) : List Entry :=
  terms.mapIdx fun i term => { index := first + i, term, type := .noop }

theorem Consecutive.noops (first : ℕ) (terms : List ℕ) : Consecutive first (noops first terms) := by
  intro i e he
  rw [Raft.noops, List.getElem?_mapIdx] at he
  obtain ⟨term, -, rfl⟩ := Option.map_eq_some_iff.mp he
  rfl

end DistributedKV.Raft
