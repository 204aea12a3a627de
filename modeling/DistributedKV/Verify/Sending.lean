import DistributedKV.Verify.Races

/-!
# What a leader sends

`replicateToPeer` reads the log in several calls, after it has checked once that the node leads.
While nothing but appends at the end and compactions come between these, the request it builds is a
slice of the leader's log (`sent_slice`).
-/

namespace DistributedKV.Raft

open Theory

variable {me : Member} {n : Node} {o : StorageOutcome} {t : Task}

/-! ## Reading a log that changes -/

namespace PersistentLog

variable {pl pl' : PersistentLog} {i next prevTerm : ℕ}

/-- `prev` and what follows it are read off one log. -/
def Slice (pl : PersistentLog) (prev prevTerm : ℕ) (es : List Entry) : Prop :=
  (pl.termAt prev = some prevTerm ∨ prev = 0 ∧ prevTerm = 0) ∧
    ∀ k < es.length, (pl.get (prev + 1 + k)).toOption = es[k]?

instance {prev : ℕ} : Decidable (pl.Slice prev prevTerm es) := inferInstanceAs (Decidable (_ ∧ _))

/-- Cached entries are on disk, and the log begins above its boundary. -/
structure Tidy (pl : PersistentLog) : Prop where
  firstIndex : pl.firstIndex = pl.lastIncludedIndex + 1
  cache : ∀ {i e}, lookup pl.tailCache i = some e → lookup pl.engine.log i = some e

theorem lookup_foldl_mono {es cache new : List Entry}
    (h : ∀ {i e}, lookup cache i = some e → lookup es i = some e)
    (hl : lookup (new.foldl insertEntry cache) i = some x) :
    lookup (new.foldl insertEntry es) i = some x := by
  induction new generalizing es cache with
  | nil => exact h hl
  | cons y new ih =>
    refine ih (fun {j z} hy => ?_) hl
    rw [lookup_insertEntry] at hy ⊢
    split at hy
    · next heq => rwa [if_pos heq]
    · next hne => rw [if_neg hne]; exact h hy

theorem lookup_deleteRange_mono {es cache : List Entry}
    (h : ∀ {i e}, lookup cache i = some e → lookup es i = some e)
    (hl : lookup (deleteRange lo hi cache) i = some e) :
    lookup (deleteRange lo hi es) i = some e := by
  rw [lookup_deleteRange] at hl ⊢
  obtain ⟨hout, hl⟩ := Option.ite_none_right_eq_some.mp hl
  rw [if_pos hout]
  exact h hl

namespace Tidy

theorem uncache (h : Tidy pl)
    (hc : ∀ {i e}, lookup es i = some e → lookup pl.tailCache i = some e) :
    Tidy { pl with tailCache := es } := ⟨h.firstIndex, fun hl => h.cache (hc hl)⟩

theorem setTermAndVote (h : Tidy pl) (commit : Bool) (term : ℕ) (v : String) :
    Tidy (pl.setTermAndVote commit term v).1 := by
  cases commit with
  | false => exact h
  | true => exact ⟨h.firstIndex, h.cache⟩

theorem appendEntries (h : Tidy pl) (commit : Bool) (es : List Entry) :
    Tidy (pl.appendEntries commit es).1 := by
  cases es with
  | nil => exact h
  | cons x es =>
    cases commit with
    | false => exact h.uncache fun hl => lookup_of_deleteRange hl
    | true =>
      refine ⟨?_, fun hl => ?_⟩
      · show (if _ = 0 then _ else _) = pl.lastIncludedIndex + 1
        rw [h.firstIndex]
        simp
      · exact lookup_foldl_mono (fun hy => lookup_deleteRange_mono h.cache hy)
          (lookup_evictTailCache hl)

theorem compactPrefix (h : Tidy pl) (commit : Bool) (index term : ℕ) :
    Tidy (pl.compactPrefix commit index term).1 := by
  unfold PersistentLog.compactPrefix
  split
  · exact h
  · cases commit with
    | false => exact h.uncache fun hl => lookup_of_deleteRange hl
    | true => exact ⟨rfl, fun hl => lookup_deleteRange_mono h.cache hl⟩

theorem restoreSnapshotBoundary (h : Tidy pl) (commit : Bool) (index term : ℕ) :
    Tidy (pl.restoreSnapshotBoundary commit index term).1 := by
  cases commit with
  | false => exact h.uncache fun hl => by cases hl
  | true => exact ⟨rfl, fun hl => by cases hl⟩

theorem reopen (engine : Engine) : Tidy (openPersistentLog engine) :=
  ⟨rfl, fun hl => by cases hl⟩

theorem get (h : Tidy pl) (hi : pl.lastIncludedIndex < i) :
    (pl.get i).toOption = lookup pl.engine.log i := by
  unfold PersistentLog.get PersistentLog.getLocked
  split
  · next hc => rw [h.cache hc]; rfl
  · rw [if_neg (not_le.mpr hi)]
    cases lookup pl.engine.log i <;> rfl

/-- The term at an index, from the disk. -/
theorem termAt (h : Tidy pl) (i : ℕ) : pl.termAt i =
    if i = pl.lastIncludedIndex then some pl.lastIncludedTerm
    else if pl.lastIncludedIndex < i ∧ i ≤ pl.lastIndex then
      (lookup pl.engine.log i).map Entry.term
    else none := by
  unfold PersistentLog.termAt
  split
  · rfl
  next hne =>
  rw [h.firstIndex]
  split
  · rw [if_neg (by omega)]
  · next hin =>
    have hlt : pl.lastIncludedIndex < i := by omega
    rw [if_pos (by omega), ← h.get hlt]
    cases pl.get i <;> rfl

end Tidy

/-- What may happen to a log while it is being read, other than an append at its end. -/
inductive Trims (pl : PersistentLog) : PersistentLog → Prop where
  | ballot (engine : Engine) (term : ℕ) (v : String) : engine.log = pl.engine.log →
    pl.Trims { pl with engine, currentTerm := term, votedFor := v }
  | uncache : (∀ {i e}, lookup es i = some e → lookup pl.tailCache i = some e) →
    pl.Trims { pl with tailCache := es }
  | compact : pl.termAt index = some term → pl.Trims (pl.compactPrefix true index term).1

theorem Trims.refl (pl : PersistentLog) : pl.Trims pl := .ballot pl.engine _ _ rfl

/-- Only the term and the vote are different. -/
inductive SameEntries (pl : PersistentLog) : PersistentLog → Prop where
  | mk (engine : Engine) (term : ℕ) (v : String) : engine.log = pl.engine.log →
    pl.SameEntries { pl with engine, currentTerm := term, votedFor := v }

theorem SameEntries.refl (pl : PersistentLog) : pl.SameEntries pl := .mk pl.engine _ _ rfl

theorem SameEntries.setTermAndVote (h : pl.SameEntries pl') (commit : Bool) (term : ℕ)
    (v : String) : pl.SameEntries (pl'.setTermAndVote commit term v).1 := by
  cases h with
  | mk engine term' v' hlog =>
    cases commit with
    | false => exact .mk engine term' v' hlog
    | true => exact .mk { engine with currentTerm := term, votedFor := v } term v hlog

theorem SameEntries.trims (h : pl.SameEntries pl') : pl.Trims pl' := by
  cases h with
  | mk engine term v hlog => exact .ballot engine term v hlog

theorem Trims.setTermAndVote (commit : Bool) (term : ℕ) (v : String) :
    pl.Trims (pl.setTermAndVote commit term v).1 := by
  cases commit with
  | false => exact .refl pl
  | true => exact .ballot _ _ _ rfl

theorem Trims.append_failed (es : List Entry) : pl.Trims (pl.appendEntries false es).1 := by
  cases es with
  | nil => exact .refl pl
  | cons x es => exact .uncache fun hl => lookup_of_deleteRange hl

/-- A compaction that fails, or is of no use, or has the right term. -/
theorem Trims.compactPrefix {commit : Bool} {term : ℕ}
    (h : commit = true → pl.lastIncludedIndex < i → pl.termAt i = some term) :
    pl.Trims (pl.compactPrefix commit i term).1 := by
  by_cases hle : i ≤ pl.lastIncludedIndex
  · have hsame : pl.compactPrefix commit i term = (pl, true) := if_pos hle
    rw [hsame]
    exact .refl pl
  cases commit with
  | true => exact .compact (h rfl (by omega))
  | false =>
    have hfail : (pl.compactPrefix false i term).1 =
        { pl with tailCache := deleteRange pl.firstIndex (min i pl.lastIndex) pl.tailCache } :=
      congrArg Prod.fst (if_neg hle)
    rw [hfail]
    exact .uncache fun hl => lookup_of_deleteRange hl

/-- Compaction has gone past `next`. -/
structure Passed (pl : PersistentLog) (next : ℕ) : Prop where
  le : next ≤ pl.lastIncludedIndex
  boundary : pl.lastIncludedIndex ≤ pl.lastIndex
  cache : lookup pl.tailCache next = none

theorem Passed.get (h : Passed pl next) : (pl.get next).toOption = none := by
  unfold PersistentLog.get PersistentLog.getLocked
  rw [h.cache, if_pos h.le]
  rfl

theorem Passed.trims (h : Passed pl next) (hx : pl.Trims pl') : Passed pl' next := by
  cases hx with
  | ballot => exact ⟨h.le, h.boundary, h.cache⟩
  | @uncache cache hc =>
    refine ⟨h.le, h.boundary, ?_⟩
    cases hl : lookup cache next with
    | none => rfl
    | some e => exact absurd ((hc hl).symm.trans h.cache) (by simp)
  | @compact i term ht =>
    unfold PersistentLog.compactPrefix
    split
    · exact h
    · next hlt =>
      have hle := h.le
      refine ⟨?_, le_max_right .., ?_⟩
      · show next ≤ i
        omega
      · show lookup (deleteRange _ _ _) next = none
        rw [lookup_deleteRange, h.cache, ite_self]

theorem Passed.snoc (h : Passed pl next) (he : e.index = pl.lastIndex + 1) :
    Passed (pl.appendEntries true [e]).1 next := by
  have hle := h.le
  have hb := h.boundary
  refine ⟨h.le, ?_, ?_⟩
  · show pl.lastIncludedIndex ≤ e.index
    omega
  · cases hl : lookup (pl.appendEntries true [e]).1.tailCache next with
    | none => rfl
    | some x =>
      rcases Holds.lookup_snoc (lookup_evictTailCache hl) with ⟨hidx, -⟩ | hl
      · omega
      · exact absurd (hl.symm.trans h.cache) (by simp)

/-- The entry before `next` is known to have term `prevTerm`, or compaction has gone past
`next`. -/
def Linked (pl : PersistentLog) (next prevTerm : ℕ) : Prop :=
  pl.lastIncludedIndex < next ∧ pl.termAt (next - 1) = some prevTerm ∨ pl.Passed next

/-- The compaction that a leader's log may undergo goes past `next`, or leaves it alone. -/
theorem Tidy.compact_lt (h : Tidy pl) (hlt : pl.lastIncludedIndex < next)
    (ht : pl.termAt i = some term) :
    (pl.compactPrefix true i term).1.Passed next ∨
      (pl.compactPrefix true i term).1.lastIncludedIndex < next ∧
        (pl.compactPrefix true i term).1.termAt (next - 1) = pl.termAt (next - 1) := by
  have htidy := h.compactPrefix true i term
  unfold PersistentLog.compactPrefix at htidy ⊢
  split
  · exact .inr ⟨hlt, rfl⟩
  next hli =>
  rw [if_neg hli] at htidy
  rw [h.termAt, if_neg (by omega)] at ht
  obtain ⟨hin, ht⟩ := Option.ite_none_right_eq_some.mp ht
  rcases le_or_gt next i with hnext | hnext
  · refine .inl ⟨hnext, le_max_right .., ?_⟩
    show lookup (deleteRange _ _ _) next = none
    rw [lookup_deleteRange, h.firstIndex, if_neg (by omega)]
  · refine .inr ⟨hnext, ?_⟩
    rw [htidy.termAt, h.termAt]
    show (if next - 1 = i then some term
      else if i < next - 1 ∧ next - 1 ≤ max pl.lastIndex i then
        (lookup (deleteRange pl.firstIndex (min i pl.lastIndex) pl.engine.log) (next - 1)).map
          Entry.term
      else none) = _
    rcases eq_or_ne (next - 1) i with heq | hne
    · rw [if_pos heq, if_neg (by omega), if_pos (by omega), heq, ht]
    · have hboundary : next - 1 ≠ pl.lastIncludedIndex := by omega
      have hout : next - 1 < pl.firstIndex ∨ min i pl.lastIndex < next - 1 := by omega
      rw [if_neg hne, if_neg hboundary, lookup_deleteRange, if_pos hout]
      congr 1
      rw [eq_iff_iff]
      omega

theorem Tidy.trims_lt (h : Tidy pl) (hx : pl.Trims pl') (hlt : pl.lastIncludedIndex < next) :
    pl'.Passed next ∨ pl'.lastIncludedIndex < next ∧
      ∀ {t}, pl.termAt (next - 1) = some t → pl'.termAt (next - 1) = some t := by
  cases hx with
  | ballot engine term v hlog =>
    refine .inr ⟨hlt, fun ht => ?_⟩
    have htidy : Tidy { pl with engine, currentTerm := term, votedFor := v } :=
      ⟨h.firstIndex, fun hl => hlog ▸ h.cache hl⟩
    rw [h.termAt] at ht
    rw [htidy.termAt]
    dsimp only
    rwa [hlog]
  | uncache hc =>
    refine .inr ⟨hlt, fun ht => ?_⟩
    rw [h.termAt] at ht
    rw [(h.uncache hc).termAt]
    exact ht
  | compact ht =>
    exact (h.compact_lt hlt ht).imp_right fun hc => ⟨hc.1, fun htp => hc.2.trans htp⟩

theorem Linked.trims (h : pl.Linked next prevTerm) (htidy : Tidy pl) (hx : pl.Trims pl') :
    pl'.Linked next prevTerm := by
  rcases h with ⟨hlt, ht⟩ | hp
  · exact (htidy.trims_lt hx hlt).symm.imp (fun h => ⟨h.1, h.2 ht⟩) id
  · exact .inr (hp.trims hx)

theorem Linked.snoc (h : pl.Linked next prevTerm) (htidy : Tidy pl)
    (he : e.index = pl.lastIndex + 1) : (pl.appendEntries true [e]).1.Linked next prevTerm := by
  rcases h with ⟨hlt, ht⟩ | hp
  · refine .inl ⟨hlt, ?_⟩
    rw [htidy.termAt] at ht
    rw [(htidy.appendEntries true [e]).termAt]
    show (if _ = pl.lastIncludedIndex then some pl.lastIncludedTerm
      else if pl.lastIncludedIndex < _ ∧ _ ≤ e.index then _ else none) = _
    split at ht
    · next heq => rw [if_pos heq]; exact ht
    · next hne =>
      obtain ⟨hin, ht⟩ := Option.ite_none_right_eq_some.mp ht
      rw [if_neg hne, if_pos (by omega)]
      show Option.map _ (lookup (insertEntry (deleteRange _ _ _) e) _) = _
      rw [lookup_insertEntry, if_neg (by omega), lookup_deleteRange, if_pos (by omega), ht]
  · exact .inr (hp.snoc he)

/-- What can be read in `pl` reads the same in `pl₀`. -/
structure Within (pl pl₀ : PersistentLog) : Prop where
  boundary : pl₀.lastIncludedIndex ≤ pl.lastIncludedIndex
  engine : ∀ {i e}, lookup pl.engine.log i = some e → lookup pl₀.engine.log i = some e
  cache : ∀ {i e}, lookup pl.tailCache i = some e → lookup pl₀.tailCache i = some e
  termAt : ∀ {i t}, pl.termAt i = some t → pl₀.termAt i = some t

theorem Within.refl (pl : PersistentLog) : pl.Within pl := ⟨le_rfl, id, id, id⟩

theorem Within.trans {pl'' : PersistentLog} (h : pl''.Within pl') (h' : pl'.Within pl) :
    pl''.Within pl :=
  ⟨h'.boundary.trans h.boundary, fun hl => h'.engine (h.engine hl), fun hl => h'.cache (h.cache hl),
    fun ht => h'.termAt (h.termAt ht)⟩

theorem Within.get {pl₀ : PersistentLog} (h : pl.Within pl₀) (htidy : Tidy pl₀)
    (hg : pl.get i = .ok e) : (pl₀.get i).toOption = some e := by
  unfold PersistentLog.get PersistentLog.getLocked at hg
  split at hg
  · next hc =>
    cases hg
    unfold PersistentLog.get
    rw [h.cache hc]
    rfl
  · split at hg
    · cases hg
    · next hlt =>
      split at hg
      · next hl =>
        cases hg
        rw [htidy.get (h.boundary.trans_lt (not_le.mp hlt)), h.engine hl]
      · cases hg

theorem Trims.within (h : pl.Trims pl') (htidy : Tidy pl) : pl'.Within pl := by
  cases h with
  | ballot engine term v hlog =>
    have htidy' : Tidy { pl with engine, currentTerm := term, votedFor := v } :=
      ⟨htidy.firstIndex, fun hl => hlog ▸ htidy.cache hl⟩
    refine ⟨le_rfl, fun hl => hlog ▸ hl, id, fun ht => ?_⟩
    rw [htidy'.termAt] at ht
    rw [htidy.termAt]
    dsimp only at ht
    rwa [hlog] at ht
  | uncache hc =>
    refine ⟨le_rfl, id, hc, fun ht => ?_⟩
    rw [(htidy.uncache hc).termAt] at ht
    rw [htidy.termAt]
    exact ht
  | @compact i term hi =>
    have htidy' := htidy.compactPrefix true i term
    by_cases hle : i ≤ pl.lastIncludedIndex
    · have hsame : pl.compactPrefix true i term = (pl, true) := if_pos hle
      rw [hsame]
      exact .refl pl
    have hfst : (pl.compactPrefix true i term).1 = _ := congrArg Prod.fst (if_neg hle)
    rw [hfst] at htidy' ⊢
    refine ⟨(not_le.mp hle).le, fun hl => lookup_of_deleteRange hl,
      fun hl => lookup_of_deleteRange hl, fun {j t} ht => ?_⟩
    replace ht : (if j = i then some term else if i < j ∧ j ≤ max pl.lastIndex i then
        (lookup (deleteRange pl.firstIndex (min i pl.lastIndex) pl.engine.log) j).map Entry.term
      else none) = some t := (htidy'.termAt j).symm.trans ht
    split at ht
    · next heq => rw [heq, hi, ht]
    · obtain ⟨hin, ht⟩ := Option.ite_none_right_eq_some.mp ht
      have hmax : j ≤ pl.lastIndex := by omega
      have hboundary : j ≠ pl.lastIncludedIndex := by omega
      obtain ⟨x, hx, rfl⟩ := Option.map_eq_some_iff.mp ht
      rw [htidy.termAt, if_neg hboundary, if_pos ⟨by omega, hmax⟩, lookup_of_deleteRange hx]
      rfl

end PersistentLog

open PersistentLog (SameBallot Slice Tidy Trims Within Passed Linked)

theorem PersistentLog.Slice.within {pl pl₀ : PersistentLog} (h : pl.Slice prev prevTerm es)
    (hw : pl.Within pl₀) (htidy : Tidy pl₀) : pl₀.Slice prev prevTerm es := by
  refine ⟨h.1.imp_left hw.termAt, fun k hk => ?_⟩
  have hget := h.2 k hk
  rw [List.getElem?_eq_getElem hk] at hget ⊢
  cases hg : pl.get (prev + 1 + k) with
  | ok e =>
    rw [hg] at hget
    cases hget
    exact hw.get htidy hg
  | error => rw [hg] at hget; cases hget

/-! ## What a step does to a log that is being read -/

/-- What `SetTermAndVote` keeps, `HandleRequestVote` keeps. -/
theorem Node.handleRequestVoteLocked_keeps {J : PersistentLog → Prop} (o : StorageOutcome)
    (req : RequestVoteRequest)
    (hset : ∀ {pl commit term v}, J pl → J (pl.setTermAndVote commit term v).1) (h : J n.log) :
    J (n.handleRequestVoteLocked o req).1.log := by
  have hdown : J (n.stepDownWith o.commit req.term).log := by
    rw [Task.stepDownWith_log]
    exact hset h
  unfold Node.handleRequestVoteLocked
  split
  · exact h
  · dsimp only
    split <;> split
    exacts [hset hdown, hdown, hset h, h]

theorem Task.log_tidy (me : Member) (o : StorageOutcome) (t : Task) (h : Tidy n.log) :
    Tidy (t.log me o n) := by
  cases t with
  | candidateTerm | followerTerm | installTerm => exact h.setTermAndVote ..
  | handleRequestVote req =>
    exact Node.handleRequestVoteLocked_keeps o req (fun h => h.setTermAndVote ..) h
  | handleAppendEntries =>
    dsimp only [Task.log]
    split
    · exact h.setTermAndVote ..
    · exact h
  | appendEntries | appendRequest => exact h.appendEntries ..
  | propose =>
    dsimp only [Task.log]
    split
    · exact h
    · exact h.appendEntries ..
  | installBoundary => exact h.restoreSnapshotBoundary ..
  | snapCompact => exact h.compactPrefix ..
  | _ => exact h

/-- The step writes the log other than at its end, or compacts it with a term that the log does not
have there. -/
def Task.rewrites (n : Node) (o : StorageOutcome) : Task → Bool
  | .appendRequest req => o.commit && req.entries ≠ []
  | .installBoundary _ => o.commit
  | .snapCompact applied _ term =>
    o.commit && n.log.lastIncludedIndex < applied && n.log.termAt applied ≠ some term
  | t => t.raced n o

/-- A step that does not rewrite the log appends an entry at its end, or trims it. -/
theorem Task.log_trims (me : Member) (h : ∀ {es}, t = .appendEntries es → ∃ e, es = [e])
    (hr : t.rewrites n o = false) :
    match t.appends n o with
    | some e => e.index = n.log.lastIndex + 1 ∧ t.log me o n = (n.log.appendEntries true [e]).1
    | none => n.log.Trims (t.log me o n) := by
  have hallocates (ha : t.Allocates) (hr : t.raced n o = false) :
      match t.appends n o with
      | some e => e.index = n.log.lastIndex + 1 ∧ t.log me o n = (n.log.appendEntries true [e]).1
      | none => n.log.Trims (t.log me o n) := by
    have hlog := ha.log me hr
    generalize t.appends n o = x at hlog ⊢
    cases x with
    | some e => exact hlog
    | none =>
      obtain ⟨es, hlog⟩ := hlog
      rw [hlog]
      exact .append_failed es
  cases t with
  | candidateTerm | followerTerm | installTerm => exact .setTermAndVote ..
  | handleRequestVote req =>
    exact Node.handleRequestVoteLocked_keeps (J := n.log.SameEntries) o req
      (fun h => h.setTermAndVote ..) (.refl _) |>.trims
  | handleAppendEntries =>
    dsimp only [Task.log, Task.appends]
    split
    · exact .setTermAndVote ..
    · exact .refl _
  | appendEntries => exact hallocates (h rfl) hr
  | propose => exact hallocates trivial hr
  | appendRequest req =>
    show n.log.Trims (n.log.appendEntries o.commit req.entries).1
    cases hc : o.commit with
    | false => exact .append_failed _
    | true =>
      have hnil : req.entries = [] := by simpa [Task.rewrites, hc] using hr
      rw [hnil]
      exact .refl _
  | installBoundary req =>
    have hc : o.commit = false := hr
    show n.log.Trims (n.log.restoreSnapshotBoundary o.commit _ _).1
    rw [hc]
    exact .uncache fun hl => by cases hl
  | snapCompact applied commit term =>
    refine .compactPrefix fun hc hlt => ?_
    simpa [Task.rewrites, hc, hlt] using hr
  | _ => exact .refl _

theorem Task.appends_ballot (me : Member) (h : t.appends n o = some e) :
    (t.effect me o n).role = n.role ∧ (t.effect me o n).log.currentTerm = n.log.currentTerm := by
  rw [Task.effect_log]
  cases t with
  | appendEntries es => exact ⟨rfl, (SameBallot.appendEntries ..).currentTerm⟩
  | propose type key value clientRequestID =>
    obtain ⟨⟨hrole, hc⟩, -⟩ := Option.ite_none_right_eq_some.mp h
    refine ⟨?_, ?_⟩
    · simp [Task.effect, hrole, Node.proposeLocked, hc]
    · simp only [Task.log, hrole, ne_eq, not_true_eq_false, if_false]
      exact (SameBallot.appendEntries ..).currentTerm
  | _ => cases h

/-! ## Requests -/

/-- The node is leader of `term`. -/
def Node.Leads (n : Node) (term : ℕ) : Prop := n.role = .leader ∧ n.log.currentTerm = term

instance : Decidable (n.Leads term) := inferInstanceAs (Decidable (_ ∧ _))

/-- The term of a `replicateToPeer` that is reading the log. -/
def Task.readingTerm? : Task → Option ℕ
  | .replFirst term _ | .replPrev term _ | .replLast term _ _ | .replRange term _ _ _ => some term
  | _ => none

/-- While `replicateToPeer` reads the log in `term`, nobody rewrites it, and nobody but the leader
of `term` appends to it. -/
def Unshaken (s : Process) (us : List Task) (t : Task) (o : StorageOutcome) : Prop :=
  ∀ u ∈ us, ∀ term ∈ u.readingTerm?, t.rewrites s.node o = false ∧
    ((t.appends s.node o).isSome → s.node.Leads term)

instance : Decidable (Unshaken s us t o) :=
  inferInstanceAs (Decidable (∀ u ∈ us, ∀ term ∈ u.readingTerm?, _))

/-- `prev` and `es` were a slice of the log at some time when the node led `term`. -/
def Held (tr : NodeTrace) (term prev prevTerm : ℕ) (es : List Entry) : Prop :=
  ∃ x ∈ tr, x.1.state.node.Leads term ∧ x.1.state.node.log.Slice prev prevTerm es

theorem Held.mono (h : Held tr term prev prevTerm es) (tr' : NodeTrace) :
    Held (tr ++ tr') term prev prevTerm es := by
  obtain ⟨x, hx, h⟩ := h
  exact ⟨x, List.mem_append_left _ hx, h⟩

/-- The node leads `term`, or it did and has only trimmed its log since. -/
def Source (tr : NodeTrace) (n : Node) (term : ℕ) : Prop :=
  n.Leads term ∨ ∃ x ∈ tr, x.1.state.node.Leads term ∧ Tidy x.1.state.node.log ∧
    n.log.Within x.1.state.node.log

/-- What is read now was held by the leader. -/
theorem Source.held {p : NodePool} (h : Source tr p.state.node term) (a : NodeTurn)
    (hs : p.state.node.log.Slice prev prevTerm es) :
    Held (tr ++ [(p, a)]) term prev prevTerm es := by
  rcases h with hl | ⟨x, hx, hl, htidy, hw⟩
  · exact ⟨(p, a), by simp, hl, hs⟩
  · exact ⟨x, by simp [hx], hl, hs.within hw htidy⟩

/-- What `replicateToPeer` relies on, besides the log it reads. -/
def Task.Sends (tr : NodeTrace) (n : Node) : Task → Prop
  | .replPrev _ next => 0 < next ∧ (n.log.lastIncludedIndex < next ∨ n.log.Passed next)
  | .replLast term next prevTerm =>
    0 < next ∧ n.log.Linked next prevTerm ∧ Held tr term (next - 1) prevTerm []
  | .replRange _ next prevTerm stop => 0 < next ∧ n.log.Linked next prevTerm ∧ next ≤ stop
  | .replSend term next prevTerm es => Held tr term (next - 1) prevTerm es
  | .appendEntries es => ∃ e, es = [e]
  | _ => True

theorem Task.Sends.of_other (h : t.readingTerm? = none) (hs : t.Sends tr n) (n' : Node)
    (tr' : NodeTrace) : t.Sends (tr ++ tr') n' := by
  cases t with
  | replPrev | replLast | replRange => cases h
  | replSend => exact Held.mono hs tr'
  | appendEntries => exact hs
  | _ => trivial

/-- An append by the leader, or a trim, leaves what a reading call relies on. -/
theorem Task.Sends.keeps {n' : Node} (h : t.Sends tr n) (htidy : Tidy n.log)
    (hlog : n.log.Trims n'.log ∨ ∃ e, e.index = n.log.lastIndex + 1 ∧
      n'.log = (n.log.appendEntries true [e]).1) (tr' : NodeTrace) : t.Sends (tr ++ tr') n' := by
  have hlinked {next prevTerm : ℕ} (h : n.log.Linked next prevTerm) :
      n'.log.Linked next prevTerm := by
    rcases hlog with hlog | ⟨e, he, hlog⟩
    · exact h.trims htidy hlog
    · rw [hlog]; exact h.snoc htidy he
  cases t with
  | replPrev term next =>
    refine ⟨h.1, ?_⟩
    rcases hlog with hlog | ⟨e, he, hlog⟩
    · rcases h.2 with hlt | hp
      · exact (htidy.trims_lt hlog hlt).symm.imp_left And.left
      · exact .inr (hp.trims hlog)
    · rw [hlog]
      exact h.2.imp_right fun hp => hp.snoc he
  | replLast => exact ⟨h.1, hlinked h.2.1, h.2.2.mono tr'⟩
  | replRange => exact ⟨h.1, hlinked h.2.1, h.2.2⟩
  | replSend => exact Held.mono h tr'
  | appendEntries => exact h
  | _ => trivial

theorem Task.Sends.of_inCall (hl : t.inCall ≠ .leader) (hr : t.inCall ≠ .replicate) :
    t.Sends tr n := by
  cases t with
  | replPrev | replLast | replRange | replSend => exact (hr rfl).elim
  | appendEntries => exact (hl rfl).elim
  | _ => trivial

theorem Task.inCall_of_reading (h : t.readingTerm? = some term) : t.inCall = .replicate := by
  cases t with
  | replFirst | replPrev | replLast | replRange => rfl
  | _ => cases h

/-- Where `replicateToPeer` gets after a step. -/
theorem Task.Sends.next {p : NodePool} (a : NodeTurn) (h : t.Sends tr p.state.node)
    (htidy : Tidy p.state.node.log)
    (hsource : ∀ {term}, t.readingTerm? = some term → Source tr p.state.node term)
    (ht : t.next me o p.state.node = .inl t') :
    t'.Sends (tr ++ [(p, a)]) (t.effect me o p.state.node) := by
  set n := p.state.node with hn
  cases t with
  | replFirst term next =>
    dsimp only [Task.next] at ht
    split at ht <;> cases ht
    · trivial
    · next hge =>
      rw [htidy.firstIndex] at hge
      exact ⟨by omega, .inl (by show n.log.lastIncludedIndex < next; omega)⟩
  | replPrev term next =>
    obtain ⟨hpos, hahead⟩ := h
    dsimp only [Task.next] at ht
    split at ht <;> cases ht
    · trivial
    next hsome =>
    have hread := htidy.termAt (next - 1)
    rcases hahead with hlt | hp
    · -- the entry before `next` is there
      cases hterm : n.log.termAt (next - 1) with
      | none =>
        rw [hterm] at hsome hread
        have hzero : next - 1 = 0 := by simpa using hsome
        rw [if_pos (by omega)] at hread
        cases hread
      | some prevTerm =>
        exact ⟨hpos, .inl ⟨hlt, hterm⟩, (hsource rfl).held a ⟨.inl hterm, by simp⟩⟩
    · -- compaction is past it, which does not matter if there is none
      have hle := hp.le
      rw [if_neg (by omega), if_neg (by omega)] at hread
      rw [hread] at hsome ⊢
      have hzero : next - 1 = 0 := by simpa using hsome
      exact ⟨hpos, .inr hp, (hsource rfl).held a ⟨.inr ⟨hzero, rfl⟩, by simp⟩⟩
  | replLast term next prevTerm =>
    obtain ⟨hpos, hlinked, hheld⟩ := h
    dsimp only [Task.next] at ht
    split at ht <;> cases ht
    · next hle =>
      refine ⟨hpos, hlinked, ?_⟩
      unfold Node.batchEnd
      dsimp only
      split <;> omega
    · exact hheld.mono _
  | replRange term next prevTerm stop =>
    obtain ⟨hpos, hlinked, hle⟩ := h
    dsimp only [Task.next] at ht
    split at ht <;> cases ht
    · trivial
    next es hrange =>
    have hget := PersistentLog.range_get hrange
    obtain ⟨e, he⟩ := PersistentLog.range_first hrange hle
    have hlink := hlinked.resolve_right fun hp => by
      have hnone := hp.get
      rw [he] at hnone
      cases hnone
    refine (hsource rfl).held a ⟨.inl hlink.2, fun k hk => ?_⟩
    rw [List.getElem?_eq_getElem hk, show next - 1 + 1 + k = next + k by omega,
      hget k _ (List.getElem?_eq_getElem hk)]
    rfl
  | becomeLeader =>
    dsimp only [Task.next] at ht
    split at ht <;> cases ht
    trivial
  | appendLocal => cases ht; trivial
  | appendLocalIndex => cases ht; exact ⟨_, rfl⟩
  | appendEntries => cases ht
  | replicateToPeer =>
    dsimp only [Task.next] at ht
    split at ht <;> cases ht
    trivial
  | replSend => cases ht
  | sendInstallSnapshot =>
    dsimp only [Task.next] at ht
    split at ht <;> cases ht
  | _ =>
    -- the other calls do not come here
    have hcall := Task.next_inCall ht
    exact .of_inCall (fun hl => by cases hcall.symm.trans hl)
      fun hr => by cases hcall.symm.trans hr

/-- A call that reads the log has begun on the leader. -/
theorem Task.reading_next (ht : t.next me o n = .inl t') (hread : t'.readingTerm? = some term) :
    t.effect me o n = n ∧ (t.readingTerm? = some term ∨ n.Leads term) := by
  cases t with
  | replicateToPeer peerID =>
    dsimp only [Task.next] at ht
    split at ht <;> cases ht
    next hlead =>
    cases hread
    rw [not_or, not_not, not_not] at hlead
    exact ⟨rfl, .inr hlead⟩
  | replFirst | replPrev | replLast =>
    dsimp only [Task.next] at ht
    split at ht <;> cases ht <;> cases hread
    exact ⟨rfl, .inl rfl⟩
  | replRange =>
    dsimp only [Task.next] at ht
    split at ht <;> cases ht <;> cases hread
  | replSend => cases ht
  | sendInstallSnapshot =>
    dsimp only [Task.next] at ht
    split at ht <;> cases ht
  | _ =>
    have hcall := Task.next_inCall ht
    cases hcall.symm.trans (Task.inCall_of_reading hread)

def sending : Outline Process Task StorageOutcome Options where
  shared _ p := Tidy p.state.node.log
  here tr s t := t.Sends tr s.node ∧ ∀ {term}, t.readingTerm? = some term → Source tr s.node term
  apart _ _ := True

theorem Source.keeps {p : NodePool} {n' : Node} (h : Source tr p.state.node term) (a : NodeTurn)
    (htidy : Tidy p.state.node.log)
    (hn' : p.state.node.log.Trims n'.log ∨ n'.Leads term) : Source (tr ++ [(p, a)]) n' term := by
  rcases hn' with hlog | hl
  · rcases h with hl | ⟨x, hx, hl, htidy', hw⟩
    · exact .inr ⟨(p, a), by simp, hl, htidy, hlog.within htidy⟩
    · exact .inr ⟨x, by simp [hx], hl, htidy', (hlog.within htidy).trans hw⟩
  · exact .inl hl

theorem sending_valid : sending.Valid threads (OnStep Unshaken) where
  symm _ := trivial
  call := by
    intro tr p t h hok
    refine ⟨h.shared, ⟨?_, fun ht => ?_⟩, fun u hu => ⟨⟨?_, fun hu' => ?_⟩, trivial⟩⟩
    · cases t with
      | replPrev | replLast | replRange | replSend | appendEntries => cases hok
      | _ => trivial
    · cases t with
      | replFirst | replPrev | replLast | replRange => cases hok
      | _ => cases ht
    · exact (h.here u hu).1.keeps h.shared (.inl (.refl _)) _
    · exact ((h.here u hu).2 hu').keeps _ h.shared (.inl (.refl _))
  run := by
    intro tr p t o s l₁ l₂ x h hok ht hex
    cases hex
    have htidy : Tidy p.state.node.log := h.shared
    have hself := h.self ht
    refine ⟨?_, fun u hu => ?_, fun t' ht' => ⟨⟨?_, fun hterm => ?_⟩, fun _ _ => trivial⟩⟩
    · show Tidy (t.effect p.state.me o p.state.node).log
      rw [Task.effect_log]
      exact t.log_tidy _ _ htidy
    · obtain ⟨hsends, hsource⟩ := h.other ht hu
      cases hread : u.readingTerm? with
      | none => exact ⟨hsends.of_other hread _ _, fun hu' => by rw [hread] at hu'; cases hu'⟩
      | some term =>
        obtain ⟨hrw, happend⟩ := hok.of_run ht u hu term hread
        have htrims := Task.log_trims p.state.me (fun heq => by
          have := hself.1
          rw [heq] at this
          exact this) hrw
        rw [← Task.effect_log] at htrims
        cases ha : t.appends p.state.node o with
        | none =>
          rw [ha] at htrims
          refine ⟨hsends.keeps htidy (.inl htrims) _, fun hu' => ?_⟩
          exact (hsource hu').keeps _ htidy (.inl htrims)
        | some e =>
          rw [ha] at htrims
          refine ⟨hsends.keeps htidy (.inr ⟨e, htrims⟩) _, fun hu' => ?_⟩
          obtain ⟨hrole, hterm⟩ := Task.appends_ballot p.state.me ha
          have hl := happend (by simp [ha])
          rw [hread] at hu'
          cases hu'
          exact .inl ⟨hrole.trans hl.1, hterm.trans hl.2⟩
    · exact hself.1.next _ htidy hself.2 ht'
    · obtain ⟨hsame, hfrom⟩ := Task.reading_next ht' hterm
      have hsource : Source tr p.state.node _ := hfrom.elim hself.2 .inl
      exact hsource.keeps _ htidy (.inl (hsame.symm ▸ .refl _))
  crash := by
    intro tr p x s h hok hs
    obtain ⟨-, rfl⟩ := recover_eq hs
    exact .reopen _

/-- The `AppendEntries` request that is handed to the transport in a turn. -/
def sentRequest (x : NodePool × NodeTurn) : Option AppendEntriesRequest :=
  (stepOf x).bind fun st =>
    match st.1.next x.1.state.me st.2 x.1.state.node with
    | .inr (.sent (.appendEntries req)) => some req
    | _ => none

theorem sentRequest_inv (h : sentRequest x = some req) : ∃ next,
    .replSend req.term next req.prevLogTerm req.entries ∈ x.1.tasks ∧
      req.prevLogIndex = next - 1 := by
  obtain ⟨⟨t, o⟩, hstep, h⟩ := Option.bind_eq_some_iff.mp h
  have hmem := mem_of_stepOf hstep
  dsimp only at h
  split at h <;> cases h
  next hnext =>
  cases t with
  | replSend => cases hnext; exact ⟨_, hmem, rfl⟩
  | sendInstallSnapshot =>
    dsimp only [Task.next, Node.sendInstallSnapshot] at hnext
    cases hsnap : x.1.state.node.snapStore with
    | none => rw [hsnap] at hnext; cases hnext
    | some snap => rw [hsnap] at hnext; cases hnext
  | _ =>
    dsimp only [Task.next] at hnext
    (repeat' split at hnext) <;> cases hnext

/-- **An `AppendEntries` request is a slice of its leader's log**, in interleavings in which the log
is not rewritten, nor appended to by anyone but the leader of its term, while it is being read. -/
theorem sent_slice (htidy : n.log.Tidy) (h : Runs threads (OnStep Unshaken) ⟨me, n⟩ tr p)
    (hx : x ∈ tr) (hsent : sentRequest x = some req) :
    ∃ y ∈ tr, y.1.state.node.Leads req.term ∧
      y.1.state.node.log.Slice req.prevLogIndex req.prevLogTerm req.entries := by
  obtain ⟨tr', hrun, -, hpre⟩ := h.of_mem hx
  obtain ⟨next, hmem, hprev⟩ := sentRequest_inv hsent
  have h₀ : sending.shared [] ⟨⟨me, n⟩, []⟩ := htidy
  have hheld : Held tr' req.term (next - 1) req.prevLogTerm req.entries :=
    ((sending_valid.holds h₀ hrun).here _ hmem).1
  obtain ⟨y, hy, hl, hs⟩ := hheld
  exact ⟨y, hpre.subset hy, hl, hprev ▸ hs⟩

/-- The leader of term 1 has appended its no-op and a proposal, and has replicated the no-op to
`n2`. It has read the term of the no-op to replicate the proposal. -/
def replicating : List NodeTurn :=
  (.call .becomeLeader :: stepsOf 0 4 : List NodeTurn) ++
    (.call (.propose .put "k" [1] "") :: stepsOf 0 1 : List NodeTurn) ++
    (.call (.replicated "n2" ⟨1, "n1", 0, 0, [⟨1, 1, .noop, "", [], ""⟩], 0, ""⟩
      { term := 1, success := true }) :: stepsOf 0 1 : List NodeTurn) ++
    (.call (.replicateToPeer "n2" 1) :: stepsOf 0 3 : List NodeTurn)

/-- The leader votes in term 2 and then sends the proposal. -/
theorem sent_slice_deposed : ∃ tr p x req,
    Runs threads (OnStep Unshaken) (candidate 0) tr p ∧ x ∈ tr ∧ sentRequest x = some req ∧
    req.term = 1 ∧ req.prevLogIndex = 1 ∧ req.entries.map Entry.type = [.put] ∧
    x.1.state.node.log.currentTerm = 2 ∧
    ∃ y ∈ tr, y.1.state.node.Leads req.term ∧
      y.1.state.node.log.Slice req.prevLogIndex req.prevLogTerm req.entries := by
  have hx : Reaches threads (OnStep Unshaken) (candidate 0)
      (replicating ++
        (.call (.handleRequestVote ⟨2, "n3", 2, 1⟩) :: .run 1 {} :: stepsOf 0 3 : List NodeTurn))
      fun tr _ => ∃ x ∈ tr, ∃ req ∈ sentRequest x, req.term = 1 ∧ req.prevLogIndex = 1 ∧
        req.entries.map Entry.type = [.put] ∧ x.1.state.node.log.currentTerm = 2 := by
    decide +kernel
  obtain ⟨tr, p, h, x, hx, req, hreq, hterm, hprev, hes, hcur⟩ := hx.runs
  exact ⟨tr, p, x, req, h, hx, hreq, hterm, hprev, hes, hcur,
    sent_slice (Tidy.reopen _) h hx hreq⟩

/-- The leader of term 2 replaces both entries, and the deposed leader sends the second one after
the first one of its own. -/
theorem sent_slice_fails : ∃ tr p, Runs threads (OnStep anyStep) (candidate 0) tr p ∧
    ∃ x ∈ tr, ∃ req ∈ sentRequest x, req.term = 1 ∧ req.entries ≠ [] ∧
      ∀ y ∈ tr, y.1.state.node.Leads req.term →
        ¬y.1.state.node.log.Slice req.prevLogIndex req.prevLogTerm req.entries := by
  have hx : Reaches threads (OnStep anyStep) (candidate 0)
      (replicating ++ (.call (.handleAppendEntries ⟨2, "n3", 0, 0,
        [⟨1, 2, .noop, "", [], ""⟩, ⟨2, 2, .put, "k", [2], ""⟩], 0, ""⟩) :: stepsOf 1 4 :
          List NodeTurn) ++ stepsOf 0 3)
      fun tr _ => ∃ x ∈ tr, ∃ req ∈ sentRequest x, req.term = 1 ∧ req.entries ≠ [] ∧
        ∀ y ∈ tr, y.1.state.node.Leads req.term →
          ¬y.1.state.node.log.Slice req.prevLogIndex req.prevLogTerm req.entries := by
    decide +kernel
  exact hx.runs

end DistributedKV.Raft
