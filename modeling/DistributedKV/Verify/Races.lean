import DistributedKV.Verify.Threads

/-!
# Races between the calls of a node

Three properties that the calls of one node have if certain steps do not come between certain
others, and lose otherwise: the term and the vote (`ballot_steady`), the indices of the entries a
leader appends (`allocated_once`), and the term in which a request changes the log
(`request_in_term`).
-/

namespace DistributedKV.Raft

open Theory

variable {me : Member} {n : Node} {o : StorageOutcome} {t : Task}

/-! ## The term and the vote -/

namespace PersistentLog

variable {pl pl' pl'' : PersistentLog}

/-- The persisted term has not fallen, and a vote cast in it stands. -/
structure Steady (pl pl' : PersistentLog) : Prop where
  term_le : pl.engine.currentTerm ≤ pl'.engine.currentTerm
  vote : pl'.engine.currentTerm = pl.engine.currentTerm → pl.engine.votedFor ≠ "" →
    pl'.engine.votedFor = pl.engine.votedFor

theorem Steady.refl (pl : PersistentLog) : pl.Steady pl := ⟨le_rfl, fun _ _ => rfl⟩

theorem Steady.trans (h : pl.Steady pl') (h' : pl'.Steady pl'') : pl.Steady pl'' := by
  refine ⟨h.term_le.trans h'.term_le, fun heq hv => ?_⟩
  have hle := h.term_le
  have hle' := h'.term_le
  have hvote := h.vote (by omega) hv
  rw [h'.vote (by omega) (by rwa [hvote]), hvote]

theorem Steady.of_sameBallot (hd : pl.Durable) (h : pl.SameBallot pl') : pl.Steady pl' := by
  obtain ⟨ht', hv'⟩ := h.durable hd
  refine ⟨?_, fun _ _ => ?_⟩
  · rw [ht', h.currentTerm, hd.1]
  · rw [hv', h.votedFor, hd.2]

/-- A vote for `v` in `term`, if that is no lower term and no other vote. -/
theorem Steady.setTermAndVote (hd : pl.Durable) (commit : Bool) (ht : pl.currentTerm ≤ term)
    (hv : pl.currentTerm = term → pl.votedFor = "" ∨ pl.votedFor = v) :
    pl.Steady (pl.setTermAndVote commit term v).1 := by
  cases commit with
  | false => exact .refl pl
  | true =>
    refine ⟨hd.1.trans_le ht, fun heq hne => ?_⟩
    rw [hd.2] at hne ⊢
    exact ((hv (hd.1.symm.trans heq.symm)).resolve_left hne).symm

theorem Durable.setTermAndVote (hd : pl.Durable) (commit : Bool) :
    (pl.setTermAndVote commit term v).1.Durable := by
  cases commit with
  | false => exact hd
  | true => exact ⟨rfl, rfl⟩

end PersistentLog

open PersistentLog (Steady Durable SameBallot)

theorem Node.handleRequestVoteLocked_steady (hd : n.log.Durable) (req : RequestVoteRequest) :
    n.log.Steady (n.handleRequestVoteLocked o req).1.log ∧
      (n.handleRequestVoteLocked o req).1.log.Durable := by
  unfold Node.handleRequestVoteLocked
  split
  · exact ⟨.refl _, hd⟩
  next hge =>
  -- the node after the step down, if there is one
  set m : Node := if n.log.currentTerm < req.term then
      { n.stepDownWith o.commit req.term with leaderID := "", leaderClientAddr := "" }
    else n with hm
  have hlog : m.log = if n.log.currentTerm < req.term then
      (n.log.setTermAndVote o.commit req.term "").1 else n.log := by
    rw [hm]
    split
    · exact Task.stepDownWith_log ..
    · rfl
  have hmeet : n.log.Steady m.log ∧ m.log.Durable ∧ m.log.currentTerm ≤ req.term := by
    rw [hlog]
    split
    · next hlt =>
      refine ⟨.setTermAndVote hd _ hlt.le fun heq => absurd heq hlt.ne, hd.setTermAndVote _, ?_⟩
      cases o.commit
      · exact hlt.le
      · exact le_rfl
    · exact ⟨.refl _, hd, not_lt.mp hge⟩
  obtain ⟨hs, hd', hle⟩ := hmeet
  dsimp only
  split
  · next hgrant =>
    exact ⟨hs.trans (.setTermAndVote hd' _ hle fun _ => hgrant.1), hd'.setTermAndVote _⟩
  · exact ⟨hs, hd'⟩

/-- The term that a `SetTermAndVote` outside of `n.mu` is about to write. -/
def Task.unlockedTerm? : Task → Option ℕ
  | .candidateTerm newTerm => some newTerm
  | .followerTerm term => some term
  | .installTerm req => some req.term
  | _ => none

/-- What was read before a `SetTermAndVote` outside of `n.mu` still holds: its term is new. -/
def FreshTerm (s : Process) (_ : List Task) (t : Task) (_ : StorageOutcome) : Prop :=
  ∀ term ∈ t.unlockedTerm?, s.node.log.currentTerm < term

instance : Decidable (FreshTerm s us t o) := inferInstanceAs (Decidable (∀ term ∈ _, _))

/-- One step. -/
theorem Task.log_steady (hd : n.log.Durable)
    (hfresh : ∀ term ∈ t.unlockedTerm?, n.log.currentTerm < term) :
    n.log.Steady (t.log me o n) ∧ (t.log me o n).Durable := by
  have hset {term : ℕ} {v : String} (hlt : n.log.currentTerm < term) :
      n.log.Steady (n.log.setTermAndVote o.commit term v).1 ∧
        (n.log.setTermAndVote o.commit term v).1.Durable :=
    ⟨.setTermAndVote hd _ hlt.le fun heq => absurd heq hlt.ne, hd.setTermAndVote _⟩
  have hsame {pl : PersistentLog} (h : n.log.SameBallot pl) : n.log.Steady pl ∧ pl.Durable :=
    ⟨.of_sameBallot hd h, h.durable hd⟩
  cases t with
  | candidateTerm | followerTerm | installTerm => exact hset (hfresh _ rfl)
  | handleRequestVote req => exact Node.handleRequestVoteLocked_steady hd req
  | handleAppendEntries req =>
    dsimp only [Task.log]
    split
    · next hlt => exact hset hlt
    · exact ⟨.refl _, hd⟩
  | appendEntries | appendRequest => exact hsame (.appendEntries ..)
  | propose =>
    dsimp only [Task.log]
    split
    · exact ⟨.refl _, hd⟩
    · exact hsame (.appendEntries ..)
  | installBoundary => exact hsame (.restoreSnapshotBoundary ..)
  | snapCompact => exact hsame (.compactPrefix ..)
  | _ => exact ⟨.refl _, hd⟩

theorem Pool.Steps.steady {p p' : NodePool} (hd : p.state.node.log.Durable)
    (hok : OnStep FreshTerm p a) (hs : p.Steps threads a p') :
    p.state.node.log.Steady p'.state.node.log ∧ p'.state.node.log.Durable := by
  cases hs with
  | call => exact ⟨.refl _, hd⟩
  | run ht hex =>
    cases hex
    dsimp only [threads]
    rw [Task.effect_log]
    exact Task.log_steady hd (hok.of_run ht)
  | crash hs =>
    obtain ⟨-, rfl⟩ := recover_eq hs
    exact ⟨.of_sameBallot hd (.reopen hd), ⟨rfl, rfl⟩⟩

/-- **The term and the vote of a node**, in interleavings in which no `SetTermAndVote` outside of
`n.mu` writes a term that another call has reached in the meantime. -/
theorem ballot_steady (hd : n.log.Durable) (h : Runs threads (OnStep FreshTerm) ⟨me, n⟩ tr p) :
    ∀ x ∈ tr, x.1.state.node.log.Steady p.state.node.log := by
  have hdur {tr p} (h : Runs threads (OnStep FreshTerm) ⟨me, n⟩ tr p) :
      p.state.node.log.Durable := by
    induction h with
    | init => exact hd
    | step _ hok hs ih => exact (Pool.Steps.steady ih hok (Pool.step_inv hs)).2
  exact h.related (r := fun s s' => s.node.log.Steady s'.node.log) Steady.trans
    fun hrun hok hs => (Pool.Steps.steady (hdur hrun) hok hs).1

/-- The node stands in term 1 and votes for `n2` in term 2. -/
theorem ballot_steady_stands : ∃ tr p,
    Runs threads (OnStep FreshTerm) (newProcess 0) tr p ∧
    p.state.node.log.engine.currentTerm = 2 ∧ p.state.node.log.engine.votedFor = "n2" ∧
    (∃ x ∈ tr, x.1.state.node.log.engine.votedFor = "n1") ∧
    ∀ x ∈ tr, x.1.state.node.log.Steady p.state.node.log := by
  have hx : Reaches threads (OnStep FreshTerm) (newProcess 0)
      ((.call .becomeCandidate :: stepsOf 0 3 : List NodeTurn) ++
        (.call (.handleRequestVote ⟨2, "n2", 0, 0⟩) :: stepsOf 0 1 : List NodeTurn))
      fun tr p => p.state.node.log.engine.currentTerm = 2 ∧
        p.state.node.log.engine.votedFor = "n2" ∧
        ∃ x ∈ tr, x.1.state.node.log.engine.votedFor = "n1" := by decide +kernel
  obtain ⟨tr, p, h, hterm, hvote, hself⟩ := hx.runs
  exact ⟨tr, p, h, hterm, hvote, hself, ballot_steady ⟨rfl, rfl⟩ h⟩

/-- Between the `CurrentTerm` of `becomeCandidate` and its `SetTermAndVote`, a request for a vote
in term 1 is granted, or one of term 5 arrives. -/
theorem ballot_steady_fails :
    (∃ tr p, Runs threads (OnStep anyStep) (newProcess 0) tr p ∧
      ∃ x ∈ tr, x.1.state.node.log.engine.currentTerm = 1 ∧
        x.1.state.node.log.engine.votedFor = "n2" ∧
        p.state.node.log.engine.currentTerm = 1 ∧ p.state.node.log.engine.votedFor = "n1") ∧
    ∃ tr p, Runs threads (OnStep anyStep) (newProcess 0) tr p ∧
      ∃ x ∈ tr, p.state.node.log.engine.currentTerm < x.1.state.node.log.engine.currentTerm := by
  have hvote : Reaches threads (OnStep anyStep) (newProcess 0)
      [.call .becomeCandidate, .run 0 {}, .call (.handleRequestVote ⟨1, "n2", 0, 0⟩), .run 1 {},
        .run 0 {}]
      fun tr p => ∃ x ∈ tr, x.1.state.node.log.engine.currentTerm = 1 ∧
        x.1.state.node.log.engine.votedFor = "n2" ∧
        p.state.node.log.engine.currentTerm = 1 ∧
        p.state.node.log.engine.votedFor = "n1" := by decide +kernel
  have hterm : Reaches threads (OnStep anyStep) (newProcess 0)
      [.call .becomeCandidate, .run 0 {}, .call (.handleRequestVote ⟨5, "n2", 0, 0⟩), .run 1 {},
        .run 0 {}]
      fun tr p => ∃ x ∈ tr,
        p.state.node.log.engine.currentTerm < x.1.state.node.log.engine.currentTerm := by
    decide +kernel
  exact ⟨hvote.runs, hterm.runs⟩

/-! ## Index allocation -/

/-- `e` is in the log. -/
structure PersistentLog.Present (pl : PersistentLog) (e : Entry) : Prop extends pl.Holds e where
  lt : pl.lastIncludedIndex < e.index
  stored : (lookup pl.engine.log e.index).isSome

namespace PersistentLog.Present

variable {pl : PersistentLog} {e x : Entry}

theorem get_ok (h : Present pl e) : pl.get e.index = .ok e := by
  obtain ⟨y, hy⟩ := Option.isSome_iff_exists.mp h.stored
  cases hg : pl.get e.index with
  | ok z => rw [h.get hg]
  | error =>
    unfold PersistentLog.get PersistentLog.getLocked at hg
    rw [hy, if_neg (not_le.mpr h.lt)] at hg
    split at hg <;> cases hg

theorem snoc (h : Present pl e) (hx : x.index = pl.lastIndex + 1) :
    Present (pl.appendEntries true [x]).1 e := by
  refine ⟨h.toHolds.snoc hx, h.lt, ?_⟩
  have hle := h.le
  show (lookup (insertEntry (deleteRange x.index pl.lastIndex pl.engine.log) x) e.index).isSome
  rw [lookup_insertEntry, if_neg (by omega), lookup_deleteRange, if_pos (by omega)]
  exact h.stored

theorem self (hle : pl.lastIncludedIndex ≤ pl.lastIndex) (he : e.index = pl.lastIndex + 1) :
    Present (pl.appendEntries true [e]).1 e := by
  refine ⟨.self pl e, ?_, ?_⟩
  · show pl.lastIncludedIndex < e.index
    omega
  · show (lookup (insertEntry _ e) e.index).isSome
    rw [lookup_insertEntry, if_pos rfl]
    rfl

theorem append_failed (h : Present pl e) (es : List Entry) :
    Present (pl.appendEntries false es).1 e := by
  refine ⟨h.toHolds.append_failed es, ?_, ?_⟩ <;> cases es
  exacts [h.lt, h.lt, h.stored, h.stored]

end PersistentLog.Present

/-- The entry that a step of `Propose` or `appendLocal` appends. -/
def Task.appends (n : Node) (o : StorageOutcome) : Task → Option Entry
  | .appendEntries [e] => if o.commit then some e else none
  | .propose type key value clientRequestID =>
    if n.role = .leader ∧ o.commit then some (n.proposed type key value clientRequestID) else none
  | _ => none

def appendedBy (x : NodePool × NodeTurn) : Option Entry :=
  (stepOf x).bind fun st => st.1.appends x.1.state.node st.2

/-- The entries that have been appended in a run, in order. -/
def appended (tr : NodeTrace) : List Entry := tr.filterMap appendedBy

theorem appended_run {p : NodePool} (tr : NodeTrace) (o : StorageOutcome)
    (ht : p.tasks = l₁ ++ t :: l₂) :
    appended (tr ++ [(p, .run l₁.length o)]) =
      appended tr ++ (t.appends p.state.node o).toList := by
  simp only [appended, List.filterMap_append, appendedBy, List.filterMap_cons, stepOf_run ht,
    Option.bind_some, List.filterMap_nil]
  cases t.appends p.state.node o <;> rfl

/-- `appendLocal` is about to append at an index that another call has taken meanwhile. -/
def Task.raced (n : Node) (o : StorageOutcome) : Task → Bool
  | .appendEntries (e :: _) => o.commit && e.index ≠ n.log.lastIndex + 1
  | _ => false

/-- The calls that allocate indices. -/
def Task.allocates : Task → Bool
  | .becomeLeader | .propose .. => true
  | _ => false

/-- Only `becomeLeader` and `Propose` are called, and no index is allocated twice. -/
abbrev Allocating : NodePool → NodeTurn → Prop :=
  Allows (fun _ t => t.allocates) (fun s _ t o => t.raced s.node o = false) false

/-- Where `becomeLeader` and `Propose` can stand. -/
def Task.Allocates : Task → Prop
  | .becomeLeader | .propose .. | .appendLocal _ | .appendLocalIndex _ => True
  | .appendEntries es => ∃ e, es = [e]
  | _ => False

theorem Task.Allocates.next (h : t.Allocates) (ht : t.next me o n = .inl t') : t'.Allocates := by
  cases t with
  | becomeLeader =>
    dsimp only [Task.next] at ht
    split at ht <;> cases ht
    trivial
  | propose =>
    dsimp only [Task.next] at ht
    split at ht
    · cases ht
    · split at ht <;> cases ht
  | appendLocal => cases ht; trivial
  | appendLocalIndex => cases ht; exact ⟨_, rfl⟩
  | appendEntries => cases ht
  | _ => exact h.elim

/-- A step that appends puts its entry at the end of the log; another one at most drops cached
entries. -/
theorem Task.Allocates.log (me : Member) (h : t.Allocates) (hr : t.raced n o = false) :
    match t.appends n o with
    | some e => e.index = n.log.lastIndex + 1 ∧ t.log me o n = (n.log.appendEntries true [e]).1
    | none => ∃ es, t.log me o n = (n.log.appendEntries false es).1 := by
  cases t with
  | becomeLeader | appendLocal | appendLocalIndex => exact ⟨[], rfl⟩
  | propose type key value clientRequestID =>
    dsimp only [Task.appends, Task.log]
    by_cases hrole : n.role = .leader
    · cases hc : o.commit with
      | true => simp [hrole, Node.proposed]
      | false => simp only [hrole]; exact ⟨_, rfl⟩
    · simp only [hrole, false_and, if_false, ne_eq, not_false_eq_true, if_true]
      exact ⟨[], rfl⟩
  | appendEntries es =>
    obtain ⟨e, rfl⟩ := h
    dsimp only [Task.appends, Task.log]
    cases hc : o.commit with
    | true =>
      have : e.index = n.log.lastIndex + 1 := by simpa [Task.raced, hc] using hr
      simp [this]
    | false => exact ⟨_, rfl⟩
  | _ => exact h.elim

/-- What has been appended is in the log, each entry at an index of its own. -/
structure Allocated (tr : NodeTrace) (p : NodePool) : Prop where
  le : p.state.node.log.lastIncludedIndex ≤ p.state.node.log.lastIndex
  nodup : ((appended tr).map Entry.index).Nodup
  present : ∀ e ∈ appended tr, p.state.node.log.Present e

def allocation : Outline Process Task StorageOutcome Options where
  shared := Allocated
  here _ _ t := t.Allocates
  apart _ _ := True

theorem allocation_valid : allocation.Valid threads Allocating where
  symm _ := trivial
  call := by
    intro tr p t h hok
    refine ⟨?_, ?_, fun u hu => ⟨h.here u hu, trivial⟩⟩
    · have happ : appended (tr ++ [(p, .call t)]) = appended tr := by
        simp [appended, appendedBy, stepOf]
      exact ⟨h.shared.le, happ ▸ h.shared.nodup, happ ▸ h.shared.present⟩
    · show t.Allocates
      cases t with
      | becomeLeader | propose => trivial
      | _ => cases hok
  run := by
    intro tr p t o s l₁ l₂ x h hok ht hex
    cases hex
    have hhere : t.Allocates := h.self ht
    have hlog := hhere.log p.state.me (hok.of_run ht)
    refine ⟨?_, fun u hu => h.other ht hu, fun t' ht' => ⟨hhere.next ht', fun _ _ => trivial⟩⟩
    have happ := appended_run tr o ht
    have heff := Task.effect_log p.state.me o p.state.node t
    cases ha : t.appends p.state.node o with
    | none =>
      rw [ha] at hlog happ
      obtain ⟨es, hlog⟩ := hlog
      simp only [Option.toList_none, List.append_nil] at happ
      refine ⟨?_, happ ▸ h.shared.nodup, fun e he => ?_⟩
      · dsimp only [threads]
        rw [heff, hlog]
        cases es <;> exact h.shared.le
      · dsimp only [threads]
        rw [heff, hlog]
        exact (h.shared.present e (happ ▸ he)).append_failed es
    | some e =>
      rw [ha] at hlog happ
      obtain ⟨hidx, hlog⟩ := hlog
      simp only [Option.toList_some] at happ
      refine ⟨?_, ?_, fun x hx => ?_⟩
      · dsimp only [threads]
        rw [heff, hlog]
        have := h.shared.le
        show p.state.node.log.lastIncludedIndex ≤ e.index
        omega
      · rw [happ, List.map_append, List.nodup_append]
        refine ⟨h.shared.nodup, List.nodup_singleton _, fun i hi j hj => ?_⟩
        obtain ⟨x, hx, rfl⟩ := List.mem_map.mp hi
        cases List.mem_singleton.mp hj
        have := (h.shared.present x hx).le
        omega
      · dsimp only [threads]
        rw [heff, hlog]
        rw [happ] at hx
        rcases List.mem_append.mp hx with hx | hx
        · exact (h.shared.present x hx).snoc hidx
        · cases List.mem_singleton.mp hx
          exact .self h.shared.le hidx
  crash h hok hs := by cases hok

/-- **No proposal is lost**, in interleavings in which `appendLocal` appends its entry before
another call takes the index it read. -/
theorem allocated_once (hle : n.log.lastIncludedIndex ≤ n.log.lastIndex)
    (h : Runs threads Allocating ⟨me, n⟩ tr p) :
    ((appended tr).map Entry.index).Nodup ∧
      ∀ e ∈ appended tr, p.state.node.log.get e.index = .ok e := by
  have hshared := (allocation_valid.holds ⟨hle, .nil, by simp [appended]⟩ h).shared
  exact ⟨hshared.nodup, fun e he => (hshared.present e he).get_ok⟩

/-- A process that stands for election in term 1. -/
def candidate (threshold : ℕ) : Process :=
  let s := newProcess threshold
  { s with node := s.node.becomeCandidate s.me }

/-- A proposal comes between the role change of `becomeLeader` and its no-op. -/
theorem allocated_once_leader : ∃ tr p, Runs threads Allocating (candidate 0) tr p ∧
    (appended tr).map Entry.type = [.put, .noop] ∧ ((appended tr).map Entry.index).Nodup ∧
    ∀ e ∈ appended tr, p.state.node.log.get e.index = .ok e := by
  have hx : Reaches threads Allocating (candidate 0)
      (.call .becomeLeader :: .run 0 {} :: .call (.propose .put "k" [1] "") :: .run 1 {} ::
        stepsOf 0 3)
      fun tr _ => (appended tr).map Entry.type = [.put, .noop] := by decide +kernel
  obtain ⟨tr, p, h, hput⟩ := hx.runs
  exact ⟨tr, p, h, hput, allocated_once le_rfl h⟩

/-- `appendLocal` has read index 1 for the no-op when a proposal takes it. -/
theorem allocated_once_fails : ∃ tr p,
    Runs threads (Allows (fun _ t => t.allocates) anyStep false) (candidate 0) tr p ∧
    ¬((appended tr).map Entry.index).Nodup ∧
    ∃ e ∈ appended tr, e.type = .put ∧ (p.state.node.log.get e.index).toOption ≠ some e := by
  have hx : Reaches threads (Allows (fun _ t => t.allocates) anyStep false) (candidate 0)
      ((.call .becomeLeader :: stepsOf 0 3 : List NodeTurn) ++
        ([.call (.propose .put "k" [1] ""), .run 1 {}, .run 0 {}] : List NodeTurn))
      fun tr p => ¬((appended tr).map Entry.index).Nodup ∧
        ∃ e ∈ appended tr, e.type = .put ∧
          (p.state.node.log.get e.index).toOption ≠ some e := by decide +kernel
  exact hx.runs

/-! ## Requests of old terms -/

/-- The term of the request that a step is taken for. -/
def Task.requestTerm? : Task → Option ℕ
  | .handleAppendEntries req | .checkPrev req | .refuseShort req | .refuseFirst req _ _
  | .refuseTerm req _ _ | .appendRequest req | .commitCheck req | .commitSet req =>
    some req.term
  | .handleInstallSnapshot req | .installTerm req | .installRole req | .installLoad req
  | .installSave req _ | .installRestore req _ | .installBoundary req | .installIndices req =>
    some req.term
  | _ => none

/-- The entries of the log, its boundary and the commit index are as they were. -/
structure Node.SameRecord (n n' : Node) : Prop where
  entries : n'.log.engine.log = n.log.engine.log
  lastIndex : n'.log.lastIndex = n.log.lastIndex
  lastIncludedIndex : n'.log.lastIncludedIndex = n.log.lastIncludedIndex
  lastIncludedTerm : n'.log.lastIncludedTerm = n.log.lastIncludedTerm
  commitIndex : n'.commitIndex = n.commitIndex

theorem Node.SameRecord.setTermAndVote {n' : Node}
    (hlog : n'.log = n.log ∨ ∃ c term v, n'.log = (n.log.setTermAndVote c term v).1)
    (hcommit : n'.commitIndex = n.commitIndex) : n.SameRecord n' := by
  rcases hlog with hlog | ⟨c, term, v, hlog⟩
  · exact ⟨by rw [hlog], by rw [hlog], by rw [hlog], by rw [hlog], hcommit⟩
  · cases c <;> exact ⟨by rw [hlog]; rfl, by rw [hlog]; rfl, by rw [hlog]; rfl,
      by rw [hlog]; rfl, hcommit⟩

theorem Node.handleAppendEntriesLocked_commitIndex (commit : Bool) (req : AppendEntriesRequest) :
    (n.handleAppendEntriesLocked commit req).commitIndex = n.commitIndex := by
  unfold Node.handleAppendEntriesLocked Node.stepDownWith
  dsimp only
  split
  · split <;> rfl
  · split <;> rfl

/-- A handler has checked the term of its request and may yet change the log or the commit
index. -/
def Task.pending : Task → Bool
  | .checkPrev _ | .appendRequest _ | .commitCheck _ | .commitSet _
  | .installRole _ | .installLoad _ | .installSave .. | .installRestore .. | .installBoundary _
  | .installIndices _ => true
  | _ => false

/-- What a handler that has checked the term relies on. -/
def Task.Guarded (n : Node) : Task → Prop
  | .checkPrev req | .appendRequest req | .commitCheck req | .commitSet req =>
    n.log.currentTerm = req.term ∧ n.role ≠ .leader
  | .installRole req => n.log.currentTerm = req.term
  | .installLoad req | .installSave req _ | .installRestore req _ | .installBoundary req
  | .installIndices req => n.log.currentTerm = req.term ∧ n.role ≠ .leader
  | _ => True

theorem Task.Guarded.of_not_pending (h : t.pending = false) : t.Guarded n := by
  cases t with
  | checkPrev | appendRequest | commitCheck | commitSet | installRole | installLoad | installSave
  | installRestore | installBoundary | installIndices => cases h
  | _ => trivial

theorem Task.Guarded.mono {n' : Node} (h : t.Guarded n)
    (hterm : n'.log.currentTerm = n.log.currentTerm)
    (hrole : n.role ≠ .leader → n'.role ≠ .leader) : t.Guarded n' := by
  cases t with
  | checkPrev | appendRequest | commitCheck | commitSet | installLoad | installSave
  | installRestore | installBoundary | installIndices => exact ⟨hterm.trans h.1, hrole h.2⟩
  | installRole => exact hterm.trans h
  | _ => trivial

/-- A handler enters the term of its request: its `SetTermAndVote` does not fail, and the node is
not the leader of that term. -/
def Task.enters (n : Node) (o : StorageOutcome) : Task → Bool
  | .handleAppendEntries req =>
    (o.commit || n.log.currentTerm ≥ req.term) && (n.log.currentTerm ≠ req.term || n.role ≠ .leader)
  | .installTerm _ => o.commit
  | _ => true

/-- No step changes the term or makes the node leader while a handler relies on it. -/
def Undisturbed (s : Process) (us : List Task) (t : Task) (o : StorageOutcome) : Prop :=
  t.enters s.node o = true ∧
  ((t.effect s.me o s.node).log.currentTerm ≠ s.node.log.currentTerm ∨
    s.node.role ≠ .leader ∧ (t.effect s.me o s.node).role = .leader →
      ∀ u ∈ us, u.pending = false)

instance : Decidable (Undisturbed s us t o) := inferInstanceAs (Decidable (_ ∧ (_ → _)))

theorem Node.handleAppendEntriesLocked_guarded {req : AppendEntriesRequest}
    (hge : ¬req.term < n.log.currentTerm)
    (henter : (Task.handleAppendEntries req).enters n o = true) :
    (n.handleAppendEntriesLocked o.commit req).log.currentTerm = req.term ∧
      (n.handleAppendEntriesLocked o.commit req).role ≠ .leader := by
  simp only [Task.enters, Bool.and_eq_true, Bool.or_eq_true, decide_eq_true_eq] at henter
  obtain ⟨hcommit, hrole⟩ := henter
  unfold Node.handleAppendEntriesLocked
  dsimp only
  by_cases hlt : n.log.currentTerm < req.term
  · have hc : o.commit = true := hcommit.resolve_right (by omega)
    rw [if_pos hlt, Task.stepDownWith_log, hc]
    exact ⟨rfl, by simp [Node.stepDownWith, Node.setTermAndVoteWith]⟩
  · have hterm : n.log.currentTerm = req.term := by omega
    rw [if_neg hlt]
    split
    · exact ⟨hterm, by simp⟩
    · exact ⟨hterm, hrole.resolve_left (by simp [hterm])⟩

theorem Task.inCall_of_pending (h : t.pending = true) :
    t.inCall = .appendEntries ∨ t.inCall = .installSnapshot := by
  cases t with
  | checkPrev | appendRequest | commitCheck | commitSet => exact .inl rfl
  | installRole | installLoad | installSave | installRestore | installBoundary
  | installIndices => exact .inr rfl
  | _ => cases h

/-- A handler goes on relying on what it has checked. -/
theorem Task.Guarded.next (h : t.Guarded n) (henter : t.enters n o = true)
    (ht : t.next me o n = .inl t') : t'.Guarded (t.effect me o n) := by
  have hterm : (t.effect me o n).log.currentTerm = (t.log me o n).currentTerm := by
    rw [Task.effect_log]
  cases t with
  | handleAppendEntries req =>
    dsimp only [Task.next, Task.effect] at ht ⊢
    split at ht
    · cases ht
    · next hge =>
      cases ht
      rw [if_neg hge]
      exact Node.handleAppendEntriesLocked_guarded hge henter
  | checkPrev req =>
    dsimp only [Task.next] at ht
    split at ht
    · split at ht
      · cases ht; trivial
      · split at ht <;> cases ht
        · trivial
        · exact h
    · cases ht; exact h
  | appendRequest req =>
    dsimp only [Task.next] at ht
    split at ht <;> cases ht
    exact ⟨hterm.trans ((SameBallot.appendEntries ..).currentTerm.trans h.1), h.2⟩
  | commitCheck =>
    dsimp only [Task.next] at ht
    split at ht <;> cases ht
    exact h
  | handleInstallSnapshot req =>
    dsimp only [Task.next] at ht
    split at ht
    · cases ht
    · split at ht <;> cases ht
      · trivial
      · show n.log.currentTerm = req.term
        omega
  | installTerm req =>
    cases ht
    show (n.setTermAndVoteWith o.commit req.term "").log.currentTerm = req.term
    rw [show o.commit = true from henter]
    rfl
  | installRole => cases ht; exact ⟨h, by simp [Task.effect]⟩
  | installLoad =>
    dsimp only [Task.next] at ht
    split at ht
    · cases ht
    · split at ht <;> cases ht
      exact h
  | installSave =>
    dsimp only [Task.next] at ht
    split at ht <;> cases ht
    exact h
  | installRestore =>
    dsimp only [Task.next, Task.effect] at ht ⊢
    split at ht <;> cases ht
    exact ⟨by split <;> exact h.1, by split <;> exact h.2⟩
  | installBoundary =>
    dsimp only [Task.next] at ht
    split at ht <;> cases ht
    exact ⟨hterm.trans ((SameBallot.restoreSnapshotBoundary ..).currentTerm.trans h.1), h.2⟩
  | refuseFirst | refuseTerm =>
    dsimp only [Task.next] at ht
    split at ht <;> cases ht
    trivial
  | refuseShort | commitSet | installIndices => cases ht
  | _ =>
    -- the other calls do not come to a handler
    refine .of_not_pending (Bool.eq_false_iff.mpr fun hp => ?_)
    have hcall := Task.next_inCall ht
    rcases Task.inCall_of_pending hp with hp | hp <;> cases hcall.symm.trans hp

def guarding : Outline Process Task StorageOutcome Options where
  shared _ _ := True
  here _ s t := t.Guarded s.node
  apart _ _ := True

theorem guarding_valid : guarding.Valid threads (OnStep Undisturbed) where
  symm _ := trivial
  call := by
    intro tr p t h hok
    refine ⟨trivial, .of_not_pending ?_, fun u hu => ⟨h.here u hu, trivial⟩⟩
    cases t with
    | checkPrev | appendRequest | commitCheck | commitSet | installRole | installLoad
    | installSave | installRestore | installBoundary | installIndices => cases hok
    | _ => rfl
  run := by
    intro tr p t o s l₁ l₂ x h hok ht hex
    cases hex
    obtain ⟨henter, hquiet⟩ := hok.of_run ht
    refine ⟨trivial, fun u hu => ?_, fun t' ht' =>
      ⟨(h.self ht : t.Guarded _).next henter ht', fun _ _ => trivial⟩⟩
    cases hpend : u.pending with
    | false => exact .of_not_pending hpend
    | true =>
      have hkeep := mt (fun hd => hquiet hd u hu) (by simp [hpend])
      rw [not_or, not_not, not_and] at hkeep
      exact (h.other ht hu : u.Guarded _).mono hkeep.1 hkeep.2
  crash _ _ _ := trivial

/-- **A request changes the log and the commit index only in its own term, and only on a node that
is not leader**, in interleavings in which no step changes the term or makes the node leader while
a handler relies on them. -/
theorem request_in_term (h : Runs threads (OnStep Undisturbed) s₀ tr p) (hx : x ∈ tr)
    (ht : stepOf x = some (t, o)) (hreq : t.requestTerm? = some term)
    (hchange : ¬x.1.state.node.SameRecord (t.effect x.1.state.me o x.1.state.node)) :
    x.1.state.node.log.currentTerm = term ∧ x.1.state.node.role ≠ .leader := by
  obtain ⟨tr', hq, -⟩ := h.of_mem hx
  have hg : t.Guarded x.1.state.node :=
    (guarding_valid.holds trivial hq).here t (mem_of_stepOf ht)
  have hsame (hlog : t.log x.1.state.me o x.1.state.node = x.1.state.node.log ∨
        ∃ c term v, t.log x.1.state.me o x.1.state.node =
          (x.1.state.node.log.setTermAndVote c term v).1)
      (hcommit : (t.effect x.1.state.me o x.1.state.node).commitIndex =
        x.1.state.node.commitIndex) : False := by
    rw [← Task.effect_log] at hlog
    exact hchange (.setTermAndVote hlog hcommit)
  cases t with
  | appendRequest | commitSet | installBoundary | installIndices => cases hreq; exact hg
  | handleAppendEntries req =>
    refine (hsame ?_ ?_).elim
    · dsimp only [Task.log]
      split
      · exact .inr ⟨_, _, _, rfl⟩
      · exact .inl rfl
    · dsimp only [Task.effect]
      split
      · rfl
      · exact Node.handleAppendEntriesLocked_commitIndex ..
  | installTerm => exact (hsame (.inr ⟨_, _, _, rfl⟩) rfl).elim
  | installRestore =>
    refine (hsame (.inl rfl) ?_).elim
    dsimp only [Task.effect]
    split <;> rfl
  | checkPrev | refuseShort | refuseFirst | refuseTerm | commitCheck | handleInstallSnapshot
  | installRole | installLoad | installSave => exact (hsame (.inl rfl) rfl).elim
  | _ => cases hreq

/-- An entry is appended for a request of term 1. -/
theorem request_in_term_append : ∃ tr p x t o,
    Runs threads (OnStep Undisturbed) (newProcess 0) tr p ∧ x ∈ tr ∧ stepOf x = some (t, o) ∧
    t.requestTerm? = some 1 ∧
    (t.effect x.1.state.me o x.1.state.node).log.lastIndex ≠ x.1.state.node.log.lastIndex ∧
    x.1.state.node.log.currentTerm = 1 ∧ x.1.state.node.role ≠ .leader := by
  have hx : Reaches threads (OnStep Undisturbed) (newProcess 0)
      (.call (.handleAppendEntries ⟨1, "n2", 0, 0, [⟨1, 1, .noop, "", [], ""⟩], 0, ""⟩) ::
        stepsOf 0 4)
      fun tr _ => ∃ x ∈ tr, ∃ st ∈ stepOf x, st.1.requestTerm? = some 1 ∧
        (st.1.effect x.1.state.me st.2 x.1.state.node).log.lastIndex ≠
          x.1.state.node.log.lastIndex := by decide +kernel
  obtain ⟨tr, p, h, x, hx, ⟨t, o⟩, hst, hreq, hlast⟩ := hx.runs
  exact ⟨tr, p, x, t, o, h, hx, hst, hreq, hlast,
    request_in_term h hx hst hreq fun hsame => hlast hsame.lastIndex⟩

/-- A handler that has checked a request of term 1 appends its entry after the node has become
leader of term 2, over the node's own no-op. -/
theorem request_in_term_fails : ∃ tr p, Runs threads (OnStep anyStep) (newProcess 0) tr p ∧
    ∃ x ∈ tr, ∃ st ∈ stepOf x, st.1.requestTerm? = some 1 ∧
      (st.1.effect x.1.state.me st.2 x.1.state.node).log.lastTerm ≠
        x.1.state.node.log.lastTerm ∧
      x.1.state.node.log.currentTerm = 2 ∧ x.1.state.node.role = .leader := by
  have hx : Reaches threads (OnStep anyStep) (newProcess 0)
      ((.call (.handleAppendEntries ⟨1, "n2", 0, 0, [⟨1, 1, .noop, "", [], ""⟩], 0, ""⟩) ::
        stepsOf 0 2 : List NodeTurn) ++ (.call .becomeCandidate :: stepsOf 1 3 : List NodeTurn) ++
        (.call .becomeLeader :: stepsOf 1 4 : List NodeTurn) ++ stepsOf 0 1)
      fun tr _ => ∃ x ∈ tr, ∃ st ∈ stepOf x, st.1.requestTerm? = some 1 ∧
        (st.1.effect x.1.state.me st.2 x.1.state.node).log.lastTerm ≠
          x.1.state.node.log.lastTerm ∧
        x.1.state.node.log.currentTerm = 2 ∧ x.1.state.node.role = .leader := by decide +kernel
  exact hx.runs

end DistributedKV.Raft
