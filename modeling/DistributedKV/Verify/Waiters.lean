import DistributedKV.Verify.Safety

/-!
# Acknowledged proposals

A call of `Propose` waits under the index of its entry, and is told `nil` when an entry is applied
at that index. The two entries are the same as long as nobody else writes to the log of the
leader, and a node that ceases to lead forgets its waiting calls. All step-downs do this but
`HandleInstallSnapshot` (`Node.NoWriters`). That nothing else is applied at the index before the
call returns, or later, is state machine safety (`Sound`).
-/

namespace DistributedKV.Raft

open Theory (BallotInv)

/-! ## Calls -/

/-- The call `k` has been told `nil`. -/
def Acked (ps : List Proposal) (k : ℕ) : Prop := ∃ p, ps[k]? = some p ∧ p.waitCh = some none

/-- `ps'` are the calls `ps`, none of which has been told `nil` since. -/
structure Quiet (ps ps' : List Proposal) : Prop where
  entries : ps'.map Proposal.entry = ps.map Proposal.entry
  acked : ∀ {k}, Acked ps' k → Acked ps k

namespace Quiet

variable {ps ps' ps'' : List Proposal}

theorem refl (ps : List Proposal) : Quiet ps ps := ⟨rfl, id⟩

theorem trans (h : Quiet ps ps') (h' : Quiet ps' ps'') : Quiet ps ps'' :=
  ⟨h'.entries.trans h.entries, fun ha => h.acked (h'.acked ha)⟩

theorem entries_eq {g : ℕ → Proposal → Proposal} (hg : ∀ j, ps'[j]? = ps[j]?.map (g j))
    (he : ∀ {j p}, ps[j]? = some p → (g j p).entry = p.entry) :
    ps'.map Proposal.entry = ps.map Proposal.entry := by
  refine List.ext_getElem? fun j => ?_
  rw [List.getElem?_map, List.getElem?_map, hg]
  cases hp : ps[j]? with
  | none => rfl
  | some p => exact congrArg some (he hp)

theorem of_map {g : ℕ → Proposal → Proposal} (hg : ∀ j, ps'[j]? = ps[j]?.map (g j))
    (he : ∀ {j p}, ps[j]? = some p → (g j p).entry = p.entry)
    (hw : ∀ {j p}, ps[j]? = some p → (g j p).waitCh = some none → p.waitCh = some none) :
    Quiet ps ps' := by
  refine ⟨entries_eq hg he, ?_⟩
  rintro j ⟨p', hp', hack⟩
  rw [hg, Option.map_eq_some_iff] at hp'
  obtain ⟨p, hp, rfl⟩ := hp'
  exact ⟨p, hp, hw hp hack⟩

theorem modify {f : Proposal → Proposal} (he : ∀ p, (f p).entry = p.entry)
    (hw : ∀ p, (f p).waitCh = some none → p.waitCh = some none) (k : ℕ) :
    Quiet ps (ps.modify k f) := by
  refine of_map (fun j => List.getElem?_modify ..) (fun {j p} _ => ?_) fun {j p} _ hack => ?_
  · split
    · exact he p
    · rfl
  · split at hack
    · exact hw p hack
    · exact hack

theorem set (hp : ps[k]? = some p) (he : p'.entry = p.entry) (hw : p'.waitCh = p.waitCh) :
    Quiet ps (ps.set k p') := by
  refine of_map (g := fun j q => if k = j then p' else q) (fun j => ?_) (fun {j q} hq => ?_)
    fun {j q} hq hack => ?_
  · rw [List.getElem?_set]
    split
    · next hj =>
      subst hj
      rw [if_pos (List.getElem?_eq_some_iff.mp hp).1, hp]
      rfl
    · exact Option.map_id'.symm
  · split
    · next hj => subst hj; rw [hp] at hq; cases hq; exact he
    · rfl
  · split at hack
    · next hj => subst hj; rw [hp] at hq; cases hq; exact hw ▸ hack
    · exact hack

/-- Calls whose proposals were dropped. -/
theorem dropped (ws : List (ℕ × ℕ)) :
    Quiet ps (ws.foldl (fun ps w => Node.sendResult ps w.2 (some .proposalDropped)) ps) := by
  induction ws generalizing ps with
  | nil => exact refl ps
  | cons w ws ih =>
    refine trans (modify (f := fun p => { p with waitCh := some (some .proposalDropped) })
      (fun _ => rfl) (fun _ h => ?_) w.2) ih
    cases h

end Quiet

namespace Node

variable {me : Member} {s s' : Node}

/-- The entry of the call `k` of the present process. -/
def called (s : Node) (k : ℕ) : Option Entry := (s.proposals.map Proposal.entry)[k]?

theorem called_eq (h : s.proposals[k]? = some p) : s.called k = some p.entry := by
  rw [called, List.getElem?_map, h]; rfl

/-- What a step with events `evs` does to the calls of `Propose` on `n`. -/
inductive Serves (n : NodeID) (s s' : Node) (evs : List Event) : Prop where
  /-- Calls keep their entries. One is told `nil` when an entry is applied at its index. -/
  | serve : s'.epoch = s.epoch → s'.writeWaiters ⊆ s.writeWaiters →
    s'.proposals.map Proposal.entry = s.proposals.map Proposal.entry →
    (∀ {k}, Acked s'.proposals k → Acked s.proposals k ∨ ∃ i e, (i, k) ∈ s.writeWaiters ∧
      s.log.get i = .ok e ∧ Event.applied n i e (some (s.epoch, k)) ∈ evs) → Serves n s s' evs
  | propose : s.role = .leader → e.index = s.log.lastIndex + 1 →
    s'.log = (s.log.appendEntries true [e]).1 → s'.epoch = s.epoch →
    s'.writeWaiters ⊆ (e.index, s.proposals.length) :: s.writeWaiters →
    s'.proposals = s.proposals ++ [{ entry := e }] → Serves n s s' evs
  | restart : s'.epoch = s.epoch + 1 → s'.writeWaiters = [] → s'.proposals = [] →
    Serves n s s' evs

theorem Serves.quiet (he : s'.epoch = s.epoch) (hw : s'.writeWaiters ⊆ s.writeWaiters)
    (hp : Quiet s.proposals s'.proposals) : Serves n s s' evs :=
  .serve he hw hp.entries fun h => .inl (hp.acked h)

theorem Serves.same (he : s'.epoch = s.epoch) (hw : s'.writeWaiters = s.writeWaiters)
    (hp : s'.proposals = s.proposals) : Serves n s s' evs :=
  .quiet he (hw ▸ List.Subset.refl _) (hp ▸ .refl _)

/-- An entry is applied: the call that waits for its index is told. -/
theorem serves_applyOne (hg : s.log.get i = .ok e) :
    Serves n s (s.applyOne me i stop e) [.applied n i e (s.woken i)] := by
  obtain ⟨he, -, hw, hp, -, -⟩ := applyOne_calls me s i stop e
  unfold notifyWritersLocked at hw hp
  unfold woken
  cases hfind : s.writeWaiters.find? fun w => w.1 = i with
  | none =>
    rw [hfind] at hw hp
    exact .same he hw hp
  | some w =>
    rw [hfind] at hw hp
    have hi : w.1 = i := by simpa using List.find?_some hfind
    have hmem := List.mem_of_find?_eq_some hfind
    refine .serve he (hw ▸ List.filter_subset_self ..) ?_ fun {k} hack => ?_
    · rw [hp]
      refine Quiet.entries_eq (fun j => List.getElem?_modify ..) fun {j p} _ => ?_
      split <;> rfl
    · obtain ⟨p', hp', hack⟩ := hack
      rw [hp] at hp'
      replace hp' := (List.getElem?_modify ..).symm.trans hp'
      rw [Option.map_eq_map, Option.map_eq_some_iff] at hp'
      obtain ⟨p, hpk, rfl⟩ := hp'
      split at hack
      · next hk =>
        subst hk hi
        exact .inr ⟨w.1, e, hmem, hg, by simp⟩
      · exact .inl ⟨p, hpk, hack⟩

theorem Acts.serves (ha : s.Acts me a ef) : Serves me.id s ef.node ef.events := by
  cases ha with
  | lead _ _ _ hs => rw [hs]; exact .same rfl rfl rfl
  | propose hs =>
    obtain ⟨hrole, rfl⟩ := propose_ok hs
    exact .propose hrole rfl rfl rfl
      (List.cons_subset_cons _ (List.filter_subset_self ..)) rfl
  | proposeReturn hp => exact .quiet rfl (List.Subset.refl _) (.set hp rfl rfl)
  | proposeCancel hp =>
    refine .quiet rfl (List.filter_subset_self ..) (.modify ?_ ?_ _)
    · exact fun _ => rfl
    · exact fun _ h => h
  | tryAdvanceCommitIndex =>
    rw [advance, tryAdvanceCommitIndex_eq]
    exact .same rfl rfl rfl
  | linearizableRead hs =>
    obtain ⟨-, rfl⟩ := linearizableRead_ok hs
    exact .same rfl rfl rfl
  | waitForApplied =>
    rw [waitForApplied_eq]
    exact .same rfl rfl rfl
  | applyNext =>
    unfold Node.applyNext
    split
    · exact .same rfl rfl rfl
    · split
      · exact .same rfl rfl rfl
      · next hg => exact serves_applyOne hg
  | restart => exact .restart rfl rfl rfl
  | startElection | ask | dissolve | replicate | sendSnapshot | heartbeat | readReturn
  | readCancel | applyBegin => exact .same rfl rfl rfl

/-- The calls stay as they are, or they all fail. -/
theorem Serves.of_calls (he : s'.epoch = s.epoch)
    (h : s'.proposals = s.proposals ∧ s'.writeWaiters = s.writeWaiters ∨
      s'.proposals = s.failStaleWritersLocked.proposals ∧ s'.writeWaiters = []) :
    Serves n s s' evs := by
  rcases h with ⟨hp, hw⟩ | ⟨hp, hw⟩
  · exact .same he hw hp
  · refine .quiet he (by simp [hw]) ?_
    rw [hp]
    exact .dropped _

theorem Meets.serves (h : s.Meets s₁ t) (he : s'.epoch = s₁.epoch)
    (hw : s'.writeWaiters = s₁.writeWaiters) (hp : s'.proposals = s₁.proposals) :
    Serves n s s' evs := by
  have hep : s₁.epoch = s.epoch := by rw [h.eq]
  refine .of_calls (he.trans hep) ?_
  rw [hp, hw]
  exact h.calls

theorem Receives.serves (hrec : s.Receives me env ef) : Serves n s ef.node ef.events := by
  cases hrec.hears with
  | @voteReq req _ heq =>
    rw [heq]
    by_cases hst : req.term < s.log.currentTerm
    · rw [handleRequestVote_stale hst]; exact .same rfl rfl rfl
    · obtain ⟨s₁, hm, -, hs | ⟨-, -, hs⟩⟩ := handleRequestVote_spec (not_lt.mp hst) <;> rw [hs] <;>
        exact hm.serves rfl rfl rfl
  | @appendReq _ req _ heq =>
    rw [heq]
    by_cases hst : req.term < s.log.currentTerm
    · rw [handleAppendEntries_stale hst]; exact .same rfl rfl rfl
    · obtain ⟨s₁, hm, -, -, ⟨resp, -, -, hs⟩ | ⟨-, hs⟩⟩ :=
        handleAppendEntries_spec (not_lt.mp hst) <;> rw [hs]
      · exact hm.serves rfl rfl rfl
      · rw [followCommit_eq]; exact hm.serves rfl rfl rfl
  | @snapReq req _ heq =>
    rw [heq]
    by_cases hst : req.term < s.log.currentTerm
    · rw [handleInstallSnapshot_stale hst]; exact .same rfl rfl rfl
    · obtain ⟨s₁, hm, -, -, ⟨-, hs⟩ | ⟨snap, -, -, hs⟩⟩ :=
        handleInstallSnapshot_spec (not_lt.mp hst) <;> rw [hs] <;> exact hm.serves rfl rfl rfl
  | @follow t heq =>
    rw [heq]
    exact .of_calls (by rw [becomeFollower_eq])
      ((s.becomeFollower_calls ..).imp And.right And.right)
  | note heq => rw [heq]; exact .same rfl rfl rfl

end Node

/-- What a step does to the calls of any node. -/
theorem Cluster.step_serves {cfg : Config} {c : Cluster} (h : c.step cfg a = some (c', evs))
    (n : NodeID) : (c.node n).Serves n (c'.node n) evs := by
  cases Cluster.step_inv h with
  | @act m a ef _ ha =>
    simp only [Cluster.after]
    split
    · next heq =>
      subst heq
      have h := ha.serves
      rwa [cfg.member_id] at h
    · exact .same rfl rfl rfl
  | @deliver k env ef _ _ hrec =>
    simp only [Cluster.after]
    split
    · next heq => subst heq; exact hrec.serves
    · exact .same rfl rfl rfl
  | drop => exact .same rfl rfl rfl

/-! ## Calls that were told `nil` -/

/-- Calls wait for the index of their entry, and one that was told `nil` was told so when some
entry was applied there, in relation `R` to its own. -/
structure Told (R : Entry → Entry → Prop) (tr : List Event) (n : NodeID) (s : Node) : Prop where
  waiting : ∀ {i k}, (i, k) ∈ s.writeWaiters → ∃ e, s.called k = some e ∧ e.index = i
  acked : ∀ {k}, Acked s.proposals k → ∃ e e', s.called k = some e ∧ R e e' ∧
    Event.applied n e.index e' (some (s.epoch, k)) ∈ tr

section
variable {R : Entry → Entry → Prop}

theorem Told.step (h : Told R tr n s)
    (hR : ∀ {i k e e'}, (i, k) ∈ s.writeWaiters → s.called k = some e → s.log.get i = .ok e' →
      R e e') (hs : Node.Serves n s s' evs) : Told R (tr ++ evs) n s' := by
  cases hs with
  | serve hep hw hent hack =>
    have hcalled (k : ℕ) : s'.called k = s.called k := by rw [Node.called, hent]; rfl
    refine ⟨fun hmem => ?_, fun {k} hk => ?_⟩
    · rw [hcalled]; exact h.waiting (hw hmem)
    · rw [hcalled, hep]
      rcases hack hk with hk | ⟨i, e', hmem, hg, hev⟩
      · obtain ⟨e, e', he, hRe, hev⟩ := h.acked hk
        exact ⟨e, e', he, hRe, List.mem_append_left _ hev⟩
      · obtain ⟨e, he, rfl⟩ := h.waiting hmem
        exact ⟨e, e', he, hR hmem he hg, List.mem_append_right _ hev⟩
  | @propose e hrole hidx hlog hep hw hp =>
    have hcalled {k x} (hx : s.called k = some x) : s'.called k = some x := by
      rw [Node.called, hp, List.map_append]
      exact (List.getElem?_append_left (List.getElem?_eq_some_iff.mp hx).1).trans hx
    refine ⟨fun {i k} hmem => ?_, fun {k} hk => ?_⟩
    · rcases List.mem_cons.mp (hw hmem) with heq | hmem
      · cases heq
        exact ⟨e, by simp [Node.called, hp], rfl⟩
      · obtain ⟨x, hx, hi⟩ := h.waiting hmem
        exact ⟨x, hcalled hx, hi⟩
    · obtain ⟨p, hpk, hack⟩ := hk
      rw [hp, List.getElem?_append] at hpk
      split at hpk
      · obtain ⟨x, x', hx, hRx, hev⟩ := h.acked ⟨p, hpk, hack⟩
        exact ⟨x, x', hcalled hx, hRx, hep ▸ List.mem_append_left _ hev⟩
      · -- the new call has been told nothing
        rw [List.getElem?_singleton] at hpk
        split at hpk <;> cases hpk
        cases hack
  | restart hep hw hp =>
    refine ⟨fun hmem => ?_, fun hk => ?_⟩
    · rw [hw] at hmem; cases hmem
    · obtain ⟨p, hpk, -⟩ := hk
      rw [hp] at hpk; cases hpk

variable (hR : ∀ {tr c}, Run cfg ok tr c → ∀ {n i k e e'}, (i, k) ∈ (c.node n).writeWaiters →
  (c.node n).called k = some e → (c.node n).log.get i = .ok e' → R e e')
include hR

theorem Run.told (h : Run cfg ok tr c) (n : NodeID) : Told R tr n (c.node n) := by
  induction h with
  | init => exact ⟨nofun, fun ⟨p, hp, _⟩ => by cases hp⟩
  | step h _ hs ih => exact ih.step (hR h) (Cluster.step_serves hs n)

theorem Run.proposeOk (h : Run cfg ok tr c) (hev : Event.proposeOk n call e ∈ tr) :
    ∃ e', R e e' ∧ Event.applied n e.index e' (some call) ∈ tr := by
  induction h with
  | init => cases hev
  | @step tr c a c' evs h _ hs ih =>
    rcases List.mem_append.mp hev with hev | hev
    · obtain ⟨e', hRe, hap⟩ := ih hev
      exact ⟨e', hRe, List.mem_append_left _ hap⟩
    · obtain ⟨m, b, -, -, rfl, hep, p, hp, hack, rfl⟩ := Cluster.step_causes hs hev
      obtain ⟨ep, k⟩ := call
      cases hep
      rw [cfg.member_id]
      obtain ⟨e, e', he, hRe, hap⟩ := (h.told hR m).acked ⟨p, hp, hack⟩
      rw [Node.called_eq hp] at he
      cases he
      exact ⟨e', hRe, List.mem_append_left _ hap⟩

end

/-! ## The entry that was proposed -/

/-- `HandleInstallSnapshot` does not depose a leader that calls of `Propose` wait on. -/
def Node.NoWriters (s : Node) (req : InstallSnapshotRequest) : Prop :=
  s.log.currentTerm ≤ req.term → s.role = .leader → s.writeWaiters = []

instance : Decidable (Node.NoWriters s req) := inferInstanceAs (Decidable (_ → _ → _))

namespace Node

variable {me : Member} {s s' : Node}

theorem Moves.holds (hm : s.Moves me a s') (ha : a ≠ .restart) (h : s.log.Holds e) :
    s'.log.Holds e := by
  cases hm with
  | stay hlog => rw [hlog]; exact h
  | stand hlog => rw [hlog]; exact ⟨h.le, h.cache, h.engine⟩
  | grow hidx hlog => rw [hlog]; exact h.snoc hidx
  | commit | begin | halt => exact h
  | @apply i stop x =>
    obtain ⟨-, -, -, ⟨hlog, -⟩ | ⟨snap, t, -, -, hlog, -⟩⟩ := applyOne_spec me s (i + 1) stop x <;>
      rw [hlog]
    · exact h
    · exact h.compactPrefix
  | restart => exact (ha rfl).elim

/-- A leader leads until it hears of a higher term or restarts. -/
theorem Acts.stays_leader (ha : s.Acts me a ef) (hl : s.role = .leader) (hne : a ≠ .restart) :
    ef.node.role = .leader := by
  cases ha with
  | startElection hrole => exact (hrole hl).elim
  | lead _ _ _ hs => rw [hs]
  | propose hs => obtain ⟨-, rfl⟩ := propose_ok hs; exact hl
  | tryAdvanceCommitIndex => rw [advance, tryAdvanceCommitIndex_eq]; exact hl
  | linearizableRead hs => obtain ⟨-, rfl⟩ := linearizableRead_ok hs; exact hl
  | waitForApplied => rw [waitForApplied_eq]; exact hl
  | applyNext => rw [applyNext_shape]; exact hl
  | restart => exact (hne rfl).elim
  | _ => exact hl

theorem becomeFollower_writeWaiters (hl : s.role = .leader) (t : ℕ) (l a : String) :
    (s.becomeFollower t l a).writeWaiters = [] := by
  rcases s.becomeFollower_calls t l a with ⟨hne, -, -⟩ | ⟨-, -, hw⟩
  · exact (hne hl).elim
  · exact hw

/-- A leader that is deposed fails its waiting calls, unless a snapshot deposes it. -/
theorem Receives.deposed (hrec : s.Receives me env ef) (hl : s.role = .leader) :
    ef.node.role = .leader ∨ ef.node.writeWaiters = [] ∨
      ∃ req, env.body = .snapReq req ∧ s.log.currentTerm ≤ req.term ∧
        ef.node.writeWaiters = s.writeWaiters := by
  cases hrec.hears with
  | @voteReq req _ heq =>
    rw [heq]
    by_cases hst : req.term < s.log.currentTerm
    · rw [handleRequestVote_stale hst]; exact .inl hl
    · obtain ⟨s₁, -, hw, hs | ⟨-, -, hs⟩⟩ := handleRequestVote_spec (not_lt.mp hst) <;> rw [hs] <;>
        exact (hw hl).imp_right .inl
  | @appendReq _ req _ heq =>
    rw [heq]
    by_cases hst : req.term < s.log.currentTerm
    · rw [handleAppendEntries_stale hst]; exact .inl hl
    · obtain ⟨s₁, -, -, hw, ⟨resp, -, -, hs⟩ | ⟨-, hs⟩⟩ :=
        handleAppendEntries_spec (not_lt.mp hst) <;> rw [hs]
      · exact (hw hl).imp_right .inl
      · rw [followCommit_eq]; exact (hw hl).imp_right .inl
  | @snapReq req hb heq =>
    rw [heq]
    by_cases hst : req.term < s.log.currentTerm
    · rw [handleInstallSnapshot_stale hst]; exact .inl hl
    · obtain ⟨s₁, -, -, hw, ⟨-, hs⟩ | ⟨snap, -, -, hs⟩⟩ :=
        handleInstallSnapshot_spec (not_lt.mp hst) <;> rw [hs] <;>
        exact .inr (.inr ⟨req, hb, not_lt.mp hst, hw⟩)
  | @follow t heq =>
    rw [heq]
    exact .inr (.inl (becomeFollower_writeWaiters hl ..))
  | note heq => rw [heq]; exact .inl hl

/-- Only a leader has waiting calls, and the log holds their entries. -/
structure Exact (s : Node) : Prop where
  idle : s.role ≠ .leader → s.writeWaiters = []
  held : ∀ {i k}, (i, k) ∈ s.writeWaiters → ∃ e, s.called k = some e ∧ e.index = i ∧ s.log.Holds e

namespace Exact

theorem step (h : Exact s) (hs : Serves n s s' evs)
    (hidle : s.role = .leader → s'.role ≠ .leader → s'.writeWaiters = [])
    (hlog : s'.role = .leader → ∀ {e}, s.log.Holds e → s'.log.Holds e) : Exact s' := by
  have hidle' (hrole : s'.role ≠ .leader) : s'.writeWaiters = [] := by
    by_cases hl : s.role = .leader
    · exact hidle hl hrole
    · cases hs with
      | serve _ hw => rw [h.idle hl] at hw; exact List.subset_nil.mp hw
      | propose hl' => exact (hl hl').elim
      | restart _ hw => exact hw
  refine ⟨hidle', fun {i k} hmem => ?_⟩
  by_cases hrole : s'.role = .leader
  · have hlog {e} := hlog hrole (e := e)
    cases hs with
    | serve _ hw hent =>
      obtain ⟨e, he, hi, hold⟩ := h.held (hw hmem)
      exact ⟨e, by rw [called, hent]; exact he, hi, hlog hold⟩
    | @propose e _ _ hs' _ hw hp =>
      rcases List.mem_cons.mp (hw hmem) with heq | hmem
      · cases heq
        exact ⟨e, by simp [called, hp], rfl, hs' ▸ .self ..⟩
      · obtain ⟨x, hx, hi, hold⟩ := h.held hmem
        refine ⟨x, ?_, hi, hlog hold⟩
        rw [called, hp, List.map_append]
        exact (List.getElem?_append_left (List.getElem?_eq_some_iff.mp hx).1).trans hx
    | restart _ hw => rw [hw] at hmem; cases hmem
  · rw [hidle' hrole] at hmem; cases hmem

theorem act (h : Exact s) (ha : s.Acts me a ef) : Exact ef.node := by
  by_cases hne : a = .restart
  · subst hne
    cases ha with
    | lead _ _ _ _ hops => simp [actOps] at hops
    | dissolve hne => exact (hne rfl).elim
    | restart => exact ⟨fun _ => rfl, fun hmem => by cases hmem⟩
  · exact h.step ha.serves (fun hl hrole => (hrole (ha.stays_leader hl hne)).elim)
      fun _ _ => ha.moves.holds hne

theorem receive (h : Exact s) (B : BallotInv cfg.quorums r) (V : Voting cfg r env.dst s)
    (hled : LedMsg r env) (hsnap : ∀ {req}, env.body = .snapReq req → s.NoWriters req)
    (hrec : s.Receives me env ef) : Exact ef.node := by
  have hidle (hl : s.role = .leader) (hrole : ef.node.role ≠ .leader) :
      ef.node.writeWaiters = [] := by
    rcases hrec.deposed hl with hl' | hw | ⟨req, hb, hle, hw⟩
    · exact (hrole hl').elim
    · exact hw
    · exact hw.trans (hsnap hb hle hl)
  refine h.step (hrec.serves (n := env.dst)) hidle fun hl e hold => ?_
  -- nobody else writes to the log of a leader
  cases hrec.outcome with
  | quiet _ hret =>
    obtain ⟨t, hret⟩ := hret
    rw [(hret.leader hl).2]
    exact hold
  | vote _ hmeet =>
    rw [← (hmeet.retreats.leader hl).2] at hold
    exact ⟨hold.le, hold.cache, hold.engine⟩
  | @append _ _ _ _ req s₁ s' _ _ hmeet _ _ hs =>
    have hrole : s'.role = s₁.role := by rw [hs, followCommit_eq]
    exact (V.meets_ne_leader B hled.2.1 hled.1 hmeet (hrole ▸ hl)).elim
  | install _ _ hrole _ hs =>
    rw [hs] at hl
    exact absurd (hrole.symm.trans hl) (by decide)

end Exact

end Node

/-! ## Runs -/

theorem Shadow.exact (h : Shadow cfg ok tr c r)
    (hok : ∀ {c a}, ok c a → OnSnapshot Node.NoWriters c a) (n : NodeID) : (c.node n).Exact := by
  induction h with
  | init => exact ⟨fun _ => rfl, nofun⟩
  | @step tr c r a c' evs hsh hoka hs ih =>
    obtain ⟨B, V⟩ := hsh.voting
    cases Cluster.step_changes hs n with
    | same heq => rw [heq]; exact ih
    | act _ _ hacts heq => rw [heq]; exact ih.act hacts
    | receive ha henv hdst hrec heq =>
      subst ha hdst
      rw [heq]
      exact ih.receive B (V.node _) (hsh.led.msg _ (List.mem_of_getElem? henv))
        ((hok hoka).of_deliver henv) hrec

theorem Run.applied_index (h : Run cfg ok tr c) (hev : Event.applied n i e w ∈ tr) :
    e.index = i := by
  induction h with
  | init => cases hev
  | step _ _ hs ih =>
    rcases List.mem_append.mp hev with hev | hev
    · exact ih hev
    · obtain ⟨m, b, -, -, -, -, j, stop, -, -, -, hg, -⟩ := Cluster.step_causes hs hev
      exact PersistentLog.get_index hg

/-- The call of `Propose` that an event is about, and the entry it has for it. -/
def Event.call? : Event → Option (NodeID × CallID × Entry)
  | .applied n _ e (some call) => some (n, call, e)
  | .proposeOk n call e => some (n, call, e)
  | _ => none

/-- The call is of an earlier process, or its entry is `e`. -/
def Node.Knows (s : Node) (call : CallID) (e : Entry) : Prop :=
  call.1 ≤ s.epoch ∧ (call.1 = s.epoch → s.called call.2 = some e)

theorem Node.Serves.knows {s s' : Node} (hs : s.Serves n s' evs) (h : s.Knows call e) :
    s'.Knows call e := by
  cases hs with
  | serve hep _ hent => rw [Knows, hep, called, hent]; exact h
  | propose _ _ _ hep _ hp =>
    refine ⟨hep ▸ h.1, fun heq => ?_⟩
    have hc := h.2 (heq.trans hep)
    rw [called, hp, List.map_append]
    exact (List.getElem?_append_left (List.getElem?_eq_some_iff.mp hc).1).trans hc
  | restart hep =>
    have hle := h.1
    exact ⟨by omega, fun heq => by omega⟩

/-- The entries that the trace has for a call are one. -/
structure Named (tr : List Event) (c : Cluster) : Prop where
  knows : ∀ {ev n call e}, ev ∈ tr → ev.call? = some (n, call, e) → (c.node n).Knows call e
  agree : ∀ {ev ev' n call e e'}, ev ∈ tr → ev' ∈ tr → ev.call? = some (n, call, e) →
    ev'.call? = some (n, call, e') → e = e'

section
variable {cfg : Config} {ok : Cluster → Action → Prop}
  (hok : ∀ {c a}, ok c a → OnSnapshot Node.NoWriters c a)
include hok

/-- What is read at the index of a waiting call is its entry. -/
theorem Run.eq_of_get (h : Run cfg ok tr c) (hw : (i, k) ∈ (c.node n).writeWaiters)
    (he : (c.node n).called k = some e) (hg : (c.node n).log.get i = .ok e') : e = e' := by
  obtain ⟨r, h⟩ := h.shadow
  obtain ⟨x, hx, rfl, hold⟩ := (h.exact hok n).held hw
  rw [he] at hx
  cases hx
  exact (hold.get hg).symm

/-- An event of a call of the present process has the entry of the call. -/
theorem Run.event_call (h : Run cfg ok tr c) (hs : c.step cfg a = some (c', evs)) (hev : ev ∈ evs)
    (hcall : ev.call? = some (n, call, e)) :
    call.1 = (c.node n).epoch ∧ (c.node n).called call.2 = some e := by
  obtain ⟨m, b, -, -, hcause⟩ := Cluster.step_causes hs hev
  cases ev with
  | applied n' i e' w =>
    obtain ⟨rfl, rfl, j, stop, -, -, -, hg, -⟩ := hcause
    rw [cfg.member_id] at hcall
    unfold Node.woken at hcall
    cases hfind : (c.node m).writeWaiters.find? fun w => w.1 = i with
    | none => rw [hfind] at hcall; cases hcall
    | some w =>
      rw [hfind] at hcall
      cases hcall
      have hi : w.1 = i := by simpa using List.find?_some hfind
      subst hi
      have hmem := List.mem_of_find?_eq_some hfind
      obtain ⟨r, hsh⟩ := h.shadow
      obtain ⟨x, hx, -, -⟩ := (hsh.exact hok _).held hmem
      exact ⟨rfl, h.eq_of_get hok hmem hx hg ▸ hx⟩
  | proposeOk n' call' e' =>
    obtain ⟨rfl, hep, p, hp, -, rfl⟩ := hcause
    cases hcall
    rw [cfg.member_id]
    exact ⟨hep, Node.called_eq hp⟩
  | elected | committed | readInvoked | readOk => cases hcall

theorem Run.named (h : Run cfg ok tr c) : Named tr c := by
  induction h with
  | init => exact ⟨nofun, nofun⟩
  | @step tr c a c' evs h hoka hs ih =>
    have hnew {ev n call e} (hev : ev ∈ evs) (hcall : ev.call? = some (n, call, e)) :=
      h.event_call hok hs hev hcall
    refine ⟨fun hev hcall => (Cluster.step_serves hs _).knows ?_, fun hev hev' h₁ h₂ => ?_⟩
    · rcases List.mem_append.mp hev with hev | hev
      · exact ih.knows hev hcall
      · exact ⟨(hnew hev hcall).1.le, fun _ => (hnew hev hcall).2⟩
    · rcases List.mem_append.mp hev with hev | hev <;>
        rcases List.mem_append.mp hev' with hev' | hev'
      · exact ih.agree hev hev' h₁ h₂
      · have hk := (ih.knows hev h₁).2 (hnew hev' h₂).1
        exact Option.some.inj (hk.symm.trans (hnew hev' h₂).2)
      · have hk := (ih.knows hev' h₂).2 (hnew hev h₁).1
        exact Option.some.inj ((hnew hev h₁).2.symm.trans hk)
      · exact Option.some.inj ((hnew hev h₁).2.symm.trans (hnew hev' h₂).2)

end

/-- No snapshot deposes a leader that calls wait on, and the step keeps state machine safety. -/
def AcksOwn (c : Cluster) (a : Action) : Prop := Sound c a ∧ OnSnapshot Node.NoWriters c a

instance : Decidable (AcksOwn c a) := inferInstanceAs (Decidable (_ ∧ _))

/-- **Acknowledgements are sound**, in runs in which no snapshot deposes a leader that calls wait
on and state machine safety holds: a call of `Propose` that returned `nil` was told so when its own
entry was applied, no other entry was ever applied for it, and its node applied no other entry at
that index. -/
theorem propose_applied (h : Run cfg AcksOwn tr c) (hp : .proposeOk n call e ∈ tr) :
    .applied n e.index e (some call) ∈ tr ∧
      (∀ i e', .applied n i e' (some call) ∈ tr → i = e.index ∧ e' = e) ∧
      ∀ e' w, .applied n e.index e' w ∈ tr → e' = e := by
  obtain ⟨e', rfl, hap⟩ := h.proposeOk (R := Eq) (fun h => h.eq_of_get And.right) hp
  refine ⟨hap, fun i e' hap' => ?_, fun e' w hap' => h.applied_eq And.left hap' hap⟩
  have he : e' = e := (h.named And.right).agree hap' hap rfl rfl
  exact ⟨he ▸ (h.applied_index hap').symm, he⟩

/-- `n1` proposes, commits with `n2`, applies and returns. -/
theorem propose_applied_trio : ∃ tr c e, Run (trio 0) AcksOwn tr c ∧
    .proposeOk "n1" (0, 0) e ∈ tr ∧ .applied "n1" e.index e (some (0, 0)) ∈ tr ∧
      (∀ i e', .applied "n1" i e' (some (0, 0)) ∈ tr → i = e.index ∧ e' = e) ∧
      ∀ e' w, .applied "n1" e.index e' w ∈ tr → e' = e := by
  have hx : Cluster.init.Reaches (trio 0) AcksOwn []
      (electBy "n1" 0 ++
        ([.drop 0, .act "n1" (.propose .put "k" [] ""), .act "n1" (.replicate "n2"), .deliver 0,
          .deliver 0, .act "n1" .tryAdvanceCommitIndex, .act "n1" .applyBegin,
          .act "n1" .applyNext, .act "n1" .applyNext, .act "n1" (.proposeReturn 0)] : List Action))
      fun _ tr => Event.proposeOk "n1" (0, 0) ⟨2, 1, .put, "k", [], ""⟩ ∈ tr := by
    decide +kernel
  obtain ⟨c, tr, h, hp⟩ := hx.run
  exact ⟨tr, c, _, h, hp, propose_applied h hp⟩

/-- A snapshot from `n2`, leader of term 2, deposes `n1` but leaves its call of `Propose` waiting
for index 2. The call is told `nil` when `n1` applies what `n2` has proposed there. -/
theorem propose_applied_fails : ∃ tr c e e', Run (trio 1) unrestricted tr c ∧
    .proposeOk "n1" (0, 0) e ∈ tr ∧ .applied "n1" e.index e' (some (0, 0)) ∈ tr ∧ e' ≠ e := by
  have hx : Cluster.init.Reaches (trio 1) unrestricted []
      (electBy "n1" 0 ++ ([.drop 0, .act "n1" (.propose .put "k" [1] "")] : List Action) ++
        ([.act "n2" .startElection, .act "n2" .requestVotes, .drop 0, .deliver 0, .deliver 0,
          .act "n2" .concludeElection, .act "n2" (.replicate "n3"), .deliver 0, .deliver 0,
          .act "n2" .tryAdvanceCommitIndex, .act "n2" .applyBegin, .act "n2" .applyNext,
          .act "n2" (.replicate "n1"), .deliver 0, .deliver 0,
          .act "n2" (.propose .put "k" [2] ""), .act "n2" (.replicate "n1"), .deliver 0,
          .deliver 0, .act "n2" .tryAdvanceCommitIndex, .act "n2" (.replicate "n1"), .deliver 0,
          .act "n1" .applyBegin, .act "n1" .applyNext, .act "n1" (.proposeReturn 0)] : List Action))
      fun _ tr => Event.proposeOk "n1" (0, 0) ⟨2, 1, .put, "k", [1], ""⟩ ∈ tr ∧
        Event.applied "n1" 2 ⟨2, 2, .put, "k", [2], ""⟩ (some (0, 0)) ∈ tr := by
    decide +kernel
  obtain ⟨c, tr, h, hp, hap⟩ := hx.run
  exact ⟨tr, c, _, _, h, hp, hap, by decide⟩

end DistributedKV.Raft
