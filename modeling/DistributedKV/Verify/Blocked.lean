import DistributedKV.Verify.Waiters

/-!
# Blocked clients

A call of `Propose` that has not been answered is registered under its index, which has not been
applied, on a leader; and a read waits for an index that has not been applied. Whoever wakes them
must not pass them by: `HandleInstallSnapshot` does (`NoWriters`, `SkipsNoRead`), and calls share
their index with calls before them (`CallsApart`).
-/

namespace DistributedKV.Raft

/-! ## Blocked calls -/

/-- The call `k` of `Propose` waits for an answer about the entry at `i`. -/
def Blocked (ps : List Proposal) (k i : ℕ) : Prop :=
  ∃ p, ps[k]? = some p ∧ p.waitCh = none ∧ p.result = none ∧ p.entry.index = i

namespace Blocked

variable {ps : List Proposal}

theorem of_modify {f : Proposal → Proposal} (h : Blocked (ps.modify j f) k i)
    (hw : ∀ p, (f p).waitCh ≠ none ∨ (f p).result ≠ none) : Blocked ps k i ∧ k ≠ j := by
  obtain ⟨p', hp', hwait, hres, hi⟩ := h
  rw [List.getElem?_modify, Option.map_eq_map, Option.map_eq_some_iff] at hp'
  obtain ⟨p, hp, rfl⟩ := hp'
  split at hwait
  · next heq =>
    rw [if_pos heq] at hres
    exact ((hw p).elim (· hwait) (· hres)).elim
  · next hne =>
    rw [if_neg hne] at hres hi
    exact ⟨⟨p, hp, hwait, hres, hi⟩, Ne.symm hne⟩

theorem of_set (h : Blocked (ps.set j p') k i) (hp' : p'.waitCh ≠ none ∨ p'.result ≠ none) :
    Blocked ps k i := by
  obtain ⟨p, hp, hwait, hres, hi⟩ := h
  rw [List.getElem?_set] at hp
  split at hp
  · split at hp <;> cases hp
    exact (hp'.elim (· hwait) (· hres)).elim
  · exact ⟨p, hp, hwait, hres, hi⟩

theorem of_append (h : Blocked (ps ++ [p]) k i) :
    Blocked ps k i ∨ k = ps.length ∧ p.entry.index = i := by
  obtain ⟨p', hp, hwait, hres, hi⟩ := h
  rw [List.getElem?_append] at hp
  split at hp
  · exact .inl ⟨p', hp, hwait, hres, hi⟩
  · next hlt =>
    rw [List.getElem?_singleton] at hp
    split at hp <;> cases hp
    exact .inr ⟨by omega, hi⟩

/-- A call that is blocked after all waiting ones were dropped did not wait. -/
theorem of_dropped (ws : List (ℕ × ℕ))
    (h : Blocked (ws.foldl (fun ps w => Node.sendResult ps w.2 (some .proposalDropped)) ps) k i) :
    Blocked ps k i ∧ ∀ w ∈ ws, w.2 ≠ k := by
  induction ws generalizing ps with
  | nil => exact ⟨h, nofun⟩
  | cons w ws ih =>
    obtain ⟨h, hws⟩ := ih h
    obtain ⟨h, hk⟩ := h.of_modify fun _ => .inl nofun
    exact ⟨h, List.forall_mem_cons.mpr ⟨hk.symm, hws⟩⟩

end Blocked

/-! ## The invariant -/

namespace Node

variable {me : Member} {s s' : Node}

/-- Nobody waits in vain. -/
structure Attended (s : Node) : Prop where
  registered : ∀ {k i}, Blocked s.proposals k i → (i, k) ∈ s.writeWaiters ∧ s.role = .leader
  unique : ∀ w ∈ s.writeWaiters, ∀ w' ∈ s.writeWaiters, w.1 = w'.1 → w = w'
  unapplied : ∀ w ∈ s.writeWaiters, s.lastApplied < w.1
  ahead : ∀ w ∈ s.writeWaiters, ∀ x ∈ s.applying, x.1 < w.1
  reads : ∀ pr ∈ s.pendingReads, s.lastApplied < pr.readIndex

/-- The calls of `s'` are those of `s`, or they were all failed. -/
def SameCalls (s s' : Node) : Prop :=
  s'.proposals = s.proposals ∧ s'.writeWaiters = s.writeWaiters ∨
    s'.proposals = s.failStaleWritersLocked.proposals ∧ s'.writeWaiters = []

namespace Attended

/-- A step that answers no single call, and leaves waiting calls to leaders only. -/
theorem step (h : Attended s) (hcalls : s.SameCalls s')
    (hlead : s.role = .leader → s'.role = .leader ∨ s'.writeWaiters = [])
    (hidx : s'.writeWaiters = [] ∨ s'.lastApplied = s.lastApplied)
    (happ : ∀ x ∈ s'.applying, x ∈ s.applying ∨ x.1 = s.lastApplied)
    (hreads : ∀ pr ∈ s'.pendingReads, s'.lastApplied < pr.readIndex) : Attended s' := by
  have hsub : ∀ w ∈ s'.writeWaiters, w ∈ s.writeWaiters := by
    rcases hcalls with ⟨-, hw⟩ | ⟨-, hw⟩ <;> rw [hw]
    · exact fun w hw => hw
    · nofun
  refine ⟨fun {k i} hb => ?_, fun w hw w' hw' => h.unique w (hsub w hw) w' (hsub w' hw'),
    fun w hw => ?_, fun w hw x hx => ?_, hreads⟩
  · rcases hcalls with ⟨hp, hw⟩ | ⟨hp, -⟩
    · rw [hp] at hb
      obtain ⟨hmem, hl⟩ := h.registered hb
      rw [← hw] at hmem
      refine ⟨hmem, (hlead hl).resolve_right fun hnil => ?_⟩
      rw [hnil] at hmem
      cases hmem
    · rw [hp] at hb
      obtain ⟨hb, hnone⟩ := hb.of_dropped
      exact (hnone _ (h.registered hb).1 rfl).elim
  · rcases hidx with hnil | hla
    · rw [hnil] at hw
      cases hw
    · exact hla ▸ h.unapplied w (hsub w hw)
  · rcases happ x hx with hx | hx
    · exact h.ahead w (hsub w hw) x hx
    · exact hx ▸ h.unapplied w (hsub w hw)

/-- The calls are as they were. -/
theorem same (h : Attended s) (hp : s'.proposals = s.proposals)
    (hw : s'.writeWaiters = s.writeWaiters) (hlead : s.role = .leader → s'.role = .leader)
    (hla : s'.lastApplied = s.lastApplied) (happ : s'.applying = s.applying)
    (hreads : ∀ pr ∈ s'.pendingReads, s'.lastApplied < pr.readIndex) : Attended s' :=
  h.step (.inl ⟨hp, hw⟩) (fun hl => .inl (hlead hl)) (.inr hla) (fun _ hx => .inl (happ ▸ hx))
    hreads

/-- The entry after `i` is applied, and the call that waits for it is told. -/
theorem applyOne (h : Attended s) (happ : s.applying = some (i, stop)) :
    Attended (s.applyOne me (i + 1) stop e) := by
  obtain ⟨-, hrole, hw, hp, -, hpr⟩ := applyOne_calls me s (i + 1) stop e
  obtain ⟨hla, -, happ', -⟩ := applyOne_spec me s (i + 1) stop e
  -- what waits beyond the loop and not for this entry waits beyond this entry
  have hrest : ∀ w ∈ (s.applyOne me (i + 1) stop e).writeWaiters,
      w ∈ s.writeWaiters ∧ i + 1 < w.1 := by
    intro w hmem
    have hmem : w ∈ s.writeWaiters ∧ w.1 ≠ i + 1 := by
      rw [hw, notifyWritersLocked] at hmem
      split at hmem
      · simpa using hmem
      · next hnone => exact ⟨hmem, by simpa using List.find?_eq_none.mp hnone w hmem⟩
    have := h.ahead w hmem.1 _ happ
    exact ⟨hmem.1, by omega⟩
  refine ⟨fun {k j} hb => ?_, fun w hw w' hw' => h.unique w (hrest w hw).1 w' (hrest w' hw').1,
    fun w hw => by rw [hla]; exact (hrest w hw).2, fun w hw x hx => ?_, fun pr hmem => ?_⟩
  · rw [hrole, hw]
    rw [hp, notifyWritersLocked] at hb
    rw [notifyWritersLocked]
    split at hb
    · next w hfind =>
      obtain ⟨hb, hk⟩ := hb.of_modify fun _ => .inl nofun
      obtain ⟨hmem, hl⟩ := h.registered hb
      have hw : w.1 = i + 1 := by simpa using List.find?_some hfind
      refine ⟨?_, hl⟩
      simp only [List.mem_filter, decide_eq_true_eq]
      refine ⟨hmem, fun hj => hk ?_⟩
      rw [h.unique w (List.mem_of_find?_eq_some hfind) (j, k) hmem (hw.trans hj.symm)]
    · exact h.registered hb
  · rw [happ'] at hx
    cases hx
    exact (hrest w hw).2
  · rw [hpr, List.mem_filter] at hmem
    rw [hla]
    simpa using hmem.2

end Attended

/-- What the activities of a node must not do to waiting calls: `Propose` appends above everything
that was applied, and a call that gives up deletes no other call's channel. -/
def CallsApart (s : Node) : Activity → Prop
  | .propose .. => s.lastApplied ≤ s.log.lastIndex ∧ ∀ x ∈ s.applying, x.1 ≤ s.log.lastIndex
  | .proposeCancel call => ∀ p ∈ s.proposals[call]?, ∀ w ∈ s.writeWaiters,
      w.1 = p.entry.index → w.2 = call
  | _ => True

instance : Decidable (CallsApart s a) := by
  unfold CallsApart
  split <;> infer_instance

/-- `HandleInstallSnapshot` does not apply what a read waits for. -/
def SkipsNoRead (s : Node) (req : InstallSnapshotRequest) : Prop :=
  s.installs req = true → ∀ pr ∈ s.pendingReads, req.lastIncludedIndex < pr.readIndex

instance : Decidable (SkipsNoRead s req) := inferInstanceAs (Decidable (_ → _))

/-- `Propose` registers its call above everything that waits. -/
theorem Attended.propose (h : Attended s) (hx : s.Exact)
    (hlast : s.lastApplied ≤ s.log.lastIndex ∧ ∀ x ∈ s.applying, x.1 ≤ s.log.lastIndex)
    (hs : s.propose type key value clientRequestID = .ok s') : Attended s' := by
  obtain ⟨hl, rfl⟩ := propose_ok hs
  -- the entries of the calls that wait are in the log
  have hbelow : ∀ w ∈ s.writeWaiters, w.1 ≤ s.log.lastIndex := by
    intro w hw
    obtain ⟨e, -, hi, hold⟩ := hx.held (i := w.1) (k := w.2) hw
    exact hi ▸ hold.le
  have hkeep : (s.writeWaiters.filter fun w => w.1 ≠ s.log.lastIndex + 1) = s.writeWaiters := by
    rw [List.filter_eq_self]
    intro w hw
    have := hbelow w hw
    simp only [decide_eq_true_eq]
    omega
  simp only [hkeep]
  refine ⟨fun {k i} hb => ⟨?_, hl⟩, fun w hw w' hw' hi => ?_,
    List.forall_mem_cons.mpr ⟨Nat.lt_succ_of_le hlast.1, h.unapplied⟩,
    List.forall_mem_cons.mpr ⟨fun x hx => Nat.lt_succ_of_le (hlast.2 x hx), h.ahead⟩, h.reads⟩
  · rcases hb.of_append with hb | ⟨rfl, rfl⟩
    · exact List.mem_cons_of_mem _ (h.registered hb).1
    · exact List.mem_cons_self
  · rcases List.mem_cons.mp hw with rfl | hw <;> rcases List.mem_cons.mp hw' with rfl | hw'
    · rfl
    · have := hbelow w' hw'
      dsimp only at hi
      omega
    · have := hbelow w hw
      dsimp only at hi
      omega
    · exact h.unique w hw w' hw' hi

theorem Attended.proposeCancel (h : Attended s) (hok : s.CallsApart (.proposeCancel call))
    (hp : s.proposals[call]? = some p) : Attended (s.proposeCancel call p) := by
  have hsub : ∀ w ∈ s.writeWaiters.filter fun w => w.1 ≠ p.entry.index, w ∈ s.writeWaiters :=
    fun w hw => List.mem_of_mem_filter hw
  refine ⟨fun {k i} hb => ?_, fun w hw w' hw' => h.unique w (hsub w hw) w' (hsub w' hw'),
    fun w hw => h.unapplied w (hsub w hw), fun w hw => h.ahead w (hsub w hw), h.reads⟩
  obtain ⟨hb, hk⟩ := hb.of_modify fun _ => .inr fun hw => by cases hw
  obtain ⟨hmem, hl⟩ := h.registered hb
  refine ⟨List.mem_filter.mpr ⟨hmem, ?_⟩, hl⟩
  simp only [decide_eq_true_eq]
  exact fun hi => hk (hok p hp _ hmem hi)

theorem Attended.act (h : Attended s) (hx : s.Exact) (hok : s.CallsApart a)
    (ha : s.Acts me a ef) : Attended ef.node := by
  cases ha with
  | startElection hrole => exact h.same rfl rfl (fun hl => (hrole hl).elim) rfl rfl h.reads
  | lead _ _ _ hs => rw [hs]; exact h.same rfl rfl (fun _ => rfl) rfl rfl h.reads
  | propose hs => exact h.propose hx hok hs
  | proposeReturn =>
    refine ⟨fun hb => h.registered (hb.of_set (.inr ?_)), h.unique, h.unapplied, h.ahead, h.reads⟩
    rintro ⟨⟩
  | proposeCancel hp => exact h.proposeCancel hok hp
  | tryAdvanceCommitIndex =>
    rw [advance, tryAdvanceCommitIndex_eq]
    exact h.same rfl rfl id rfl rfl h.reads
  | linearizableRead hs =>
    obtain ⟨-, rfl⟩ := linearizableRead_ok hs
    exact h.same rfl rfl id rfl rfl h.reads
  | waitForApplied =>
    unfold Node.waitForApplied
    split
    · exact h.same rfl rfl id rfl rfl h.reads
    · next hlt =>
      refine h.same rfl rfl id rfl rfl fun pr hpr => ?_
      rcases List.mem_append.mp hpr with hpr | hpr
      · exact h.reads pr hpr
      · cases List.mem_singleton.mp hpr
        exact not_le.mp hlt
  | readCancel =>
    exact h.same rfl rfl id rfl rfl fun pr hpr => h.reads pr (List.mem_of_mem_filter hpr)
  | applyBegin =>
    exact h.step (.inl ⟨rfl, rfl⟩) .inl (.inr rfl) (fun x hx => by cases hx; exact .inr rfl) h.reads
  | applyNext hap =>
    unfold Node.applyNext
    split
    · exact h.step (.inl ⟨rfl, rfl⟩) .inl (.inr rfl) (fun x hx => by cases hx) h.reads
    · split
      · exact h.step (.inl ⟨rfl, rfl⟩) .inl (.inr rfl) (fun x hx => by cases hx) h.reads
      · exact h.applyOne hap
  | restart =>
    refine ⟨fun hb => ?_, List.forall_mem_nil _, List.forall_mem_nil _, List.forall_mem_nil _,
      List.forall_mem_nil _⟩
    obtain ⟨p, hp, -⟩ := hb
    cases hp
  | ask | dissolve | replicate | sendSnapshot | heartbeat | readReturn =>
    exact h.same rfl rfl id rfl rfl h.reads

theorem Attended.meets (h : Attended s) (hm : s.Meets s₁ t)
    (hlead : s.role = .leader → s₁.role = .leader ∨ s₁.writeWaiters = []) : Attended s₁ := by
  refine h.step hm.calls hlead (.inr ?_) (fun x hx => .inl ?_) ?_
  · rw [hm.eq]
  · rw [hm.eq] at hx
    exact hx
  · rw [hm.eq]
    exact h.reads

theorem Attended.receive (h : Attended s) (hx : s.Exact)
    (hok : ∀ {req}, env.body = .snapReq req → s.NoWriters req ∧ s.SkipsNoRead req)
    (hrec : s.Receives me env ef) : Attended ef.node := by
  cases hrec.hears with
  | @voteReq req _ heq =>
    rw [heq]
    rcases lt_or_ge req.term s.log.currentTerm with hst | hle
    · rw [handleRequestVote_stale hst]
      exact h
    · obtain ⟨s₁, hm, hw, hs | ⟨-, -, hs⟩⟩ := handleRequestVote_spec hle <;> rw [hs]
      · exact h.meets hm hw
      · have h₁ := h.meets hm hw
        exact h₁.same rfl rfl id rfl rfl h₁.reads
  | @appendReq _ req _ heq =>
    rw [heq]
    rcases lt_or_ge req.term s.log.currentTerm with hst | hle
    · rw [handleAppendEntries_stale hst]
      exact h
    · obtain ⟨s₁, hm, -, hw, ⟨resp, -, -, hs⟩ | ⟨-, hs⟩⟩ := handleAppendEntries_spec hle <;> rw [hs]
      · exact h.meets hm hw
      · have h₁ := h.meets hm hw
        rw [followCommit_eq]
        exact h₁.same rfl rfl id rfl rfl h₁.reads
  | @snapReq req hb heq =>
    rw [heq]
    rcases lt_or_ge req.term s.log.currentTerm with hst | hle
    · rw [handleInstallSnapshot_stale hst]
      exact h
    · obtain ⟨hno, hskip⟩ := hok hb
      have hnil : s.writeWaiters = [] := by
        by_cases hl : s.role = .leader
        · exact hno hle hl
        · exact hx.idle hl
      obtain ⟨s₁, hm, -, hw, hs⟩ := handleInstallSnapshot_spec hle
      have hnil₁ := hw.trans hnil
      have h₁ := h.meets hm fun _ => .inr hnil₁
      rcases hs with ⟨-, hs⟩ | ⟨snap, hyes, -, hs⟩ <;> rw [hs]
      · exact h₁
      · refine h₁.step (.inl ⟨rfl, rfl⟩) (fun _ => .inr hnil₁) (.inl hnil₁) (fun _ => .inl) ?_
        rw [hm.eq]
        exact hskip hyes
  | @follow t heq =>
    have hcalls : s.SameCalls (s.becomeFollower t "" "") :=
      (s.becomeFollower_calls t "" "").imp And.right And.right
    rw [becomeFollower_eq] at heq
    rw [heq]
    exact h.step hcalls (fun hl => .inr (becomeFollower_writeWaiters hl ..)) (.inr rfl)
      (fun _ => .inl) h.reads
  | note heq => rw [heq]; exact h.same rfl rfl id rfl rfl h.reads

end Node

/-! ## Runs -/

/-- No step passes a waiting call by. -/
def Unstranded (c : Cluster) (a : Action) : Prop :=
  OnSnapshot Node.NoWriters c a ∧ OnSnapshot Node.SkipsNoRead c a ∧
    match a with
    | .act n b => (c.node n).CallsApart b
    | _ => True

instance : Decidable (Unstranded c a) := by
  unfold Unstranded
  cases a <;> infer_instance

theorem Run.attended (h : Run cfg Unstranded tr c) (n : NodeID) : (c.node n).Attended := by
  induction h with
  | init =>
    refine ⟨fun hb => ?_, nofun, nofun, nofun, nofun⟩
    obtain ⟨p, hp, -⟩ := hb
    cases hp
  | step h hok hs ih =>
    obtain ⟨r, hsh⟩ := h.shadow
    have hx := hsh.exact (fun hok => hok.1) n
    cases Cluster.step_changes hs n with
    | same heq => rw [heq]; exact ih
    | act ha _ hacts heq =>
      subst ha
      rw [heq]
      exact ih.act hx hok.2.2 hacts
    | receive ha henv hdst hrec heq =>
      subst ha hdst
      rw [heq]
      exact ih.receive hx
        (fun hb => ⟨hok.1.of_deliver henv hb, hok.2.1.of_deliver henv hb⟩) hrec

/-- **No client is stranded.** A call of `Propose` that is blocked is registered under its index,
which has not been applied, on a leader; and a pending read waits for an index that has not been
applied. -/
theorem no_stranded_client (h : Run cfg Unstranded tr c) (n : NodeID) :
    (∀ k p, (c.node n).proposals[k]? = some p → p.waitCh = none → p.result = none →
      (c.node n).writeWaiters.find? (fun w => w.1 = p.entry.index) = some (p.entry.index, k) ∧
        (c.node n).lastApplied < p.entry.index ∧ (c.node n).role = .leader) ∧
    ∀ pr ∈ (c.node n).pendingReads, (c.node n).lastApplied < pr.readIndex := by
  have hat := h.attended n
  refine ⟨fun k p hp hwait hres => ?_, hat.reads⟩
  obtain ⟨hmem, hl⟩ := hat.registered ⟨p, hp, hwait, hres, rfl⟩
  refine ⟨?_, hat.unapplied _ hmem, hl⟩
  cases hfind : (c.node n).writeWaiters.find? fun w => w.1 = p.entry.index with
  | none => exact (by simpa using List.find?_eq_none.mp hfind _ hmem)
  | some w =>
    have hi : w.1 = p.entry.index := by simpa using List.find?_some hfind
    rw [hat.unique w (List.mem_of_find?_eq_some hfind) _ hmem hi]

/-- A call of `Propose` waits on the leader of three. -/
theorem no_stranded_client_waiting : ∃ tr c p, Run (trio 0) Unstranded tr c ∧
    (c.node "n1").proposals[0]? = some p ∧ p.waitCh = none ∧ p.result = none ∧
    (c.node "n1").writeWaiters.find? (fun w => w.1 = p.entry.index) = some (p.entry.index, 0) := by
  have hx : Cluster.init.Reaches (trio 0) Unstranded []
      (electBy "n1" 0 ++ ([.act "n1" (.propose .put "k" [1] "")] : List Action))
      fun c _ => ∃ p ∈ (c.node "n1").proposals[0]?, p.waitCh = none ∧ p.result = none := by
    decide +kernel
  obtain ⟨c, tr, h, p, hp, hwait, hres⟩ := hx.run
  exact ⟨tr, c, p, h, hp, hwait, hres, ((no_stranded_client h "n1").1 0 p hp hwait hres).1⟩

/-- `n2` takes over with a snapshot while a call waits on `n1`, which becomes a follower without
failing the call. -/
theorem no_stranded_client_fails : ∃ tr c p, Run (trio 1) unrestricted tr c ∧
    (c.node "n1").proposals[0]? = some p ∧ p.waitCh = none ∧ p.result = none ∧
    (c.node "n1").role ≠ .leader := by
  have hx : Cluster.init.Reaches (trio 1) unrestricted []
      (electBy "n1" 0 ++ ([.drop 0, .act "n1" (.propose .put "k" [1] ""),
        .act "n2" .startElection, .act "n2" .requestVotes, .drop 0, .deliver 0, .deliver 0,
        .act "n2" .concludeElection, .act "n2" (.replicate "n3"), .deliver 0, .deliver 0,
        .act "n2" .tryAdvanceCommitIndex, .act "n2" .applyBegin, .act "n2" .applyNext,
        .act "n2" (.replicate "n1"), .deliver 0] : List Action))
      fun c _ => ∃ p ∈ (c.node "n1").proposals[0]?, p.waitCh = none ∧ p.result = none ∧
        (c.node "n1").role ≠ .leader := by
    decide +kernel
  obtain ⟨c, tr, h, p, hp⟩ := hx.run
  exact ⟨tr, c, p, h, hp⟩

end DistributedKV.Raft
