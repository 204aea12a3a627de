import DistributedKV.Verify.CatchUp
import DistributedKV.Verify.Contents
import DistributedKV.Verify.Electable

/-!
# Failover

While a majority is up, writes can be answered, whatever has happened to the others: a member that a
majority is not ahead of takes over, brings the logs of that majority to its own, commits the write,
applies it and returns from `Propose` (`failover`). The members that are down take no part in this.

The runs before are those of `contents_executed`. What they guarantee is used at one point, when the
new leader has appended the write: its log has all that a peer has compacted away, so the search of
`Verify.CatchUp` ends.
-/

namespace DistributedKV.Raft

variable {cfg : Config} {down : List NodeID} {c c' : Cluster} {n p : NodeID}

/-! ## Rounds of replication -/

/-- `n` and `p` have become the ends of `x`, and the other nodes are as they were. -/
structure Linked (n p : NodeID) (x : Link) (c c' : Cluster) : Prop where
  leader : c'.node n = x.leader
  follower : c'.node p = x.follower
  other : ∀ q, q ≠ n → q ≠ p → c'.node q = c.node q

/-- A call is made, handled and answered. -/
theorem canReach_call {l f : Node} {resp : Body} (req : Body) (hn : n ∈ cfg.ids) (hup : n ∉ down)
    (hpn : p ≠ n) (hpup : p ∉ down)
    (ha : (c.node n).act (cfg.member n) (.replicate p) =
      some ⟨c.node n, [⟨n, p, (c.node n).epoch, req⟩], []⟩)
    (hreq : (c.node p).receive (cfg.member p) ⟨n, p, (c.node n).epoch, req⟩ =
      ⟨f, [⟨p, n, (c.node n).epoch, resp⟩], []⟩)
    (hresp : (c.node n).receive (cfg.member n) ⟨p, n, (c.node n).epoch, resp⟩ = ⟨l, [], []⟩) :
    CanReach cfg (Spares down) (Linked n p ⟨l, f⟩ c) c := by
  refine .act hn rfl ha (by simp [Spares, hup]) ?_
  have hnet : (c.after n ⟨c.node n, [⟨n, p, (c.node n).epoch, req⟩], []⟩ c.network).network =
      c.network ++ ⟨n, p, (c.node n).epoch, req⟩ :: [] := rfl
  refine .deliver hnet (by simp [Spares, hnet, hpup]) ?_
  rw [Cluster.after_node_of_ne hpn, hreq]
  refine .deliver rfl (by simp [Spares, Cluster.after, hup]) (.done ⟨?_, ?_, fun q hq hqp => ?_⟩)
  · rw [Cluster.after_node_self, Cluster.after_node_of_ne hpn.symm, Cluster.after_node_self, hresp]
  · rw [Cluster.after_node_of_ne hpn, Cluster.after_node_self]
  · rw [Cluster.after_node_of_ne hq, Cluster.after_node_of_ne hqp, Cluster.after_node_of_ne hq]

/-- A round of `replicateToPeer` can take place. -/
theorem canReach_round (hn : n ∈ cfg.ids) (hup : n ∉ down) (hp : p ∈ (cfg.member n).peers)
    (hpup : p ∉ down) : CanReach cfg (Spares down)
      (Linked n p (Link.round (cfg.member n) p ⟨c.node n, c.node p⟩).1 c) c := by
  have hpn : p ≠ n := ((cfg.mem_peers n p).mp hp).2
  cases hsend : (c.node n).replicateToPeer (cfg.member n) p (c.node n).log.currentTerm with
  | none => exact .done ⟨by simp [Link.round, hsend], by simp [Link.round, hsend], fun _ _ _ => rfl⟩
  | some out =>
    cases out with
    | appendEntries req =>
      simp only [Link.round, hsend]
      exact canReach_call (.appendReq .replicate req) hn hup hpn hpup
        (by simp [Node.act, hp, Node.replicate, hsend, cfg.member_id]) rfl (by simp [Node.receive])
    | installSnapshot req =>
      simp only [Link.round, hsend]
      exact canReach_call (.snapReq req) hn hup hpn hpup
        (by simp [Node.act, hp, Node.replicate, hsend, cfg.member_id]) rfl (by simp [Node.receive])

theorem canReach_rounds (hn : n ∈ cfg.ids) (hup : n ∉ down) (hp : p ∈ (cfg.member n).peers)
    (hpup : p ∉ down) (k : ℕ) : CanReach cfg (Spares down)
      (Linked n p (Theory.rounds (Link.round (cfg.member n) p) k ⟨c.node n, c.node p⟩).1 c) c := by
  induction k generalizing c with
  | zero => exact .done ⟨rfl, rfl, fun _ _ _ => rfl⟩
  | succ k ih =>
    refine (canReach_round hn hup hp hpup).bind fun c₁ h₁ => ih.bind fun c₂ h₂ => .done ?_
    rw [h₁.leader, h₁.follower] at h₂
    exact ⟨h₂.leader, h₂.follower, fun q hq hqp => (h₂.other q hq hqp).trans (h₁.other q hq hqp)⟩

/-! ## What the leader keeps -/

namespace Node

variable {s s' s'' : Node}

/-- Only what the leader knows about `p` has changed. -/
structure Learns (p : NodeID) (s s' : Node) : Prop where
  eq : s' = { s with nextIndex := s'.nextIndex, matchIndex := s'.matchIndex }
  other : ∀ q ≠ p, s'.nextIndex q = s.nextIndex q ∧ s'.matchIndex q = s.matchIndex q

theorem Learns.trans (h : s.Learns p s') (h' : s'.Learns p s'') : s.Learns p s'' where
  eq := by rw [h'.eq, h.eq]
  other q hq := ⟨(h'.other q hq).1.trans (h.other q hq).1, (h'.other q hq).2.trans (h.other q hq).2⟩

theorem replicated_learns (s : Node) (p : NodeID) (req : AppendEntriesRequest)
    {resp : AppendEntriesResponse} (hterm : resp.term ≤ req.term) :
    s.Learns p (s.replicated p req resp) := by
  have heq := replicated_eq s p req resp
  rw [if_neg hterm.not_gt] at heq
  refine ⟨by rw [heq], fun q hq => ⟨?_, ?_⟩⟩
  · unfold replicated
    rw [if_neg hterm.not_gt]
    split
    · rfl
    · split
      · split <;> simp [hq]
      · split
        · simp [hq]
        · split
          · simp [hq]
          · split <;> simp [hq]
  · rw [heq]
    exact if_neg fun h => hq h.2.2.2

theorem snapshotInstalled_learns (s : Node) (p : NodeID) (req : InstallSnapshotRequest)
    {resp : InstallSnapshotResponse} (hterm : resp.term ≤ req.term) :
    s.Learns p (s.snapshotInstalled p req resp) := by
  unfold snapshotInstalled
  rw [if_neg hterm.not_gt]
  split
  · exact ⟨rfl, fun q hq => ⟨if_neg hq, if_neg hq⟩⟩
  · exact ⟨rfl, fun _ _ => ⟨rfl, rfl⟩⟩

/-- A follower stays in the term that it shares with the leader. -/
theorem handleAppendEntries_shared (hterm : s.log.currentTerm = req.term) :
    (s.handleAppendEntries req).2.term = req.term ∧
      (s.handleAppendEntries req).1.log.currentTerm = req.term := by
  cases href : refusal s.log req with
  | some resp =>
    obtain ⟨s', hh, hlog, -⟩ := handleAppendEntries_refused hterm href
    rw [hh]
    exact ⟨(refusal_some href).2, by rw [hlog, hterm]⟩
  | none =>
    obtain ⟨s', hh, hlog, -⟩ := handleAppendEntries_accepted hterm href
    rw [hh, hlog, (PersistentLog.SameBallot.appendEntries true ..).currentTerm]
    exact ⟨rfl, hterm⟩

theorem handleInstallSnapshot_shared (hterm : s.log.currentTerm = req.term) :
    (s.handleInstallSnapshot req).2.term = req.term ∧
      (s.handleInstallSnapshot req).1.log.currentTerm = req.term := by
  obtain ⟨s₁, hm, -, -, ⟨-, hs⟩ | ⟨snap, -, -, hs⟩⟩ := handleInstallSnapshot_spec hterm.le
  · rw [hs]
    exact ⟨rfl, hm.currentTerm hterm.le⟩
  · rw [hs]
    refine ⟨rfl, ?_⟩
    rw [(PersistentLog.SameBallot.restoreSnapshotBoundary true ..).currentTerm]
    exact hm.currentTerm hterm.le

end Node

namespace Link

variable {x : Link}

theorem round_learns (me : Member) (p : NodeID)
    (h : x.follower.log.currentTerm = x.leader.log.currentTerm) :
    x.leader.Learns p (x.round me p).1.leader ∧
      (x.round me p).1.follower.log.currentTerm = x.leader.log.currentTerm := by
  unfold round
  split
  · exact ⟨⟨rfl, fun _ _ => ⟨rfl, rfl⟩⟩, h⟩
  · next req hsend =>
    have hreq : Node.Sends .. := Node.replicateToPeer_spec hsend
    obtain ⟨hresp, hterm⟩ := Node.handleAppendEntries_shared (h.trans hreq.term.symm)
    exact ⟨Node.replicated_learns _ _ _ hresp.le, hterm.trans hreq.term⟩
  · next req hsend =>
    have hreq : Node.SendsSnapshot .. := Node.replicateToPeer_spec hsend
    obtain ⟨hresp, hterm⟩ := Node.handleInstallSnapshot_shared (h.trans hreq.term.symm)
    exact ⟨Node.snapshotInstalled_learns _ _ _ hresp.le, hterm.trans hreq.term⟩

theorem rounds_learns (me : Member) (p : NodeID)
    (h : x.follower.log.currentTerm = x.leader.log.currentTerm) (k : ℕ) :
    x.leader.Learns p (Theory.rounds (round me p) k x).1.leader := by
  induction k generalizing x with
  | zero => exact ⟨rfl, fun _ _ => ⟨rfl, rfl⟩⟩
  | succ k ih =>
    obtain ⟨hl, hterm⟩ := round_learns me p h
    refine hl.trans (ih (hterm.trans ?_))
    rw [hl.eq]

end Link

/-! ## A majority catches up -/

/-- The search for what `p` has of the log of its leader `n` is under way. -/
def Behind (n p : NodeID) (c : Cluster) : Prop :=
  ∃ common ltail ftail b, Forks (c.node n).log common ltail ftail ∧
    Link.Searching p (c.node n).log common ftail b ⟨c.node n, c.node p⟩

/-- The leader has brought `ps` to its log, and is otherwise as it was. -/
structure Matched (n : NodeID) (ps : List NodeID) (c c' : Cluster) : Prop where
  eq : c'.node n = { c.node n with
    nextIndex := (c'.node n).nextIndex, matchIndex := (c'.node n).matchIndex }
  matched : ∀ p ∈ ps, (c'.node n).matchIndex p = (c.node n).log.lastIndex
  other : ∀ p ∉ ps, (c'.node n).matchIndex p = (c.node n).matchIndex p

namespace Behind

/-- What is done about another peer does not matter. -/
theorem frame (h : Behind n p c) (hl : (c.node n).Learns q (c'.node n)) (hq : p ≠ q)
    (hp : c'.node p = c.node p) : Behind n p c' := by
  obtain ⟨common, ltail, ftail, b, hf, hs⟩ := h
  have hlog : (c'.node n).log = (c.node n).log := by rw [hl.eq]
  have hnext := (hl.other p hq).1
  refine ⟨common, ltail, ftail, b, hlog ▸ hf, ?_⟩
  rw [hlog, hp]
  refine ⟨⟨?_, hlog, fun h0 => ?_, hs.term⟩, hs.follower, hs.covered, hs.stored', ?_, ?_⟩
  · show (c'.node n).role = .leader
    rw [hl.eq]
    exact hs.role
  · show ∃ snap, (c'.node n).snapStore = _
    rw [hl.eq]
    exact hs.stored h0
  · show _ < (c'.node n).nextIndex p ∧ _
    rw [hnext]
    exact hs.next
  · show (if _ < (c'.node n).nextIndex p then 1 else 0) + _ ≤ b
    rw [hnext]
    exact hs.budget

theorem caughtUp (h : Behind n p c) (hn : n ∈ cfg.ids) (hup : n ∉ down)
    (hp : p ∈ (cfg.member n).peers) (hpup : p ∉ down) :
    CanReach cfg (Spares down) (fun c' => (c.node n).Learns p (c'.node n) ∧
      (c'.node n).matchIndex p = (c.node n).log.lastIndex ∧
      ∀ q, q ≠ n → q ≠ p → c'.node q = c.node q) c := by
  obtain ⟨common, ltail, ftail, b, hf, hs⟩ := h
  refine (canReach_rounds hn hup hp hpup (b + (c.node n).log.lastIndex + 2)).bind
    fun c' hc' => .done ?_
  obtain ⟨hsync, hnext⟩ := hs.caughtUp (cfg.member n) hf le_rfl
  have hmatch := hsync.matched
  rw [← hc'.leader] at hnext hmatch
  exact ⟨hc'.leader ▸ Link.rounds_learns _ p hs.term _, by omega, hc'.other⟩

/-- The leader brings one peer after the other to its log. -/
theorem matched {ps : List NodeID} (hn : n ∈ cfg.ids) (hup : n ∉ down)
    (hps : ps ⊆ (cfg.member n).peers) (hpsup : ∀ p ∈ ps, p ∉ down) (hnodup : ps.Nodup)
    (h : ∀ p ∈ ps, Behind n p c) : CanReach cfg (Spares down) (Matched n ps c) c := by
  induction ps generalizing c with
  | nil => exact .done ⟨rfl, by simp, fun _ _ => rfl⟩
  | cons p ps ih =>
    obtain ⟨hp, hps⟩ := List.cons_subset.mp hps
    obtain ⟨hmem, hnodup⟩ := List.nodup_cons.mp hnodup
    refine ((h p List.mem_cons_self).caughtUp hn hup hp (hpsup p List.mem_cons_self)).bind
      fun c₁ ⟨hl, hm, hother⟩ => ?_
    have hlog : (c₁.node n).log = (c.node n).log := by rw [hl.eq]
    refine (ih hps (fun q hq => hpsup q (List.mem_cons_of_mem _ hq)) hnodup fun q hq => ?_).bind
      fun c₂ h₂ => .done ⟨?_, fun q hq => ?_, fun q hq => ?_⟩
    · have hqp : q ≠ p := fun heq => hmem (heq ▸ hq)
      have hqn : q ≠ n := ((cfg.mem_peers n q).mp (hps hq)).2
      exact (h q (List.mem_cons_of_mem _ hq)).frame hl hqp (hother q hqn hqp)
    · rw [h₂.eq, hl.eq]
    · rcases List.mem_cons.mp hq with rfl | hq
      · rw [h₂.other _ hmem, hm]
      · rw [h₂.matched q hq, hlog]
    · obtain ⟨hqp, hq⟩ : q ≠ p ∧ q ∉ ps := by simpa using hq
      rw [h₂.other q hq, (hl.other q hqp).2]

end Behind

/-! ## Committing and applying -/

namespace Node

variable {me : Member} {s : Node} {l : List Entry} {e : Entry} {call : ℕ}

/-- Once a majority has the log of the leader, it is committed as a whole. -/
theorem tryAdvanceCommitIndex_whole (hrole : s.role = .leader)
    (hmaj : me.needed ≤ 1 + me.peers.countP fun p => decide (s.matchIndex p = s.log.lastIndex))
    (hmatch : ∀ p ∈ me.peers, s.matchIndex p ≤ s.log.lastIndex)
    (hlt : s.commitIndex < s.log.lastIndex)
    (hterm : s.log.termAt s.log.lastIndex = some s.log.currentTerm) :
    s.tryAdvanceCommitIndex me s.log.currentTerm = { s with commitIndex := s.log.lastIndex } := by
  have hmed : s.majorityIndex me = s.log.lastIndex := by
    refine le_antisymm (majorityIndex_le hmatch) ((le_majorityIndex_iff me s _).mpr ?_)
    refine hmaj.trans ?_
    rw [matchIndexes, List.countP_cons_of_pos (by simp), List.countP_map, Nat.add_comm]
    refine Nat.add_le_add_right (List.countP_mono_left fun p _ hp => ?_) 1
    simpa using (of_decide_eq_true hp).ge
  simp [tryAdvanceCommitIndex, hrole, hmed, hlt.not_ge, hterm]

/-- The leader has appended the write `e` of a call of `Propose`, which waits, to the entries
`l`. -/
structure Pending (l : List Entry) (e : Entry) (call : ℕ) (s : Node) : Prop
    extends s.Indices where
  role : s.role = .leader
  rep : Rep s.log (l ++ [e])
  waiter : (l.length + 1, call) ∈ s.writeWaiters
  unique : ∀ w ∈ s.writeWaiters, w.1 = l.length + 1 → w.2 = call
  proposal : ∃ p, s.proposals[call]? = some p ∧ p.entry = e ∧ p.result = none

/-- The write is committed, and will be applied. -/
structure Awaits (l : List Entry) (e : Entry) (call : ℕ) (s : Node) : Prop
    extends s.Pending l e call where
  committed : s.commitIndex = l.length + 1
  unapplied : s.lastApplied ≤ l.length

/-- The write has been applied, and its call has been sent nil. -/
structure Applied (e : Entry) (call : ℕ) (s : Node) : Prop where
  role : s.role = .leader
  contents : ∃ sm, s.sm = applyEntry sm e
  proposal : ∃ p, s.proposals[call]? = some p ∧ p.entry = e ∧ p.result = none ∧
    p.waitCh = some none

/-- A call that an applied entry may be the one of stays as it is, up to its channel. -/
theorem notifyWritersLocked_proposals {p : Proposal} (i : ℕ)
    (hp : s.proposals[call]? = some p) :
    ∃ p', (s.notifyWritersLocked i).proposals[call]? = some p' ∧ p'.entry = p.entry ∧
      p'.result = p.result ∧
      (∀ w, s.writeWaiters.find? (fun w => w.1 = i) = some w → w.2 = call →
        p'.waitCh = some none) := by
  unfold notifyWritersLocked
  split
  · next w hw =>
    by_cases hcall : w.2 = call
    · refine ⟨{ p with waitCh := some none }, ?_, rfl, rfl, fun _ _ _ => rfl⟩
      simp [sendResult, hcall, hp]
    · refine ⟨p, ?_, rfl, rfl, fun w' hw' hcall' => ?_⟩
      · simp [sendResult, hcall, hp]
      · rw [hw] at hw'
        cases hw'
        exact (hcall hcall').elim
  · next hnone => exact ⟨p, hp, rfl, rfl, fun w hw => by rw [hnone] at hw; cases hw⟩

theorem mem_notifyWritersLocked {w : ℕ × ℕ} (i : ℕ) :
    (w ∈ (s.notifyWritersLocked i).writeWaiters → w ∈ s.writeWaiters) ∧
      (w ∈ s.writeWaiters → w.1 ≠ i → w ∈ (s.notifyWritersLocked i).writeWaiters) := by
  unfold notifyWritersLocked
  split
  · exact ⟨List.mem_of_mem_filter, fun hw hi => List.mem_filter.mpr ⟨hw, by simpa using hi⟩⟩
  · exact ⟨id, fun hw _ => hw⟩

namespace Awaits

/-- Something is left to do: 0 if the apply loop goes on from `lastApplied`, 1 if none is running,
2 if there is one that will end first. -/
def rank (l : List Entry) (s : Node) : ℕ :=
  3 * (l.length + 1 - s.lastApplied) +
    match s.applying with
    | none => 1
    | some (i, stop) => if i = s.lastApplied ∧ i < stop then 0 else 2

/-- An entry is applied. -/
theorem applyOne (h : s.Awaits l e call) (hap : s.applying = some (i, stop)) (hlt : i < stop)
    (hg : s.log.get (i + 1) = .ok x) (ha : s.act me .applyNext = some ef)
    (hef : ef.node = s.applyOne me (i + 1) stop x) :
    Applied e call ef.node ∨ ef.node.Awaits l e call ∧ rank l ef.node < rank l s := by
  obtain rfl := h.eq_of_get hap hlt hg
  have hx := h.rep.get_ok hg
  have hidx : ef.node.Indices := h.toIndices.act (act_inv ha).moves
  obtain ⟨hla, hc, hap', hstore⟩ := applyOne_spec me s (s.lastApplied + 1) stop x
  obtain ⟨-, hrole, hw, hps, -, -⟩ := applyOne_calls me s (s.lastApplied + 1) stop x
  obtain ⟨p, hp, he, hr⟩ := h.proposal
  obtain ⟨p', hp', he', hr', hsent⟩ := notifyWritersLocked_proposals (s.lastApplied + 1) hp
  rw [← hef] at hla hc hap' hstore hrole hw hps
  rcases h.unapplied.eq_or_lt with hlast | hlast
  · -- the write itself
    left
    rw [hlast, List.getElem?_concat_length] at hx
    cases hx
    refine ⟨hrole.trans h.role, ⟨_, hef ▸ (applyOne_contents ..).1⟩, p', hps ▸ hp', he'.trans he,
      hr'.trans hr, ?_⟩
    rw [hlast] at hsent
    cases hfind : s.writeWaiters.find? (fun w => w.1 = l.length + 1) with
    | none =>
      have := List.find?_eq_none.mp hfind _ h.waiter
      simp at this
    | some w =>
      have hw1 : w.1 = l.length + 1 := by simpa using List.find?_some hfind
      exact hsent w hfind (h.unique w (List.mem_of_find?_eq_some hfind) hw1)
  · right
    have hrep : Rep ef.node.log (l ++ [e]) := by
      rcases hstore with ⟨hlog, -⟩ | ⟨snap, t, -, ht, hlog, -⟩
      · rw [hlog]
        exact h.rep
      · rw [hlog]
        exact h.rep.compactPrefix (h.boundary.le.trans h.snapApplied) ht
    refine ⟨⟨⟨hidx, hrole.trans h.role, hrep, ?_, ?_, p', hps ▸ hp', he'.trans he, hr'.trans hr⟩,
      hc.trans h.committed, by omega⟩, ?_⟩
    · rw [hw]
      exact (mem_notifyWritersLocked _).2 h.waiter (by dsimp only; omega)
    · rw [hw]
      exact fun w hmem => h.unique w ((mem_notifyWritersLocked _).1 hmem)
    · unfold rank
      rw [hap', hla, hap]
      dsimp only
      split <;> omega

/-- The apply loop ends. -/
theorem halt (h : s.Awaits l e call) (hap : s.applying = some (i, stop))
    (hne : ¬(i = s.lastApplied ∧ i < stop)) :
    { s with applying := none : Node }.Awaits l e call ∧
      rank l { s with applying := none : Node } < rank l s := by
  have hidx : { s with applying := none : Node }.Indices :=
    ⟨⟨h.snap, h.applied, by simp⟩, h.log, h.boundary, h.snapApplied, h.commit, by simp⟩
  refine ⟨⟨⟨hidx, h.role, h.rep, h.waiter, h.unique, h.proposal⟩, h.committed, h.unapplied⟩, ?_⟩
  unfold rank
  simp [hap, hne]

/-- The apply loop has a step that takes it further. -/
theorem step (h : s.Awaits l e call) (me : Member) : ∃ a ef, s.act me a = some ef ∧
    (a = .applyBegin ∨ a = .applyNext) ∧
    (Applied e call ef.node ∨ ef.node.Awaits l e call ∧ rank l ef.node < rank l s) := by
  cases hap : s.applying with
  | none =>
    have ha : s.act me .applyBegin = some { node := s.applyBegin } := by simp [act, hap]
    refine ⟨.applyBegin, _, ha, .inl rfl, .inr ⟨?_, ?_⟩⟩
    · exact ⟨⟨h.toIndices.act (act_inv ha).moves, h.role, h.rep, h.waiter, h.unique, h.proposal⟩,
        h.committed, h.unapplied⟩
    · have := h.unapplied
      have := h.committed
      unfold rank
      simp only [hap, applyBegin]
      rw [if_pos ⟨trivial, by omega⟩]
      omega
  | some ap =>
    obtain ⟨i, stop⟩ := ap
    have ha : s.act me .applyNext = some (s.applyNext me i stop) := by simp only [act, hap]
    refine ⟨.applyNext, _, ha, .inr rfl, ?_⟩
    by_cases hle : stop ≤ i
    · rw [applyNext, if_pos hle]
      exact .inr (h.halt hap fun h => by omega)
    cases hg : s.log.get (i + 1) with
    | error _ =>
      rw [applyNext, if_neg hle, hg]
      refine .inr (h.halt hap fun hnext => ?_)
      -- what is next to be applied can be read
      obtain ⟨hi, -⟩ := hnext
      obtain ⟨x, hx⟩ : ∃ x, (l ++ [e])[i]? = some x := by
        have := h.unapplied
        exact ⟨_, List.getElem?_eq_getElem (by simp; omega)⟩
      rw [h.rep.get_of (hi ▸ h.boundary.le.trans h.snapApplied) hx] at hg
      cases hg
    | ok x => exact h.applyOne hap (by omega) hg ha (by simp [applyNext, hle, hg])

end Awaits

end Node

/-- The apply loop reaches the write. -/
theorem canReach_applied (hn : n ∈ cfg.ids) (hup : n ∉ down)
    (h : (c.node n).Awaits l e call) :
    CanReach cfg (Spares down) (fun c' => (c'.node n).Applied e call) c := by
  induction hk : Node.Awaits.rank l (c.node n) using Nat.strong_induction_on generalizing c with
  | _ k ih =>
    obtain ⟨a, ef, ha, hact, hnext⟩ := h.step (cfg.member n)
    have hok : Spares down c (.act n a) := by
      rcases hact with rfl | rfl <;> simp [Spares, hup]
    refine .act hn rfl ha hok ?_
    rcases hnext with happ | ⟨hw, hlt⟩
    · exact .done (by rwa [Cluster.after_node_self])
    · refine ih _ (hk ▸ hlt) (by rwa [Cluster.after_node_self]) (by rw [Cluster.after_node_self])

/-- `Propose` returns nil for `e`, which is what has been applied last. -/
theorem canReach_returned (hn : n ∈ cfg.ids) (hup : n ∉ down) (h : (c.node n).Applied e call) :
    CanReach cfg (Spares down) (fun c' => (c'.node n).role = .leader ∧
      (∃ sm, (c'.node n).sm = Node.applyEntry sm e) ∧
      ∃ p, (c'.node n).proposals[call]? = some p ∧ p.entry = e ∧ p.result = some none) c := by
  obtain ⟨p, hp, he, hr, hw⟩ := h.proposal
  obtain ⟨evs, ha⟩ : ∃ evs, (c.node n).act (cfg.member n) (.proposeReturn call) = some {
      node := { c.node n with
        proposals := (c.node n).proposals.set call { p with result := some none } }
      events := evs } :=
    ⟨_, by simp only [Node.act, hp, Node.proposeReturn, hr, hw]; rfl⟩
  refine .act hn rfl ha (by simp [Spares, hup]) (.done ?_)
  rw [Cluster.after_node_self]
  have hlt := (List.getElem?_eq_some_iff.mp hp).1
  exact ⟨h.role, h.contents, { p with result := some none }, by simp [hlt], he, rfl⟩

/-! ## Taking over -/

/-- No request is delivered, and no heartbeat is built. -/
theorem Canvass.steady (h : Canvass down c a) : Steady c a := by
  cases a with
  | act m a =>
    refine ⟨⟨⟨.act, .act⟩, .act, fun x hx => ?_⟩, .act⟩
    obtain rfl | rfl | rfl | rfl := h.2 <;> cases hx
  | deliver k =>
    have hnone (env : Envelope) (henv : env ∈ c.network[k]?) :
        env.append? = none ∧ env.snap? = none := by
      have hvote := h.2 env henv
      obtain ⟨src, dst, ep, body⟩ := env
      obtain ⟨req, rfl⟩ | ⟨req, resp, rfl⟩ := hvote <;> exact ⟨rfl, rfl⟩
    have happ {P : Node → AppendEntriesRequest → Prop} : OnAppend P c (.deliver k) := by
      intro x hx
      obtain ⟨env, henv, hx⟩ := Option.bind_eq_some_iff.mp hx
      rw [(hnone env henv).1] at hx
      cases hx
    have hsnap {P : Node → InstallSnapshotRequest → Prop} : OnSnapshot P c (.deliver k) := by
      intro x hx
      obtain ⟨env, henv, hx⟩ := Option.bind_eq_some_iff.mp hx
      rw [(hnone env henv).2] at hx
      cases hx
    exact ⟨⟨⟨happ, hsnap⟩, happ, fun x hx => by cases hx⟩, happ⟩
  | drop k => exact h.1.elim

section
variable {r : Abs} (h : Shadow cfg Steady tr c r)
include h

/-- What a peer of the leader's term has compacted away is in the log of the leader. -/
theorem Shadow.compacted_prefix (hrole : (c.node n).role = .leader)
    (hterm : (c.node p).log.currentTerm = (c.node n).log.currentTerm) :
    (r.log p).take (c.node p).log.lastIncludedIndex <+: r.log n := by
  have hsound {c a} (h : Steady c a) : Sound c a := h.1
  have hloss {c a} (h : Steady c a) := lossless_of_sound hsound h
  obtain ⟨L, -, G⟩ := h.logged (checksBoundary_of_lossless hloss)
  have I := h.indices_of_sound hsound (fun h => h.2) p
  have S : Theory.Settled r _ _ _ := ((h.safe hsound).node p).of_le (I.boundary.le.trans I.snap)
  rw [(G.node n).leader hrole, ← hterm]
  exact S.prefix_llog L (h.backing hloss).1 (hterm ▸ h.leads_of_leader hrole)

end

/-- A prefix that two logs share ends before they part. -/
theorem le_length_of_apart {common ltail ftail : List Entry} (hk : k ≤ (common ++ ftail).length)
    (hpre : (common ++ ftail).take k <+: common ++ ltail)
    (hapart : ∀ e ∈ ltail, ∀ e' ∈ ftail, e.term ≠ e'.term) : k ≤ common.length := by
  by_contra hlt
  rw [List.length_append] at hk
  obtain ⟨e, he⟩ : ∃ e, ftail[0]? = some e := ⟨_, List.getElem?_eq_getElem (by omega)⟩
  have hf : ((common ++ ftail).take k)[common.length]? = some e := by
    rw [List.getElem?_take_of_lt (by omega), List.getElem?_append_right le_rfl, Nat.sub_self, he]
  have hl := getElem?_of_isPrefix hpre hf
  rw [List.getElem?_append_right le_rfl, Nat.sub_self] at hl
  exact hapart e (List.mem_of_getElem? hl) e (List.mem_of_getElem? he) rfl

/-- A leader can look for what a peer of its term has of its log. -/
theorem Run.behind (h : Run cfg Steady tr c) (hrole : (c.node n).role = .leader)
    (hterm : (c.node p).log.currentTerm = (c.node n).log.currentTerm)
    (hlo : (c.node p).log.lastIncludedIndex < (c.node n).nextIndex p)
    (hhi : (c.node n).nextIndex p ≤ (c.node n).log.lastIndex) : Behind n p c := by
  obtain ⟨r, h⟩ := h.shadow
  have hloss {c a} (h : Steady c a) := lossless_of_sound (fun {_ _} h => And.left h) h
  obtain ⟨L, -, G⟩ := h.logged (checksBoundary_of_lossless hloss)
  have hpre := h.compacted_prefix hrole hterm
  obtain ⟨common, ltail, ftail, hl, hf, hapart⟩ := (L.log n).parted (L.log p)
  have hasc := Ascending.of_logInv L n
  have hasc' := Ascending.of_logInv L p
  have hrep := (G.node n).rep
  have hrep' := (G.node p).rep
  have hle := hrep'.length ▸ hrep'.le
  rw [hl] at hasc hrep
  rw [hf] at hasc' hrep' hle
  rw [hl, hf] at hpre
  refine ⟨common, ltail, ftail, _, ⟨hrep, hasc.1, hasc'.1, hasc'.2, hapart⟩,
    ⟨hrole, rfl, fun h0 => ?_, hterm⟩, hrep', le_length_of_apart hle hpre hapart, fun st hst => ?_,
    ⟨hlo, hhi⟩, le_rfl⟩
  · obtain ⟨-, h0'⟩ | ⟨-, hsnap⟩ := (G.node n).store
    · exact (h0 h0').elim
    · exact hsnap
  · obtain ⟨hnone, -⟩ | ⟨-, snap, hsnap⟩ := (G.node p).store
    · rw [Option.mem_def, hnone] at hst
      cases hst
    · rw [Option.mem_def, hsnap] at hst
      cases hst
      exact le_rfl

/-- What a peer has compacted away is older than the first entry of the new leader. -/
theorem Elected.boundary_lt (he : Elected cfg down n c c') (h : Run cfg Steady tr c)
    (h' : Run cfg Steady tr' c') (hp : p ∈ (cfg.member n).peers) (hpup : p ∉ down) :
    (c'.node p).log.lastIncludedIndex < (c'.node n).log.lastIndex := by
  obtain ⟨r, h⟩ := h.shadow
  obtain ⟨r', h'⟩ := h'.shadow
  have hloss {c a} (h : Steady c a) := lossless_of_sound (fun {_ _} h => And.left h) h
  obtain ⟨L, -, G⟩ := h.logged (checksBoundary_of_lossless hloss)
  obtain ⟨-, -, G'⟩ := h'.logged (checksBoundary_of_lossless hloss)
  obtain ⟨hnew, v, hlog⟩ := he.joined p hp hpup
  have hterm : (c'.node p).log.currentTerm = (c'.node n).log.currentTerm := by rw [hlog]; rfl
  have hpre := h'.compacted_prefix he.role hterm
  have hnoop := he.rep (G.node n).rep
  have hlast := hnoop.lastTerm.symm.trans (G'.node n).rep.lastTerm
  have hlen := (G'.node n).rep.length
  have hlen' := hnoop.length
  rw [List.length_append, List.length_singleton] at hlen'
  by_contra hge
  -- otherwise the boundary stands for the entry of the new term
  obtain ⟨i, hi⟩ : ∃ i, (c'.node p).log.lastIncludedIndex = i + 1 :=
    ⟨(c'.node p).log.lastIncludedIndex - 1, by omega⟩
  obtain ⟨e, he', het⟩ := (G'.node p).rep.term hi
  have hmem : (r'.log n)[i]? = some e :=
    getElem?_of_isPrefix hpre (by rw [List.getElem?_take_of_lt (by omega), he'])
  have hieq : (r'.log n).length - 1 = i := by
    have := (List.getElem?_eq_some_iff.mp hmem).1
    omega
  simp only [Theory.lastTerm, List.getLast?_concat, Option.elim_some] at hlast
  rw [List.getLast?_eq_getElem?, hieq, hmem, Option.elim_some, het, hlog] at hlast
  rw [hlog] at hi
  -- but the peer had it before it got into the term
  obtain ⟨e₀, he₀, het₀⟩ := (G.node p).rep.term hi
  have hbound := (L.log p).bound e₀ (List.mem_of_getElem? he₀)
  rw [(h.voting.2.node p).term, het₀] at hbound
  exact absurd (hnew.trans_le hlast.le) hbound.not_gt

/-- The leader of a new term has accepted the write, and its peers are to be told. -/
structure Proposed (cfg : Config) (down : List NodeID) (n : NodeID) (l : List Entry) (e : Entry)
    (call : ℕ) (c : Cluster) : Prop where
  pending : (c.node n).Pending l e call
  term : e.term = (c.node n).log.currentTerm
  uncommitted : (c.node n).commitIndex ≤ l.length
  matched : ∀ p ∈ (cfg.member n).peers, (c.node n).matchIndex p = 0
  behind : ∀ p ∈ (cfg.member n).peers, p ∉ down → Behind n p c

theorem Elected.proposed (he : Elected cfg down n c c') (h : Run cfg Steady tr c)
    (h' : Run cfg Steady tr' c') (hn : n ∈ cfg.ids) (hup : n ∉ down) (type : EntryType)
    (key : String) (value : Value) (clientRequestID : String) :
    CanReach cfg (Spares down) (fun c'' => ∃ l e, e.type = type ∧ e.key = key ∧ e.value = value ∧
      Proposed cfg down n l e (c.node n).proposals.length c'') c' := by
  obtain ⟨e, hedef⟩ : ∃ e, e = (c'.node n).proposal type key value clientRequestID := ⟨_, rfl⟩
  obtain ⟨s, hs⟩ : ∃ s : Node, s = { c'.node n with
      log := ((c'.node n).log.appendEntries true [e]).1
      proposals := (c'.node n).proposals ++ [{ entry := e }]
      writeWaiters := ((c'.node n).log.lastIndex + 1, (c'.node n).proposals.length) ::
        (c'.node n).writeWaiters.filter fun w => w.1 ≠ (c'.node n).log.lastIndex + 1 } := ⟨_, rfl⟩
  have ha : (c'.node n).act (cfg.member n) (.propose type key value clientRequestID) =
      some { node := s } := by
    simp [Node.act, Node.propose, he.role, hs, hedef, Node.proposal]
  refine .act hn rfl ha (by simp [Spares, hup]) (.done ?_)
  have h'' : Run cfg Steady tr' (c'.after n { node := s } c'.network) := by
    have hstep : c'.step cfg (.act n (.propose type key value clientRequestID)) =
        some (c'.after n { node := s } c'.network, []) := by
      simp only [Cluster.step, if_pos hn, ha]
    rw [← List.append_nil tr']
    exact h'.step ⟨⟨⟨.act, .act⟩, .act, fun x hx => by cases hx⟩, .act⟩ hstep
  obtain ⟨r, hsh⟩ := h'.shadow
  have hloss {c a} (h : Steady c a) := lossless_of_sound (fun {_ _} h => And.left h) h
  obtain ⟨-, -, G⟩ := hsh.logged (checksBoundary_of_lossless hloss)
  have I := hsh.indices_of_sound (fun {_ _} h => And.left h) (fun h => h.2) n
  have hrep := (G.node n).rep
  have hlast : s.log.lastIndex = (c'.node n).log.lastIndex + 1 := by
    rw [hs, hedef]
    exact PersistentLog.appendEntries_lastIndex ..
  have hterm : s.log.currentTerm = (c'.node n).log.currentTerm := by
    rw [hs]
    exact (PersistentLog.SameBallot.appendEntries ..).currentTerm
  have hidx : s.Indices := I.act (Node.act_inv ha).moves
  refine ⟨r.log n, e, by rw [hedef]; rfl, by rw [hedef]; rfl, by rw [hedef]; rfl, ?_, ?_, ?_,
    fun p hp => ?_, fun p hp hpup => ?_⟩
  · rw [Cluster.after_node_self]
    refine ⟨hidx, by rw [hs]; exact he.role, ?_, ?_, ?_, { entry := e }, ?_, rfl, rfl⟩
    · rw [hs]
      exact hrep.snoc (by rw [hedef]; rfl)
    · rw [hs, hrep.length, ← he.proposals]
      exact List.mem_cons_self
    · rw [hs, hrep.length, ← he.proposals]
      intro w hw hi
      rcases List.mem_cons.mp hw with rfl | hw
      · rfl
      · exact absurd hi (by simpa using (List.mem_filter.mp hw).2)
    · rw [hs, ← he.proposals]
      exact List.getElem?_concat_length
  · rw [Cluster.after_node_self, hterm, hedef]
    rfl
  · rw [Cluster.after_node_self, hrep.length, hs]
    exact I.commit
  · rw [Cluster.after_node_self, hs]
    exact he.matched p hp
  · have hne := ((cfg.mem_peers n p).mp hp).2
    have hjoin : (c'.node p).log.currentTerm = (c'.node n).log.currentTerm := by
      obtain ⟨-, v, hlog⟩ := he.joined p hp hpup
      rw [hlog]
      rfl
    have hnext : s.nextIndex p = (c'.node n).log.lastIndex := by rw [hs]; exact he.next p hp
    refine h''.behind ?_ ?_ ?_ ?_
    · rw [Cluster.after_node_self, hs]
      exact he.role
    · rw [Cluster.after_node_of_ne hne, Cluster.after_node_self, hterm, hjoin]
    · rw [Cluster.after_node_of_ne hne, Cluster.after_node_self, hnext]
      exact he.boundary_lt h h' hp hpup
    · rw [Cluster.after_node_self, hnext, hlast]
      exact Nat.le_succ _

/-- A majority can be told. -/
theorem Proposed.awaits (h : Proposed cfg down n l e call c) (hn : n ∈ cfg.ids) (hup : n ∉ down)
    (hmaj : (cfg.member n).needed ≤ 1 + ((cfg.member n).peers.filter (· ∉ down)).length) :
    CanReach cfg (Spares down) (fun c' => (c'.node n).Awaits l e call) c := by
  have hps (p : NodeID) (hp : p ∈ (cfg.member n).peers.filter (· ∉ down)) :
      p ∈ (cfg.member n).peers ∧ p ∉ down := by simpa using hp
  refine (Behind.matched hn hup (List.filter_subset_self ..) (fun p hp => (hps p hp).2)
    ((cfg.peers_nodup n).filter _) fun p hp => h.behind p (hps p hp).1 (hps p hp).2).bind
    fun c₁ h₁ => ?_
  obtain ⟨hpend, hterm, huncom, hmatch, -⟩ := h
  have hlen := hpend.rep.length
  rw [List.length_append, List.length_singleton] at hlen
  have hpend₁ : (c₁.node n).Pending l e call := by
    rw [h₁.eq]
    exact ⟨⟨⟨hpend.snap, hpend.applied, hpend.loop⟩, hpend.log, hpend.boundary, hpend.snapApplied,
      hpend.commit, hpend.stale⟩, hpend.role, hpend.rep, hpend.waiter, hpend.unique,
      hpend.proposal⟩
  have hlog : (c₁.node n).log = (c.node n).log := by rw [h₁.eq]
  have hcommit : (c₁.node n).commitIndex = (c.node n).commitIndex := by rw [h₁.eq]
  have hwhole : (c₁.node n).tryAdvanceCommitIndex (cfg.member n) (c₁.node n).log.currentTerm =
      { c₁.node n with commitIndex := (c₁.node n).log.lastIndex } := by
    refine Node.tryAdvanceCommitIndex_whole hpend₁.role (hmaj.trans ?_) (fun p hp => ?_) ?_ ?_
    · rw [← List.countP_eq_length_filter]
      refine Nat.add_le_add_left (List.countP_mono_left fun p hp hpup => ?_) 1
      rw [hlog]
      exact decide_eq_true (h₁.matched p (List.mem_filter.mpr ⟨hp, hpup⟩))
    · by_cases hpup : p ∈ (cfg.member n).peers.filter (· ∉ down)
      · rw [h₁.matched p hpup, hlog]
      · rw [h₁.other p hpup, hmatch p hp]
        exact Nat.zero_le _
    · rw [hcommit, hlog]
      omega
    · rw [hlog, ← hlen, ← hterm]
      refine hpend.rep.termAt_of ?_ List.getElem?_concat_length
      rw [hlen]
      exact hpend.rep.le
  have ha : (c₁.node n).act (cfg.member n) .tryAdvanceCommitIndex =
      some ((c₁.node n).advance (cfg.member n)) := rfl
  have hidx := hpend₁.toIndices.act (Node.act_inv ha).moves
  refine .act hn rfl ha (by simp [Spares, hup]) (.done ?_)
  rw [Cluster.after_node_self]
  dsimp only [Node.advance] at hidx ⊢
  rw [hwhole] at hidx ⊢
  refine ⟨⟨hidx, hpend₁.role, hpend₁.rep, hpend₁.waiter, hpend₁.unique, hpend₁.proposal⟩, ?_, ?_⟩
  · rw [hlog, hlen]
  · exact hpend₁.applied.trans (hcommit.trans_le huncom)

/-- **Failover.** While a majority is up, a follower that a majority is not ahead of can take over
and answer a write: `Propose` returns nil and the write has been applied, in steps in which the
other members take no part. -/
theorem failover (h : Run cfg Steady tr c) (hn : n ∈ cfg.ids) (hup : n ∉ down)
    (hrole : (c.node n).role = .follower) (hb : Backed cfg down c n) (type : EntryType)
    (hw : type ≠ .noop) (key : String) (value : Value) (clientRequestID : String) :
    ∃ tr' c' p, Continues cfg (Spares down) tr c tr' c' ∧ (c'.node n).role = .leader ∧
      (c'.node n).proposals[(c.node n).proposals.length]? = some p ∧
      p.entry.type = type ∧ p.entry.key = key ∧ p.entry.value = value ∧ p.result = some none ∧
      (c'.node n).sm key = if type = .put then some value else none := by
  have hmaj : (cfg.member n).needed ≤ 1 + ((cfg.member n).peers.filter (· ∉ down)).length := by
    refine hb.trans (Nat.add_le_add_left (List.Sublist.length_le ?_) 1)
    exact List.monotone_filter_right _ fun p hp => (Bool.and_eq_true_iff.mp hp).1
  have hreach : CanReach cfg (Spares down) (fun c' => (c'.node n).role = .leader ∧ ∃ e,
      e.type = type ∧ e.key = key ∧ e.value = value ∧
      (∃ sm, (c'.node n).sm = Node.applyEntry sm e) ∧
      ∃ p, (c'.node n).proposals[(c.node n).proposals.length]? = some p ∧ p.entry = e ∧
        p.result = some none) c := by
    refine (((hb.elected hn hup hrole).run Canvass.steady h).mono And.left).bind
      fun c₁ ⟨he, tr₁, h₁⟩ => ?_
    refine (he.proposed h h₁ hn hup type key value clientRequestID).bind
      fun c₂ ⟨l, e, htype, hkey, hvalue, hprop⟩ => ?_
    refine (hprop.awaits hn hup hmaj).bind fun c₃ hawaits => ?_
    refine (canReach_applied hn hup hawaits).bind fun c₄ happ => ?_
    refine (canReach_returned hn hup happ).bind fun c₅ ⟨hlead, hsm, hret⟩ => ?_
    exact .done ⟨hlead, e, htype, hkey, hvalue, hsm, hret⟩
  obtain ⟨tr', c', hc, hlead, e, rfl, rfl, rfl, ⟨sm, hsm⟩, p, hp, rfl, hr⟩ := hreach.continues tr
  refine ⟨tr', c', p, hc, hlead, hp, rfl, rfl, rfl, hr, ?_⟩
  rw [hsm]
  unfold Node.applyEntry
  cases htype : p.entry.type with
  | noop => exact (hw htype).elim
  | put => simp
  | delete => simp

/-- `n1` has led, `n2` has applied its first entry and compacted its log, and `n3` has heard of
nothing. Without `n1`, `n2` takes over and gives `n3` its snapshot. -/
theorem failover_trio : ∃ tr c, Run (trio 1) Steady tr c ∧ (c.node "n1").role = .leader ∧
    (c.node "n2").log.lastIncludedIndex = 1 ∧ (c.node "n3").log.lastIndex = 0 ∧
    ∃ tr' c' p, Continues (trio 1) (Spares ["n1"]) tr c tr' c' ∧
      (c'.node "n2").role = .leader ∧ (c'.node "n2").proposals[0]? = some p ∧
      p.result = some none ∧ (c'.node "n2").sm "k" = some [7] := by
  have hx : Cluster.init.Reaches (trio 1) Steady []
      (electBy "n1" 0 ++
        ([.drop 0, .act "n1" (.replicate "n2"), .deliver 0, .deliver 0,
          .act "n1" .tryAdvanceCommitIndex, .act "n1" (.replicate "n2"), .deliver 0,
          .act "n2" .applyBegin, .act "n2" .applyNext] : List Action))
      fun c _ => (c.node "n1").role = .leader ∧ (c.node "n2").log.lastIncludedIndex = 1 ∧
        (c.node "n3").log.lastIndex = 0 ∧ (c.node "n2").role = .follower ∧
        Backed (trio 1) ["n1"] c "n2" ∧ (c.node "n2").proposals.length = 0 := by decide +kernel
  obtain ⟨c, tr, h, hlead, hsnap, hlast, hrole, hb, hlen⟩ := hx.run
  obtain ⟨tr', c', p, hc, hlead', hp, -, -, -, hr, hsm⟩ :=
    failover h (by decide) (by decide) hrole hb .put (by decide) "k" [7] ""
  rw [hlen] at hp
  exact ⟨tr, c, h, hlead, hsnap, hlast, tr', c', p, hc, hlead', hp, hr, hsm⟩

end DistributedKV.Raft
