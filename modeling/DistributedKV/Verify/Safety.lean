import DistributedKV.Verify.Durability

/-!
# State machine safety

What a node has committed is a prefix that some leader committed (`Theory.Settled`), and so is
what it applies. Two places of the code can break this, beyond those of `Lossless`:

* a follower commits up to its own last index, also what a request without entries has not been
  checked against (`CommitsMatched`);
* the goroutines of `confirmLeadership` build their heartbeats for the term of the read from
  whatever log and commit index the node has by then (`InOffice`).
-/

namespace DistributedKV.Raft

open Theory (LogInv KeepInv Settled Advances)

/-! ## Conditions -/

/-- An accepted request without entries commits no more than what its consistency check
covers. -/
def Node.CommitsMatched (s : Node) (req : AppendEntriesRequest) : Prop :=
  s.log.currentTerm ≤ req.term → refusal s.log req = none → req.entries = [] →
    min req.leaderCommit s.log.lastIndex ≤ max s.commitIndex req.prevLogIndex

instance : Decidable (Node.CommitsMatched s req) := inferInstanceAs (Decidable (_ → _ → _ → _))

/-- The read that an action sends a heartbeat for. -/
def Action.heartbeat? : Action → Option (NodeID × ℕ)
  | .act n (.heartbeat call _) => some (n, call)
  | _ => none

/-- A heartbeat is built by a node that still leads the term of the read. -/
def InOffice (c : Cluster) (a : Action) : Prop :=
  ∀ x ∈ a.heartbeat?, ∀ rd ∈ (c.node x.1).reads[x.2]?,
    (c.node x.1).role = .leader ∧ (c.node x.1).log.currentTerm = rd.term

instance : Decidable (InOffice c a) :=
  inferInstanceAs (Decidable (∀ x ∈ a.heartbeat?, ∀ rd ∈ (c.node x.1).reads[x.2]?,
    (c.node x.1).role = .leader ∧ (c.node x.1).log.currentTerm = rd.term))

def Sound (c : Cluster) (a : Action) : Prop :=
  Lossless c a ∧ OnAppend Node.CommitsMatched c a ∧ InOffice c a

instance : Decidable (Sound c a) := inferInstanceAs (Decidable (_ ∧ _ ∧ _))

/-! ## The invariant -/

def Safe (r : Abs) (n : NodeID) (s : Node) : Prop :=
  Settled r s.log.currentTerm (r.log n) s.commitIndex

def SafeMsg (r : Abs) (env : Envelope) : Prop :=
  match env.body with
  | .appendReq _ req => Settled r req.term (r.llog req.term) req.leaderCommit ∧
      ∀ {i}, req.prevLogIndex = i + 1 → req.prevLogTerm = 0 ∨
        ∃ e, (r.llog req.term)[i]? = some e ∧ e.term = req.prevLogTerm
  | .snapReq req => Settled r req.term (r.llog req.term) req.lastIncludedIndex
  | _ => True

def safe : LocalInv := ⟨Safe, SafeMsg⟩

theorem SafeMsg.mono (h : SafeMsg r env) (A : Advances r r') : SafeMsg r' env := by
  unfold SafeMsg at h ⊢
  split at h
  · refine ⟨A.settled_llog h.1, fun hi => (h.2 hi).imp_right fun ⟨e, he, ht⟩ => ?_⟩
    exact ⟨e, getElem?_of_isPrefix (A.llog _) he, ht⟩
  · exact A.settled_llog h
  · trivial

/-- The operations of an activity only extend logs. -/
theorem Node.actOps_log (r : Abs) (s : Node) (me : Member) (a : Activity) (n : NodeID) :
    r.log n <+: (r.applyAll (s.actOps me a)).log n := by
  cases a with
  | requestVotes | concludeElection =>
    simp only [actOps]
    split
    · unfold electOps
      split
      · exact r.log_append me.id n s.log.currentTerm _
      · exact List.prefix_refl _
    · exact List.prefix_refl _
  | propose => exact r.log_append me.id n s.log.currentTerm _
  | tryAdvanceCommitIndex =>
    simp only [actOps]
    split <;> exact List.prefix_refl _
  | _ => exact List.prefix_refl _

namespace Safe

variable {cfg : Config} {r r' : Abs} {n m : NodeID} {s s' : Node}

/-- The log and the term may grow. -/
theorem grow (h : Safe r n s) (A : Advances r r') (V : Voting cfg r n s)
    (V' : Voting cfg r' n s') (hlog : r.log n <+: r'.log n) (hk : k ≤ s.commitIndex) :
    Settled r' s'.log.currentTerm (r'.log n) k := by
  have hterm := A.term n
  rw [V.term, V'.term] at hterm
  exact ((A.settled (h.of_le hk)).mono hterm).of_isPrefix ((List.take_prefix ..).trans hlog)

theorem frame (h : Safe r n s) (A : Advances r r') (hlog : r'.log n = r.log n) : Safe r' n s := by
  rw [Safe, hlog]
  exact A.settled h

theorem act (h : Safe r n s) (hb : s.Bounded) (G : Logged r n s) (V : Voting cfg r n s)
    (V' : Voting cfg (r.applyAll (s.actOps (cfg.member n) a)) n s')
    (A : Advances r (r.applyAll (s.actOps (cfg.member n) a))) (hm : s.Moves (cfg.member n) a s') :
    Safe (r.applyAll (s.actOps (cfg.member n) a)) n s' := by
  have keep {k} (hk : k ≤ s.commitIndex) :=
    h.grow A V V' (Node.actOps_log r s (cfg.member n) a n) hk
  cases hm with
  | stay _ hsame | stand _ hsame | grow _ _ hsame => exact keep hsame.commitIndex.le
  | begin | halt => exact keep le_rfl
  | apply => exact keep (Node.applyOne_spec ..).2.1.le
  | @commit i _ hrole hlt hi hterm hops =>
    -- the leader has recorded the prefix as committed
    rw [hops]
    refine ⟨?_, fun _ => ⟨s.log.currentTerm, i, le_rfl, .inr ⟨rfl, rfl⟩, le_rfl, ?_⟩⟩
    · show i ≤ (r.log n).length
      rw [G.rep.length]
      exact (G.rep.le_of_termAt hterm).2
    · show (r.log n).take i = (r.llog s.log.currentTerm).take i
      rw [G.leader hrole]
  | restart => exact keep (s.newNode_commitIndex ▸ hb.snap)

/-- What a leader sends is about its own log. -/
theorem msgs (h : Safe r n s) (hb : s.Bounded) (G : Logged r n s)
    (hoff : ∀ {call peer rd}, a = .heartbeat call peer → s.reads[call]? = some rd →
      s.role = .leader ∧ s.log.currentTerm = rd.term)
    (ha : s.Acts me a ef) : ∀ env ∈ ef.msgs, SafeMsg r env := by
  intro env henv
  have leader {t k} (hr : s.role = .leader) (ht : t = s.log.currentTerm)
      (hk : k ≤ s.commitIndex) : Settled r t (r.llog t) k := by
    rw [ht, ← G.leader hr]
    exact h.of_le hk
  cases ha.emits henv with
  | voteReq => trivial
  | appendReq hp hreq =>
    have hs : Node.Sends .. := Node.replicateToPeer_spec hreq
    exact ⟨leader hs.role hs.term hs.leaderCommit.le, fun hi => .inr ((G.vouched hs).prev hi)⟩
  | snapReq hp hreq =>
    have hs : Node.SendsSnapshot .. := Node.replicateToPeer_spec hreq
    exact leader hs.role hs.term (hs.snapIndex ▸ hb.snap)
  | @heartbeat call rd peer hrd hp =>
    obtain ⟨hrole, hterm⟩ := hoff rfl hrd
    refine ⟨leader hrole hterm.symm le_rfl, fun {i} hi => ?_⟩
    change s.nextIndex peer - 1 = i + 1 at hi
    show (s.log.termAt (s.nextIndex peer - 1)).getD 0 = 0 ∨ ∃ e, (r.llog rd.term)[i]? = some e ∧
      e.term = (s.log.termAt (s.nextIndex peer - 1)).getD 0
    rw [hi, ← hterm, ← G.leader hrole]
    cases ht : s.log.termAt (i + 1) with
    | none => exact .inl rfl
    | some t => exact .inr (G.rep.termAt_some ht)

/-! ## Messages -/

theorem receive (L : LogInv Entry.term r) (K : KeepInv Entry.term cfg.quorums r)
    (hidx : Indexed r) (h : Safe r env.dst s) (G : Logged r env.dst s) (V : Voting cfg r env.dst s)
    (hled : LedMsg r env) (hlm : LoggedMsg r env) (hm : SafeMsg r env)
    (G' : Logged (r.applyAll (s.receiveOps ef.node env)) env.dst ef.node)
    (V' : Voting cfg (r.applyAll (s.receiveOps ef.node env)) env.dst ef.node)
    (A : Advances r (r.applyAll (s.receiveOps ef.node env)))
    (hkeep : ∀ {caller req}, env.body = .appendReq caller req → s.KeepsSuffix req)
    (hcommit : ∀ {caller req}, env.body = .appendReq caller req → s.CommitsMatched req)
    (hout : s.Outcome env ef) :
    Safe (r.applyAll (s.receiveOps ef.node env)) env.dst ef.node := by
  cases hout with
  | quiet hops hret =>
    obtain ⟨t, hret⟩ := hret
    exact h.grow A V V' (by rw [hops]; exact List.prefix_refl _) hret.commitIndex.le
  | vote hle hmeet hv hup hops =>
    exact h.grow A V V' (by rw [hops]; exact List.prefix_refl _) hmeet.retreats.commitIndex.le
  | @append src dst ep caller req s₁ s' msgs hle hmeet hcand href hs hops =>
    obtain ⟨hne, hlead, hcaller⟩ := hled
    have hterm : req.term = s'.log.currentTerm := by
      rw [← V'.term, hops, Node.adoptOps]
      split <;> simp [Theory.State.apply]
    have hci : s'.commitIndex = max s.commitIndex (min req.leaderCommit s'.log.lastIndex) := by
      rw [hs, Node.followCommit_commitIndex, Node.followCommit_eq, hmeet.retreats.commitIndex]
    have hlen : _ = s'.log.lastIndex := G'.rep.length
    have hold := h.mono hle
    rw [Safe, ← hterm, hci]
    by_cases hnil : req.entries = []
    · have hlog : (r.applyAll (s.receiveOps s' ⟨src, dst, ep, .appendReq caller req⟩)).log dst =
          r.log dst := by
        rw [hops, Node.adoptOps, if_pos hnil]; rfl
      have hmatch := (G.matched L hm.2 href).1
      rw [hlog] at hlen ⊢
      have hlast : s'.log.lastIndex = s.log.lastIndex := hlen.symm.trans G.rep.length
      refine A.settled (hold.max ?_)
      -- beyond the commit index the request was checked
      rcases le_max_iff.mp (hcommit rfl hle href hnil) with hk | hk <;> rw [← hlast] at hk
      · exact hold.of_le hk
      · refine (hm.1.of_le (min_le_left _ s'.log.lastIndex)).of_take_eq ?_ ?_
        · rw [hlen]; exact min_le_right ..
        · have := congrArg (List.take (min req.leaderCommit s'.log.lastIndex)) hmatch
          rwa [List.take_take, List.take_take, Nat.min_eq_left hk] at this
    · have hv : Vouched (r.llog req.term) req := hlm (hcaller.resolve_right hnil)
      have hlog : (r.applyAll (s.receiveOps s' ⟨src, dst, ep, .appendReq caller req⟩)).log dst =
          (r.llog req.term).take (req.prevLogIndex + req.entries.length) := by
        rw [hops, Node.adoptOps, if_neg hnil]
        exact Function.update_self ..
      rw [hlog] at hlen ⊢
      rw [List.length_take] at hlen
      refine A.settled (Settled.max ?_ ?_)
      · exact hold.adopt L K hlead (G.noLoss_append hidx hv hle href hnil (hkeep rfl))
      · exact (hm.1.of_le (min_le_left ..)).take (by omega)
  | @install src dst ep req s₁ s' snap msgs hle hmeet hrole hinst hs hops =>
    have hterm : req.term = s'.log.currentTerm := by
      rw [← V'.term, hops]
      simp [Theory.State.apply]
    have hlog : (r.applyAll (s.receiveOps s' ⟨src, dst, ep, .snapReq req⟩)).log dst =
        (r.llog req.term).take req.lastIncludedIndex := by
      rw [hops]
      exact Function.update_self ..
    have hci : s'.commitIndex = req.lastIncludedIndex := by rw [hs]
    rw [Safe, ← hterm, hlog, hci]
    exact A.settled (Settled.take hm le_rfl)

end Safe

theorem SafeMsg.reply {s : Node} (hrec : s.Receives me env ef) :
    ∀ env' ∈ ef.msgs, SafeMsg r env' := by
  intro env' henv'
  cases hrec.replies henv' with
  | voteReq | appendReq | snapReq => trivial

/-! ## Runs -/

section
variable {ok : Cluster → Action → Prop} (hok : ∀ {c a}, ok c a → Sound c a)
include hok

theorem lossless_of_sound (h : ok c a) : Lossless c a := (hok h).1

theorem Shadow.safe (h : Shadow cfg ok tr c r) : safe.Holds c r := by
  induction h with
  | init => exact ⟨fun n => Settled.zero, by simp [Cluster.init]⟩
  | @step tr c r a c' evs hsh hoka hs H =>
    obtain ⟨hl, hc, hoff⟩ := hok hoka
    have hsh' := hsh.step hoka hs
    obtain ⟨-, V⟩ := hsh.voting
    obtain ⟨-, V'⟩ := hsh'.voting
    have hloss {c a} (h : ok c a) := lossless_of_sound hok h
    obtain ⟨L, hidx, G⟩ := hsh.logged (checksBoundary_of_lossless hloss)
    obtain ⟨-, -, G'⟩ := hsh'.logged (checksBoundary_of_lossless hloss)
    have A := hsh.advances hloss hoka hs
    cases Cluster.step_inv hs with
    | @act n a ef hn ha =>
      have F := c.act_frame cfg r n a
      have hb := hsh.bounded (installsAhead_of_lossless hloss) n
      have V' := V'.node n
      rw [Cluster.after_node_self] at V'
      refine H.after (List.Subset.refl _)
        ((H.node n).act hb (G.node n) (V.node n) V' A ha.moves) (fun env henv => ?_)
        (fun m hm h => h.frame A (F.log hm)) fun _ _ h => h.mono A
      refine SafeMsg.mono ((H.node n).msgs hb (G.node n) (fun heq hrd => ?_) ha env henv) A
      subst heq
      exact hoff _ rfl _ hrd
    | @deliver k env ef henv hef hrec =>
      have hmem := List.mem_of_getElem? henv
      have F := Node.receive_frame r (c.node env.dst) ef.node env
      have V' := V'.node env.dst
      have G' := G'.node env.dst
      simp only [Cluster.ops, henv, hef, Cluster.after_node_self] at A V' G' ⊢
      exact H.after (List.eraseIdx_subset ..)
        ((H.node env.dst).receive L (hsh.backing hloss).1 hidx (G.node env.dst) (V.node env.dst)
          (hsh.led.msg env hmem) (G.msg env hmem) (H.msg env hmem) G' V' A
          (fun hb => (hl.1.of_deliver henv hb).2) (hc.of_deliver henv) hrec.outcome)
        (SafeMsg.reply hrec) (fun m hm h => h.frame A (F.log hm)) fun _ _ h => h.mono A
    | drop => exact H.drop _

/-- What has been applied was settled. -/
theorem Shadow.applied (h : Shadow cfg ok tr c r) (hev : Event.applied n i e w ∈ tr) :
    ∃ t l, Settled r t l i ∧ 0 < i ∧ l[i - 1]? = some e := by
  induction h with
  | init => cases hev
  | @step tr c r a c' evs hsh hoka hs ih =>
    have hloss {c a} (h : ok c a) := lossless_of_sound hok h
    have A := hsh.advances hloss hoka hs
    rcases List.mem_append.mp hev with hev | hev
    · obtain ⟨t, l, hset, hrest⟩ := ih hev
      exact ⟨t, l, A.settled hset, hrest⟩
    · obtain ⟨m, b, rfl, -, hid, -, j, stop, rfl, hap, hlt, hg, -⟩ := Cluster.step_causes hs hev
      have hb := (hsh.bounded (installsAhead_of_lossless hloss) m).loop hap
      obtain ⟨-, -, G⟩ := hsh.logged (checksBoundary_of_lossless hloss)
      refine ⟨_, _, A.settled (((hsh.safe hok).node m).of_le (by omega)), Nat.succ_pos j, ?_⟩
      exact (G.node m).rep.get_ok hg

theorem Run.applied_eq (h : Run cfg ok tr c) (h₁ : Event.applied n₁ i e₁ w₁ ∈ tr)
    (h₂ : Event.applied n₂ i e₂ w₂ ∈ tr) : e₁ = e₂ := by
  obtain ⟨r, h⟩ := h.shadow
  have hloss {c a} (h : ok c a) := lossless_of_sound hok h
  obtain ⟨L, -, -⟩ := h.logged (checksBoundary_of_lossless hloss)
  obtain ⟨K, -⟩ := h.backing hloss
  obtain ⟨t₁, l₁, hset₁, hpos, he₁⟩ := h.applied hok h₁
  obtain ⟨t₂, l₂, hset₂, -, he₂⟩ := h.applied hok h₂
  have hagree := congrArg (·[i - 1]?) (hset₁.agree L K hset₂)
  simp only [List.getElem?_take_of_lt (Nat.sub_lt hpos Nat.one_pos), he₁, he₂] at hagree
  exact Option.some.inj hagree

end

/-- **State machine safety**, in runs that lose nothing and commit nothing unchecked: no two
nodes apply different entries at an index. -/
theorem applied_agree (h : Run cfg Sound tr c) (h₁ : .applied n₁ i e₁ w₁ ∈ tr)
    (h₂ : .applied n₂ i e₂ w₂ ∈ tr) : e₁ = e₂ :=
  h.applied_eq id h₁ h₂

/-- `n1` and `n2` apply the no-op of term 1. -/
theorem applied_agree_trio : ∃ tr c e₁ e₂, Run (trio 0) Sound tr c ∧
    .applied "n1" 1 e₁ none ∈ tr ∧ .applied "n2" 1 e₂ none ∈ tr ∧ e₁ = e₂ := by
  have hx : Cluster.init.Reaches (trio 0) Sound []
      (electBy "n1" 0 ++
        ([.drop 0, .act "n1" (.replicate "n2"), .deliver 0, .deliver 0,
          .act "n1" .tryAdvanceCommitIndex, .act "n1" .applyBegin, .act "n1" .applyNext,
          .act "n1" (.replicate "n2"), .deliver 0, .act "n2" .applyBegin,
          .act "n2" .applyNext] : List Action))
      fun _ tr => .applied "n1" 1 ⟨1, 1, .noop, "", [], ""⟩ none ∈ tr ∧
        .applied "n2" 1 ⟨1, 1, .noop, "", [], ""⟩ none ∈ tr := by
    decide +kernel
  obtain ⟨c, tr, h, h₁, h₂⟩ := hx.run
  exact ⟨tr, c, _, _, h, h₁, h₂, applied_agree h h₁ h₂⟩

/-- `n1` was leader of term 1 and has its no-op at index 1. A heartbeat of `n2`, which has
committed the no-op of term 2 there, makes it commit its own. -/
theorem applied_agree_fails : ∃ tr c e₁ e₂, Run (trio 0) unrestricted tr c ∧
    .applied "n2" 1 e₁ none ∈ tr ∧ .applied "n1" 1 e₂ none ∈ tr ∧ e₁ ≠ e₂ := by
  have hx : Cluster.init.Reaches (trio 0) unrestricted []
      (electBy "n1" 0 ++
        ([.act "n2" .startElection, .act "n2" .requestVotes, .deliver 2, .deliver 2,
          .act "n2" .concludeElection, .act "n2" (.replicate "n3"), .deliver 2, .deliver 2,
          .act "n2" .tryAdvanceCommitIndex, .act "n2" .applyBegin, .act "n2" .applyNext,
          .act "n2" .linearizableRead, .act "n2" (.heartbeat 0 "n1"), .deliver 2,
          .act "n1" .applyBegin, .act "n1" .applyNext] : List Action))
      fun _ tr => .applied "n2" 1 ⟨1, 2, .noop, "", [], ""⟩ none ∈ tr ∧
        .applied "n1" 1 ⟨1, 1, .noop, "", [], ""⟩ none ∈ tr := by
    decide +kernel
  obtain ⟨c, tr, h, h₁, h₂⟩ := hx.run
  exact ⟨tr, c, _, _, h, h₁, h₂, by decide⟩

end DistributedKV.Raft
