import DistributedKV.Verify.Step

/-!
# Elections

A node votes once in a term, across crashes, and a leader has counted the votes of a majority. A
step is therefore admissible on the abstract machine in the sense of `Theory.Ballot`, whatever
the network does, and no two nodes are ever leader in one term.
-/

namespace DistributedKV.Raft

open Theory (Ballot BallotInv Admits Tally QuorumSystem)
open Theory.Op (OnLogs)

/-! ## Majorities -/

namespace Config

/-- The majorities of the cluster. -/
def quorums (cfg : Config) : QuorumSystem NodeID := .majority cfg.ids.toFinset

theorem not_mem_peers (cfg : Config) : n ∉ (cfg.member n).peers := by simp [cfg.mem_peers]

/-- The number of votes a member waits for is a majority of the ids, itself included. -/
theorem needed_eq (cfg : Config) (hn : n ∈ cfg.ids) :
    (cfg.member n).needed = cfg.ids.toFinset.card / 2 + 1 := by
  have hpeers : (cfg.member n).peers.toFinset = cfg.ids.toFinset.erase n := by
    ext m; simp [cfg.mem_peers, and_comm]
  have hcard := congrArg Finset.card hpeers
  rw [List.toFinset_card_of_nodup (cfg.peers_nodup n),
    Finset.card_erase_of_mem (List.mem_toFinset.mpr hn)] at hcard
  have hpos : 0 < cfg.ids.toFinset.card := Finset.card_pos.mpr ⟨n, List.mem_toFinset.mpr hn⟩
  rw [Member.needed, hcard, Nat.sub_add_cancel hpos]

end Config

/-- Applying an entry does not touch elections. -/
theorem Node.applyNext_ballot (me : Member) (s : Node) (i commit : ℕ) :
    s.log.SameBallot (s.applyNext me i commit).node.log ∧
      (s.applyNext me i commit).node.role = s.role ∧
      (s.applyNext me i commit).node.election = s.election := by
  unfold applyNext
  split
  · exact ⟨.refl _, rfl, rfl⟩
  · split
    · exact ⟨.refl _, rfl, rfl⟩
    · next e _ =>
      have hlog : (s.afterApply (i + 1) commit e).log = s.log := by rw [afterApply_eq]
      have hrole : (s.afterApply (i + 1) commit e).role = s.role := by rw [afterApply_eq]
      have hel : (s.afterApply (i + 1) commit e).election = s.election := by rw [afterApply_eq]
      rcases applyOne_cases me s (i + 1) commit e with heq | heq <;> rw [heq]
      · exact ⟨hlog ▸ .refl _, hrole, hel⟩
      · refine ⟨?_, ?_, ?_⟩
        · unfold maybeSnapshot
          split
          · exact hlog ▸ .refl _
          · split
            · exact hlog ▸ .refl _
            · exact hlog ▸ .compactPrefix ..
        · rw [maybeSnapshot_eq]; exact hrole
        · rw [maybeSnapshot_eq]; exact hel

/-! ## The invariant -/

/-- An election counts each voter once, and only voters of which `P` holds. -/
structure Counting (cfg : Config) (n : NodeID) (el : Election) (P : NodeID → Prop) : Prop where
  nodup : el.awaiting.Nodup
  fresh : el.asked = false → el.awaiting = [] ∧ el.votes = 1 ∧ el.won = false
  won : el.won = true → (cfg.member n).needed ≤ el.votes
  self : P n
  tally : Tally cfg.ids.toFinset el.awaiting el.votes P

structure Voting (cfg : Config) (r : Abs) (n : NodeID) (s : Node) : Prop where
  durable : s.log.Durable
  term : r.term n = s.log.currentTerm
  voted : ∀ {c}, r.voted n s.log.currentTerm c → s.log.votedFor = c ∧ c ≠ ""
  leader : s.role = .leader → r.leads s.log.currentTerm n
  candidate : s.role = .candidate → ¬r.leads s.log.currentTerm n
  pos : s.role ≠ .follower → 0 < s.log.currentTerm
  current : ∀ {el}, s.role = .candidate → s.election = some el → el.term = s.log.currentTerm
  election : ∀ {el}, s.election = some el → Counting cfg n el fun v => r.voted v el.term n

def VotingMsg (cfg : Config) (r : Abs) (env : Envelope) : Prop :=
  match env.body with
  | .voteReq req => env.src ∈ cfg.ids ∧ env.dst ∈ cfg.ids ∧ req.candidateID = env.src
  | .voteResp req resp =>
    env.src ∈ cfg.ids ∧ (resp.voteGranted = true → r.voted env.src req.term env.dst)
  | _ => True

def voting (cfg : Config) : LocalInv := ⟨Voting cfg, VotingMsg cfg⟩

/-- An election that is won, or that nobody else votes in, has enough votes. -/
theorem Counting.needed_le (h : Counting cfg n el P)
    (hw : el.asked = false ∧ (cfg.member n).needed = 1 ∨ el.won = true) :
    (cfg.member n).needed ≤ el.votes := by
  rcases hw with ⟨hasked, hone⟩ | hwon
  · rw [hone, (h.fresh hasked).2.1]
  · exact h.won hwon

theorem Counting.mono (h : Counting cfg n el P) (hP : ∀ v, P v → P' v) : Counting cfg n el P' :=
  ⟨h.nodup, h.fresh, h.won, hP _ h.self, h.tally.mono hP⟩

/-! ## Steps of an election -/

namespace Node

variable {me : Member} {s : Node} {el' : Election}

/-- An election was under way, unless it has just been started; it may just have asked. -/
theorem Acts.election (ha : s.Acts me a ef) (h : ef.node.election = some el') :
    s.election = some el' ∨ a = .startElection ∧ el' = { term := s.log.currentTerm + 1 } ∨
      ∃ el, s.election = some el ∧ el.asked = false ∧
        el' = { el with asked := true, awaiting := me.peers } := by
  cases ha with
  | startElection => cases h; exact .inr (.inl ⟨rfl, rfl⟩)
  | @ask el hel hasked => cases h; exact .inr (.inr ⟨el, hel, hasked, rfl⟩)
  | lead _ _ _ hs => rw [hs] at h; cases h
  | dissolve => cases h
  | propose hs => obtain ⟨-, rfl⟩ := propose_ok hs; exact .inl h
  | tryAdvanceCommitIndex => rw [advance, tryAdvanceCommitIndex_eq] at h; exact .inl h
  | linearizableRead hs => obtain ⟨-, rfl⟩ := linearizableRead_ok hs; exact .inl h
  | waitForApplied => rw [waitForApplied_eq] at h; exact .inl h
  | applyNext => rw [(applyNext_ballot ..).2.2] at h; exact .inl h
  | restart => cases h
  | _ => exact .inl h

/-- The answer of a peer may have been counted. -/
theorem Receives.election (hrec : s.Receives me env ef) (h : ef.node.election = some el') :
    s.election = some el' ∨ ∃ el req resp, env.body = .voteResp req resp ∧
      s.election = some el ∧ el.term = req.term ∧ env.src ∈ el.awaiting ∧
      (el' = { el with awaiting := el.awaiting.erase env.src } ∨
        resp.voteGranted = true ∧ ∃ won, (won = true → me.needed ≤ el.votes + 1) ∧
          el' = { el with awaiting := el.awaiting.erase env.src, votes := el.votes + 1, won }) := by
  cases hrec with
  | voteReq => rw [handleRequestVote_shape] at h; exact .inl h
  | appendReq => rw [handleAppendEntries_shape] at h; exact .inl h
  | snapReq => rw [handleInstallSnapshot_shape] at h; exact .inl h
  | @voteResp src dst req resp el hel hterm hsrc =>
    rw [countVote_eq] at h
    split at h
    · cases h
    · split at h <;> cases h
      · next hg => exact .inr ⟨el, req, resp, rfl, hel, hterm, hsrc, .inr ⟨hg, _,
          fun hw => (of_decide_eq_true hw).1, rfl⟩⟩
      · exact .inr ⟨el, req, resp, rfl, hel, hterm, hsrc, .inl rfl⟩
  | replicated =>
    rw [replicated_eq] at h
    split at h
    · rw [becomeFollower_eq] at h; exact .inl h
    · exact .inl h
  | confirmed =>
    unfold Node.confirmed at h
    dsimp only at h
    split at h
    · rw [becomeFollower_eq] at h; exact .inl h
    · exact .inl h
  | snapResp =>
    rw [snapshotInstalled_eq] at h
    split at h
    · rw [becomeFollower_eq] at h; exact .inl h
    · exact .inl h
  | discard => exact .inl h

end Node

namespace Counting

variable {P : ℕ → NodeID → Prop} {s : Node} {el' : Election}

theorem act (hn : n ∈ cfg.ids) (ha : s.Acts (cfg.member n) a ef)
    (h : ∀ {el}, s.election = some el → Counting cfg n el (P el.term))
    (hself : a = .startElection → P (s.log.currentTerm + 1) n)
    (hel : ef.node.election = some el') : Counting cfg n el' (P el'.term) := by
  rcases ha.election hel with hel | ⟨rfl, rfl⟩ | ⟨el, hel₀, hasked, rfl⟩
  · exact h hel
  · exact ⟨.nil, fun _ => ⟨rfl, rfl, rfl⟩, fun h' => (Bool.false_ne_true h').elim, hself rfl,
      .single (List.mem_toFinset.mpr hn) List.not_mem_nil (hself rfl)⟩
  · have hc := h hel₀
    obtain ⟨-, hvotes, hwon⟩ := hc.fresh hasked
    refine ⟨cfg.peers_nodup n, nofun, fun h' => ?_, hc.self, ?_⟩
    · exact absurd (hwon.symm.trans h') (by decide)
    · show Tally _ (cfg.member n).peers el.votes _
      rw [hvotes]
      exact .single (List.mem_toFinset.mpr hn) cfg.not_mem_peers hc.self

theorem receive (hrec : s.Receives (cfg.member env.dst) env ef)
    (h : ∀ {el}, s.election = some el → Counting cfg env.dst el (P el.term))
    (hvote : ∀ {req resp}, env.body = .voteResp req resp →
      env.src ∈ cfg.ids ∧ (resp.voteGranted = true → P req.term env.src))
    (hel : ef.node.election = some el') : Counting cfg env.dst el' (P el'.term) := by
  rcases hrec.election hel with hel | ⟨el, req, resp, hbody, hel₀, hterm, hsrc, hel'⟩
  · exact h hel
  have hc := h hel₀
  have hasked : el.asked = true := by
    by_contra hna
    rw [(hc.fresh (Bool.eq_false_iff.mpr hna)).1] at hsrc
    cases hsrc
  rcases hel' with rfl | ⟨hg, won, hwon, rfl⟩
  · refine ⟨hc.nodup.erase env.src, fun h' => ?_, hc.won, hc.self,
      hc.tally.subset List.erase_subset⟩
    cases hasked.symm.trans h'
  · obtain ⟨hids, hP⟩ := hvote hbody
    refine ⟨hc.nodup.erase env.src, fun h' => ?_, hwon, hc.self,
      hc.tally.count hc.nodup (List.mem_toFinset.mpr hids) hsrc (hterm ▸ hP hg)⟩
    cases hasked.symm.trans h'

end Counting

/-! ## Steps that leave votes alone -/

namespace Voting

variable {cfg : Config} {r r' : Abs} {n m : NodeID} {s s' : Node}

theorem frame (F : Theory.Frame m r r') (hne : n ≠ m) (h : Voting cfg r n s) :
    Voting cfg r' n s where
  durable := h.durable
  term := (F.term hne).trans h.term
  voted hv := h.voted ((F.voted_iff hne).mp hv)
  leader hr := F.leads (h.leader hr)
  candidate hr hl := h.candidate hr ((F.leads_iff hne).mp hl)
  pos := h.pos
  current := h.current
  election hel := (h.election hel).mono fun _ => F.voted

/-- Operations on logs change nothing here. -/
theorem onLogs (hops : ∀ op ∈ ops, op.OnLogs) (h : Voting cfg r n s) :
    Voting cfg (r.applyAll ops) n s := by
  obtain ⟨-, hterm, hvoted, hleads⟩ := OnLogs.admits (Q := cfg.quorums) (r := r) hops
  obtain ⟨h₁, h₂, h₃, h₄, h₅, h₆, h₇, h₈⟩ := h
  rw [← hterm] at h₂
  rw [← hleads] at h₄ h₅
  rw [← hvoted] at h₃ h₈
  exact ⟨h₁, h₂, h₃, h₄, h₅, h₆, h₇, h₈⟩

/-- The elections of `s'` are those of `s`, or further on, with votes counted as `r` has them. -/
def Elects (cfg : Config) (r : Abs) (n : NodeID) (s s' : Node) : Prop :=
  ∀ el', s'.election = some el' → (∃ el, s.election = some el ∧ el'.term = el.term) ∧
    Counting cfg n el' fun v => r.voted v el'.term n

theorem elects (h : Voting cfg r n s) (hel : s'.election = s.election ∨ s'.election = none) :
    Elects cfg r n s s' := by
  intro el' h'
  rcases hel with hel | hel <;> rw [hel] at h'
  · exact ⟨⟨el', h', rfl⟩, h.election h'⟩
  · cases h'

/-- The ballot is as it was, and so is the role, or it has been given up. -/
theorem same (h : Voting cfg r n s) (hlog : s.log.SameBallot s'.log)
    (hrole : s'.role = s.role ∨ s'.role = .follower) (hel : Elects cfg r n s s') :
    Voting cfg r n s' := by
  have hrole' {ρ} (hρ : s'.role = ρ) (hne : ρ ≠ .follower) : s.role = ρ := by
    rcases hrole with hr | hr
    · exact hr ▸ hρ
    · exact (hne (hρ ▸ hr)).elim
  refine ⟨hlog.durable h.durable, ?_, ?_, ?_, ?_, ?_, ?_, fun h' => (hel _ h').2⟩ <;>
    rw [hlog.currentTerm]
  · exact h.term
  · rw [hlog.votedFor]; exact h.voted
  · exact fun hr => h.leader (hrole' hr (by decide))
  · exact fun hr => h.candidate (hrole' hr (by decide))
  · exact fun hr => h.pos (hrole' rfl hr ▸ hr)
  · intro el' hr h'
    obtain ⟨⟨el, hel₀, ht⟩, -⟩ := hel el' h'
    exact ht.trans (h.current (hrole' hr (by decide)) hel₀)

/-! ## Steps that change the ballot -/

variable (B : BallotInv cfg.quorums r) (h : Voting cfg r n s)
include B h

/-- A node that meets a term follows in it, if it is news. -/
theorem retreats (hret : s.Retreats s' t) (hel : Elects cfg r n s s') :
    Ballot cfg.quorums r (.observe n s'.log.currentTerm) ∧
      Voting cfg (r.apply (.observe n s'.log.currentTerm)) n s' := by
  have hlog := hret.log
  by_cases ht : s.log.currentTerm < t
  · rw [if_pos ht] at hlog
    have hrole : s'.role = .follower := hret.role.resolve_right fun h' => h'.2 ht
    rw [hlog]
    refine ⟨h.term.le.trans ht.le, ?_⟩
    refine ⟨by rw [hlog]; exact ⟨rfl, rfl⟩, by rw [hlog]; exact Function.update_self .., ?_,
      by simp [hrole], by simp [hrole], by simp [hrole], by simp [hrole], fun h' => (hel _ h').2⟩
    -- nobody has voted in a term it has not reached
    intro c hv
    rw [hlog] at hv
    exact ((B.voted_le hv).trans_lt (h.term ▸ ht)).false.elim
  · rw [if_neg ht] at hlog
    rw [hlog, ← h.term, Theory.State.apply_observe_self]
    refine ⟨le_rfl, h.same (hlog ▸ .refl _) ?_ hel⟩
    exact hret.role.elim .inr fun h' => .inl h'.1

omit B in
theorem vote (hv : s.log.votedFor = "" ∨ s.log.votedFor = c) (hc : c ≠ "") :
    Ballot cfg.quorums r (.vote n s.log.currentTerm c) ∧
      Voting cfg (r.apply (.vote n s.log.currentTerm c)) n
        (s.setTermAndVote s.log.currentTerm c) := by
  have huniq : ∀ c', r.voted n s.log.currentTerm c' → c' = c := by
    intro c' hc'
    obtain ⟨rfl, hne⟩ := h.voted hc'
    exact hv.resolve_left hne
  refine ⟨⟨h.term, huniq⟩, ⟨rfl, rfl⟩, h.term, ?_, h.leader, h.candidate, h.pos, h.current, ?_⟩
  · rintro c' (hc' | ⟨-, -, rfl⟩)
    · obtain rfl := huniq c' hc'
      exact ⟨rfl, hc⟩
    · exact ⟨rfl, hc⟩
  · exact fun hel => (h.election hel).mono fun _ => .inl

/-- A node stands for election in the term after its own. -/
theorem startElection (hn : n ∈ cfg.ids) :
    Admits (Ballot cfg.quorums) r (s.actOps (cfg.member n) .startElection) ∧
      Voting cfg (r.applyAll (s.actOps (cfg.member n) .startElection)) n
        (s.startElection (cfg.member n)) := by
  simp only [Node.actOps, cfg.member_id]
  have hlt : r.term n < s.log.currentTerm + 1 := h.term ▸ Nat.lt_succ_self _
  have hno {c} : ¬r.voted n (s.log.currentTerm + 1) c := fun hv => (B.voted_le hv).not_gt hlt
  refine ⟨⟨hlt.le, ⟨Function.update_self .., fun c hv => (hno hv).elim⟩, trivial⟩, ?_⟩
  refine ⟨⟨rfl, rfl⟩, Function.update_self .., ?_, ?_, fun _ hl => (B.leads_le hl).not_gt hlt,
    fun _ => Nat.succ_pos _, ?_, ?_⟩
  · rintro c (hv | ⟨-, -, rfl⟩)
    · exact (hno hv).elim
    · exact ⟨cfg.member_id _, fun h0 => cfg.ne_empty (h0 ▸ hn)⟩
  · intro hr; cases hr
  · rintro el - ⟨⟩; rfl
  · rintro el ⟨⟩
    have hself : r.voted n (s.log.currentTerm + 1) n ∨
        n = n ∧ s.log.currentTerm + 1 = s.log.currentTerm + 1 ∧ n = n := .inr ⟨rfl, rfl, rfl⟩
    exact ⟨.nil, fun _ => ⟨rfl, rfl, rfl⟩, fun h' => (Bool.false_ne_true h').elim, hself,
      .single (List.mem_toFinset.mpr hn) (List.not_mem_nil) hself⟩

/-- A node that becomes leader has the votes of a majority, and nobody else leads its term. -/
theorem elected (hn : n ∈ cfg.ids) (hr : s.role = .candidate) (hel : s.election = some el)
    (hv : (cfg.member n).needed ≤ el.votes) :
    cfg.quorums.IsQuorum {v | r.voted v s.log.currentTerm n} ∧
      ∀ m, ¬r.leads s.log.currentTerm m := by
  have hc := h.election hel
  have hq : cfg.quorums.IsQuorum {v | r.voted v s.log.currentTerm n} := by
    rw [← h.current hr hel]
    exact hc.tally.isQuorum (cfg.needed_eq hn ▸ hv)
  refine ⟨hq, fun m hm => ?_⟩
  obtain ⟨v, hv, hv'⟩ := cfg.quorums.inter hq (B.quorum hm)
  exact h.candidate hr (B.voted_unique hv hv' ▸ hm)

theorem lead (hn : n ∈ cfg.ids) (hr : s.role = .candidate) (hel : s.election = some el)
    (hv : (cfg.member n).needed ≤ el.votes) (hlog : s.log.SameBallot s'.log)
    (hrole : s'.role = .leader) (hnone : s'.election = none) (e : Entry) (i : ℕ) :
    Admits (Ballot cfg.quorums) r [.elect n s.log.currentTerm, .append n s.log.currentTerm e,
        .ack n s.log.currentTerm i] ∧
      Voting cfg (r.applyAll [.elect n s.log.currentTerm, .append n s.log.currentTerm e,
        .ack n s.log.currentTerm i]) n s' := by
  obtain ⟨hq, -⟩ := h.elected B hn hr hel hv
  refine ⟨⟨⟨h.term, hq⟩, trivial, trivial, trivial⟩, hlog.durable h.durable, ?_, ?_, ?_, ?_, ?_,
    ?_, ?_⟩
  · rw [hlog.currentTerm]; exact h.term
  · rw [hlog.currentTerm, hlog.votedFor]; exact h.voted
  · rw [hlog.currentTerm]; exact fun _ => .inr ⟨rfl, rfl⟩
  · simp [hrole]
  · rw [hlog.currentTerm]; exact fun _ => h.pos (by simp [hr])
  · simp [hrole]
  · simp [hnone]

end Voting

theorem VotingMsg.frame (F : Theory.Frame m r r') (h : VotingMsg cfg r env) :
    VotingMsg cfg r' env := by
  unfold VotingMsg at h ⊢
  split at h
  · exact h
  · exact ⟨h.1, fun hg => F.voted (h.2 hg)⟩
  · trivial

/-! ## Runs -/

/-- An activity is admissible, and keeps the invariant. -/
theorem Voting.act (B : BallotInv cfg.quorums r) (hn : n ∈ cfg.ids) (h : Voting cfg r n s)
    (ha : s.Acts (cfg.member n) a ef) :
    Admits (Ballot cfg.quorums) r (s.actOps (cfg.member n) a) ∧
      Voting cfg (r.applyAll (s.actOps (cfg.member n) a)) n ef.node := by
  cases ha with
  | startElection hrole hel => exact h.startElection B hn
  | @ask el hel hasked hops =>
    rw [hops]
    refine ⟨trivial, h.same (.refl _) (.inl rfl) fun el' hel' => ⟨⟨el, hel, ?_⟩, ?_⟩⟩
    · cases hel'; rfl
    · exact Counting.act (P := fun t v => r.voted v t n) hn (.ask hel hasked hops) h.election nofun
        hel'
  | @lead el s' a hel hw hr hs hops =>
    have hlog : s.log.SameBallot s'.log := by rw [hs]; exact .appendEntries ..
    rw [hops, cfg.member_id]
    exact h.lead B hn hr hel ((h.election hel).needed_le hw) hlog (by rw [hs]) (by rw [hs]) _ _
  | dissolve _ hops =>
    rw [hops]
    exact ⟨trivial, h.same (.refl _) (.inl rfl) (h.elects (.inr rfl))⟩
  | @propose type key value clientRequestID s' hs =>
    obtain ⟨-, rfl⟩ := Node.propose_ok hs
    have hops : ∀ op ∈ s.actOps (cfg.member n) (.propose type key value clientRequestID),
        op.OnLogs := by
      simp [Node.actOps, OnLogs]
    refine ⟨(OnLogs.admits hops).1, .onLogs hops ?_⟩
    exact h.same (.appendEntries ..) (.inl rfl) (h.elects (.inl rfl))
  | tryAdvanceCommitIndex =>
    have hops : ∀ op ∈ s.actOps (cfg.member n) .tryAdvanceCommitIndex, op.OnLogs := by
      simp only [Node.actOps]
      split <;> simp [OnLogs]
    refine ⟨(OnLogs.admits hops).1, .onLogs hops ?_⟩
    rw [Node.advance, Node.tryAdvanceCommitIndex_eq]
    exact h.same (.refl _) (.inl rfl) (h.elects (.inl rfl))
  | proposeReturn | proposeCancel | readReturn | readCancel | applyBegin | heartbeat =>
    exact ⟨trivial, h.same (.refl _) (.inl rfl) (h.elects (.inl rfl))⟩
  | replicate | sendSnapshot => exact ⟨trivial, h⟩
  | linearizableRead hs =>
    obtain ⟨-, rfl⟩ := Node.linearizableRead_ok hs
    exact ⟨trivial, h.same (.refl _) (.inl rfl) (h.elects (.inl rfl))⟩
  | waitForApplied hr =>
    rw [Node.waitForApplied_eq]
    exact ⟨trivial, h.same (.refl _) (.inl rfl) (h.elects (.inl rfl))⟩
  | applyNext hap =>
    obtain ⟨hlog, hrole, hel⟩ := Node.applyNext_ballot (cfg.member n) s _ _
    exact ⟨trivial, h.same hlog (.inl hrole) (h.elects (.inl hel))⟩
  | restart => exact ⟨trivial, h.same (.reopen h.durable) (.inr rfl) (h.elects (.inr rfl))⟩

/-- A candidate asks the members for votes in its own name. -/
theorem VotingMsg.sent {s : Node} (hn : n ∈ cfg.ids) (ha : s.Acts (cfg.member n) a ef) :
    ∀ env ∈ ef.msgs, VotingMsg cfg r env := by
  intro env henv
  cases ha.emits henv with
  | voteReq _ _ hp => exact ⟨(cfg.member_id n).symm ▸ hn, ((cfg.mem_peers n _).mp hp).1, rfl⟩
  | appendReq | snapReq | heartbeat => trivial

theorem Voting.receive (B : BallotInv cfg.quorums r) (h : Voting cfg r env.dst s)
    (hm : VotingMsg cfg r env) (hrec : s.Receives (cfg.member env.dst) env ef) :
    Admits (Ballot cfg.quorums) r (s.receiveOps ef.node env) ∧
      Voting cfg (r.applyAll (s.receiveOps ef.node env)) env.dst ef.node := by
  have hel : Elects cfg r env.dst s ef.node := by
    intro el' hel'
    refine ⟨?_, Counting.receive (P := fun t v => r.voted v t env.dst) hrec h.election ?_ hel'⟩
    · rcases hrec.election hel' with hel | ⟨el, -, -, -, hel, -, -, rfl | ⟨-, -, -, rfl⟩⟩
      · exact ⟨el', hel, rfl⟩
      · exact ⟨el, hel, rfl⟩
      · exact ⟨el, hel, rfl⟩
    · intro req resp hbody
      simpa [VotingMsg, hbody] using hm
  have meets {s₁ t} (hmeet : s.Meets s₁ t) :
      Ballot cfg.quorums r (.observe env.dst s₁.log.currentTerm) ∧
        Voting cfg (r.apply (.observe env.dst s₁.log.currentTerm)) env.dst s₁ :=
    h.retreats B hmeet.retreats (h.elects (.inl (by rw [hmeet.eq])))
  -- a node that takes over entries or a snapshot has met the term and changes its log only
  have adopts {s₁ s' t ops} (hle : s.log.currentTerm ≤ t) (hmeet : s.Meets s₁ t)
      (hops : ∀ op ∈ ops, op.OnLogs) (hlog : s₁.log.SameBallot s'.log)
      (hrole : s'.role = s₁.role) (helection : s'.election = s₁.election) :
      Admits (Ballot cfg.quorums) r (.observe env.dst t :: ops) ∧
        Voting cfg (r.applyAll (.observe env.dst t :: ops)) env.dst s' := by
    obtain ⟨h₁, h₂⟩ := meets hmeet
    rw [hmeet.currentTerm hle] at h₁ h₂
    exact ⟨⟨h₁, (OnLogs.admits hops).1⟩, .onLogs (r := r.apply (.observe env.dst t)) hops
      (h₂.same hlog (.inl hrole) (h₂.elects (.inl helection)))⟩
  cases hrec.outcome with
  | quiet hops hret =>
    obtain ⟨t, hret⟩ := hret
    rw [hops]
    obtain ⟨h₁, h₂⟩ := h.retreats B hret hel
    exact ⟨⟨h₁, trivial⟩, h₂⟩
  | @vote src dst ep req s₁ msgs hle hmeet hv hup hops =>
    obtain ⟨hsrc, -, hcand⟩ := hm
    have hne : req.candidateID ≠ "" := fun h0 => cfg.ne_empty (h0 ▸ hcand ▸ hsrc)
    obtain ⟨h₁, h₂⟩ := meets hmeet
    obtain ⟨h₃, h₄⟩ := h₂.vote hv hne
    rw [hmeet.currentTerm hle] at h₁ h₃ h₄
    rw [hops]
    exact ⟨⟨h₁, h₃, trivial⟩, h₄⟩
  | @append src dst ep caller req s₁ s' msgs hle hmeet hcand href hs hops =>
    rw [Node.followCommit_eq] at hs
    rw [hops]
    refine adopts hle hmeet Node.adoptOps_onLogs ?_ (by rw [hs]) (by rw [hs])
    rw [hs]
    exact .appendEntries ..
  | @install src dst ep req s₁ s' snap msgs hle hmeet hrole hinst hs hops =>
    rw [hops]
    refine adopts hle hmeet (by simp [OnLogs]) ?_ (by rw [hs]) (by rw [hs])
    rw [hs]
    exact .restoreSnapshotBoundary ..

theorem Voting.init (cfg : Config) (n : NodeID) :
    Voting cfg Theory.State.init n (Cluster.init.node n) :=
  ⟨⟨rfl, rfl⟩, rfl, nofun, nofun, nofun, fun h => (h rfl).elim, nofun, nofun⟩

theorem VotingMsg.reply {s : Node} (hm : VotingMsg cfg r env) (hrec : s.Receives me env ef) :
    ∀ env' ∈ ef.msgs, VotingMsg cfg (r.applyAll (s.receiveOps ef.node env)) env' := by
  intro env' henv'
  cases hrec.replies henv' with
  | @voteReq src dst ep req =>
    obtain ⟨-, hdst, hcand⟩ := hm
    refine ⟨hdst, fun hg => ?_⟩
    simp only [Node.receiveOps, hg, if_true]
    exact .inr ⟨rfl, rfl, hcand.symm⟩
  | appendReq | snapReq => trivial

/-- **Every step is admissible as far as votes go.** -/
theorem LocalInv.Holds.voting_step {c : Cluster} (B : BallotInv cfg.quorums r)
    (H : (voting cfg).Holds c r) (hs : c.step cfg a = some (c', evs)) :
    Admits (Ballot cfg.quorums) r (c.ops cfg a) ∧
      (voting cfg).Holds c' (r.applyAll (c.ops cfg a)) := by
  cases Cluster.step_inv hs with
  | @act n a ef hn ha =>
    obtain ⟨h₁, h₂⟩ := Voting.act B hn (H.node n) ha
    have F := c.act_frame cfg r n a
    exact ⟨h₁, H.after (List.Subset.refl _) h₂ (VotingMsg.sent hn ha)
      (fun m hm => .frame F hm) fun _ _ => .frame F⟩
  | @deliver k env ef henv hef hrec =>
    have hmem := List.mem_of_getElem? henv
    obtain ⟨h₁, h₂⟩ := Voting.receive B (H.node env.dst) (H.msg env hmem) hrec
    have F := Node.receive_frame r (c.node env.dst) ef.node env
    simp only [Cluster.ops, henv, hef]
    exact ⟨h₁, H.after (List.eraseIdx_subset ..) h₂
      ((H.msg env hmem).reply hrec) (fun m hm => .frame F hm) fun _ _ => .frame F⟩
  | drop => exact ⟨trivial, H.drop _⟩

/-- So the machine of replicated logs has one leader in a term at most, and the nodes know no
others. -/
theorem Shadow.voting (h : Shadow cfg ok tr c r) :
    BallotInv cfg.quorums r ∧ (voting cfg).Holds c r := by
  induction h with
  | init => exact ⟨.init _, fun n => Voting.init cfg n, by simp [Cluster.init]⟩
  | step _ _ hs ih =>
    obtain ⟨hadm, H⟩ := ih.2.voting_step ih.1 hs
    exact ⟨hadm.preserves (fun _ _ => .apply) ih.1, H⟩

/-- No node goes back to an earlier term. -/
theorem Shadow.term_le (h : Shadow cfg ok tr c r) (hs : c.step cfg a = some (c', evs))
    (v : NodeID) : r.term v ≤ (r.applyAll (c.ops cfg a)).term v :=
  (h.voting.2.voting_step h.voting.1 hs).1.term_le v

theorem Shadow.leads_of_leader (h : Shadow cfg ok tr c r) (hl : (c.node n).role = .leader) :
    r.leads (c.node n).log.currentTerm n :=
  (h.voting.2.node n).leader hl

/-- Whoever has led a term is recorded for good. -/
theorem Shadow.continues (h : Shadow cfg ok tr c r) (hc : Continues cfg ok tr c tr' c') :
    ∃ r', Shadow cfg ok tr' c' r' ∧ ∀ t n, r.leads t n → r'.leads t n := by
  induction hc with
  | refl => exact ⟨r, h, fun _ _ => id⟩
  | @step tr' c' a c'' evs _ hok hs ih =>
    obtain ⟨r', h', hl⟩ := ih
    exact ⟨_, .step h' hok hs, fun t n hn => Theory.State.leads_applyAll (hl t n hn)⟩

/-- **Election safety**: two leaders of the same term, at any two moments of a run, are one. -/
theorem leader_unique (h : Run cfg ok tr c) (hc : Continues cfg ok tr c tr' c')
    (hl : (c.node n).role = .leader) (hl' : (c'.node n').role = .leader)
    (ht : (c.node n).log.currentTerm = (c'.node n').log.currentTerm) : n = n' := by
  obtain ⟨r, h⟩ := h.shadow
  obtain ⟨r', h', hmono⟩ := h.continues hc
  exact h'.voting.1.leads_unique (ht ▸ hmono _ _ (h.leads_of_leader hl)) (h'.leads_of_leader hl')

/-- A leader that has not heard of the next one: each leads its own term. -/
theorem leader_unique_trio : ∃ tr c tr' c', Run (trio 0) unrestricted tr c ∧
    Continues (trio 0) unrestricted tr c tr' c' ∧ (c'.node "n2").role = .leader ∧
    (c.node "n1").role = .leader ∧ (c'.node "n1").role = .leader ∧
    (c.node "n1").log.currentTerm = (c'.node "n1").log.currentTerm ∧ "n1" = "n1" := by
  have hx : Cluster.init.Reaches (trio 0) unrestricted [] (electBy "n1" 0) fun c tr =>
      (c.node "n1").role = .leader ∧
      c.Reaches (trio 0) unrestricted tr
        [.act "n2" .startElection, .act "n2" .requestVotes, .deliver 2, .deliver 2,
          .act "n2" .concludeElection]
        fun c' _ => (c'.node "n2").role = .leader ∧ (c'.node "n1").role = .leader ∧
          (c.node "n1").log.currentTerm = (c'.node "n1").log.currentTerm := by decide +kernel
  obtain ⟨c, tr, h, hl, hx⟩ := hx.run
  obtain ⟨c', tr', hc, hl₂, hl', ht⟩ := hx.continues
  exact ⟨tr, c, tr', c', h, hc, hl₂, hl, hl', ht, leader_unique h hc hl hl' ht⟩

end DistributedKV.Raft
