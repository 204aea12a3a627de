import DistributedKV.Verify.Leaders

/-!
# The confirmation of a leader

`LinearizableRead` asks all peers for their terms. An answer that is counted for it was given after
the call began, by a peer that was in no later term than the leader then. A majority of such answers
leaves no room for a leader of a later term.
-/

namespace DistributedKV.Raft

open Theory (Tally)

/-! ## Reads and the calls they make -/

/-- What a step does to the reads of any node. -/
theorem Cluster.step_reads {cfg : Config} {c : Cluster} (h : c.step cfg a = some (c', evs))
    (n : NodeID) : ∃ msg, (c.node n).Reads (cfg.member n) (c'.node n) msg ∧
      ∀ env ∈ msg, env ∈ c.network ∧ env.dst = n := by
  cases Cluster.step_changes h n with
  | same heq => exact ⟨none, heq ▸ .same rfl rfl rfl, nofun⟩
  | act _ _ hacts heq => exact ⟨none, heq ▸ hacts.reads, nofun⟩
  | @receive _ env _ _ henv hdst hrec heq =>
    refine ⟨some env, heq ▸ hrec.reads, fun env' h' => ?_⟩
    cases h'
    exact ⟨List.mem_of_getElem? henv, hdst⟩

/-- The read that a heartbeat or its answer belongs to. -/
def Envelope.confirm? : Envelope → Option (NodeID × CallID)
  | ⟨src, _, ep, .appendReq (.confirm k) _⟩ => some (src, ep, k)
  | ⟨_, dst, ep, .appendResp (.confirm k) _ _⟩ => some (dst, ep, k)
  | _ => none

/-- The call is of an earlier process, or it is one of the reads. -/
def Node.HasRead (s : Node) (call : CallID) : Prop :=
  call.1 ≤ s.epoch ∧ (call.1 = s.epoch → call.2 < s.reads.length)

theorem Node.HasRead.step {s s' : Node} (h : s.HasRead call) (hr : s.Reads me s' msg) :
    s'.HasRead call := by
  obtain ⟨hle, hlen⟩ := hr.length_le
  refine ⟨h.1.trans hle, fun heq => ?_⟩
  have hep : call.1 = s.epoch := le_antisymm h.1 (heq ▸ hle)
  exact (h.2 hep).trans_le (hlen (heq.symm.trans hep))

namespace Node

variable {me : Member} {s : Node}

/-- Heartbeats belong to a read of their sender. -/
theorem Acts.confirm (ha : s.Acts me a ef) (henv : env ∈ ef.msgs) (hx : x ∈ env.confirm?) :
    x.1 = me.id ∧ s.HasRead x.2 := by
  cases ha.emits henv with
  | voteReq | appendReq | snapReq => cases hx
  | heartbeat hrd =>
    cases hx
    exact ⟨rfl, le_rfl, fun _ => (List.getElem?_eq_some_iff.mp hrd).1⟩

theorem Receives.confirm (hrec : s.Receives me env ef) (henv : env' ∈ ef.msgs)
    (hx : x ∈ env'.confirm?) : x ∈ env.confirm? := by
  cases hrec.replies henv with
  | voteReq | snapReq => cases hx
  | @appendReq _ _ _ caller =>
    cases caller with
    | replicate => cases hx
    | confirm => exact hx

/-- Whoever answers tells the term it has met. -/
theorem Receives.answer (hrec : s.Receives me env ef) (henv : env' ∈ ef.msgs)
    (hb : env'.body = .appendResp caller req resp) :
    env'.src = env.dst ∧ s.log.currentTerm ≤ resp.term := by
  cases hrec.replies henv with
  | voteReq | snapReq => cases hb
  | appendReq =>
    cases hb
    exact ⟨rfl, handleAppendEntries_term ..⟩

theorem Acts.not_answer (ha : s.Acts me a ef) (henv : env ∈ ef.msgs) :
    env.body ≠ .appendResp caller req resp := by
  intro hb
  cases ha.emits henv with
  | voteReq | appendReq | snapReq | heartbeat => cases hb

end Node

theorem Cluster.step_confirm {cfg : Config} {c : Cluster} (h : c.step cfg a = some (c', evs))
    (henv : env ∈ c'.network) (hx : x ∈ env.confirm?) :
    (∃ env₀ ∈ c.network, x ∈ env₀.confirm?) ∨ (c.node x.1).HasRead x.2 := by
  cases Cluster.step_network h henv with
  | old henv => exact .inl ⟨env, henv, hx⟩
  | act _ ha henv =>
    obtain ⟨hid, hread⟩ := ha.confirm henv hx
    rw [hid, cfg.member_id]
    exact .inr hread
  | reply henv₀ hrec henv => exact .inl ⟨_, henv₀, hrec.confirm henv hx⟩

theorem Cluster.step_answer {cfg : Config} {c : Cluster} (h : c.step cfg a = some (c', evs))
    (henv : env ∈ c'.network) (hb : env.body = .appendResp caller req resp) :
    env ∈ c.network ∨ (c.node env.src).log.currentTerm ≤ resp.term := by
  cases Cluster.step_network h henv with
  | old henv => exact .inl henv
  | act _ ha henv => exact (ha.not_answer henv hb).elim
  | reply _ hrec henv =>
    obtain ⟨hsrc, hle⟩ := hrec.answer henv hb
    exact .inr (hsrc ▸ hle)

structure Numbered (c : Cluster) : Prop where
  pending : ∀ n, ∀ pr ∈ (c.node n).pendingReads, pr.call < (c.node n).reads.length
  asked : ∀ env ∈ c.network, ∀ x ∈ env.confirm?, (c.node x.1).HasRead x.2

theorem Run.numbered (h : Run cfg ok tr c) : Numbered c := by
  induction h with
  | init => exact ⟨nofun, nofun⟩
  | step h _ hs ih =>
    refine ⟨fun n pr hpr => ?_, fun env henv x hx => ?_⟩
    · obtain ⟨msg, hr, -⟩ := Cluster.step_reads hs n
      have hlen := hr.length_le.2
      cases hr with
      | move he _ _ hp =>
        refine lt_of_lt_of_le ?_ (hlen he)
        rcases hp pr hpr with hpr | ⟨rd, hrd, -⟩
        · exact ih.pending n pr hpr
        · exact (List.getElem?_eq_some_iff.mp hrd).1
      | invoke _ he _ hp => exact (ih.pending n pr (hp ▸ hpr)).trans_le (hlen he)
      | restart _ _ hp => rw [hp] at hpr; cases hpr
    · obtain ⟨msg, hr, -⟩ := Cluster.step_reads hs x.1
      refine Node.HasRead.step ?_ hr
      rcases Cluster.step_confirm hs henv hx with ⟨env₀, henv₀, hx⟩ | hx
      · exact ih.asked env₀ henv₀ x hx
      · exact hx

/-! ## Counting the answers -/

/-- The answers of the peers to the read `rd` of `n` are counted: those that confirmed it
satisfy `P`. -/
structure Polled (cfg : Config) (n : NodeID) (P : NodeID → Prop) (rd : Read) : Prop where
  nodup : (rd.unsent ++ rd.awaiting).Nodup
  peers : rd.unsent ++ rd.awaiting ⊆ (cfg.member n).peers
  tally : Tally cfg.ids.toFinset (rd.unsent ++ rd.awaiting) rd.confirmed P

namespace Polled

variable {cfg : Config} {n : NodeID} {P : NodeID → Prop} {rd rd' : Read}

/-- A read that has just begun is confirmed by the leader itself. -/
theorem init (hn : n ∈ cfg.ids) (hP : P n) :
    Polled cfg n P { readIndex := i, term := T, unsent := (cfg.member n).peers } := by
  refine ⟨?_, ?_, ?_⟩ <;> dsimp only <;> rw [List.append_nil]
  · exact cfg.peers_nodup n
  · exact List.Subset.refl _
  · exact .single (List.mem_toFinset.mpr hn) cfg.not_mem_peers hP

theorem step (h : Polled cfg n P rd) (hm : rd.Moves (cfg.member n) s s' msg k rd')
    (hmsg : ∀ {env req resp}, msg = some env → env.epoch = s.epoch →
      env.body = .appendResp (.confirm k) req resp → resp.term ≤ rd.term → P env.src) :
    Polled cfg n P rd' ∧ rd.confirmed ≤ rd'.confirmed := by
  cases hm with
  | stay | wait | close | finish => exact ⟨⟨h.nodup, h.peers, h.tally⟩, le_rfl⟩
  | @send peer hpeer =>
    have hperm : (rd.unsent.erase peer ++ peer :: rd.awaiting).Perm (rd.unsent ++ rd.awaiting) :=
      List.perm_middle.trans ((List.perm_cons_erase hpeer).symm.append_right rd.awaiting)
    exact ⟨⟨hperm.nodup_iff.mpr h.nodup, List.Subset.trans hperm.subset h.peers,
      h.tally.subset hperm.subset⟩, le_rfl⟩
  | @heard env req resp c' henv hep hb hsrc hc =>
    have hmem : env.src ∈ rd.unsent ++ rd.awaiting := List.mem_append_right _ hsrc
    have hno : env.src ∉ rd.unsent := fun h' =>
      List.disjoint_of_nodup_append h.nodup h' hsrc
    have herase : rd.unsent ++ rd.awaiting.erase env.src =
        (rd.unsent ++ rd.awaiting).erase env.src := (List.erase_append_right _ hno).symm
    refine ⟨⟨?_, ?_, ?_⟩, by dsimp only; omega⟩
    · rw [herase]; exact h.nodup.erase _
    · rw [herase]; exact List.Subset.trans List.erase_subset h.peers
    · show Tally _ (rd.unsent ++ rd.awaiting.erase env.src) c' _
      rw [herase]
      rcases hc with rfl | ⟨rfl, hterm⟩
      · exact h.tally.subset List.erase_subset
      · refine h.tally.count h.nodup ?_ hmem (hmsg henv hep hb hterm)
        exact List.mem_toFinset.mpr ((cfg.mem_peers n _).mp (h.peers hmem)).1

theorem isQuorum (h : Polled cfg n P rd) (hn : n ∈ cfg.ids)
    (hc : (cfg.member n).needed ≤ rd.confirmed) : cfg.quorums.IsQuorum {v | P v} :=
  h.tally.isQuorum (cfg.needed_eq hn ▸ hc)

end Polled

/-! ## A call and its answers -/

/-- The call `call` of `LinearizableRead` on `n`, which began in term `T` when the abstract state
was `r₀`, at a later time. Those that confirmed it had not gone beyond `T` when it began. -/
structure Awaited (cfg : Config) (r₀ : Abs) (n : NodeID) (call : CallID) (T : ℕ) (c : Cluster)
    (r : Abs) : Prop where
  later : ∀ v, r₀.term v ≤ r.term v
  started : (c.node n).HasRead call
  read : ∀ {rd}, (c.node n).epoch = call.1 → (c.node n).reads[call.2]? = some rd →
    rd.term = T ∧ Polled cfg n (fun v => r₀.term v ≤ T) rd
  answer : ∀ {env req resp}, env ∈ c.network → env.dst = n → env.epoch = call.1 →
    env.body = .appendResp (.confirm call.2) req resp → r₀.term env.src ≤ resp.term

namespace Awaited

variable {cfg : Config} {c c' : Cluster} {r₀ r r' : Abs} {n : NodeID} {call : CallID}

theorem init (V : (voting cfg).Holds c r) (N : Numbered c) (hn : n ∈ cfg.ids)
    (hs : c.step cfg (.act n .linearizableRead) = some (c', evs))
    (hread : (c.node n).linearizableRead (cfg.member n) = .ok (c'.node n)) :
    Awaited cfg r n ((c.node n).epoch, (c.node n).reads.length) (c.node n).log.currentTerm
      c' r := by
  obtain ⟨-, hs'⟩ := Node.linearizableRead_ok hread
  have hep : (c'.node n).epoch = (c.node n).epoch := by rw [hs']
  have hreads : (c'.node n).reads = (c.node n).reads ++ [{
      readIndex := (c.node n).commitIndex, term := (c.node n).log.currentTerm
      unsent := (cfg.member n).peers }] := by rw [hs']
  refine ⟨fun _ => le_rfl, ⟨hep.ge, fun _ => by simp [hreads]⟩, fun {rd} _ hrd => ?_,
    fun {env req resp} henv hdst hep hb => ?_⟩
  · rw [hreads, List.getElem?_append_right le_rfl, Nat.sub_self] at hrd
    cases hrd
    exact ⟨rfl, .init hn (V.node n).term.le⟩
  · -- nobody can have answered yet
    obtain ⟨src, dst, ep, body⟩ := env
    cases hb
    obtain rfl : dst = n := hdst
    obtain rfl : ep = (c.node dst).epoch := hep
    have hread : (c.node dst).HasRead ((c.node dst).epoch, (c.node dst).reads.length) := by
      rcases Cluster.step_confirm hs henv rfl with ⟨env₀, henv₀, hx⟩ | hread
      · exact N.asked env₀ henv₀ _ hx
      · exact hread
    exact absurd (hread.2 rfl) (lt_irrefl _)

/-- The message that a read moves on with was answered after the call began. -/
theorem of_heard (h : Awaited cfg r₀ n call T c r) (hep : (c.node n).epoch = call.1)
    (hmsg : ∀ env ∈ msg, env ∈ c.network ∧ env.dst = n) (henv : msg = some env)
    (hep' : env.epoch = (c.node n).epoch)
    (hb : env.body = .appendResp (.confirm call.2) req resp) : r₀.term env.src ≤ resp.term :=
  let ⟨hmem, hdst⟩ := hmsg env henv
  h.answer hmem hdst (hep'.trans hep) hb

theorem step (h : Awaited cfg r₀ n call T c r) (V : (voting cfg).Holds c r)
    (hterm : ∀ v, r.term v ≤ r'.term v) (hs : c.step cfg a = some (c', evs)) :
    Awaited cfg r₀ n call T c' r' := by
  obtain ⟨msg, hr, hmsg⟩ := Cluster.step_reads hs n
  refine ⟨fun v => (h.later v).trans (hterm v), h.started.step hr, fun {rd'} hep hrd' => ?_,
    fun {env req resp} henv hdst hep hb => ?_⟩
  · have hnew (he : (c'.node n).epoch = (c.node n).epoch) {rd}
        (hrd : (c.node n).reads[call.2]? = some rd)
        (hm : rd.Moves (cfg.member n) (c.node n) (c'.node n) msg call.2 rd') :
        rd'.term = T ∧ Polled cfg n (fun v => r₀.term v ≤ T) rd' := by
      obtain ⟨hT, hp⟩ := h.read (he.symm.trans hep) hrd
      refine ⟨hm.le.term.trans hT, (hp.step hm fun henv hep' hb hle => ?_).1⟩
      exact (h.of_heard (he.symm.trans hep) hmsg henv hep' hb).trans (hle.trans hT.le)
    cases hr with
    | move he hg hm =>
      rw [hg, Option.map_eq_some_iff] at hrd'
      obtain ⟨rd, hrd, rfl⟩ := hrd'
      exact hnew he hrd (hm hrd)
    | invoke _ he hreads =>
      -- the new read has another number
      have hlt := h.started.2 (hep.symm.trans he)
      rw [hreads, List.getElem?_append_left hlt] at hrd'
      exact hnew he hrd' .stay
    | restart he =>
      have := h.started.1
      omega
  · rcases Cluster.step_answer hs henv hb with henv | hle
    · exact h.answer henv hdst hep hb
    · rw [← (V.node env.src).term] at hle
      exact (h.later _).trans hle

theorem continues (h : Awaited cfg r₀ n call T c r) (hsh : Shadow cfg ok tr c r)
    (hc : Continues cfg ok tr c tr' c') : ∃ r', Awaited cfg r₀ n call T c' r' := by
  have hboth : ∃ r', Shadow cfg ok tr' c' r' ∧ Awaited cfg r₀ n call T c' r' := by
    induction hc with
    | refl => exact ⟨r, hsh, h⟩
    | step _ hok hs ih =>
      obtain ⟨r', hsh', h'⟩ := ih
      exact ⟨_, .step hsh' hok hs, h'.step hsh'.voting.2 (hsh'.term_le hs) hs⟩
  exact hboth.imp fun _ => And.right

end Awaited

/-! ## Runs -/

theorem Cluster.step_linearizableRead {cfg : Config} {c : Cluster}
    (h : c.step cfg (.act n .linearizableRead) = some (c', evs)) :
    n ∈ cfg.ids ∧ (c.node n).linearizableRead (cfg.member n) = .ok (c'.node n) := by
  obtain ⟨hn, h⟩ := Option.ite_none_right_eq_some.mp h
  refine ⟨hn, ?_⟩
  simp only [Node.act] at h
  split at h
  · next hef =>
    cases h
    split at hef
    · next hread =>
      cases hef
      rw [Cluster.after_node_self]
      exact hread
    · cases hef
  · cases h

/-- **Confirmation of leadership is sound.** If a read that began on a leader has been confirmed by
a majority, no node was leader in a later term before it began. -/
theorem leadership_confirmed (h : Run cfg ok tr₀ c₀) (hl : (c₀.node m).role = .leader)
    (hc₀ : Continues cfg ok tr₀ c₀ tr c) (hok : ok c (.act n .linearizableRead))
    (hs : c.step cfg (.act n .linearizableRead) = some (c₁, evs))
    (hc₁ : Continues cfg ok (tr ++ evs) c₁ tr' c')
    (hep : (c'.node n).epoch = (c.node n).epoch)
    (hrd : (c'.node n).reads[(c.node n).reads.length]? = some rd)
    (hconf : (cfg.member n).needed ≤ rd.confirmed) :
    (c.node n).role = .leader ∧
      (c₀.node m).log.currentTerm ≤ (c.node n).log.currentTerm := by
  obtain ⟨r₀, hsh₀⟩ := h.shadow
  obtain ⟨r, hsh, hleads⟩ := hsh₀.continues hc₀
  obtain ⟨B, V⟩ := hsh.voting
  obtain ⟨hn, hread⟩ := Cluster.step_linearizableRead hs
  have hstart := Awaited.init V hsh.run.numbered hn hs hread
  obtain ⟨r', hend⟩ := hstart.continues (hsh.step hok hs) hc₁
  obtain ⟨-, hp⟩ := hend.read hep hrd
  exact ⟨(Node.linearizableRead_ok hread).1,
    B.leads_le_quorum (hleads _ _ (hsh₀.leads_of_leader hl)) (hp.isQuorum hn hconf)⟩

/-- `n1` leads term 1 and is cut off. `n2` leads term 2, and its read is confirmed by `n3`. -/
theorem leadership_confirmed_trio : ∃ tr₀ c₀ tr c evs c₁ tr' c' rd,
    Run (trio 0) unrestricted tr₀ c₀ ∧ (c₀.node "n1").role = .leader ∧
    Continues (trio 0) unrestricted tr₀ c₀ tr c ∧
    c.step (trio 0) (.act "n2" .linearizableRead) = some (c₁, evs) ∧
    Continues (trio 0) unrestricted (tr ++ evs) c₁ tr' c' ∧
    (c'.node "n2").reads[0]? = some rd ∧ ((trio 0).member "n2").needed ≤ rd.confirmed ∧
    (c₀.node "n1").log.currentTerm = 1 ∧ (c.node "n2").role = .leader ∧
      (c₀.node "n1").log.currentTerm ≤ (c.node "n2").log.currentTerm := by
  have hx : Cluster.init.Reaches (trio 0) unrestricted [] (electBy "n1" 0) fun c₀ tr₀ =>
      (c₀.node "n1").role = .leader ∧ (c₀.node "n1").log.currentTerm = 1 ∧
      c₀.Reaches (trio 0) unrestricted tr₀
        [.drop 0, .act "n2" .startElection, .act "n2" .requestVotes, .drop 0, .deliver 0,
          .deliver 0, .act "n2" .concludeElection] fun c tr =>
      (c.node "n2").reads.length = 0 ∧
      ∃ x ∈ c.step (trio 0) (.act "n2" .linearizableRead),
        x.1.Reaches (trio 0) unrestricted (tr ++ x.2)
          [.act "n2" (.heartbeat 0 "n3"), .deliver 0, .deliver 0] fun c' _ =>
        (c'.node "n2").epoch = (c.node "n2").epoch ∧
        ∃ rd ∈ (c'.node "n2").reads[0]?, ((trio 0).member "n2").needed ≤ rd.confirmed := by
    decide +kernel
  obtain ⟨c₀, tr₀, h₀, hl, ht, hx⟩ := hx.run
  obtain ⟨c, tr, hc, hlen, ⟨c₁, evs⟩, hs, hx⟩ := hx.continues
  obtain ⟨c', tr', hc', hep, rd, hrd, hconf⟩ := hx.continues
  exact ⟨tr₀, c₀, tr, c, evs, c₁, tr', c', rd, h₀, hl, hc, hs, hc', hrd, hconf, ht,
    leadership_confirmed h₀ hl hc trivial hs hc' hep (hlen ▸ hrd) hconf⟩

end DistributedKV.Raft
