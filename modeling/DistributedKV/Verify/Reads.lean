import DistributedKV.Verify.Confirmation
import DistributedKV.Verify.Safety
import DistributedKV.Verify.Waiters

/-!
# Linearizable reads

`LinearizableRead` takes the leader's commit index, has a majority confirm that it has not gone on
to a later term, and waits until so much is applied. A majority that has not gone on cannot have
committed anything in a later term. What was committed in earlier terms lies below the commit index
of a leader that has committed an entry of its own term. The code does not wait for that
(`ReadsCurrent`).
-/

namespace DistributedKV.Raft

open Theory (Tally BallotInv KeepInv LogInv)

/-! ## Conditions -/

/-- The node that an action begins a read on. -/
def Action.reader? : Action → Option NodeID
  | .act n .linearizableRead => some n
  | _ => none

/-- A read begins on a leader that has committed an entry of its term. -/
def ReadsCurrent (c : Cluster) (a : Action) : Prop :=
  ∀ n ∈ a.reader?, (c.node n).role = .leader →
    (c.node n).log.termAt (c.node n).commitIndex = some (c.node n).log.currentTerm

instance : Decidable (ReadsCurrent c a) :=
  inferInstanceAs (Decidable (∀ n ∈ a.reader?, (c.node n).role = .leader →
    (c.node n).log.termAt (c.node n).commitIndex = some (c.node n).log.currentTerm))

def Linear (c : Cluster) (a : Action) : Prop :=
  Sound c a ∧ OnAppend Node.NotStale c a ∧ ReadsCurrent c a

instance : Decidable (Linear c a) := inferInstanceAs (Decidable (_ ∧ _ ∧ _))

/-! ## What a leader has committed -/

theorem Node.Acts.choose {s : Node} (ha : s.Acts me a ef)
    (h : Theory.Op.choose t i ∈ s.actOps me a) :
    s.role = .leader ∧ t = s.log.currentTerm ∧ ef.node.commitIndex = i := by
  cases ha with
  | lead _ _ _ _ hops => rw [hops] at h; simp at h
  | ask _ _ hops | dissolve _ hops => rw [hops] at h; cases h
  | tryAdvanceCommitIndex =>
    simp only [Node.actOps] at h
    split at h
    · next hlt =>
      cases List.mem_singleton.mp h
      rcases Node.tryAdvanceCommitIndex_cases me s s.log.currentTerm with heq | ⟨hrole, -⟩
      · rw [Node.advance, heq] at hlt; exact (lt_irrefl _ hlt).elim
      · exact ⟨hrole, rfl, rfl⟩
    · cases h
  | startElection | propose => simp [Node.actOps] at h
  | _ => cases h

theorem Node.not_choose_receiveOps {s s' : Node} : .choose t i ∉ s.receiveOps s' env := by
  intro h
  simp only [Node.receiveOps, List.mem_cons, reduceCtorEq, false_or] at h
  split at h
  · split at h <;> simp at h
  · split at h
    · simp only [Node.adoptOps] at h
      split at h <;> simp at h
    · cases h
  · split at h <;> simp at h
  · cases h

section
variable {ok : Cluster → Action → Prop} (hok : ∀ {c a}, ok c a → Lossless c a)
include hok

/-- A leader has committed all that was chosen in its term. -/
theorem Shadow.chosen_le (h : Shadow cfg ok tr c r) (hl : (c.node n).role = .leader)
    (hc : r.chosen (c.node n).log.currentTerm i) : i ≤ (c.node n).commitIndex := by
  induction h generalizing i with
  | init => cases hl
  | @step tr c r a c' evs hsh hoka hs ih =>
    obtain ⟨B, V⟩ := hsh.voting
    obtain ⟨B', V'⟩ := (hsh.step hoka hs).voting
    have hlead := (V'.node n).leader hl
    -- a term in which something was chosen has its leader already
    have hold {t i} (hch : r.chosen t i) (hl : (r.applyAll (c.ops cfg a)).leads t n) :
        r.leads t n := by
      obtain ⟨K, -⟩ := hsh.backing hok
      obtain ⟨v, hv, -⟩ := cfg.quorums.inter (K.chosen hch).2 (K.chosen hch).2
      obtain ⟨m, hm⟩ := K.acked_leads hv
      exact B'.leads_unique (Theory.State.leads_applyAll hm) hl ▸ hm
    cases Cluster.step_inv hs with
    | @act m a ef hm ha =>
      have hchosen := Theory.State.chosen_applyAll hc
      simp only [Cluster.after] at hl hlead hchosen ⊢
      split at hl
      · next heq =>
        subst heq
        rw [if_pos rfl] at hlead hchosen
        rw [if_pos rfl]
        obtain ⟨hcur, hprev⟩ := ha.leader hl
        rcases hchosen with hch | hop
        · rcases hprev with ⟨hr, hne, -⟩ | ⟨hr, -⟩
          · exact (ih hr (hcur ▸ hch)).trans (ha.moves.commitIndex_le hne)
          · exact ((V.node n).candidate hr (hcur ▸ hold hch hlead)).elim
        · exact (ha.choose hop).2.2.ge
      · next hne =>
        rw [if_neg hne] at hlead hchosen
        rw [if_neg hne]
        rcases hchosen with hch | hop
        · exact ih hl hch
        · -- only the leader of a term chooses in it
          obtain ⟨hr, ht, -⟩ := ha.choose hop
          have hlm := (V.node m).leader hr
          rw [← ht] at hlm
          exact (hne (B.leads_unique ((V.node n).leader hl) hlm)).elim
    | @deliver k env ef henv hef hrec =>
      simp only [Cluster.ops, henv, hef] at hc
      have hch := (Theory.State.chosen_applyAll hc).resolve_right Node.not_choose_receiveOps
      simp only [Cluster.after] at hl hch ⊢
      split at hl
      · next heq =>
        subst heq
        rw [if_pos rfl] at hch ⊢
        obtain ⟨hr, hcur⟩ := hrec.outcome.leader hl
        exact (ih hr (hcur ▸ hch)).trans
          (hrec.outcome.commitIndex_le ((installsAhead_of_lossless hok hoka).of_deliver henv))
      · next hne =>
        rw [if_neg hne] at hch ⊢
        exact ih hl hch
    | drop => exact ih hl hc

end

/-! ## A read and its confirmation -/

/-- The read `rd` with number `k` on `n` was invoked in term `T` with commit index `i`, when the
abstract state was `r₀`. Those that confirmed it had not gone beyond `T` then. -/
structure Asks (cfg : Config) (r₀ : Abs) (n : NodeID) (k T i : ℕ) (s : Node) (rd : Read) : Prop
    extends Polled cfg n (fun v => r₀.term v ≤ T) rd where
  term : rd.term = T
  readIndex : rd.readIndex = i
  pending : ∀ pr ∈ s.pendingReads, pr.call = k →
    pr.readIndex = i ∧ (cfg.member n).needed ≤ rd.confirmed
  closed : rd.phase = .waiting true → i ≤ s.lastApplied ∧ (cfg.member n).needed ≤ rd.confirmed

namespace Asks

variable {cfg : Config} {r₀ : Abs} {n : NodeID} {s s' : Node} {rd rd' : Read}

theorem step (h : Asks cfg r₀ n k T i s rd) (hrd : s.reads[k]? = some rd)
    (hm : rd.Moves (cfg.member n) s s' msg k rd')
    (hmsg : ∀ {env req resp}, msg = some env → env.epoch = s.epoch →
      env.body = .appendResp (.confirm k) req resp → r₀.term env.src ≤ resp.term)
    (hp : s.KeepsPending (cfg.member n) s') (hla : s.lastApplied ≤ s'.lastApplied) :
    Asks cfg r₀ n k T i s' rd' := by
  obtain ⟨hpoll, hle⟩ := h.toPolled.step hm fun henv hep hb hterm =>
    (hmsg henv hep hb).trans (hterm.trans h.term.le)
  have hpend : ∀ pr ∈ s'.pendingReads, pr.call = k →
      pr.readIndex = i ∧ (cfg.member n).needed ≤ rd'.confirmed := by
    intro pr hpr hcall
    rcases hp pr hpr with hpr | ⟨rd₀, hrd₀, hri, hc⟩
    · exact ⟨(h.pending pr hpr hcall).1, (h.pending pr hpr hcall).2.trans hle⟩
    · rw [hcall, hrd] at hrd₀
      cases hrd₀
      exact ⟨hri.symm.trans h.readIndex, hc.trans hle⟩
  have hclosed (hph : rd.phase = .waiting true) :
      i ≤ s'.lastApplied ∧ (cfg.member n).needed ≤ rd'.confirmed :=
    ⟨(h.closed hph).1.trans hla, (h.closed hph).2.trans hle⟩
  refine ⟨hpoll, hm.le.term.trans h.term, hm.le.readIndex.trans h.readIndex, hpend, ?_⟩
  cases hm with
  | stay | send | heard => exact hclosed
  | wait | finish => exact nofun
  | close hpr hcall happlied =>
    obtain ⟨hri, hc⟩ := h.pending _ hpr hcall
    exact fun _ => ⟨hri ▸ happlied, hc⟩

end Asks

/-- The call `call` of `LinearizableRead` on `n`, at a later time, when the events `tr` have
happened since. -/
structure Pursued (cfg : Config) (r₀ : Abs) (n : NodeID) (call : CallID) (T i : ℕ)
    (tr : List Event) (c : Cluster) (r : Abs) : Prop where
  later : ∀ v, r₀.term v ≤ r.term v
  started : (c.node n).HasRead call
  read : ∀ {rd}, (c.node n).epoch = call.1 → (c.node n).reads[call.2]? = some rd →
    Asks cfg r₀ n call.2 T i (c.node n) rd
  answer : ∀ {env req resp}, env ∈ c.network → env.dst = n → env.epoch = call.1 →
    env.body = .appendResp (.confirm call.2) req resp → r₀.term env.src ≤ resp.term
  returned : ∀ {la}, Event.readOk n call la ∈ tr →
    cfg.quorums.IsQuorum {v | r₀.term v ≤ T} ∧ i ≤ la

/-- A read that returns has been confirmed by a majority. -/
theorem Asks.returned {cfg : Config} {s : Node} {rd : Read} (h : Asks cfg r₀ n k T i s rd)
    (hn : n ∈ cfg.ids)
    (hph : rd.phase = .confirming ∧ (cfg.member n).needed ≤ rd.confirmed ∧
      rd.readIndex ≤ s.lastApplied ∨ rd.phase = .waiting true) :
    cfg.quorums.IsQuorum {v | r₀.term v ≤ T} ∧ i ≤ s.lastApplied := by
  have hkey : (cfg.member n).needed ≤ rd.confirmed ∧ i ≤ s.lastApplied := by
    rcases hph with ⟨-, hc, hle⟩ | hph
    · exact ⟨hc, h.readIndex ▸ hle⟩
    · exact (h.closed hph).symm
  exact ⟨h.toPolled.isQuorum hn hkey.1, hkey.2⟩

theorem Cluster.step_restart {cfg : Config} {c : Cluster}
    (h : c.step cfg (.act n .restart) = some (c', evs)) :
    (c'.node n).epoch = (c.node n).epoch + 1 := by
  obtain ⟨-, h⟩ := Option.ite_none_right_eq_some.mp h
  cases h
  rw [Cluster.after_node_self]
  rfl

theorem Pursued.awaited {cfg : Config} {c : Cluster} (h : Pursued cfg r₀ n call T i tr c r) :
    Awaited cfg r₀ n call T c r :=
  ⟨h.later, h.started, fun hep hrd => ⟨(h.read hep hrd).term, (h.read hep hrd).toPolled⟩, h.answer⟩

theorem Pursued.step {cfg : Config} {c : Cluster} (h : Pursued cfg r₀ n call T i tr c r)
    (V : (voting cfg).Holds c r) (H : ∀ n, (c.node n).Indices) (hfw : Forward c a)
    (hterm : ∀ v, r.term v ≤ r'.term v) (hs : c.step cfg a = some (c', evs)) :
    Pursued cfg r₀ n call T i (tr ++ evs) c' r' := by
  have hnew := h.awaited.step V hterm hs
  refine ⟨hnew.later, hnew.started, fun {rd'} hep hrd' => ?_, hnew.answer, fun {la} hev => ?_⟩
  · obtain ⟨msg, hr, hmsg⟩ := Cluster.step_reads hs n
    have hkeep (he : (c'.node n).epoch = (c.node n).epoch) :
        (c.node n).lastApplied ≤ (c'.node n).lastApplied := by
      refine (Cluster.indices_le H hfw hs ?_).2
      rintro rfl
      have := Cluster.step_restart hs
      omega
    cases hr with
    | move he hg hm hp =>
      rw [hg, Option.map_eq_some_iff] at hrd'
      obtain ⟨rd, hrd, rfl⟩ := hrd'
      have hep := he.symm.trans hep
      exact (h.read hep hrd).step hrd (hm hrd) (h.awaited.of_heard hep hmsg) hp (hkeep he)
    | invoke _ he hreads hp =>
      -- the new read has another number
      have hlt := h.started.2 (hep.symm.trans he)
      rw [hreads, List.getElem?_append_left hlt] at hrd'
      have hep := he.symm.trans hep
      exact (h.read hep hrd').step hrd' .stay (h.awaited.of_heard hep hmsg)
        (fun pr hpr => .inl (hp ▸ hpr)) (hkeep he)
    | restart he =>
      have := h.started.1
      omega
  · rcases List.mem_append.mp hev with hev | hev
    · exact h.returned hev
    · obtain ⟨m, b, -, hm, rfl, hep, rfl, rd, hrd, hph⟩ := Cluster.step_causes hs hev
      rw [cfg.member_id] at h
      exact (h.read hep.symm hrd).returned hm hph

/-- The read has just begun. -/
theorem Pursued.init {cfg : Config} {c : Cluster} (V : (voting cfg).Holds c r) (N : Numbered c)
    (hn : n ∈ cfg.ids) (hs : c.step cfg (.act n .linearizableRead) = some (c', evs))
    (hread : (c.node n).linearizableRead (cfg.member n) = .ok (c'.node n)) :
    Pursued cfg r n ((c.node n).epoch, (c.node n).reads.length) (c.node n).log.currentTerm
      (c.node n).commitIndex [] c' r := by
  have hnew := Awaited.init V N hn hs hread
  obtain ⟨-, hs'⟩ := Node.linearizableRead_ok hread
  refine ⟨hnew.later, hnew.started, fun {rd} hep hrd => ?_, hnew.answer, nofun⟩
  obtain ⟨hT, hp⟩ := hnew.read hep hrd
  rw [hs', List.getElem?_append_right le_rfl, Nat.sub_self] at hrd
  cases hrd
  refine ⟨hp, hT, rfl, fun pr hpr hcall => ?_, nofun⟩
  rw [hs'] at hpr
  exact absurd hcall (N.pending n pr hpr).ne

/-! ## Runs -/

theorem Node.Acts.events_length {s : Node} (ha : s.Acts me a ef) : ef.events.length ≤ 1 := by
  cases ha with
  | proposeReturn | waitForApplied => dsimp only; split <;> simp
  | tryAdvanceCommitIndex => simp only [Node.advance]; split <;> simp
  | applyNext =>
    unfold Node.applyNext
    split
    · simp
    · split <;> simp
  | lead | linearizableRead | readReturn => exact le_rfl
  | _ => exact Nat.zero_le _

/-- A step has at most one event. -/
theorem Cluster.step_events_length {cfg : Config} {c : Cluster}
    (h : c.step cfg a = some (c', evs)) : evs.length ≤ 1 := by
  cases Cluster.step_inv h with
  | act _ ha => exact ha.events_length
  | deliver _ _ hrec => rw [hrec.events]; exact Nat.zero_le _
  | drop => exact Nat.zero_le _

section
variable {ok : Cluster → Action → Prop} (hok : ∀ {c a}, ok c a → Sound c a)
  (hns : ∀ {c a}, ok c a → OnAppend Node.NotStale c a)
include hok hns

theorem forward_of_sound (h : ok c a) : Forward c a :=
  ⟨hns h, installsAhead_of_lossless (lossless_of_sound hok) h⟩

theorem Shadow.indices_of_sound (h : Shadow cfg ok tr c r) (n : NodeID) :
    (c.node n).Indices := by
  have hfw {c a} (h : ok c a) := forward_of_sound hok hns h
  refine (h.indices hfw fun {tr c r k env ef} h hoka henv hef _ => ?_).node n
  -- what is committed is in the log, after the message as before it
  have hs : c.step cfg (.deliver k) =
      some (c.after env.dst ef (c.network.eraseIdx k), ef.events) := by
    simp only [Cluster.step, henv, hef]
  have hsh' := h.step hoka hs
  have hsafe := (hsh'.safe hok).node env.dst
  obtain ⟨-, -, G⟩ := hsh'.logged (checksBoundary_of_lossless (lossless_of_sound hok))
  have hlen := hsafe.1
  rw [(G.node env.dst).rep.length, Cluster.after_node_self] at hlen
  have hout := (hef ▸ Node.receive_inv .. : (c.node env.dst).Receives _ env ef).outcome
  exact (hout.commitIndex_le ((hfw hoka).2.of_deliver henv)).trans hlen

end

section
variable {ok : Cluster → Action → Prop} (hok : ∀ {c a}, ok c a → Linear c a)
include hok

theorem sound_of_linear (h : ok c a) : Sound c a := (hok h).1

theorem forward_of_linear (h : ok c a) : Forward c a :=
  forward_of_sound (sound_of_linear hok) (fun h => (hok h).2.1) h

theorem Shadow.indices_of_linear (h : Shadow cfg ok tr c r) (n : NodeID) :
    (c.node n).Indices :=
  h.indices_of_sound (sound_of_linear hok) (fun h => (hok h).2.1) n

/-- Whatever was settled before a read began on `n` lies below the commit index it has taken, if a
majority has not gone on to a later term. -/
theorem Shadow.settled_le (h : Shadow cfg ok tr c r)
    (hcur : ReadsCurrent c (.act n .linearizableRead))
    (hl : (c.node n).role = .leader) (hset : Theory.Settled r t l k)
    (hq : cfg.quorums.IsQuorum {v | r.term v ≤ (c.node n).log.currentTerm}) :
    k ≤ (c.node n).commitIndex := by
  rcases Nat.eq_zero_or_pos k with rfl | hpos
  · exact Nat.zero_le _
  have hloss {c a} (h : ok c a) := lossless_of_sound (sound_of_linear hok) h
  obtain ⟨L, -, G⟩ := h.logged (checksBoundary_of_lossless hloss)
  obtain ⟨K, -⟩ := h.backing hloss
  have V := h.voting.2.node n
  obtain ⟨T, i, -, hch, hle, -⟩ := hset.2 hpos
  refine hle.trans ?_
  rcases (K.chosen_term_le hch hq).lt_or_eq with hlt | rfl
  · have hterm := hcur n rfl hl
    cases hci : (c.node n).commitIndex with
    | zero =>
      -- a leader's term is positive, and index zero has none
      have hp := V.pos (by simp [hl])
      rw [hci] at hterm
      have h0 := (G.node n).rep.le_of_termAt hterm
      have hli : (c.node n).log.lastIncludedIndex = 0 := Nat.le_zero.mp h0.1
      rw [PersistentLog.termAt, if_pos hli.symm, (G.node n).rep.zero hli,
        Option.some.injEq] at hterm
      omega
    | succ j =>
      rw [hci] at hterm
      obtain ⟨x, hx, hxt⟩ := (G.node n).rep.termAt_some hterm
      rw [(G.node n).leader hl] at hx
      exact (K.chosen_le L hch hlt (V.leader hl) hx hxt).trans (Nat.le_succ j)
  · exact h.chosen_le hloss hl hch

/-- So does whatever was acknowledged. -/
theorem Shadow.acked_le (h : Shadow cfg ok tr c r)
    (hcur : ReadsCurrent c (.act n .linearizableRead))
    (hl : (c.node n).role = .leader) (hw : Event.proposeOk m call e ∈ tr)
    (hq : cfg.quorums.IsQuorum {v | r.term v ≤ (c.node n).log.currentTerm}) :
    e.index ≤ (c.node n).commitIndex := by
  -- the write was applied where it was acknowledged, so it was chosen
  obtain ⟨e', -, hap⟩ := h.run.proposeOk (R := fun _ _ => True)
    (fun _ => fun _ _ _ => trivial) hw
  obtain ⟨t, l, hset, -, -⟩ := h.applied (sound_of_linear hok) hap
  exact h.settled_le hok hcur hl hset hq

theorem Shadow.pursued (h : Shadow cfg ok tr c r)
    (htr : tr = tr₁ ++ Event.readInvoked n call :: tr₂) :
    ∃ r₀ T i, Pursued cfg r₀ n call T i tr₂ c r ∧
      ∀ {m wcall e}, Event.proposeOk m wcall e ∈ tr₁ →
        cfg.quorums.IsQuorum {v | r₀.term v ≤ T} → e.index ≤ i := by
  induction h generalizing tr₂ with
  | init => simp at htr
  | @step tr c r a c' evs hsh hoka hs ih =>
    obtain ⟨-, V⟩ := hsh.voting
    have hloss {c a} (h : ok c a) := lossless_of_sound (sound_of_linear hok) h
    have A := hsh.advances hloss hoka hs
    have hlen := Cluster.step_events_length hs
    -- the read began in this step, or in an earlier one
    have hsplit : (tr₁ = tr ∧ evs = .readInvoked n call :: tr₂) ∨
        ∃ tr₃, tr = tr₁ ++ Event.readInvoked n call :: tr₃ ∧ tr₂ = tr₃ ++ evs := by
      rcases List.append_eq_append_iff.mp htr with ⟨l, h₁, h₂⟩ | ⟨l, h₁, h₂⟩
      · rw [h₂, List.length_append, List.length_cons] at hlen
        obtain rfl : l = [] := List.length_eq_zero_iff.mp (by omega)
        exact .inl ⟨by simpa using h₁, h₂⟩
      · cases l with
        | nil => exact .inl ⟨by simpa using h₁.symm, h₂.symm⟩
        | cons x l =>
          cases h₂
          exact .inr ⟨l, h₁, rfl⟩
    rcases hsplit with ⟨rfl, rfl⟩ | ⟨tr₃, htr₃, rfl⟩
    · obtain ⟨m, b, rfl, hm, hid, hcall, rfl, hread⟩ :=
        Cluster.step_causes hs List.mem_cons_self
      rw [cfg.member_id] at hid
      subst hid hcall
      rw [List.length_cons] at hlen
      obtain rfl : tr₂ = [] := List.length_eq_zero_iff.mp (by omega)
      have hrole := (Node.linearizableRead_ok hread).1
      refine ⟨r, _, _, .init V hsh.run.numbered hm hs hread, fun hw hq => ?_⟩
      exact hsh.acked_le hok (hok hoka).2.2 hrole hw hq
    · obtain ⟨r₀, T, i, hp, hacked⟩ := ih htr₃
      exact ⟨r₀, T, i, hp.step V (hsh.indices_of_linear hok) (forward_of_linear hok hoka) A.term hs,
        hacked⟩

end

/-- **Linearizable reads see every acknowledged write**, in sound runs in which reads begin on a
leader that has committed an entry of its term. -/
theorem read_sees_write (h : Run cfg Linear tr c)
    (htr : tr = tr₁ ++ .readInvoked n call :: tr₂) (hw : .proposeOk m wcall e ∈ tr₁)
    (hr : .readOk n call la ∈ tr₂) : e.index ≤ la := by
  obtain ⟨r, h⟩ := h.shadow
  obtain ⟨r₀, T, i, hp, hacked⟩ := h.pursued id htr
  obtain ⟨hq, hle⟩ := hp.returned hr
  exact (hacked hw hq).trans hle

/-- A read on `n1` after a write on `n1`. -/
theorem read_sees_write_trio : ∃ tr₁ tr₂ c e la,
    Run (trio 0) Linear (tr₁ ++ .readInvoked "n1" (0, 0) :: tr₂) c ∧
    .proposeOk "n1" (0, 0) e ∈ tr₁ ∧ .readOk "n1" (0, 0) la ∈ tr₂ ∧ e.index = 2 ∧
    e.index ≤ la := by
  have hx : Cluster.init.Reaches (trio 0) Linear []
      (electBy "n1" 0 ++
        ([.drop 0, .act "n1" (.propose .put "k" [] ""), .act "n1" (.replicate "n2"), .deliver 0,
          .deliver 0, .act "n1" .tryAdvanceCommitIndex, .act "n1" .applyBegin,
          .act "n1" .applyNext, .act "n1" .applyNext, .act "n1" (.proposeReturn 0),
          .act "n1" .linearizableRead, .act "n1" (.heartbeat 0 "n2"), .deliver 0, .deliver 0,
          .act "n1" (.waitForApplied 0)] : List Action))
      fun _ tr => tr =
        ([.elected "n1" 1, .committed "n1" 1 2, .applied "n1" 1 ⟨1, 1, .noop, "", [], ""⟩ none,
          .applied "n1" 2 ⟨2, 1, .put, "k", [], ""⟩ (some (0, 0)),
          .proposeOk "n1" (0, 0) ⟨2, 1, .put, "k", [], ""⟩] : List Event) ++
        ([.readInvoked "n1" (0, 0), .readOk "n1" (0, 0) 2] : List Event) := by
    decide +kernel
  obtain ⟨c, tr, h, rfl⟩ := hx.run
  have hw : Event.proposeOk "n1" (0, 0) ⟨2, 1, .put, "k", [], ""⟩ ∈
      [Event.elected "n1" 1, .committed "n1" 1 2, .applied "n1" 1 ⟨1, 1, .noop, "", [], ""⟩ none,
        .applied "n1" 2 ⟨2, 1, .put, "k", [], ""⟩ (some (0, 0)),
        .proposeOk "n1" (0, 0) ⟨2, 1, .put, "k", [], ""⟩] := by decide
  have hr : Event.readOk "n1" (0, 0) 2 ∈ [Event.readOk "n1" (0, 0) 2] := by decide
  exact ⟨_, _, c, _, _, h, hw, hr, rfl, read_sees_write h rfl hw hr⟩

/-- `n1` commits, applies and acknowledges a write. `n2` becomes leader and reads at once, with
its commit index of zero. -/
theorem read_sees_write_fails : ∃ tr₁ tr₂ c e la,
    Run (trio 0) unrestricted (tr₁ ++ .readInvoked "n2" (0, 0) :: tr₂) c ∧
    .proposeOk "n1" (0, 0) e ∈ tr₁ ∧ .readOk "n2" (0, 0) la ∈ tr₂ ∧ ¬e.index ≤ la := by
  have hx : Cluster.init.Reaches (trio 0) unrestricted []
      (electBy "n1" 0 ++
        ([.drop 0, .act "n1" (.propose .put "k" [] ""), .act "n1" (.replicate "n2"), .deliver 0,
          .deliver 0, .act "n1" .tryAdvanceCommitIndex, .act "n1" .applyBegin,
          .act "n1" .applyNext, .act "n1" .applyNext, .act "n1" (.proposeReturn 0),
          .act "n2" .startElection, .act "n2" .requestVotes, .drop 0, .deliver 0, .deliver 0,
          .act "n2" .concludeElection, .act "n2" .linearizableRead,
          .act "n2" (.heartbeat 0 "n3"), .deliver 0, .deliver 0,
          .act "n2" (.waitForApplied 0)] : List Action))
      fun _ tr => tr =
        ([.elected "n1" 1, .committed "n1" 1 2, .applied "n1" 1 ⟨1, 1, .noop, "", [], ""⟩ none,
          .applied "n1" 2 ⟨2, 1, .put, "k", [], ""⟩ (some (0, 0)),
          .proposeOk "n1" (0, 0) ⟨2, 1, .put, "k", [], ""⟩, .elected "n2" 2] : List Event) ++
        ([.readInvoked "n2" (0, 0), .readOk "n2" (0, 0) 0] : List Event) := by
    decide +kernel
  obtain ⟨c, tr, h, rfl⟩ := hx.run
  exact ⟨_, _, c, ⟨2, 1, .put, "k", [], ""⟩, 0, h, by decide, by decide, by decide⟩

end DistributedKV.Raft
