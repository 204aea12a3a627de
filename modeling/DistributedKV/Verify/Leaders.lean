import DistributedKV.Verify.Election

/-!
# Requests come from leaders

Every `AppendEntries` and `InstallSnapshot` request in flight carries a term that its sender was
elected in. A leader is therefore never the target of a request of its own term.
-/

namespace DistributedKV.Raft

open Theory (BallotInv)

/-! ## The reads of a node -/

/-- What a step from `s` to `s'` does to the read `rd` of number `call`. The message that was
handled, if any, is `msg`. -/
inductive Read.Moves (me : Member) (s s' : Node) (msg : Option Envelope) (call : ℕ) (rd : Read) :
    Read → Prop where
  | stay : Moves me s s' msg call rd rd
  | send : peer ∈ rd.unsent → Moves me s s' msg call rd { rd with
      unsent := rd.unsent.erase peer, awaiting := peer :: rd.awaiting }
  | heard : msg = some env → env.epoch = s.epoch →
    env.body = .appendResp (.confirm call) req resp → env.src ∈ rd.awaiting →
    k = rd.confirmed ∨ k = rd.confirmed + 1 ∧ resp.term ≤ rd.term →
    Moves me s s' msg call rd { rd with
      awaiting := rd.awaiting.erase env.src, confirmed := k }
  | wait : rd.phase = .confirming → me.needed ≤ rd.confirmed →
    Moves me s s' msg call rd { rd with phase := .waiting false }
  | close : pr ∈ s.pendingReads → pr.call = call → pr.readIndex ≤ s'.lastApplied →
    Moves me s s' msg call rd { rd with phase := .waiting true }
  | finish : Moves me s s' msg call rd { rd with phase := .returned }

/-- `rd'` is the read `rd`, further on. -/
structure Read.Le (rd rd' : Read) : Prop where
  term : rd'.term = rd.term
  readIndex : rd'.readIndex = rd.readIndex
  unsent : rd'.unsent ⊆ rd.unsent

theorem Read.Moves.le {rd rd' : Read} (h : rd.Moves me s s' msg call rd') : rd.Le rd' := by
  cases h with
  | send => exact ⟨rfl, rfl, List.erase_subset⟩
  | _ => exact ⟨rfl, rfl, List.Subset.refl _⟩

namespace Node

variable {me : Member} {s s' : Node} {call : ℕ} {rd rd' : Read} {msg : Option Envelope}

/-- A pending read was pending before, or it is one that has just been confirmed. -/
def KeepsPending (me : Member) (s s' : Node) : Prop :=
  ∀ pr ∈ s'.pendingReads, pr ∈ s.pendingReads ∨ ∃ rd, s.reads[pr.call]? = some rd ∧
    rd.readIndex = pr.readIndex ∧ me.needed ≤ rd.confirmed

/-- What a step does to the reads of a node. -/
inductive Reads (me : Member) (s s' : Node) (msg : Option Envelope) : Prop where
  | move {g : ℕ → Read → Read} : s'.epoch = s.epoch →
    (∀ call, s'.reads[call]? = s.reads[call]?.map (g call)) →
    (∀ {call : ℕ} {rd}, s.reads[call]? = some rd → rd.Moves me s s' msg call (g call rd)) →
    s.KeepsPending me s' → Reads me s s' msg
  | invoke : s.role = .leader → s'.epoch = s.epoch →
    s'.reads = s.reads ++ [{
      readIndex := s.commitIndex, term := s.log.currentTerm, unsent := me.peers }] →
    s'.pendingReads = s.pendingReads → Reads me s s' msg
  | restart : s'.epoch = s.epoch + 1 → s'.reads = [] → s'.pendingReads = [] → Reads me s s' msg

namespace Reads

theorem same (he : s'.epoch = s.epoch) (hr : s'.reads = s.reads)
    (hp : s'.pendingReads = s.pendingReads) : s.Reads me s' msg := by
  refine .move (g := fun _ rd => rd) he (fun call => ?_) (fun _ => .stay) fun pr hpr => .inl ?_
  · rw [hr, Option.map_id']
  · exact hp ▸ hpr

/-- One read moves on. -/
theorem update (hrd : s.reads[call]? = some rd) (he : s'.epoch = s.epoch)
    (hr : s'.reads = s.reads.set call rd') (hm : rd.Moves me s s' msg call rd')
    (hp : s.KeepsPending me s') : s.Reads me s' msg := by
  refine .move (g := fun call' rd => if call = call' then rd' else rd) he (fun call' => ?_)
    (fun {call' rd₀} hrd₀ => ?_) hp
  · rw [hr, List.getElem?_set]
    split
    · next heq =>
      subst heq
      rw [if_pos (List.getElem?_eq_some_iff.mp hrd).1, hrd]
      rfl
    · exact Option.map_id'.symm
  · split
    · next heq =>
      subst heq
      rw [hrd] at hrd₀
      cases hrd₀
      exact hm
    · exact .stay

/-- A read was there before, unless it has just been invoked on a leader. -/
theorem read (h : s.Reads me s' msg) (hrd : s'.reads[call]? = some rd') :
    (∃ rd, s.reads[call]? = some rd ∧ rd.Moves me s s' msg call rd') ∨
      s.role = .leader ∧ call = s.reads.length ∧
        rd' = { readIndex := s.commitIndex, term := s.log.currentTerm, unsent := me.peers } := by
  cases h with
  | move _ hg hm =>
    rw [hg, Option.map_eq_some_iff] at hrd
    obtain ⟨rd, hrd, rfl⟩ := hrd
    exact .inl ⟨rd, hrd, hm hrd⟩
  | invoke hrole _ hr =>
    rw [hr, List.getElem?_append] at hrd
    split at hrd
    · exact .inl ⟨rd', hrd, .stay⟩
    · next hlt =>
      rw [List.getElem?_singleton] at hrd
      split at hrd <;> cases hrd
      exact .inr ⟨hrole, by omega, rfl⟩
  | restart _ hr => rw [hr] at hrd; cases hrd

/-- Reads are numbered on within a process. -/
theorem length_le (h : s.Reads me s' msg) :
    s.epoch ≤ s'.epoch ∧ (s'.epoch = s.epoch → s.reads.length ≤ s'.reads.length) := by
  cases h with
  | move he hg =>
    refine ⟨he.ge, fun _ => ?_⟩
    by_contra hlt
    have hnone := hg s'.reads.length
    rw [List.getElem?_eq_none le_rfl, eq_comm, Option.map_eq_none_iff,
      List.getElem?_eq_none_iff] at hnone
    omega
  | invoke _ he hr => exact ⟨he.ge, fun _ => by simp [hr]⟩
  | restart he => exact ⟨by omega, fun h' => by omega⟩

end Reads

/-- An entry is applied: reads that wait for it are closed. -/
theorem reads_applyOne : s.Reads me (s.applyOne me i stop e) msg := by
  obtain ⟨he, -, -, -, hr, hp⟩ := applyOne_calls me s i stop e
  refine .move he (fun call => hr ▸ afterApply_reads s i stop e call) (fun {call rd} _ => ?_)
    fun pr hpr => .inl ?_
  · split
    · next hex =>
      obtain ⟨pr, hpr, hle, hcall⟩ := hex
      exact .close hpr hcall (hle.trans (applyOne_spec ..).1.ge)
    · exact .stay
  · rw [hp] at hpr
    exact List.mem_of_mem_filter hpr

theorem Acts.reads (ha : s.Acts me a ef) : s.Reads me ef.node none := by
  have keep {s' : Node} (hp : s'.pendingReads = s.pendingReads) : s.KeepsPending me s' :=
    fun pr hpr => .inl (hp ▸ hpr)
  cases ha with
  | startElection | ask | dissolve | proposeReturn | proposeCancel | replicate | sendSnapshot
  | applyBegin => exact .same rfl rfl rfl
  | lead _ _ _ hs => rw [hs]; exact .same rfl rfl rfl
  | propose hs => obtain ⟨-, rfl⟩ := propose_ok hs; exact .same rfl rfl rfl
  | tryAdvanceCommitIndex => rw [advance, tryAdvanceCommitIndex_eq]; exact .same rfl rfl rfl
  | linearizableRead hs =>
    obtain ⟨hrole, rfl⟩ := linearizableRead_ok hs
    exact .invoke hrole rfl rfl rfl
  | heartbeat hrd hp => exact .update hrd rfl rfl (.send hp) (keep rfl)
  | @waitForApplied call rd hrd hphase hc =>
    unfold Node.waitForApplied
    split
    · exact .update hrd rfl rfl .finish (keep rfl)
    · refine .update hrd rfl rfl (.wait hphase hc) fun pr hpr => ?_
      rcases List.mem_append.mp hpr with hpr | hpr
      · exact .inl hpr
      · cases List.mem_singleton.mp hpr
        exact .inr ⟨rd, hrd, rfl, hc⟩
  | readReturn hrd => exact .update hrd rfl rfl .finish (keep rfl)
  | readCancel hrd =>
    exact .update hrd rfl rfl .finish fun pr hpr => .inl (List.mem_of_mem_filter hpr)
  | applyNext =>
    unfold Node.applyNext
    split
    · exact .same rfl rfl rfl
    · split
      · exact .same rfl rfl rfl
      · exact reads_applyOne
  | restart => exact .restart rfl rfl rfl

theorem Receives.reads (hrec : s.Receives me env ef) : s.Reads me ef.node (some env) := by
  cases hrec with
  | voteReq => rw [handleRequestVote_shape]; exact .same rfl rfl rfl
  | appendReq => rw [handleAppendEntries_shape]; exact .same rfl rfl rfl
  | snapReq => rw [handleInstallSnapshot_shape]; exact .same rfl rfl rfl
  | voteResp =>
    rw [countVote_eq]
    split
    · rw [becomeFollower_eq]; exact .same rfl rfl rfl
    · split <;> exact .same rfl rfl rfl
  | replicated =>
    rw [replicated_eq]
    split
    · rw [becomeFollower_eq]; exact .same rfl rfl rfl
    · exact .same rfl rfl rfl
  | confirmed hrd hsrc =>
    unfold Node.confirmed
    dsimp only
    split
    · rw [becomeFollower_eq]
      exact .update hrd rfl rfl (.heard rfl rfl rfl hsrc (.inl rfl)) fun pr hpr => .inl hpr
    · next hle =>
      exact .update hrd rfl rfl (.heard rfl rfl rfl hsrc (.inr ⟨rfl, not_lt.mp hle⟩))
        fun pr hpr => .inl hpr
  | snapResp =>
    rw [snapshotInstalled_eq]
    split
    · rw [becomeFollower_eq]; exact .same rfl rfl rfl
    · exact .same rfl rfl rfl
  | discard => exact .same rfl rfl rfl

end Node

/-! ## The invariant -/

/-- Reads were invoked on a leader, and ask its peers. -/
structure Led (cfg : Config) (r : Abs) (n : NodeID) (s : Node) : Prop where
  leads : ∀ {call : ℕ} {rd}, s.reads[call]? = some rd → r.leads rd.term n
  unsent : ∀ {call : ℕ} {rd}, s.reads[call]? = some rd → rd.unsent ⊆ (cfg.member n).peers

def LedMsg (r : Abs) (env : Envelope) : Prop :=
  match env.body with
  | .appendReq caller req => env.dst ≠ env.src ∧ r.leads req.term env.src ∧
      (caller = .replicate ∨ req.entries = [])
  | .snapReq req => env.dst ≠ env.src ∧ r.leads req.term env.src
  | .appendResp _ req _ | .snapResp req _ => env.dst ≠ env.src ∧ r.leads req.term env.dst
  | _ => True

def led (cfg : Config) : LocalInv := ⟨Led cfg, LedMsg⟩

variable {cfg : Config} {r r' : Abs} {n m : NodeID} {s : Node}

theorem Led.mono (h : Led cfg r n s) (hl : ∀ {t}, r.leads t n → r'.leads t n) : Led cfg r' n s :=
  ⟨fun hrd => hl (h.leads hrd), h.unsent⟩

theorem LedMsg.mono (h : LedMsg r env) (hl : ∀ {t m}, r.leads t m → r'.leads t m) :
    LedMsg r' env := by
  unfold LedMsg at h ⊢
  split at h
  · exact ⟨h.1, hl h.2.1, h.2.2⟩
  · exact ⟨h.1, hl h.2⟩
  · exact ⟨h.1, hl h.2⟩
  · exact ⟨h.1, hl h.2⟩
  · trivial

theorem Led.reads {s' : Node} (h : Led cfg r n s) (V : Voting cfg r n s)
    (hl : ∀ {t m}, r.leads t m → r'.leads t m) (hr : s.Reads (cfg.member n) s' msg) :
    Led cfg r' n s' := by
  refine ⟨fun hrd => ?_, fun hrd => ?_⟩ <;> rcases hr.read hrd with ⟨rd, hrd, hm⟩ | ⟨hrole, -, rfl⟩
  · rw [hm.le.term]; exact hl (h.leads hrd)
  · exact hl (V.leader hrole)
  · exact List.Subset.trans hm.le.unsent (h.unsent hrd)
  · exact List.Subset.refl _

theorem Led.act (V : Voting cfg r n s) (h : Led cfg r n s)
    (hl : ∀ {t m}, r.leads t m → r'.leads t m) (ha : s.Acts (cfg.member n) a ef) :
    Led cfg r' n ef.node ∧ ∀ env ∈ ef.msgs, LedMsg r' env := by
  have hid := cfg.member_id n
  have peer {p} (hp : p ∈ (cfg.member n).peers) : p ≠ (cfg.member n).id :=
    hid.symm ▸ ((cfg.mem_peers n p).mp hp).2
  refine ⟨h.reads V hl ha.reads, ?_⟩
  intro env henv
  cases ha.emits henv with
  | voteReq => trivial
  | appendReq hp hreq =>
    have hsends : Node.Sends .. := Node.replicateToPeer_spec hreq
    exact ⟨peer hp, hsends.term ▸ hid.symm ▸ hl (V.leader hsends.role), .inl rfl⟩
  | snapReq hp hreq =>
    have hsends : Node.SendsSnapshot .. := Node.replicateToPeer_spec hreq
    exact ⟨peer hp, hsends.term ▸ hid.symm ▸ hl (V.leader hsends.role)⟩
  | heartbeat hr hp => exact ⟨peer (h.unsent hr hp), hid.symm ▸ hl (h.leads hr), .inr rfl⟩

theorem Led.receive (h : Led cfg r env.dst s) (hm : LedMsg r env)
    (V : Voting cfg r env.dst s) (hl : ∀ {t m}, r.leads t m → r'.leads t m)
    (hrec : s.Receives (cfg.member env.dst) env ef) :
    Led cfg r' env.dst ef.node ∧ ∀ env' ∈ ef.msgs, LedMsg r' env' := by
  refine ⟨h.reads V hl hrec.reads, ?_⟩
  intro env' henv'
  cases hrec.replies henv' with
  | voteReq => trivial
  | appendReq => exact ⟨hm.1.symm, hl hm.2.1⟩
  | snapReq => exact ⟨hm.1.symm, hl hm.2⟩

theorem Shadow.led (h : Shadow cfg ok tr c r) : (led cfg).Holds c r := by
  induction h with
  | init => exact ⟨fun n => ⟨nofun, nofun⟩, by simp [Cluster.init]⟩
  | @step tr c r a c' evs hsh _ hs H =>
    obtain ⟨-, V⟩ := hsh.voting
    cases Cluster.step_inv hs with
    | @act n a ef hn ha =>
      have F := c.act_frame cfg r n a
      obtain ⟨h₁, h₂⟩ := Led.act (V.node n) (H.node n) F.leads ha
      exact H.after (List.Subset.refl _) h₁ h₂ (fun m hm h => h.mono F.leads)
        fun _ _ h => h.mono F.leads
    | @deliver k env ef henv hef hrec =>
      have F := Node.receive_frame r (c.node env.dst) ef.node env
      obtain ⟨h₁, h₂⟩ := Led.receive (H.node env.dst) (H.msg env (List.mem_of_getElem? henv))
        (V.node env.dst) F.leads hrec
      simp only [Cluster.ops, henv, hef]
      exact H.after (List.eraseIdx_subset ..) h₁ h₂ (fun m hm h => h.mono F.leads)
        fun _ _ h => h.mono F.leads
    | drop => exact H.drop _

/-- A leader is not sent requests of its own term. -/
theorem Voting.meets_ne_leader (B : BallotInv cfg.quorums r) (V : Voting cfg r n s)
    (hl : r.leads t m) (hne : n ≠ m) (hmeet : s.Meets s₁ t) : s₁.role ≠ .leader := by
  intro hr
  rcases hmeet.role with hf | ⟨hsame, ht⟩
  · exact absurd (hf.symm.trans hr) (by decide)
  · have hlead := V.leader (hsame ▸ hr)
    rw [ht] at hlead
    exact hne (B.leads_unique hlead hl)

end DistributedKV.Raft
