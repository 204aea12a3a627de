import DistributedKV.Verify.Indices
import DistributedKV.Verify.Matching

/-!
# What is committed stays

A leader commits what a majority has acknowledged in its term. That later leaders have it rests on
two things the code does not always do: a follower must not drop entries that agree with the
leader's log when it takes a request (`KeepsSuffix`) or a snapshot (`InstallsNew`).

In runs where it does not, steps are admissible in the sense of `Theory.Keeps`: votes and
acknowledgements in flight mean what the abstract machine has recorded (`Backing`).
-/

namespace DistributedKV.Raft

open Theory (Admits Replicates Keeps KeepInv LogInv BallotInv Stands Backs NoLoss Advances)

/-! ## Conditions -/

namespace Node

/-- An accepted request that is shorter than the log conflicts with it. -/
def KeepsSuffix (s : Node) (req : AppendEntriesRequest) : Prop :=
  s.log.currentTerm ≤ req.term → refusal s.log req = none →
    ∀ last ∈ req.entries.getLast?, s.log.lastIndex ≤ last.index ∨
      ∃ e ∈ req.entries, s.log.lastIncludedIndex < e.index ∧ e.index ≤ s.log.lastIndex ∧
        s.log.termAt e.index ≠ some e.term

instance : Decidable (KeepsSuffix s req) := inferInstanceAs (Decidable (_ → _ → _))

/-- A snapshot that is installed lies beyond the log, or the log conflicts with it. -/
def InstallsNew (s : Node) (req : InstallSnapshotRequest) : Prop :=
  s.installs req = true → s.log.lastIndex ≤ req.lastIncludedIndex ∨
    s.log.termAt req.lastIncludedIndex ≠ some req.lastIncludedTerm

instance : Decidable (InstallsNew s req) := inferInstanceAs (Decidable (_ → _))

end Node

/-- A step whose message costs the receiver nothing it may have acknowledged. -/
def Lossless (c : Cluster) (a : Action) : Prop :=
  OnAppend (fun s req => s.ChecksBoundary req ∧ s.KeepsSuffix req) c a ∧
    OnSnapshot (fun s req => s.InstallsAhead req ∧ s.InstallsNew req) c a

instance : Decidable (Lossless c a) := inferInstanceAs (Decidable (_ ∧ _))

/-! ## Leaders in office -/

namespace Node

variable {me : Member} {s : Node}

/-- A leader has been in office, or has just been elected in the term it stood in. -/
theorem Acts.leader (ha : s.Acts me a ef) (hl : ef.node.role = .leader) :
    ef.node.log.currentTerm = s.log.currentTerm ∧
      (s.role = .leader ∧ a ≠ .restart ∧ ef.node.matchIndex = s.matchIndex ∨
        s.role = .candidate ∧ ∀ p ∈ me.peers, ef.node.matchIndex p = 0) := by
  cases ha with
  | startElection => cases hl
  | lead _ _ hr hs =>
    rw [hs]
    refine ⟨(PersistentLog.SameBallot.appendEntries ..).currentTerm, .inr ⟨hr, ?_⟩⟩
    exact fun p hp => if_pos hp
  | dissolve ha => exact ⟨rfl, .inl ⟨hl, ha, rfl⟩⟩
  | propose hs =>
    obtain ⟨hrole, rfl⟩ := propose_ok hs
    exact ⟨(PersistentLog.SameBallot.appendEntries ..).currentTerm, .inl ⟨hrole, by simp, rfl⟩⟩
  | tryAdvanceCommitIndex =>
    rw [advance, tryAdvanceCommitIndex_eq] at hl ⊢
    exact ⟨rfl, .inl ⟨hl, by simp, rfl⟩⟩
  | linearizableRead hs =>
    obtain ⟨hrole, rfl⟩ := linearizableRead_ok hs
    exact ⟨rfl, .inl ⟨hrole, by simp, rfl⟩⟩
  | waitForApplied =>
    rw [waitForApplied_eq] at hl ⊢
    exact ⟨rfl, .inl ⟨hl, by simp, rfl⟩⟩
  | applyNext =>
    refine ⟨(applyNext_ballot ..).1.currentTerm, ?_⟩
    rw [applyNext_shape] at hl ⊢
    exact .inl ⟨hl, by simp, rfl⟩
  | restart => cases hl
  | ask | proposeReturn | proposeCancel | replicate | sendSnapshot | heartbeat
  | readReturn | readCancel | applyBegin => exact ⟨rfl, .inl ⟨hl, by simp, rfl⟩⟩

theorem Retreats.leader (h : s.Retreats s' t) (hl : s'.role = .leader) :
    s.role = .leader ∧ s'.log = s.log := by
  rcases h.role with hf | ⟨hr, hlt⟩
  · rw [hf] at hl; cases hl
  · have hlog := h.log
    rw [if_neg hlt] at hlog
    exact ⟨hr ▸ hl, hlog⟩

/-- A node that is leader after a message was leader before it, in the same term. -/
theorem Outcome.leader (hout : s.Outcome env ef) (hl : ef.node.role = .leader) :
    s.role = .leader ∧ ef.node.log.currentTerm = s.log.currentTerm := by
  cases hout with
  | quiet _ hret =>
    obtain ⟨t, hret⟩ := hret
    obtain ⟨hr, hlog⟩ := hret.leader hl
    exact ⟨hr, hlog ▸ rfl⟩
  | vote hle hmeet =>
    obtain ⟨hr, hlog⟩ := hmeet.retreats.leader hl
    exact ⟨hr, (hmeet.currentTerm hle).symm.trans (hlog ▸ rfl)⟩
  | @append _ _ _ _ req s₁ s' _ hle hmeet _ _ hs =>
    rw [followCommit_eq] at hs
    have hrole : s'.role = s₁.role := by rw [hs]
    obtain ⟨hr, hlog⟩ := hmeet.retreats.leader (hrole ▸ hl)
    refine ⟨hr, ?_⟩
    rw [hs]
    exact (PersistentLog.SameBallot.appendEntries ..).currentTerm.trans (hlog ▸ rfl)
  | install _ _ hrole _ hs =>
    rw [hs] at hl
    exact absurd (hrole.symm.trans hl) (by decide)

/-- What a leader knows about its peers comes from their responses. -/
theorem Receives.matchIndex (hrec : s.Receives me env ef) (p : NodeID) :
    ef.node.matchIndex p = s.matchIndex p ∨
      (∃ req resp last, env.body = .appendResp .replicate req resp ∧ p = env.src ∧
        s.log.currentTerm = req.term ∧ resp.success = true ∧ req.entries.getLast? = some last ∧
        ef.node.matchIndex p = last.index) ∨
      ∃ req resp, env.body = .snapResp req resp ∧ s.role = .leader ∧
        s.log.currentTerm = req.term ∧ ef.node.matchIndex p = req.lastIncludedIndex := by
  cases hrec with
  | voteReq => rw [handleRequestVote_shape]; exact .inl rfl
  | appendReq => rw [handleAppendEntries_shape]; exact .inl rfl
  | snapReq => rw [handleInstallSnapshot_shape]; exact .inl rfl
  | voteResp =>
    left
    rw [countVote_eq]
    split
    · rw [becomeFollower_eq]
    · split <;> rfl
  | @replicated src dst req resp =>
    rw [replicated_eq]
    split
    · rw [becomeFollower_eq]; exact .inl rfl
    · dsimp only
      split
      · next hg =>
        obtain ⟨hrole, hterm, hs, rfl⟩ := hg
        cases hlast : req.entries.getLast? with
        | none => exact .inl rfl
        | some last => exact .inr (.inl ⟨req, resp, last, rfl, rfl, hterm, hs, hlast, rfl⟩)
      · exact .inl rfl
  | confirmed =>
    left
    unfold Node.confirmed
    dsimp only
    split
    · rw [becomeFollower_eq]
    · rfl
  | @snapResp src dst req resp =>
    rw [snapshotInstalled_eq]
    split
    · rw [becomeFollower_eq]; exact .inl rfl
    · dsimp only
      split
      · next hg => exact .inr (.inr ⟨req, resp, rfl, hg.1, hg.2.1, rfl⟩)
      · exact .inl rfl
  | discard => exact .inl rfl

end Node

/-! ## Snapshots in flight -/

/-- The leader that sent the snapshot has committed what it covers, while it is in office. -/
def Node.CommitsUpTo (s : Node) (req : InstallSnapshotRequest) : Prop :=
  s.role = .leader → s.log.currentTerm = req.term → req.lastIncludedIndex ≤ s.commitIndex

/-- Who sent the snapshot of an `InstallSnapshot` call in flight. -/
def Envelope.installer? : Envelope → Option (NodeID × InstallSnapshotRequest)
  | ⟨src, _, _, .snapReq req⟩ => some (src, req)
  | ⟨_, dst, _, .snapResp req _⟩ => some (dst, req)
  | _ => none

theorem LedMsg.installer (h : LedMsg r env) (hx : x ∈ env.installer?) : r.leads x.2.term x.1 := by
  obtain ⟨src, dst, ep, body⟩ := env
  cases body with
  | snapReq req | snapResp req resp => cases hx; exact h.2
  | _ => cases hx

theorem Node.CommitsUpTo.act {s : Node} (h : s.CommitsUpTo req) (V : Voting cfg r n s)
    (hl : r.leads req.term n) (ha : s.Acts me a ef) : ef.node.CommitsUpTo req := by
  intro hrole hterm
  obtain ⟨hcur, ⟨hr, hne, -⟩ | ⟨hr, -⟩⟩ := ha.leader hrole
  · exact (h hr (hcur ▸ hterm)).trans (ha.moves.commitIndex_le hne)
  · exact (V.candidate hr (hcur ▸ hterm ▸ hl)).elim

theorem Node.CommitsUpTo.receive {s : Node} (h : s.CommitsUpTo req)
    (hsnap : ∀ {req}, env.body = .snapReq req → s.InstallsAhead req) (hout : s.Outcome env ef) :
    ef.node.CommitsUpTo req := by
  intro hrole hterm
  obtain ⟨hr, hcur⟩ := hout.leader hrole
  exact (h hr (hcur ▸ hterm)).trans (hout.commitIndex_le hsnap)

theorem Node.Acts.installer {s : Node} (h : s.Bounded) (ha : s.Acts me a ef) :
    ∀ env ∈ ef.msgs, ∀ x ∈ env.installer?, x.1 = me.id ∧ ef.node.CommitsUpTo x.2 := by
  intro env henv x hx
  cases ha.emits henv with
  | voteReq | appendReq | heartbeat => cases hx
  | @snapReq _ req hp hreq =>
    cases hx
    have hsends : Node.SendsSnapshot .. := Node.replicateToPeer_spec hreq
    have hle : req.lastIncludedIndex ≤ s.commitIndex := hsends.snapIndex ▸ h.snap
    exact ⟨rfl, fun _ _ => hle.trans (ha.moves.commitIndex_le nofun)⟩

theorem Node.Receives.installer {s : Node} (hrec : s.Receives me env ef) :
    ∀ env' ∈ ef.msgs, ∀ x ∈ env'.installer?, x ∈ env.installer? := by
  intro env' henv' x hx
  cases hrec.replies henv' with
  | voteReq | appendReq => cases hx
  | snapReq => cases hx; rfl

theorem Shadow.commitsUpTo (h : Shadow cfg ok tr c r)
    (hok : ∀ {c a}, ok c a → OnSnapshot Node.InstallsAhead c a) :
    ∀ env ∈ c.network, ∀ x ∈ env.installer?, (c.node x.1).CommitsUpTo x.2 := by
  induction h with
  | init => simp [Cluster.init]
  | @step tr c r a c' evs hsh hoka hs ih =>
    obtain ⟨-, V⟩ := hsh.voting
    intro env' henv' x hx
    cases Cluster.step_inv hs with
    | @act n a ef hn ha =>
      simp only [Cluster.after]
      rcases List.mem_append.mp henv' with hold | hnew
      · have h₁ := ih env' hold x hx
        split
        · next heq =>
          have hl := (hsh.led.msg env' hold).installer hx
          exact (heq ▸ h₁).act (V.node n) (heq ▸ hl) ha
        · exact h₁
      · obtain ⟨hid, h₁⟩ := ha.installer (hsh.bounded hok n) env' hnew x hx
        rw [hid, if_pos (cfg.member_id n)]
        exact h₁
    | @deliver k env ef henv hef hrec =>
      have hold : ∃ env₀ ∈ c.network, x ∈ env₀.installer? := by
        rcases List.mem_append.mp henv' with hold | hnew
        · exact ⟨env', List.mem_of_mem_eraseIdx hold, hx⟩
        · exact ⟨env, List.mem_of_getElem? henv, hrec.installer env' hnew x hx⟩
      obtain ⟨env₀, hmem, hx⟩ := hold
      have h₁ := ih env₀ hmem x hx
      simp only [Cluster.after]
      split
      · next heq => exact (heq ▸ h₁).receive ((hok hoka).of_deliver henv) hrec.outcome
      · exact h₁
    | drop => exact ih env' (List.mem_of_mem_eraseIdx henv') x hx

/-! ## The invariant -/

/-- Votes that were counted, and what the leader knows its peers to have, are on record. -/
structure Backing (cfg : Config) (r : Abs) (n : NodeID) (s : Node) : Prop where
  election : ∀ {el}, s.election = some el →
    Counting cfg n el fun v => Backs Entry.term r v el.term n
  leader : s.role = .leader → r.acked n s.log.currentTerm (r.log n).length
  /-- An index from a snapshot may be unacknowledged, but then it has been committed before. -/
  matched : s.role = .leader → ∀ p ∈ (cfg.member n).peers,
    s.matchIndex p ≤ s.commitIndex ∨ r.acked p s.log.currentTerm (s.matchIndex p)

def BackingMsg (r : Abs) (env : Envelope) : Prop :=
  match env.body with
  | .voteReq req => Stands Entry.term r env.src req.term req.lastLogIndex req.lastLogTerm
  | .voteResp req resp => resp.voteGranted = true → Backs Entry.term r env.src req.term env.dst
  | .appendResp .replicate req resp => resp.success = true → ∀ last ∈ req.entries.getLast?,
      r.acked env.src req.term last.index
  | _ => True

def backing (cfg : Config) : LocalInv := ⟨Backing cfg, BackingMsg⟩

theorem Node.candidateLogUpToDateLocked_rep {s : Node} (hrep : Rep s.log l)
    (h : s.candidateLogUpToDateLocked k lt = true) : Theory.lastTerm Entry.term l < lt ∨
      Theory.lastTerm Entry.term l = lt ∧ l.length ≤ k := by
  rw [← hrep.lastTerm, hrep.length]
  unfold Node.candidateLogUpToDateLocked at h
  split at h
  · exact .inl (of_decide_eq_true h)
  · next heq => exact .inr ⟨(not_not.mp heq).symm, of_decide_eq_true h⟩

section
variable {cfg : Config} {r : Abs} {n m : NodeID} {s : Node}

theorem Backing.frame {ops : List (Theory.Op NodeID Entry)} (h : Backing cfg r n s)
    (ha : Admits (Replicates Entry.term) r ops) (F : Theory.Frame m r (r.applyAll ops))
    (hne : n ≠ m) : Backing cfg (r.applyAll ops) n s where
  election hel := (h.election hel).mono fun _ hv => hv.applyAll ha
  leader hr := by rw [F.log hne]; exact F.acked (h.leader hr)
  matched hr p hp := (h.matched hr p hp).imp_right F.acked

theorem BackingMsg.frame {ops : List (Theory.Op NodeID Entry)} (h : BackingMsg r env)
    (ha : Admits (Replicates Entry.term) r ops) (F : Theory.Frame m r (r.applyAll ops)) :
    BackingMsg (r.applyAll ops) env := by
  unfold BackingMsg at h ⊢
  split at h
  · exact h.applyAll ha
  · exact fun hg => (h hg).applyAll ha
  · exact fun hs last hlast => F.acked (h hs last hlast)
  · trivial

/-! ## Activities -/

/-- A majority of the members has the majority index of a leader, or more. -/
theorem Config.majorityIndex_quorum (cfg : Config) (hn : n ∈ cfg.ids) (s : Node) :
    cfg.quorums.IsQuorum {v | v ∈ n :: (cfg.member n).peers ∧ s.majorityIndex (cfg.member n) ≤
      if v = n then s.log.lastIndex else s.matchIndex v} := by
  set f : NodeID → ℕ := fun v => if v = n then s.log.lastIndex else s.matchIndex v with hf
  have hmap : (n :: (cfg.member n).peers).map f = s.matchIndexes (cfg.member n) := by
    rw [List.map_cons, Node.matchIndexes]
    refine congrArg₂ _ (if_pos rfl) (List.map_congr_left fun p hp => if_neg ?_)
    exact ((cfg.mem_peers n p).mp hp).2
  have hset : (n :: (cfg.member n).peers).toFinset = cfg.ids.toFinset := by
    ext v
    simp only [List.mem_toFinset, List.mem_cons, cfg.mem_peers]
    constructor
    · rintro (rfl | h)
      · exact hn
      · exact h.1
    · intro h
      by_cases hv : v = n
      · exact .inl hv
      · exact .inr ⟨h, hv⟩
  have hq := Theory.QuorumSystem.majority_median
    (List.nodup_cons.mpr ⟨cfg.not_mem_peers, cfg.peers_nodup n⟩) (List.cons_ne_nil n _) f
  rw [hmap, hset] at hq
  have hlen : ((s.matchIndexes (cfg.member n)).insertionSort (· ≤ ·)).length =
      (n :: (cfg.member n).peers).length := by
    rw [List.length_insertionSort, ← hmap, List.length_map]
  rw [← hlen] at hq
  exact hq

/-- A commit is backed by the acknowledgements of a majority. -/
theorem Backing.choosable (K : KeepInv Entry.term cfg.quorums r) (G : Logged r n s)
    (h : Backing cfg r n s) (hn : n ∈ cfg.ids) (hrole : s.role = .leader)
    (hlt : s.commitIndex < s.majorityIndex (cfg.member n))
    (hterm : s.log.termAt (s.majorityIndex (cfg.member n)) = some s.log.currentTerm) :
    Theory.Choosable Entry.term cfg.quorums r s.log.currentTerm
      (s.majorityIndex (cfg.member n)) := by
  refine ⟨?_, cfg.quorums.mono (cfg.majorityIndex_quorum hn s) ?_⟩
  · obtain ⟨j, hj⟩ := Nat.exists_eq_succ_of_ne_zero (Nat.ne_zero_of_lt hlt)
    rw [hj] at hterm ⊢
    obtain ⟨e, he, ht⟩ := G.rep.termAt_some hterm
    exact ⟨j, e, rfl, G.leader hrole ▸ he, ht⟩
  · rintro v ⟨hmem, hle⟩
    split at hle
    · next heq =>
      subst heq
      exact K.acked_mono (h.leader hrole) (G.rep.length.symm ▸ hle)
    · next hne =>
      -- what lies above the commit index was acknowledged
      have hp := (List.mem_cons.mp hmem).resolve_left hne
      have hack := (h.matched hrole v hp).resolve_left (by omega)
      exact K.acked_mono hack hle

theorem Backing.act (B : BallotInv cfg.quorums r) (K : KeepInv Entry.term cfg.quorums r)
    (V : Voting cfg r n s) (G : Logged r n s) (h : Backing cfg r n s) (hn : n ∈ cfg.ids)
    (ha : s.Acts (cfg.member n) a ef)
    (hrep : Admits (Replicates Entry.term) r (s.actOps (cfg.member n) a))
    (F : Theory.Frame n r (r.applyAll (s.actOps (cfg.member n) a))) :
    Admits (Keeps Entry.term cfg.quorums) r (s.actOps (cfg.member n) a) ∧
      Backing cfg (r.applyAll (s.actOps (cfg.member n) a)) n ef.node := by
  have hid := cfg.member_id n
  suffices hkey : Admits (Keeps Entry.term cfg.quorums) r (s.actOps (cfg.member n) a) ∧
      (a = .startElection → Backs Entry.term (r.applyAll (s.actOps (cfg.member n) a)) n
        (s.log.currentTerm + 1) n) ∧
      (ef.node.role = .leader → (r.applyAll (s.actOps (cfg.member n) a)).acked n
        s.log.currentTerm ((r.applyAll (s.actOps (cfg.member n) a)).log n).length) by
    obtain ⟨h₁, hself, hleader⟩ := hkey
    refine ⟨h₁, fun hel => ?_, fun hr => ?_, fun hr p hp => ?_⟩
    · exact Counting.act (P := fun t v => Backs Entry.term (r.applyAll _) v t n) hn ha
        (fun hel => (h.election hel).mono fun _ hv => hv.applyAll hrep) hself hel
    · rw [(ha.leader hr).1]; exact hleader hr
    · obtain ⟨hcur, ⟨hrole, hne, hmatch⟩ | ⟨-, hmatch⟩⟩ := ha.leader hr
      · rw [hcur, hmatch]
        refine (h.matched hrole p hp).imp (fun hle => ?_) F.acked
        exact hle.trans (ha.moves.commitIndex_le hne)
      · exact .inl (by rw [hmatch p hp]; exact Nat.zero_le _)
  -- a leader that appends acknowledges its new entry itself
  have append {r : Abs} {t e} (hterm : r.term n = t) (hl : r.leads t n)
      (hlen : (r.log n).length = s.log.lastIndex) :
      Admits (Keeps Entry.term cfg.quorums) r [.append n t e, .ack n t (s.log.lastIndex + 1)] ∧
        (r.applyAll [.append n t e, .ack n t (s.log.lastIndex + 1)]).acked n t
          ((r.applyAll [.append n t e, .ack n t (s.log.lastIndex + 1)]).log n).length := by
    refine ⟨⟨trivial, hlen ▸ Theory.keeps_ack_append hterm hl, trivial⟩, .inr ⟨rfl, rfl, ?_⟩⟩
    show (Function.update r.log n _ n).length ≤ _
    rw [Function.update_self, List.length_append, hlen]
    exact le_rfl
  cases ha with
  | startElection hrole hel =>
    simp only [Node.actOps, hid]
    refine ⟨⟨trivial, Function.update_self .., trivial⟩, fun _ => ?_, by rintro ⟨⟩⟩
    have hst : Stands Entry.term (r.apply (.observe n (s.log.currentTerm + 1))) n
        (s.log.currentTerm + 1) (r.log n).length (Theory.lastTerm Entry.term (r.log n)) :=
      ⟨by simp [Theory.State.apply], .inr fun _ => ⟨rfl, rfl⟩⟩
    exact hst.backs (.inr ⟨rfl, le_rfl⟩)
  | @lead el s' a hel hw hr hs hops =>
    obtain ⟨-, hno⟩ := V.elected B hn hr hel ((V.election hel).needed_le hw)
    have hq : cfg.quorums.IsQuorum {v | Backs Entry.term r v s.log.currentTerm n} := by
      rw [← V.current hr hel]
      exact (h.election hel).tally.isQuorum
        (cfg.needed_eq hn ▸ (h.election hel).needed_le hw)
    obtain ⟨h₁, h₂⟩ := append (r := r.apply (.elect n s.log.currentTerm)) V.term
      (.inr ⟨rfl, rfl⟩) G.rep.length
    rw [hops, hid]
    refine ⟨⟨Theory.keeps_elect hq V.term hno, h₁⟩, ?_, fun _ => h₂⟩
    rintro rfl
    simp [Node.actOps] at hops
  | propose hs =>
    obtain ⟨hrole, rfl⟩ := Node.propose_ok hs
    simp only [Node.actOps, hid]
    obtain ⟨h₁, h₂⟩ := append V.term (V.leader hrole) G.rep.length
    exact ⟨h₁, by simp, fun _ => h₂⟩
  | tryAdvanceCommitIndex =>
    simp only [Node.actOps]
    rcases Node.tryAdvanceCommitIndex_cases (cfg.member n) s s.log.currentTerm with
      heq | ⟨hrole, hlt, hterm, heq⟩
    · rw [Node.advance, heq, if_neg (lt_irrefl _)]
      exact ⟨trivial, by simp, h.leader⟩
    · rw [Node.advance, heq, if_pos hlt]
      exact ⟨⟨h.choosable K G hn hrole hlt hterm, trivial⟩, by simp, h.leader⟩
  | ask _ _ hops =>
    rw [hops]
    exact ⟨trivial, by simp, h.leader⟩
  | dissolve hne hops =>
    rw [hops]
    refine ⟨trivial, ?_, h.leader⟩
    rintro rfl
    simp [Node.actOps] at hops
  | linearizableRead hs =>
    obtain ⟨-, rfl⟩ := Node.linearizableRead_ok hs
    exact ⟨trivial, by simp, h.leader⟩
  | waitForApplied =>
    rw [Node.waitForApplied_eq]
    exact ⟨trivial, by simp, h.leader⟩
  | applyNext =>
    rw [Node.applyNext_shape]
    exact ⟨trivial, by simp, h.leader⟩
  | restart => exact ⟨trivial, by simp, by rintro ⟨⟩⟩
  | proposeReturn | proposeCancel | replicate | sendSnapshot | heartbeat | readReturn
  | readCancel | applyBegin => exact ⟨trivial, by simp, h.leader⟩

/-- A node that asks for votes describes its log. -/
theorem Backing.msgs (G : Logged r n s) (h : Backing cfg r n s)
    (ha : s.Acts (cfg.member n) a ef) :
    ∀ env ∈ ef.msgs, BackingMsg (r.applyAll (s.actOps (cfg.member n) a)) env := by
  intro env henv
  cases ha.emits henv with
  | voteReq hel hops =>
    rw [hops]
    show Stands Entry.term r (cfg.member n).id _ s.log.lastIndex s.log.lastTerm
    rw [cfg.member_id]
    exact ⟨(h.election hel).self.1, .inr fun _ => ⟨G.rep.length, G.rep.lastTerm.symm⟩⟩
  | appendReq | snapReq | heartbeat => trivial

/-! ## Messages -/

theorem Logged.noLoss_append (G : Logged r n s) (hidx : Indexed r)
    (hv : Vouched (r.llog req.term) req) (hle : s.log.currentTerm ≤ req.term)
    (href : Node.refusal s.log req = none) (hne : req.entries ≠ []) (hkeep : s.KeepsSuffix req) :
    NoLoss Entry.term (r.log n)
      ((r.llog req.term).take (req.prevLogIndex + req.entries.length)) := by
  have hcons := hv.consecutive (hidx req.term)
  have hlen := hv.le_length hne
  obtain ⟨last, hlast⟩ := Option.ne_none_iff_exists'.mp (mt List.getLast?_eq_none_iff.mp hne)
  rcases hkeep hle href last hlast with hge | ⟨e, he, hlo, hhi, hterm⟩
  · left
    rw [List.getLast?_eq_getElem?] at hlast
    have hidx' := hcons _ last hlast
    have hpos := List.length_pos_iff.mpr hne
    rw [List.length_take, G.rep.length]
    omega
  · right
    obtain ⟨k, hk⟩ := List.mem_iff_getElem?.mp he
    have hek : e.index = req.prevLogIndex + k + 1 := by rw [hcons k e hk]; omega
    have hlt : k < req.entries.length := (List.getElem?_eq_some_iff.mp hk).1
    have hin : req.prevLogIndex + k < (r.log n).length := by rw [G.rep.length]; omega
    refine ⟨req.prevLogIndex + k, _, e, List.getElem?_eq_getElem hin, ?_, fun heq => ?_⟩
    · rw [List.getElem?_take_of_lt (by omega)]; exact hv.getElem? hk
    · refine hterm ?_
      rw [hek, G.rep.termAt_of (by omega) (List.getElem?_eq_getElem hin), heq]

theorem Logged.noLoss_install (G : Logged r n s) (he : (r.llog t)[i]? = some e)
    (hli : s.log.lastIncludedIndex ≤ i + 1)
    (hnew : s.log.lastIndex ≤ i + 1 ∨ s.log.termAt (i + 1) ≠ some e.term) :
    NoLoss Entry.term (r.log n) ((r.llog t).take (i + 1)) := by
  have hlt := (List.getElem?_eq_some_iff.mp he).1
  by_cases hlen : s.log.lastIndex ≤ i + 1
  · left
    rw [List.length_take, G.rep.length]
    omega
  · right
    have hin : i < (r.log n).length := by rw [G.rep.length]; omega
    refine ⟨i, _, e, List.getElem?_eq_getElem hin, ?_, fun heq => ?_⟩
    · rw [List.getElem?_take_of_lt (by omega)]; exact he
    · refine hnew.resolve_left hlen ?_
      rw [G.rep.termAt_of hli (List.getElem?_eq_getElem hin), heq]

theorem Backing.receive (B : BallotInv cfg.quorums r) (hidx : Indexed r)
    (V : Voting cfg r env.dst s) (G : Logged r env.dst s) (h : Backing cfg r env.dst s)
    (hvm : VotingMsg cfg r env) (hled : LedMsg r env) (hlm : LoggedMsg r env)
    (hm : BackingMsg r env) (hcommits : ∀ x ∈ env.installer?, x.1 = env.dst → s.CommitsUpTo x.2)
    (hkeep : ∀ {caller req}, env.body = .appendReq caller req → s.KeepsSuffix req)
    (hsnap : ∀ {req}, env.body = .snapReq req → s.InstallsAhead req ∧ s.InstallsNew req)
    (hrec : s.Receives (cfg.member env.dst) env ef)
    (hrep : Admits (Replicates Entry.term) r (s.receiveOps ef.node env)) :
    Admits (Keeps Entry.term cfg.quorums) r (s.receiveOps ef.node env) ∧
      Backing cfg (r.applyAll (s.receiveOps ef.node env)) env.dst ef.node := by
  have F := Node.receive_frame r s ef.node env
  have hout := hrec.outcome
  suffices hkey : Admits (Keeps Entry.term cfg.quorums) r (s.receiveOps ef.node env) ∧
      (ef.node.role = .leader → (r.applyAll (s.receiveOps ef.node env)).log env.dst =
        r.log env.dst) by
    obtain ⟨h₁, hlog⟩ := hkey
    refine ⟨h₁, fun hel => ?_, fun hr => ?_, fun hr p hp => ?_⟩
    · refine Counting.receive (P := fun t v => Backs Entry.term (r.applyAll _) v t env.dst) hrec
        (fun hel => (h.election hel).mono fun _ hv => hv.applyAll hrep) (fun hbody => ?_) hel
      simp only [VotingMsg, BackingMsg, hbody] at hvm hm
      exact ⟨hvm.1, fun hg => (hm hg).applyAll hrep⟩
    · obtain ⟨hrole, hcur⟩ := hout.leader hr
      rw [hlog hr, hcur]
      exact F.acked (h.leader hrole)
    · obtain ⟨hrole, hcur⟩ := hout.leader hr
      have hle := hout.commitIndex_le fun hb => (hsnap hb).1
      rw [hcur]
      rcases hrec.matchIndex p with heq | ⟨req, resp, last, hbody, rfl, ht, hs, hlast, heq⟩ |
        ⟨req, resp, hbody, -, ht, heq⟩ <;> rw [heq]
      · exact (h.matched hrole p hp).imp (fun h' => h'.trans hle) F.acked
      · simp only [BackingMsg, hbody] at hm
        rw [ht]
        exact .inr (F.acked (hm hs last hlast))
      · refine .inl ((hcommits (env.dst, req) ?_ rfl hrole ht).trans hle)
        obtain ⟨src, dst, ep, body⟩ := env
        cases hbody
        rfl
  cases hout with
  | quiet hops hret =>
    rw [hops]
    exact ⟨⟨trivial, trivial⟩, fun _ => rfl⟩
  | vote hle hmeet hv hup hops =>
    rw [hops]
    exact ⟨⟨trivial, Function.update_self .., trivial⟩, fun _ => rfl⟩
  | @append src dst ep caller req s₁ s' msgs hle hmeet hcand href hs hops =>
    obtain ⟨hne, hlead, hcaller⟩ := hled
    have hrole : s'.role = s₁.role := by rw [hs, Node.followCommit_eq]
    rw [hops, Node.adoptOps]
    split
    · exact ⟨⟨trivial, trivial⟩, fun _ => rfl⟩
    · next hnil =>
      have hv : Vouched (r.llog req.term) req := hlm (hcaller.resolve_right hnil)
      refine ⟨⟨trivial, ?_, ?_, trivial⟩, fun hr => ?_⟩
      · exact G.noLoss_append hidx hv hle href hnil (hkeep rfl)
      · exact Theory.keeps_ack_adopt (Function.update_self ..) hlead (hv.le_length hnil)
      · exact (V.meets_ne_leader B hlead hne hmeet (hrole ▸ hr)).elim
  | @install src dst ep req s₁ s' snap msgs hle hmeet hrole hinst hs hops =>
    obtain ⟨i, e, hi, he, ht⟩ := hlm
    rw [hops]
    refine ⟨⟨trivial, ?_, trivial⟩, fun hr => ?_⟩
    · have hnew := (hsnap rfl).2 hinst
      have hlt := G.lt_of_installs hinst (hi ▸ Nat.succ_pos i)
      rw [hi] at hlt hnew ⊢
      exact G.noLoss_install he hlt.le (ht ▸ hnew)
    · rw [hs] at hr
      exact absurd (hrole.symm.trans hr) (by decide)

/-- What a node answers is on record. -/
theorem BackingMsg.reply (hidx : Indexed r) (V : Voting cfg r env.dst s) (G : Logged r env.dst s)
    (hvm : VotingMsg cfg r env) (hlm : LoggedMsg r env) (hm : BackingMsg r env)
    (hrec : s.Receives me env ef) :
    ∀ env' ∈ ef.msgs, BackingMsg (r.applyAll (s.receiveOps ef.node env)) env' := by
  intro env' henv'
  cases hrec.replies henv' with
  | @voteReq src dst ep req hnode =>
    rw [hnode]
    intro hg
    by_cases hst : req.term < s.log.currentTerm
    · simp [Node.handleRequestVote_stale hst] at hg
    obtain ⟨s₁, hmeet, -, hs | ⟨hv, hup, hs⟩⟩ := Node.handleRequestVote_spec (not_lt.mp hst)
    · simp [hs] at hg
    have hst : Stands Entry.term (r.apply (.observe dst req.term)) src req.term req.lastLogIndex
        req.lastLogTerm := by
      refine Stands.apply ?_ hm
      exact V.term.le.trans (not_lt.mp hst)
    have hterm : (s.handleRequestVote req).1.log.currentTerm = req.term := by rw [hs]; rfl
    simp only [Node.receiveOps, hg, hterm, if_true, hvm.2.2]
    refine hst.backs ?_
    exact Node.candidateLogUpToDateLocked_rep (G.retreats hmeet.retreats).rep hup
  | @appendReq src dst ep caller req =>
    cases caller with
    | confirm => trivial
    | replicate =>
      intro hs last hlast
      have hv : Vouched (r.llog req.term) req := hlm rfl
      have hne : req.entries ≠ [] := by rintro h0; rw [h0] at hlast; cases hlast
      have hpos := List.length_pos_iff.mpr hne
      rw [List.getLast?_eq_getElem?] at hlast
      have hidx' := hv.consecutive (hidx req.term) _ last hlast
      simp only [Node.receiveOps, hs, if_true, Node.adoptOps, if_neg hne]
      exact .inr ⟨rfl, rfl, by omega⟩
  | snapReq => trivial

end

/-! ## Runs -/

section
variable {ok : Cluster → Action → Prop} (hok : ∀ {c a}, ok c a → Lossless c a)
include hok

theorem checksBoundary_of_lossless (h : ok c a) : OnAppend Node.ChecksBoundary c a :=
  fun x hx => ((hok h).1 x hx).1

theorem installsAhead_of_lossless (h : ok c a) : OnSnapshot Node.InstallsAhead c a :=
  fun x hx => ((hok h).2 x hx).1

/-- **Every step is admissible**, in runs without loss. -/
theorem Shadow.backing_step (h : Shadow cfg ok tr c r) (K : KeepInv Entry.term cfg.quorums r)
    (H : (backing cfg).Holds c r) (hoka : ok c a) (hs : c.step cfg a = some (c', evs)) :
    Admits (Keeps Entry.term cfg.quorums) r (c.ops cfg a) ∧
      (backing cfg).Holds c' (r.applyAll (c.ops cfg a)) := by
  obtain ⟨B, V⟩ := h.voting
  obtain ⟨L, hidx, G⟩ := h.logged (checksBoundary_of_lossless hok)
  have hrep := h.replicates (checksBoundary_of_lossless hok) hoka hs
  cases Cluster.step_inv hs with
  | @act n a ef hn ha =>
    have F := c.act_frame cfg r n a
    obtain ⟨h₁, h₂⟩ := Backing.act B K (V.node n) (G.node n) (H.node n) hn ha hrep F
    exact ⟨h₁, H.after (List.Subset.refl _) h₂ ((H.node n).msgs (G.node n) ha)
      (fun m hm h => h.frame hrep F hm) fun _ _ h => h.frame hrep F⟩
  | @deliver k env ef henv hef hrec =>
    have hmem := List.mem_of_getElem? henv
    have F := Node.receive_frame r (c.node env.dst) ef.node env
    have hcommits := h.commitsUpTo (installsAhead_of_lossless hok) env hmem
    simp only [Cluster.ops, henv, hef] at hrep ⊢
    obtain ⟨h₁, h₂⟩ := Backing.receive B hidx (V.node env.dst) (G.node env.dst)
      (H.node env.dst) (V.msg env hmem) (h.led.msg env hmem) (G.msg env hmem)
      (H.msg env hmem) (fun x hx heq => heq ▸ hcommits x hx)
      (fun hb => ((hok hoka).1.of_deliver henv hb).2) ((hok hoka).2.of_deliver henv) hrec hrep
    exact ⟨h₁, H.after (List.eraseIdx_subset ..) h₂
      ((H.msg env hmem).reply hidx (V.node env.dst) (G.node env.dst) (V.msg env hmem)
        (G.msg env hmem) hrec)
      (fun m hm h => h.frame hrep F hm) fun _ _ h => h.frame hrep F⟩
  | drop => exact ⟨trivial, H.drop _⟩

theorem Shadow.backing (h : Shadow cfg ok tr c r) :
    KeepInv Entry.term cfg.quorums r ∧ (backing cfg).Holds c r := by
  induction h with
  | init => exact ⟨.init, fun n => ⟨nofun, nofun, nofun⟩, by simp [Cluster.init]⟩
  | step hsh hoka hs ih =>
    obtain ⟨K, H⟩ := ih
    obtain ⟨h₁, h₂⟩ := hsh.backing_step hok K H hoka hs
    exact ⟨K.applyAll (hsh.logged (checksBoundary_of_lossless hok)).1
      (hsh.replicates (checksBoundary_of_lossless hok) hoka hs) h₁, h₂⟩

theorem Shadow.keeps (h : Shadow cfg ok tr c r) (hoka : ok c a)
    (hs : c.step cfg a = some (c', evs)) : Admits (Keeps Entry.term cfg.quorums) r (c.ops cfg a) :=
  (h.backing_step hok (h.backing hok).1 (h.backing hok).2 hoka hs).1

theorem Shadow.advances (h : Shadow cfg ok tr c r) (hoka : ok c a)
    (hs : c.step cfg a = some (c', evs)) : Advances r (r.applyAll (c.ops cfg a)) :=
  .applyAll (h.logged (checksBoundary_of_lossless hok)).1 (h.backing hok).1
    (h.replicates (checksBoundary_of_lossless hok) hoka hs) (h.keeps hok hoka hs)

end

theorem Lossless.act : Lossless c (.act n a) := ⟨.act, .act⟩

/-- **Leader completeness**, in runs in which no message makes a node drop entries that agree
with the leader's log: what a leader of `T` has committed is in the log of every leader of a
later term, or behind its snapshot boundary. -/
theorem committed_kept (h : Run cfg Lossless tr c)
    (hs : c.step cfg (.act n .tryAdvanceCommitIndex) = some (c₁, evs))
    (hcom : .committed n T N ∈ evs) (hi : i ≤ N) (he : (c.node n).log.retained i = some e)
    (hc : Continues cfg Lossless (tr ++ evs) c₁ tr' c')
    (hl : (c'.node m).role = .leader) (hT : T < (c'.node m).log.currentTerm) :
    (c'.node m).log.retained i = some e ∨ i ≤ (c'.node m).log.lastIncludedIndex := by
  have hcheck {c a} (h : Lossless c a) := checksBoundary_of_lossless id h
  obtain ⟨r, h⟩ := h.shadow
  obtain ⟨-, -, G⟩ := h.logged hcheck
  -- the commit is recorded, and the entry is in the log of the leader of `T`
  obtain ⟨hpos, hget⟩ := (G.node n).rep.retained he
  obtain ⟨hch, hget⟩ : (r.applyAll (c.ops cfg (.act n .tryAdvanceCommitIndex))).chosen T N ∧
      ((r.applyAll (c.ops cfg (.act n .tryAdvanceCommitIndex))).llog T)[i - 1]? = some e := by
    obtain ⟨n', b, heq, -, -, rfl, hrole, hops⟩ := Cluster.step_causes hs hcom
    cases heq
    simp only [Cluster.ops, hops]
    exact ⟨.inr ⟨rfl, rfl⟩, (G.node n).leader hrole ▸ hget⟩
  have h₁ : Shadow cfg Lossless (tr ++ evs) c₁ _ := .step h .act hs
  obtain ⟨r', h', hllog, hchosen⟩ := h₁.extends hcheck hc
  obtain ⟨L, -, G'⟩ := h'.logged hcheck
  obtain ⟨K, -⟩ := h'.backing id
  have hcomplete := Theory.leader_completeness L K (K.chosen (hchosen hch)) hT
    (h'.leads_of_leader hl)
  rw [← (G'.node m).leader hl] at hcomplete
  have hget' : (r'.log m)[i - 1]? = some e := by
    refine getElem?_of_isPrefix hcomplete ?_
    rw [List.getElem?_take_of_lt (by omega)]
    exact getElem?_of_isPrefix (hllog T) hget
  have := (G'.node m).rep.retained_or hget'
  rwa [Nat.sub_add_cancel hpos] at this

/-- `n2` inherits the entry that `n1` has committed with it. -/
theorem committed_kept_trio : ∃ tr c c₁ evs tr' c' e, Run (trio 0) Lossless tr c ∧
    c.step (trio 0) (.act "n1" .tryAdvanceCommitIndex) = some (c₁, evs) ∧
    .committed "n1" 1 2 ∈ evs ∧ (c.node "n1").log.retained 2 = some e ∧
    Continues (trio 0) Lossless (tr ++ evs) c₁ tr' c' ∧ (c'.node "n2").role = .leader ∧
    1 < (c'.node "n2").log.currentTerm ∧
    ((c'.node "n2").log.retained 2 = some e ∨ 2 ≤ (c'.node "n2").log.lastIncludedIndex) := by
  have hx : Cluster.init.Reaches (trio 0) Lossless []
      (electBy "n1" 0 ++
        ([.drop 0, .act "n1" (.propose .put "k" [] ""), .act "n1" (.replicate "n2"), .deliver 0,
          .deliver 0] : List Action))
      fun c tr => ((c.node "n1").log.retained 2).isSome ∧
        ∃ x ∈ c.step (trio 0) (.act "n1" .tryAdvanceCommitIndex),
          Event.committed "n1" 1 2 ∈ x.2 ∧ x.1.Reaches (trio 0) Lossless (tr ++ x.2)
            [.act "n2" .startElection, .act "n2" .requestVotes, .deliver 1, .deliver 1,
              .act "n2" .concludeElection]
            fun c' _ => (c'.node "n2").role = .leader ∧ 1 < (c'.node "n2").log.currentTerm := by
    decide +kernel
  obtain ⟨c, tr, h, he, ⟨c₁, evs⟩, hs, hcom, hx⟩ := hx.run
  obtain ⟨c', tr', hc, hl, hT⟩ := hx.continues
  obtain ⟨e, he⟩ := Option.isSome_iff_exists.mp he
  exact ⟨tr, c, c₁, evs, tr', c', e, h, hs, hcom, he, hc, hl, hT,
    committed_kept h hs hcom le_rfl he hc hl hT⟩

/-- A late request with the first of two entries makes `n2` drop the second, which it has helped
to commit, and `n2` is elected. -/
theorem committed_kept_fails : ∃ tr c c₁ evs tr' c' e, Run (trio 0) unrestricted tr c ∧
    c.step (trio 0) (.act "n1" .tryAdvanceCommitIndex) = some (c₁, evs) ∧
    .committed "n1" 1 2 ∈ evs ∧ (c.node "n1").log.retained 2 = some e ∧
    Continues (trio 0) unrestricted (tr ++ evs) c₁ tr' c' ∧ (c'.node "n2").role = .leader ∧
    1 < (c'.node "n2").log.currentTerm ∧
    ¬((c'.node "n2").log.retained 2 = some e ∨ 2 ≤ (c'.node "n2").log.lastIncludedIndex) := by
  have hx : Cluster.init.Reaches (trio 0) unrestricted []
      (electBy "n1" 0 ++
        ([.drop 0, .act "n1" (.replicate "n2"), .act "n1" (.propose .put "k" [] ""),
          .act "n1" (.replicate "n2"), .deliver 1, .deliver 1] : List Action))
      fun c tr => ((c.node "n1").log.retained 2).isSome ∧
        ∃ x ∈ c.step (trio 0) (.act "n1" .tryAdvanceCommitIndex),
          Event.committed "n1" 1 2 ∈ x.2 ∧ x.1.Reaches (trio 0) unrestricted (tr ++ x.2)
            [.deliver 0, .drop 0, .act "n2" .startElection, .act "n2" .requestVotes, .deliver 1,
              .deliver 1, .act "n2" .concludeElection]
            fun c' _ => (c'.node "n2").role = .leader ∧ 1 < (c'.node "n2").log.currentTerm ∧
              ¬((c'.node "n2").log.retained 2 = (c.node "n1").log.retained 2 ∨
                2 ≤ (c'.node "n2").log.lastIncludedIndex) := by
    decide +kernel
  obtain ⟨c, tr, h, he, ⟨c₁, evs⟩, hs, hcom, hx⟩ := hx.run
  obtain ⟨c', tr', hc, hl, hT, hne⟩ := hx.continues
  obtain ⟨e, he⟩ := Option.isSome_iff_exists.mp he
  exact ⟨tr, c, c₁, evs, tr', c', e, h, hs, hcom, he, hc, hl, hT, he ▸ hne⟩

end DistributedKV.Raft
