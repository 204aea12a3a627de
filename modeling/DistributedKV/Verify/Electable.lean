import DistributedKV.Verify.Election
import DistributedKV.Verify.Indices
import Mathlib.Data.Finset.Max
import Mathlib.Data.Finset.Order
import Mathlib.Data.Prod.Lex

/-!
# Elections can succeed

No state of a cluster is a dead end for elections while a majority of its members is up, whatever
calls are in progress and messages in flight: a node whose log a majority is not ahead of can be
made leader by the steps of elections alone, with nothing crashing and no message lost
(`leader_electable`). Its election is ended, it stands until its term is above those of its peers,
and then the answers to its requests are delivered.
-/

namespace DistributedKV.Raft

/-! ## Steps that lead somewhere -/

/-- From the cluster, steps that satisfy `ok` lead to one that satisfies `P`. -/
inductive CanReach (cfg : Config) (ok : Cluster → Action → Prop) (P : Cluster → Prop) :
    Cluster → Prop where
  | done : P c → CanReach cfg ok P c
  | step : ok c a → c.step cfg a = some (c', evs) → CanReach cfg ok P c' → CanReach cfg ok P c

variable {cfg : Config} {ok : Cluster → Action → Prop} {P Q : Cluster → Prop} {c : Cluster}
  {n : NodeID}

theorem Continues.trans (h : Continues cfg ok tr c tr' c') (h' : Continues cfg ok tr' c' tr'' c'') :
    Continues cfg ok tr c tr'' c'' := by
  induction h' with
  | refl => exact h
  | step _ hok hs ih => exact .step ih hok hs

namespace CanReach

theorem continues (h : CanReach cfg ok P c) (tr : List Event) :
    ∃ tr' c', Continues cfg ok tr c tr' c' ∧ P c' := by
  induction h generalizing tr with
  | @done c hP => exact ⟨tr, c, .refl, hP⟩
  | @step c a c' evs hok hs _ ih =>
    obtain ⟨tr'', c'', hc, hP⟩ := ih (tr ++ evs)
    exact ⟨tr'', c'', (Continues.step .refl hok hs).trans hc, hP⟩

theorem bind (h : CanReach cfg ok P c) (hP : ∀ c', P c' → CanReach cfg ok Q c') :
    CanReach cfg ok Q c := by
  induction h with
  | done h => exact hP _ h
  | step hok hs _ ih => exact .step hok hs ih

theorem mono (h : CanReach cfg ok P c) (hok : ∀ {c a}, ok c a → ok' c a) :
    CanReach cfg ok' P c := by
  induction h with
  | done h => exact .done h
  | step ha hs _ ih => exact .step (hok ha) hs ih

/-- If the steps can be taken in a run, they lead to states of runs. -/
theorem run (h : CanReach cfg ok P c) (hok : ∀ {c a}, ok c a → ok' c a) (hc : Run cfg ok' tr c) :
    CanReach cfg ok (fun c' => P c' ∧ ∃ tr', Run cfg ok' tr' c') c := by
  induction h generalizing tr with
  | done h => exact .done ⟨h, tr, hc⟩
  | step ha hs _ ih => exact .step ha hs (ih (hc.step (hok ha) hs))

theorem act {s : Node} (hn : n ∈ cfg.ids) (hself : c.node n = s)
    (ha : s.act (cfg.member n) a = some ef) (hok : ok c (.act n a))
    (h : CanReach cfg ok P (c.after n ef c.network)) : CanReach cfg ok P c := by
  have hs : c.step cfg (.act n a) = some (c.after n ef c.network, ef.events) := by
    simp only [Cluster.step, if_pos hn, hself, ha]
  exact .step hok hs h

/-- The message after those of `old` is delivered. -/
theorem deliver {env : Envelope} (hnet : c.network = old ++ env :: rest)
    (hok : ok c (.deliver old.length))
    (h : CanReach cfg ok P (c.after env.dst ((c.node env.dst).receive (cfg.member env.dst) env)
      (old ++ rest))) : CanReach cfg ok P c := by
  have hget : c.network[old.length]? = some env := by simp [hnet]
  have herase : c.network.eraseIdx old.length = old ++ rest := by
    rw [hnet, List.eraseIdx_append_of_length_le le_rfl]
    simp
  obtain ⟨evs, hs⟩ : ∃ evs, c.step cfg (.deliver old.length) = some (c.after env.dst
      ((c.node env.dst).receive (cfg.member env.dst) env) (old ++ rest), evs) :=
    ⟨_, by simp only [Cluster.step, hget, herase]; rfl⟩
  exact .step hok hs h

end CanReach

theorem Cluster.after_node_of_ne {ef : Effect} {m : NodeID} (hm : m ≠ n) :
    (c.after n ef rest).node m = c.node m := if_neg hm

/-- Steps in which the nodes `down` take no part, nothing crashes and no message is lost. -/
def Spares (down : List NodeID) (c : Cluster) : Action → Prop
  | .act m a => m ∉ down ∧ a ≠ .restart
  | .deliver k => ∀ env ∈ c.network[k]?, env.dst ∉ down
  | .drop _ => False

/-- The steps of elections: votes are asked for and given. -/
def Canvasses (c : Cluster) : Action → Prop
  | .act _ a => a = .startElection ∨ a = .requestVotes ∨ a = .concludeElection ∨
      a = .abandonElection
  | .deliver k => ∀ env ∈ c.network[k]?, (∃ req, env.body = .voteReq req) ∨
      ∃ req resp, env.body = .voteResp req resp
  | .drop _ => False

def Canvass (down : List NodeID) (c : Cluster) (a : Action) : Prop :=
  Spares down c a ∧ Canvasses c a

/-! ## Counting -/

/-- Before an election is won it moves nothing but the ballot. -/
structure Node.Unmoved (s s' : Node) : Prop where
  proposals : s'.proposals = s.proposals
  rep : ∀ {l}, Rep s.log l → Rep s'.log l

/-- `s`, now `s'`, has got into the new term `t`. -/
structure Node.Joins (s s' : Node) (t : ℕ) : Prop where
  new : s.log.currentTerm < t
  log : ∃ v, s'.log = (s.log.setTermAndVote true t v).1

/-- `n` has been elected since `c₀`, in a term that its peers have got into. -/
structure Elected (cfg : Config) (down : List NodeID) (n : NodeID) (c₀ c : Cluster) : Prop where
  role : (c.node n).role = .leader
  next : ∀ p ∈ (cfg.member n).peers, (c.node n).nextIndex p = (c.node n).log.lastIndex
  matched : ∀ p ∈ (cfg.member n).peers, (c.node n).matchIndex p = 0
  joined : ∀ p ∈ (cfg.member n).peers, p ∉ down →
    (c₀.node p).Joins (c.node p) (c.node n).log.currentTerm
  proposals : (c.node n).proposals = (c₀.node n).proposals
  rep : ∀ {l}, Rep (c₀.node n).log l → Rep (c.node n).log
    (l ++ [{ index := l.length + 1, term := (c.node n).log.currentTerm, type := .noop }])

variable {down : List NodeID} {c₀ : Cluster} {s : Node}

theorem Node.becomeLeader_role (me : Member) (h : s.role = .candidate) :
    (s.becomeLeader me).role = .leader := by
  rw [Node.becomeLeader_eq me h]

/-- A candidate that has won. -/
theorem elected_of_becomeLeader {s : Node} (hrole : s.role = .candidate)
    (hself : c.node n = s.becomeLeader (cfg.member n))
    (hjoin : ∀ p ∈ (cfg.member n).peers, p ∉ down →
      (c₀.node p).Joins (c.node p) s.log.currentTerm)
    (hsame : (c₀.node n).Unmoved s) : Elected cfg down n c₀ c := by
  have heq := Node.becomeLeader_eq (cfg.member n) hrole
  have hlast : (s.becomeLeader (cfg.member n)).log.lastIndex = s.log.lastIndex + 1 := by
    rw [heq]
    exact PersistentLog.appendEntries_lastIndex ..
  have hterm : (s.becomeLeader (cfg.member n)).log.currentTerm = s.log.currentTerm := by
    rw [heq]
    exact (PersistentLog.SameBallot.appendEntries ..).currentTerm
  refine ⟨?_, fun p hp => ?_, fun p hp => ?_, fun p hp hup => ?_, ?_, fun {l} hl => ?_⟩ <;>
    rw [hself]
  · exact Node.becomeLeader_role _ hrole
  · rw [hlast]
    simp [Node.becomeLeader, hrole, Node.appendLocal, hp]
  · rw [heq]
    exact if_pos hp
  · rw [hterm]
    exact hjoin p hp hup
  · rw [heq]
    exact hsame.proposals
  · have hrep := hsame.rep hl
    rw [hterm, hrep.length, heq]
    exact hrep.snoc rfl

/-- The counting loop has the votes it needs. -/
theorem elected_of_won (hn : n ∈ cfg.ids) (hup : n ∉ down) (hel : (c.node n).election = some el)
    (hwon : el.won = true) (hrole : (c.node n).role = .candidate)
    (hterm : (c.node n).log.currentTerm = el.term)
    (hjoin : ∀ p ∈ (cfg.member n).peers, p ∉ down → (c₀.node p).Joins (c.node p) el.term)
    (hsame : (c₀.node n).Unmoved (c.node n)) :
    CanReach cfg (Canvass down) (Elected cfg down n c₀) c := by
  obtain ⟨evs, ha⟩ : ∃ evs, (c.node n).act (cfg.member n) .concludeElection = some {
      node := (c.node n).concludeElection (cfg.member n) el, events := evs } :=
    ⟨_, by simp only [Node.act, hel, hwon, if_true]; rfl⟩
  refine .act hn rfl ha (by simp [Canvass, Spares, Canvasses, hup]) (.done ?_)
  refine @elected_of_becomeLeader _ _ _ _ _ { c.node n with election := none } hrole ?_
    (fun p hp hpu => ?_) ⟨hsame.proposals, hsame.rep⟩
  · rw [Cluster.after_node_self, Node.concludeElection, if_pos ⟨hwon, hrole, hterm⟩]
  · rw [Cluster.after_node_of_ne ((cfg.mem_peers n p).mp hp).2]
    exact hterm ▸ hjoin p hp hpu

/-- A node that counts the answers to `req`. -/
structure Node.Stands (me : Member) (s : Node) (req : RequestVoteRequest) (el : Election) :
    Prop where
  election : s.election = some el
  role : s.role = .candidate
  term : s.log.currentTerm = el.term
  asked : el.term = req.term
  unwon : el.won = false → el.votes < me.needed

/-- One more answer has been counted. -/
theorem Node.Stands.countVote {me : Member} {req : RequestVoteRequest}
    (h : s.Stands me req el) (p : NodeID) (granted : Bool) :
    ∃ el', s.countVote me el p ⟨req.term, granted⟩ = { s with election := some el' } ∧
      { s with election := some el' : Node }.Stands me req el' ∧
      el'.awaiting = el.awaiting.erase p ∧ el'.votes = el.votes + granted.toNat := by
  have hlt : ¬el.term < req.term := by simp [h.asked]
  cases granted with
  | true =>
    unfold Node.countVote
    rw [if_neg hlt, if_pos rfl]
    refine ⟨_, rfl, ⟨rfl, h.role, h.term, h.asked, fun hno => ?_⟩, rfl, rfl⟩
    have := of_decide_eq_false hno
    simpa [h.role, h.term] using this
  | false =>
    unfold Node.countVote
    rw [if_neg hlt, if_neg Bool.false_ne_true]
    exact ⟨_, rfl, ⟨rfl, h.role, h.term, h.asked, h.unwon⟩, rfl, rfl⟩

/-- The answer of `p` to a request of the process `ep` of `n`. -/
def voteOf (n : NodeID) (ep : ℕ) (req : RequestVoteRequest) (granted : NodeID → Bool) (p : NodeID) :
    Envelope :=
  ⟨p, n, ep, .voteResp req { term := req.term, voteGranted := granted p }⟩

/-- The answers that are in flight have the votes that are missing. -/
theorem elected_of_votes {ps : List NodeID} {granted : NodeID → Bool} {req : RequestVoteRequest}
    (hn : n ∈ cfg.ids) (hup : n ∉ down) (hs : (c.node n).Stands (cfg.member n) req el)
    (hnet : c.network = old ++ ps.map (voteOf n (c.node n).epoch req granted))
    (hnodup : ps.Nodup) (hwait : ps ⊆ el.awaiting)
    (hvotes : (cfg.member n).needed ≤ el.votes + (ps.filter granted).length)
    (hjoin : ∀ p ∈ (cfg.member n).peers, p ∉ down → (c₀.node p).Joins (c.node p) req.term)
    (hsame : (c₀.node n).Unmoved (c.node n)) :
    CanReach cfg (Canvass down) (Elected cfg down n c₀) c := by
  induction ps generalizing c el with
  | nil =>
    cases hwon : el.won with
    | true => exact elected_of_won hn hup hs.election hwon hs.role hs.term (hs.asked ▸ hjoin) hsame
    | false =>
      have := hs.unwon hwon
      simp only [List.filter_nil, List.length_nil] at hvotes
      omega
  | cons p ps ih =>
    cases hwon : el.won with
    | true => exact elected_of_won hn hup hs.election hwon hs.role hs.term (hs.asked ▸ hjoin) hsame
    | false =>
      obtain ⟨hp, hnodup⟩ := List.nodup_cons.mp hnodup
      obtain ⟨hpw, hwait⟩ := List.cons_subset.mp hwait
      obtain ⟨el', hcount, hs', haw, hv⟩ := hs.countVote p (granted p)
      have hrec : (c.node n).receive (cfg.member n) (voteOf n (c.node n).epoch req granted p) =
          { node := { c.node n with election := some el' } } := by
        simp [Node.receive, voteOf, hs.election, hs.asked, hpw, hwon, hcount]
      refine .deliver hnet (by simp [Canvass, Spares, Canvasses, hnet, voteOf, hup]) ?_
      change CanReach cfg (Canvass down) _ (c.after n ((c.node n).receive (cfg.member n) _) _)
      rw [hrec]
      refine @ih _ el' (by rwa [Cluster.after_node_self]) ?_ hnodup ?_ ?_ ?_ ?_
      · rw [Cluster.after_node_self]
        exact List.append_nil _
      · rw [haw]
        intro q hq
        have hne : q ≠ p := fun heq => hp (heq ▸ hq)
        exact (List.mem_erase_of_ne hne).mpr (hwait hq)
      · rw [hv]
        rw [List.filter_cons] at hvotes
        cases hg : granted p <;> simp [hg] at hvotes ⊢ <;> omega
      · intro q hq
        rw [Cluster.after_node_of_ne ((cfg.mem_peers n q).mp hq).2]
        exact hjoin q hq
      · rw [Cluster.after_node_self]
        exact ⟨hsame.proposals, hsame.rep⟩

/-! ## Voting -/

/-- A node votes in a new term, unless its log is ahead. -/
theorem Node.handleRequestVote_new {req : RequestVoteRequest}
    (h : s.log.currentTerm < req.term) :
    s.Joins (s.handleRequestVote req).1 req.term ∧ (s.handleRequestVote req).2 =
      ⟨req.term, s.candidateLogUpToDateLocked req.lastLogIndex req.lastLogTerm⟩ := by
  have hlog : (s.stepDown req.term).log = (s.log.setTermAndVote true req.term "").1 := by
    unfold stepDown
    split <;> rfl
  have hvoted : (s.stepDown req.term).log.votedFor = "" := by rw [hlog]; rfl
  have hup : { s.stepDown req.term with leaderID := "", leaderClientAddr := "" : Node
      }.candidateLogUpToDateLocked req.lastLogIndex req.lastLogTerm =
        s.candidateLogUpToDateLocked req.lastLogIndex req.lastLogTerm := by
    unfold candidateLogUpToDateLocked
    rw [hlog]
    rfl
  unfold Node.handleRequestVote
  rw [if_neg (by omega), if_pos h]
  dsimp only
  rw [hup, hvoted]
  cases s.candidateLogUpToDateLocked req.lastLogIndex req.lastLogTerm with
  | true => exact ⟨⟨h, req.candidateID, by simp [Node.setTermAndVote, hlog]; rfl⟩, rfl⟩
  | false => exact ⟨⟨h, "", by simpa using hlog⟩, by simp⟩

/-- The request of `n` to `p`. -/
def askOf (n : NodeID) (ep : ℕ) (req : RequestVoteRequest) (p : NodeID) : Envelope :=
  ⟨n, p, ep, .voteReq req⟩

/-- The requests to `ps` are in flight, and so are the answers of `done`. -/
theorem elected_of_asked (ps done : List NodeID) (granted : NodeID → Bool)
    {req : RequestVoteRequest} (hn : n ∈ cfg.ids) (hup : n ∉ down)
    (hs : (c.node n).Stands (cfg.member n) req el)
    (hnet : c.network = old ++ ps.map (askOf n (c.node n).epoch req) ++
      done.map (voteOf n (c.node n).epoch req granted))
    (hps : ps ⊆ (cfg.member n).peers) (hnodup : (done ++ ps).Nodup)
    (hwait : done ++ ps ⊆ el.awaiting)
    (hnew : ∀ p ∈ ps, p ∉ down → (c₀.node p).log.currentTerm < req.term)
    (hgrant : ∀ p ∈ ps, granted p = (decide (p ∉ down) &&
      (c₀.node p).candidateLogUpToDateLocked req.lastLogIndex req.lastLogTerm))
    (hvotes : (cfg.member n).needed ≤ el.votes + ((done ++ ps).filter granted).length)
    (hjoin : ∀ p ∈ (cfg.member n).peers, p ∉ down → if p ∈ ps then c.node p = c₀.node p
      else (c₀.node p).Joins (c.node p) req.term)
    (hsame : (c₀.node n).Unmoved (c.node n)) :
    CanReach cfg (Canvass down) (Elected cfg down n c₀) c := by
  induction ps generalizing c done old with
  | nil =>
    rw [List.append_nil] at hnodup hwait hvotes
    exact elected_of_votes hn hup hs (by simpa using hnet) hnodup hwait hvotes
      (by simpa using hjoin) hsame
  | cons p ps ih =>
    obtain ⟨hp, hps⟩ := List.cons_subset.mp hps
    have hpn : n ≠ p := ((cfg.mem_peers n p).mp hp).2.symm
    obtain ⟨-, hnodup', -⟩ := List.nodup_append.mp hnodup
    have hpp : p ∉ ps := (List.nodup_cons.mp hnodup').1
    have hfirst : c.network = old ++ askOf n (c.node n).epoch req p ::
        (ps.map (askOf n (c.node n).epoch req) ++
          done.map (voteOf n (c.node n).epoch req granted)) := by simpa using hnet
    by_cases hdown : p ∈ down
    · -- the request to a node that is down stays in the network
      have hno : granted p = false := by simp [hgrant p List.mem_cons_self, hdown]
      refine @ih _ (old ++ [askOf n (c.node n).epoch req p]) done hs (by simp [hfirst]) hps ?_
        (fun q hq => hwait ?_) (fun q hq => hnew q (List.mem_cons_of_mem _ hq))
        (fun q hq => hgrant q (List.mem_cons_of_mem _ hq)) ?_ (fun q hq hqu => ?_) hsame
      · exact hnodup.sublist ((List.sublist_cons_self p ps).append_left done)
      · exact (List.sublist_cons_self p ps).append_left done |>.subset hq
      · simpa [List.filter_cons, hno] using hvotes
      · have hqp : q ≠ p := fun heq => hqu (heq ▸ hdown)
        simpa [hqp] using hjoin q hq hqu
    have hcp : c.node p = c₀.node p := by simpa using hjoin p hp hdown
    obtain ⟨hjoins, hresp⟩ := Node.handleRequestVote_new (hnew p List.mem_cons_self hdown)
    have hg : granted p =
        (c₀.node p).candidateLogUpToDateLocked req.lastLogIndex req.lastLogTerm := by
      simp [hgrant p List.mem_cons_self, hdown]
    have hrec : (c.node p).receive (cfg.member p) (askOf n (c.node n).epoch req p) =
        { node := ((c₀.node p).handleRequestVote req).1
          msgs := [voteOf n (c.node n).epoch req granted p] } := by
      simp only [Node.receive, askOf, Node.reply, voteOf, hcp, hresp, hg]
    refine .deliver hfirst (by simp [Canvass, Spares, Canvasses, hfirst, askOf, hdown]) ?_
    change CanReach cfg (Canvass down) _ (c.after p ((c.node p).receive (cfg.member p) _) _)
    rw [hrec]
    have hrest : (c.after p ⟨((c₀.node p).handleRequestVote req).1,
        [voteOf n (c.node n).epoch req granted p], []⟩ (old ++
          (ps.map (askOf n (c.node n).epoch req) ++
            done.map (voteOf n (c.node n).epoch req granted)))).network =
        old ++ ps.map (askOf n (c.node n).epoch req) ++
          (done ++ [p]).map (voteOf n (c.node n).epoch req granted) := by simp [Cluster.after]
    refine ih (done ++ [p]) ?_ (by rw [Cluster.after_node_of_ne hpn]; exact hrest) hps
      (by simpa using hnodup) (by simpa using hwait)
      (fun q hq => hnew q (List.mem_cons_of_mem _ hq))
      (fun q hq => hgrant q (List.mem_cons_of_mem _ hq)) (by simpa using hvotes)
      (fun q hq hqu => ?_) ?_
    · rwa [Cluster.after_node_of_ne hpn]
    · by_cases hqp : q = p
      · subst hqp
        rw [Cluster.after_node_self, if_neg hpp]
        exact hjoins
      · rw [Cluster.after_node_of_ne hqp]
        simpa [hqp] using hjoin q hq hqu
    · rwa [Cluster.after_node_of_ne hpn]

/-! ## Standing -/

/-- A majority that is up is not ahead of `n`, as its members judge by the last entries. -/
def Backed (cfg : Config) (down : List NodeID) (c : Cluster) (n : NodeID) : Prop :=
  (cfg.member n).needed ≤ 1 + ((cfg.member n).peers.filter fun p => decide (p ∉ down) &&
    (c.node p).candidateLogUpToDateLocked (c.node n).log.lastIndex (c.node n).log.lastTerm).length

instance : Decidable (Backed cfg down c n) := inferInstanceAs (Decidable (_ ≤ _))

theorem Backed.congr {c' : Cluster} (h : Backed cfg down c n)
    (hlast : (c'.node n).log.lastIndex = (c.node n).log.lastIndex)
    (hterm : (c'.node n).log.lastTerm = (c.node n).log.lastTerm)
    (hother : ∀ p ≠ n, c'.node p = c.node p) : Backed cfg down c' n := by
  unfold Backed
  rw [hlast, hterm]
  refine h.trans_eq ?_
  congr 2
  refine List.filter_congr fun p hp => ?_
  rw [hother p fun heq => cfg.not_mem_peers (heq ▸ hp)]

/-- The node has become a candidate and asked its peers. -/
def Node.asking (me : Member) (s : Node) : Node :=
  { s.startElection me with
    election := some { term := s.log.currentTerm + 1, asked := true, awaiting := me.peers } }

theorem Node.act_startElection (me : Member) (hrole : s.role ≠ .leader)
    (hel : s.election = none) :
    s.act me .startElection = some { node := s.startElection me } := by
  simp [Node.act, hrole, hel]

theorem Node.act_requestVotes (me : Member) (hel : s.election = some el)
    (hasked : el.asked = false) : s.act me .requestVotes = some (s.requestVotes me el) := by
  simp [Node.act, hel, hasked]

/-- The node has stood and asked, and nothing else has happened. -/
structure Asked (cfg : Config) (n : NodeID) (c c' : Cluster) : Prop where
  self : c'.node n = (c.node n).asking (cfg.member n)
  other : ∀ q ≠ n, c'.node q = c.node q
  network : c'.network = c.network ++ (cfg.member n).peers.map (askOf n (c.node n).epoch
    ⟨(c.node n).log.currentTerm + 1, n, (c.node n).log.lastIndex, (c.node n).log.lastTerm⟩)

theorem canReach_asked (hn : n ∈ cfg.ids) (hup : n ∉ down) (hrole : (c.node n).role ≠ .leader)
    (hel : (c.node n).election = none) (hmany : (cfg.member n).needed ≠ 1) :
    CanReach cfg (Canvass down) (Asked cfg n c) c := by
  refine .act hn rfl (Node.act_startElection _ hrole hel)
    (by simp [Canvass, Spares, Canvasses, hup]) ?_
  refine .act hn Cluster.after_node_self (Node.act_requestVotes _ rfl rfl)
    (by simp [Canvass, Spares, Canvasses, hup]) ?_
  rw [Node.requestVotes, if_neg hmany, cfg.member_id]
  refine .done ⟨Cluster.after_node_self, fun q hq => ?_, ?_⟩
  · simp [Cluster.after, hq]
  · simp only [Cluster.after, List.append_nil, Node.requestVoteRequest, cfg.member_id]
    rfl

/-- The node has ended its election, and nothing else has happened. -/
structure Abandoned (n : NodeID) (c c' : Cluster) : Prop where
  self : c'.node n = { c.node n with election := none }
  other : ∀ q ≠ n, c'.node q = c.node q

theorem canReach_abandoned (hn : n ∈ cfg.ids) (hup : n ∉ down)
    (hel : (c.node n).election = some el) (hasked : el.asked = true) (hwon : el.won = false) :
    CanReach cfg (Canvass down) (Abandoned n c) c := by
  have ha : (c.node n).act (cfg.member n) .abandonElection = some {
      node := { c.node n with election := none } } := by
    simp [Node.act, hel, hasked, hwon]
  exact .act hn rfl ha (by simp [Canvass, Spares, Canvasses, hup])
    (.done ⟨Cluster.after_node_self, fun q hq => Cluster.after_node_of_ne hq⟩)

/-- By standing again and again, the node gets into a term that is new to its peers. -/
theorem elected_of_backed (k : ℕ) (hn : n ∈ cfg.ids) (hup : n ∉ down)
    (hmany : (cfg.member n).needed ≠ 1) (hrole : (c.node n).role ≠ .leader)
    (hel : (c.node n).election = none) (hb : Backed cfg down c n)
    (hk : ∀ p ∈ (cfg.member n).peers,
      (c₀.node p).log.currentTerm ≤ (c.node n).log.currentTerm + k)
    (hother : ∀ p ≠ n, c.node p = c₀.node p) (hsame : (c₀.node n).Unmoved (c.node n)) :
    CanReach cfg (Canvass down) (Elected cfg down n c₀) c := by
  have hne {p : NodeID} (hp : p ∈ (cfg.member n).peers) : p ≠ n :=
    ((cfg.mem_peers n p).mp hp).2
  induction k generalizing c with
  | zero =>
    refine (canReach_asked hn hup hrole hel hmany).bind fun c₁ ⟨hself, hother₁, hnet⟩ => ?_
    have hep : (c₁.node n).epoch = (c.node n).epoch := by rw [hself]; rfl
    have hstands : (c₁.node n).Stands (cfg.member n) ⟨(c.node n).log.currentTerm + 1, n,
        (c.node n).log.lastIndex, (c.node n).log.lastTerm⟩
        ⟨(c.node n).log.currentTerm + 1, true, (cfg.member n).peers, 1, false⟩ := by
      rw [hself]
      refine ⟨rfl, rfl, rfl, rfl, fun _ => ?_⟩
      unfold Member.needed at hmany ⊢
      dsimp only
      omega
    have hasked := hnet.trans (List.append_nil _).symm
    rw [← hep] at hasked
    refine elected_of_asked (cfg.member n).peers [] (fun p => decide (p ∉ down) &&
      (c.node p).candidateLogUpToDateLocked (c.node n).log.lastIndex (c.node n).log.lastTerm) hn hup
      hstands hasked (List.Subset.refl _) (cfg.peers_nodup n) (List.Subset.refl _)
      (fun p hp _ => Nat.lt_succ_of_le (hk p hp)) (fun p hp => ?_) hb (fun p hp _ => ?_) ?_
    · rw [hother p (hne hp)]
    · rw [if_pos hp, hother₁ p (hne hp), hother p (hne hp)]
    · rw [hself]
      exact ⟨hsame.proposals, fun hl => (hsame.rep hl).setTermAndVote⟩
  | succ k ih =>
    -- the term is spent on the peers that are ahead
    refine (canReach_asked hn hup hrole hel hmany).bind fun c₁ ⟨hself, hother₁, _⟩ => ?_
    have hel₁ : (c₁.node n).election =
        some { term := (c.node n).log.currentTerm + 1, asked := true,
               awaiting := (cfg.member n).peers } := by rw [hself]; rfl
    refine (canReach_abandoned hn hup hel₁ rfl rfl).bind fun c₂ ⟨hself₂, hother₂⟩ => ?_
    rw [hself] at hself₂
    have hother' : ∀ p ≠ n, c₂.node p = c.node p :=
      fun p hp => (hother₂ p hp).trans (hother₁ p hp)
    refine ih (by rw [hself₂]; rintro ⟨⟩) (by rw [hself₂])
      (hb.congr (by rw [hself₂]; rfl) (by rw [hself₂]; rfl) hother') (fun p hp => ?_)
      (fun p hp => (hother' p hp).trans (hother p hp)) ?_
    · have hterm : (c₂.node n).log.currentTerm = (c.node n).log.currentTerm + 1 := by
        rw [hself₂]; rfl
      have := hk p hp
      omega
    · rw [hself₂]
      exact ⟨hsame.proposals, fun hl => (hsame.rep hl).setTermAndVote⟩

/-- A node that is not engaged in an election. -/
theorem elected_of_free (hn : n ∈ cfg.ids) (hup : n ∉ down) (hrole : (c.node n).role ≠ .leader)
    (hb : Backed cfg down c n) (h : Abandoned n c₀ c) :
    CanReach cfg (Canvass down) (Elected cfg down n c₀) c := by
  have hel : (c.node n).election = none := by rw [h.self]
  have hsame : (c₀.node n).Unmoved (c.node n) := by rw [h.self]; exact ⟨rfl, id⟩
  by_cases hone : (cfg.member n).needed = 1
  · -- the only member votes for itself
    refine .act hn rfl (Node.act_startElection _ hrole hel)
      (by simp [Canvass, Spares, Canvasses, hup]) ?_
    refine .act hn Cluster.after_node_self (Node.act_requestVotes _ rfl rfl)
      (by simp [Canvass, Spares, Canvasses, hup]) (.done ?_)
    rw [Node.requestVotes, if_pos hone]
    have hnone : (cfg.member n).peers = [] := by
      unfold Member.needed at hone
      exact List.length_eq_zero_iff.mp (by omega)
    refine @elected_of_becomeLeader _ _ _ _ _
      { (c.node n).startElection (cfg.member n) with election := none } rfl
      Cluster.after_node_self ?_ ⟨hsame.proposals, fun hl => (hsame.rep hl).setTermAndVote⟩
    rw [hnone]
    exact fun p hp => absurd hp List.not_mem_nil
  · obtain ⟨k, hk⟩ :=
      ((cfg.member n).peers.map fun p => (c₀.node p).log.currentTerm).toFinset.exists_le
    refine elected_of_backed k hn hup hone hrole hel hb (fun p hp => ?_) h.other hsame
    exact (hk _ (by simpa using ⟨p, hp, rfl⟩)).trans (Nat.le_add_left ..)

/-- The election that the node is engaged in, if any, can be ended. -/
theorem canReach_free (hn : n ∈ cfg.ids) (hup : n ∉ down) :
    CanReach cfg (Canvass down) (fun c' => Abandoned n c c' ∨
      (c.node n).role = .candidate ∧ (c'.node n).role = .leader) c := by
  cases hel : (c.node n).election with
  | none =>
    refine .done (.inl ⟨?_, fun _ _ => rfl⟩)
    rw [← hel]
  | some el =>
    cases hwon : el.won with
    | true =>
      obtain ⟨evs, ha⟩ : ∃ evs, (c.node n).act (cfg.member n) .concludeElection = some {
          node := (c.node n).concludeElection (cfg.member n) el, events := evs } :=
        ⟨_, by simp only [Node.act, hel, hwon, if_true]; rfl⟩
      refine .act hn rfl ha (by simp [Canvass, Spares, Canvasses, hup]) (.done ?_)
      by_cases hlead : (c.node n).role = .candidate ∧ (c.node n).log.currentTerm = el.term
      · refine .inr ⟨hlead.1, ?_⟩
        rw [Cluster.after_node_self, Node.concludeElection, if_pos ⟨hwon, hlead⟩]
        exact Node.becomeLeader_role _ hlead.1
      · refine .inl ⟨?_, fun q hq => Cluster.after_node_of_ne hq⟩
        rw [Cluster.after_node_self, Node.concludeElection, if_neg fun h => hlead h.2]
    | false =>
      cases hasked : el.asked with
      | true => exact (canReach_abandoned hn hup hel hasked hwon).bind fun _ h => .done (.inl h)
      | false =>
        refine .act hn rfl (Node.act_requestVotes _ hel hasked)
          (by simp [Canvass, Spares, Canvasses, hup]) ?_
        rw [Node.requestVotes]
        split
        · by_cases hrole : (c.node n).role = .candidate
          · refine .done (.inr ⟨hrole, ?_⟩)
            rw [Cluster.after_node_self]
            exact Node.becomeLeader_role _ hrole
          · refine .done (.inl ⟨?_, fun q hq => Cluster.after_node_of_ne hq⟩)
            rw [Cluster.after_node_self]
            exact Node.becomeLeader_of_ne _ hrole
        · refine (@canReach_abandoned _ _ _ _ { el with asked := true, awaiting := _ } hn hup
            (congrArg Node.election Cluster.after_node_self) rfl hwon).bind
            fun c' h => .done (.inl ⟨?_, fun q hq => ?_⟩)
          · rw [h.self, Cluster.after_node_self]
          · rw [h.other q hq, Cluster.after_node_of_ne hq]

namespace Backed

theorem abandoned (h : Backed cfg down c n) (ha : Abandoned n c c') : Backed cfg down c' n :=
  h.congr (by rw [ha.self]) (by rw [ha.self]) ha.other

theorem canLead (h : Backed cfg down c n) (hn : n ∈ cfg.ids) (hup : n ∉ down) :
    CanReach cfg (Canvass down) (fun c' => (c'.node n).role = .leader) c := by
  by_cases hrole : (c.node n).role = .leader
  · exact .done hrole
  refine (canReach_free hn hup).bind fun c₁ hc₁ => ?_
  rcases hc₁ with ha | ⟨-, hlead⟩
  · have hrole₁ : (c₁.node n).role ≠ .leader := by rwa [ha.self]
    exact (elected_of_free hn hup hrole₁ (h.abandoned ha) ha).bind fun _ h => .done h.role
  · exact .done hlead

theorem elected (h : Backed cfg down c n) (hn : n ∈ cfg.ids) (hup : n ∉ down)
    (hrole : (c.node n).role = .follower) :
    CanReach cfg (Canvass down) (Elected cfg down n c) c := by
  refine (canReach_free hn hup).bind fun c₁ hc₁ => ?_
  rcases hc₁ with ha | ⟨hcand, -⟩
  · exact elected_of_free hn hup (by rw [ha.self, hrole]; decide) (h.abandoned ha) ha
  · rw [hrole] at hcand
    cases hcand

end Backed

/-- The last entries can be compared, so somebody who is up is not behind anybody who is. -/
theorem exists_backed (hup : cfg.ids.length < 2 * (cfg.ids.filter (· ∉ down)).length)
    (c : Cluster) : ∃ n ∈ cfg.ids, n ∉ down ∧ Backed cfg down c n := by
  obtain ⟨n, hn, hmax⟩ := (cfg.ids.filter (· ∉ down)).toFinset.exists_max_image
    (fun p => toLex ((c.node p).log.lastTerm, (c.node p).log.lastIndex))
    (by rw [List.toFinset_nonempty_iff]; rintro h; rw [h] at hup; simp at hup)
  obtain ⟨hmem, hlive⟩ : n ∈ cfg.ids ∧ n ∉ down := by simpa using hn
  refine ⟨n, hmem, hlive, ?_⟩
  have hall : ∀ p ∈ (cfg.member n).peers, (decide (p ∉ down) &&
      (c.node p).candidateLogUpToDateLocked (c.node n).log.lastIndex (c.node n).log.lastTerm) =
        decide (p ∉ down) := by
    intro p hp
    by_cases hpd : p ∈ down
    · simp [hpd]
    have hle := hmax p (by simpa using ⟨((cfg.mem_peers n p).mp hp).1, hpd⟩)
    simp only [Prod.Lex.toLex_le_toLex] at hle
    unfold Node.candidateLogUpToDateLocked
    rcases hle with hlt | ⟨heq, hle⟩
    · simpa [hpd, hlt.ne'] using hlt
    · simpa [hpd, heq.symm] using hle
  have hperm : List.Perm cfg.ids (n :: (cfg.member n).peers) := by
    refine (List.perm_ext_iff_of_nodup cfg.nodup
      (List.nodup_cons.mpr ⟨cfg.not_mem_peers, cfg.peers_nodup n⟩)).mpr fun p => ?_
    rw [List.mem_cons, cfg.mem_peers]
    by_cases hp : p = n <;> simp [hp, hmem]
  have hlen := hperm.length_eq
  have hfilter := (hperm.filter (· ∉ down)).length_eq
  rw [List.filter_cons_of_pos (by simpa using hlive)] at hfilter
  rw [List.length_cons] at hlen hfilter
  unfold Backed Member.needed
  rw [List.filter_congr hall]
  omega

/-- **Elections can succeed** as long as a majority is up. From every state of the cluster, a member
that a majority is not ahead of can be made leader by the steps of elections, in which the others
take no part; and there is such a member. -/
theorem leader_electable (hup : cfg.ids.length < 2 * (cfg.ids.filter (· ∉ down)).length)
    (c : Cluster) (tr : List Event) :
    (∃ n ∈ cfg.ids, n ∉ down ∧ Backed cfg down c n) ∧
    ∀ n ∈ cfg.ids, n ∉ down → Backed cfg down c n →
      ∃ tr' c', Continues cfg (Canvass down) tr c tr' c' ∧ (c'.node n).role = .leader :=
  ⟨exists_backed hup c, fun _ hn hup hb => (hb.canLead hn hup).continues tr⟩

/-- `n1` leads and has replicated its first entry to `n2`, and is down; `n3` is behind `n2`. -/
theorem leader_electable_behind : ∃ tr c, Run (trio 0) unrestricted tr c ∧
    (c.node "n1").role = .leader ∧ ¬ Backed (trio 0) ["n1"] c "n3" ∧
    ∃ tr' c', Continues (trio 0) (Canvass ["n1"]) tr c tr' c' ∧ (c'.node "n2").role = .leader := by
  have hx : Cluster.init.Reaches (trio 0) unrestricted []
      (electBy "n1" 0 ++ ([.act "n1" (.replicate "n2"), .deliver 1] : List Action))
      fun c _ => (c.node "n1").role = .leader ∧ ¬ Backed (trio 0) ["n1"] c "n3" ∧
        Backed (trio 0) ["n1"] c "n2" := by decide +kernel
  obtain ⟨c, tr, h, hl, hbehind, hb⟩ := hx.run
  exact ⟨tr, c, h, hl, hbehind,
    (leader_electable (by decide) c tr).2 "n2" (by decide) (by decide) hb⟩

end DistributedKV.Raft
