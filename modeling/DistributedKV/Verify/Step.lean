import DistributedKV.Verify.Node

/-!
# Steps and the machine that shadows them

What a step of a node can do, said once: `Node.Acts` and `Node.Receives` list the activities and
the messages that have an effect, with their guards, and `Cluster.Steps` the steps of a cluster.

The abstract machine of `Theory.Replica` is run alongside: `Cluster.ops` are the operations a
step performs there, and a `Shadow` is a run with the state they lead to. Invariants relate the
two. They are local, about one node or one message and the abstract state (`LocalInv`).
-/

namespace DistributedKV.Raft

open Theory (Op)

/-! ## The operations of a step -/

/-- States of the machine of replicated logs, for this cluster. -/
abbrev Abs := Theory.State NodeID Entry

namespace Node

/-- A node that has become leader appends the no-op of its term. -/
def electOps (n : NodeID) (s s' : Node) : List (Op NodeID Entry) :=
  if s.role ≠ .leader ∧ s'.role = .leader then
    [ .elect n s.log.currentTerm,
      .append n s.log.currentTerm
        { index := s.log.lastIndex + 1, term := s.log.currentTerm, type := .noop },
      .ack n s.log.currentTerm (s.log.lastIndex + 1) ]
  else []

def actOps (me : Member) (s : Node) : Activity → List (Op NodeID Entry)
  | .startElection =>
    [ .observe me.id (s.log.currentTerm + 1),
      .vote me.id (s.log.currentTerm + 1) me.id ]
  | .requestVotes =>
    match s.election with
    | some el => electOps me.id s (s.requestVotes me el).node
    | none => []
  | .concludeElection =>
    match s.election with
    | some el => electOps me.id s (s.concludeElection me el)
    | none => []
  | .propose type key value clientRequestID =>
    [ .append me.id s.log.currentTerm (s.proposal type key value clientRequestID),
      .ack me.id s.log.currentTerm (s.log.lastIndex + 1) ]
  | .tryAdvanceCommitIndex =>
    if s.commitIndex < (s.advance me).node.commitIndex then
      [ .choose s.log.currentTerm (s.advance me).node.commitIndex ]
    else []
  | _ => []

/-- An accepted request makes the log a prefix of the leader's. -/
def adoptOps (n : NodeID) (req : AppendEntriesRequest) : List (Op NodeID Entry) :=
  if req.entries = [] then []
  else
    [ .adopt n req.term (req.prevLogIndex + req.entries.length),
      .ack n req.term (req.prevLogIndex + req.entries.length) ]

/-- The message `env` took the node from `s` to `s'`. -/
def receiveOps (s s' : Node) (env : Envelope) : List (Op NodeID Entry) :=
  .observe env.dst s'.log.currentTerm ::
    match env.body with
    | .voteReq req =>
      if (s.handleRequestVote req).2.voteGranted then
        [ .vote env.dst req.term req.candidateID ]
      else []
    | .appendReq _ req =>
      if (s.handleAppendEntries req).2.success then adoptOps env.dst req else []
    | .snapReq req =>
      if s.installs req then [ .adopt env.dst req.term req.lastIncludedIndex ] else []
    | _ => []

theorem electOps_lead (h : s.role ≠ .leader) (h' : s'.role = .leader) :
    electOps n s s' =
      [ .elect n s.log.currentTerm,
        .append n s.log.currentTerm
          { index := s.log.lastIndex + 1, term := s.log.currentTerm, type := .noop },
        .ack n s.log.currentTerm (s.log.lastIndex + 1) ] := if_pos ⟨h, h'⟩

theorem electOps_same (h : s'.role = s.role) : electOps n s s' = [] :=
  if_neg fun h' => h'.1 (h ▸ h'.2)

end Node

/-! ## Inversion -/

namespace Node

/-- The activities of a node and their effects. -/
inductive Acts (me : Member) (s : Node) : Activity → Effect → Prop where
  | startElection : s.role ≠ .leader → s.election = none →
    Acts me s .startElection { node := s.startElection me }
  | ask : s.election = some el → el.asked = false → s.actOps me .requestVotes = [] →
    Acts me s .requestVotes {
      node := { s with election := some { el with asked := true, awaiting := me.peers } }
      msgs := me.peers.map fun p => ⟨me.id, p, s.epoch, .voteReq (s.requestVoteRequest me el)⟩ }
  | lead : s.election = some el → el.asked = false ∧ me.needed = 1 ∨ el.won = true →
    s.role = .candidate →
    s' = { s with
      election := none
      role := .leader
      leaderID := me.id
      leaderClientAddr := me.selfClientAddr
      nextIndex := s'.nextIndex
      matchIndex := fun p => if p ∈ me.peers then 0 else s.matchIndex p
      log := (s.log.appendEntries true
        [{ index := s.log.lastIndex + 1, term := s.log.currentTerm, type := .noop }]).1 } →
    s.actOps me a =
      [ .elect me.id s.log.currentTerm,
        .append me.id s.log.currentTerm
          { index := s.log.lastIndex + 1, term := s.log.currentTerm, type := .noop },
        .ack me.id s.log.currentTerm (s.log.lastIndex + 1) ] →
    Acts me s a { node := s', events := [.elected me.id s'.log.currentTerm] }
  | dissolve : a ≠ .restart → s.actOps me a = [] →
    Acts me s a { node := { s with election := none } }
  | propose : s.propose type key value clientRequestID = .ok s' →
    Acts me s (.propose type key value clientRequestID) { node := s' }
  | proposeReturn : s.proposals[call]? = some p → p.result = none → p.waitCh = some r →
    Acts me s (.proposeReturn call) {
      node := { s with proposals := s.proposals.set call { p with result := some r } }
      events := if r = none then [.proposeOk me.id (s.epoch, call) p.entry] else [] }
  | proposeCancel : s.proposals[call]? = some p →
    Acts me s (.proposeCancel call) { node := s.proposeCancel call p }
  | replicate : peer ∈ me.peers →
    s.replicateToPeer me peer s.log.currentTerm = some (.appendEntries req) →
    Acts me s (.replicate peer) {
      node := s, msgs := [⟨me.id, peer, s.epoch, .appendReq .replicate req⟩] }
  | sendSnapshot : peer ∈ me.peers →
    s.replicateToPeer me peer s.log.currentTerm = some (.installSnapshot req) →
    Acts me s (.replicate peer) {
      node := s, msgs := [⟨me.id, peer, s.epoch, .snapReq req⟩] }
  | tryAdvanceCommitIndex : Acts me s .tryAdvanceCommitIndex (s.advance me)
  | linearizableRead : s.linearizableRead me = .ok s' →
    Acts me s .linearizableRead {
      node := s', events := [.readInvoked me.id (s.epoch, s.reads.length)] }
  | heartbeat : s.reads[call]? = some r → peer ∈ r.unsent →
    Acts me s (.heartbeat call peer) (s.sendHeartbeat me call r peer)
  | waitForApplied : s.reads[call]? = some r → r.phase = .confirming → me.needed ≤ r.confirmed →
    Acts me s (.waitForApplied call) {
      node := s.waitForApplied call r
      events := if r.readIndex ≤ s.lastApplied then
        [.readOk me.id (s.epoch, call) s.lastApplied] else [] }
  | readReturn : s.reads[call]? = some r → r.phase = .waiting true →
    Acts me s (.readReturn call) {
      node := { s with reads := s.reads.set call { r with phase := .returned } }
      events := [.readOk me.id (s.epoch, call) s.lastApplied] }
  | readCancel : s.reads[call]? = some r → r.phase ≠ .returned →
    Acts me s (.readCancel call) { node := s.readCancel call r }
  | applyBegin : s.applying = none → Acts me s .applyBegin { node := s.applyBegin }
  | applyNext : s.applying = some (applied, commit) →
    Acts me s .applyNext (s.applyNext me applied commit)
  | restart : Acts me s .restart {
      node := newNode s.log.engine s.sm s.snapStore (s.epoch + 1) }

/-- The end of an election: `becomeLeader`, on a candidate. -/
theorem Acts.becomeLeader {me : Member} {s s' : Node} (hel : s.election = some el)
    (hw : el.asked = false ∧ me.needed = 1 ∨ el.won = true) (ha : a ≠ .restart)
    (hs : s' = { s with election := none }.becomeLeader me)
    (hops : s.actOps me a = electOps me.id s s') :
    Acts me s a { node := s', events := electedEvents me s s' } := by
  by_cases hr : s.role = .candidate
  · replace hs := hs.trans (becomeLeader_eq (s := { s with election := none }) me hr)
    have hne : s.role ≠ .leader := by simp [hr]
    have hrole : s'.role = .leader := by rw [hs]
    have hnext : ({ s with election := none }.becomeLeader me).nextIndex = s'.nextIndex := by
      rw [hs]
    rw [hnext] at hs
    rw [electedEvents, if_pos ⟨hne, hrole⟩]
    exact .lead hel hw hr hs (hops.trans (electOps_lead hne hrole))
  · replace hs := hs.trans (becomeLeader_of_ne (s := { s with election := none }) me hr)
    have hrole : s'.role = s.role := by rw [hs]
    rw [electedEvents, if_neg fun h => h.1 (hrole ▸ h.2), hs]
    exact .dissolve ha (hops.trans (electOps_same hrole))

theorem act_inv {me : Member} {s : Node} (h : s.act me a = some ef) : s.Acts me a ef := by
  cases a with
  | startElection =>
    obtain ⟨⟨hrole, hel⟩, h⟩ := Option.ite_none_right_eq_some.mp h
    cases h
    exact .startElection hrole (Option.isNone_iff_eq_none.mp hel)
  | requestVotes =>
    simp only [act] at h
    split at h
    · next el hel =>
      obtain ⟨hasked, h⟩ := Option.ite_none_left_eq_some.mp h
      have hasked : el.asked = false := Bool.eq_false_iff.mpr hasked
      have hops : s.actOps me .requestVotes = electOps me.id s (s.requestVotes me el).node := by
        simp only [actOps, hel]
      cases h
      by_cases hone : me.needed = 1
      · rw [Node.requestVotes, if_pos hone] at hops ⊢
        exact .becomeLeader hel (.inl ⟨hasked, hone⟩) nofun rfl hops
      · rw [Node.requestVotes, if_neg hone] at hops ⊢
        exact .ask hel hasked (hops.trans (electOps_same rfl))
    · cases h
  | concludeElection =>
    simp only [act] at h
    split at h
    · next el hel =>
      obtain ⟨hwon, h⟩ := Option.ite_none_right_eq_some.mp h
      have hops : s.actOps me .concludeElection = electOps me.id s (s.concludeElection me el) := by
        simp only [actOps, hel]
      cases h
      by_cases hg : el.won ∧ s.role = .candidate ∧ s.log.currentTerm = el.term
      · exact .becomeLeader hel (.inr hwon) nofun (if_pos hg) hops
      · have hs : s.concludeElection me el = { s with election := none } := if_neg hg
        rw [hs] at hops ⊢
        have hev : electedEvents me s { s with election := none } = [] :=
          if_neg fun h => h.1 h.2
        rw [hev]
        exact .dissolve nofun (hops.trans (electOps_same rfl))
    · cases h
  | abandonElection =>
    simp only [act] at h
    split at h
    · next el hel =>
      obtain ⟨-, h⟩ := Option.ite_none_right_eq_some.mp h
      cases h
      exact .dissolve nofun rfl
    · cases h
  | propose =>
    simp only [act] at h
    split at h
    · next hs => cases h; exact .propose hs
    · cases h
  | proposeReturn call =>
    simp only [act, Node.proposeReturn] at h
    split at h
    · next p hp =>
      split at h
      · next hr hw => cases h; exact .proposeReturn hp hr hw
      · cases h
    · cases h
  | proposeCancel call =>
    simp only [act] at h
    split at h
    · next p hp =>
      obtain ⟨-, h⟩ := Option.ite_none_right_eq_some.mp h
      cases h
      exact .proposeCancel hp
    · cases h
  | replicate peer =>
    obtain ⟨hpeer, h⟩ := Option.ite_none_right_eq_some.mp h
    simp only [Node.replicate] at h
    split at h
    · cases h
    · next hreq => cases h; exact .replicate hpeer hreq
    · next hreq => cases h; exact .sendSnapshot hpeer hreq
  | tryAdvanceCommitIndex => cases h; exact .tryAdvanceCommitIndex
  | linearizableRead =>
    simp only [act] at h
    split at h
    · next hs => cases h; exact .linearizableRead hs
    · cases h
  | heartbeat call peer =>
    simp only [act] at h
    split at h
    · next r hr =>
      obtain ⟨hpeer, h⟩ := Option.ite_none_right_eq_some.mp h
      cases h
      exact .heartbeat hr hpeer
    · cases h
  | waitForApplied call =>
    simp only [act] at h
    split at h
    · next r hr =>
      obtain ⟨⟨hphase, hc⟩, h⟩ := Option.ite_none_right_eq_some.mp h
      cases h
      exact .waitForApplied hr hphase hc
    · cases h
  | readReturn call =>
    simp only [act] at h
    split at h
    · next r hr =>
      obtain ⟨hphase, h⟩ := Option.ite_none_right_eq_some.mp h
      cases h
      exact .readReturn hr hphase
    · cases h
  | readCancel call =>
    simp only [act] at h
    split at h
    · next r hr =>
      obtain ⟨hphase, h⟩ := Option.ite_none_left_eq_some.mp h
      cases h
      exact .readCancel hr hphase
    · cases h
  | applyBegin =>
    obtain ⟨hap, h⟩ := Option.ite_none_right_eq_some.mp h
    cases h
    exact .applyBegin (Option.isNone_iff_eq_none.mp hap)
  | applyNext =>
    simp only [act] at h
    split at h
    · next hap => cases h; exact .applyNext hap
    · cases h
  | restart => cases h; exact .restart

/-- The messages that an activity sends. -/
inductive Emits (me : Member) (s : Node) : Activity → Envelope → Prop where
  | voteReq : s.election = some el → s.actOps me .requestVotes = [] → peer ∈ me.peers →
    Emits me s .requestVotes ⟨me.id, peer, s.epoch, .voteReq (s.requestVoteRequest me el)⟩
  | appendReq : peer ∈ me.peers →
    s.replicateToPeer me peer s.log.currentTerm = some (.appendEntries req) →
    Emits me s (.replicate peer) ⟨me.id, peer, s.epoch, .appendReq .replicate req⟩
  | snapReq : peer ∈ me.peers →
    s.replicateToPeer me peer s.log.currentTerm = some (.installSnapshot req) →
    Emits me s (.replicate peer) ⟨me.id, peer, s.epoch, .snapReq req⟩
  | heartbeat : s.reads[call]? = some rd → peer ∈ rd.unsent →
    Emits me s (.heartbeat call peer)
      ⟨me.id, peer, s.epoch, .appendReq (.confirm call) (s.heartbeat me rd peer)⟩

theorem Acts.emits {s : Node} (ha : s.Acts me a ef) (henv : env ∈ ef.msgs) : s.Emits me a env := by
  cases ha with
  | ask hel _ hops =>
    obtain ⟨peer, hp, rfl⟩ := List.mem_map.mp henv
    exact .voteReq hel hops hp
  | replicate hp hreq => cases List.mem_singleton.mp henv; exact .appendReq hp hreq
  | sendSnapshot hp hreq => cases List.mem_singleton.mp henv; exact .snapReq hp hreq
  | heartbeat hrd hp => cases List.mem_singleton.mp henv; exact .heartbeat hrd hp
  | applyNext =>
    unfold Node.applyNext at henv
    split at henv
    · cases henv
    · split at henv <;> cases henv
  | _ => cases henv

/-- The indices, the stored snapshot and the apply loop are as they were. -/
structure SameIndices (s s' : Node) : Prop where
  snapStore : s'.snapStore = s.snapStore
  commitIndex : s'.commitIndex = s.commitIndex
  lastApplied : s'.lastApplied = s.lastApplied
  applying : s'.applying = s.applying

/-- What an activity can do to the log, the indices and the stored snapshot. -/
inductive Moves (me : Member) (s : Node) : Activity → Node → Prop where
  | stay : s'.log = s.log → s.SameIndices s' → Moves me s a s'
  | stand : s'.log = (s.log.setTermAndVote true (s.log.currentTerm + 1) me.id).1 →
    s.SameIndices s' → Moves me s a s'
  | grow : e.index = s.log.lastIndex + 1 → s'.log = (s.log.appendEntries true [e]).1 →
    s.SameIndices s' → Moves me s a s'
  | commit : s.role = .leader → s.commitIndex < i → i = s.majorityIndex me →
    s.log.termAt i = some s.log.currentTerm → s.actOps me a = [.choose s.log.currentTerm i] →
    Moves me s a { s with commitIndex := i }
  | begin : Moves me s a s.applyBegin
  | halt : Moves me s a { s with applying := none }
  | apply : s.applying = some (i, commit) → i < commit → s.log.get (i + 1) = .ok e →
    Moves me s a (s.applyOne me (i + 1) commit e)
  | restart : Moves me s .restart (newNode s.log.engine s.sm s.snapStore (s.epoch + 1))

theorem Acts.moves {s : Node} (ha : s.Acts me a ef) : s.Moves me a ef.node := by
  cases ha with
  | startElection => exact .stand rfl ⟨rfl, rfl, rfl, rfl⟩
  | lead _ _ _ hs => exact .grow rfl (by rw [hs]) (by rw [hs]; exact ⟨rfl, rfl, rfl, rfl⟩)
  | propose hs =>
    obtain ⟨-, rfl⟩ := propose_ok hs
    exact .grow rfl rfl ⟨rfl, rfl, rfl, rfl⟩
  | tryAdvanceCommitIndex =>
    rcases tryAdvanceCommitIndex_cases me s s.log.currentTerm with h | ⟨hr, hlt, hterm, h⟩
    · exact .stay (congrArg Node.log h) (by rw [advance, h]; exact ⟨rfl, rfl, rfl, rfl⟩)
    · have hops : s.actOps me .tryAdvanceCommitIndex =
          [.choose s.log.currentTerm (s.majorityIndex me)] := by
        simp only [actOps, advance, h, if_pos hlt]
      rw [advance, h]; exact .commit hr hlt rfl hterm hops
  | linearizableRead hs =>
    obtain ⟨-, rfl⟩ := linearizableRead_ok hs
    exact .stay rfl ⟨rfl, rfl, rfl, rfl⟩
  | waitForApplied =>
    rw [waitForApplied_eq]
    exact .stay rfl ⟨rfl, rfl, rfl, rfl⟩
  | applyBegin => exact .begin
  | applyNext hap =>
    unfold Node.applyNext
    split
    · exact .halt
    · next hlt =>
      split
      · exact .halt
      · next hg => exact .apply hap (not_le.mp hlt) hg
  | restart => exact .restart
  | ask | dissolve | proposeReturn | proposeCancel | replicate | sendSnapshot | heartbeat
  | readReturn | readCancel => exact .stay rfl ⟨rfl, rfl, rfl, rfl⟩

/-- What an event says about the activity that took the node from `s` to `s'`. -/
def Causes (me : Member) (s : Node) (a : Activity) (s' : Node) : Event → Prop
  | .elected n t => n = me.id ∧ t = s'.log.currentTerm ∧ s'.role = .leader
  | .committed n t i => n = me.id ∧ t = s.log.currentTerm ∧ s.role = .leader ∧
      s.actOps me a = [.choose t i]
  | .applied n i e w => n = me.id ∧ w = s.woken i ∧ ∃ j stop, i = j + 1 ∧
      s.applying = some (j, stop) ∧ j < stop ∧ s.log.get i = .ok e ∧ s' = s.applyOne me i stop e
  | .proposeOk n call e => n = me.id ∧ call.1 = s.epoch ∧
      ∃ p, s.proposals[call.2]? = some p ∧ p.waitCh = some none ∧ p.entry = e
  | .readInvoked n call => n = me.id ∧ call = (s.epoch, s.reads.length) ∧ a = .linearizableRead ∧
      s.linearizableRead me = .ok s'
  | .readOk n call la => n = me.id ∧ call.1 = s.epoch ∧ la = s.lastApplied ∧
      ∃ rd, s.reads[call.2]? = some rd ∧
        (rd.phase = .confirming ∧ me.needed ≤ rd.confirmed ∧ rd.readIndex ≤ la ∨
          rd.phase = .waiting true)

theorem Acts.causes {s : Node} (ha : s.Acts me a ef) (hev : ev ∈ ef.events) :
    s.Causes me a ef.node ev := by
  cases ha with
  | lead _ _ _ hs => cases List.mem_singleton.mp hev; exact ⟨rfl, rfl, by rw [hs]⟩
  | proposeReturn hp _ hw =>
    dsimp only at hev
    split at hev
    · next hr => cases List.mem_singleton.mp hev; exact ⟨rfl, rfl, _, hp, hr ▸ hw, rfl⟩
    · cases hev
  | tryAdvanceCommitIndex =>
    simp only [advance] at hev
    split at hev
    · next hlt =>
      rcases tryAdvanceCommitIndex_cases me s s.log.currentTerm with heq | ⟨hrole, -, -, -⟩
      · rw [heq] at hlt; exact (lt_irrefl _ hlt).elim
      · cases List.mem_singleton.mp hev
        exact ⟨rfl, rfl, hrole, by simp only [actOps, advance, if_pos hlt]⟩
    · cases hev
  | linearizableRead hs => cases List.mem_singleton.mp hev; exact ⟨rfl, rfl, rfl, hs⟩
  | waitForApplied hrd hphase hc =>
    dsimp only at hev
    split at hev
    · next hle =>
      cases List.mem_singleton.mp hev
      exact ⟨rfl, rfl, rfl, _, hrd, .inl ⟨hphase, hc, hle⟩⟩
    · cases hev
  | readReturn hrd hphase =>
    cases List.mem_singleton.mp hev; exact ⟨rfl, rfl, rfl, _, hrd, .inr hphase⟩
  | applyNext hap =>
    unfold Node.applyNext at hev ⊢
    split at hev
    · cases hev
    · next hlt =>
      split at hev
      · cases hev
      · next e hg =>
        cases List.mem_singleton.mp hev
        rw [if_neg hlt]
        exact ⟨rfl, rfl, _, _, rfl, hap, not_le.mp hlt, hg, rfl⟩
  | startElection | ask | dissolve | propose | proposeCancel | replicate | sendSnapshot
  | heartbeat | readCancel | applyBegin | restart => cases hev

/-- The messages a node handles and their effects. -/
inductive Receives (me : Member) (s : Node) : Envelope → Effect → Prop where
  | voteReq {src dst ep req} : Receives me s ⟨src, dst, ep, .voteReq req⟩ {
      node := (s.handleRequestVote req).1
      msgs := [⟨dst, src, ep, .voteResp req (s.handleRequestVote req).2⟩] }
  | appendReq {src dst ep caller req} : Receives me s ⟨src, dst, ep, .appendReq caller req⟩ {
      node := (s.handleAppendEntries req).1
      msgs := [⟨dst, src, ep, .appendResp caller req (s.handleAppendEntries req).2⟩] }
  | snapReq {src dst ep req} : Receives me s ⟨src, dst, ep, .snapReq req⟩ {
      node := (s.handleInstallSnapshot req).1
      msgs := [⟨dst, src, ep, .snapResp req (s.handleInstallSnapshot req).2⟩] }
  | voteResp {src dst req resp el} :
    s.election = some el → el.term = req.term → src ∈ el.awaiting → el.won = false →
    Receives me s ⟨src, dst, s.epoch, .voteResp req resp⟩ { node := s.countVote me el src resp }
  | replicated {src dst req resp} :
    Receives me s ⟨src, dst, s.epoch, .appendResp .replicate req resp⟩ {
      node := s.replicated src req resp }
  | confirmed {src dst call req resp rd} : s.reads[call]? = some rd → src ∈ rd.awaiting →
    Receives me s ⟨src, dst, s.epoch, .appendResp (.confirm call) req resp⟩ {
      node := s.confirmed call rd src resp }
  | snapResp {src dst req resp} : Receives me s ⟨src, dst, s.epoch, .snapResp req resp⟩ {
      node := s.snapshotInstalled src req resp }
  | discard {src dst ep body} : (∀ req, body ≠ .voteReq req) →
    (∀ caller req, body ≠ .appendReq caller req) → (∀ req, body ≠ .snapReq req) →
    Receives me s ⟨src, dst, ep, body⟩ { node := s }

theorem Receives.events {s : Node} (h : s.Receives me env ef) : ef.events = [] := by
  cases h <;> rfl

theorem receive_inv (me : Member) (s : Node) (env : Envelope) :
    s.Receives me env (s.receive me env) := by
  obtain ⟨src, dst, epoch, body⟩ := env
  cases body with
  | voteReq req => exact .voteReq
  | appendReq caller req => exact .appendReq
  | snapReq req => exact .snapReq
  | voteResp req resp =>
    simp only [receive]
    split
    · exact .discard nofun nofun nofun
    · next el hel =>
      split
      · next hg =>
        obtain ⟨rfl, hterm, hsrc, hwon⟩ := hg
        exact .voteResp hel hterm hsrc hwon
      · exact .discard nofun nofun nofun
  | appendResp caller req resp =>
    cases caller with
    | replicate =>
      simp only [receive]
      split
      · next he => cases he; exact .replicated
      · exact .discard nofun nofun nofun
    | confirm call =>
      simp only [receive]
      split
      · exact .discard nofun nofun nofun
      · next rd hr =>
        split
        · next hg => obtain ⟨rfl, hsrc⟩ := hg; exact .confirmed hr hsrc
        · exact .discard nofun nofun nofun
  | snapResp req resp =>
    simp only [receive]
    split
    · next he => cases he; exact .snapResp
    · exact .discard nofun nofun nofun

/-- The answers to a message, from a node that has become `s'`. -/
inductive Replies (s s' : Node) : Envelope → Envelope → Prop where
  | voteReq {src dst ep req} : s' = (s.handleRequestVote req).1 →
    Replies s s' ⟨src, dst, ep, .voteReq req⟩
      ⟨dst, src, ep, .voteResp req (s.handleRequestVote req).2⟩
  | appendReq {src dst ep caller req} : s' = (s.handleAppendEntries req).1 →
    Replies s s' ⟨src, dst, ep, .appendReq caller req⟩
      ⟨dst, src, ep, .appendResp caller req (s.handleAppendEntries req).2⟩
  | snapReq {src dst ep req} : s' = (s.handleInstallSnapshot req).1 →
    Replies s s' ⟨src, dst, ep, .snapReq req⟩
      ⟨dst, src, ep, .snapResp req (s.handleInstallSnapshot req).2⟩

theorem Receives.replies {s : Node} (h : s.Receives me env ef) (henv' : env' ∈ ef.msgs) :
    s.Replies ef.node env env' := by
  cases h with
  | voteReq => cases List.mem_singleton.mp henv'; exact .voteReq rfl
  | appendReq => cases List.mem_singleton.mp henv'; exact .appendReq rfl
  | snapReq => cases List.mem_singleton.mp henv'; exact .snapReq rfl
  | _ => cases henv'

/-- What a message does to a node: a request is handled; an answer makes the node follow, or is
noted. -/
inductive Hears (s : Node) (env : Envelope) (s' : Node) : Prop where
  | voteReq : env.body = .voteReq req → s' = (s.handleRequestVote req).1 → Hears s env s'
  | appendReq : env.body = .appendReq caller req → s' = (s.handleAppendEntries req).1 →
    Hears s env s'
  | snapReq : env.body = .snapReq req → s' = (s.handleInstallSnapshot req).1 → Hears s env s'
  | follow : s' = { s.becomeFollower t "" "" with
      election := s'.election
      reads := s'.reads } → Hears s env s'
  | note : s' = { s with
      election := s'.election
      reads := s'.reads
      nextIndex := s'.nextIndex
      matchIndex := s'.matchIndex } → Hears s env s'

theorem Receives.hears {s : Node} (h : s.Receives me env ef) : s.Hears env ef.node := by
  cases h with
  | voteReq => exact .voteReq rfl rfl
  | appendReq => exact .appendReq rfl rfl
  | snapReq => exact .snapReq rfl rfl
  | @voteResp _ _ _ resp =>
    rw [countVote_eq]
    split
    · exact .follow (t := resp.term) rfl
    · split <;> exact .note rfl
  | @replicated _ _ _ resp =>
    rw [replicated_eq]
    split
    · exact .follow (t := resp.term) rfl
    · exact .note rfl
  | @confirmed _ _ _ _ resp =>
    unfold Node.confirmed
    dsimp only
    split
    · exact .follow (t := resp.term) rfl
    · exact .note rfl
  | @snapResp _ _ _ resp =>
    rw [snapshotInstalled_eq]
    split
    · exact .follow (t := resp.term) rfl
    · exact .note rfl
  | discard => exact .note rfl

end Node

/-- The steps of a cluster. -/
inductive Cluster.Steps (cfg : Config) (c : Cluster) : Action → Cluster → List Event → Prop where
  | act : n ∈ cfg.ids → (c.node n).Acts (cfg.member n) a ef →
    Steps cfg c (.act n a) (c.after n ef c.network) ef.events
  | deliver : c.network[k]? = some env →
    (c.node env.dst).receive (cfg.member env.dst) env = ef →
    (c.node env.dst).Receives (cfg.member env.dst) env ef →
    Steps cfg c (.deliver k) (c.after env.dst ef (c.network.eraseIdx k)) ef.events
  | drop : Steps cfg c (.drop k) { c with network := c.network.eraseIdx k } []

theorem Cluster.step_inv {cfg : Config} {c : Cluster} (h : c.step cfg a = some (c', evs)) :
    c.Steps cfg a c' evs := by
  cases a with
  | act n a =>
    obtain ⟨hn, h⟩ := Option.ite_none_right_eq_some.mp h
    split at h
    · next ef hef => cases h; exact .act hn (Node.act_inv hef)
    · cases h
  | deliver k =>
    simp only [step] at h
    split at h
    · next env henv => cases h; exact .deliver henv rfl (Node.receive_inv ..)
    · cases h
  | drop k => cases h; exact .drop

@[simp] theorem Cluster.after_node_self {c : Cluster} : (c.after n ef rest).node n = ef.node :=
  if_pos rfl

/-- What a step does to one node. -/
inductive Cluster.Changes (cfg : Config) (c : Cluster) (a : Action) (n : NodeID) (s : Node) :
    Prop where
  | same : s = c.node n → Changes cfg c a n s
  | act : a = .act n b → n ∈ cfg.ids → (c.node n).Acts (cfg.member n) b ef → s = ef.node →
    Changes cfg c a n s
  | receive : a = .deliver k → c.network[k]? = some env → env.dst = n →
    (c.node n).Receives (cfg.member n) env ef → s = ef.node → Changes cfg c a n s

theorem Cluster.step_changes {cfg : Config} {c : Cluster} (h : c.step cfg a = some (c', evs))
    (n : NodeID) : c.Changes cfg a n (c'.node n) := by
  cases Cluster.step_inv h with
  | @act m b ef hm ha =>
    simp only [Cluster.after]
    split
    · next heq => subst heq; exact .act rfl hm ha rfl
    · exact .same rfl
  | @deliver k env ef henv _ hrec =>
    simp only [Cluster.after]
    split
    · next heq => subst heq; exact .receive rfl henv rfl hrec rfl
    · exact .same rfl
  | drop => exact .same rfl

/-- Where a message in flight after a step comes from. -/
inductive Cluster.Posts (cfg : Config) (c : Cluster) (env : Envelope) : Prop where
  | old : env ∈ c.network → Posts cfg c env
  | act : n ∈ cfg.ids → (c.node n).Acts (cfg.member n) a ef → env ∈ ef.msgs → Posts cfg c env
  | reply : env₀ ∈ c.network → (c.node env₀.dst).Receives (cfg.member env₀.dst) env₀ ef →
    env ∈ ef.msgs → Posts cfg c env

theorem Cluster.step_network {cfg : Config} {c : Cluster} (h : c.step cfg a = some (c', evs))
    (henv : env ∈ c'.network) : c.Posts cfg env := by
  cases Cluster.step_inv h with
  | act hn ha =>
    rcases List.mem_append.mp henv with henv | henv
    · exact .old henv
    · exact .act hn ha henv
  | deliver henv₀ _ hrec =>
    rcases List.mem_append.mp henv with henv | henv
    · exact .old (List.mem_of_mem_eraseIdx henv)
    · exact .reply (List.mem_of_getElem? henv₀) hrec henv
  | drop => exact .old (List.mem_of_mem_eraseIdx henv)

/-- Events come from activities. -/
theorem Cluster.step_causes {cfg : Config} {c : Cluster} (h : c.step cfg a = some (c', evs))
    (hev : ev ∈ evs) : ∃ n b, a = .act n b ∧ n ∈ cfg.ids ∧
      (c.node n).Causes (cfg.member n) b (c'.node n) ev := by
  cases Cluster.step_inv h with
  | @act n b ef hn ha =>
    refine ⟨n, b, rfl, hn, ?_⟩
    rw [Cluster.after_node_self]
    exact ha.causes hev
  | deliver _ _ hrec => rw [hrec.events] at hev; cases hev
  | drop => cases hev

/-! ## Conditions on steps -/

/-- The message an action delivers. -/
def Cluster.delivered (c : Cluster) : Action → Option Envelope
  | .deliver k => c.network[k]?
  | _ => none

def Envelope.append? : Envelope → Option (NodeID × AppendEntriesRequest)
  | ⟨_, dst, _, .appendReq _ req⟩ => some (dst, req)
  | _ => none

def Envelope.snap? : Envelope → Option (NodeID × InstallSnapshotRequest)
  | ⟨_, dst, _, .snapReq req⟩ => some (dst, req)
  | _ => none

/-- `P` holds of the receiver when an `AppendEntries` request is delivered. -/
def OnAppend (P : Node → AppendEntriesRequest → Prop) (c : Cluster) (a : Action) : Prop :=
  ∀ x ∈ (c.delivered a).bind Envelope.append?, P (c.node x.1) x.2

/-- `P` holds of the receiver when an `InstallSnapshot` request is delivered. -/
def OnSnapshot (P : Node → InstallSnapshotRequest → Prop) (c : Cluster) (a : Action) : Prop :=
  ∀ x ∈ (c.delivered a).bind Envelope.snap?, P (c.node x.1) x.2

instance [∀ s req, Decidable (P s req)] : Decidable (OnAppend P c a) :=
  inferInstanceAs (Decidable (∀ x ∈ (c.delivered a).bind Envelope.append?, P (c.node x.1) x.2))

instance [∀ s req, Decidable (P s req)] : Decidable (OnSnapshot P c a) :=
  inferInstanceAs (Decidable (∀ x ∈ (c.delivered a).bind Envelope.snap?, P (c.node x.1) x.2))

theorem OnAppend.act : OnAppend P c (.act n a) := fun _ hx => by cases hx

theorem OnSnapshot.act : OnSnapshot P c (.act n a) := fun _ hx => by cases hx

theorem OnAppend.of_deliver (h : OnAppend P c (.deliver k)) (henv : c.network[k]? = some env)
    (hb : env.body = .appendReq caller req) : P (c.node env.dst) req := by
  obtain ⟨src, dst, ep, body⟩ := env
  cases hb
  exact h (dst, req) (by simp [Cluster.delivered, henv, Envelope.append?])

theorem OnSnapshot.of_deliver (h : OnSnapshot P c (.deliver k)) (henv : c.network[k]? = some env)
    (hb : env.body = .snapReq req) : P (c.node env.dst) req := by
  obtain ⟨src, dst, ep, body⟩ := env
  cases hb
  exact h (dst, req) (by simp [Cluster.delivered, henv, Envelope.snap?])

/-! ## Executions -/

theorem Run.continues (h : Run cfg ok tr c) (hc : Continues cfg ok tr c tr' c') :
    Run cfg ok tr' c' := by
  induction hc with
  | refl => exact h
  | step _ hok hs ih => exact .step ih hok hs

section
variable (cfg : Config) (ok : Cluster → Action → Prop) [∀ c a, Decidable (ok c a)]

theorem Continues.of_exec {c₀ c c' : Cluster} (h : Continues cfg ok tr₀ c₀ tr c)
    (hx : c.exec cfg ok tr as = some (c', tr')) : Continues cfg ok tr₀ c₀ tr' c' := by
  induction as generalizing c tr with
  | nil => cases hx; exact h
  | cons a as ih =>
    simp only [Cluster.exec] at hx
    split at hx
    · next hok =>
      split at hx
      · next hs => exact ih (.step h hok hs) hx
      · cases hx
    · cases hx

/-- The actions can be executed from `c`, and lead to where `p` holds. -/
def Cluster.Reaches (c : Cluster) (tr : List Event) (as : List Action)
    (p : Cluster → List Event → Prop) : Prop :=
  match c.exec cfg ok tr as with
  | some (c', tr') => p c' tr'
  | none => False

instance [∀ c tr, Decidable (p c tr)] : Decidable (Cluster.Reaches cfg ok c tr as p) :=
  match h : c.exec cfg ok tr as with
  | some (c', tr') => decidable_of_iff (p c' tr') (by simp [Cluster.Reaches, h])
  | none => isFalse (by simp [Cluster.Reaches, h])

variable {cfg ok}

theorem Cluster.Reaches.continues {c : Cluster} (h : c.Reaches cfg ok tr as p) :
    ∃ c' tr', Continues cfg ok tr c tr' c' ∧ p c' tr' := by
  unfold Reaches at h
  split at h
  · next c' tr' hx => exact ⟨c', tr', .of_exec cfg ok .refl hx, h⟩
  · exact h.elim

theorem Cluster.Reaches.run (h : Cluster.init.Reaches cfg ok [] as p) :
    ∃ c tr, Run cfg ok tr c ∧ p c tr :=
  let ⟨c, tr, hc, hp⟩ := h.continues
  ⟨c, tr, Run.init.continues hc, hp⟩

end

/-- Every step is allowed. -/
abbrev unrestricted : Cluster → Action → Prop := fun _ _ => True

/-- A cluster of three that takes a snapshot at each multiple of `threshold`. -/
def trio (threshold : ℕ) : Config :=
  .uniform ["n1", "n2", "n3"] ⟨threshold, 0⟩ (by decide) (by decide)

/-- A cluster of five. -/
def quintet (threshold : ℕ) : Config :=
  .uniform ["n1", "n2", "n3", "n4", "n5"] ⟨threshold, 0⟩ (by decide) (by decide)

/-- `n` is elected by the first peer it asks, whose request is the `k`th message in flight. -/
def electBy (n : NodeID) (k : ℕ) : List Action :=
  [.act n .startElection, .act n .requestVotes, .deliver k, .deliver (k + 1),
    .act n .concludeElection]

namespace Node

/-! ### Outcomes of messages -/

/-- The log is as it was, in term `t` if that is higher; only roles and calls may differ. -/
structure Retreats (s s' : Node) (t : ℕ) : Prop extends SameIndices s s' where
  log : s'.log = if s.log.currentTerm < t then (s.log.setTermAndVote true t "").1 else s.log
  role : s'.role = .follower ∨ s'.role = s.role ∧ ¬s.log.currentTerm < t

theorem Retreats.refl (s : Node) : Retreats s s 0 :=
  ⟨⟨rfl, rfl, rfl, rfl⟩, rfl, .inr ⟨rfl, Nat.not_lt_zero _⟩⟩

theorem Meets.retreats (h : Meets s s₁ t) : Retreats s s₁ t := by
  refine ⟨⟨?_, ?_, ?_, ?_⟩, h.log, h.role'⟩ <;> rw [h.eq]

theorem becomeFollower_retreats (s : Node) (t : ℕ) (l a : String) :
    Retreats s (s.becomeFollower t l a) t := by
  rw [becomeFollower_eq]
  exact ⟨⟨rfl, rfl, rfl, rfl⟩, rfl, .inl rfl⟩

/-- What a message can do to logs: nothing, but for a vote that is granted, entries that are
appended and a snapshot that is installed. -/
inductive Outcome (s : Node) : Envelope → Effect → Prop where
  | quiet {src dst ep body s' msgs} :
    s.receiveOps s' ⟨src, dst, ep, body⟩ = [.observe dst s'.log.currentTerm] →
    (∃ t, Retreats s s' t) → Outcome s ⟨src, dst, ep, body⟩ { node := s', msgs }
  | vote {src dst ep req s₁ msgs} : s.log.currentTerm ≤ req.term → Meets s s₁ req.term →
    s₁.log.votedFor = "" ∨ s₁.log.votedFor = req.candidateID →
    s₁.candidateLogUpToDateLocked req.lastLogIndex req.lastLogTerm = true →
    s.receiveOps (s₁.setTermAndVote req.term req.candidateID) ⟨src, dst, ep, .voteReq req⟩ =
      [.observe dst req.term, .vote dst req.term req.candidateID] →
    Outcome s ⟨src, dst, ep, .voteReq req⟩ {
      node := s₁.setTermAndVote req.term req.candidateID, msgs }
  | append {src dst ep caller req s₁ s' msgs} : s.log.currentTerm ≤ req.term →
    Meets s s₁ req.term → s₁.role ≠ .candidate → refusal s.log req = none →
    s' = { s₁ with log := (s₁.log.appendEntries true req.entries).1 }.followCommit
      req.leaderCommit →
    s.receiveOps s' ⟨src, dst, ep, .appendReq caller req⟩ =
      .observe dst req.term :: adoptOps dst req →
    Outcome s ⟨src, dst, ep, .appendReq caller req⟩ { node := s', msgs }
  | install {src dst ep req s₁ s' snap msgs} : s.log.currentTerm ≤ req.term →
    Meets s s₁ req.term → s₁.role = .follower → s.installs req = true →
    s' = { s₁ with
      snapStore := some (snap, ⟨req.lastIncludedIndex, req.lastIncludedTerm⟩)
      orphanMeta := none
      sm := snap.pairs
      log := (s₁.log.restoreSnapshotBoundary true
        req.lastIncludedIndex req.lastIncludedTerm).1
      lastApplied := req.lastIncludedIndex
      commitIndex := req.lastIncludedIndex } →
    s.receiveOps s' ⟨src, dst, ep, .snapReq req⟩ =
      [.observe dst req.term, .adopt dst req.term req.lastIncludedIndex] →
    Outcome s ⟨src, dst, ep, .snapReq req⟩ { node := s', msgs }

theorem Receives.outcome {s : Node} (h : s.Receives me env ef) : s.Outcome env ef := by
  cases h with
  | @voteReq src dst ep req =>
    by_cases hst : req.term < s.log.currentTerm
    · rw [handleRequestVote_stale hst]
      exact .quiet (by simp [receiveOps, handleRequestVote_stale hst]) ⟨0, .refl s⟩
    · obtain ⟨s₁, hm, -, hs | ⟨hv, hup, hs⟩⟩ := handleRequestVote_spec (not_lt.mp hst)
      · rw [hs]
        exact .quiet (by simp [receiveOps, hs]) ⟨_, hm.retreats⟩
      · rw [hs]
        refine .vote (not_lt.mp hst) hm hv hup ?_
        simp [receiveOps, hs, setTermAndVote, PersistentLog.setTermAndVote]
  | @appendReq src dst ep caller req =>
    by_cases hst : req.term < s.log.currentTerm
    · rw [handleAppendEntries_stale hst]
      exact .quiet (by simp [receiveOps, handleAppendEntries_stale hst]) ⟨0, .refl s⟩
    · obtain ⟨s₁, hm, hc, -, ⟨resp, -, hfail, hs⟩ | ⟨href, hs⟩⟩ :=
        handleAppendEntries_spec (not_lt.mp hst)
      · rw [hs]
        exact .quiet (by simp [receiveOps, hs, hfail]) ⟨_, hm.retreats⟩
      · rw [hs]
        refine .append (not_lt.mp hst) hm hc href rfl ?_
        have hsame := PersistentLog.SameBallot.appendEntries true s₁.log req.entries
        have hterm : ({ s₁ with log := (s₁.log.appendEntries true req.entries).1 }.followCommit
            req.leaderCommit).log.currentTerm = req.term := by
          rw [followCommit_eq]
          exact hsame.currentTerm.trans (hm.currentTerm (not_lt.mp hst))
        simp [receiveOps, hs, hterm]
  | @snapReq src dst ep req =>
    by_cases hst : req.term < s.log.currentTerm
    · rw [handleInstallSnapshot_stale hst]
      exact .quiet (by simp [receiveOps, installs, hst]) ⟨0, .refl s⟩
    · obtain ⟨s₁, hm, hr, -, ⟨hno, hs⟩ | ⟨snap, hyes, -, hs⟩⟩ :=
        handleInstallSnapshot_spec (not_lt.mp hst)
      · rw [hs]
        exact .quiet (by simp [receiveOps, hno]) ⟨_, hm.retreats⟩
      · rw [hs]
        refine .install (not_lt.mp hst) hm hr hyes rfl ?_
        have hterm := hm.currentTerm (not_lt.mp hst)
        simp [receiveOps, hyes, PersistentLog.restoreSnapshotBoundary, hterm]
  | voteResp =>
    refine .quiet rfl ?_
    rw [countVote_eq]
    split
    · rw [becomeFollower_eq]; exact ⟨_, ⟨rfl, rfl, rfl, rfl⟩, rfl, .inl rfl⟩
    · split <;> exact ⟨0, ⟨rfl, rfl, rfl, rfl⟩, rfl, .inr ⟨rfl, Nat.not_lt_zero _⟩⟩
  | replicated =>
    refine .quiet rfl ?_
    rw [replicated_eq]
    split
    · exact ⟨_, becomeFollower_retreats ..⟩
    · exact ⟨0, ⟨rfl, rfl, rfl, rfl⟩, rfl, .inr ⟨rfl, Nat.not_lt_zero _⟩⟩
  | confirmed =>
    refine .quiet rfl ?_
    unfold Node.confirmed
    dsimp only
    split
    · rw [becomeFollower_eq]; exact ⟨_, ⟨rfl, rfl, rfl, rfl⟩, rfl, .inl rfl⟩
    · exact ⟨0, ⟨rfl, rfl, rfl, rfl⟩, rfl, .inr ⟨rfl, Nat.not_lt_zero _⟩⟩
  | snapResp =>
    refine .quiet rfl ?_
    rw [snapshotInstalled_eq]
    split
    · exact ⟨_, becomeFollower_retreats ..⟩
    · exact ⟨0, ⟨rfl, rfl, rfl, rfl⟩, rfl, .inr ⟨rfl, Nat.not_lt_zero _⟩⟩
  | @discard src dst ep body hv ha hs =>
    refine .quiet ?_ ⟨0, .refl s⟩
    cases body with
    | voteReq req => exact (hv req rfl).elim
    | appendReq caller req => exact (ha caller req rfl).elim
    | snapReq req => exact (hs req rfl).elim
    | _ => rfl

theorem electOps_by : ∀ op ∈ electOps n s s', op.By n := by
  intro op hop
  simp only [electOps] at hop
  split at hop <;> simp at hop
  rcases hop with rfl | rfl | rfl <;> rfl

theorem actOps_by {m : Member} : ∀ op ∈ actOps m s a, op.By m.id := by
  intro op hop
  cases a with
  | startElection => simp [actOps] at hop; rcases hop with rfl | rfl <;> rfl
  | requestVotes | concludeElection =>
    simp only [actOps] at hop
    split at hop
    · exact electOps_by op hop
    · simp at hop
  | propose => simp [actOps] at hop; rcases hop with rfl | rfl <;> rfl
  | tryAdvanceCommitIndex =>
    simp only [actOps] at hop
    split at hop <;> simp at hop
    subst hop; trivial
  | _ => simp [actOps] at hop

theorem adoptOps_onLogs : ∀ op ∈ adoptOps n req, op.OnLogs := by
  intro op hop
  simp only [adoptOps] at hop
  split at hop <;> simp at hop
  rcases hop with rfl | rfl <;> trivial

theorem receiveOps_by : ∀ op ∈ receiveOps s s' env, op.By env.dst := by
  intro op hop
  simp only [receiveOps, List.mem_cons] at hop
  rcases hop with rfl | hop
  · rfl
  · split at hop
    · split at hop <;> simp at hop
      subst hop; rfl
    · split at hop
      · simp only [adoptOps] at hop
        split at hop <;> simp at hop
        rcases hop with rfl | rfl <;> rfl
      · simp at hop
    · split at hop <;> simp at hop
      subst hop; rfl
    · simp at hop

theorem receive_frame (r : Abs) (s s' : Node) (env : Envelope) :
    Theory.Frame env.dst r (r.applyAll (s.receiveOps s' env)) := .applyAll receiveOps_by

end Node

theorem Cluster.act_frame (c : Cluster) (cfg : Config) (r : Abs) (n : NodeID) (a : Activity) :
    Theory.Frame n r (r.applyAll ((c.node n).actOps (cfg.member n) a)) := by
  have F := Theory.Frame.applyAll (r := r) (Node.actOps_by (s := c.node n) (a := a)
    (m := cfg.member n))
  rwa [cfg.member_id] at F

/-- What a step does on the abstract machine. -/
def Cluster.ops (cfg : Config) (c : Cluster) : Action → List (Op NodeID Entry)
  | .act n a => (c.node n).actOps (cfg.member n) a
  | .deliver k =>
    match c.network[k]? with
    | some env =>
      let s := c.node env.dst
      s.receiveOps (s.receive (cfg.member env.dst) env).node env
    | none => []
  | .drop _ => []

/-- The operations of a step are all by one node. -/
theorem Cluster.ops_frame (cfg : Config) (c : Cluster) (a : Action) (r : Abs) :
    ∃ n, Theory.Frame n r (r.applyAll (c.ops cfg a)) := by
  cases a with
  | act n a => exact ⟨n, c.act_frame cfg r n a⟩
  | deliver k =>
    simp only [ops]
    split
    · next env _ => exact ⟨env.dst, Node.receive_frame ..⟩
    · exact ⟨"", .refl ..⟩
  | drop => exact ⟨"", .refl ..⟩

/-- A run and the state of the abstract machine that shadows it. -/
inductive Shadow (cfg : Config) (ok : Cluster → Action → Prop) :
    List Event → Cluster → Abs → Prop where
  | init : Shadow cfg ok [] Cluster.init Theory.State.init
  | step : Shadow cfg ok tr c r → ok c a → c.step cfg a = some (c', evs) →
    Shadow cfg ok (tr ++ evs) c' (r.applyAll (c.ops cfg a))

theorem Run.shadow (h : Run cfg ok tr c) : ∃ r, Shadow cfg ok tr c r := by
  induction h with
  | init => exact ⟨_, .init⟩
  | step _ hok hs ih =>
    obtain ⟨r, h⟩ := ih
    exact ⟨_, .step h hok hs⟩

theorem Shadow.run (h : Shadow cfg ok tr c r) : Run cfg ok tr c := by
  induction h with
  | init => exact .init
  | step _ hok hs ih => exact .step ih hok hs

/-! ## Local invariants -/

/-- A property of single nodes and single messages, relative to the abstract state. -/
structure LocalInv where
  node : Abs → NodeID → Node → Prop
  msg : Abs → Envelope → Prop

/-- It holds of all nodes and of all messages in flight. -/
structure LocalInv.Holds (I : LocalInv) (c : Cluster) (r : Abs) : Prop where
  node : ∀ n, I.node r n (c.node n)
  msg : ∀ env ∈ c.network, I.msg r env

/-- The step rule: the node that moved and the messages it sent are looked at; all others only
see the abstract state change. -/
theorem LocalInv.Holds.after {I : LocalInv} (h : I.Holds c r) (hrest : rest ⊆ c.network)
    (hnode : I.node r' n ef.node) (hnew : ∀ env ∈ ef.msgs, I.msg r' env)
    (hother : ∀ m, m ≠ n → I.node r m (c.node m) → I.node r' m (c.node m))
    (hold : ∀ env ∈ c.network, I.msg r env → I.msg r' env) : I.Holds (c.after n ef rest) r' where
  node m := by
    simp only [Cluster.after]
    split
    · next hm => exact hm ▸ hnode
    · next hm => exact hother m hm (h.node m)
  msg env henv := by
    rcases List.mem_append.mp henv with henv | henv
    · exact hold env (hrest henv) (h.msg env (hrest henv))
    · exact hnew env henv

theorem LocalInv.Holds.drop {I : LocalInv} (h : I.Holds c r) (k : ℕ) :
    I.Holds { c with network := c.network.eraseIdx k } r :=
  ⟨h.node, fun env henv => h.msg env (List.mem_of_mem_eraseIdx henv)⟩

end DistributedKV.Raft
