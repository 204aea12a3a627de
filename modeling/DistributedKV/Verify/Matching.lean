import DistributedKV.Verify.Leaders
import DistributedKV.Verify.Log

/-!
# Log matching

Each node's log stands for the log of the abstract machine, a leader's for the log of its term,
and a request in flight carries a segment of that (`Logged`). Steps are then admissible in the
sense of `Theory.Replicates`, and logs match.

The consistency check of `HandleAppendEntries` is skipped for a request with `PrevLogIndex` zero,
also by a node whose log starts at a snapshot. What is proved here is about the runs in which such
a request agrees with the snapshot boundary (`ChecksBoundary`).
-/

namespace DistributedKV.Raft

open Theory (Ballot BallotInv Replicates LogInv Admits)

/-! ## The missing check -/

/-- A request without a previous entry that a node with a snapshot accepts has an entry at the
snapshot's index, of the snapshot's term. -/
def Node.ChecksBoundary (s : Node) (req : AppendEntriesRequest) : Prop :=
  s.log.currentTerm ≤ req.term → req.prevLogIndex = 0 → req.entries ≠ [] →
    0 < s.log.lastIncludedIndex →
    ∃ e ∈ req.entries, e.index = s.log.lastIncludedIndex ∧ e.term = s.log.lastIncludedTerm

instance : Decidable (Node.ChecksBoundary s req) :=
  inferInstanceAs (Decidable (_ → _ → _ → _ → _))

/-! ## The invariant -/

/-- The request carries a segment of the log `l`. -/
structure Vouched (l : List Entry) (req : AppendEntriesRequest) : Prop where
  entries : req.entries <+: l.drop req.prevLogIndex
  prev : ∀ {i}, req.prevLogIndex = i + 1 → ∃ e, l[i]? = some e ∧ e.term = req.prevLogTerm

structure Logged (r : Abs) (n : NodeID) (s : Node) : Prop where
  rep : Rep s.log (r.log n)
  leader : s.role = .leader → r.log n = r.llog s.log.currentTerm
  /-- The boundary of the log is that of the stored snapshot. -/
  store : s.snapStore = none ∧ s.log.lastIncludedIndex = 0 ∨ 0 < s.log.lastIncludedIndex ∧
    ∃ snap, s.snapStore = some (snap, ⟨s.log.lastIncludedIndex, s.log.lastIncludedTerm⟩)

def LoggedMsg (r : Abs) (env : Envelope) : Prop :=
  match env.body with
  | .appendReq caller req => caller = .replicate → Vouched (r.llog req.term) req
  | .snapReq req => ∃ i e, req.lastIncludedIndex = i + 1 ∧
      (r.llog req.term)[i]? = some e ∧ e.term = req.lastIncludedTerm
  | _ => True

def logged : LocalInv := ⟨Logged, LoggedMsg⟩

theorem getElem?_of_isPrefix {l l' : List Entry} {i : ℕ} (hp : l <+: l') (he : l[i]? = some e) :
    l'[i]? = some e := by
  obtain ⟨s, rfl⟩ := hp
  rw [List.getElem?_append_left (List.getElem?_eq_some_iff.mp he).1, he]

theorem Vouched.mono (h : Vouched l req) (hp : l <+: l') : Vouched l' req where
  entries := h.entries.trans (hp.drop _)
  prev hi := let ⟨e, he, ht⟩ := h.prev hi; ⟨e, getElem?_of_isPrefix hp he, ht⟩

theorem Vouched.getElem? (h : Vouched l req) {k : ℕ} (hk : req.entries[k]? = some e) :
    l[req.prevLogIndex + k]? = some e := by
  rw [← List.getElem?_drop]
  exact getElem?_of_isPrefix h.entries hk

theorem Vouched.le_length (h : Vouched l req) (hne : req.entries ≠ []) :
    req.prevLogIndex + req.entries.length ≤ l.length := by
  have hlen := h.entries.length_le
  have hpos := List.length_pos_iff.mpr hne
  rw [List.length_drop] at hlen
  omega

theorem Vouched.consecutive (h : Vouched l req) (hl : Consecutive 1 l) :
    Consecutive (req.prevLogIndex + 1) req.entries := by
  rw [Nat.add_comm]
  exact hl.drop.of_isPrefix h.entries

theorem LoggedMsg.mono (h : LoggedMsg r env) (hp : ∀ t, r.llog t <+: r'.llog t) :
    LoggedMsg r' env := by
  unfold LoggedMsg at h ⊢
  split at h
  · exact fun hc => (h hc).mono (hp _)
  · obtain ⟨i, e, hi, he, ht⟩ := h
    exact ⟨i, e, hi, getElem?_of_isPrefix (hp _) he, ht⟩
  · trivial

/-- Entries stand at their indices in the logs of leaders. -/
def Indexed (r : Abs) : Prop := ∀ t, Consecutive 1 (r.llog t)

/-! ## Activities -/

namespace Logged

variable {cfg : Config} {r r' : Abs} {n m : NodeID} {s s' : Node}

theorem same (h : Logged r n s) (hlog : s'.log = s.log)
    (hrole : s'.role = s.role ∨ s'.role = .follower) (hsnap : s'.snapStore = s.snapStore) :
    Logged r n s' := by
  refine ⟨hlog ▸ h.rep, fun hr => ?_, by rw [hsnap, hlog]; exact h.store⟩
  rcases hrole with hrole | hrole
  · rw [hlog]; exact h.leader (hrole ▸ hr)
  · rw [hrole] at hr; cases hr

theorem abs (h : Logged r n s) (hlog : r'.log n = r.log n) (hllog : r'.llog = r.llog) :
    Logged r' n s :=
  ⟨hlog ▸ h.rep, fun hr => by rw [hlog, hllog]; exact h.leader hr, h.store⟩

theorem frame (F : Theory.Frame m r r') (G : Theory.Grows m r r') (hne : n ≠ m)
    (V : Voting cfg r n s) (h : Logged r n s) : Logged r' n s := by
  refine ⟨F.log hne ▸ h.rep, fun hr => ?_, h.store⟩
  rw [F.log hne, G.leader hne (V.leader hr)]
  exact h.leader hr

theorem boundary_appendEntries (commit : Bool) (pl : PersistentLog) (es : List Entry) :
    (pl.appendEntries commit es).1.lastIncludedIndex = pl.lastIncludedIndex ∧
      (pl.appendEntries commit es).1.lastIncludedTerm = pl.lastIncludedTerm := by
  unfold PersistentLog.appendEntries
  split
  · exact ⟨rfl, rfl⟩
  · cases commit <;> exact ⟨rfl, rfl⟩

/-- A leader appends to its log and, with it, to the log of its term. -/
theorem append (h : Logged r n s) (hidx : Indexed r) (he : e.index = s.log.lastIndex + 1)
    (hlog : s'.log = (s.log.appendEntries true [e]).1) (hsnap : s'.snapStore = s.snapStore)
    (hr : r'.log n = r.log n ++ [e])
    (hl : r'.llog = Function.update r.llog s.log.currentTerm (r.log n ++ [e])) :
    Logged r' n s' ∧ Indexed r' := by
  have hrep := h.rep.snoc he
  have hcur := (PersistentLog.SameBallot.appendEntries true s.log [e]).currentTerm
  obtain ⟨h₁, h₂⟩ := boundary_appendEntries true s.log [e]
  refine ⟨⟨hlog ▸ hr ▸ hrep, fun _ => ?_, ?_⟩, fun t => ?_⟩
  · rw [hlog, hcur, hr, hl, Function.update_self]
  · rw [hlog, h₁, h₂, hsnap]; exact h.store
  · rw [hl, Function.update_apply]
    split
    · exact hrep.index
    · exact hidx t

/-- Becoming leader. -/
theorem lead (B : BallotInv cfg.quorums r) (V : Voting cfg r n s) (h : Logged r n s)
    (hidx : Indexed r) (hn : n ∈ cfg.ids) (hr : s.role = .candidate) (hel : s.election = some el)
    (hv : (cfg.member n).needed ≤ el.votes) (he : e.index = s.log.lastIndex + 1)
    (ht : e.term = s.log.currentTerm) (hlog : s'.log = (s.log.appendEntries true [e]).1)
    (hsnap : s'.snapStore = s.snapStore) (i : ℕ) :
    Admits (Replicates Entry.term) r [.elect n s.log.currentTerm, .append n s.log.currentTerm e,
        .ack n s.log.currentTerm i] ∧
      Logged (r.applyAll [.elect n s.log.currentTerm, .append n s.log.currentTerm e,
        .ack n s.log.currentTerm i]) n s' ∧
      Indexed (r.applyAll [.elect n s.log.currentTerm, .append n s.log.currentTerm e,
        .ack n s.log.currentTerm i]) := by
  obtain ⟨-, hno⟩ := V.elected B hn hr hel hv
  refine ⟨⟨⟨V.term, V.pos (by simp [hr]), hno⟩, ⟨.inr ⟨rfl, rfl⟩, V.term, ?_, ht⟩, trivial,
    trivial⟩, ?_⟩
  · simp [Theory.State.apply]
  · refine h.append hidx he hlog hsnap (Function.update_self ..) ?_
    exact Function.update_idem ..

/-- The snapshot a node takes at an index it has applied. -/
theorem maybeSnapshot (h : Logged r n s) : Logged r n (s.maybeSnapshot (i + 1)) := by
  unfold Node.maybeSnapshot
  split
  · exact h
  next hold =>
  split
  · exact h
  next t ht =>
  have hlt : s.log.lastIncludedIndex ≤ i := by
    rcases h.store with ⟨-, h0⟩ | ⟨-, snap, hsnap⟩
    · omega
    · rw [hsnap] at hold
      simp at hold; omega
  have hli : (s.log.compactPrefix true (i + 1) t).1.lastIncludedIndex = i + 1 ∧
      (s.log.compactPrefix true (i + 1) t).1.lastIncludedTerm = t := by
    unfold PersistentLog.compactPrefix
    rw [if_neg (by omega)]
    exact ⟨rfl, rfl⟩
  have hcur := (PersistentLog.SameBallot.compactPrefix true s.log (i + 1) t).currentTerm
  refine ⟨h.rep.compactPrefix hlt ht, fun hr => ?_, .inr ⟨?_, ⟨s.sm⟩, ?_⟩⟩
  · show r.log n = r.llog (s.log.compactPrefix true (i + 1) t).1.currentTerm
    rw [hcur]; exact h.leader hr
  · show 0 < (s.log.compactPrefix true (i + 1) t).1.lastIncludedIndex
    omega
  · simp only [hli]

theorem applyNext (h : Logged r n s) (me : Member) (i commit : ℕ) :
    Logged r n (s.applyNext me i commit).node := by
  unfold Node.applyNext
  split
  · exact h.same rfl (.inl rfl) rfl
  · split
    · exact h.same rfl (.inl rfl) rfl
    · next e _ =>
      have hap : Logged r n (s.afterApply (i + 1) commit e) := by
        rw [Node.afterApply_eq]; exact h.same rfl (.inl rfl) rfl
      rcases Node.applyOne_cases me s (i + 1) commit e with heq | heq <;> rw [heq]
      · exact hap
      · exact hap.maybeSnapshot

theorem act (B : BallotInv cfg.quorums r) (V : Voting cfg r n s) (h : Logged r n s)
    (hidx : Indexed r) (hn : n ∈ cfg.ids) (ha : s.Acts (cfg.member n) a ef) :
    Admits (Replicates Entry.term) r (s.actOps (cfg.member n) a) ∧
      Logged (r.applyAll (s.actOps (cfg.member n) a)) n ef.node ∧
      Indexed (r.applyAll (s.actOps (cfg.member n) a)) := by
  have hid := cfg.member_id n
  cases ha with
  | startElection hrole hel =>
    simp only [Node.actOps, hid]
    refine ⟨⟨V.term ▸ Nat.le_succ _, trivial, trivial⟩, .abs (r := r) ?_ rfl rfl, hidx⟩
    exact ⟨h.rep.setTermAndVote, by rintro ⟨⟩, h.store⟩
  | @lead el s' a hel hw hr hs hops =>
    rw [hops, hid]
    exact h.lead B V hidx hn hr hel ((V.election hel).needed_le hw) rfl rfl (by rw [hs])
      (by rw [hs]) _
  | ask _ _ hops | dissolve _ hops =>
    rw [hops]
    exact ⟨trivial, h.same rfl (.inl rfl) rfl, hidx⟩
  | propose hs =>
    obtain ⟨hrole, rfl⟩ := Node.propose_ok hs
    simp only [Node.actOps, hid]
    refine ⟨⟨⟨V.leader hrole, V.term, h.leader hrole, rfl⟩, trivial, trivial⟩, ?_⟩
    exact h.append hidx rfl rfl rfl (Function.update_self ..) rfl
  | tryAdvanceCommitIndex =>
    have hs : Logged r n (s.advance (cfg.member n)).node := by
      rw [Node.advance, Node.tryAdvanceCommitIndex_eq]; exact h.same rfl (.inl rfl) rfl
    simp only [Node.actOps]
    split
    · exact ⟨⟨trivial, trivial⟩, hs.abs rfl rfl, hidx⟩
    · exact ⟨trivial, hs, hidx⟩
  | linearizableRead hs =>
    obtain ⟨-, rfl⟩ := Node.linearizableRead_ok hs
    exact ⟨trivial, h.same rfl (.inl rfl) rfl, hidx⟩
  | waitForApplied hr =>
    rw [Node.waitForApplied_eq]
    exact ⟨trivial, h.same rfl (.inl rfl) rfl, hidx⟩
  | applyNext hap => exact ⟨trivial, h.applyNext .., hidx⟩
  | restart =>
    refine ⟨trivial, ⟨h.rep.reopen, by rintro ⟨⟩, ?_⟩, hidx⟩
    simp only [newNode, openPersistentLog, h.rep.engine]
    exact h.store
  | proposeReturn | proposeCancel | replicate | sendSnapshot | heartbeat
  | readReturn | readCancel | applyBegin => exact ⟨trivial, h.same rfl (.inl rfl) rfl, hidx⟩

/-- What a leader sends is taken from its log. -/
theorem vouched (h : Logged r n s) (hs : Node.Sends me s peer req) :
    Vouched (r.llog req.term) req := by
  rw [hs.term, ← h.leader hs.role]
  have hnext := hs.next
  rw [h.rep.firstIndex] at hnext
  have hprev := hs.prevLogIndex
  constructor
  · rcases hs.entries with hnil | ⟨-, hr⟩
    · rw [hnil]; exact List.nil_prefix
    · have hlo : s.nextIndex peer = req.prevLogIndex + 1 := by omega
      rw [hlo] at hr
      exact h.rep.range_ok hr
  · intro i hi
    rcases hs.prevLogTerm with h0 | ht
    · omega
    · rw [hi] at ht; exact h.rep.termAt_some ht

theorem msgs (h : Logged r n s) (ha : s.Acts me a ef) :
    ∀ env ∈ ef.msgs, LoggedMsg r env := by
  intro env henv
  cases ha.emits henv with
  | voteReq => trivial
  | appendReq hp hreq => exact fun _ => h.vouched (Node.replicateToPeer_spec hreq)
  | snapReq hp hreq =>
    have hs : Node.SendsSnapshot .. := Node.replicateToPeer_spec hreq
    obtain ⟨snap, hsnap, -⟩ := hs.snap
    rcases h.store with ⟨hnone, -⟩ | ⟨hpos, snap', hsnap'⟩
    · rw [hnone] at hsnap; cases hsnap
    · rw [hsnap] at hsnap'
      simp only [Option.some.injEq, Prod.mk.injEq, SnapshotMeta.mk.injEq] at hsnap'
      obtain ⟨i, hi⟩ := Nat.exists_eq_add_of_lt hpos
      obtain ⟨e, he, ht⟩ := h.rep.term (i := i) (by omega)
      refine ⟨i, e, by omega, ?_, ht.trans hsnap'.2.2.symm⟩
      rw [hs.term, ← h.leader hs.role]
      exact he
  | heartbeat hr hp => intro hc; cases hc

/-! ## Messages -/

/-- A node that only meets a term keeps its log. -/
theorem retreats (h : Logged r n s) (hret : s.Retreats s' t) : Logged r n s' := by
  by_cases ht : s.log.currentTerm < t
  · have hlog := hret.log
    rw [if_pos ht] at hlog
    have hrole : s'.role = .follower := hret.role.resolve_right fun h' => h'.2 ht
    refine ⟨hlog ▸ h.rep.setTermAndVote, fun hr => ?_, ?_⟩
    · rw [hrole] at hr; cases hr
    · rw [hret.snapStore, hlog]; exact h.store
  · have hlog := hret.log
    rw [if_neg ht] at hlog
    exact h.same hlog (hret.role.elim .inr fun h' => .inl h'.1) hret.snapStore

/-- The log of a node that accepts a request matches the leader's up to the previous entry. -/
theorem matched (L : LogInv Entry.term r) (h : Logged r n s)
    (hprev : ∀ {i}, req.prevLogIndex = i + 1 → req.prevLogTerm = 0 ∨
      ∃ e, (r.llog req.term)[i]? = some e ∧ e.term = req.prevLogTerm)
    (href : Node.refusal s.log req = none) :
    (r.log n).take req.prevLogIndex = (r.llog req.term).take req.prevLogIndex ∧
      req.prevLogIndex ≤ s.log.lastIndex ∧
      (0 < req.prevLogIndex → s.log.lastIncludedIndex ≤ req.prevLogIndex) := by
  rcases Node.refusal_none href with h0 | ht
  · simp [h0]
  · obtain ⟨hli, hlast⟩ := h.rep.le_of_termAt ht
    refine ⟨?_, hlast, fun _ => hli⟩
    cases hp : req.prevLogIndex with
    | zero => simp
    | succ i =>
      rw [hp] at ht
      obtain ⟨e, he, hte⟩ := h.rep.termAt_some ht
      rcases hprev hp with h0 | ⟨e', he', hte'⟩
      · -- no entry has term zero
        obtain ⟨m, hm⟩ := L.leads_of_mem (L.log n) (List.mem_of_getElem? he)
        have := L.pos hm
        omega
      exact (L.log n).agree (L.llog req.term) he he' (hte.trans hte'.symm)

/-- The log of a node that has appended the entries of a request is a prefix of the leader's. -/
theorem accept (L : LogInv Entry.term r) (hidx : Indexed r) (h : Logged r n s)
    (hv : Vouched (r.llog req.term) req) (href : Node.refusal s.log req = none)
    (hne : req.entries ≠ [])
    (hb : req.prevLogIndex = 0 → 0 < s.log.lastIncludedIndex → ∃ e ∈ req.entries,
      e.index = s.log.lastIncludedIndex ∧ e.term = s.log.lastIncludedTerm) :
    Rep (s.log.appendEntries true req.entries).1
      ((r.llog req.term).take (req.prevLogIndex + req.entries.length)) := by
  obtain ⟨hmatch, hlast, hli⟩ := h.matched L (fun hi => .inr (hv.prev hi)) href
  have hcons := hv.consecutive (hidx req.term)
  have hlog : (r.llog req.term).take (req.prevLogIndex + req.entries.length) =
      (r.log n).take req.prevLogIndex ++ req.entries := by
    rw [List.take_add, hmatch, ← List.prefix_iff_eq_take.mp hv.entries]
  rw [hlog]
  refine h.rep.appendEntries hne hcons hlast ?_
  rcases Nat.eq_zero_or_pos req.prevLogIndex with h0 | hpos
  · rcases Nat.eq_zero_or_pos s.log.lastIncludedIndex with hl0 | hlpos
    · exact .inl (by omega)
    · -- the boundary is checked against the request itself
      obtain ⟨e, he, hei, het⟩ := hb h0 hlpos
      obtain ⟨i, hi⟩ := List.mem_iff_getElem?.mp he
      have := hcons i e hi
      refine .inr ⟨i, e, by omega, ?_, het⟩
      rw [h0, List.take_zero, List.nil_append]
      exact hi
  · exact .inl (hli hpos)

/-- A snapshot that is installed is newer than the one in the store. -/
theorem lt_of_installs (h : Logged r n s) (hinst : s.installs req = true)
    (hpos : 0 < req.lastIncludedIndex) : s.log.lastIncludedIndex < req.lastIncludedIndex := by
  rcases h.store with ⟨-, h0⟩ | ⟨-, snap, hsnap⟩
  · omega
  · simp [Node.installs, hsnap] at hinst
    exact hinst.1.2

theorem receive (B : BallotInv cfg.quorums r) (L : LogInv Entry.term r) (hidx : Indexed r)
    (V : Voting cfg r env.dst s) (h : Logged r env.dst s) (hled : LedMsg r env)
    (hm : LoggedMsg r env)
    (hb : ∀ {caller req}, env.body = .appendReq caller req → s.ChecksBoundary req)
    (hout : s.Outcome env ef) :
    Admits (Replicates Entry.term) r (s.receiveOps ef.node env) ∧
      Logged (r.applyAll (s.receiveOps ef.node env)) env.dst ef.node ∧
      Indexed (r.applyAll (s.receiveOps ef.node env)) := by
  have observe {t} (ht : s.log.currentTerm ≤ t) : Replicates Entry.term r (.observe env.dst t) :=
    V.term.le.trans ht
  cases hout with
  | quiet hops hret =>
    obtain ⟨t, hret⟩ := hret
    rw [hops]
    refine ⟨⟨observe ?_, trivial⟩, (h.retreats hret).abs rfl rfl, hidx⟩
    rw [hret.log]
    split
    · next ht => exact ht.le
    · exact le_rfl
  | @vote src dst ep req s₁ msgs hle hmeet hv hup hops =>
    have h₁ := h.retreats hmeet.retreats
    rw [hops]
    refine ⟨⟨observe hle, trivial, trivial⟩, .abs (r := r) ?_ rfl rfl, hidx⟩
    refine ⟨h₁.rep.setTermAndVote, fun hr => ?_, h₁.store⟩
    show r.log dst = r.llog req.term
    rw [← hmeet.currentTerm hle]; exact h₁.leader hr
  | @append src dst ep caller req s₁ s' msgs hle hmeet hcand href hs hops =>
    obtain ⟨hne, hlead, hcaller⟩ := hled
    have h₁ := h.retreats hmeet.retreats
    have hterm := hmeet.currentTerm hle
    rw [Node.followCommit_eq] at hs
    have hlog : s'.log = (s₁.log.appendEntries true req.entries).1 := by rw [hs]
    have hrole : s'.role = s₁.role := by rw [hs]
    have hsnap : s'.snapStore = s₁.snapStore := by rw [hs]
    rw [hops, Node.adoptOps]
    split
    · next hnil =>
      refine ⟨⟨observe hle, trivial⟩, .abs (r := r) ?_ rfl rfl, hidx⟩
      refine h₁.same ?_ (.inl hrole) hsnap
      rw [hlog, hnil]; rfl
    · next hnil =>
      have hv : Vouched (r.llog req.term) req := hm (hcaller.resolve_right hnil)
      refine ⟨⟨observe hle, ⟨Function.update_self .., src, hlead⟩, trivial, trivial⟩,
        ⟨?_, fun hr => ?_, ?_⟩, hidx⟩
      · rw [hlog]
        show Rep _ (Function.update r.log dst ((r.llog req.term).take _) dst)
        rw [Function.update_self]
        refine h₁.accept L hidx hv ((hmeet.refusal req).trans href) hnil ?_
        rw [hmeet.boundary.1, hmeet.boundary.2.1]
        exact fun h0 => hb rfl hle h0 hnil
      · exact (V.meets_ne_leader B hlead hne hmeet (hrole ▸ hr)).elim
      · obtain ⟨hb₁, hb₂⟩ := boundary_appendEntries true s₁.log req.entries
        rw [hlog, hb₁, hb₂, hsnap]
        exact h₁.store
  | @install src dst ep req s₁ s' snap msgs hle hmeet hrole hinst hs hops =>
    obtain ⟨-, hlead⟩ := hled
    obtain ⟨i, e, hi, he, ht⟩ := hm
    have h₁ := h.retreats hmeet.retreats
    have hlen : i < (r.llog req.term).length := (List.getElem?_eq_some_iff.mp he).1
    have hlt : s₁.log.lastIncludedIndex ≤ i := by
      have := h.lt_of_installs hinst (by omega)
      rw [hmeet.boundary.1]
      omega
    rw [hops]
    refine ⟨⟨observe hle, ⟨Function.update_self .., src, hlead⟩, trivial⟩,
      ⟨?_, fun hr => ?_, .inr ⟨?_, snap, ?_⟩⟩, hidx⟩
    · show Rep s'.log (Function.update r.log dst ((r.llog req.term).take _) dst)
      rw [Function.update_self, hs, hi, ← ht]
      refine h₁.rep.restoreSnapshotBoundary hlt ?_ ?_ ?_
      · rw [List.length_take]; omega
      · exact (hidx req.term).of_isPrefix (List.take_prefix ..)
      · rw [List.getElem?_take_of_lt (by omega), he]
    · rw [hs] at hr
      exact absurd (hrole.symm.trans hr) (by decide)
    · rw [hs, hi]; exact Nat.succ_pos i
    · rw [hs]; rfl

theorem reply (hrec : s.Receives me env ef) : ∀ env' ∈ ef.msgs, LoggedMsg r' env' := by
  intro env' henv'
  cases hrec.replies henv' with
  | voteReq | appendReq | snapReq => trivial

end Logged

/-! ## Runs -/

/-- What a run keeps up: the abstract machine's invariant, and the nodes' and messages'. -/
def LoggedAll (c : Cluster) (r : Abs) : Prop :=
  LogInv Entry.term r ∧ Indexed r ∧ logged.Holds c r

/-- **Every step is admissible as far as logs go**, if it checks the snapshot boundary. -/
theorem Shadow.logged_step (h : Shadow cfg ok tr c r) (hl : LoggedAll c r)
    (hcheck : OnAppend Node.ChecksBoundary c a) (hs : c.step cfg a = some (c', evs)) :
    Admits (Replicates Entry.term) r (c.ops cfg a) ∧ LoggedAll c' (r.applyAll (c.ops cfg a)) := by
  obtain ⟨L, hidx, H⟩ := hl
  obtain ⟨B, V⟩ := h.voting
  cases Cluster.step_inv hs with
  | @act n a ef hn ha =>
    have F := c.act_frame cfg r n a
    obtain ⟨h₁, h₂, h₃⟩ := Logged.act B (V.node n) (H.node n) hidx hn ha
    obtain ⟨hb, -⟩ := Voting.act B hn (V.node n) ha
    obtain ⟨L', G⟩ := L.applyAll B hb h₁ (cfg.member_id n ▸ Node.actOps_by)
    refine ⟨h₁, L', h₃, H.after (List.Subset.refl _) h₂ (fun env henv => ?_)
      (fun m hm => .frame F G hm (V.node m)) fun _ _ h => h.mono G.llog⟩
    exact ((H.node n).msgs ha env henv).mono G.llog
  | @deliver k env ef henv hef hrec =>
    have hmem := List.mem_of_getElem? henv
    have F := Node.receive_frame r (c.node env.dst) ef.node env
    obtain ⟨h₁, h₂, h₃⟩ := Logged.receive B L hidx (V.node env.dst) (H.node env.dst)
      (h.led.msg env hmem) (H.msg env hmem) (hcheck.of_deliver henv) hrec.outcome
    obtain ⟨hb, -⟩ := Voting.receive B (V.node env.dst) (V.msg env hmem) hrec
    obtain ⟨L', G⟩ := L.applyAll B hb h₁ Node.receiveOps_by
    simp only [Cluster.ops, henv, hef]
    exact ⟨h₁, L', h₃, H.after (List.eraseIdx_subset ..) h₂ (Logged.reply hrec)
      (fun m hm => .frame F G hm (V.node m)) fun _ _ h => h.mono G.llog⟩
  | drop => exact ⟨trivial, L, hidx, H.drop _⟩

theorem Shadow.logged (h : Shadow cfg ok tr c r)
    (hok : ∀ {c a}, ok c a → OnAppend Node.ChecksBoundary c a) : LoggedAll c r := by
  induction h with
  | init =>
    refine ⟨.init, fun t => ?_, fun n => ⟨Rep.init, nofun, .inl ⟨rfl, rfl⟩⟩, ?_⟩
    · intro i e he; simp [Theory.State.init] at he
    · simp [Cluster.init]
  | step hsh hoka hs ih => exact (hsh.logged_step ih (hok hoka) hs).2

section
variable (h : Shadow cfg ok tr c r) (hok : ∀ {c a}, ok c a → OnAppend Node.ChecksBoundary c a)
include h hok

theorem Shadow.replicates (hoka : ok c a) (hs : c.step cfg a = some (c', evs)) :
    Admits (Replicates Entry.term) r (c.ops cfg a) :=
  (h.logged_step (h.logged hok) (hok hoka) hs).1

/-- The logs of leaders only grow, and commits are recorded for good. -/
theorem Shadow.extends (hc : Continues cfg ok tr c tr' c') :
    ∃ r', Shadow cfg ok tr' c' r' ∧ (∀ t, r.llog t <+: r'.llog t) ∧
      ∀ {t i}, r.chosen t i → r'.chosen t i := by
  induction hc with
  | refl => exact ⟨r, h, fun _ => List.prefix_refl _, id⟩
  | @step tr' c' a c'' evs _ hoka hs ih =>
    obtain ⟨r', h', hp, hch⟩ := ih
    have hrep := h'.replicates hok hoka hs
    obtain ⟨n, F⟩ := c'.ops_frame cfg a r'
    exact ⟨_, .step h' hoka hs,
      fun t => (hp t).trans ((h'.logged hok).1.llog_prefix_applyAll hrep t),
      fun hc => F.chosen (hch hc)⟩

end

/-! ## Log matching -/

namespace PersistentLog

/-- Retained entries of equal terms at an index: the logs are equal up to there, as far as both
are retained. -/
def Matches (pl pl' : PersistentLog) : Prop :=
  ∀ i e e', pl.retained i = some e → pl'.retained i = some e' → e.term = e'.term →
    ∀ j ≤ i, ∀ f f', pl.retained j = some f → pl'.retained j = some f' → f = f'

/-- Terms of retained entries do not decrease, and the current term bounds them. -/
def Ordered (pl : PersistentLog) : Prop :=
  (∀ i j e f, i ≤ j → pl.retained i = some e → pl.retained j = some f → e.term ≤ f.term) ∧
    ∀ i e, pl.retained i = some e → e.term ≤ pl.currentTerm

end PersistentLog

theorem Rep.matches {pl pl' : PersistentLog} {b b' : ℕ} {llog : ℕ → List Entry}
    (h : Rep pl l) (h' : Rep pl' l') (hl : Theory.Lawful Entry.term llog b l)
    (hl' : Theory.Lawful Entry.term llog b' l') : pl.Matches pl' := by
  intro i e e' he he' ht j hj f f' hf hf'
  have hlt : j - 1 < i - 1 + 1 := by omega
  have heq : l[j - 1]? = l'[j - 1]? := by
    rw [← List.getElem?_take_of_lt hlt, hl.agree hl' (h.retained he).2 (h'.retained he').2 ht,
      List.getElem?_take_of_lt hlt]
  rw [(h.retained hf).2, (h'.retained hf').2] at heq
  exact Option.some_inj.mp heq

theorem Rep.ordered {pl : PersistentLog} {llog : ℕ → List Entry} (h : Rep pl l)
    (hl : Theory.Lawful Entry.term llog pl.currentTerm l) : pl.Ordered := by
  refine ⟨fun i j e f hij he hf => ?_, fun i e he => ?_⟩
  · exact hl.term_le (Nat.sub_le_sub_right hij 1) (h.retained he).2 (h.retained hf).2
  · exact hl.bound e (List.mem_of_getElem? (h.retained he).2)

/-- **Log matching**, in runs in which no request without a previous entry goes past a snapshot
boundary it does not contain. -/
theorem log_matching (h : Run cfg (OnAppend Node.ChecksBoundary) tr c) :
    (∀ n m, (c.node n).log.Matches (c.node m).log) ∧ ∀ n, (c.node n).log.Ordered := by
  obtain ⟨r, h⟩ := h.shadow
  obtain ⟨L, -, H⟩ := h.logged id
  refine ⟨fun n m => (H.node n).rep.matches (H.node m).rep (L.log n) (L.log m), fun n => ?_⟩
  have hlog := L.log n
  rw [(h.voting.2.node n).term] at hlog
  exact (H.node n).rep.ordered hlog

/-- `n2` has a snapshot of the first entry when it is sent that entry again. -/
theorem log_matching_trio : ∃ tr c, Run (trio 1) (OnAppend Node.ChecksBoundary) tr c ∧
    (c.node "n2").log.lastIncludedIndex = 1 ∧ ((c.node "n1").log.retained 2).isSome ∧
    ((c.node "n2").log.retained 2).isSome ∧ (c.node "n1").log.Matches (c.node "n2").log ∧
    (c.node "n2").log.Ordered := by
  have hx : Cluster.init.Reaches (trio 1) (OnAppend Node.ChecksBoundary) []
      (electBy "n1" 0 ++
        ([.drop 0, .act "n1" (.replicate "n2"), .act "n1" (.replicate "n2"), .deliver 0, .deliver 1,
          .act "n1" .tryAdvanceCommitIndex, .act "n1" (.propose .put "k" [] ""),
          .act "n1" (.replicate "n2"), .act "n1" (.replicate "n2"), .deliver 1,
          .act "n2" .applyBegin, .act "n2" .applyNext, .deliver 0, .deliver 0] : List Action))
      fun c _ => (c.node "n2").log.lastIncludedIndex = 1 ∧ ((c.node "n1").log.retained 2).isSome ∧
        ((c.node "n2").log.retained 2).isSome := by decide +kernel
  obtain ⟨c, tr, h, hb, h₁, h₂⟩ := hx.run
  obtain ⟨hm, ho⟩ := log_matching h
  exact ⟨tr, c, h, hb, h₁, h₂, hm _ _, ho _⟩

/-- The boundary (1, 1) of `n1` hides that entry 1 of `n3` has term 2. -/
theorem log_matching_fails : ∃ tr c, Run (quintet 1) unrestricted tr c ∧
    ¬(c.node "n2").log.Matches (c.node "n3").log := by
  have hx : Cluster.init.Reaches (quintet 1) unrestricted []
      [ -- `n1` leads term 1 and replicates its no-op to `n2`
        .act "n1" .startElection, .act "n1" .requestVotes, .deliver 1, .deliver 1, .deliver 2,
        .deliver 2, .act "n1" .concludeElection, .act "n1" (.replicate "n2"), .deliver 2, .drop 0,
        .drop 0, .drop 0,
        -- `n3` leads term 2 and commits its no-op
        .act "n3" .startElection, .act "n3" .requestVotes, .deliver 2, .deliver 2, .deliver 2,
        .deliver 2, .act "n3" .concludeElection, .drop 0, .drop 0, .act "n3" (.replicate "n4"),
        .deliver 0, .deliver 0, .act "n3" (.replicate "n5"), .deliver 0, .deliver 0,
        .act "n3" .tryAdvanceCommitIndex,
        -- entries 1 and 2 are on the way to `n1`, which a heartbeat makes commit its own entry 1
        .act "n3" (.propose .put "k" [] ""), .act "n3" (.replicate "n1"),
        .act "n3" .linearizableRead, .act "n3" (.heartbeat 0 "n1"), .deliver 1, .drop 1,
        .act "n1" .applyBegin, .act "n1" .applyNext,
        -- they arrive after the snapshot
        .deliver 0, .drop 0,
        -- `n1` leads term 3 and replicates what it has above the boundary to `n2`
        .act "n1" .startElection, .act "n1" .requestVotes, .deliver 0, .deliver 1, .deliver 2,
        .deliver 2, .act "n1" .concludeElection, .drop 0, .drop 0, .act "n1" (.replicate "n2"),
        .deliver 0, .deliver 0, .act "n1" (.replicate "n2"), .deliver 0 ]
      fun c _ =>
        ((c.node "n2").log.retained 2).map Entry.term = some 2 ∧
        ((c.node "n3").log.retained 2).map Entry.term = some 2 ∧
        ((c.node "n2").log.retained 1).map Entry.term = some 1 ∧
        ((c.node "n3").log.retained 1).map Entry.term = some 2 := by decide +kernel
  obtain ⟨c, tr, h, h₁, h₂, h₃, h₄⟩ := hx.run
  simp only [Option.map_eq_some_iff] at h₁ h₂ h₃ h₄
  obtain ⟨e, he, ht⟩ := h₁
  obtain ⟨e', he', ht'⟩ := h₂
  obtain ⟨f, hf, hft⟩ := h₃
  obtain ⟨f', hf', hft'⟩ := h₄
  refine ⟨tr, c, h, fun hm => ?_⟩
  cases hm 2 e e' he he' (ht.trans ht'.symm) 1 (by decide) f f' hf hf'
  exact absurd (hft.symm.trans hft') (by decide)

end DistributedKV.Raft
