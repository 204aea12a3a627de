import DistributedKV.Theory.Linearizable
import DistributedKV.Verify.Contents

/-!
# The store is linearizable

The calls of `ClientServer.Put`, `Delete` and `Get` over a whole run: `Put` and `Delete` are calls
of `Propose`, a linearizable `Get` is a call of `LinearizableRead` that is followed by a look into
the state machine. In runs that meet the conditions of the earlier results (`Consistent`), their
history is one that a single map could have produced, with every call taking effect at one moment
between its beginning and its end (`calls_linearizable`).

A call of `Propose` that has not returned `nil` may or may not have taken effect.
-/

namespace DistributedKV.Raft

open Theory (Object Operation Layout LogInv KeepInv Settled Advances)

/-! ## The map -/

inductive Request where
  | put (key : String) (value : Value)
  | delete (key : String)
  | get (key : String)
deriving DecidableEq

inductive Answer where
  | done
  | value (v : Option Value)
deriving DecidableEq

/-- A map of strings, one request at a time. -/
def store : Object (String → Option Value) Request Answer where
  init := fun _ => none
  step m
    | .put key value => (fun k => if k = key then some value else m k, .done)
    | .delete key => (fun k => if k = key then none else m k, .done)
    | .get key => (m, .value (m key))

/-- The request that an entry is appended for. -/
def Entry.request? (e : Entry) : Option Request :=
  match e.type with
  | .noop => none
  | .put => some (.put e.key e.value)
  | .delete => some (.delete e.key)

theorem Entry.request?_ne_get {e : Entry} (h : e.request? = some req) : req ≠ .get k := by
  rintro rfl
  unfold Entry.request? at h
  split at h <;> cases h

theorem store_step (h : e.request? = some req) (m : String → Option Value) :
    (store.step m req).1 = Node.applyEntry m e ∧ (store.step m req).2 = .done := by
  unfold Entry.request? at h
  unfold Node.applyEntry
  cases htype : e.type <;> rw [htype] at h <;> cases h <;> exact ⟨rfl, rfl⟩

/-! ## Timelines -/

/-- A step of a run, and the cluster before it. -/
structure Moment where
  cluster : Cluster
  action : Action
  events : List Event

/-- The moments of a run. -/
inductive Timeline (cfg : Config) (ok : Cluster → Action → Prop) :
    List Moment → Cluster → Prop where
  | init : Timeline cfg ok [] Cluster.init
  | step : Timeline cfg ok hs c → ok c a → c.step cfg a = some (c', evs) →
    Timeline cfg ok (hs ++ [⟨c, a, evs⟩]) c'

/-- The cluster before moment `i`, for a timeline that has led to `c`. -/
def clusterAt (hs : List Moment) (c : Cluster) (i : ℕ) : Cluster :=
  (hs[i]?.map Moment.cluster).getD c

/-- What has happened before moment `i`. -/
def eventsAt (hs : List Moment) (i : ℕ) : List Event := (hs.take i).flatMap Moment.events

/-- The abstract state before moment `i`. -/
def absAt (cfg : Config) (hs : List Moment) (i : ℕ) : Abs :=
  (hs.take i).foldl (fun r m => r.applyAll (m.cluster.ops cfg m.action)) Theory.State.init

namespace Timeline

variable {cfg : Config} {ok : Cluster → Action → Prop} {hs : List Moment} {c : Cluster} {i j : ℕ}

theorem eventsAt_succ (hm : hs[i]? = some m) : eventsAt hs (i + 1) = eventsAt hs i ++ m.events := by
  unfold eventsAt
  rw [List.take_add_one, hm]
  simp

theorem absAt_succ (hm : hs[i]? = some m) :
    absAt cfg hs (i + 1) = (absAt cfg hs i).applyAll (m.cluster.ops cfg m.action) := by
  unfold absAt
  rw [List.take_add_one, hm]
  simp

theorem clusterAt_eq (hm : hs[i]? = some m) : clusterAt hs c i = m.cluster := by
  simp [clusterAt, hm]

theorem clusterAt_length : clusterAt hs c hs.length = c := by simp [clusterAt]

theorem clusterAt_snoc (hi : i ≤ hs.length) :
    clusterAt (hs ++ [⟨c, a, evs⟩]) c' i = clusterAt hs c i := by
  unfold clusterAt
  rcases hi.lt_or_eq with hlt | rfl
  · rw [List.getElem?_append_left hlt, List.getElem?_eq_getElem hlt]
    rfl
  · simp

/-- Every moment is a step of the cluster. -/
theorem step_at (h : Timeline cfg ok hs c) (hm : hs[i]? = some m) :
    ok m.cluster m.action ∧
      m.cluster.step cfg m.action = some (clusterAt hs c (i + 1), m.events) := by
  induction h with
  | init => cases hm
  | @step hs c a c' evs h hoka hs' ih =>
    have hi := (List.getElem?_eq_some_iff.mp hm).1
    rw [List.length_append, List.length_singleton] at hi
    rcases Nat.lt_succ_iff_lt_or_eq.mp hi with hlt | rfl
    · rw [List.getElem?_append_left hlt] at hm
      rw [clusterAt_snoc (Nat.succ_le_of_lt hlt)]
      exact ih hm
    · rw [List.getElem?_append_right le_rfl, Nat.sub_self] at hm
      cases hm
      have hlen : (hs ++ [(⟨c, a, evs⟩ : Moment)]).length = hs.length + 1 := by simp
      rw [← hlen, clusterAt_length]
      exact ⟨hoka, hs'⟩

theorem shadow (h : Timeline cfg ok hs c) :
    Shadow cfg ok (eventsAt hs hs.length) c (absAt cfg hs hs.length) := by
  unfold eventsAt absAt
  rw [List.take_length]
  induction h with
  | init => exact .init
  | step _ hoka hs ih =>
    rw [List.flatMap_append, List.foldl_append]
    simpa using ih.step hoka hs

theorem take (h : Timeline cfg ok hs c) (hi : i ≤ hs.length) :
    Timeline cfg ok (hs.take i) (clusterAt hs c i) := by
  induction h with
  | init =>
    obtain rfl : i = 0 := Nat.le_zero.mp hi
    exact .init
  | @step hs c a c' evs h hoka hs' ih =>
    rw [List.length_append, List.length_singleton] at hi
    rcases hi.lt_or_eq with hlt | rfl
    · have hle := Nat.le_of_lt_succ hlt
      rw [clusterAt_snoc hle, List.take_append_of_le_length hle]
      exact ih hle
    · have hlen : (hs ++ [(⟨c, a, evs⟩ : Moment)]).length = hs.length + 1 := by simp
      rw [← hlen, clusterAt_length, List.take_length]
      exact .step h hoka hs'

theorem shadowAt (h : Timeline cfg ok hs c) (hi : i ≤ hs.length) :
    Shadow cfg ok (eventsAt hs i) (clusterAt hs c i) (absAt cfg hs i) := by
  have hsh := (h.take hi).shadow
  have hlen : (hs.take i).length = i := by rw [List.length_take, Nat.min_eq_left hi]
  unfold eventsAt absAt at hsh ⊢
  rwa [hlen, List.take_take, Nat.min_self] at hsh

/-- What every step between two moments keeps holds at the later one if it holds at the earlier
one. -/
theorem forward {P : ℕ → Prop} (hij : i ≤ j) (hj : j ≤ hs.length) (hi : P i)
    (hstep : ∀ k m, i ≤ k → k < j → hs[k]? = some m → P k → P (k + 1)) : P j := by
  induction j, hij using Nat.le_induction with
  | base => exact hi
  | succ j hij ih =>
    have hlt : j < hs.length := hj
    refine hstep j hs[j] hij (Nat.lt_succ_self j) (List.getElem?_eq_getElem hlt) ?_
    exact ih hlt.le fun k m hk hkj => hstep k m hk (hkj.trans (Nat.lt_succ_self j))

/-- The moments of a list of actions, if they can be executed. -/
def play (cfg : Config) (ok : Cluster → Action → Prop) [∀ c a, Decidable (ok c a)]
    (hs : List Moment) (c : Cluster) : List Action → Option (List Moment × Cluster)
  | [] => some (hs, c)
  | a :: as =>
    if ok c a then
      match c.step cfg a with
      | some (c', evs) => play cfg ok (hs ++ [⟨c, a, evs⟩]) c' as
      | none => none
    else none

theorem of_play [∀ c a, Decidable (ok c a)] (h : Timeline cfg ok hs c)
    (hp : play cfg ok hs c as = some (hs', c')) : Timeline cfg ok hs' c' := by
  induction as generalizing hs c with
  | nil =>
    cases hp
    exact h
  | cons a as ih =>
    obtain ⟨hok, hp⟩ := Option.ite_none_right_eq_some.mp hp
    split at hp
    · next hs' => exact ih (h.step hok hs') hp
    · cases hp

end Timeline

/-! ## Calls -/

/-- The call of `Propose` that begins at a moment, and the entry that it appends. -/
def Moment.proposal (m : Moment) : Option (NodeID × CallID × Entry) :=
  match m.action with
  | .act n (.propose type key value clientRequestID) =>
    let s := m.cluster.node n
    some (n, (s.epoch, s.proposals.length), s.proposal type key value clientRequestID)
  | _ => none

/-- The call `call` of `Propose` on `n` returns `nil`. -/
def Event.acks (n : NodeID) (call : CallID) : Event → Bool
  | .proposeOk n' call' _ => n' = n ∧ call' = call
  | _ => false

/-- The call `call` of `LinearizableRead` on `n` returns `nil`. -/
def Event.confirms (n : NodeID) (call : CallID) : Event → Bool
  | .readOk n' call' _ => n' = n ∧ call' = call
  | _ => false

/-- When a call of `Propose` that began at moment `i` had returned `nil`. -/
def returnedAfter (hs : List Moment) (i : ℕ) (n : NodeID) (call : CallID) : Option ℕ :=
  ((hs.drop (i + 1)).findIdx? fun m => m.events.any (Event.acks n call)).map (· + (i + 2))

/-- The call of `Put` or `Delete` that began at moment `i`. -/
def writeAt (hs : List Moment) (i : ℕ) : Option (Operation Request Answer) :=
  (hs[i]?.bind Moment.proposal).bind fun x => x.2.2.request?.map fun req =>
    ⟨i, req, (returnedAfter hs i x.1 x.2.1).map fun t => (t, .done)⟩

/-- A linearizable `Get` on `node`: `LinearizableRead` begins at moment `invoked` and returns at
moment `confirmed`, and the state machine is looked into before moment `read`. -/
structure GetCall where
  node : NodeID
  key : String
  invoked : ℕ
  confirmed : ℕ
  read : ℕ

namespace GetCall

/-- The call of `LinearizableRead`. -/
def call (g : GetCall) (hs : List Moment) (c : Cluster) : CallID :=
  let s := (clusterAt hs c g.invoked).node g.node
  (s.epoch, s.reads.length)

/-- The call is made in the timeline, by one process. -/
structure In (g : GetCall) (hs : List Moment) (c : Cluster) : Prop where
  begins : (hs[g.invoked]?.bind fun m => m.action.reader?) = some g.node
  returns : (hs[g.confirmed]?.any fun m =>
    m.events.any (Event.confirms g.node (g.call hs c))) = true
  order : g.invoked < g.confirmed ∧ g.confirmed < g.read ∧ g.read ≤ hs.length
  alive : ((clusterAt hs c g.read).node g.node).epoch = (g.call hs c).1

instance : Decidable (In g hs c) :=
  decidable_of_iff (_ ∧ _ ∧ _ ∧ _) ⟨fun ⟨h₁, h₂, h₃, h₄⟩ => ⟨h₁, h₂, h₃, h₄⟩,
    fun h => ⟨h.begins, h.returns, h.order, h.alive⟩⟩

def operation (g : GetCall) (hs : List Moment) (c : Cluster) : Operation Request Answer where
  invoked := g.invoked
  input := .get g.key
  returned := some (g.read, .value (((clusterAt hs c g.read).node g.node).sm g.key))

end GetCall

/-- All calls of `Put` and `Delete` of a timeline, and those of `Get` in `gets`. -/
def history (hs : List Moment) (c : Cluster) (gets : List GetCall) :
    Set (Operation Request Answer) :=
  {a | (∃ i, writeAt hs i = some a) ∨ ∃ g ∈ gets, g.operation hs c = a}

/-- The conditions under which reads see the acknowledged writes and acknowledgements are about
the right entries. -/
def Consistent (c : Cluster) (a : Action) : Prop := Linear c a ∧ OnSnapshot Node.NoWriters c a

instance : Decidable (Consistent c a) := inferInstanceAs (Decidable (_ ∧ _))

theorem writeAt_some (h : writeAt hs i = some a) : ∃ m n call e req, hs[i]? = some m ∧
    m.proposal = some (n, call, e) ∧ e.request? = some req ∧
    a = ⟨i, req, (returnedAfter hs i n call).map fun t => (t, .done)⟩ := by
  unfold writeAt at h
  rw [Option.bind_eq_some_iff] at h
  obtain ⟨⟨n, call, e⟩, hm, h⟩ := h
  obtain ⟨m, hm, hp⟩ := Option.bind_eq_some_iff.mp hm
  obtain ⟨req, hreq, rfl⟩ := Option.map_eq_some_iff.mp h
  exact ⟨m, n, call, e, req, hm, hp, hreq, rfl⟩

theorem returnedAfter_some (h : returnedAfter hs i n call = some t) : ∃ k m e, i < k ∧ t = k + 1 ∧
    hs[k]? = some m ∧ .proposeOk n call e ∈ m.events := by
  obtain ⟨k, hk, rfl⟩ := Option.map_eq_some_iff.mp h
  obtain ⟨hlt, hany, -⟩ := List.findIdx?_eq_some_iff_getElem.mp hk
  rw [List.any_eq_true] at hany
  obtain ⟨ev, hev, hack⟩ := hany
  cases ev with
  | proposeOk n' call' e =>
    obtain ⟨rfl, rfl⟩ := of_decide_eq_true hack
    refine ⟨i + 1 + k, _, e, by omega, by omega, ?_, hev⟩
    rw [← List.getElem?_drop, List.getElem?_eq_getElem hlt]
  | _ => cases hack

theorem writeAt_eq (hm : hs[i]? = some m) (hp : Moment.proposal m = some (n, call, e)) :
    writeAt hs i = e.request?.map fun req =>
      ⟨i, req, (returnedAfter hs i n call).map fun t => (t, .done)⟩ := by
  simp [writeAt, hm, hp]

theorem Moment.proposal_some {m : Moment} (h : m.proposal = some (n, call, e)) :
    ∃ type key value reqID, m.action = .act n (.propose type key value reqID) ∧
      call = ((m.cluster.node n).epoch, (m.cluster.node n).proposals.length) ∧
      e = (m.cluster.node n).proposal type key value reqID := by
  unfold Moment.proposal at h
  split at h
  · next hact => cases h; exact ⟨_, _, _, _, hact, rfl, rfl⟩
  · cases h

theorem Action.reader?_some (h : Action.reader? a = some n) : a = .act n .linearizableRead := by
  unfold Action.reader? at h
  split at h <;> cases h
  rfl

/-- What is appended is a no-op, or the entry of a call of `Propose`. -/
theorem Moment.append_ops {m : Moment} (h : .append n t e ∈ m.cluster.ops cfg m.action) :
    e.type = .noop ∨ ∃ n call, m.proposal = some (n, call, e) := by
  obtain ⟨c, a, evs⟩ := m
  have helect {n' s s'} (h : .append n t e ∈ Node.electOps n' s s') : e.type = .noop := by
    unfold Node.electOps at h
    split at h <;> simp at h
    rw [h.2.2]
  cases a with
  | act n' a =>
    cases a with
    | requestVotes | concludeElection =>
      simp only [Cluster.ops, Node.actOps] at h
      split at h
      · exact .inl (helect h)
      · cases h
    | propose =>
      simp only [Cluster.ops, Node.actOps, List.mem_cons, List.not_mem_nil, or_false, reduceCtorEq,
        Theory.Op.append.injEq] at h
      exact .inr ⟨n', _, by rw [h.2.2]; rfl⟩
    | tryAdvanceCommitIndex =>
      simp only [Cluster.ops, Node.actOps] at h
      split at h <;> simp at h
    | _ => simp [Cluster.ops, Node.actOps] at h
  | deliver k =>
    simp only [Cluster.ops] at h
    split at h
    · simp only [Node.receiveOps, List.mem_cons, reduceCtorEq, false_or] at h
      split at h
      · split at h <;> simp at h
      · split at h
        · simp only [Node.adoptOps] at h
          split at h <;> simp at h
        · cases h
      · split at h <;> simp at h
      · cases h
    · cases h
  | drop k => cases h

/-- What a call of `Propose` does to the node, which is a leader. -/
theorem Node.Acts.proposed {s : Node} (ha : s.Acts me (.propose type key value reqID) ef) :
    s.role = .leader ∧ ef.node.epoch = s.epoch ∧
      ef.node.proposals = s.proposals ++ [{ entry := s.proposal type key value reqID }] := by
  cases ha with
  | lead _ _ _ _ hops => simp [actOps] at hops
  | dissolve _ hops => simp [actOps] at hops
  | propose hs => obtain ⟨hrole, rfl⟩ := propose_ok hs; exact ⟨hrole, rfl, rfl⟩

theorem steady_of_consistent (h : Consistent c a) : Steady c a := ⟨h.1.1, h.1.2.1⟩

theorem lossless_of_consistent (h : Consistent c a) : Lossless c a := h.1.1.1

theorem boundary_of_consistent (h : Consistent c a) : OnAppend Node.ChecksBoundary c a :=
  checksBoundary_of_lossless lossless_of_consistent h

namespace Timeline

variable {cfg : Config} {hs : List Moment} {c : Cluster} {i j k : ℕ} {m m' : Moment}
  (h : Timeline cfg Consistent hs c)
include h

/-! ### From one moment to a later one -/

theorem advances_succ (hm : hs[i]? = some m) :
    Advances (absAt cfg hs i) (absAt cfg hs (i + 1)) := by
  obtain ⟨hok, hstep⟩ := h.step_at hm
  have hsh := h.shadowAt (List.getElem?_eq_some_iff.mp hm).1.le
  rw [clusterAt_eq hm] at hsh
  rw [absAt_succ hm]
  exact hsh.advances lossless_of_consistent hok hstep

theorem advances (hij : i ≤ j) (hj : j ≤ hs.length) :
    Advances (absAt cfg hs i) (absAt cfg hs j) := by
  refine forward (P := fun j => Advances (absAt cfg hs i) (absAt cfg hs j)) hij hj
    ⟨fun _ => le_rfl, fun _ => List.prefix_refl _, id⟩ fun k m _ _ hm A => ?_
  have A' := h.advances_succ hm
  exact ⟨fun n => (A.term n).trans (A'.term n), fun t => (A.llog t).trans (A'.llog t),
    fun hset => A'.settled (A.settled hset)⟩

theorem executed (hij : i ≤ j) (hj : j ≤ hs.length)
    (hex : Executed (eventsAt hs i) (absAt cfg hs i) l k) :
    Executed (eventsAt hs j) (absAt cfg hs j) l k := by
  refine forward (P := fun j => Executed (eventsAt hs j) (absAt cfg hs j) l k) hij hj hex
    fun k m _ _ hm hex => ?_
  rw [eventsAt_succ hm]
  exact hex.mono (h.advances_succ hm) m.events

/-! ### Writes -/

/-- A call of `Propose` appends its entry to the log of the leader. -/
theorem proposed (hm : hs[i]? = some m) (hp : m.proposal = some (n, call, e)) :
    ((absAt cfg hs i).llog e.term).length + 1 = e.index ∧
      (absAt cfg hs (i + 1)).llog e.term = (absAt cfg hs i).llog e.term ++ [e] ∧
      ((clusterAt hs c (i + 1)).node n).Knows call e := by
  obtain ⟨hok, hstep⟩ := h.step_at hm
  have hsh := h.shadowAt (List.getElem?_eq_some_iff.mp hm).1.le
  rw [clusterAt_eq hm] at hsh
  obtain ⟨-, -, G⟩ := hsh.logged boundary_of_consistent
  obtain ⟨type, key, value, reqID, hact, rfl, rfl⟩ := Moment.proposal_some hp
  rw [absAt_succ hm, hact]
  rw [hact] at hstep
  generalize clusterAt hs c (i + 1) = c', m.events = evs at hstep ⊢
  cases Cluster.step_inv hstep with
  | @act _ _ ef hn ha =>
    obtain ⟨hrole, hep, hprop⟩ := ha.proposed
    have hlog := (G.node n).leader hrole
    refine ⟨?_, ?_, ?_⟩
    · show ((absAt cfg hs i).llog (m.cluster.node n).log.currentTerm).length + 1 = _
      rw [← hlog, (G.node n).rep.length]
      rfl
    · have hterm : ((m.cluster.node n).proposal type key value reqID).term =
          (m.cluster.node n).log.currentTerm := rfl
      rw [hterm, ← hlog]
      simp [Cluster.ops, Node.actOps, cfg.member_id, Theory.State.apply]
    · rw [Cluster.after_node_self]
      refine ⟨hep.ge, fun _ => ?_⟩
      rw [Node.called, hprop]
      simp

/-- An entry is appended by one call. -/
theorem moment_unique (hm : hs[i]? = some m) (hp : m.proposal = some (n, call, e))
    (hm' : hs[j]? = some m') (hp' : m'.proposal = some (n', call', e)) : i = j := by
  -- after the first of the calls the log is too long for the second one
  have key {i j : ℕ} {m m' : Moment} {n n' call call'} (hm : hs[i]? = some m)
      (hp : m.proposal = some (n, call, e)) (hm' : hs[j]? = some m')
      (hp' : m'.proposal = some (n', call', e)) : ¬i < j := by
    intro hlt
    obtain ⟨hlen, hnew, -⟩ := h.proposed hm hp
    obtain ⟨hlen', -, -⟩ := h.proposed hm' hp'
    have hle := ((h.advances hlt (List.getElem?_eq_some_iff.mp hm').1.le).llog e.term).length_le
    rw [hnew, List.length_append, List.length_singleton] at hle
    omega
  exact le_antisymm (not_lt.mp (key hm' hp' hm hp)) (not_lt.mp (key hm hp hm' hp'))

/-- A call that returns `nil` returns it for the entry it appended. -/
theorem acked_entry (hm : hs[i]? = some m) (hp : m.proposal = some (n, call, e)) (hik : i < k)
    (hk : hs[k]? = some m') (hev : .proposeOk n call e' ∈ m'.events) : e' = e := by
  have hlt := (List.getElem?_eq_some_iff.mp hk).1
  have hknows : ((clusterAt hs c k).node n).Knows call e := by
    refine forward (P := fun j => ((clusterAt hs c j).node n).Knows call e) hik hlt.le
      (h.proposed hm hp).2.2 fun j m'' _ _ hj hknows => ?_
    rw [clusterAt_eq hj] at hknows
    exact (Cluster.step_serves (h.step_at hj).2 n).knows hknows
  have hrun := (h.shadowAt hlt.le).run
  rw [clusterAt_eq hk] at hrun hknows
  obtain ⟨hep, hcalled⟩ := hrun.event_call And.right (h.step_at hk).2 hev rfl
  exact Option.some.inj (hcalled.symm.trans (hknows.2 hep))

/-- The entry of a call that returned `nil` is in the sequence. -/
theorem acked_executed (hk : hs[k]? = some m) (hev : .proposeOk n call e ∈ m.events) :
    ∃ l j, e.index = j + 1 ∧ l[j]? = some e ∧
      Executed (eventsAt hs (k + 1)) (absAt cfg hs (k + 1)) l (j + 1) := by
  have hsh := h.shadowAt (i := k + 1) (List.getElem?_eq_some_iff.mp hk).1
  have hmem : .proposeOk n call e ∈ eventsAt hs (k + 1) := by
    rw [eventsAt_succ hk]
    exact List.mem_append_right _ hev
  obtain ⟨e', rfl, hap⟩ := hsh.run.proposeOk (R := Eq) (fun h => h.eq_of_get And.right) hmem
  obtain ⟨l, j, hj, hex, he⟩ := hsh.executed steady_of_consistent hap
  exact ⟨l, j, hj, he, hj ▸ hex⟩

/-- What was settled when a call of `Propose` began lies before its entry. -/
theorem settled_lt (hm : hs[i]? = some m) (hp : m.proposal = some (n, call, e))
    (hset : Settled (absAt cfg hs i) t l k)
    (hset' : Settled (absAt cfg hs hs.length) t' l' (j + 1)) (he : l'[j]? = some e)
    (hidx : e.index = j + 1) : k ≤ j := by
  by_contra hlt
  have hi := (List.getElem?_eq_some_iff.mp hm).1.le
  obtain ⟨L, -, -⟩ := (h.shadowAt hi).logged boundary_of_consistent
  obtain ⟨L', -, -⟩ := (h.shadowAt le_rfl).logged boundary_of_consistent
  obtain ⟨K', -⟩ := (h.shadowAt le_rfl).backing lossless_of_consistent
  -- the entry would have been in the log of its leader already
  have hagree := (((h.advances hi le_rfl).settled hset).of_le (by omega : j + 1 ≤ k)).agree L' K'
    hset'
  obtain ⟨T, i', -, -, -, heq⟩ := hset.2 (by omega)
  have hel : ((absAt cfg hs i).llog T)[j]? = some e := by
    rw [← List.getElem?_take_of_lt (by omega : j < k), ← heq,
      List.getElem?_take_of_lt (by omega), ← List.getElem?_take_of_lt (Nat.lt_succ_self j), hagree,
      List.getElem?_take_of_lt (Nat.lt_succ_self j), he]
  have hown := ((L.llog T).getElem?_llog hel le_rfl).trans hel
  have := (List.getElem?_eq_some_iff.mp hown).1
  have := (h.proposed hm hp).1
  omega

/-- Entries that are not no-ops come from calls of `Propose`. -/
theorem appended (hi : i ≤ hs.length) (he : e ∈ (absAt cfg hs i).llog t) (hne : e.type ≠ .noop) :
    ∃ (k : ℕ) (m : Moment) (n : NodeID) (call : CallID), hs[k]? = some m ∧
      m.proposal = some (n, call, e) := by
  revert t
  refine forward (P := fun i => ∀ {t}, e ∈ (absAt cfg hs i).llog t → _) (Nat.zero_le i) hi
    (fun he => by simp [absAt, Theory.State.init] at he) fun k m _ _ hm ih t he => ?_
  obtain ⟨hok, hstep⟩ := h.step_at hm
  have hsh := h.shadowAt (List.getElem?_eq_some_iff.mp hm).1.le
  rw [clusterAt_eq hm] at hsh
  obtain ⟨L, -, -⟩ := hsh.logged boundary_of_consistent
  rw [absAt_succ hm] at he
  rcases L.mem_llog_applyAll (hsh.replicates boundary_of_consistent hok hstep) he with
    ⟨t', he⟩ | ⟨n, t', hop⟩
  · exact ih he
  · obtain ⟨n, call, hp⟩ := (Moment.append_ops hop).resolve_left hne
    exact ⟨k, m, n, call, hm, hp⟩

/-! ### Reads -/

/-- A step keeps what a node has applied, as long as its process lives. -/
theorem lastApplied_le (hm : hs[i]? = some m) (n : NodeID)
    (he : ((clusterAt hs c (i + 1)).node n).epoch ≤ (m.cluster.node n).epoch) :
    (m.cluster.node n).lastApplied ≤ ((clusterAt hs c (i + 1)).node n).lastApplied := by
  obtain ⟨hok, hstep⟩ := h.step_at hm
  have hsh := h.shadowAt (List.getElem?_eq_some_iff.mp hm).1.le
  rw [clusterAt_eq hm] at hsh
  refine (Cluster.indices_le (hsh.indices_of_linear And.left) (forward_of_linear And.left hok)
    hstep ?_).2
  intro hact
  rw [hact] at hstep
  have := Cluster.step_restart hstep
  omega

/-- When a read returns, what was settled when it began has been applied. -/
theorem applied_of_returned {g : GetCall} (hg : g.In hs c)
    (hset : Settled (absAt cfg hs g.invoked) t l k) :
    ((clusterAt hs c g.confirmed).node g.node).epoch = (g.call hs c).1 ∧
      k ≤ ((clusterAt hs c g.confirmed).node g.node).lastApplied := by
  obtain ⟨hlt, hlt', hle⟩ := hg.order
  obtain ⟨m, hm, hread⟩ := Option.bind_eq_some_iff.mp hg.begins
  obtain ⟨m', hm', hconf⟩ := (Option.any_eq_true ..).mp hg.returns
  have hsh := h.shadowAt (List.getElem?_eq_some_iff.mp hm).1.le
  obtain ⟨hok, hstep⟩ := h.step_at hm
  have hadv := h.advances_succ hm
  rw [Action.reader?_some hread] at hok hstep
  rw [clusterAt_eq hm] at hsh
  obtain ⟨hn, hr⟩ := Cluster.step_linearizableRead hstep
  have hinit := Pursued.init hsh.voting.2 hsh.run.numbered hn hstep hr
  -- the read is pursued until it returns
  obtain ⟨tr, hp⟩ : ∃ tr, Pursued cfg (absAt cfg hs g.invoked) g.node (g.call hs c)
      (m.cluster.node g.node).log.currentTerm (m.cluster.node g.node).commitIndex tr
      (clusterAt hs c g.confirmed) (absAt cfg hs g.confirmed) := by
    refine forward (P := fun j => ∃ tr, Pursued cfg (absAt cfg hs g.invoked) g.node (g.call hs c)
      (m.cluster.node g.node).log.currentTerm (m.cluster.node g.node).commitIndex tr
      (clusterAt hs c j) (absAt cfg hs j)) hlt (hlt'.le.trans hle) ?_ ?_
    · rw [GetCall.call, clusterAt_eq hm]
      have hops : absAt cfg hs (g.invoked + 1) = absAt cfg hs g.invoked := by
        rw [absAt_succ hm, Action.reader?_some hread]
        rfl
      exact ⟨[], hops ▸ hinit⟩
    · rintro j m'' - - hj ⟨tr, hp⟩
      obtain ⟨hok, hstep⟩ := h.step_at hj
      have hsh := h.shadowAt (List.getElem?_eq_some_iff.mp hj).1.le
      rw [clusterAt_eq hj] at hsh hp
      exact ⟨_, hp.step hsh.voting.2 (hsh.indices_of_linear And.left)
        (forward_of_linear And.left hok) (h.advances_succ hj).term hstep⟩
  rw [List.any_eq_true] at hconf
  obtain ⟨ev, hev, hconf⟩ := hconf
  cases ev with
  | readOk n' call' la =>
    obtain ⟨rfl, hcall⟩ := of_decide_eq_true hconf
    obtain ⟨x, b, -, hx, hid, hep, rfl, rd, hrd, hph⟩ := Cluster.step_causes (h.step_at hm').2 hev
    rw [cfg.member_id] at hid
    subst hid
    rw [clusterAt_eq hm'] at hp ⊢
    rw [hcall] at hep hrd
    obtain ⟨hq, hi⟩ := (hp.read hep.symm hrd).returned hx hph
    refine ⟨hep.symm, (hsh.settled_le And.left hok.1.2.2 ?_ hset hq).trans hi⟩
    exact (Node.linearizableRead_ok hr).1
  | _ => cases hconf

/-- What was settled when a `Get` began is in what it looks into. -/
theorem applied_of_read {g : GetCall} (hg : g.In hs c)
    (hset : Settled (absAt cfg hs g.invoked) t l k) :
    k ≤ ((clusterAt hs c g.read).node g.node).lastApplied := by
  obtain ⟨hep, hle⟩ := h.applied_of_returned hg hset
  have hlast : (g.call hs c).1 ≤ ((clusterAt hs c g.read).node g.node).epoch ∧
      (((clusterAt hs c g.read).node g.node).epoch = (g.call hs c).1 →
        k ≤ ((clusterAt hs c g.read).node g.node).lastApplied) := by
    refine forward (P := fun j => (g.call hs c).1 ≤ ((clusterAt hs c j).node g.node).epoch ∧
      (((clusterAt hs c j).node g.node).epoch = (g.call hs c).1 →
        k ≤ ((clusterAt hs c j).node g.node).lastApplied)) hg.order.2.1.le hg.order.2.2
      ⟨hep.ge, fun _ => hle⟩ fun j m _ _ hj ⟨hge, hle⟩ => ?_
    rw [clusterAt_eq hj] at hge hle
    obtain ⟨msg, hreads, -⟩ := Cluster.step_reads (h.step_at hj).2 g.node
    have hmono := hreads.length_le.1
    refine ⟨hge.trans hmono, fun he => ?_⟩
    exact (hle (by omega)).trans (h.lastApplied_le hj g.node (by omega))
  exact hlast.2 hg.alive

end Timeline

/-! ## The order -/

/-- The call that appended an entry. -/
def writerOf (hs : List Moment) (e : Entry) : Option (Operation Request Answer) :=
  ((List.range hs.length).find? fun i => (hs[i]?.bind Moment.proposal).any fun x => x.2.2 = e).bind
    (writeAt hs)

/-- The calls along a log: the writer of each entry, and the calls of `Get` where `pos` puts
them. -/
def callsAlong (hs : List Moment) (c : Cluster) (gets : List GetCall) (l : List Entry)
    (pos : GetCall → ℕ) : Layout Request Answer where
  update i := l[i - 1]?.bind (writerOf hs)
  queries i := (gets.filter fun g => pos g = i).map fun g => g.operation hs c

/-- `l` is all that has been applied, and what each `Get` found is explained by the prefix of
length `pos`. -/
structure Explained (cfg : Config) (hs : List Moment) (c : Cluster) (gets : List GetCall)
    (l : List Entry) (pos : GetCall → ℕ) : Prop where
  log : Executed (eventsAt hs hs.length) (absAt cfg hs hs.length) l l.length
  longest : ∀ {l' j}, Executed (eventsAt hs hs.length) (absAt cfg hs hs.length) l' j →
    j ≤ l.length ∧ l'.take j = l.take j
  within : ∀ g ∈ gets, g.In hs c
  applied : ∀ g ∈ gets, ((clusterAt hs c g.read).node g.node).lastApplied ≤ pos g
  found : ∀ g ∈ gets, ∃ l', Executed (eventsAt hs g.read) (absAt cfg hs g.read) l' (pos g) ∧
    ((clusterAt hs c g.read).node g.node).sm g.key = replay (l'.take (pos g)) g.key

namespace Timeline

variable {cfg : Config} {hs : List Moment} {c : Cluster} {gets : List GetCall}
  (h : Timeline cfg Consistent hs c)
include h

theorem explained (hin : ∀ g ∈ gets, g.In hs c) : ∃ l pos, Explained cfg hs c gets l pos := by
  obtain ⟨l, hl, hmax⟩ := h.shadow.sequence steady_of_consistent
  have hkey : ∀ g : GetCall, ∃ j, g ∈ gets →
      ((clusterAt hs c g.read).node g.node).lastApplied ≤ j ∧
      ∃ l', Executed (eventsAt hs g.read) (absAt cfg hs g.read) l' j ∧
        ((clusterAt hs c g.read).node g.node).sm g.key = replay (l'.take j) g.key := by
    intro g
    by_cases hg : g ∈ gets
    · have hsh := h.shadowAt (hin g hg).order.2.2
      obtain ⟨l', j, hle, hex, hval⟩ :=
        ((hsh.stocked steady_of_consistent).node g.node).state.key g.key
      exact ⟨j, fun _ => ⟨hle, l', hex, hval⟩⟩
    · exact ⟨0, fun hg' => (hg hg').elim⟩
  choose pos hpos using hkey
  exact ⟨l, pos, hl, hmax, hin, fun g hg => (hpos g hg).1, fun g hg => (hpos g hg).2⟩

theorem writerOf_eq (hm : hs[i]? = some m) (hp : m.proposal = some (n, call, e)) :
    writerOf hs e = writeAt hs i := by
  have hi : i ∈ List.range hs.length := List.mem_range.mpr (List.getElem?_eq_some_iff.mp hm).1
  unfold writerOf
  cases hf : (List.range hs.length).find? fun i =>
      (hs[i]?.bind Moment.proposal).any fun x => x.2.2 = e with
  | none =>
    have := List.find?_eq_none.mp hf i hi
    simp [hm, hp] at this
  | some j =>
    have hj := List.find?_some hf
    obtain ⟨⟨n', call', e'⟩, hx, he⟩ := (Option.any_eq_true ..).mp hj
    obtain ⟨m', hm', hp'⟩ := Option.bind_eq_some_iff.mp hx
    obtain rfl : e' = e := of_decide_eq_true he
    rw [h.moment_unique hm hp hm' hp']
    rfl

end Timeline

theorem writerOf_some (hw : writerOf hs e = some a) : ∃ i m n call req, hs[i]? = some m ∧
    m.proposal = some (n, call, e) ∧ e.request? = some req ∧ writeAt hs i = some a ∧
    a = ⟨i, req, (returnedAfter hs i n call).map fun t => (t, .done)⟩ := by
  obtain ⟨i, hf, hwrite⟩ := Option.bind_eq_some_iff.mp hw
  have hi := List.find?_some hf
  obtain ⟨⟨n', call', e'⟩, hx, he⟩ := (Option.any_eq_true ..).mp hi
  obtain rfl : e' = e := of_decide_eq_true he
  obtain ⟨m', hm', hp'⟩ := Option.bind_eq_some_iff.mp hx
  obtain ⟨m, n, call, e, req, hm, hp, hreq, ha⟩ := writeAt_some hwrite
  rw [hm] at hm'
  cases hm'
  rw [hp] at hp'
  cases hp'
  exact ⟨i, _, _, _, req, hm, hp, hreq, hwrite, ha⟩

namespace Explained

variable {cfg : Config} {hs : List Moment} {c : Cluster} {gets : List GetCall} {l : List Entry}
  {pos : GetCall → ℕ} {i p : ℕ} {a : Operation Request Answer}

theorem of_update (ha : (callsAlong hs c gets l pos).update (i + 1) = some a) :
    ∃ e, l[i]? = some e ∧ writerOf hs e = some a := Option.bind_eq_some_iff.mp ha

theorem of_query (ha : a ∈ (callsAlong hs c gets l pos).queries i) :
    ∃ g ∈ gets, pos g = i ∧ g.operation hs c = a := by
  obtain ⟨g, hg, ha⟩ := List.mem_map.mp ha
  obtain ⟨hg, hpos⟩ := List.mem_filter.mp hg
  exact ⟨g, hg, of_decide_eq_true hpos, ha⟩

/-- The entries of the log are entries of leaders. -/
theorem mem_llog (E : Explained cfg hs c gets l pos) (he : l[i]? = some e) :
    ∃ T, ((absAt cfg hs hs.length).llog T)[i]? = some e := by
  have hi := (List.getElem?_eq_some_iff.mp he).1
  obtain ⟨t, hset⟩ := E.log.settled
  obtain ⟨T, -, -, -, -, heq⟩ := hset.2 (by omega)
  refine ⟨T, ?_⟩
  rw [← List.getElem?_take_of_lt hi, ← heq, List.getElem?_take_of_lt hi, he]

theorem began (E : Explained cfg hs c gets l pos) (ha : (callsAlong hs c gets l pos).At a p) :
    a.invoked ≤ hs.length := by
  cases ha with
  | update ha =>
    obtain ⟨e, -, hw⟩ := of_update ha
    obtain ⟨i₀, m, _, _, _, hm, -, -, -, rfl⟩ := writerOf_some hw
    exact (List.getElem?_eq_some_iff.mp hm).1.le
  | query ha =>
    obtain ⟨g, hg, -, rfl⟩ := of_query ha
    obtain ⟨hlt, hlt', hle⟩ := (E.within g hg).order
    exact (hlt.trans hlt').le.trans hle

variable (E : Explained cfg hs c gets l pos) (h : Timeline cfg Consistent hs c)
include E h

theorem index (he : l[i]? = some e) : e.index = i + 1 := by
  obtain ⟨T, hT⟩ := E.mem_llog he
  obtain ⟨-, hidx, -⟩ := h.shadow.logged boundary_of_consistent
  exact (hidx T i e hT).trans (Nat.add_comm 1 i)

theorem explains : (callsAlong hs c gets l pos).Explains store fun i => replay (l.take i) where
  init := rfl
  update := by
    intro i a ha
    obtain ⟨e, he, hw⟩ := of_update ha
    obtain ⟨_, _, _, _, req, -, -, hreq, -, rfl⟩ := writerOf_some hw
    obtain ⟨hstate, hans⟩ := store_step hreq (replay (l.take i))
    refine ⟨by rw [hstate, replay_take_succ he], fun x hx => ?_⟩
    obtain ⟨t, -, rfl⟩ := Option.map_eq_some_iff.mp hx
    exact hans.symm
  skip := by
    intro i hnone
    cases he : l[i]? with
    | none =>
      have hle := List.getElem?_eq_none_iff.mp he
      rw [List.take_of_length_le hle, List.take_of_length_le (by omega)]
    | some e =>
      have hw : writerOf hs e = none := by
        rw [← hnone]
        simp [callsAlong, he]
      have hnoop : e.type = .noop := by
        by_contra hne
        obtain ⟨T, hT⟩ := E.mem_llog he
        obtain ⟨k, m, n, call, hm, hp⟩ := h.appended le_rfl (List.mem_of_getElem? hT) hne
        rw [h.writerOf_eq hm hp, writeAt_eq hm hp, Option.map_eq_none_iff] at hw
        unfold Entry.request? at hw
        split at hw <;> simp_all
      rw [replay_take_succ he, Node.applyEntry, hnoop]
  query := by
    intro i a ha
    obtain ⟨g, hg, rfl, rfl⟩ := of_query ha
    refine ⟨rfl, fun x hx => ?_⟩
    cases hx
    obtain ⟨l', hex, hval⟩ := E.found g hg
    have hex' := h.executed (E.within g hg).order.2.2 le_rfl hex
    show Answer.value _ = Answer.value _
    rw [hval, (E.longest hex').2]

/-- What has returned by some moment was settled by then. -/
theorem settled_of_returned (ha : (callsAlong hs c gets l pos).At a p) (hx : x ∈ a.returned) :
    x.1 ≤ hs.length ∧ ∃ t l' j, Settled (absAt cfg hs x.1) t l' j ∧ p ≤ 2 * j + 1 := by
  cases ha with
  | @update i ha =>
    obtain ⟨e, he, hw⟩ := of_update ha
    obtain ⟨i₀, m, n, call, req, hm, hp, -, -, rfl⟩ := writerOf_some hw
    obtain ⟨t, ht, rfl⟩ := Option.map_eq_some_iff.mp hx
    obtain ⟨k, m', e', hlt, rfl, hm', hev⟩ := returnedAfter_some ht
    obtain rfl := h.acked_entry hm hp hlt hm' hev
    obtain ⟨l', j, hj, -, hex⟩ := h.acked_executed hm' hev
    obtain ⟨t, hset⟩ := hex.settled
    obtain rfl : j = i := by have := E.index h he; omega
    exact ⟨(List.getElem?_eq_some_iff.mp hm').1, t, l', j + 1, hset, by omega⟩
  | @query i ha =>
    obtain ⟨g, hg, rfl, rfl⟩ := of_query ha
    cases hx
    obtain ⟨l', hex, -⟩ := E.found g hg
    obtain ⟨t, hset⟩ := hex.settled
    exact ⟨(E.within g hg).order.2.2, t, l', _, hset, le_rfl⟩

/-- What was settled when a call began lies before it. -/
theorem le_of_settled (ha : (callsAlong hs c gets l pos).At a p)
    (hset : Settled (absAt cfg hs a.invoked) t l' j) : 2 * j + 1 ≤ p := by
  cases ha with
  | @update i ha =>
    obtain ⟨e, he, hw⟩ := of_update ha
    obtain ⟨i₀, m, n, call, req, hm, hp, -, -, rfl⟩ := writerOf_some hw
    obtain ⟨t', hset'⟩ := E.log.settled
    have hi := (List.getElem?_eq_some_iff.mp he).1
    have := h.settled_lt hm hp hset (hset'.of_le hi) he (E.index h he)
    omega
  | @query i ha =>
    obtain ⟨g, hg, rfl, rfl⟩ := of_query ha
    have := h.applied_of_read (E.within g hg) hset
    have := E.applied g hg
    omega

theorem inTime (hone : gets.Pairwise fun g g' => g.invoked < g'.invoked) :
    (callsAlong hs c gets l pos).InTime where
  lasts := by
    intro a p ha x hx
    cases ha with
    | update ha =>
      obtain ⟨e, he, hw⟩ := of_update ha
      obtain ⟨i₀, m, n, call, req, hm, hp, -, -, rfl⟩ := writerOf_some hw
      obtain ⟨t, ht, rfl⟩ := Option.map_eq_some_iff.mp hx
      obtain ⟨k, m', e', hlt, rfl, -, -⟩ := returnedAfter_some ht
      exact hlt.trans (Nat.lt_succ_self k)
    | query ha =>
      obtain ⟨g, hg, rfl, rfl⟩ := of_query ha
      cases hx
      have := (E.within g hg).order
      exact this.1.trans this.2.1
  sorted := fun i => List.pairwise_map.mpr (hone.filter _)
  unique := by
    intro a p q ha ha'
    cases ha with
    | @update i ha =>
      obtain ⟨e, he, hw⟩ := of_update ha
      obtain ⟨i₀, m, n, call, req, hm, hp, hreq, -, rfl⟩ := writerOf_some hw
      cases ha' with
      | @update i' ha' =>
        obtain ⟨e', he', hw'⟩ := of_update ha'
        obtain ⟨i₁, m', n', call', req', hm', hp', -, -, heq⟩ := writerOf_some hw'
        -- one moment, one entry, one index
        obtain rfl : i₀ = i₁ := congrArg Operation.invoked heq
        rw [hm] at hm'
        cases hm'
        rw [hp] at hp'
        cases hp'
        have := E.index h he
        have := E.index h he'
        omega
      | query ha' =>
        obtain ⟨g, -, -, heq⟩ := of_query ha'
        exact (Entry.request?_ne_get hreq (congrArg Operation.input heq).symm).elim
    | @query i ha =>
      obtain ⟨g, hg, rfl, rfl⟩ := of_query ha
      cases ha' with
      | update ha' =>
        obtain ⟨e, he, hw⟩ := of_update ha'
        obtain ⟨i₀, m, n, call, req, hm, hp, hreq, -, heq⟩ := writerOf_some hw
        exact (Entry.request?_ne_get hreq (congrArg Operation.input heq).symm).elim
      | @query i' ha' =>
        obtain ⟨g', hg', rfl, heq⟩ := of_query ha'
        have heq : g'.invoked = g.invoked := congrArg Operation.invoked heq
        have hinj := List.pairwise_map.mpr (hone.imp Nat.ne_of_lt)
        rw [List.inj_on_of_nodup_map hinj hg hg' heq.symm]
  order := by
    rintro a b p q ha hb ⟨x, hx, hle⟩
    obtain ⟨-, t, l', j, hset, hp⟩ := E.settled_of_returned h ha hx
    exact hp.trans (E.le_of_settled h hb ((h.advances hle (E.began hb)).settled hset))

/-- Every call that has returned has a place. -/
theorem placed (ha : a ∈ history hs c gets) (hret : a.returned.isSome) :
    ∃ p ≤ 2 * l.length + 1, (callsAlong hs c gets l pos).At a p := by
  rcases ha with ⟨i, hw⟩ | ⟨g, hg, rfl⟩
  · obtain ⟨m, n, call, e, req, hm, hp, -, rfl⟩ := writeAt_some hw
    obtain ⟨t, ht⟩ := Option.isSome_iff_exists.mp (Option.isSome_map ▸ hret)
    obtain ⟨k, m', e', hlt, rfl, hm', hev⟩ := returnedAfter_some ht
    obtain rfl := h.acked_entry hm hp hlt hm' hev
    obtain ⟨l', j, -, he, hex⟩ := h.acked_executed hm' hev
    obtain ⟨hle, htake⟩ := E.longest
      (h.executed (Nat.succ_le_of_lt (List.getElem?_eq_some_iff.mp hm').1) le_rfl hex)
    have hel : l[j]? = some e' := by
      rw [← List.getElem?_take_of_lt (Nat.lt_succ_self j), ← htake,
        List.getElem?_take_of_lt (Nat.lt_succ_self j), he]
    refine ⟨2 * (j + 1), by omega, .update ?_⟩
    show l[j]?.bind (writerOf hs) = _
    rw [hel, Option.bind_some, h.writerOf_eq hm hp, hw]
  · obtain ⟨l', hex, -⟩ := E.found g hg
    have hle := (E.longest (h.executed (E.within g hg).order.2.2 le_rfl hex)).1
    refine ⟨2 * pos g + 1, by omega, .query (List.mem_map_of_mem ?_)⟩
    exact List.mem_filter.mpr ⟨hg, decide_eq_true rfl⟩

end Explained

/-- **The store is linearizable.** In every run that meets the conditions, the calls of `Put` and
`Delete` and any calls of `Get` are those of a single map, in an order that respects real time. -/
theorem calls_linearizable (h : Timeline cfg Consistent hs c) (hin : ∀ g ∈ gets, g.In hs c)
    (hone : gets.Pairwise fun g g' => g.invoked < g'.invoked) :
    store.Linearizable (history hs c gets) := by
  obtain ⟨l, pos, E⟩ := h.explained hin
  refine Layout.linearizable l.length (E.explains h) (E.inTime h hone) (fun ha => ?_)
    fun a ha hret => E.placed h ha hret
  cases ha with
  | update ha =>
    obtain ⟨e, -, hw⟩ := Explained.of_update ha
    obtain ⟨i, _, _, _, _, -, -, -, hwrite, -⟩ := writerOf_some hw
    exact .inl ⟨i, hwrite⟩
  | query ha =>
    obtain ⟨g, hg, -, ha⟩ := Explained.of_query ha
    exact .inr ⟨g, hg, ha⟩

/-- On `n1`, a `Put` that has returned, then a `Get` that has found its value, then a `Delete` that
has not returned. -/
theorem calls_linearizable_trio : ∃ hs c g, Timeline (trio 0) Consistent hs c ∧ g.In hs c ∧
    writeAt hs 6 = some ⟨6, .put "k" [7], some (15, .done)⟩ ∧
    g.operation hs c = ⟨15, .get "k", some (20, .value (some [7]))⟩ ∧
    writeAt hs 20 = some ⟨20, .delete "k", none⟩ ∧ store.Linearizable (history hs c [g]) := by
  let g : GetCall := ⟨"n1", "k", 15, 19, 20⟩
  have hx : ((Timeline.play (trio 0) Consistent [] Cluster.init
      (electBy "n1" 0 ++
        ([.drop 0, .act "n1" (.propose .put "k" [7] ""), .act "n1" (.replicate "n2"), .deliver 0,
          .deliver 0, .act "n1" .tryAdvanceCommitIndex, .act "n1" .applyBegin,
          .act "n1" .applyNext, .act "n1" .applyNext, .act "n1" (.proposeReturn 0),
          .act "n1" .linearizableRead, .act "n1" (.heartbeat 0 "n2"), .deliver 0, .deliver 0,
          .act "n1" (.waitForApplied 0), .act "n1" (.propose .delete "k" [] "")] :
            List Action))).any fun x => g.In x.1 x.2 ∧
      writeAt x.1 6 = some ⟨6, .put "k" [7], some (15, .done)⟩ ∧
      g.operation x.1 x.2 = ⟨15, .get "k", some (20, .value (some [7]))⟩ ∧
      writeAt x.1 20 = some ⟨20, .delete "k", none⟩) = true := by
    decide +kernel
  obtain ⟨⟨hs, c⟩, hp, hx⟩ := (Option.any_eq_true ..).mp hx
  obtain ⟨hg, hrest⟩ := of_decide_eq_true hx
  have h := Timeline.init.of_play hp
  exact ⟨hs, c, g, h, hg, hrest.1, hrest.2.1, hrest.2.2,
    calls_linearizable h (by simpa using hg) (List.pairwise_singleton ..)⟩

end DistributedKV.Raft
