import DistributedKV.Verify.Reads
import DistributedKV.Verify.Replay
import Mathlib.Algebra.Order.BigOperators.Group.List
import Mathlib.Algebra.Order.Group.Nat
import Mathlib.Data.Nat.Find

/-!
# What the state machines hold

Each node's state machine follows one sequence of entries, the one that `applied_agree` says the
nodes apply. A restart sets `lastApplied` back and not the state machine, and a snapshot may be of a
state that was ahead of its index for that reason; so a key holds what it held after some prefix of
the sequence that reaches `lastApplied`, and different keys may be at different prefixes
(`contents_executed`).
-/

namespace DistributedKV.Raft

open Theory (LogInv KeepInv Settled Advances)

/-! ## Conditions -/

/-- A sound step that does not put old entries before an overtaken apply loop. -/
def Steady (c : Cluster) (a : Action) : Prop := Sound c a ∧ OnAppend Node.NotStale c a

instance : Decidable (Steady c a) := inferInstanceAs (Decidable (_ ∧ _))

/-! ## Steps -/

namespace Node

variable {me : Member} {s s' : Node}

theorem applyOne_contents (me : Member) (s : Node) (i stop : ℕ) (e : Entry) :
    (s.applyOne me i stop e).sm = applyEntry s.sm e ∧
      ((s.applyOne me i stop e).snapStore = s.snapStore ∨
        ∃ t, (s.applyOne me i stop e).snapStore = some (⟨applyEntry s.sm e⟩, ⟨i, t⟩)) := by
  have hsm : (s.afterApply i stop e).sm = applyEntry s.sm e := by rw [afterApply_eq]
  have hstore : (s.afterApply i stop e).snapStore = s.snapStore := by rw [afterApply_eq]
  rcases applyOne_cases me s i stop e with heq | heq
  · rw [heq]
    exact ⟨hsm, .inl hstore⟩
  · refine ⟨by rw [heq, maybeSnapshot_eq]; exact hsm, ?_⟩
    rw [heq]
    unfold maybeSnapshot
    split
    · exact .inl hstore
    · split
      · exact .inl hstore
      · exact .inr ⟨_, by rw [hsm]⟩

/-- What an activity does to the state machine and the stored snapshot. -/
inductive Evolves (me : Member) (s : Node) (evs : List Event) (s' : Node) : Prop where
  | same : s.SameState s' → Evolves me s evs s'
  | apply : s.applying = some (i, stop) → i < stop → s.log.get (i + 1) = .ok e →
    .applied me.id (i + 1) e (s.woken (i + 1)) ∈ evs → s' = s.applyOne me (i + 1) stop e →
    Evolves me s evs s'
  | restart : s' = newNode s.log.engine s.sm s.snapStore (s.epoch + 1) → Evolves me s evs s'

theorem Acts.evolves (ha : s.Acts me a ef) : s.Evolves me ef.events ef.node := by
  cases ha with
  | lead _ _ _ hs => rw [hs]; exact .same ⟨rfl, rfl, rfl, rfl⟩
  | propose hs => obtain ⟨-, rfl⟩ := propose_ok hs; exact .same ⟨rfl, rfl, rfl, rfl⟩
  | tryAdvanceCommitIndex =>
    rw [advance, tryAdvanceCommitIndex_eq]
    exact .same ⟨rfl, rfl, rfl, rfl⟩
  | linearizableRead hs =>
    obtain ⟨-, rfl⟩ := linearizableRead_ok hs
    exact .same ⟨rfl, rfl, rfl, rfl⟩
  | waitForApplied => rw [waitForApplied_eq]; exact .same ⟨rfl, rfl, rfl, rfl⟩
  | applyNext hap =>
    unfold Node.applyNext
    split
    · exact .same ⟨rfl, rfl, rfl, rfl⟩
    · next hlt =>
      split
      · exact .same ⟨rfl, rfl, rfl, rfl⟩
      · next hg => exact .apply hap (not_le.mp hlt) hg (List.mem_singleton_self _) rfl
  | restart => exact .restart rfl
  | startElection | ask | dissolve | proposeReturn | proposeCancel | replicate | sendSnapshot
  | heartbeat | readReturn | readCancel | applyBegin => exact .same ⟨rfl, rfl, rfl, rfl⟩

/-- Of the messages only a snapshot changes them. -/
theorem Receives.contents (hrec : s.Receives me env ef) :
    s.SameState ef.node ∨ ∃ req snap, env.body = .snapReq req ∧
      unmarshalSnapshot req.data = some snap ∧ ef.node.sm = snap.pairs ∧
      ef.node.lastApplied = req.lastIncludedIndex ∧
      ef.node.snapStore = some (snap, ⟨req.lastIncludedIndex, req.lastIncludedTerm⟩) := by
  have meets {s₁ t} (hm : s.Meets s₁ t) : s.SameState s₁ := by
    rw [hm.eq]
    exact ⟨rfl, rfl, rfl, rfl⟩
  cases hrec.hears with
  | @voteReq req _ heq =>
    left
    rw [heq]
    by_cases hst : req.term < s.log.currentTerm
    · rw [handleRequestVote_stale hst]; exact .refl s
    · obtain ⟨s₁, hm, -, hs | ⟨-, -, hs⟩⟩ := handleRequestVote_spec (not_lt.mp hst) <;> rw [hs]
      · exact meets hm
      · exact ⟨(meets hm).sm, (meets hm).snapStore, (meets hm).orphanMeta, (meets hm).lastApplied⟩
  | @appendReq _ req _ heq =>
    left
    rw [heq]
    by_cases hst : req.term < s.log.currentTerm
    · rw [handleAppendEntries_stale hst]; exact .refl s
    · obtain ⟨s₁, hm, -, -, ⟨resp, -, -, hs⟩ | ⟨-, hs⟩⟩ :=
        handleAppendEntries_spec (not_lt.mp hst) <;> rw [hs]
      · exact meets hm
      · rw [followCommit_eq]
        exact ⟨(meets hm).sm, (meets hm).snapStore, (meets hm).orphanMeta, (meets hm).lastApplied⟩
  | @snapReq req hb heq =>
    rw [heq]
    by_cases hst : req.term < s.log.currentTerm
    · rw [handleInstallSnapshot_stale hst]; exact .inl (.refl s)
    · obtain ⟨s₁, hm, -, -, ⟨-, hs⟩ | ⟨snap, -, hdata, hs⟩⟩ :=
        handleInstallSnapshot_spec (not_lt.mp hst) <;> rw [hs]
      · exact .inl (meets hm)
      · exact .inr ⟨req, snap, hb, hdata, rfl, rfl, rfl⟩
  | follow heq => rw [heq, becomeFollower_eq]; exact .inl ⟨rfl, rfl, rfl, rfl⟩
  | note heq => rw [heq]; exact .inl ⟨rfl, rfl, rfl, rfl⟩

end Node

/-! ## Executed prefixes -/

/-- The index at which an entry was applied. -/
def Event.appliedAt : Event → ℕ
  | .applied _ i _ _ => i
  | _ => 0

/-- The first `j` entries of `l` are settled, and each has been applied by some node. -/
structure Executed (tr : List Event) (r : Abs) (l : List Entry) (j : ℕ) : Prop where
  settled : ∃ t, Settled r t l j
  applied : ∀ i < j, ∃ e m w, l[i]? = some e ∧ .applied m (i + 1) e w ∈ tr

namespace Executed

variable {cfg : Config} {tr : List Event} {r r' : Abs} {l l' : List Entry} {j : ℕ}

theorem zero : Executed tr r l 0 := ⟨⟨0, .zero⟩, nofun⟩

theorem mono (h : Executed tr r l j) (A : Advances r r') (evs : List Event) :
    Executed (tr ++ evs) r' l j := by
  obtain ⟨t, hset⟩ := h.settled
  refine ⟨⟨t, A.settled hset⟩, fun i hi => ?_⟩
  obtain ⟨e, m, w, he, hev⟩ := h.applied i hi
  exact ⟨e, m, w, he, List.mem_append_left _ hev⟩

/-- One more entry of a settled prefix is applied. -/
theorem succ (L : LogInv Entry.term r) (K : KeepInv Entry.term cfg.quorums r)
    (h : Executed tr r l' j) (hset : Settled r t l (j + 1)) (he : l[j]? = some e)
    (hev : .applied m (j + 1) e w ∈ tr) : Executed tr r l (j + 1) := by
  obtain ⟨t', hset'⟩ := h.settled
  have hagree := (hset.of_le (Nat.le_succ j)).agree L K hset'
  refine ⟨⟨t, hset⟩, fun i hi => ?_⟩
  rcases Nat.lt_succ_iff_lt_or_eq.mp hi with hlt | rfl
  · obtain ⟨e', m', w', he', hev'⟩ := h.applied i hlt
    refine ⟨e', m', w', ?_, hev'⟩
    rw [← List.getElem?_take_of_lt hlt, hagree, List.getElem?_take_of_lt hlt, he']
  · exact ⟨e, m, w, he, hev⟩

end Executed

/-- Each key holds what it held after some executed prefix that reaches `i`. -/
structure Reflects (tr : List Event) (r : Abs) (i : ℕ) (sm : String → Option Value) : Prop where
  reached : ∃ l, Executed tr r l i
  key : ∀ k, ∃ l j, i ≤ j ∧ Executed tr r l j ∧ sm k = replay (l.take j) k

namespace Reflects

variable {cfg : Config} {tr : List Event} {r r' : Abs} {i j : ℕ} {l : List Entry}
  {sm : String → Option Value}

theorem mono (h : Reflects tr r i sm) (A : Advances r r') (evs : List Event) :
    Reflects (tr ++ evs) r' i sm := by
  obtain ⟨l, hl⟩ := h.reached
  refine ⟨⟨l, hl.mono A evs⟩, fun k => ?_⟩
  obtain ⟨l, j, hij, hex, hk⟩ := h.key k
  exact ⟨l, j, hij, hex.mono A evs, hk⟩

theorem restart (h : Reflects tr r i sm) : Reflects tr r 0 sm := by
  refine ⟨⟨[], .zero⟩, fun k => ?_⟩
  obtain ⟨l, j, -, h⟩ := h.key k
  exact ⟨l, j, Nat.zero_le j, h⟩

/-- The entry at `i + 1` is applied, for the first time or again. -/
theorem apply (L : LogInv Entry.term r) (K : KeepInv Entry.term cfg.quorums r)
    (h : Reflects tr r i sm) (hset : Settled r t l (i + 1)) (he : l[i]? = some e)
    (hev : .applied m (i + 1) e w ∈ tr) : Reflects tr r (i + 1) (Node.applyEntry sm e) := by
  obtain ⟨l₀, h₀⟩ := h.reached
  have hnew : Executed tr r l (i + 1) := h₀.succ L K hset he hev
  refine ⟨⟨l, hnew⟩, fun k => ?_⟩
  have hval := congrFun (replay_take_succ he) k
  obtain ⟨l', j, hij, hex, hk⟩ := h.key k
  rcases Node.applyEntry_key e k with hsets | hkeeps
  · exact ⟨l, i + 1, le_rfl, hnew, by rw [hval]; exact hsets ..⟩
  · rcases hij.eq_or_lt with rfl | hlt
    · -- the two prefixes of length `i` are one
      obtain ⟨t', hset'⟩ := hex.settled
      rw [← (hset.of_le (Nat.le_succ i)).agree L K hset'] at hk
      exact ⟨l, i + 1, le_rfl, hnew, by rw [hval, hkeeps, hkeeps, hk]⟩
    · exact ⟨l', j, hlt, hex, by rw [hkeeps, hk]⟩

end Reflects

/-! ## The invariant -/

structure Stocked (tr : List Event) (r : Abs) (s : Node) : Prop where
  state : Reflects tr r s.lastApplied s.sm
  store : ∀ st ∈ s.snapStore, Reflects tr r st.2.lastIncludedIndex st.1.pairs

def StockedMsg (tr : List Event) (r : Abs) (env : Envelope) : Prop :=
  ∀ {req snap}, env.body = .snapReq req → unmarshalSnapshot req.data = some snap →
    Reflects tr r req.lastIncludedIndex snap.pairs

def stocked (tr : List Event) : LocalInv := ⟨fun r _ s => Stocked tr r s, StockedMsg tr⟩

namespace Stocked

variable {cfg : Config} {tr : List Event} {r r' : Abs} {s s' : Node}

theorem mono (h : Stocked tr r s) (A : Advances r r') (evs : List Event) :
    Stocked (tr ++ evs) r' s :=
  ⟨h.state.mono A evs, fun st hst => (h.store st hst).mono A evs⟩

theorem same (h : Stocked tr r s) (hs : s.SameState s') : Stocked tr r s' := by
  refine ⟨?_, ?_⟩
  · rw [hs.sm, hs.lastApplied]; exact h.state
  · rw [hs.snapStore]; exact h.store

theorem act (L : LogInv Entry.term r) (K : KeepInv Entry.term cfg.quorums r)
    (h : Stocked tr r s) (hidx : s.Indices) (hsafe : Safe r n s) (G : Logged r n s)
    (hsub : evs ⊆ tr) (hev : s.Evolves me evs s') : Stocked tr r s' := by
  cases hev with
  | same hs => exact h.same hs
  | @apply i stop e hap hlt hg hmem heq =>
    have hi := hidx.eq_of_get hap hlt hg
    have hle : i + 1 ≤ s.commitIndex := (Nat.succ_le_of_lt hlt).trans (hidx.loop hap).2
    have hnew := (hi ▸ h.state : Reflects tr r i s.sm).apply L K (hsafe.of_le hle)
      (G.rep.get_ok hg) (hsub hmem)
    obtain ⟨hsm, hstore⟩ := Node.applyOne_contents me s (i + 1) stop e
    rw [heq]
    refine ⟨?_, fun st hst => ?_⟩
    · rw [hsm, (Node.applyOne_spec ..).1]
      exact hnew
    · rcases hstore with hstore | ⟨t, hstore⟩ <;> rw [hstore] at hst
      · exact h.store st hst
      · cases hst
        exact hnew
  | restart heq =>
    rw [heq]
    refine ⟨?_, h.store⟩
    unfold newNode
    cases hstore : s.snapStore with
    | none => exact h.state.restart
    | some st => exact h.store st hstore

theorem receive (h : Stocked tr r s) (hmsg : StockedMsg tr r env) (hrec : s.Receives me env ef) :
    Stocked tr r ef.node := by
  rcases hrec.contents with hs | ⟨req, snap, hb, hdata, hsm, hla, hstore⟩
  · exact h.same hs
  · have hnew := hmsg hb hdata
    refine ⟨by rw [hsm, hla]; exact hnew, fun st hst => ?_⟩
    rw [hstore] at hst
    cases hst
    exact hnew

/-- A snapshot is sent as it is stored. -/
theorem msgs (h : Stocked tr r s) (ha : s.Acts me a ef) : ∀ env ∈ ef.msgs, StockedMsg tr r env := by
  intro env henv req snap hb hdata
  cases ha.emits henv with
  | voteReq | appendReq | heartbeat => cases hb
  | snapReq hp hreq =>
    cases hb
    have hs : Node.SendsSnapshot .. := Node.replicateToPeer_spec hreq
    obtain ⟨snap', hst, hmar⟩ := hs.snap
    rw [hmar] at hdata
    cases hdata
    exact h.store _ hst

end Stocked

section
variable {ok : Cluster → Action → Prop} (hok : ∀ {c a}, ok c a → Steady c a)
include hok

theorem sound_of_steady (h : ok c a) : Sound c a := (hok h).1

theorem Shadow.stocked (h : Shadow cfg ok tr c r) : (stocked tr).Holds c r := by
  induction h with
  | init =>
    refine ⟨fun n => ⟨⟨⟨[], .zero⟩, fun k => ⟨[], 0, le_rfl, .zero, rfl⟩⟩, nofun⟩, ?_⟩
    simp [Cluster.init]
  | @step tr c r a c' evs hsh hoka hs H =>
    have hloss {c a} (h : ok c a) := lossless_of_sound (sound_of_steady hok) h
    have hsh' := hsh.step hoka hs
    have A := hsh.advances hloss hoka hs
    -- nodes and messages as they were, under the new trace
    have H₀ : (Raft.stocked (tr ++ evs)).Holds c r := by
      have A₀ : Advances r r := ⟨fun _ => le_rfl, fun _ => List.prefix_refl _, id⟩
      exact ⟨fun n => (H.node n).mono A₀ evs, fun env henv _ _ hb hd =>
        (H.msg env henv hb hd).mono A₀ evs⟩
    have advance {s} (h : Stocked (tr ++ evs) r s) :
        Stocked (tr ++ evs) (r.applyAll (c.ops cfg a)) s := by
      simpa using h.mono A []
    have advanceMsg {env} (h : StockedMsg (tr ++ evs) r env) :
        StockedMsg (tr ++ evs) (r.applyAll (c.ops cfg a)) env := fun hb hd => by
      simpa using (h hb hd).mono A []
    cases Cluster.step_inv hs with
    | @act n a ef hn ha =>
      obtain ⟨L, -, G⟩ := hsh.logged (checksBoundary_of_lossless hloss)
      refine H₀.after (List.Subset.refl _) (advance ?_) (fun env henv => advanceMsg ?_)
        (fun _ _ h => advance h) fun _ _ h => advanceMsg h
      · exact (H₀.node n).act L (hsh.backing hloss).1
          (hsh.indices_of_sound (sound_of_steady hok) (fun h => (hok h).2) n)
          ((hsh.safe (sound_of_steady hok)).node n) (G.node n) (List.subset_append_right ..)
          ha.evolves
      · exact (H₀.node n).msgs ha env henv
    | @deliver k env ef henv hef hrec =>
      refine H₀.after (List.eraseIdx_subset ..) (advance ?_) (fun env' henv' => ?_)
        (fun _ _ h => advance h) fun _ _ h => advanceMsg h
      · exact (H₀.node env.dst).receive (H₀.msg env (List.mem_of_getElem? henv)) hrec
      · intro req snap hb
        cases hrec.replies henv' with
        | voteReq | appendReq | snapReq => cases hb
    | drop => exact (show (Raft.stocked (tr ++ [])).Holds _ r from H₀.drop _)

/-- The entries that have been applied are one sequence. -/
theorem Shadow.sequence (h : Shadow cfg ok tr c r) : ∃ l, Executed tr r l l.length ∧
    ∀ {l' j}, Executed tr r l' j → j ≤ l.length ∧ l'.take j = l.take j := by
  have hloss {c a} (h : ok c a) := lossless_of_sound (sound_of_steady hok) h
  obtain ⟨L, -, -⟩ := h.logged (checksBoundary_of_lossless hloss)
  obtain ⟨K, -⟩ := h.backing hloss
  -- an executed prefix goes no further than the indices of the trace
  have hbound {l j} (hl : Executed tr r l j) : j ≤ (tr.map Event.appliedAt).sum := by
    rcases Nat.eq_zero_or_pos j with rfl | hpos
    · exact Nat.zero_le _
    · obtain ⟨e, m, w, -, hev⟩ := hl.applied (j - 1) (by omega)
      have hle := List.le_sum_of_mem (List.mem_map_of_mem (f := Event.appliedAt) hev)
      exact (show j - 1 + 1 ≤ _ from hle).trans' (by omega)
  classical
  set N := Nat.findGreatest (fun j => ∃ l, Executed tr r l j) (tr.map Event.appliedAt).sum with hN
  obtain ⟨l, hl⟩ : ∃ l, Executed tr r l N :=
    Nat.findGreatest_spec (P := fun j => ∃ l, Executed tr r l j) (Nat.zero_le _) ⟨[], .zero⟩
  have hmax {l' j} (h' : Executed tr r l' j) : j ≤ N := Nat.le_findGreatest (hbound h') ⟨l', h'⟩
  obtain ⟨t, hset⟩ := hl.settled
  have hlen : (l.take N).length = N := by rw [List.length_take, Nat.min_eq_left hset.1]
  refine ⟨l.take N, ⟨⟨t, hlen.symm ▸ hset.take le_rfl⟩, fun i hi => ?_⟩, fun {l' j} h' => ?_⟩
  · rw [hlen] at hi
    rw [List.getElem?_take_of_lt hi]
    exact hl.applied i hi
  · obtain ⟨t', hset'⟩ := h'.settled
    refine ⟨hlen.symm ▸ hmax h', ?_⟩
    rw [List.take_take, Nat.min_eq_left (hmax h')]
    exact hset'.agree L K (hset.of_le (hmax h'))

/-- What has been applied is in the sequence. -/
theorem Shadow.executed (h : Shadow cfg ok tr c r) (hev : Event.applied n i e w ∈ tr) :
    ∃ l j, i = j + 1 ∧ Executed tr r l i ∧ l[j]? = some e := by
  induction h with
  | init => cases hev
  | @step tr c r a c' evs hsh hoka hs ih =>
    have hloss {c a} (h : ok c a) := lossless_of_sound (sound_of_steady hok) h
    rcases List.mem_append.mp hev with hold | hnew
    · obtain ⟨l, j, hi, hex, he⟩ := ih hold
      exact ⟨l, j, hi, hex.mono (hsh.advances hloss hoka hs) evs, he⟩
    · obtain ⟨m, b, -, -, hid, -, j, stop, rfl, -, -, -, hs'⟩ := Cluster.step_causes hs hnew
      have hsh' := hsh.step hoka hs
      -- the node has just got there
      obtain ⟨l, hex⟩ := ((hsh'.stocked hok).node m).state.reached
      rw [hs', (Node.applyOne_spec ..).1] at hex
      refine ⟨l, j, rfl, hex, ?_⟩
      obtain ⟨e', m', w', he', hev'⟩ := hex.applied j (Nat.lt_succ_self j)
      obtain ⟨t₁, l₁, hset₁, -, h₁⟩ := hsh'.applied (sound_of_steady hok) hev
      obtain ⟨t₂, l₂, hset₂, -, h₂⟩ := hsh'.applied (sound_of_steady hok) hev'
      obtain ⟨L, -, -⟩ := hsh'.logged (checksBoundary_of_lossless hloss)
      have hagree := congrArg (·[j]?) (hset₁.agree L (hsh'.backing hloss).1 hset₂)
      rw [Nat.add_sub_cancel] at h₁ h₂
      simp only [List.getElem?_take_of_lt (Nat.lt_succ_self j), h₁, h₂] at hagree
      rw [he', hagree]

end

/-- **The replicas hold one sequence of entries.** There is a sequence that consists of the entries
the nodes have applied, each at its index, and every key of every state machine holds what it held
after some prefix of the sequence that reaches `lastApplied`, whatever crashes, restarts and
snapshots there have been. -/
theorem contents_executed (h : Run cfg Steady tr c) :
    ∃ l : List Entry, (∀ i e, (∃ m w, .applied m (i + 1) e w ∈ tr) ↔ l[i]? = some e) ∧
      ∀ n k, ∃ j, (c.node n).lastApplied ≤ j ∧ j ≤ l.length ∧
        (c.node n).sm k = replay (l.take j) k := by
  obtain ⟨r, h⟩ := h.shadow
  obtain ⟨l, hl, hmax⟩ := h.sequence id
  refine ⟨l, fun i e => ⟨?_, fun he => ?_⟩, fun n k => ?_⟩
  · rintro ⟨m, w, hev⟩
    obtain ⟨l', j, hj, hex, he⟩ := h.executed id hev
    cases hj
    rw [← List.getElem?_take_of_lt (Nat.lt_succ_self i), ← (hmax hex).2,
      List.getElem?_take_of_lt (Nat.lt_succ_self i), he]
  · obtain ⟨e', m, w, he', hev⟩ := hl.applied i (List.getElem?_eq_some_iff.mp he).1
    rw [he] at he'
    cases he'
    exact ⟨m, w, hev⟩
  · obtain ⟨l', j, hle, hex, hk⟩ := ((h.stocked id).node n).state.key k
    exact ⟨j, hle, (hmax hex).1, by rw [hk, (hmax hex).2]⟩

/-- `n1` has applied a write and restarts: it is back at index 0, and still holds the value. -/
theorem contents_executed_restart : ∃ tr c, Run (trio 0) Steady tr c ∧
    (c.node "n1").lastApplied = 0 ∧ (c.node "n1").sm "k" = some [7] ∧
    ∃ l : List Entry, (∀ i e, (∃ m w, .applied m (i + 1) e w ∈ tr) ↔ l[i]? = some e) ∧
      ∀ n k, ∃ j, (c.node n).lastApplied ≤ j ∧ j ≤ l.length ∧
        (c.node n).sm k = replay (l.take j) k := by
  have hx : Cluster.init.Reaches (trio 0) Steady []
      (electBy "n1" 0 ++
        ([.drop 0, .act "n1" (.propose .put "k" [7] ""), .act "n1" (.replicate "n2"), .deliver 0,
          .deliver 0, .act "n1" .tryAdvanceCommitIndex, .act "n1" .applyBegin,
          .act "n1" .applyNext, .act "n1" .applyNext, .act "n1" .restart] : List Action))
      fun c _ => (c.node "n1").lastApplied = 0 ∧ (c.node "n1").sm "k" = some [7] := by
    decide +kernel
  obtain ⟨c, tr, h, hla, hsm⟩ := hx.run
  exact ⟨tr, c, h, hla, hsm, contents_executed h⟩

end DistributedKV.Raft
