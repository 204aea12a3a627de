import DistributedKV.Theory.Quorum
import Mathlib.Data.List.Infix
import Mathlib.Logic.Function.Basic

/-!
# Replicated logs with elected leaders

An abstract machine for protocols that replicate a log under the leaders of numbered terms. Each
node has a term and a log; each term has at most one leader, whose log during the term only
grows; a follower's log is replaced by prefixes of the log of its term's leader. There are no
messages: what a message carries is a prefix of a leader's log, and those never go away.

`State.apply` says what an operation does; which operations are admissible is said in two parts.
`Ballot` is about votes, and by itself gives at most one leader in a term (`BallotInv`).
`Replicates` is about logs, and gives that an entry determines everything before it (`LogInv`).
The part that makes entries survive elections is in `Theory.Completeness`.
-/

namespace DistributedKV.Theory

variable {N E : Type*}

/-! ## States and operations -/

structure State (N E : Type*) where
  term : N → ℕ
  /-- `voted n t c`: in term `t`, `n` has voted for `c`. -/
  voted : N → ℕ → N → Prop
  /-- `leads t n`: `n` was elected leader of `t`. -/
  leads : ℕ → N → Prop
  log : N → List E
  /-- The log of the leader of a term, as far as it got during the term. -/
  llog : ℕ → List E
  /-- `polled n t l`: `n` voted in `t`, before a leader of `t` was elected, when its log was
  `l`. -/
  polled : N → ℕ → List E → Prop
  /-- `acked n t i`: during `t`, `n` has held the first `i` entries of the leader's log. -/
  acked : N → ℕ → ℕ → Prop
  /-- `chosen t i`: the leader of `t` has declared its first `i` entries committed. -/
  chosen : ℕ → ℕ → Prop

inductive Op (N E : Type*) where
  | observe (n : N) (t : ℕ)
  | vote (n : N) (t : ℕ) (c : N)
  | elect (n : N) (t : ℕ)
  | append (n : N) (t : ℕ) (e : E)
  | adopt (n : N) (t m : ℕ)
  | ack (n : N) (t i : ℕ)
  | choose (t i : ℕ)

namespace State

def init : State N E where
  term := fun _ => 0
  voted := fun _ _ _ => False
  leads := fun _ _ => False
  log := fun _ => []
  llog := fun _ => []
  polled := fun _ _ _ => False
  acked := fun _ _ _ => False
  chosen := fun _ _ => False

variable [DecidableEq N]

def apply (r : State N E) : Op N E → State N E
  | .observe n t => { r with term := Function.update r.term n t }
  | .vote n t c =>
    { r with
      voted := fun n' t' c' => r.voted n' t' c' ∨ (n' = n ∧ t' = t ∧ c' = c)
      polled := fun n' t' l => r.polled n' t' l ∨
        (n' = n ∧ t' = t ∧ l = r.log n ∧ ∀ m, ¬r.leads t m) }
  | .elect n t =>
    { r with
      leads := fun t' n' => r.leads t' n' ∨ (t' = t ∧ n' = n)
      llog := Function.update r.llog t (r.log n) }
  | .append n t e =>
    { r with
      log := Function.update r.log n (r.log n ++ [e])
      llog := Function.update r.llog t (r.log n ++ [e]) }
  | .adopt n t m => { r with log := Function.update r.log n ((r.llog t).take m) }
  | .ack n t i => { r with acked := fun n' t' i' => r.acked n' t' i' ∨ (n' = n ∧ t' = t ∧ i' ≤ i) }
  | .choose t i => { r with chosen := fun t' i' => r.chosen t' i' ∨ (t' = t ∧ i' = i) }

@[simp] theorem apply_observe_self (r : State N E) (n : N) :
    r.apply (.observe n (r.term n)) = r := by simp [apply]

def applyAll (r : State N E) (ops : List (Op N E)) : State N E := ops.foldl apply r

@[simp] theorem applyAll_nil (r : State N E) : r.applyAll [] = r := rfl

@[simp] theorem applyAll_cons (r : State N E) (op : Op N E) (ops : List (Op N E)) :
    r.applyAll (op :: ops) = (r.apply op).applyAll ops := rfl

end State

/-- Every operation of a list is admissible where it is performed. -/
def Admits [DecidableEq N] (P : State N E → Op N E → Prop) :
    State N E → List (Op N E) → Prop
  | _, [] => True
  | r, op :: ops => P r op ∧ Admits P (r.apply op) ops

theorem Admits.preserves [DecidableEq N] {P : State N E → Op N E → Prop} {I : State N E → Prop}
    (hI : ∀ r op, I r → P r op → I (r.apply op)) {ops : List (Op N E)} {r : State N E}
    (ha : Admits P r ops) (h : I r) : I (r.applyAll ops) := by
  induction ops generalizing r with
  | nil => exact h
  | cons op ops ih => exact ih ha.2 (hI r op h ha.1)

theorem State.log_append [DecidableEq N] (r : State N E) (n m : N) (t : ℕ) (e : E) :
    r.log m <+: (r.apply (.append n t e)).log m := by
  show r.log m <+: Function.update r.log n (r.log n ++ [e]) m
  by_cases h : m = n
  · subst h; rw [Function.update_self]; exact List.prefix_append ..
  · rw [Function.update_of_ne h]

theorem State.leads_apply [DecidableEq N] {r : State N E} {op : Op N E} (h : r.leads t n) :
    (r.apply op).leads t n := by
  cases op with
  | elect => exact .inl h
  | _ => exact h

theorem State.leads_applyAll [DecidableEq N] {r : State N E} {ops : List (Op N E)}
    (h : r.leads t n) : (r.applyAll ops).leads t n := by
  induction ops generalizing r with
  | nil => exact h
  | cons op ops ih => exact ih (leads_apply h)

theorem State.chosen_applyAll [DecidableEq N] {r : State N E} {ops : List (Op N E)}
    (h : (r.applyAll ops).chosen t i) : r.chosen t i ∨ .choose t i ∈ ops := by
  induction ops generalizing r with
  | nil => exact .inl h
  | cons op ops ih =>
    rcases ih h with h | h
    · cases op with
      | choose t' i' =>
        rcases h with h | ⟨rfl, rfl⟩
        · exact .inl h
        · exact .inr List.mem_cons_self
      | _ => exact .inl h
    · exact .inr (List.mem_cons_of_mem _ h)

/-! ## Frames -/

/-- The operation is performed by `n`. -/
def Op.By (n : N) : Op N E → Prop
  | .observe m _ | .vote m _ _ | .elect m _ | .append m _ _ | .adopt m _ _ | .ack m _ _ => m = n
  | .choose _ _ => True

/-- `r'` comes from `r` by operations of `n`: what is recorded of other nodes is as it was, and
what was recorded of the past still is. -/
structure Frame (n : N) (r r' : State N E) : Prop where
  term : ∀ {m}, m ≠ n → r'.term m = r.term m
  log : ∀ {m}, m ≠ n → r'.log m = r.log m
  voted_iff : ∀ {m t c}, m ≠ n → (r'.voted m t c ↔ r.voted m t c)
  leads_iff : ∀ {m t}, m ≠ n → (r'.leads t m ↔ r.leads t m)
  voted : ∀ {m t c}, r.voted m t c → r'.voted m t c
  leads : ∀ {m t}, r.leads t m → r'.leads t m
  polled : ∀ {m t l}, r.polled m t l → r'.polled m t l
  acked : ∀ {m t i}, r.acked m t i → r'.acked m t i
  chosen : ∀ {t i}, r.chosen t i → r'.chosen t i

namespace Frame

variable {n : N} {r r' r'' : State N E}

theorem refl (n : N) (r : State N E) : Frame n r r :=
  ⟨fun _ => rfl, fun _ => rfl, fun _ => .rfl, fun _ => .rfl, id, id, id, id, id⟩

theorem trans (h : Frame n r r') (h' : Frame n r' r'') : Frame n r r'' where
  term hm := (h'.term hm).trans (h.term hm)
  log hm := (h'.log hm).trans (h.log hm)
  voted_iff hm := (h'.voted_iff hm).trans (h.voted_iff hm)
  leads_iff hm := (h'.leads_iff hm).trans (h.leads_iff hm)
  voted hv := h'.voted (h.voted hv)
  leads hv := h'.leads (h.leads hv)
  polled hv := h'.polled (h.polled hv)
  acked hv := h'.acked (h.acked hv)
  chosen hv := h'.chosen (h.chosen hv)

variable [DecidableEq N]

theorem apply {op : Op N E} (h : op.By n) : Frame n r (r.apply op) := by
  have base := refl n r
  cases op with
  | observe m t => cases h; exact { base with term := fun hm => Function.update_of_ne hm .. }
  | vote m t c =>
    cases h
    exact { base with
      voted_iff := fun hm => or_iff_left fun h' => hm h'.1
      voted := .inl
      polled := .inl }
  | elect m t =>
    cases h
    exact { base with
      leads_iff := fun hm => or_iff_left fun h' => hm h'.2
      leads := .inl }
  | append m t e => cases h; exact { base with log := fun hm => Function.update_of_ne hm .. }
  | adopt m t k => cases h; exact { base with log := fun hm => Function.update_of_ne hm .. }
  | ack m t i => exact { base with acked := .inl }
  | choose t i => exact { base with chosen := .inl }

theorem applyAll {ops : List (Op N E)} (h : ∀ op ∈ ops, op.By n) :
    Frame n r (r.applyAll ops) := by
  induction ops generalizing r with
  | nil => exact refl n r
  | cons op ops ih =>
    exact (apply (h op (by simp))).trans (ih fun op' h' => h op' (List.mem_cons_of_mem _ h'))

end Frame

/-! ## Votes -/

section Ballot
variable (Q : QuorumSystem N)

/-- Terms only grow, a node votes once in a term, and a leader has the votes of a quorum. -/
def Ballot (r : State N E) : Op N E → Prop
  | .observe n t => r.term n ≤ t
  | .vote n t c => r.term n = t ∧ ∀ c', r.voted n t c' → c' = c
  | .elect n t => r.term n = t ∧ Q.IsQuorum {v | r.voted v t n}
  | _ => True

structure BallotInv (r : State N E) : Prop where
  voted_le : ∀ {n t c}, r.voted n t c → t ≤ r.term n
  leads_le : ∀ {t n}, r.leads t n → t ≤ r.term n
  voted_unique : ∀ {n t c c'}, r.voted n t c → r.voted n t c' → c = c'
  quorum : ∀ {t n}, r.leads t n → Q.IsQuorum {v | r.voted v t n}

theorem BallotInv.init : BallotInv Q (State.init : State N E) :=
  ⟨fun h => h.elim, fun h => h.elim, fun h => h.elim, fun h => h.elim⟩

variable {Q} {r : State N E}

/-- **At most one leader in a term.** -/
theorem BallotInv.leads_unique (H : BallotInv Q r) (h : r.leads t n) (h' : r.leads t n') :
    n = n' := by
  obtain ⟨v, hv, hv'⟩ := Q.inter (H.quorum h) (H.quorum h')
  exact H.voted_unique hv hv'

/-- Nobody has led a later term than one that a quorum has not gone beyond. -/
theorem BallotInv.leads_le_quorum (H : BallotInv Q r) (hl : r.leads t n)
    (hq : Q.IsQuorum {v | r.term v ≤ T}) : t ≤ T := by
  obtain ⟨v, hv, hle⟩ := Q.inter (H.quorum hl) hq
  exact (H.voted_le hv).trans hle

variable [DecidableEq N]

theorem Ballot.term_le {op : Op N E} (ha : Ballot Q r op) (m : N) :
    r.term m ≤ (r.apply op).term m := by
  cases op with
  | observe n t =>
    simp only [State.apply, Function.update_apply]
    split
    · next h => subst h; exact ha
    · exact le_rfl
  | vote | elect | append | adopt | ack | choose => exact le_rfl

theorem Admits.term_le {ops : List (Op N E)} (ha : Admits (Ballot Q) r ops) (m : N) :
    r.term m ≤ (r.applyAll ops).term m :=
  ha.preserves (I := fun r' => r.term m ≤ r'.term m) (fun _ _ h hop => h.trans (hop.term_le m))
    le_rfl

theorem BallotInv.apply {op : Op N E} (H : BallotInv Q r) (ha : Ballot Q r op) :
    BallotInv Q (r.apply op) := by
  have hle := ha.term_le
  cases op with
  | observe n t =>
    exact ⟨fun hv => (H.voted_le hv).trans (hle _), fun hl => (H.leads_le hl).trans (hle _),
      H.voted_unique, H.quorum⟩
  | vote n t c =>
    refine ⟨?_, H.leads_le, ?_, fun hl => Q.mono (H.quorum hl) fun _ hv => .inl hv⟩
    · rintro m t' c' (hv | ⟨rfl, rfl, rfl⟩)
      · exact H.voted_le hv
      · exact ha.1.ge
    · rintro m t' c₁ c₂ (h₁ | ⟨rfl, rfl, rfl⟩) (h₂ | ⟨h₂n, h₂t, h₂c⟩)
      · exact H.voted_unique h₁ h₂
      · subst h₂n h₂t h₂c; exact ha.2 _ h₁
      · exact (ha.2 _ h₂).symm
      · exact h₂c.symm
  | elect n t =>
    refine ⟨H.voted_le, ?_, H.voted_unique, ?_⟩
    · rintro t' n' (hl | ⟨rfl, rfl⟩)
      · exact H.leads_le hl
      · exact ha.1.ge
    · rintro t' n' (hl | ⟨rfl, rfl⟩)
      · exact H.quorum hl
      · exact ha.2
  | append | adopt | ack | choose => exact ⟨H.voted_le, H.leads_le, H.voted_unique, H.quorum⟩

/-- The operation is about logs only: terms, votes and leaders stay. -/
def Op.OnLogs : Op N E → Prop
  | .observe .. | .vote .. | .elect .. => False
  | _ => True

theorem Op.OnLogs.admits {ops : List (Op N E)} (h : ∀ op ∈ ops, op.OnLogs) :
    Admits (Ballot Q) r ops ∧ (r.applyAll ops).term = r.term ∧
      (r.applyAll ops).voted = r.voted ∧ (r.applyAll ops).leads = r.leads := by
  induction ops generalizing r with
  | nil => exact ⟨trivial, rfl, rfl, rfl⟩
  | cons op ops ih =>
    obtain ⟨h₁, h₂, h₃, h₄⟩ := ih (r := r.apply op) fun op' h' => h op' (List.mem_cons_of_mem _ h')
    have hop := h op (by simp)
    cases op with
    | observe | vote | elect => exact hop.elim
    | append | adopt | ack | choose => exact ⟨⟨trivial, h₁⟩, h₂, h₃, h₄⟩

end Ballot

/-! ## Logs -/

/-- A list that is ordered by a reflexive relation, read at two places. -/
theorem pairwise_getElem? {α : Type*} {R : α → α → Prop} {l : List α} {i j : ℕ} {a b : α}
    (h : l.Pairwise R) (hrefl : ∀ a, R a a) (hij : i ≤ j) (ha : l[i]? = some a)
    (hb : l[j]? = some b) : R a b := by
  obtain ⟨hi, rfl⟩ := List.getElem?_eq_some_iff.mp ha
  obtain ⟨hj, rfl⟩ := List.getElem?_eq_some_iff.mp hb
  rcases hij.lt_or_eq with hlt | rfl
  · exact List.pairwise_iff_getElem.mp h i j hi hj hlt
  · exact hrefl _

section Logs
variable (termOf : E → ℕ)

/-- A log as the leaders made it: up to each of its entries it is a prefix of the log of the
leader of the entry's term, its terms do not decrease, and none exceeds `b`. -/
structure Lawful (llog : ℕ → List E) (b : ℕ) (l : List E) : Prop where
  coherent : ∀ {i e}, l[i]? = some e → l.take (i + 1) <+: llog (termOf e)
  sorted : l.Pairwise fun e e' => termOf e ≤ termOf e'
  bound : ∀ e ∈ l, termOf e ≤ b

/-- Only an elected leader appends, entries of its own term, to the log of its term; a follower
takes prefixes of the log of the leader of its current term. -/
def Replicates (r : State N E) : Op N E → Prop
  | .observe n t => r.term n ≤ t
  | .elect n t => r.term n = t ∧ 0 < t ∧ ∀ m, ¬r.leads t m
  | .append n t e => r.leads t n ∧ r.term n = t ∧ r.log n = r.llog t ∧ termOf e = t
  | .adopt n t _ => r.term n = t ∧ ∃ m, r.leads t m
  | _ => True

structure LogInv (r : State N E) : Prop where
  log : ∀ n, Lawful termOf r.llog (r.term n) (r.log n)
  llog : ∀ t, Lawful termOf r.llog t (r.llog t)
  /-- Only a term with a leader has a leader's log. -/
  leads : ∀ {t}, r.llog t ≠ [] → ∃ n, r.leads t n
  pos : ∀ {t n}, r.leads t n → 0 < t

variable {termOf} {llog llog' : ℕ → List E} {b b' i : ℕ} {l l' : List E}

theorem exists_common (l l' : List E) : ∃ p s s', l = p ++ s ∧ l' = p ++ s' ∧
    ∀ e, s[0]? = some e → s'[0]? ≠ some e := by
  induction l generalizing l' with
  | nil => exact ⟨[], [], l', rfl, rfl, by simp⟩
  | cons x l ih =>
    cases l' with
    | nil => exact ⟨[], x :: l, [], rfl, rfl, by simp⟩
    | cons y l' =>
      rcases eq_or_ne x y with rfl | hxy
      · obtain ⟨p, s, s', rfl, rfl, hne⟩ := ih l'
        exact ⟨x :: p, s, s', rfl, rfl, hne⟩
      · exact ⟨[], x :: l, y :: l', rfl, rfl, by simpa using hxy.symm⟩

namespace Lawful

theorem nil : Lawful termOf llog b [] :=
  ⟨fun h => by simp at h, .nil, fun _ h => by simp at h⟩

theorem mono (h : Lawful termOf llog b l) (hb : b ≤ b') (hl : ∀ t, llog t <+: llog' t) :
    Lawful termOf llog' b' l :=
  ⟨fun he => (h.coherent he).trans (hl _), h.sorted, fun e he => (h.bound e he).trans hb⟩

theorem of_isPrefix (h : Lawful termOf llog b l) (hp : l' <+: l) : Lawful termOf llog b l' := by
  refine ⟨fun {i e} he => ?_, h.sorted.sublist hp.sublist, fun e he => h.bound e (hp.mem he)⟩
  obtain ⟨s, rfl⟩ := hp
  have hi : i < l'.length := (List.getElem?_eq_some_iff.mp he).1
  have hco := h.coherent (i := i) (e := e) (by rw [List.getElem?_append_left hi, he])
  rwa [List.take_append_of_le_length (by omega)] at hco

theorem take (h : Lawful termOf llog b l) (m : ℕ) : Lawful termOf llog b (l.take m) :=
  h.of_isPrefix (List.take_prefix m l)

/-- **Log matching**: logs with the same term at an index agree up to that index. -/
theorem agree (h : Lawful termOf llog b l) (h' : Lawful termOf llog b' l')
    (he : l[i]? = some e) (he' : l'[i]? = some e') (ht : termOf e = termOf e') :
    l.take (i + 1) = l'.take (i + 1) := by
  have hi : i < l.length := (List.getElem?_eq_some_iff.mp he).1
  have hi' : i < l'.length := (List.getElem?_eq_some_iff.mp he').1
  have hp := h.coherent he
  have hp' := h'.coherent he'
  rw [ht] at hp
  refine (List.prefix_of_prefix_length_le hp hp' ?_).eq_of_length ?_ <;> simp <;> omega

theorem getElem?_llog (h : Lawful termOf llog b l) (he : l[i]? = some e) (hj : j ≤ i) :
    (llog (termOf e))[j]? = l[j]? := by
  obtain ⟨s, hs⟩ := h.coherent he
  have hi : i < l.length := (List.getElem?_eq_some_iff.mp he).1
  rw [← hs, List.getElem?_append_left (by rw [List.length_take]; omega),
    List.getElem?_take_of_lt (by omega)]

/-- Two logs part for good: after what they have in common, they have no term in common. -/
theorem parted (h : Lawful termOf llog b l) (h' : Lawful termOf llog b' l') :
    ∃ p s s', l = p ++ s ∧ l' = p ++ s' ∧ ∀ e ∈ s, ∀ e' ∈ s', termOf e ≠ termOf e' := by
  obtain ⟨p, s, s', rfl, rfl, hne⟩ := exists_common l l'
  refine ⟨p, s, s', rfl, rfl, fun e he e' he' ht => ?_⟩
  obtain ⟨i, hi⟩ := List.mem_iff_getElem?.mp he
  obtain ⟨j, hj⟩ := List.mem_iff_getElem?.mp he'
  have h₁ := h.getElem?_llog (i := p.length + i) (j := p.length)
    (by rw [List.getElem?_append_right (by omega), Nat.add_sub_cancel_left, hi]) (by omega)
  have h₂ := h'.getElem?_llog (i := p.length + j) (j := p.length)
    (by rw [List.getElem?_append_right (by omega), Nat.add_sub_cancel_left, hj]) (by omega)
  rw [List.getElem?_append_right le_rfl, Nat.sub_self] at h₁ h₂
  obtain ⟨x, hx⟩ : ∃ x, s[0]? = some x :=
    ⟨_, List.getElem?_eq_getElem (List.length_pos_of_mem he)⟩
  exact hne x hx (h₂.symm.trans (ht ▸ h₁.trans hx))

/-- The term at an index bounds the terms before it. -/
theorem term_le (h : Lawful termOf llog b l) (hij : i ≤ j) (he : l[i]? = some e)
    (he' : l[j]? = some e') : termOf e ≤ termOf e' :=
  pairwise_getElem? (R := fun e e' => termOf e ≤ termOf e') h.sorted (fun _ => le_rfl) hij he he'

theorem snoc (h : Lawful termOf llog b l) (ht : b ≤ termOf e) (hb : termOf e ≤ b')
    (hl : ∀ t, llog t <+: llog' t) (hself : l ++ [e] <+: llog' (termOf e)) :
    Lawful termOf llog' b' (l ++ [e]) := by
  refine ⟨fun {i x} hx => ?_, ?_, ?_⟩
  · rcases lt_or_ge i l.length with hi | hi
    · rw [List.getElem?_append_left hi] at hx
      rw [List.take_append_of_le_length (by omega)]
      exact (h.coherent hx).trans (hl _)
    · obtain rfl : i = l.length := by
        have := (List.getElem?_eq_some_iff.mp hx).1
        simp at this; omega
      simp at hx; subst hx
      rwa [List.take_of_length_le (by simp)]
  · rw [List.pairwise_append]
    refine ⟨h.sorted, List.pairwise_singleton _ _, fun x hx y hy => ?_⟩
    cases List.mem_singleton.mp hy
    exact (h.bound x hx).trans ht
  · intro x hx
    rcases List.mem_append.mp hx with hx | hx
    · exact ((h.bound x hx).trans ht).trans hb
    · cases List.mem_singleton.mp hx; exact hb

end Lawful

namespace LogInv

variable {r : State N E}

theorem init : LogInv termOf (State.init : State N E) :=
  ⟨fun _ => .nil, fun _ => .nil, fun h => (h rfl).elim, fun h => h.elim⟩

/-- The entries of a log come from terms that had a leader. -/
theorem leads_of_mem (H : LogInv termOf r) (h : Lawful termOf r.llog b l) (he : e ∈ l) :
    ∃ n, r.leads (termOf e) n := by
  obtain ⟨i, hi⟩ := List.mem_iff_getElem?.mp he
  refine H.leads fun hnil => ?_
  have := h.coherent hi
  rw [hnil, List.prefix_nil, List.take_eq_nil_iff] at this
  rcases this with h0 | rfl
  · omega
  · simp at hi

/-- Before a leader of `t` is elected no log has an entry of `t`. -/
theorem lt_of_not_leads (H : LogInv termOf r) (h : Lawful termOf r.llog t l)
    (hn : ∀ m, ¬r.leads t m) (he : e ∈ l) : termOf e < t := by
  refine lt_of_le_of_ne (h.bound e he) fun heq => ?_
  obtain ⟨m, hm⟩ := H.leads_of_mem h he
  exact hn m (heq ▸ hm)

variable [DecidableEq N]

/-- The log of a term's leader only grows. -/
theorem llog_prefix {op : Op N E} (H : LogInv termOf r) (ha : Replicates termOf r op) (t : ℕ) :
    r.llog t <+: (r.apply op).llog t := by
  cases op with
  | elect n t' =>
    simp only [State.apply, Function.update_apply]
    split
    · next h =>
      subst h
      have : r.llog t = [] := by
        by_contra hne
        obtain ⟨m, hm⟩ := H.leads hne
        exact ha.2.2 m hm
      rw [this]; exact List.nil_prefix
    · exact List.prefix_refl _
  | append n t' e =>
    simp only [State.apply, Function.update_apply]
    split
    · next h => subst h; rw [ha.2.2.1]; exact List.prefix_append ..
    · exact List.prefix_refl _
  | _ => exact List.prefix_refl _

theorem term_le {op : Op N E} (ha : Replicates termOf r op) (n : N) :
    r.term n ≤ (r.apply op).term n := by
  cases op with
  | observe n' t =>
    simp only [State.apply, Function.update_apply]
    split
    · next h => subst h; exact ha
    · exact le_rfl
  | _ => exact le_rfl

theorem apply {op : Op N E} (H : LogInv termOf r) (ha : Replicates termOf r op) :
    LogInv termOf (r.apply op) := by
  have hl := H.llog_prefix ha
  have hlog : ∀ n, Lawful termOf (r.apply op).llog ((r.apply op).term n) (r.log n) :=
    fun n => (H.log n).mono (term_le ha n) hl
  have hllog : ∀ t, Lawful termOf (r.apply op).llog t (r.llog t) :=
    fun t => (H.llog t).mono le_rfl hl
  cases op with
  | elect n t =>
    refine ⟨hlog, fun t' => ?_, fun {t'} hne => ?_, ?_⟩
    · simp only [State.apply, Function.update_apply]
      split
      · next h => subst h; exact ha.1 ▸ hlog n
      · exact hllog t'
    · by_cases h : t' = t
      · exact ⟨n, .inr ⟨h, rfl⟩⟩
      · simp only [State.apply, Function.update_apply, if_neg h] at hne
        obtain ⟨m, hm⟩ := H.leads hne
        exact ⟨m, .inl hm⟩
    · rintro t' n' (h | ⟨rfl, rfl⟩)
      · exact H.pos h
      · exact ha.2.1
  | append n t e =>
    obtain ⟨hlead, hterm, hllogn, hte⟩ := ha
    have hnew : Lawful termOf (r.apply (.append n t e)).llog t (r.log n ++ [e]) :=
      (H.log n).snoc (hterm.trans hte.symm).le hte.le hl (by simp [State.apply, hte])
    refine ⟨fun m => ?_, fun t' => ?_, fun {t'} hne => ?_, H.pos⟩
    · show Lawful termOf _ (r.term m) (Function.update r.log n (r.log n ++ [e]) m)
      by_cases h : m = n
      · subst h; rw [Function.update_self, hterm]; exact hnew
      · rw [Function.update_of_ne h]; exact hlog m
    · show Lawful termOf _ t' (Function.update r.llog t (r.log n ++ [e]) t')
      by_cases h : t' = t
      · subst h; rw [Function.update_self]; exact hnew
      · rw [Function.update_of_ne h]; exact hllog t'
    · by_cases h : t' = t
      · exact ⟨n, h ▸ hlead⟩
      · simp only [State.apply, Function.update_apply, if_neg h] at hne
        exact H.leads hne
  | adopt n t m =>
    refine ⟨fun n' => ?_, hllog, H.leads, H.pos⟩
    show Lawful termOf _ (r.term n') (Function.update r.log n ((r.llog t).take m) n')
    by_cases h : n' = n
    · subst h; rw [Function.update_self, ha.1]; exact (hllog t).take m
    · rw [Function.update_of_ne h]; exact hlog n'
  | observe | vote | ack | choose => exact ⟨hlog, hllog, H.leads, H.pos⟩

/-- A node whose term has no leader keeps its log. -/
theorem log_eq {op : Op N E} (ha : Replicates termOf r op) (hno : ∀ m, ¬r.leads (r.term n) m) :
    (r.apply op).log n = r.log n := by
  cases op with
  | append n' t e =>
    refine Function.update_of_ne ?_ ..
    rintro rfl
    exact hno n (ha.2.1 ▸ ha.1)
  | adopt n' t m =>
    refine Function.update_of_ne ?_ ..
    rintro rfl
    obtain ⟨m, hm⟩ := ha.2
    exact hno m (ha.1 ▸ hm)
  | _ => rfl

/-- While `m` leads `t`, nobody else changes the log of the leader of `t`. -/
theorem llog_eq {op : Op N E} {Q : QuorumSystem N} (B : BallotInv Q r)
    (ha : Replicates termOf r op) (hby : op.By n) (hne : m ≠ n) (hl : r.leads t m) :
    (r.apply op).llog t = r.llog t := by
  cases op with
  | elect n' t' =>
    refine Function.update_of_ne ?_ ..
    rintro rfl
    exact ha.2.2 m hl
  | append n' t' e =>
    refine Function.update_of_ne ?_ ..
    rintro rfl
    cases hby
    exact hne (B.leads_unique hl ha.1)
  | _ => rfl

end LogInv

theorem LogInv.llog_prefix_applyAll [DecidableEq N] {r : State N E} {ops : List (Op N E)}
    (L : LogInv termOf r) (ha : Admits (Replicates termOf) r ops) (t : ℕ) :
    r.llog t <+: (r.applyAll ops).llog t := by
  induction ops generalizing r with
  | nil => exact List.prefix_refl _
  | cons op ops ih => exact (L.llog_prefix ha.1 t).trans (ih (L.apply ha.1) ha.2)

/-- Entries come into the logs of leaders by being appended. -/
theorem LogInv.mem_llog_applyAll [DecidableEq N] {r : State N E} {ops : List (Op N E)}
    (L : LogInv termOf r) (ha : Admits (Replicates termOf) r ops)
    (h : e ∈ (r.applyAll ops).llog t) :
    (∃ t', e ∈ r.llog t') ∨ ∃ n t', .append n t' e ∈ ops := by
  induction ops generalizing r with
  | nil => exact .inl ⟨t, h⟩
  | cons op ops ih =>
    -- a log has nothing that is not in the log of a leader
    have hlog {n} (he : e ∈ r.log n) : ∃ t', e ∈ r.llog t' := by
      obtain ⟨i, hi⟩ := List.mem_iff_getElem?.mp he
      refine ⟨termOf e, ((L.log n).coherent hi).mem ?_⟩
      exact List.mem_of_getElem? ((List.getElem?_take_of_lt (Nat.lt_succ_self i)).trans hi)
    rcases ih (L.apply ha.1) ha.2 h with ⟨t', h⟩ | ⟨n, t', h⟩
    · cases op with
      | elect n t'' =>
        simp only [State.apply, Function.update_apply] at h
        split at h
        · exact .inl (hlog h)
        · exact .inl ⟨t', h⟩
      | append n t'' x =>
        simp only [State.apply, Function.update_apply] at h
        split at h
        · rcases List.mem_append.mp h with h | h
          · exact .inl (hlog h)
          · cases List.mem_singleton.mp h
            exact .inr ⟨n, t'', List.mem_cons_self⟩
        · exact .inl ⟨t', h⟩
      | _ => exact .inl ⟨t', h⟩
    · exact .inr ⟨n, t', List.mem_cons_of_mem _ h⟩

/-- What admissible operations of `n` do to terms and to the logs of leaders. -/
structure Grows (n : N) (r r' : State N E) : Prop where
  term : ∀ m, r.term m ≤ r'.term m
  llog : ∀ t, r.llog t <+: r'.llog t
  leader : ∀ {t m}, m ≠ n → r.leads t m → r'.llog t = r.llog t

theorem LogInv.applyAll [DecidableEq N] {Q : QuorumSystem N} {r : State N E} {ops : List (Op N E)}
    (B : BallotInv Q r) (L : LogInv termOf r) (hb : Admits (Ballot Q) r ops)
    (ha : Admits (Replicates termOf) r ops) (hby : ∀ op ∈ ops, op.By n) :
    LogInv termOf (r.applyAll ops) ∧ Grows n r (r.applyAll ops) := by
  induction ops generalizing r with
  | nil => exact ⟨L, fun _ => le_rfl, fun _ => List.prefix_refl _, fun _ _ => rfl⟩
  | cons op ops ih =>
    obtain ⟨L', G⟩ := ih (B.apply hb.1) (L.apply ha.1) hb.2 ha.2
      fun op' h' => hby op' (List.mem_cons_of_mem _ h')
    refine ⟨L', fun m => (LogInv.term_le ha.1 m).trans (G.term m),
      fun t => (L.llog_prefix ha.1 t).trans (G.llog t), fun hne hl => ?_⟩
    exact (G.leader hne (State.leads_apply hl)).trans
      (LogInv.llog_eq B ha.1 (hby op (by simp)) hne hl)

end Logs

end DistributedKV.Theory
