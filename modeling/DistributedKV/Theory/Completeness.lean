import DistributedKV.Theory.Replica

/-!
# Committed entries survive elections

Operations are admissible in the sense of `Keeps` when no node loses what it has acknowledged:
a follower whose log is replaced loses nothing but what conflicts with the leader's log
(`NoLoss`), and a leader is elected by nodes whose logs were no more up to date than its own.

The invariant (`KeepInv`) mentions neither quorums of acknowledgements nor commits. It says of a
node that acknowledged a prefix of some leader's log that it still has it, *provided* the leaders
it may have followed since have it too. The proviso is discharged by induction over the terms in
`leader_completeness`: a prefix that a quorum acknowledged is in the log of every later leader.
-/

namespace DistributedKV.Theory

variable {N E : Type*} (termOf : E → ℕ) (Q : QuorumSystem N)

/-- The term of the last entry, zero for an empty log. -/
def lastTerm (l : List E) : ℕ := l.getLast?.elim 0 termOf

/-- `b` is at least as up to date as `l`. -/
def UpToDate (l b : List E) : Prop :=
  lastTerm termOf l < lastTerm termOf b ∨
    (lastTerm termOf l = lastTerm termOf b ∧ l.length ≤ b.length)

/-- `l'` may replace `l`: it is no shorter, or they conflict in the term at some index. -/
def NoLoss (l l' : List E) : Prop :=
  l.length ≤ l'.length ∨
    ∃ (i : ℕ) (e e' : E), l[i]? = some e ∧ l'[i]? = some e' ∧ termOf e ≠ termOf e'

/-- A quorum acknowledged the first `i` entries of the log of the leader of `t`, the last of
which is of term `t` itself. -/
def Choosable (r : State N E) (t i : ℕ) : Prop :=
  (∃ j e, i = j + 1 ∧ (r.llog t)[j]? = some e ∧ termOf e = t) ∧
    Q.IsQuorum {v | r.acked v t i}

def Keeps (r : State N E) : Op N E → Prop
  | .vote n t _ => r.term n = t
  | .elect n t => Q.IsQuorum {v | ∃ l, r.polled v t l ∧ UpToDate termOf l (r.log n)}
  | .adopt n t m => NoLoss termOf (r.log n) ((r.llog t).take m)
  | .ack n t i => r.term n = t ∧ (∃ m, r.leads t m) ∧ i ≤ (r.llog t).length ∧
      (r.llog t).take i <+: r.log n
  | .choose t i => Choosable termOf Q r t i
  | _ => True

/-- The first `i` entries of the log of the leader of `T` are in the logs of the leaders of the
terms after `T` up to `t`. -/
def Inherits (r : State N E) (T i t : ℕ) : Prop :=
  ∀ T', T < T' → T' ≤ t → (∃ m, r.leads T' m) → (r.llog T).take i <+: r.llog T'

structure KeepInv (r : State N E) : Prop where
  acked_le : ∀ {n T i}, r.acked n T i → T ≤ r.term n
  acked_mono : ∀ {n T i i'}, r.acked n T i → i' ≤ i → r.acked n T i'
  acked_length : ∀ {n T i}, r.acked n T i → i ≤ (r.llog T).length
  acked_leads : ∀ {n T i}, r.acked n T i → ∃ m, r.leads T m
  kept : ∀ {n T i}, r.acked n T i → Inherits r T i (r.term n) →
    (r.llog T).take i <+: r.log n
  polled_le : ∀ {n t l}, r.polled n t l → t ≤ r.term n
  polled_lawful : ∀ {n t l}, r.polled n t l → Lawful termOf r.llog t l
  polled_kept : ∀ {n t l T i}, r.polled n t l → r.acked n T i → T < t →
    Inherits r T i (t - 1) → (r.llog T).take i <+: l
  /-- What elected the leader of `t`: logs no more up to date than its own was then. -/
  elected : ∀ {t n}, r.leads t n → ∃ b, b <+: r.llog t ∧ (∀ e ∈ b, termOf e < t) ∧
    Q.IsQuorum {v | ∃ l, r.polled v t l ∧ UpToDate termOf l b}
  chosen : ∀ {t i}, r.chosen t i → Choosable termOf Q r t i

variable {termOf Q} {r : State N E} {llog : ℕ → List E} {l l' P : List E} {T t i b : ℕ}

theorem NoLoss.keeps (h : NoLoss termOf l (l'.take m)) (hP : P <+: l) (hP' : P <+: l') :
    P <+: l'.take m := by
  refine List.prefix_of_prefix_length_le hP' (List.take_prefix m l') ?_
  rcases h with h | ⟨i, e, e', he, he', hne⟩
  · exact hP.length_le.trans h
  -- a conflict lies beyond what the two have in common
  · by_contra hlt
    have hi' := (List.getElem?_eq_some_iff.mp he').1
    obtain ⟨s, rfl⟩ := hP
    obtain ⟨s', rfl⟩ := hP'
    have hi : i < P.length := by omega
    rw [List.getElem?_take_of_lt (by simp at hi'; omega), List.getElem?_append_left hi] at he'
    rw [List.getElem?_append_left hi, he', Option.some.injEq] at he
    exact hne (congrArg termOf he.symm)

theorem Lawful.le_lastTerm (h : Lawful termOf llog b l) (he : e ∈ l) :
    termOf e ≤ lastTerm termOf l := by
  obtain ⟨i, hi⟩ := List.mem_iff_getElem?.mp he
  have hlt := (List.getElem?_eq_some_iff.mp hi).1
  have hlast : l[l.length - 1]? = l.getLast? := List.getLast?_eq_getElem?.symm
  cases hl : l.getLast? with
  | none => simp [List.getLast?_eq_none_iff.mp hl] at he
  | some x =>
    simp only [lastTerm, hl, Option.elim_some]
    exact h.term_le (by omega : i ≤ l.length - 1) hi (hlast.trans hl)

/-- A lawful log is a prefix of the log of the leader of its last term. -/
theorem Lawful.prefix_lastTerm (h : Lawful termOf llog b l) :
    l = [] ∨ l <+: llog (lastTerm termOf l) := by
  rcases l.eq_nil_or_concat' with rfl | ⟨s, x, rfl⟩
  · exact .inl rfl
  · right
    have := h.coherent (i := s.length) (e := x) (by simp)
    rw [List.take_of_length_le (by simp)] at this
    simpa [lastTerm] using this

/-! ## Preservation -/

theorem KeepInv.init : KeepInv termOf Q (State.init : State N E) :=
  ⟨fun h => h.elim, fun h => h.elim, fun h => h.elim, fun h => h.elim, fun h => h.elim,
    fun h => h.elim, fun h => h.elim, fun h => h.elim, fun h => h.elim, fun h => h.elim⟩

section
variable [DecidableEq N] {op : Op N E}

theorem LogInv.take_llog (H : LogInv termOf r) (ha : Replicates termOf r op)
    (hi : i ≤ (r.llog T).length) : ((r.apply op).llog T).take i = (r.llog T).take i := by
  obtain ⟨s, hs⟩ := H.llog_prefix ha T
  rw [← hs, List.take_append_of_le_length hi]

/-- A leader of `T'` cannot have completed a prefix from an earlier term by what it appended. -/
theorem prefix_of_apply (ha : Replicates termOf r op)
    (hP : P <+: (r.apply op).llog t) (hb : ∀ e ∈ P, termOf e < t) (hl : r.leads t m) :
    P <+: r.llog t := by
  cases op with
  | elect n t' =>
    simp only [State.apply, Function.update_apply] at hP
    split at hP
    · next h => subst h; exact (ha.2.2 m hl).elim
    · exact hP
  | append n t' e =>
    simp only [State.apply, Function.update_apply] at hP
    split at hP
    · next h =>
      subst h
      rw [ha.2.2.1, List.prefix_concat_iff] at hP
      rcases hP with rfl | hP
      · have := hb e (by simp)
        rw [ha.2.2.2] at this; omega
      · exact hP
    · exact hP
  | _ => exact hP

theorem Inherits.of_apply (H : LogInv termOf r) (ha : Replicates termOf r op)
    (hi : i ≤ (r.llog T).length) (h : Inherits (r.apply op) T i t) (hle : t' ≤ t) :
    Inherits r T i t' := by
  rintro T' hT hT' ⟨m, hm⟩
  have hP := h T' hT (hT'.trans hle) ⟨m, State.leads_apply hm⟩
  rw [H.take_llog ha hi] at hP
  refine prefix_of_apply ha hP (fun e he => ?_) hm
  exact ((H.llog T).bound e (List.mem_of_mem_take he)).trans_lt hT

theorem Choosable.apply (H : LogInv termOf r) (ha : Replicates termOf r op)
    (h : Choosable termOf Q r t i) : Choosable termOf Q (r.apply op) t i := by
  obtain ⟨⟨j, e, rfl, he, het⟩, hq⟩ := h
  refine ⟨⟨j, e, rfl, ?_, het⟩, Q.mono hq ?_⟩
  · obtain ⟨s, hs⟩ := H.llog_prefix ha t
    rw [← hs, List.getElem?_append_left (List.getElem?_eq_some_iff.mp he).1, he]
  · intro v (hv : r.acked v t (j + 1))
    cases op with
    | ack => exact .inl hv
    | _ => exact hv

namespace KeepInv

variable (L : LogInv termOf r) (ha : Replicates termOf r op) (hk : Keeps termOf Q r op)
  (H : KeepInv termOf Q r)
include L ha H

/-- What an acknowledgement kept before the operation it keeps in the log from before it. -/
theorem kept_before (hv : r.acked n T i) (hin : Inherits (r.apply op) T i ((r.apply op).term n)) :
    ((r.apply op).llog T).take i <+: r.log n := by
  have hi := H.acked_length hv
  rw [L.take_llog ha hi]
  exact H.kept hv (hin.of_apply L ha hi (LogInv.term_le ha n))

theorem polled_kept_before (hp : r.polled n t l) (hv : r.acked n T i) (hT : T < t)
    (hin : Inherits (r.apply op) T i (t - 1)) : ((r.apply op).llog T).take i <+: l := by
  have hi := H.acked_length hv
  rw [L.take_llog ha hi]
  exact H.polled_kept hp hv hT (hin.of_apply L ha hi le_rfl)

include hk

theorem kept_apply (hv : (r.apply op).acked n T i)
    (hin : Inherits (r.apply op) T i ((r.apply op).term n)) :
    ((r.apply op).llog T).take i <+: (r.apply op).log n := by
  have old (h : r.acked n T i) := kept_before L ha H h hin
  cases op with
  | append n' t e => exact (old hv).trans (r.log_append n' n t e)
  | adopt n' t m =>
    have hP := old hv
    show _ <+: Function.update r.log n' ((r.llog t).take m) n
    by_cases h : n = n'
    · subst h
      rw [Function.update_self]
      refine NoLoss.keeps hk hP ?_
      -- the leader that is followed now has the prefix: it made it, or it inherited it
      have hT : T ≤ t := ha.1 ▸ H.acked_le hv
      rcases hT.lt_or_eq with hlt | rfl
      · exact hin t hlt ha.1.ge ha.2
      · exact List.take_prefix ..
    · rw [Function.update_of_ne h]; exact hP
  | ack n' t i' =>
    rcases hv with hv | ⟨rfl, rfl, hle⟩
    · exact old hv
    · exact (List.take_prefix_take_left hle).trans hk.2.2.2
  | observe | vote | elect | choose => exact old hv

theorem polled_lawful_apply (hp : (r.apply op).polled n t l) :
    Lawful termOf (r.apply op).llog t l := by
  have old (h : r.polled n t l) := (H.polled_lawful h).mono le_rfl (L.llog_prefix ha)
  cases op with
  | vote n' t' c =>
    rcases hp with hp | ⟨rfl, rfl, rfl, -⟩
    · exact old hp
    · exact hk ▸ L.log n
  | _ => exact old hp

theorem polled_kept_apply (hp : (r.apply op).polled n t l) (hv : (r.apply op).acked n T i)
    (hT : T < t) (hin : Inherits (r.apply op) T i (t - 1)) :
    ((r.apply op).llog T).take i <+: l := by
  have old (h : r.polled n t l) (h' : r.acked n T i) := polled_kept_before L ha H h h' hT hin
  cases op with
  | vote n' t' c =>
    rcases hp with hp | ⟨rfl, rfl, rfl, hno⟩
    · exact old hp hv
    -- the voter's own term has no leader, so the leaders below it are all there are to ask
    · refine H.kept hv fun T' hlt hle hm => hin T' hlt ?_ hm
      have hne : T' ≠ t := by rintro rfl; exact hm.elim hno
      rw [show r.term n = t from hk] at hle
      omega
  | ack n' t' i' =>
    rcases hv with hv | ⟨rfl, rfl, -⟩
    · exact old hp hv
    · have := H.polled_le hp
      rw [hk.1] at this; omega
  | observe | elect | append | adopt | choose => exact old hp hv

theorem elected_apply (hl : (r.apply op).leads t n) :
    ∃ b, b <+: (r.apply op).llog t ∧ (∀ e ∈ b, termOf e < t) ∧
      Q.IsQuorum {v | ∃ l, (r.apply op).polled v t l ∧ UpToDate termOf l b} := by
  have mono {v l} (h : r.polled v t l) : (r.apply op).polled v t l := by
    cases op with
    | vote => exact .inl h
    | _ => exact h
  have old (h : r.leads t n) : ∃ b, b <+: (r.apply op).llog t ∧ (∀ e ∈ b, termOf e < t) ∧
      Q.IsQuorum {v | ∃ l, (r.apply op).polled v t l ∧ UpToDate termOf l b} := by
    obtain ⟨b, hb, hlt, hq⟩ := H.elected h
    refine ⟨b, hb.trans (L.llog_prefix ha t), hlt, Q.mono hq ?_⟩
    rintro v ⟨l, hp, hu⟩
    exact ⟨l, mono hp, hu⟩
  cases op with
  | elect n' t' =>
    rcases hl with hl | ⟨rfl, rfl⟩
    · exact old hl
    · refine ⟨r.log n, by simp [State.apply], fun e he => ?_, hk⟩
      exact L.lt_of_not_leads (ha.1 ▸ L.log n) ha.2.2 he
  | _ => exact old hl

theorem apply : KeepInv termOf Q (r.apply op) where
  acked_le := fun {n T i} hv => by
    have old (h : r.acked n T i) := (H.acked_le h).trans (LogInv.term_le ha n)
    cases op with
    | ack n' t i' =>
      rcases hv with hv | ⟨rfl, rfl, -⟩
      · exact old hv
      · exact hk.1.ge
    | _ => exact old hv
  acked_mono := fun {n T i i'} hv hle => by
    cases op with
    | ack n' t k =>
      rcases hv with hv | ⟨rfl, rfl, hik⟩
      · exact .inl (H.acked_mono hv hle)
      · exact .inr ⟨rfl, rfl, hle.trans hik⟩
    | _ => exact H.acked_mono hv hle
  acked_length := fun {n T i} hv => by
    have old (h : r.acked n T i) := (H.acked_length h).trans (L.llog_prefix ha T).length_le
    cases op with
    | ack n' t i' =>
      rcases hv with hv | ⟨rfl, rfl, hle⟩
      · exact old hv
      · exact hle.trans hk.2.2.1
    | _ => exact old hv
  acked_leads := fun {n T i} hv => by
    have old (h : r.acked n T i) : ∃ m, (r.apply op).leads T m :=
      (H.acked_leads h).imp fun _ => State.leads_apply
    cases op with
    | ack n' t i' =>
      rcases hv with hv | ⟨rfl, rfl, -⟩
      · exact old hv
      · exact hk.2.1
    | _ => exact old hv
  kept := kept_apply L ha hk H
  polled_le := fun {n t l} hp => by
    have old (h : r.polled n t l) := (H.polled_le h).trans (LogInv.term_le ha n)
    cases op with
    | vote n' t' c =>
      rcases hp with hp | ⟨rfl, rfl, -, -⟩
      · exact old hp
      · exact (show r.term n = t from hk).ge
    | _ => exact old hp
  polled_lawful := polled_lawful_apply L ha hk H
  polled_kept := polled_kept_apply L ha hk H
  elected := elected_apply L ha hk H
  chosen := fun {t i} hc => by
    have old (h : r.chosen t i) := (H.chosen h).apply L ha
    cases op with
    | choose t' i' =>
      rcases hc with hc | ⟨rfl, rfl⟩
      · exact old hc
      · exact Choosable.apply L ha hk
    | _ => exact old hc

end KeepInv

theorem KeepInv.applyAll {ops : List (Op N E)} (L : LogInv termOf r) (H : KeepInv termOf Q r)
    (ha : Admits (Replicates termOf) r ops) (hk : Admits (Keeps termOf Q) r ops) :
    KeepInv termOf Q (r.applyAll ops) := by
  induction ops generalizing r with
  | nil => exact H
  | cons op ops ih => exact ih (L.apply ha.1) (KeepInv.apply L ha.1 hk.1 H) ha.2 hk.2

end

/-! ## Candidates -/

/-- `c` has asked for votes in `t`, when its log had length `k` and last term `lt`. The log is
the same until a leader of `t` is elected or `c` moves on. -/
def Stands (termOf : E → ℕ) (r : State N E) (c : N) (t k lt : ℕ) : Prop :=
  t ≤ r.term c ∧ ((∃ m, r.leads t m) ∨
    (r.term c = t → (r.log c).length = k ∧ lastTerm termOf (r.log c) = lt))

/-- `v` has voted in `t`, and `c` is at least as up to date as `v` was. -/
def Backs (termOf : E → ℕ) (r : State N E) (v : N) (t : ℕ) (c : N) : Prop :=
  t ≤ r.term c ∧ ((∃ m, r.leads t m) ∨
    ∃ l, r.polled v t l ∧ (r.term c = t → UpToDate termOf l (r.log c)))

section
variable [DecidableEq N]

/-- A candidate that is still in the term has kept its log, or the term has a leader. -/
theorem candidate_apply {op : Op N E} (ha : Replicates termOf r op) (ht : t ≤ r.term c) :
    (∃ m, r.leads t m) ∨
      ((r.apply op).term c = t → r.term c = t ∧ (r.apply op).log c = r.log c) := by
  by_cases hl : ∃ m, r.leads t m
  · exact .inl hl
  · refine .inr fun heq => ?_
    have hterm : r.term c = t := le_antisymm (heq ▸ LogInv.term_le ha c) ht
    exact ⟨hterm, LogInv.log_eq ha fun m hm => hl ⟨m, hterm ▸ hm⟩⟩

theorem Stands.apply {op : Op N E} (ha : Replicates termOf r op) (h : Stands termOf r c t k lt) :
    Stands termOf (r.apply op) c t k lt := by
  refine ⟨h.1.trans (LogInv.term_le ha c), ?_⟩
  rcases h.2 with ⟨m, hm⟩ | hlog
  · exact .inl ⟨m, State.leads_apply hm⟩
  · rcases candidate_apply ha h.1 with ⟨m, hm⟩ | hsame
    · exact .inl ⟨m, State.leads_apply hm⟩
    · refine .inr fun heq => ?_
      obtain ⟨hterm, hl⟩ := hsame heq
      rw [hl]; exact hlog hterm

theorem Backs.apply {op : Op N E} (ha : Replicates termOf r op) (h : Backs termOf r v t c) :
    Backs termOf (r.apply op) v t c := by
  refine ⟨h.1.trans (LogInv.term_le ha c), ?_⟩
  rcases h.2 with ⟨m, hm⟩ | ⟨l, hp, hup⟩
  · exact .inl ⟨m, State.leads_apply hm⟩
  · rcases candidate_apply ha h.1 with ⟨m, hm⟩ | hsame
    · exact .inl ⟨m, State.leads_apply hm⟩
    · have hp' : (r.apply op).polled v t l := by
        cases op with
        | vote => exact .inl hp
        | _ => exact hp
      refine .inr ⟨l, hp', fun heq => ?_⟩
      obtain ⟨hterm, hl⟩ := hsame heq
      rw [hl]; exact hup hterm

theorem Stands.applyAll {ops : List (Op N E)} (ha : Admits (Replicates termOf) r ops)
    (h : Stands termOf r c t k lt) : Stands termOf (r.applyAll ops) c t k lt :=
  ha.preserves (I := fun r => Stands termOf r c t k lt) (fun _ _ h ha => h.apply ha) h

theorem Backs.applyAll {ops : List (Op N E)} (ha : Admits (Replicates termOf) r ops)
    (h : Backs termOf r v t c) : Backs termOf (r.applyAll ops) v t c :=
  ha.preserves (I := fun r => Backs termOf r v t c) (fun _ _ h ha => h.apply ha) h

/-- A vote for a candidate that stands and is up to date backs it. -/
theorem Stands.backs (h : Stands termOf r c t k lt)
    (hup : lastTerm termOf (r.log v) < lt ∨
      lastTerm termOf (r.log v) = lt ∧ (r.log v).length ≤ k) :
    Backs termOf (r.apply (.vote v t c)) v t c := by
  refine ⟨h.1, ?_⟩
  rcases h.2 with hl | hlog
  · exact .inl hl
  · by_cases hl : ∃ m, r.leads t m
    · exact .inl hl
    · push Not at hl
      refine .inr ⟨r.log v, .inr ⟨rfl, rfl, rfl, hl⟩, fun heq => ?_⟩
      obtain ⟨hk, hlt⟩ := hlog heq
      show UpToDate termOf (r.log v) (r.log c)
      rw [UpToDate, hk, hlt]
      exact hup

end

/-- A leader acknowledges what it has appended. -/
theorem keeps_ack_append [DecidableEq N] (hterm : r.term n = t) (hl : r.leads t n) :
    Keeps termOf Q (r.apply (.append n t e)) (.ack n t ((r.log n).length + 1)) := by
  refine ⟨hterm, ⟨n, hl⟩, ?_, ?_⟩ <;> simp only [State.apply, Function.update_self]
  · simp
  · exact List.take_prefix ..

/-- A follower acknowledges the prefix it has taken over. -/
theorem keeps_ack_adopt [DecidableEq N] (hterm : r.term n = t) (hl : r.leads t m)
    (hi : i ≤ (r.llog t).length) : Keeps termOf Q (r.apply (.adopt n t i)) (.ack n t i) := by
  refine ⟨hterm, ⟨m, hl⟩, hi, ?_⟩
  simp only [State.apply, Function.update_self]
  exact List.prefix_refl _

/-- A candidate backed by a quorum may lead. -/
theorem keeps_elect (hq : Q.IsQuorum {v | Backs termOf r v t n}) (hterm : r.term n = t)
    (hno : ∀ m, ¬r.leads t m) : Keeps termOf Q r (.elect n t) := by
  refine Q.mono hq ?_
  rintro v ⟨-, ⟨m, hm⟩ | ⟨l, hp, hup⟩⟩
  · exact (hno m hm).elim
  · exact ⟨l, hp, hup hterm⟩

/-! ## Leader completeness -/

/-- A log that is at least as up to date as one with a prefix from term `T` has the prefix
itself, if the leaders of the terms between have it. -/
theorem UpToDate.keeps (L : LogInv termOf r) {l b : List E} (hu : UpToDate termOf l b)
    (hl : Lawful termOf r.llog t l) (hb : Lawful termOf r.llog t b)
    (hlt : ∀ e ∈ b, termOf e < t) (hP : P <+: l) (hne : ∃ e ∈ P, termOf e = T)
    (hPT : ∀ e ∈ P, termOf e ≤ T)
    (hin : ∀ T', T < T' → T' < t → (∃ m, r.leads T' m) → P <+: r.llog T') : P <+: b := by
  obtain ⟨e, heP, heT⟩ := hne
  have hTl : T ≤ lastTerm termOf l := heT ▸ hl.le_lastTerm (hP.mem heP)
  have hl0 : l ≠ [] := List.ne_nil_of_mem (hP.mem heP)
  rcases hb.prefix_lastTerm with rfl | hbp
  · -- an empty log is up to date with no other
    rcases hu with hu | ⟨-, hu⟩
    · simp [lastTerm] at hu
    · simp only [List.length_nil, Nat.le_zero, List.length_eq_zero_iff] at hu
      exact (hl0 hu).elim
  rcases hu with hu | ⟨hu, hlen⟩
  · -- the last entry of `b` is from a leader that has the prefix
    have hb0 : b ≠ [] := by rintro rfl; simp [lastTerm] at hu
    obtain ⟨x, hx⟩ := Option.ne_none_iff_exists'.mp (mt List.getLast?_eq_none_iff.mp hb0)
    have hxb : x ∈ b := List.mem_of_getLast? hx
    have hxt : lastTerm termOf b = termOf x := by simp [lastTerm, hx]
    have hTx : T < termOf x := by rw [← hxt]; omega
    have hPx := hin _ hTx (hlt x hxb) (L.leads_of_mem hb hxb)
    rw [hxt] at hbp
    refine List.prefix_of_prefix_length_le hPx hbp ?_
    by_contra hlen
    have hbP := List.prefix_of_prefix_length_le hbp hPx (by omega)
    have := hPT x (hbP.mem hxb)
    omega
  · rcases hl.prefix_lastTerm with rfl | hlp
    · exact (hl0 rfl).elim
    · rw [hu] at hlp
      exact hP.trans (List.prefix_of_prefix_length_le hlp hbp hlen)

/-- **Leader completeness**: what a quorum acknowledged in term `T` is in the log of every
leader of a later term. -/
theorem leader_completeness (L : LogInv termOf r) (H : KeepInv termOf Q r)
    (hc : Choosable termOf Q r T i) (hT : T < t) (hl : r.leads t n) :
    (r.llog T).take i <+: r.llog t := by
  induction t using Nat.strong_induction_on generalizing n with
  | _ t ih =>
    have hin : ∀ T', T < T' → T' < t → (∃ m, r.leads T' m) → (r.llog T).take i <+: r.llog T' := by
      rintro T' h h' ⟨m, hm⟩
      exact ih T' h' h hm
    obtain ⟨⟨j, e, rfl, he, heT⟩, hq⟩ := hc
    obtain ⟨b, hbp, hlt, hq'⟩ := H.elected hl
    -- a node that acknowledged the prefix and then voted for the leader of `t`
    obtain ⟨v, hv, l, hp, hu⟩ := Q.inter hq hq'
    have hPl : (r.llog T).take (j + 1) <+: l :=
      H.polled_kept hp hv hT fun T' h h' => hin T' h (by omega)
    have hmem : e ∈ (r.llog T).take (j + 1) :=
      List.mem_of_getElem? ((List.getElem?_take_of_lt (by omega)).trans he)
    refine (hu.keeps L (H.polled_lawful hp) ((L.llog t).of_isPrefix hbp) hlt hPl
      ⟨e, hmem, heT⟩ (fun x hx => ?_) hin).trans hbp
    exact (L.llog T).bound x (List.mem_of_mem_take hx)

/-- A quorum that has not gone beyond `t` has not chosen anything in a later term. -/
theorem KeepInv.chosen_term_le (H : KeepInv termOf Q r) (hc : r.chosen T i)
    (hq : Q.IsQuorum {v | r.term v ≤ t}) : T ≤ t := by
  obtain ⟨v, hv, hle⟩ := Q.inter (H.chosen hc).2 hq
  exact (H.acked_le hv).trans hle

/-- What was chosen in an earlier term lies below the entries of the leader's own term. -/
theorem KeepInv.chosen_le (L : LogInv termOf r) (H : KeepInv termOf Q r) (hc : r.chosen T i)
    (hT : T < t) (hl : r.leads t n) (he : (r.llog t)[j]? = some e) (het : termOf e = t) :
    i ≤ j := by
  by_contra hlt
  obtain ⟨⟨k, x, rfl, hx, -⟩, -⟩ := H.chosen hc
  have hp := leader_completeness L H (H.chosen hc) hT hl
  have hlen := (List.getElem?_eq_some_iff.mp hx).1
  have hj : j < ((r.llog T).take (k + 1)).length := by rw [List.length_take]; omega
  have hmem : e ∈ r.llog T := by
    obtain ⟨s, hs⟩ := hp
    rw [← hs, List.getElem?_append_left hj] at he
    exact List.mem_of_mem_take (List.mem_of_getElem? he)
  have := (L.llog T).bound e hmem
  omega

/-! ## Settled prefixes -/

/-- By term `t` the first `k` entries of `l` are known to be committed. -/
def Settled (r : State N E) (t : ℕ) (l : List E) (k : ℕ) : Prop :=
  k ≤ l.length ∧ (0 < k → ∃ T i, T ≤ t ∧ r.chosen T i ∧ k ≤ i ∧ l.take k = (r.llog T).take k)

namespace Settled

variable {k k' : ℕ}

theorem zero : Settled r t l 0 := ⟨Nat.zero_le _, fun h => (Nat.lt_irrefl 0 h).elim⟩

theorem mono (h : Settled r t l k) (ht : t ≤ t') : Settled r t' l k :=
  ⟨h.1, fun hk => let ⟨T, i, hT, hrest⟩ := h.2 hk; ⟨T, i, hT.trans ht, hrest⟩⟩

theorem of_le (h : Settled r t l k) (hk : k' ≤ k) : Settled r t l k' := by
  refine ⟨hk.trans h.1, fun h0 => ?_⟩
  obtain ⟨T, i, hT, hc, hi, heq⟩ := h.2 (by omega)
  refine ⟨T, i, hT, hc, hk.trans hi, ?_⟩
  have := congrArg (List.take k') heq
  rwa [List.take_take, List.take_take, Nat.min_eq_left hk] at this

theorem of_take_eq (h : Settled r t l k) (hk : k ≤ l'.length) (heq : l'.take k = l.take k) :
    Settled r t l' k :=
  ⟨hk, fun h0 => let ⟨T, i, hT, hc, hi, h'⟩ := h.2 h0; ⟨T, i, hT, hc, hi, heq.trans h'⟩⟩

theorem of_isPrefix (h : Settled r t l k) (hp : l.take k <+: l') : Settled r t l' k := by
  have hlen : (l.take k).length = k := by simp [h.1]
  have hk : k ≤ l'.length := hlen ▸ hp.length_le
  refine h.of_take_eq hk ?_
  rw [List.prefix_iff_eq_take, hlen] at hp
  exact hp.symm

theorem max (h : Settled r t l k) (h' : Settled r t l k') : Settled r t l (max k k') := by
  rcases max_choice k k' with heq | heq <;> rw [heq]
  · exact h
  · exact h'

theorem take (h : Settled r t l k) (hk : k ≤ m) : Settled r t (l.take m) k := by
  refine h.of_take_eq (by rw [List.length_take]; exact le_min hk h.1) ?_
  rw [List.take_take, Nat.min_eq_left hk]

end Settled

section
variable (L : LogInv termOf r) (H : KeepInv termOf Q r)
include L H

/-- What is settled by term `t` is in the log of the leader of `t`. -/
theorem Settled.prefix_llog (h : Settled r t l k) (hl : r.leads t n) : l.take k <+: r.llog t := by
  rcases Nat.eq_zero_or_pos k with rfl | h0
  · simp
  obtain ⟨T, i, hT, hc, hi, heq⟩ := h.2 h0
  rw [heq]
  refine (List.take_prefix_take_left hi).trans ?_
  rcases hT.lt_or_eq with hlt | rfl
  · exact leader_completeness L H (H.chosen hc) hlt hl
  · exact List.take_prefix ..

/-- **Agreement**: settled prefixes of any two logs agree. -/
theorem Settled.agree (h : Settled r t l k) (h' : Settled r t' l' k) : l.take k = l'.take k := by
  rcases Nat.eq_zero_or_pos k with rfl | h0
  · simp
  obtain ⟨T, i, -, hc, hi, heq⟩ := h.2 h0
  obtain ⟨T', i', -, hc', hi', heq'⟩ := h'.2 h0
  rw [heq, heq']
  -- the later of the two terms has a leader, which inherited the prefix of the earlier one
  have key : ∀ {T T' i i'}, r.chosen T i → r.chosen T' i' → k ≤ i → k ≤ i' → T < T' →
      (r.llog T).take k = (r.llog T').take k := by
    intro T T' i i' hc hc' hi hi' hlt
    obtain ⟨⟨j, e, rfl, he, heT⟩, -⟩ := H.chosen hc'
    obtain ⟨n, hn⟩ := heT ▸ L.leads_of_mem (L.llog T') (List.mem_of_getElem? he)
    have hp := (List.take_prefix_take_left hi).trans
      (leader_completeness L H (H.chosen hc) hlt hn)
    obtain ⟨⟨j', e', rfl, he', -⟩, -⟩ := H.chosen hc
    have hlen := (List.getElem?_eq_some_iff.mp he').1
    rw [List.prefix_iff_eq_take, List.length_take, Nat.min_eq_left (by omega)] at hp
    exact hp
  rcases lt_trichotomy T T' with hlt | rfl | hlt
  · exact key hc hc' hi hi' hlt
  · rfl
  · exact (key hc' hc hi' hi hlt).symm

/-- A follower that loses nothing but conflicting entries keeps what is settled. -/
theorem Settled.adopt (h : Settled r t l k) (hl : r.leads t n)
    (hn : NoLoss termOf l ((r.llog t).take m)) : Settled r t ((r.llog t).take m) k :=
  h.of_isPrefix (hn.keeps (List.take_prefix k l) (h.prefix_llog L H hl))

end

theorem Settled.apply [DecidableEq N] {op : Op N E} {k : ℕ} (L : LogInv termOf r)
    (H : KeepInv termOf Q r) (ha : Replicates termOf r op) (h : Settled r t l k) :
    Settled (r.apply op) t l k := by
  refine ⟨h.1, fun h0 => ?_⟩
  obtain ⟨T, i, hT, hc, hi, heq⟩ := h.2 h0
  refine ⟨T, i, hT, ?_, hi, ?_⟩
  · cases op with
    | choose => exact .inl hc
    | _ => exact hc
  · obtain ⟨⟨j, e, rfl, he, -⟩, -⟩ := H.chosen hc
    have hlen := (List.getElem?_eq_some_iff.mp he).1
    rw [L.take_llog ha (by omega), heq]

/-- What admissible operations leave as it was, or further on. -/
structure Advances (r r' : State N E) : Prop where
  term : ∀ n, r.term n ≤ r'.term n
  llog : ∀ t, r.llog t <+: r'.llog t
  settled : ∀ {t l k}, Settled r t l k → Settled r' t l k

theorem Advances.applyAll [DecidableEq N] {ops : List (Op N E)} (L : LogInv termOf r)
    (H : KeepInv termOf Q r) (ha : Admits (Replicates termOf) r ops)
    (hk : Admits (Keeps termOf Q) r ops) : Advances r (r.applyAll ops) := by
  induction ops generalizing r with
  | nil => exact ⟨fun _ => le_rfl, fun _ => List.prefix_refl _, id⟩
  | cons op ops ih =>
    have h := ih (L.apply ha.1) (KeepInv.apply L ha.1 hk.1 H) ha.2 hk.2
    exact ⟨fun n => (LogInv.term_le ha.1 n).trans (h.term n),
      fun t => (L.llog_prefix ha.1 t).trans (h.llog t), fun hs => h.settled (hs.apply L H ha.1)⟩

/-- What is settled in the log of a leader stays so while the log grows. -/
theorem Advances.settled_llog (h : Advances r r') (hs : Settled r t (r.llog t) k) :
    Settled r' t (r'.llog t) k :=
  (h.settled hs).of_isPrefix ((List.take_prefix ..).trans (h.llog t))

end DistributedKV.Theory
