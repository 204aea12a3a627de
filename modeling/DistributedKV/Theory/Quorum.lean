import Mathlib.Data.Finset.Card
import Mathlib.Data.List.Sort
import Mathlib.Data.Set.Basic

/-!
# Quorum systems

A quorum system names the sets of voters that can decide, any two of which meet. Majorities of a
finite set of members form one.
-/

namespace DistributedKV.Theory

/-- A family of deciding sets of voters, closed under more voters, any two of which have a voter
in common. -/
structure QuorumSystem (N : Type*) where
  IsQuorum : Set N → Prop
  mono : ∀ {S S' : Set N}, IsQuorum S → S ⊆ S' → IsQuorum S'
  inter : ∀ {S S' : Set N}, IsQuorum S → IsQuorum S' → ∃ v, v ∈ S ∧ v ∈ S'

namespace QuorumSystem

variable {N : Type*} [DecidableEq N]

/-- Two majorities of one finite set meet. -/
theorem majorities_meet {members S S' : Finset N} (hS : S ⊆ members) (hS' : S' ⊆ members)
    (h : members.card / 2 + 1 ≤ S.card) (h' : members.card / 2 + 1 ≤ S'.card) :
    ∃ v ∈ S, v ∈ S' := by
  by_contra hd
  push Not at hd
  have hdisj : Disjoint S S' := Finset.disjoint_left.mpr hd
  have hle := Finset.card_le_card (Finset.union_subset hS hS')
  rw [Finset.card_union_of_disjoint hdisj] at hle
  omega

/-- The sets that contain more than half of `members`. -/
def majority (members : Finset N) : QuorumSystem N where
  IsQuorum Q := ∃ S : Finset N, S ⊆ members ∧ members.card / 2 + 1 ≤ S.card ∧ ∀ v ∈ S, v ∈ Q
  mono := fun ⟨S, hS, hc, hQ⟩ hle => ⟨S, hS, hc, fun v hv => hle (hQ v hv)⟩
  inter := by
    rintro Q Q' ⟨S, hS, hc, hQ⟩ ⟨S', hS', hc', hQ'⟩
    obtain ⟨v, hv, hv'⟩ := majorities_meet hS hS' hc hc'
    exact ⟨v, hQ v hv, hQ' v hv'⟩

end QuorumSystem

/-! ## Medians -/

/-- At least `l.length - i` elements are no less than the one at position `i` in order. -/
theorem le_countP_insertionSort {l : List ℕ} (hi : (l.insertionSort (· ≤ ·))[i]? = some b) :
    l.length - i ≤ l.countP (b ≤ ·) := by
  set sorted := l.insertionSort (· ≤ ·) with hsorted
  have hperm : sorted.Perm l := List.perm_insertionSort _ l
  have hpw : sorted.Pairwise (· ≤ ·) := List.pairwise_insertionSort _ l
  obtain ⟨hlt, rfl⟩ := List.getElem?_eq_some_iff.mp hi
  have hall : ∀ x ∈ sorted.drop i, sorted[i] ≤ x := by
    intro x hx
    obtain ⟨j, hj, rfl⟩ := List.mem_drop_iff_getElem.mp hx
    rcases Nat.eq_zero_or_pos j with rfl | hpos
    · exact le_rfl
    · exact List.pairwise_iff_getElem.mp hpw _ _ hlt _ (by omega)
  calc l.length - i = (sorted.drop i).length := by rw [List.length_drop, hperm.length_eq]
    _ = (sorted.drop i).countP (sorted[i] ≤ ·) :=
      (List.countP_eq_length.mpr fun x hx => decide_eq_true (hall x hx)).symm
    _ ≤ sorted.countP (sorted[i] ≤ ·) := (List.drop_sublist i sorted).countP_le
    _ = l.countP (sorted[i] ≤ ·) := hperm.countP_eq _

/-- What the elements at position `i` in order and after it are no less than, `l.length - i`
elements are no less than. -/
theorem le_insertionSort_iff {l : List ℕ} (hi : (l.insertionSort (· ≤ ·))[i]? = some b) :
    c ≤ b ↔ l.length - i ≤ l.countP (c ≤ ·) := by
  constructor
  · intro hcb
    refine (le_countP_insertionSort hi).trans (List.countP_mono_left fun x _ hx => ?_)
    exact decide_eq_true (hcb.trans (of_decide_eq_true hx))
  · intro hcount
    by_contra hbc
    set sorted := l.insertionSort (· ≤ ·) with hsorted
    have hperm : sorted.Perm l := List.perm_insertionSort _ l
    have hpw : sorted.Pairwise (· ≤ ·) := List.pairwise_insertionSort _ l
    obtain ⟨hlt, rfl⟩ := List.getElem?_eq_some_iff.mp hi
    -- none of the first `i + 1` elements counts
    have hnone : (sorted.take (i + 1)).countP (c ≤ ·) = 0 := by
      refine List.countP_eq_zero.mpr fun x hx => ?_
      obtain ⟨j, hj, rfl⟩ := List.mem_take_iff_getElem.mp hx
      have hle : sorted[j] ≤ sorted[i] := by
        rcases Nat.lt_or_ge j i with hji | hji
        · exact List.pairwise_iff_getElem.mp hpw _ _ _ hlt hji
        · obtain rfl : j = i := by omega
          exact le_rfl
      have : ¬c ≤ sorted[j] := by omega
      simpa using this
    have hsplit : (sorted.take (i + 1) ++ sorted.drop (i + 1)).countP (c ≤ ·) = _ + _ :=
      List.countP_append
    have hdrop : (sorted.drop (i + 1)).countP (c ≤ ·) ≤ (sorted.drop (i + 1)).length :=
      List.countP_le_length
    rw [List.take_append_drop, hnone, hperm.countP_eq] at hsplit
    rw [List.length_drop, hperm.length_eq] at hdrop
    have hlen : i < l.length := hperm.length_eq ▸ hlt
    omega

/-- A majority of the members has at least the median. -/
theorem QuorumSystem.majority_median {N : Type*} [DecidableEq N] {members : List N}
    (hnd : members.Nodup) (hne : members ≠ []) (f : N → ℕ) :
    (majority members.toFinset).IsQuorum {v | v ∈ members ∧
      ((members.map f).insertionSort (· ≤ ·)).getD ((members.length - 1) / 2) 0 ≤ f v} := by
  have hpos : 0 < members.length := List.length_pos_iff.mpr hne
  set sorted := (members.map f).insertionSort (· ≤ ·) with hsorted
  have hlen : sorted.length = members.length := by simp [hsorted]
  have hlt : (members.length - 1) / 2 < sorted.length := by omega
  have hget : sorted[(members.length - 1) / 2]? =
      some (sorted.getD ((members.length - 1) / 2) 0) := by
    rw [List.getD_eq_getElem?_getD, List.getElem?_eq_getElem hlt, Option.getD_some]
  have hcount := le_countP_insertionSort hget
  refine ⟨(members.filter fun v => sorted.getD ((members.length - 1) / 2) 0 ≤ f v).toFinset,
    fun v hv => ?_, ?_, fun v hv => ?_⟩
  · simp at hv ⊢; exact hv.1
  · rw [List.toFinset_card_of_nodup hnd, List.toFinset_card_of_nodup (hnd.filter _),
      ← List.countP_eq_length_filter]
    rw [List.countP_map, List.length_map] at hcount
    have : members.length / 2 + 1 ≤ members.length - (members.length - 1) / 2 := by omega
    exact this.trans hcount
  · simpa using hv

/-! ## Counting votes -/

/-- Voters are counted one by one: `votes` of `members` have been counted, none of them is still
in `awaiting`, and `P` holds of each. -/
def Tally {N : Type*} (members : Finset N) (awaiting : List N) (votes : ℕ) (P : N → Prop) : Prop :=
  ∃ S : Finset N, S ⊆ members ∧ S.card = votes ∧ ∀ v ∈ S, v ∉ awaiting ∧ P v

namespace Tally

variable {N : Type*} {members : Finset N} {awaiting awaiting' : List N} {votes : ℕ}
  {P P' : N → Prop}

theorem single (hv : v ∈ members) (ha : v ∉ awaiting) (hP : P v) : Tally members awaiting 1 P :=
  ⟨{v}, Finset.singleton_subset_iff.mpr hv, rfl, fun w hw => by
    cases Finset.mem_singleton.mp hw; exact ⟨ha, hP⟩⟩

theorem mono (h : Tally members awaiting votes P) (hP : ∀ v, P v → P' v) :
    Tally members awaiting votes P' :=
  let ⟨S, hS, hc, hv⟩ := h
  ⟨S, hS, hc, fun v hvS => ⟨(hv v hvS).1, hP v (hv v hvS).2⟩⟩

theorem subset (h : Tally members awaiting votes P) (ha : awaiting' ⊆ awaiting) :
    Tally members awaiting' votes P :=
  let ⟨S, hS, hc, hv⟩ := h
  ⟨S, hS, hc, fun v hvS => ⟨fun h' => (hv v hvS).1 (ha h'), (hv v hvS).2⟩⟩

variable [DecidableEq N]

/-- A voter that is waited for is counted. -/
theorem count (h : Tally members awaiting votes P) (hnd : awaiting.Nodup) (hm : v ∈ members)
    (ha : v ∈ awaiting) (hP : P v) : Tally members (awaiting.erase v) (votes + 1) P := by
  obtain ⟨S, hS, hc, hv⟩ := h
  have hvS : v ∉ S := fun h' => (hv v h').1 ha
  refine ⟨insert v S, Finset.insert_subset hm hS, by rw [Finset.card_insert_of_notMem hvS, hc], ?_⟩
  intro w hw
  rcases Finset.mem_insert.mp hw with rfl | hw
  · exact ⟨hnd.not_mem_erase, hP⟩
  · exact ⟨fun h' => (hv w hw).1 (List.mem_of_mem_erase h'), (hv w hw).2⟩

theorem isQuorum (h : Tally members awaiting votes P) (hc : members.card / 2 + 1 ≤ votes) :
    (QuorumSystem.majority members).IsQuorum {v | P v} :=
  let ⟨S, hS, hcard, hv⟩ := h
  ⟨S, hS, hcard ▸ hc, fun v hvS => (hv v hvS).2⟩

end Tally

end DistributedKV.Theory
