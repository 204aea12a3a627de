import Mathlib.Data.List.Nodup

/-!
# Cells that are used once

A list of cells, each of which may be used at most once: `consume` is undefined on a cell that is
not fresh. Somebody holds a list of the positions they will still use. When these are distinct and
their cells are fresh (`Fresh`), using them all in turn is defined (`Fresh.foldlM_consume`).
-/

namespace DistributedKV.Theory

variable {α : Type*} {fresh : α → Bool} {f : α → α} {l : List α} {ks ks' : List ℕ} {k : ℕ} {a b : α}

/-- Use the cell at `k`, if it is fresh. -/
def consume (fresh : α → Bool) (f : α → α) (l : List α) (k : ℕ) : Option (List α) :=
  if l[k]?.any fresh then some (l.modify k f) else none

/-- The positions `ks` can each be used once. -/
structure Fresh (fresh : α → Bool) (l : List α) (ks : List ℕ) : Prop where
  nodup : ks.Nodup
  fresh : ∀ k ∈ ks, l[k]?.any fresh

namespace Fresh

theorem nil : Fresh fresh l [] := ⟨.nil, nofun⟩

theorem sublist (h : Fresh fresh l ks) (hsub : ks'.Sublist ks) : Fresh fresh l ks' :=
  ⟨h.nodup.sublist hsub, fun k hk => h.fresh k (hsub.subset hk)⟩

theorem lt (h : Fresh fresh l ks) (hk : k ∈ ks) : k < l.length := by
  by_contra hlt
  have := h.fresh k hk
  rw [List.getElem?_eq_none (Nat.le_of_not_lt hlt)] at this
  cases this

/-- A cell changes, which stays as fresh as it was if it is still to be used. -/
theorem modify (h : Fresh fresh l ks) (hf : k ∈ ks → ∀ a, fresh (f a) = fresh a) :
    Fresh fresh (l.modify k f) ks := by
  refine ⟨h.nodup, fun j hj => ?_⟩
  have hfresh := h.fresh j hj
  rw [List.getElem?_modify]
  by_cases heq : k = j
  · subst heq
    cases hl : l[k]? with
    | none => rw [hl] at hfresh; cases hfresh
    | some a =>
      rw [hl] at hfresh
      simpa using (hf hj a).trans hfresh
  · simpa [heq] using hfresh

/-- A cell changes and is as fresh as it was. -/
theorem set (h : Fresh fresh l ks) (ha : l[k]? = some a) (hb : k ∈ ks → fresh b = fresh a) :
    Fresh fresh (l.set k b) ks := by
  refine ⟨h.nodup, fun j hj => ?_⟩
  have hfresh := h.fresh j hj
  rw [List.getElem?_set]
  split
  · next heq =>
    subst heq
    rw [ha] at hfresh
    rw [if_pos (h.lt hj)]
    exact (hb hj).trans hfresh
  · exact hfresh

/-- There is a new cell. -/
theorem append (h : Fresh fresh l ks) (a : α) : Fresh fresh (l ++ [a]) ks := by
  refine ⟨h.nodup, fun k hk => ?_⟩
  rw [List.getElem?_append_left (h.lt hk)]
  exact h.fresh k hk

/-- There is a new cell, to be used. -/
theorem cons_append (h : Fresh fresh l ks) (ha : fresh a) :
    Fresh fresh (l ++ [a]) (l.length :: ks) := by
  have hnew : l.length ∉ ks := fun hk => Nat.lt_irrefl _ (h.lt hk)
  refine ⟨List.nodup_cons.mpr ⟨hnew, h.nodup⟩, List.forall_mem_cons.mpr ⟨?_, (h.append a).fresh⟩⟩
  simpa using ha

/-- A cell is made fresh, to be used. -/
theorem renew (h : Fresh fresh l ks) (ha : l[k]? = some a) (hk : k ∉ ks) (hb : fresh b) :
    Fresh fresh (l.set k b) (ks ++ [k]) := by
  refine ⟨List.nodup_append_comm.mp (List.nodup_cons.mpr ⟨hk, h.nodup⟩), fun j hj => ?_⟩
  rcases List.mem_append.mp hj with hj | hj
  · exact (h.set ha fun hmem => (hk hmem).elim).fresh j hj
  · cases List.mem_singleton.mp hj
    rw [List.getElem?_set_self (List.getElem?_eq_some_iff.mp ha).1]
    exact hb

/-- All positions can be used in turn. -/
theorem foldlM_consume (h : Fresh fresh l ks) (f : α → α) :
    ks.foldlM (consume fresh f) l = some (ks.foldl (fun l k => l.modify k f) l) := by
  induction ks generalizing l with
  | nil => rfl
  | cons k ks ih =>
    obtain ⟨hk, hnd⟩ := List.nodup_cons.mp h.nodup
    have hrest : Fresh fresh (l.modify k f) ks :=
      (h.sublist (List.sublist_cons_self k ks)).modify fun hmem => (hk hmem).elim
    rw [List.foldlM_cons, consume, if_pos (h.fresh k List.mem_cons_self)]
    exact ih hrest

end Fresh

end DistributedKV.Theory
