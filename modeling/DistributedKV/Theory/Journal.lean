import Mathlib.Data.List.Forall2
import Mathlib.Data.Nat.Notation

/-!
# Durable and pending states

An object on a disk has a state that is durable and states that later writes have led to and that a
power failure can undo. A write that is synced makes its state durable, and with it all that came
before; a power failure keeps the pending writes up to some point.
-/

namespace DistributedKV.Theory

variable {σ τ : Type*}

structure Journal (σ : Type*) where
  durable : σ
  /-- The states after each write that has not been synced. -/
  pending : List σ := []

namespace Journal

def current (j : Journal σ) : σ := j.pending.getLastD j.durable

def write (sync : Bool) (s : σ) (j : Journal σ) : Journal σ :=
  if sync then { durable := s } else { j with pending := j.pending ++ [s] }

/-- Power fails when `k` of the pending writes have reached the disk. -/
def fail (k : ℕ) (j : Journal σ) : Journal σ := { durable := (j.pending.take k).getLastD j.durable }

@[simp] theorem current_write (sync : Bool) (s : σ) (j : Journal σ) :
    (j.write sync s).current = s := by
  cases sync <;> simp [write, current]

@[simp] theorem current_mk (s : σ) : (⟨s, []⟩ : Journal σ).current = s := rfl

@[simp] theorem current_fail (k : ℕ) (j : Journal σ) :
    (j.fail k).current = (j.fail k).durable := rfl

/-- Every state of the journal. -/
def All (P : σ → Prop) (j : Journal σ) : Prop := P j.durable ∧ ∀ s ∈ j.pending, P s

theorem All.fail {P : σ → Prop} {j : Journal σ} (h : j.All P) (k : ℕ) : P (j.fail k).current := by
  rw [current_fail, Journal.fail, List.getLastD_eq_getLast?]
  cases hl : (j.pending.take k).getLast? with
  | none => exact h.1
  | some s => exact h.2 s (List.mem_of_mem_take (List.mem_of_getLast? hl))

/-- The states of two journals correspond. -/
structure Related (R : σ → τ → Prop) (j : Journal σ) (j' : Journal τ) : Prop where
  durable : R j.durable j'.durable
  pending : List.Forall₂ R j.pending j'.pending

namespace Related

variable {R : σ → τ → Prop} {j : Journal σ} {j' : Journal τ}

theorem getLastD {l : List σ} {l' : List τ} (hl : List.Forall₂ R l l') (h : R s t) :
    R (l.getLastD s) (l'.getLastD t) := by
  induction hl generalizing s t with
  | nil => exact h
  | cons hab _ ih => simpa only [List.getLastD_cons] using ih hab

theorem current (h : Related R j j') : R j.current j'.current := getLastD h.pending h.durable

theorem write (h : Related R j j') (hs : R s t) (sync : Bool) :
    Related R (j.write sync s) (j'.write sync t) := by
  cases sync with
  | true => exact ⟨hs, .nil⟩
  | false => exact ⟨h.durable, List.rel_append h.pending (.cons hs .nil)⟩

theorem fail (h : Related R j j') (k : ℕ) : Related R (j.fail k) (j'.fail k) :=
  ⟨getLastD (List.forall₂_take k h.pending) h.durable, .nil⟩

end Related

end Journal

end DistributedKV.Theory
