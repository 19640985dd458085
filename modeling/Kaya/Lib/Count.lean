import Mathlib.Algebra.BigOperators.Group.Finset.Basic
import Mathlib.Algebra.BigOperators.Ring.Finset
import Mathlib.Data.Fintype.BigOperators

/-!
# Counting the values of a finite map

`count P f` is the number of arguments at which `f` has a value in `P`.  A
counter that is kept by hand follows it through updates of `f`.
-/

namespace Kaya.Lib

variable {α β : Type} [Fintype α] (P : β → Prop) [DecidablePred P]

def count (f : α → β) : Int := (Finset.univ.filter fun x => P (f x)).card

def weight (b : β) : Int := if P b then 1 else 0

theorem count_eq_sum (f : α → β) : count P f = ∑ x, weight P (f x) := by
  rw [count, Finset.card_filter]
  push_cast
  rfl

theorem count_nonneg (f : α → β) : 0 ≤ count P f := Int.natCast_nonneg _

variable {P}

theorem weight_of {b : β} (h : P b) : weight P b = 1 := if_pos h

theorem weight_of_not {b : β} (h : ¬ P b) : weight P b = 0 := if_neg h

theorem count_pos {f : α → β} : 0 < count P f ↔ ∃ x, P (f x) := by
  rw [count, Int.natCast_pos, Finset.card_pos]
  constructor
  · rintro ⟨x, hx⟩
    exact ⟨x, by simpa using hx⟩
  · rintro ⟨x, hx⟩
    exact ⟨x, by simpa using hx⟩

theorem count_eq_zero {f : α → β} : count P f = 0 ↔ ∀ x, ¬ P (f x) := by
  have hpos := count_pos (P := P) (f := f)
  have hnn := count_nonneg P f
  constructor
  · intro h0 x hx
    have := hpos.mpr ⟨x, hx⟩
    omega
  · intro h
    have hle : ¬ 0 < count P f := fun hlt => by
      obtain ⟨x, hx⟩ := hpos.mp hlt
      exact h x hx
    omega

variable [DecidableEq α]

theorem count_update (f : α → β) (a : α) (b : β) :
    count P (Function.update f a b) =
      count P f - weight P (f a) + weight P b := by
  have hnew : ∀ x, weight P (Function.update f a b x) =
      Function.update (fun x => weight P (f x)) a (weight P b) x := by
    intro x
    by_cases hx : x = a
    · subst hx
      simp
    · simp [Function.update_of_ne hx]
  rw [count_eq_sum, count_eq_sum, Finset.sum_congr rfl fun x _ => hnew x,
    Finset.sum_update_of_mem (Finset.mem_univ a),
    ← Finset.add_sum_erase _ _ (Finset.mem_univ a), Finset.sdiff_singleton_eq_erase]
  omega

end Kaya.Lib
