import Mathlib.Data.List.Infix
import Mathlib.Data.List.Nodup

/-!
# Waiting lines

`Fifo ms w`: the moves `ms`, the newest first, form the line `w`.  Nobody stands in the
line twice, so between joining it and being served one sees everybody else served at most
once.
-/

namespace Kaya.Lib

inductive Move (α : Type) where
  | join (a : α)
  | serve (a : α)

variable {α : Type} {a : α} {w : List α} {ms ms₁ ms₂ : List (Move α)}

def joined : List (Move α) → List α
  | [] => []
  | .join a :: ms => joined ms ++ [a]
  | .serve _ :: ms => joined ms

def served : List (Move α) → List α
  | [] => []
  | .join _ :: ms => served ms
  | .serve a :: ms => served ms ++ [a]

inductive Fifo : List (Move α) → List α → Prop
  | nil : Fifo [] []
  | join {a : α} {w : List α} {ms : List (Move α)} : Fifo ms w → a ∉ w →
      Fifo (.join a :: ms) (w ++ [a])
  | serve {a : α} {w : List α} {ms : List (Move α)} : Fifo ms (a :: w) →
      Fifo (.serve a :: ms) w

namespace Fifo

theorem nodup (h : Fifo ms w) : w.Nodup := by
  induction h with
  | nil => exact List.nodup_nil
  | join _ ha ih =>
    rw [← List.concat_eq_append]
    exact List.Nodup.concat ha ih
  | serve _ ih => exact ih.of_cons

/-- The moves `ms₂` turn the line of `ms₁` into `w`. -/
theorem append (h : Fifo (ms₂ ++ ms₁) w) :
    ∃ v, Fifo ms₁ v ∧ v ++ joined ms₂ = served ms₂ ++ w := by
  induction ms₂ generalizing w with
  | nil => exact ⟨w, h, by simp [joined, served]⟩
  | cons m ms ih =>
    cases h with
    | join h' ha =>
      obtain ⟨v, hv, heq⟩ := ih h'
      refine ⟨v, hv, ?_⟩
      rw [joined, served, ← List.append_assoc, heq, List.append_assoc]
    | serve h' =>
      obtain ⟨v, hv, heq⟩ := ih h'
      refine ⟨v, hv, ?_⟩
      rw [joined, served, heq, List.append_assoc, List.singleton_append]

/-- First come, first served. -/
theorem order (h : Fifo ms w) : joined ms = served ms ++ w := by
  rw [← List.append_nil ms] at h
  obtain ⟨v, hv, heq⟩ := h.append
  cases hv
  exact heq

/-- While `a` waits, those served are some of those who stood in front of it. -/
theorem bypass (h : Fifo (ms₂ ++ .join a :: ms₁) w) (ha : a ∉ served ms₂) :
    (served ms₂).Nodup := by
  obtain ⟨u, hu, heq⟩ := h.append
  have hnodup := hu.nodup
  cases hu with
  | @join _ v _ hv hav =>
    have hprefix : served ms₂ <+: (v ++ [a]) ++ joined ms₂ := ⟨w, heq.symm⟩
    have hle : (served ms₂).length ≤ v.length := by
      by_contra hlt
      have hmem : v ++ [a] <+: served ms₂ :=
        List.prefix_of_prefix_length_le (List.prefix_append _ _) hprefix (by simp; omega)
      exact ha (hmem.subset (by simp))
    have hfront : served ms₂ <+: v ++ [a] :=
      List.prefix_of_prefix_length_le hprefix (List.prefix_append _ _) (by simp; omega)
    exact hnodup.sublist hfront.sublist

end Fifo

end Kaya.Lib
