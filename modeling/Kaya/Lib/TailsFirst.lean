import Mathlib.Data.List.Basic
import Mathlib.Data.List.Nodup

/-!
# Taking elements from the end of a list

`TailsFirst l vs`: when the elements of `vs` are taken out of `l` one after the
other, each is the last one at its turn.
-/

namespace Kaya.Lib

variable {α : Type} [DecidableEq α]

def TailsFirst (l : List α) : List α → Prop
  | [] => True
  | v :: vs => (v ∈ l → l.getLast? = some v) ∧ TailsFirst (l.filter (· ≠ v)) vs

variable {l vs : List α} {v : α}

theorem filter_ne_of_notMem (h : v ∉ l) : l.filter (· ≠ v) = l := by
  apply List.filter_eq_self.mpr
  intro x hx
  have hne : x ≠ v := fun heq => h (heq ▸ hx)
  simpa using hne

theorem filter_ne_concat (h : (l ++ [v]).Nodup) :
    (l ++ [v]).filter (· ≠ v) = l := by
  have hv : v ∉ l := by
    rw [← List.concat_eq_append, List.nodup_concat] at h
    exact h.1
  rw [List.filter_append, filter_ne_of_notMem hv]
  simp

/-- Exactly when the elements to be taken stand at the end, in reverse order. -/
theorem tailsFirst_iff (hl : l.Nodup) (hvs : vs.Nodup) :
    TailsFirst l vs ↔ (vs.filter (· ∈ l)).reverse <:+ l := by
  induction vs generalizing l with
  | nil => simp [TailsFirst]
  | cons v vs ih =>
      obtain ⟨hv, hvs⟩ := List.nodup_cons.mp hvs
      have hrest : vs.filter (· ∈ l.filter (· ≠ v)) = vs.filter (· ∈ l) := by
        apply List.filter_congr
        intro x hx
        have hne : x ≠ v := fun heq => hv (heq ▸ hx)
        simp [hne]
      have hrec := ih (hl.filter (fun x => decide (x ≠ v))) hvs
      rw [hrest] at hrec
      by_cases hmem : v ∈ l
      · rw [List.filter_cons_of_pos (by simpa using hmem), List.reverse_cons]
        constructor
        · rintro ⟨hlast, htail⟩
          obtain ⟨m, rfl⟩ := List.getLast?_eq_some_iff.mp (hlast hmem)
          have hsuf := hrec.mp htail
          rw [filter_ne_concat hl] at hsuf
          obtain ⟨t, ht⟩ := hsuf
          exact ⟨t, by rw [← List.append_assoc, ht]⟩
        · rintro ⟨t, ht⟩
          rw [← List.append_assoc] at ht
          have hlast : l.getLast? = some v := by rw [← ht]; simp
          refine ⟨fun _ => hlast, hrec.mpr ?_⟩
          have hfil : ∀ m, m ++ [v] = l → l.filter (· ≠ v) = m := by
            rintro m rfl
            exact filter_ne_concat hl
          rw [hfil _ ht]
          exact List.suffix_append t _
      · rw [List.filter_cons_of_neg (by simpa using hmem)]
        rw [filter_ne_of_notMem hmem] at hrec
        rw [← hrec, TailsFirst, filter_ne_of_notMem hmem]
        simp [hmem]

end Kaya.Lib
