import Mathlib.Data.List.Basic
import Mathlib.Data.List.Nodup
import Mathlib.Logic.Function.Basic
import Mathlib.Order.Lattice

/-!
# Null-terminated singly linked lists

A heap of nodes `α` with one link field is a map `next : α → Option α`.
`Chain next p l` says that the pointer `p` reaches exactly the nodes of `l`,
in this order, and then `none`.  Free lists, sibling lists and sorted
descriptor lists are all read through it.
-/

namespace Kaya.Lib

variable {α : Type*}

/-- From `p`, the links `next` visit the nodes of `l` and end. -/
def Chain (next : α → Option α) : Option α → List α → Prop
  | p, [] => p = none
  | p, a :: l => p = some a ∧ Chain next (next a) l

namespace Chain

variable {next next' : α → Option α} {p : Option α} {a b : α} {l l' m : List α}

@[simp] theorem nil_iff : Chain next p [] ↔ p = none := Iff.rfl

@[simp] theorem cons_iff :
    Chain next p (a :: l) ↔ p = some a ∧ Chain next (next a) l := Iff.rfl

theorem eq_head? (h : Chain next p l) : p = l.head? := by
  cases l with
  | nil => exact h
  | cons a l => exact h.1

theorem none_iff (h : Chain next p l) : p = none ↔ l = [] := by
  rw [h.eq_head?, List.head?_eq_none_iff]

/-- Writes to nodes outside the list do not change it. -/
theorem congr (h : Chain next p l) (hl : ∀ x ∈ l, next' x = next x) :
    Chain next' p l := by
  induction l generalizing p with
  | nil => exact h
  | cons a l ih =>
      refine ⟨h.1, ?_⟩
      rw [hl a (by simp)]
      exact ih h.2 (fun x hx => hl x (by simp [hx]))

theorem update_of_notMem [DecidableEq α] {v : Option α} (h : Chain next p l)
    (ha : a ∉ l) : Chain (Function.update next a v) p l := by
  apply h.congr
  intro x hx
  rw [Function.update_of_ne]
  rintro rfl
  exact ha hx

/-- A pointer represents at most one list. -/
theorem unique (h : Chain next p l) (h' : Chain next p l') : l = l' := by
  induction l generalizing p l' with
  | nil =>
      have hp : p = none := h
      exact (h'.none_iff.mp hp).symm
  | cons a l ih =>
      cases l' with
      | nil =>
          have hp : p = none := h'
          simp [h.1] at hp
      | cons b l' =>
          have hab : a = b := Option.some.inj (h.1.symm.trans h'.1)
          subst hab
          rw [ih h.2 h'.2]

/-- The part of a list from one of its nodes on is the list of that node. -/
theorem drop_left (h : Chain next p (l ++ a :: m)) :
    Chain next (next a) m := by
  induction l generalizing p with
  | nil => exact h.2
  | cons b l ih => exact ih h.2

/-- A list fixes the links of its nodes. -/
theorem next_eq_next {p' : Option α} (h : Chain next p l) (h' : Chain next' p' l) :
    ∀ x ∈ l, next' x = next x := by
  induction l generalizing p p' with
  | nil => simp
  | cons a l ih =>
      intro x hx
      rcases List.mem_cons.mp hx with rfl | hx
      · rw [h.2.eq_head?, h'.2.eq_head?]
      · exact ih h.2 h'.2 x hx

/-- A finite list of links never visits a node twice. -/
theorem nodup (h : Chain next p l) : l.Nodup := by
  induction l generalizing p with
  | nil => exact List.nodup_nil
  | cons a l ih =>
      refine List.nodup_cons.mpr ⟨fun ha => ?_, ih h.2⟩
      obtain ⟨s, t, rfl⟩ := List.append_of_mem ha
      have ht : t = s ++ a :: t := h.2.drop_left.unique h.2
      have hlen := congrArg List.length ht
      simp at hlen
      omega

/-- Unlinking the node after `a`. -/
theorem remove_after [DecidableEq α] (h : Chain next p (l ++ a :: b :: m)) :
    Chain (Function.update next a (next b)) p (l ++ a :: m) := by
  have hnd := h.nodup
  induction l generalizing p with
  | nil =>
      simp only [List.nil_append, List.nodup_cons, List.mem_cons, not_or] at hnd
      refine ⟨h.1, ?_⟩
      rw [Function.update_self]
      exact Chain.update_of_notMem h.2.2 hnd.1.2
  | cons c l ih =>
      have hca : c ≠ a := by
        rintro rfl
        simp at hnd
      refine ⟨h.1, ?_⟩
      rw [Function.update_of_ne hca]
      exact ih h.2 (List.nodup_cons.mp hnd).2

/-- Linking a node `b` from outside the list behind `a`. -/
theorem insert_after [DecidableEq α] (h : Chain next p (l ++ a :: m))
    (hb : b ∉ l ++ a :: m) :
    Chain (Function.update (Function.update next b (next a)) a (some b)) p
      (l ++ a :: b :: m) := by
  have hnd := h.nodup
  induction l generalizing p with
  | nil =>
      simp only [List.nil_append, List.mem_cons, not_or] at hb hnd
      have ham := (List.nodup_cons.mp hnd).1
      refine ⟨h.1, by simp, ?_⟩
      rw [Function.update_of_ne hb.1, Function.update_self]
      exact (Chain.update_of_notMem (Chain.update_of_notMem h.2 hb.2) ham)
  | cons c l ih =>
      have hca : c ≠ a := by
        rintro rfl
        simp at hnd
      have hcb : c ≠ b := by
        rintro rfl
        simp at hb
      refine ⟨h.1, ?_⟩
      rw [Function.update_of_ne hca, Function.update_of_ne hcb]
      exact ih h.2 (fun hb' => hb (List.mem_cons_of_mem c hb'))
        (List.nodup_cons.mp hnd).2

end Chain

/-! ## Sorted lists -/

section Sorted

variable {β : Type*} [LinearOrder β] {key : α → β} {l : List α}

/-- Where a key belongs in a list sorted by its keys. -/
theorem exists_split_of_sorted {a : β}
    (hs : l.Pairwise (fun d e => key d < key e)) (hlo : ∃ d ∈ l, key d < a)
    (hhi : ∃ d ∈ l, a ≤ key d) :
    ∃ pre d e post, l = pre ++ d :: e :: post ∧
      (∀ x ∈ pre ++ [d], key x < a) ∧ ∀ x ∈ e :: post, a ≤ key x := by
  induction l with
  | nil => simp at hlo
  | cons x l ih =>
      obtain ⟨hx, hs⟩ := List.pairwise_cons.mp hs
      by_cases hrest : ∃ d ∈ l, key d < a
      · have hxa : key x < a := by
          obtain ⟨d, hd, hda⟩ := hrest
          exact lt_trans (hx d hd) hda
        have hhi' : ∃ d ∈ l, a ≤ key d := by
          obtain ⟨d, hd, hda⟩ := hhi
          rcases List.mem_cons.mp hd with rfl | hd
          · exact absurd hxa (not_lt.mpr hda)
          · exact ⟨d, hd, hda⟩
        obtain ⟨pre, d, e, post, rfl, hlt, hge⟩ := ih hs hrest hhi'
        refine ⟨x :: pre, d, e, post, rfl, ?_, hge⟩
        intro y hy
        rcases List.mem_cons.mp hy with rfl | hy
        · exact hxa
        · exact hlt y hy
      · -- everything behind `x` is large, so the key belongs right behind `x`
        have hge : ∀ y ∈ l, a ≤ key y := by
          intro y hy
          exact not_lt.mp (fun hya => hrest ⟨y, hy, hya⟩)
        have hxa : key x < a := by
          obtain ⟨d, hd, hda⟩ := hlo
          rcases List.mem_cons.mp hd with rfl | hd
          · exact hda
          · exact absurd hda (not_lt.mpr (hge d hd))
        cases l with
        | nil =>
            obtain ⟨d, hd, hda⟩ := hhi
            obtain rfl : d = x := by simpa using hd
            exact absurd hxa (not_lt.mpr hda)
        | cons e post =>
            refine ⟨[], x, e, post, rfl, ?_, hge⟩
            intro y hy
            obtain rfl : y = x := by simpa using hy
            exact hxa

end Sorted

end Kaya.Lib
