import Mathlib.Data.List.Basic
import Mathlib.Data.List.Nodup
import Mathlib.Logic.Function.Basic

/-!
# Circular doubly linked queues

A heap of nodes `α` with two link fields is a pair of maps
`next prev : α → Option α`.  A queue is known by a pointer to its tail; the
tail's `next` is the head.  `IsQueue next prev tp l` says that `tp` is the
tail of a well-formed circular queue that holds `l`, head first.

All three changes of shape (append, remove the head, remove the tail) replace
the node in front of a run of links, so they share `Seg.reroot`.
-/

namespace Kaya.Lib

variable {α : Type*}

theorem nodup_concat {a : α} {l : List α} :
    (l ++ [a]).Nodup ↔ a ∉ l ∧ l.Nodup := by
  rw [← List.concat_eq_append, List.nodup_concat]

/-- The links lead from `x` through `l` to `y`, forwards and backwards. -/
def Seg (next prev : α → Option α) : α → List α → α → Prop
  | x, [], y => next x = some y ∧ prev y = some x
  | x, a :: l, y => next x = some a ∧ prev a = some x ∧ Seg next prev a l y

namespace Seg

variable {next prev next' prev' : α → Option α} {x y z a : α} {l m : List α}

@[simp] theorem nil_iff :
    Seg next prev x [] y ↔ next x = some y ∧ prev y = some x := Iff.rfl

@[simp] theorem cons_iff :
    Seg next prev x (a :: l) y ↔
      next x = some a ∧ prev a = some x ∧ Seg next prev a l y := Iff.rfl

@[simp] theorem append_iff :
    Seg next prev x (l ++ a :: m) y ↔
      Seg next prev x l a ∧ Seg next prev a m y := by
  induction l generalizing x with
  | nil => simp [and_assoc]
  | cons b l ih => simp [ih, and_assoc]

/-- The first node behind `x` is the head of the run, or `y` when it is empty. -/
theorem next_eq (h : Seg next prev x l y) :
    next x = some (l.head?.getD y) := by
  cases l with
  | nil => exact h.1
  | cons a l => exact h.1

theorem prev_eq (h : Seg next prev x l y) :
    prev y = some (l.getLast?.getD x) := by
  induction l generalizing x with
  | nil => exact h.2
  | cons a l ih =>
      rw [ih h.2.2]
      cases l with
      | nil => rfl
      | cons b l => simp [List.getLast?_eq_some_getLast]

/-- Every node in front of the end has a successor. -/
theorem next_ne_none (h : Seg next prev x l y) : ∀ u ∈ x :: l, next u ≠ none := by
  induction l generalizing x with
  | nil =>
      intro u hu
      obtain rfl : u = x := by simpa using hu
      simp [h.1]
  | cons a l ih =>
      intro u hu
      rcases List.mem_cons.mp hu with rfl | hu
      · simp [h.1]
      · exact ih h.2.2 u hu

/-- Every node behind the start has a predecessor. -/
theorem prev_ne_none (h : Seg next prev x l y) : ∀ u ∈ l ++ [y], prev u ≠ none := by
  induction l generalizing x with
  | nil =>
      intro u hu
      obtain rfl : u = y := by simpa using hu
      simp [h.2]
  | cons a l ih =>
      intro u hu
      rcases List.mem_cons.mp hu with rfl | hu
      · simp [h.2.1]
      · exact ih h.2.2 u hu

/-- A run that does not pass its end is determined by its start. -/
theorem unique (h : Seg next prev x l y) (h' : Seg next prev x m y) (hl : y ∉ l) (hm : y ∉ m) :
    l = m := by
  induction l generalizing x m with
  | nil =>
      cases m with
      | nil => rfl
      | cons b m =>
          obtain rfl : y = b := Option.some.inj (h.1.symm.trans h'.1)
          exact absurd List.mem_cons_self hm
  | cons a l ih =>
      cases m with
      | nil =>
          obtain rfl : a = y := Option.some.inj (h.1.symm.trans h'.1)
          exact absurd List.mem_cons_self hl
      | cons b m =>
          obtain rfl : a = b := Option.some.inj (h.1.symm.trans h'.1)
          rw [ih h.2.2 h'.2.2 (fun hy => hl (List.mem_cons_of_mem a hy))
            (fun hy => hm (List.mem_cons_of_mem a hy))]

/-- Writes outside the run do not change it. -/
theorem congr (h : Seg next prev x l y)
    (hn : ∀ u ∈ x :: l, next' u = next u)
    (hp : ∀ u ∈ y :: l, prev' u = prev u) : Seg next' prev' x l y := by
  induction l generalizing x with
  | nil => exact ⟨by rw [hn x (by simp), h.1], by rw [hp y (by simp), h.2]⟩
  | cons a l ih =>
      refine ⟨by rw [hn x (by simp), h.1], by rw [hp a (by simp), h.2.1], ?_⟩
      apply ih h.2.2
      · intro u hu
        exact hn u (List.mem_cons_of_mem x hu)
      · intro u hu
        rcases List.mem_cons.mp hu with rfl | hu
        · exact hp _ (by simp)
        · exact hp u (by simp [hu])

/-- Let another node `x'` stand in front of a run: its `next` becomes the run's
first node, and that node's `prev` becomes `x'`. -/
theorem reroot [DecidableEq α] {x' : α} (h : Seg next prev x l y)
    (hx' : x' ∉ l) (hl : (l ++ [y]).Nodup) :
    Seg (Function.update next x' (next x))
      (Function.update prev (l.head?.getD y) (some x')) x' l y := by
  cases l with
  | nil => simp [h.1]
  | cons a l =>
      simp only [List.mem_cons, not_or] at hx'
      have hal : a ∉ l ++ [y] := (List.nodup_cons.mp hl).1
      refine ⟨by simp [h.1], by simp, h.2.2.congr ?_ ?_⟩
      · intro u hu
        rw [Function.update_of_ne]
        rintro rfl
        rcases List.mem_cons.mp hu with rfl | hu
        · exact hx'.1 rfl
        · exact hx'.2 hu
      · intro u hu
        simp only [List.head?_cons, Option.getD_some]
        rw [Function.update_of_ne]
        rintro rfl
        apply hal
        simpa [or_comm] using hu

end Seg

/-- `tp` points to the tail of a circular queue that holds `l`, head first. -/
def IsQueue (next prev : α → Option α) : Option α → List α → Prop
  | none, l => l = []
  | some z, l => ∃ m, l = m ++ [z] ∧ l.Nodup ∧ Seg next prev z m z

namespace IsQueue

variable {next prev next' prev' : α → Option α} {tp : Option α} {z a p : α}
  {l m : List α}

@[simp] theorem none_iff : IsQueue next prev none l ↔ l = [] := Iff.rfl

theorem nil : IsQueue next prev none [] := rfl

theorem concat_iff :
    IsQueue next prev (some z) (m ++ [z]) ↔
      (m ++ [z]).Nodup ∧ Seg next prev z m z := by
  constructor
  · rintro ⟨m', hm, hnd, hs⟩
    obtain rfl : m = m' := by simpa using hm
    exact ⟨hnd, hs⟩
  · rintro ⟨hnd, hs⟩
    exact ⟨m, rfl, hnd, hs⟩

theorem nodup (h : IsQueue next prev tp l) : l.Nodup := by
  cases tp with
  | none =>
      have hl : l = [] := h
      simp [hl]
  | some z =>
      obtain ⟨_, _, hnd, _⟩ := h
      exact hnd

theorem eq_getLast? (h : IsQueue next prev tp l) : tp = l.getLast? := by
  cases tp with
  | none =>
      have hl : l = [] := h
      simp [hl]
  | some z =>
      obtain ⟨m, rfl, -, -⟩ := h
      simp

theorem eq_nil_iff (h : IsQueue next prev tp l) : tp = none ↔ l = [] := by
  rw [h.eq_getLast?, List.getLast?_eq_none_iff]

/-- A tail pointer represents at most one queue. -/
theorem unique (h : IsQueue next prev tp l) (h' : IsQueue next prev tp m) : l = m := by
  cases tp with
  | none => exact Eq.trans h (Eq.symm h')
  | some z =>
      obtain ⟨l, rfl, hl, hs⟩ := h
      obtain ⟨m, rfl, hm, hs'⟩ := h'
      rw [hs.unique hs' (nodup_concat.mp hl).1 (nodup_concat.mp hm).1]

/-- The tail of a non-empty queue, and the queue in front of it. -/
theorem exists_tail (h : IsQueue next prev tp l) (hl : l ≠ []) :
    ∃ m z, l = m ++ [z] ∧ tp = some z ∧ Seg next prev z m z := by
  cases tp with
  | none => exact absurd h hl
  | some z =>
      obtain ⟨m, hm, -, hs⟩ := h
      exact ⟨m, z, hm, rfl, hs⟩

/-- No link of a node in a queue is `none`. -/
theorem links_ne_none (h : IsQueue next prev tp l) (ha : a ∈ l) :
    next a ≠ none ∧ prev a ≠ none := by
  obtain ⟨m, z, rfl, -, hs⟩ := h.exists_tail (List.ne_nil_of_mem ha)
  refine ⟨hs.next_ne_none a ?_, hs.prev_ne_none a ha⟩
  simpa [or_comm] using ha

/-- Writes to nodes that are not in the queue do not change it. -/
theorem congr (h : IsQueue next prev tp l)
    (hl : ∀ u ∈ l, next' u = next u ∧ prev' u = prev u) :
    IsQueue next' prev' tp l := by
  cases tp with
  | none => exact h
  | some z =>
      obtain ⟨m, rfl, hnd, hs⟩ := h
      refine ⟨m, rfl, hnd, hs.congr ?_ ?_⟩
      · intro u hu
        exact (hl u (by simpa [or_comm] using hu)).1
      · intro u hu
        exact (hl u (by simpa [or_comm] using hu)).2

/-- The head of a queue is behind its tail. -/
theorem next_tail (h : IsQueue next prev (some z) (a :: l)) :
    next z = some a := by
  obtain ⟨m, hm, -, hs⟩ := h
  rw [hs.next_eq]
  cases m with
  | nil =>
      simp only [List.nil_append, List.cons.injEq] at hm
      simp [hm.1]
  | cons b m =>
      simp only [List.cons_append, List.cons.injEq] at hm
      simp [hm.1]

/-- The tail is its own successor exactly when it is alone. -/
theorem next_tail_eq_self (h : IsQueue next prev (some z) (m ++ [z])) :
    next z = some z ↔ m = [] := by
  obtain ⟨hnd, hs⟩ := concat_iff.mp h
  rw [hs.next_eq]
  cases m with
  | nil => simp
  | cons b m =>
      have hbz : b ≠ z := by
        rintro rfl
        simp at hnd
      simp [hbz]

section Moves

variable [DecidableEq α]

theorem singleton (p : α) :
    IsQueue (Function.update next p (some p)) (Function.update prev p (some p))
      (some p) [p] := by
  refine ⟨[], rfl, by simp, ?_⟩
  simp

/-- Appending a node from outside the queue, with the writes in the order
`insertProcQ` makes them. -/
theorem append (h : IsQueue next prev (some z) (a :: l)) (hp : p ∉ a :: l) :
    IsQueue (Function.update (Function.update next p (some a)) z (some p))
      (Function.update (Function.update prev p (some z)) a (some p))
      (some p) (a :: l ++ [p]) := by
  obtain ⟨m, hm, hnd, hs⟩ := h
  have hnext : next z = some (m.head?.getD z) := hs.next_eq
  have ha : m.head?.getD z = a := by
    cases m <;> simp_all
  rw [hm] at hnd hp ⊢
  have hpm : p ∉ m := fun h => hp (by simp [h])
  have hpz : p ≠ z := fun h => hp (by simp [h])
  have hzm : z ∉ m := (nodup_concat.mp hnd).1
  refine ⟨m ++ [z], by simp, ?_, ?_⟩
  · exact List.Nodup.append hnd (by simp) (by simpa using hp)
  · rw [Seg.append_iff]
    -- the run `m` gets `p` in front of it; the old tail is followed by `p`
    have hroot := hs.reroot hpm hnd
    rw [hnext, ha] at hroot
    constructor
    · apply hroot.congr
      · intro u hu
        apply Function.update_of_ne
        rintro rfl
        rcases List.mem_cons.mp hu with rfl | hu
        · exact hpz rfl
        · exact hzm hu
      · intro u hu
        by_cases hua : u = a
        · simp [hua]
        · rw [Function.update_of_ne hua, Function.update_of_ne hua]
          rw [Function.update_of_ne]
          rintro rfl
          rcases List.mem_cons.mp hu with rfl | hu
          · exact hpz rfl
          · exact hpm hu
    · have hpa : p ≠ a := by
        rintro rfl
        cases m <;> simp_all
      exact ⟨by simp, by rw [Function.update_of_ne hpa, Function.update_self]⟩

/-- Removing the head of a queue with at least two nodes. -/
theorem tail (h : IsQueue next prev (some z) (a :: l)) (hl : l ≠ []) {c : α}
    (hc : next a = some c) :
    IsQueue (Function.update next z (some c)) (Function.update prev c (some z))
      (some z) l := by
  obtain ⟨m, hm, hnd, hs⟩ := h
  cases m with
  | nil =>
      simp only [List.nil_append, List.cons.injEq] at hm
      exact absurd hm.2 hl
  | cons b m =>
      simp only [List.cons_append, List.cons.injEq] at hm
      obtain ⟨rfl, rfl⟩ := hm
      have hnd' := (List.nodup_cons.mp hnd).2
      refine ⟨m, rfl, hnd', ?_⟩
      have hzm : z ∉ m := (nodup_concat.mp hnd').1
      have hroot := hs.2.2.reroot hzm hnd'
      have hcm : m.head?.getD z = c := by
        have := hs.2.2.next_eq
        rw [hc] at this
        exact (Option.some.inj this).symm
      rwa [hcm, hc] at hroot

/-- Removing the tail `z` of a queue with at least two nodes; `y` becomes the
tail. -/
theorem dropTail {y : α} (h : IsQueue next prev (some z) (m ++ [z]))
    (hm : m ≠ []) (hy : prev z = some y) (hc : next z = some a) :
    IsQueue (Function.update next y (some a)) (Function.update prev a (some y))
      (some y) m := by
  obtain ⟨hnd, hs⟩ := concat_iff.mp h
  have hlast := hs.prev_eq
  rw [hy, List.getLast?_eq_some_getLast hm] at hlast
  obtain ⟨k, hk⟩ : ∃ k, m = k ++ [y] := by
    refine ⟨m.dropLast, ?_⟩
    rw [Option.some.inj hlast]
    exact (List.dropLast_append_getLast hm).symm
  subst hk
  have hndm : (k ++ [y]).Nodup := (List.nodup_append.mp hnd).1
  have hrun : Seg next prev z k y := (Seg.append_iff.mp hs).1
  have hyk : y ∉ k := (nodup_concat.mp hndm).1
  refine ⟨k, rfl, hndm, ?_⟩
  have hroot := hrun.reroot hyk hndm
  have hka : k.head?.getD y = a := by
    have := hrun.next_eq
    rw [hc] at this
    exact (Option.some.inj this).symm
  rwa [hka, hc] at hroot

end Moves

end IsQueue

end Kaya.Lib
