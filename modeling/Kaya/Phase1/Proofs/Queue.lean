import Kaya.Phase1.Pcb
import Kaya.Lib.CircularQueue

/-!
# Process queues

What the queue functions of `pcb.c` do to a well-formed circular queue, and
which links they leave alone.  `outProcQ` gets two lemmas: on the tail it
removes it, and on any other node its search ends at once with `NULL`.
-/

namespace Kaya

open Lib

variable {π δ : Type} [DecidableEq π]

def Phase1.relink (s : Phase1 π δ) (next prev : π → Option π) : Phase1 π δ :=
  { s with lk.pNext := next, lk.pPrev := prev }

/-- Two link maps agree at every node that satisfies `q`. -/
def AgreeOn (q : π → Prop) (next next' prev prev' : π → Option π) : Prop :=
  ∀ u, q u → next' u = next u ∧ prev' u = prev u

/-! ## `insertProcQ` -/

theorem insertProcQ_none (s : Phase1 π δ) (p : π) :
    insertProcQ none (some p) s =
      .ok (some p) (s.relink (Function.update s.lk.pNext p (some p))
        (Function.update s.lk.pPrev p (some p))) := rfl

theorem insertProcQ_some (s : Phase1 π δ) {z a p : π}
    (h : s.lk.pNext z = some a) (hne : p ≠ z) :
    insertProcQ (some z) (some p) s = .ok (some p) (s.relink
      (Function.update (Function.update s.lk.pNext p (some a)) z (some p))
      (Function.update (Function.update s.lk.pPrev p (some z)) a (some p))) := by
  simp [insertProcQ, emptyProcQ, getNext, setNext, setPrev, deref, h, hne,
    Phase1.relink]

theorem insertProcQ_spec {s : Phase1 π δ} {tp : Option π} {l : List π} {p : π}
    (h : IsQueue s.lk.pNext s.lk.pPrev tp l) (hp : p ∉ l) :
    ∃ next prev, insertProcQ tp (some p) s = .ok (some p) (s.relink next prev) ∧
      IsQueue next prev (some p) (l ++ [p]) ∧
      AgreeOn (fun u => u ∉ l ∧ u ≠ p) s.lk.pNext next s.lk.pPrev prev := by
  cases l with
  | nil =>
      obtain rfl : tp = none := h.eq_nil_iff.mpr rfl
      refine ⟨_, _, insertProcQ_none s p, IsQueue.singleton p, ?_⟩
      intro u hu
      exact ⟨Function.update_of_ne hu.2 _ _, Function.update_of_ne hu.2 _ _⟩
  | cons a l =>
      obtain ⟨m, z, hm, rfl, -⟩ := h.exists_tail (by simp)
      have hzl : z ∈ a :: l := by rw [hm]; simp
      have hpz : p ≠ z := fun heq => hp (heq ▸ hzl)
      refine ⟨_, _, insertProcQ_some s h.next_tail hpz, h.append hp, ?_⟩
      intro u hu
      have huz : u ≠ z := fun heq => hu.1 (heq ▸ hzl)
      have hua : u ≠ a := fun heq => hu.1 (by simp [heq])
      constructor
      · rw [Function.update_of_ne huz, Function.update_of_ne hu.2]
      · rw [Function.update_of_ne hua, Function.update_of_ne hu.2]

/-! ## `removeProcQ` -/

theorem removeProcQ_none (s : Phase1 π δ) :
    removeProcQ (none : Option π) s = .ok (none, none) s := rfl

theorem removeProcQ_single (s : Phase1 π δ) {z : π}
    (h : s.lk.pNext z = some z) :
    removeProcQ (some z) s = .ok (some z, none) (s.relink
      (Function.update s.lk.pNext z none)
      (Function.update s.lk.pPrev z none)) := by
  simp [removeProcQ, emptyProcQ, getNext, setNext, setPrev, deref, h,
    Phase1.relink]

theorem removeProcQ_cons (s : Phase1 π δ) {z a c : π}
    (h : s.lk.pNext z = some a) (ha : a ≠ z) (hc : s.lk.pNext a = some c) :
    removeProcQ (some z) s = .ok (some a, some z) (s.relink
      (Function.update (Function.update s.lk.pNext z (some c)) a none)
      (Function.update (Function.update s.lk.pPrev c (some z)) a none)) := by
  simp [removeProcQ, emptyProcQ, getNext, setNext, setPrev, deref, h, ha, hc,
    Phase1.relink]

theorem removeProcQ_spec {s : Phase1 π δ} {tp : Option π} {a : π} {l : List π}
    (h : IsQueue s.lk.pNext s.lk.pPrev tp (a :: l)) :
    ∃ tp' next prev,
      removeProcQ tp s = .ok (some a, tp') (s.relink next prev) ∧
      IsQueue next prev tp' l ∧ next a = none ∧ prev a = none ∧
      AgreeOn (· ∉ a :: l) s.lk.pNext next s.lk.pPrev prev := by
  obtain ⟨m, z, hm, rfl, -⟩ := h.exists_tail (by simp)
  have hzl : z ∈ a :: l := by rw [hm]; simp
  have hnext := h.next_tail
  have hnd := h.nodup
  by_cases hl : l = []
  · subst hl
    obtain rfl : z = a := by simpa using hzl
    refine ⟨none, _, _, removeProcQ_single s hnext, IsQueue.nil, by simp,
      by simp, ?_⟩
    intro u hu
    have huz : u ≠ z := fun heq => hu (by simp [heq])
    exact ⟨Function.update_of_ne huz _ _, Function.update_of_ne huz _ _⟩
  · have haz : a ≠ z := by
      rintro rfl
      have hm' : m = [] := (IsQueue.next_tail_eq_self (hm ▸ h)).mp hnext
      simp only [hm', List.nil_append, List.cons.injEq, true_and] at hm
      exact hl hm
    obtain ⟨c, hc, hcl⟩ : ∃ c, s.lk.pNext a = some c ∧ c ∈ l := by
      obtain ⟨m', hm', -, hs⟩ := h
      cases m' with
      | nil =>
          simp only [List.nil_append, List.cons.injEq] at hm'
          exact absurd hm'.2 hl
      | cons b m' =>
          simp only [List.cons_append, List.cons.injEq] at hm'
          obtain ⟨rfl, rfl⟩ := hm'
          refine ⟨_, hs.2.2.next_eq, ?_⟩
          cases m' <;> simp
    have hal : a ∉ l := (List.nodup_cons.mp hnd).1
    refine ⟨some z, _, _, removeProcQ_cons s hnext haz hc, ?_, by simp,
      by simp, ?_⟩
    · apply (h.tail hl hc).congr
      intro u hu
      have hua : u ≠ a := fun heq => hal (heq ▸ hu)
      exact ⟨Function.update_of_ne hua _ _, Function.update_of_ne hua _ _⟩
    · intro u hu
      have hua : u ≠ a := fun heq => hu (by simp [heq])
      have huz : u ≠ z := fun heq => hu (heq ▸ hzl)
      have huc : u ≠ c := fun heq => hu (by simp [heq, hcl])
      constructor
      · rw [Function.update_of_ne hua, Function.update_of_ne huz]
      · rw [Function.update_of_ne hua, Function.update_of_ne huc]

/-! ## `headProcQ` -/

theorem headProcQ_spec {s : Phase1 π δ} {tp : Option π} {l : List π}
    (h : IsQueue s.lk.pNext s.lk.pPrev tp l) :
    headProcQ tp s = .ok l.head? s := by
  cases l with
  | nil =>
      obtain rfl : tp = none := h.eq_nil_iff.mpr rfl
      rfl
  | cons a l =>
      obtain ⟨m, z, -, rfl, -⟩ := h.exists_tail (by simp)
      have hnext := h.next_tail
      by_cases haz : a = z
      · simp [headProcQ, emptyProcQ, getNext, deref, hnext, haz]
      · simp [headProcQ, emptyProcQ, getNext, deref, hnext, haz]

/-! ## `outProcQ` -/

section OutProcQ

variable [Fintype π]

theorem outProcQ_empty (s : Phase1 π δ) (p : Option π) :
    outProcQ none p s = .ok (none, none) s := rfl

/-- The search starts at the tail and compares with the tail before it moves on,
so a node that is not the tail is never found. -/
theorem outProcQ_ne (s : Phase1 π δ) {z p : π} (h : p ≠ z) :
    outProcQ (some z) (some p) s = .ok (none, some z) s := by
  have hz : z ≠ p := Ne.symm h
  simp [outProcQ, outProcQLoop, emptyProcQ, getNext, deref, hz]

theorem outProcQ_single (s : Phase1 π δ) {z : π} (h : s.lk.pNext z = some z) :
    outProcQ (some z) (some z) s = .ok (some z, none) (s.relink
      (Function.update s.lk.pNext z none)
      (Function.update s.lk.pPrev z none)) := by
  simp [outProcQ, emptyProcQ, getNext, setNext, setPrev, deref, h,
    Phase1.relink]

theorem outProcQ_tail (s : Phase1 π δ) {z a y : π}
    (h : s.lk.pNext z = some a) (ha : a ≠ z) (hy : s.lk.pPrev z = some y) :
    outProcQ (some z) (some z) s = .ok (some z, some y) (s.relink
      (Function.update (Function.update s.lk.pNext y (some a)) z none)
      (Function.update (Function.update s.lk.pPrev a (some y)) z none)) := by
  have hza : z ≠ a := Ne.symm ha
  have hnext : Function.update s.lk.pNext y (some a) z = some a := by
    by_cases hzy : z = y
    · rw [hzy, Function.update_self]
    · rw [Function.update_of_ne hzy, h]
  simp [outProcQ, emptyProcQ, getNext, getPrev, setNext, setPrev, deref, h, hza,
    hy, hnext, Phase1.relink]

theorem outProcQ_spec {s : Phase1 π δ} {z : π} {m : List π}
    (h : IsQueue s.lk.pNext s.lk.pPrev (some z) (m ++ [z])) :
    ∃ tp' next prev,
      outProcQ (some z) (some z) s = .ok (some z, tp') (s.relink next prev) ∧
      IsQueue next prev tp' m ∧ next z = none ∧ prev z = none ∧
      AgreeOn (· ∉ m ++ [z]) s.lk.pNext next s.lk.pPrev prev := by
  obtain ⟨hnd, hs⟩ := IsQueue.concat_iff.mp h
  by_cases hm : m = []
  · subst hm
    refine ⟨none, _, _, outProcQ_single s hs.1, IsQueue.nil, by simp, by simp,
      ?_⟩
    intro u hu
    have huz : u ≠ z := fun heq => hu (by simp [heq])
    exact ⟨Function.update_of_ne huz _ _, Function.update_of_ne huz _ _⟩
  · obtain ⟨y, hy, hym⟩ : ∃ y, s.lk.pPrev z = some y ∧ y ∈ m := by
      refine ⟨m.getLast hm, ?_, List.getLast_mem hm⟩
      rw [hs.prev_eq, List.getLast?_eq_some_getLast hm]
      rfl
    obtain ⟨a, ha, ham⟩ : ∃ a, s.lk.pNext z = some a ∧ a ∈ m := by
      refine ⟨m.head hm, ?_, List.head_mem hm⟩
      rw [hs.next_eq, List.head?_eq_some_head hm]
      rfl
    have hzm : z ∉ m := (nodup_concat.mp hnd).1
    have haz : a ≠ z := fun heq => hzm (heq ▸ ham)
    refine ⟨some y, _, _, outProcQ_tail s ha haz hy, ?_, by simp, by simp,
      ?_⟩
    · apply (h.dropTail hm hy ha).congr
      intro u hu
      have huz : u ≠ z := fun heq => hzm (heq ▸ hu)
      exact ⟨Function.update_of_ne huz _ _, Function.update_of_ne huz _ _⟩
    · intro u hu
      have huz : u ≠ z := fun heq => hu (by simp [heq])
      have huy : u ≠ y := fun heq => hu (by simp [heq, hym])
      have hua : u ≠ a := fun heq => hu (by simp [heq, ham])
      constructor
      · rw [Function.update_of_ne huz, Function.update_of_ne huy]
      · rw [Function.update_of_ne huz, Function.update_of_ne hua]

end OutProcQ

end Kaya
