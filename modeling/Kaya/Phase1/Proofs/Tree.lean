import Kaya.Phase1.Pcb
import Kaya.Lib.Chain
import Kaya.Lib.Forest

/-!
# Process trees

`IsForest lk kids` reads the `p_prnt`, `p_child` and `p_sib` links as a map
from a process to the list of its children.  The tree functions of `pcb.c`
change that map at one parent.
-/

namespace Kaya

open Lib

variable {π δ : Type}

/-- The child lists end in `NULL` and agree with the parent links. -/
structure IsForest (lk : Links π δ) (kids : π → List π) : Prop where
  list : ∀ q, Chain lk.pSib (lk.pChild q) (kids q)
  prnt : ∀ p q, lk.pPrnt p = some q ↔ p ∈ kids q

namespace IsForest

variable {lk : Links π δ} {kids : π → List π}

theorem nodup (h : IsForest lk kids) (q : π) : (kids q).Nodup :=
  (h.list q).nodup

theorem unique (h : IsForest lk kids) {p q r : π} (hq : p ∈ kids q)
    (hr : p ∈ kids r) : q = r := by
  have hpq := (h.prnt p q).mpr hq
  have hpr := (h.prnt p r).mpr hr
  exact Option.some.inj (hpq.symm.trans hpr)

theorem uniqueParents (h : IsForest lk kids) : UniqueParents kids :=
  ⟨fun _ _ _ hq hr => h.unique hq hr, h.nodup⟩

theorem notMem_of_prnt_none (h : IsForest lk kids) {p : π}
    (hp : lk.pPrnt p = none) (q : π) : p ∉ kids q := by
  intro hq
  have := (h.prnt p q).mpr hq
  simp [hp] at this

theorem child_eq (h : IsForest lk kids) (q : π) :
    lk.pChild q = (kids q).head? :=
  (h.list q).eq_head?

end IsForest

theorem emptyChild_eq (s : Phase1 π δ) (p : π) :
    emptyChild (some p) s = .ok (decide (s.lk.pChild p = none)) s := by
  by_cases h : s.lk.pChild p = none
  · simp [emptyChild, getChild, deref, h]
  · simp [emptyChild, getChild, deref, h]

section Operations

variable [DecidableEq π]

/-! ## `insertChild` -/

/-- What `insertChild` writes, unless a PCB with a stale sibling link gets a parent
without children. -/
theorem insertChild_eq {s : Phase1 π δ} {p q : π}
    (hp : s.lk.pChild q = none → s.lk.pSib p = none) :
    insertChild (some q) (some p) s = .ok () { s with
      lk.pSib := Function.update s.lk.pSib p (s.lk.pChild q)
      lk.pChild := Function.update s.lk.pChild q (some p)
      lk.pPrnt := Function.update s.lk.pPrnt p (some q) } := by
  by_cases h : s.lk.pChild q = none
  · -- the sibling link is not written here; it must be `NULL` already
    have hsib : Function.update s.lk.pSib p none = s.lk.pSib := by
      rw [← hp h, Function.update_eq_self]
    simp [insertChild, getChild, setChild, setPrnt, deref, h, hsib]
  · simp [insertChild, getChild, setChild, setSib, setPrnt, deref, h]

/-- A parent without children gets `p` as its first child; `p_sib` stays. -/
theorem insertChild_empty {s : Phase1 π δ} {p q : π} (h : s.lk.pChild q = none) :
    insertChild (some q) (some p) s = .ok () { s with
      lk.pChild := Function.update s.lk.pChild q (some p)
      lk.pPrnt := Function.update s.lk.pPrnt p (some q) } := by
  simp [insertChild, getChild, setChild, setPrnt, deref, h]

theorem IsForest.insert {lk : Links π δ} {kids : π → List π}
    (h : IsForest lk kids) {p q : π} (hp : lk.pPrnt p = none) :
    IsForest { lk with
      pSib := Function.update lk.pSib p (lk.pChild q)
      pChild := Function.update lk.pChild q (some p)
      pPrnt := Function.update lk.pPrnt p (some q) }
      (Function.update kids q (p :: kids q)) := by
  have hnot := h.notMem_of_prnt_none hp
  constructor
  case list =>
    intro r
    have hold := (h.list r).update_of_notMem (v := lk.pChild q) (hnot r)
    by_cases hr : r = q
    · subst hr
      simp only [Function.update_self]
      refine ⟨rfl, ?_⟩
      rwa [Function.update_self]
    · simpa [Function.update_of_ne hr] using hold
  case prnt =>
    intro r t
    by_cases hr : r = p
    · subst hr
      by_cases ht : t = q
      · simp [ht]
      · simp [Function.update_of_ne ht, hnot t, Ne.symm ht]
    · by_cases ht : t = q
      · subst ht
        simp [h.prnt, hr]
      · simp [Function.update_of_ne hr, Function.update_of_ne ht, h.prnt]

/-! ## `removeChild` -/

theorem removeChild_nil {s : Phase1 π δ} {q : π} (h : s.lk.pChild q = none) :
    removeChild (some q) s = .ok none s := by
  simp [removeChild, getChild, deref, h]

theorem removeChild_cons {s : Phase1 π δ} {p q : π}
    (h : s.lk.pChild q = some p) :
    removeChild (some q) s = .ok (some p) { s with
      lk.pChild := Function.update s.lk.pChild q (s.lk.pSib p)
      lk.pPrnt := Function.update s.lk.pPrnt p none } := by
  by_cases hsib : s.lk.pSib p = none
  · simp [removeChild, getChild, getSib, setChild, setPrnt, deref, h, hsib]
  · simp [removeChild, getChild, getSib, setChild, setPrnt, deref, h, hsib]

/-- Taking `p` out of the list of `q`, whatever happens to its links. -/
theorem IsForest.erase {lk lk' : Links π δ} {kids : π → List π} {p q : π}
    {l : List π} (h : IsForest lk kids) (hp : p ∈ kids q)
    (hl : ∀ r, r ∈ l ↔ r ∈ kids q ∧ r ≠ p)
    (hlist : Chain lk'.pSib (lk'.pChild q) l)
    (hchild : ∀ r, r ≠ q → lk'.pChild r = lk.pChild r)
    (hsib : ∀ r t, r ∈ kids t → t ≠ q → lk'.pSib r = lk.pSib r)
    (hprnt : lk'.pPrnt = Function.update lk.pPrnt p none) :
    IsForest lk' (Function.update kids q l) := by
  constructor
  case list =>
    intro r
    by_cases hr : r = q
    · subst hr
      simpa using hlist
    · rw [Function.update_of_ne hr, hchild r hr]
      exact (h.list r).congr (fun x hx => hsib x r hx hr)
  case prnt =>
    intro r t
    rw [hprnt]
    by_cases hr : r = p
    · subst hr
      by_cases ht : t = q
      · simp [ht, hl]
      · have hnot : r ∉ kids t := fun hrt => ht (h.unique hrt hp)
        simp [Function.update_of_ne ht, hnot]
    · by_cases ht : t = q
      · subst ht
        simp [h.prnt, hl, hr]
      · simp [Function.update_of_ne hr, Function.update_of_ne ht, h.prnt]

theorem IsForest.removeFirst {lk : Links π δ} {kids : π → List π} {p q : π}
    {ps : List π} (h : IsForest lk kids) (hq : kids q = p :: ps) :
    IsForest { lk with
      pChild := Function.update lk.pChild q (lk.pSib p)
      pPrnt := Function.update lk.pPrnt p none } (Function.update kids q ps) := by
  have hlist := h.list q
  rw [hq] at hlist
  have hnd := hlist.nodup
  apply h.erase (p := p) (by simp [hq])
  · intro r
    rw [hq]
    have hps : p ∉ ps := (List.nodup_cons.mp hnd).1
    constructor
    · intro hr
      exact ⟨List.mem_cons_of_mem p hr, fun heq => hps (heq ▸ hr)⟩
    · rintro ⟨hr, hne⟩
      exact (List.mem_cons.mp hr).resolve_left hne
  · simpa using hlist.2
  · intro r hr
    simp [Function.update_of_ne hr]
  · intro r t _ _
    rfl
  · rfl

/-- The child lists without `p`: only that of its parent changes. -/
theorem IsForest.kids_erase {lk : Links π δ} {kids : π → List π} {p q : π} {pre post : List π}
    (h : IsForest lk kids) (hq : kids q = pre ++ p :: post) :
    (fun r => (kids r).erase p) = Function.update kids q (pre ++ post) := by
  have hmem : p ∈ kids q := by simp [hq]
  have hpre : p ∉ pre := by
    have hnd := h.nodup q
    rw [hq] at hnd
    simp only [List.nodup_append, List.mem_cons] at hnd
    exact fun hp => hnd.2.2 p hp p (.inl rfl) rfl
  funext r
  by_cases hr : r = q
  · subst hr
    rw [Function.update_self, hq, List.erase_append_right _ hpre, List.erase_cons_head]
  · rw [Function.update_of_ne hr]
    exact List.erase_of_not_mem (fun hpr => hr (h.unique hpr hmem))

/-! ## `outChild` -/

theorem outChildLoop_eq {s : Phase1 π δ} {p a c : π} {pre post : List π}
    {n : Nat} (hc : Chain s.lk.pSib (some c) (pre ++ a :: p :: post))
    (hn : pre.length < n) : outChildLoop (some p) n (some c) s =
      .ok (some a) s := by
  induction pre generalizing c n with
  | nil =>
      obtain ⟨n, rfl⟩ := Nat.exists_eq_succ_of_ne_zero (Nat.ne_of_gt hn)
      obtain rfl : c = a := by simpa using hc.1
      have hsib : s.lk.pSib c = some p := hc.2.1
      simp [outChildLoop, getSib, deref, hsib]
  | cons x pre ih =>
      obtain ⟨n, rfl⟩ := Nat.exists_eq_succ_of_ne_zero
        (Nat.ne_of_gt (Nat.zero_lt_of_lt hn))
      obtain rfl : c = x := by simpa using hc.1
      have hnd := hc.nodup
      obtain ⟨y, hy, hyp⟩ : ∃ y, s.lk.pSib c = some y ∧ y ≠ p := by
        cases pre with
        | nil =>
            refine ⟨a, hc.2.1, ?_⟩
            rintro rfl
            simp at hnd
        | cons y pre =>
            refine ⟨y, hc.2.1, ?_⟩
            rintro rfl
            simp at hnd
      have hrec := ih (c := y) (n := n) (hy ▸ hc.2) (by simp at hn; omega)
      simp [outChildLoop, getSib, deref, hy, hyp, hrec]

variable [Fintype π]

theorem outChild_none {s : Phase1 π δ} {p : π} (h : s.lk.pPrnt p = none) :
    outChild (some p) s = .ok none s := by
  simp [outChild, getPrnt, deref, h]

/-- `outChild` takes `p` out of its parent's list, at any position; of the other
processes only the parent's first-child link or one sibling's link changes. -/
theorem outChild_spec {s : Phase1 π δ} {kids : π → List π} {p q : π}
    {pre post : List π} (h : IsForest s.lk kids)
    (hq : kids q = pre ++ p :: post) :
    ∃ child sib,
      outChild (some p) s = .ok (some p) { s with
        lk.pChild := child, lk.pSib := sib
        lk.pPrnt := Function.update s.lk.pPrnt p none } ∧
      IsForest { s.lk with
        pChild := child, pSib := sib
        pPrnt := Function.update s.lk.pPrnt p none }
        (Function.update kids q (pre ++ post)) ∧
      (∀ r, r ≠ q → child r = s.lk.pChild r) ∧
      ∀ r, r ∉ kids q ∨ r = p → sib r = s.lk.pSib r := by
  have hpq : p ∈ kids q := by simp [hq]
  have hprnt : s.lk.pPrnt p = some q := (h.prnt p q).mpr hpq
  have hlist := h.list q
  rw [hq] at hlist
  have hnd := hlist.nodup
  have hrest : ∀ r, r ∈ pre ++ post ↔ r ∈ kids q ∧ r ≠ p := by
    intro r
    rw [hq]
    simp only [List.nodup_append, List.nodup_cons, List.mem_cons,
      List.mem_append] at hnd ⊢
    grind
  cases pre with
  | nil =>
      have hchild : s.lk.pChild q = some p := hlist.1
      refine ⟨Function.update s.lk.pChild q (s.lk.pSib p), s.lk.pSib, ?_, ?_, ?_,
        fun r _ => rfl⟩
      · by_cases hsib : s.lk.pSib p = none
        · simp [outChild, getPrnt, getChild, getSib, setChild, setPrnt, deref,
            hprnt, hchild, hsib]
        · simp [outChild, getPrnt, getChild, getSib, setChild, setPrnt, deref,
            hprnt, hchild, hsib]
      · exact h.removeFirst hq
      · intro r hr
        rw [Function.update_of_ne hr]
  | cons c pre =>
      obtain ⟨pre', a, hpre⟩ : ∃ pre' a, c :: pre = pre' ++ [a] :=
        ⟨_, _, (List.dropLast_append_getLast (by simp)).symm⟩
      have hchild : s.lk.pChild q = some c := hlist.1
      have hcp : c ≠ p := by
        rintro rfl
        simp at hnd
      have hsplit : (c :: pre) ++ p :: post = pre' ++ a :: p :: post := by
        simp [hpre]
      have hlist' : Chain s.lk.pSib (some c) (pre' ++ a :: p :: post) := by
        rw [← hsplit, ← hchild]
        exact hlist
      have hlen : pre'.length < Fintype.card π + 1 := by
        have := hlist'.nodup.length_le_card
        simp only [List.length_append, List.length_cons] at this
        omega
      have hloop := outChildLoop_eq hlist' hlen
      have hap : a ≠ p := by
        rintro rfl
        have := hlist'.nodup
        simp [List.nodup_append] at this
      have haq : a ∈ kids q := by simp [hq, hpre]
      refine ⟨s.lk.pChild, Function.update s.lk.pSib a (s.lk.pSib p), ?_, ?_,
        fun r _ => rfl, ?_⟩
      · by_cases hsib : s.lk.pSib p = none
        · simp [outChild, getPrnt, getChild, getSib, setSib, setPrnt, deref,
            hprnt, hchild, hcp, hloop, hsib]
        · simp [outChild, getPrnt, getChild, getSib, setSib, setPrnt, deref,
            hprnt, hchild, hcp, hloop, hsib]
      · apply h.erase hpq hrest
        · have hrem := hlist'.remove_after
          rw [← hchild] at hrem
          rwa [show c :: pre ++ post = pre' ++ a :: post by simp [hpre]]
        · intro r _
          rfl
        · intro r t hr ht
          have hra : r ≠ a := by
            rintro rfl
            exact ht (h.unique hr haq)
          exact Function.update_of_ne hra _ _
        · rfl
      · intro r hr
        have hra : r ≠ a := by
          rintro rfl
          rcases hr with hr | hr
          · exact hr haq
          · exact hap hr
        exact Function.update_of_ne hra _ _

end Operations

end Kaya
