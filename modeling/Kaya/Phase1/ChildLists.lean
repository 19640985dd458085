import Kaya.Phase1.Proofs.Alloc
import Kaya.Lib.Run

/-!
# Runs of the tree functions

PCBs taken from `allocPcb` are given parents and taken from them in any order.
`insertChild` does not write `p_sib` when the parent has no children, and no
removal resets it, so the child lists stay right as long as no PCB that still
has a sibling link gets a parent without children.
-/

namespace Kaya

open Lib

variable {π δ : Type} [DecidableEq π] [Fintype π]

/-- `p` was taken from the free list and not returned. -/
def Allocated (s : Phase1 π δ) (p : π) : Prop :=
  ∃ free, Chain s.lk.pNext s.lk.pcbFree free ∧ p ∉ free

/-- `p` is `q` or above it. -/
def Above (s : Phase1 π δ) (p q : π) : Prop :=
  Relation.ReflTransGen (fun a b => s.lk.pPrnt a = some b) q p

omit [DecidableEq π] [Fintype π] in
theorem not_above_root {s : Phase1 π δ} {p q : π} (hq : s.lk.pPrnt q = none) (hne : q ≠ p) :
    ¬ Above s p q := by
  intro habove
  rcases Relation.ReflTransGen.cases_head habove with heq | ⟨r, hr, -⟩
  · exact hne heq
  · simp [hq] at hr

/-- Calls of the tree functions. -/
inductive TreeCall (π : Type) where
  | alloc
  | insert (prnt p : π)
  | remove (p : π)
  | out (p : π)

namespace TreeCall

def run : TreeCall π → Phase1M π δ (Option π)
  | alloc => allocPcb
  | insert prnt p => do
    insertChild (some prnt) (some p)
    return none
  | remove p => removeChild (some p)
  | out p => outChild (some p)

def step (s : Phase1 π δ) (c : TreeCall π) : Phase1 π δ :=
  match c.run s with
  | .ok _ s' => s'
  | .error _ s' => s'

/-- The calls are about allocated PCBs, and only one that has no parent and is not above
`prnt` becomes a child of `prnt`. -/
def Callable (s : Phase1 π δ) : TreeCall π → Prop
  | alloc => True
  | insert prnt p =>
      Allocated s prnt ∧ Allocated s p ∧ s.lk.pPrnt p = none ∧ ¬ Above s p prnt
  | remove p => Allocated s p
  | out p => Allocated s p

/-- No PCB with a sibling link gets a parent without children. -/
def Clean (s : Phase1 π δ) : TreeCall π → Prop
  | insert prnt p => s.lk.pChild prnt = none → s.lk.pSib p = none
  | _ => True

/-- What a call should return when the child lists are `kids`. -/
def answer (s : Phase1 π δ) (kids : π → List π) : TreeCall π → Option π
  | alloc => s.lk.pcbFree
  | insert _ _ => none
  | remove p => (kids p).head?
  | out p => if s.lk.pPrnt p = none then none else some p

/-- What a call should do to the child lists: a new child comes first, and a removal keeps
the order of the others. -/
def apply (kids : π → List π) : TreeCall π → π → List π
  | alloc => kids
  | insert prnt p => Function.update kids prnt (p :: kids prnt)
  | remove p => Function.update kids p (kids p).tail
  | out p => fun q => (kids q).erase p

/-- The call returns, and does what it should do. -/
def Right (s : Phase1 π δ) (kids : π → List π) (c : TreeCall π) : Prop :=
  ∃ s', c.run s = .ok (c.answer s kids) s' ∧ IsForest s'.lk (c.apply kids)

end TreeCall

/-- Child lists, and a free list of PCBs outside of them. -/
structure Grown (s : Phase1 π δ) (kids : π → List π) (free : List π) : Prop where
  forest : IsForest s.lk kids
  chain : Chain s.lk.pNext s.lk.pcbFree free
  bare : ∀ p ∈ free, s.lk.pPrnt p = none ∧ kids p = []

theorem update_none_eq_none {α β : Type} [DecidableEq α] {f : α → Option β} {a b : α}
    (h : f b = none) : Function.update f a none b = none := by
  by_cases hb : b = a
  · rw [hb, Function.update_self]
  · rw [Function.update_of_ne hb, h]

namespace Grown

variable {s : Phase1 π δ} {kids : π → List π} {free : List π} {p q : π}

omit [Fintype π] [DecidableEq π] in
theorem notMem (h : Grown s kids free) (hp : Allocated s p) : p ∉ free := by
  obtain ⟨free', hchain, hnot⟩ := hp
  rwa [h.chain.unique hchain]

omit [Fintype π] in
theorem alloc (h : Grown s kids free) :
    ∃ s', allocPcb s = .ok s.lk.pcbFree s' ∧ Grown s' kids free.tail := by
  cases free with
  | nil =>
      have hnone : s.lk.pcbFree = none := h.chain
      exact ⟨s, hnone ▸ allocPcb_none hnone, h⟩
  | cons p ps =>
      have hsome : s.lk.pcbFree = some p := h.chain.1
      obtain ⟨hprnt, hkids⟩ := h.bare p (by simp)
      have hps : p ∉ ps := (List.nodup_cons.mp h.chain.nodup).1
      have hforest := h.forest.unlinkTree hprnt hkids
      refine ⟨_, hsome ▸ allocPcb_some hsome, ⟨hforest.list, hforest.prnt⟩, ?_, ?_⟩
      · exact h.chain.2.update_of_notMem hps
      · intro q (hq : q ∈ ps)
        have hne : q ≠ p := fun heq => hps (heq ▸ hq)
        obtain ⟨hq₁, hq₂⟩ := h.bare q (by simp [hq])
        exact ⟨by simp [Links.unlinkTree, Function.update_of_ne hne, hq₁], hq₂⟩

omit [Fintype π] in
theorem insert (h : Grown s kids free) (hq : q ∉ free) (hp : p ∉ free)
    (hprnt : s.lk.pPrnt p = none) (hclean : s.lk.pChild q = none → s.lk.pSib p = none) :
    ∃ s', insertChild (some q) (some p) s = .ok () s' ∧
      Grown s' (Function.update kids q (p :: kids q)) free := by
  refine ⟨_, insertChild_eq hclean, h.forest.insert hprnt, h.chain, ?_⟩
  intro r hr
  have hrp : r ≠ p := fun heq => hp (heq ▸ hr)
  have hrq : r ≠ q := fun heq => hq (heq ▸ hr)
  simpa [Function.update_of_ne hrp, Function.update_of_ne hrq] using h.bare r hr

omit [Fintype π] in
theorem remove (h : Grown s kids free) (hq : q ∉ free) :
    ∃ s', removeChild (some q) s = .ok (kids q).head? s' ∧
      Grown s' (Function.update kids q (kids q).tail) free := by
  cases hkids : kids q with
  | nil =>
      have hchild : s.lk.pChild q = none := by rw [h.forest.child_eq, hkids]; rfl
      have hsame : Function.update kids q [] = kids := by
        rw [← hkids, Function.update_eq_self]
      refine ⟨s, removeChild_nil hchild, ?_⟩
      rwa [List.tail_nil, hsame]
  | cons p ps =>
      have hchild : s.lk.pChild q = some p := by rw [h.forest.child_eq, hkids]; rfl
      refine ⟨_, removeChild_cons hchild, h.forest.removeFirst hkids, h.chain, ?_⟩
      intro r hr
      have hrq : r ≠ q := fun heq => hq (heq ▸ hr)
      obtain ⟨hr₁, hr₂⟩ := h.bare r hr
      exact ⟨update_none_eq_none hr₁, by rwa [Function.update_of_ne hrq]⟩

theorem out (h : Grown s kids free) :
    ∃ s', outChild (some p) s = .ok (if s.lk.pPrnt p = none then none else some p) s' ∧
      Grown s' (fun q => (kids q).erase p) free := by
  cases hprnt : s.lk.pPrnt p with
  | none =>
      have hsame : (fun q => (kids q).erase p) = kids := by
        funext q
        exact List.erase_of_not_mem (h.forest.notMem_of_prnt_none hprnt q)
      refine ⟨s, ?_, ?_⟩
      · rw [if_pos rfl]
        exact outChild_none hprnt
      · rwa [hsame]
  | some q =>
      obtain ⟨pre, post, hq⟩ := List.append_of_mem ((h.forest.prnt p q).mp hprnt)
      obtain ⟨child, sib, hrun, hforest, -⟩ := outChild_spec h.forest hq
      rw [if_neg (by simp)]
      refine ⟨_, hrun, ?_, h.chain, ?_⟩
      · rwa [h.forest.kids_erase hq]
      · intro r hr
        obtain ⟨hr₁, hr₂⟩ := h.bare r hr
        exact ⟨update_none_eq_none hr₁, by simp [hr₂]⟩

/-- One call in a state with right child lists. -/
theorem call (h : Grown s kids free) {c : TreeCall π} (hcall : c.Callable s)
    (hclean : c.Clean s) :
    ∃ s' free', c.run s = .ok (c.answer s kids) s' ∧ Grown s' (c.apply kids) free' := by
  cases c with
  | alloc =>
      obtain ⟨s', hrun, h'⟩ := h.alloc
      exact ⟨s', _, hrun, h'⟩
  | insert q p =>
      obtain ⟨hq, hp, hprnt, -⟩ := hcall
      obtain ⟨s', hrun, h'⟩ := h.insert (h.notMem hq) (h.notMem hp) hprnt hclean
      exact ⟨s', free, bind_ok hrun, h'⟩
  | remove q =>
      obtain ⟨s', hrun, h'⟩ := h.remove (h.notMem hcall)
      exact ⟨s', free, hrun, h'⟩
  | out p =>
      obtain ⟨s', hrun, h'⟩ := h.out (p := p)
      exact ⟨s', free, hrun, h'⟩

end Grown

omit [Fintype π] in
theorem initPcbs_grown {s s₀ : Phase1 π δ} {pcbArr : List π} (hnd : pcbArr.Nodup)
    (hall : ∀ p, p ∈ pcbArr) (hinit : initPcbs pcbArr s₀ = .ok () s) :
    Grown s (fun _ => []) pcbArr.reverse := by
  obtain ⟨s', hrun, hchain, hreset⟩ := initPcbs_spec s₀ hnd
  obtain rfl : s' = s := by
    rw [hrun] at hinit
    cases hinit
    rfl
  refine ⟨⟨fun q => (hreset q (hall q)).child, ?_⟩, hchain, ?_⟩
  · intro p q
    simp [(hreset p (hall p)).prnt]
  · intro p _
    exact ⟨(hreset p (hall p)).prnt, rfl⟩

namespace TreeCall

def Start (pcbArr : List π) (s : Phase1 π δ) : Prop := ∃ s₀, initPcbs pcbArr s₀ = .ok () s

theorem step_eq {s s' : Phase1 π δ} {c : TreeCall π} {r : Option π}
    (h : c.run s = .ok r s') : step s c = s' := by
  rw [step, h]

/-- A call that is not clean leaves `p` in front of a list that is not its parent's. -/
theorem Right.clean {s : Phase1 π δ} {kids : π → List π} {c : TreeCall π}
    (h : c.Right s kids) (hf : IsForest s.lk kids) : c.Clean s := by
  cases c with
  | insert q p =>
      intro hchild
      obtain ⟨s', hrun, hforest⟩ := h
      have hq : kids q = [] := by
        rw [← (hf.list q).none_iff]
        exact hchild
      have hins : run (.insert q p) s = .ok none _ := bind_ok (insertChild_empty hchild)
      rw [hins] at hrun
      cases hrun
      -- the new list of `q` should hold `p` alone
      have hlist := hforest.list q
      rw [apply, Function.update_self, hq] at hlist
      exact hlist.2
  | _ => trivial

end TreeCall

/-- In every run whose calls are all clean the child lists are right, and the next call does
what it should exactly when it is clean as well. -/
theorem child_lists_iff {pcbArr : List π} (hnd : pcbArr.Nodup) (hall : ∀ p, p ∈ pcbArr)
    {h : List (Phase1 π δ × TreeCall π)} {s : Phase1 π δ}
    (hrun : Run (TreeCall.Start pcbArr) TreeCall.step (fun s c => c.Callable s ∧ c.Clean s) h s) :
    ∃ kids, IsForest s.lk kids ∧ UniqueParents kids ∧
      ∀ c : TreeCall π, c.Callable s → (c.Right s kids ↔ c.Clean s) := by
  obtain ⟨kids, free, hg⟩ : ∃ kids free, Grown s kids free := by
    apply hrun.invariant (I := fun s => ∃ kids free, Grown s kids free)
    · rintro s ⟨s₀, hinit⟩
      exact ⟨_, _, initPcbs_grown hnd hall hinit⟩
    · rintro s c ⟨kids, free, hg⟩ ⟨hcall, hclean⟩
      obtain ⟨s', free', hrun, hg'⟩ := hg.call hcall hclean
      rw [TreeCall.step_eq hrun]
      exact ⟨_, free', hg'⟩
  refine ⟨kids, hg.forest, hg.forest.uniqueParents, ?_⟩
  intro c hcall
  constructor
  · exact fun hright => hright.clean hg.forest
  · intro hclean
    obtain ⟨s', free', hrun, hg'⟩ := hg.call hcall hclean
    exact ⟨s', hrun, hg'.forest⟩

/-! ## A PCB that is reinserted -/

def samplePcbs : Phase1 (Fin 4) (Fin 0) :=
  match initPcbs [3, 2, 1, 0] Phase1.sample with
  | .ok _ s => s
  | .error _ s => s

def sampleCalls : List (TreeCall (Fin 4)) := [.alloc, .alloc, .alloc, .alloc, .insert 0 1]

theorem child_lists_iff_sample :
    ∃ kids, IsForest (sampleCalls.foldl TreeCall.step samplePcbs).lk kids ∧
      UniqueParents kids ∧
      ∀ c : TreeCall (Fin 4), c.Callable (sampleCalls.foldl TreeCall.step samplePcbs) →
        (c.Right (sampleCalls.foldl TreeCall.step samplePcbs) kids ↔
          c.Clean (sampleCalls.foldl TreeCall.step samplePcbs)) := by
  have hstart : Run (TreeCall.Start [3, 2, 1, 0]) TreeCall.step
      (fun s c => c.Callable s ∧ c.Clean s) [] samplePcbs := .start ⟨Phase1.sample, rfl⟩
  obtain ⟨h, hrun⟩ := hstart.events sampleCalls
    ⟨⟨trivial, trivial⟩, ⟨trivial, trivial⟩, ⟨trivial, trivial⟩, ⟨trivial, trivial⟩,
      ⟨⟨⟨[], rfl, by simp⟩, ⟨[], rfl, by simp⟩, rfl, not_above_root rfl (by decide)⟩,
        fun _ => rfl⟩, trivial⟩
  exact child_lists_iff (by decide) (by decide) hrun

/-- `2` becomes a child of `0` as well, is removed and becomes the only child of `3`. -/
def staleCalls : List (TreeCall (Fin 4)) :=
  sampleCalls ++ [.insert 0 2, .remove 0, .insert 3 2]

/-- The sibling link of `2` still leads to `1`, which is then in two child lists. -/
theorem child_lists_stale : ∃ h, Run (TreeCall.Start [3, 2, 1, 0]) TreeCall.step
      (fun s c => c.Callable s) h (staleCalls.foldl TreeCall.step samplePcbs) ∧
    ¬ ∃ kids, IsForest (staleCalls.foldl TreeCall.step samplePcbs).lk kids := by
  have hstart : Run (TreeCall.Start [3, 2, 1, 0]) TreeCall.step
      (fun s c => c.Callable s) [] samplePcbs := .start ⟨Phase1.sample, rfl⟩
  obtain ⟨h, hrun⟩ := hstart.events staleCalls
    ⟨trivial, trivial, trivial, trivial,
      ⟨⟨[], rfl, by simp⟩, ⟨[], rfl, by simp⟩, rfl, not_above_root rfl (by decide)⟩,
      ⟨⟨[], rfl, by simp⟩, ⟨[], rfl, by simp⟩, rfl, not_above_root rfl (by decide)⟩, ⟨[], rfl, by simp⟩,
      ⟨⟨[], rfl, by simp⟩, ⟨[], rfl, by simp⟩, rfl, not_above_root rfl (by decide)⟩, trivial⟩
  refine ⟨h, hrun, ?_⟩
  rintro ⟨kids, hforest⟩
  have hfirst : kids 3 = [2, 1] := by
    have hchain : Chain (staleCalls.foldl TreeCall.step samplePcbs).lk.pSib
        ((staleCalls.foldl TreeCall.step samplePcbs).lk.pChild 3) [2, 1] := ⟨rfl, rfl, rfl⟩
    exact (hforest.list 3).unique hchain
  have hprnt : (staleCalls.foldl TreeCall.step samplePcbs).lk.pPrnt 1 = some 0 := rfl
  have hthree := (hforest.prnt 1 3).mpr (by simp [hfirst])
  rw [hprnt] at hthree
  cases hthree

/-! ## A PCB at any position -/

section OutChild

variable {s s' : Phase1 π δ} {kids : π → List π} {p q : π}

/-- From `s` to `s'` only `p` was taken out of the children of `q`. -/
structure TakenOut (kids : π → List π) (p q : π) (s s' : Phase1 π δ) : Prop where
  list : Chain s'.lk.pSib (s'.lk.pChild q) ((kids q).erase p)
  prnt : s'.lk.pPrnt p = none
  lists : ∀ r, r ≠ q → Chain s'.lk.pSib (s'.lk.pChild r) (kids r)
  prnts : ∀ r, r ≠ p → s'.lk.pPrnt r = s.lk.pPrnt r
  /-- Nothing but links of the tree was written to. -/
  rest : s' = { s with
    lk.pChild := s'.lk.pChild, lk.pSib := s'.lk.pSib, lk.pPrnt := s'.lk.pPrnt }

/-- The search of `outChild` ends, wherever `p` stands among its parent's children. -/
theorem outChild_takes_out (h : IsForest s.lk kids) (p : π) :
    (∀ q, s.lk.pPrnt p = some q →
      ∃ s', outChild (some p) s = .ok (some p) s' ∧ TakenOut kids p q s s') ∧
    (s.lk.pPrnt p = none → outChild (some p) s = .ok none s) := by
  constructor
  · intro q hprnt
    obtain ⟨pre, post, hq⟩ := List.append_of_mem ((h.prnt p q).mp hprnt)
    obtain ⟨child, sib, hrun, hforest, -⟩ := outChild_spec h hq
    rw [← h.kids_erase hq] at hforest
    refine ⟨_, hrun, ?_⟩
    constructor
    case list => exact hforest.list q
    case prnt => exact Function.update_self ..
    case lists =>
      intro r hr
      have hnot : p ∉ kids r := fun hp => hr (h.unique hp ((h.prnt p q).mp hprnt))
      have hlist := hforest.list r
      rwa [List.erase_of_not_mem hnot] at hlist
    case prnts => exact fun r hr => Function.update_of_ne hr ..
    case rest => rfl
  · exact outChild_none

/-- `0` has the children `3`, `2` and `1`. -/
def threeChildren : Phase1 (Fin 4) (Fin 0) :=
  [TreeCall.insert 0 2, .insert 0 3].foldl TreeCall.step
    (sampleCalls.foldl TreeCall.step samplePcbs)

theorem threeChildren_forest :
    IsForest threeChildren.lk fun q => if q = 0 then [3, 2, 1] else [] := by
  constructor
  case list =>
    intro q
    have hall : ∀ q : Fin 4, q = 0 ∨ q = 1 ∨ q = 2 ∨ q = 3 := by decide
    rcases hall q with rfl | rfl | rfl | rfl
    · exact ⟨rfl, rfl, rfl, rfl⟩
    · exact (rfl : threeChildren.lk.pChild 1 = none)
    · exact (rfl : threeChildren.lk.pChild 2 = none)
    · exact (rfl : threeChildren.lk.pChild 3 = none)
  case prnt => decide

/-- The child in the middle. -/
theorem outChild_takes_out_middle :
    (∀ q, threeChildren.lk.pPrnt 2 = some q → ∃ s', outChild (some 2) threeChildren =
        .ok (some 2) s' ∧
      TakenOut (fun q => if q = 0 then [3, 2, 1] else []) 2 q threeChildren s') ∧
    (threeChildren.lk.pPrnt 2 = none → outChild (some 2) threeChildren = .ok none threeChildren) :=
  outChild_takes_out threeChildren_forest 2

end OutChild

end Kaya
