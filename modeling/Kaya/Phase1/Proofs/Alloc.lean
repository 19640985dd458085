import Kaya.Phase1.Proofs.Asl
import Kaya.Phase1.Proofs.Tree

/-!
# Free lists and initialisation

`allocPcb` and `freePcb` move PCBs to and from the front of the free list and
reset every field; `initPcbs` and `initASL` establish the shapes that the rest
of phase 1 keeps.
-/

namespace Kaya

open Lib

variable {π δ : Type} [DecidableEq π]

def Payload.clear (b : Payload π) (p : π) : Payload π where
  pS := Function.update b.pS p resetState
  pSemAdd := Function.update b.pSemAdd p NULL
  pTime := Function.update b.pTime p 0
  pOldSys := Function.update b.pOldSys p NULL
  pOldPgm := Function.update b.pOldPgm p NULL
  pOldTlb := Function.update b.pOldTlb p NULL
  pNewSys := Function.update b.pNewSys p NULL
  pNewPgm := Function.update b.pNewPgm p NULL
  pNewTlb := Function.update b.pNewTlb p NULL

/-- The tree links of `p` are `NULL`. -/
def Links.unlinkTree (lk : Links π δ) (p : π) : Links π δ :=
  { lk with
    pPrnt := Function.update lk.pPrnt p none
    pChild := Function.update lk.pChild p none
    pSib := Function.update lk.pSib p none }

theorem freePcb_eq (s : Phase1 π δ) (p : π) :
    freePcb (some p) s = .ok () ⟨{ s.lk.unlinkTree p with
      pNext := Function.update s.lk.pNext p s.lk.pcbFree
      pPrev := Function.update s.lk.pPrev p none
      pcbFree := some p }, s.pcb.clear p⟩ := by
  by_cases h : s.lk.pcbFree = none
  · simp [freePcb, setPrnt, setChild, setSib, setPS, setPSemAdd, setPTime,
      clearTraps, setPrev, setNext, setPcbFree, deref, emptyProcQ, h,
      Payload.clear, Links.unlinkTree]
  · simp [freePcb, setPrnt, setChild, setSib, setPS, setPSemAdd, setPTime,
      clearTraps, setPrev, setNext, setPcbFree, deref, emptyProcQ, h,
      Payload.clear, Links.unlinkTree]

theorem allocPcb_none {s : Phase1 π δ} (h : s.lk.pcbFree = none) :
    allocPcb s = .ok none s := by
  simp [allocPcb, emptyProcQ, h]

theorem allocPcb_some {s : Phase1 π δ} {p : π} (h : s.lk.pcbFree = some p) :
    allocPcb s = .ok (some p) ⟨{ s.lk.unlinkTree p with
      pNext := Function.update s.lk.pNext p none
      pPrev := Function.update s.lk.pPrev p none
      pcbFree := s.lk.pNext p }, s.pcb.clear p⟩ := by
  simp [allocPcb, setPrnt, setChild, setSib, setPS, setPSemAdd, setPTime,
    clearTraps, getNext, setPrev, setNext, setPcbFree, deref, emptyProcQ, h,
    Payload.clear, Links.unlinkTree]

/-- A process without parent and children stays out of the forest when its links
are cleared. -/
theorem IsForest.unlinkTree {lk : Links π δ} {kids : π → List π}
    (h : IsForest lk kids) {p : π} (hp : lk.pPrnt p = none)
    (hk : kids p = []) : IsForest (lk.unlinkTree p) kids := by
  have hnot := h.notMem_of_prnt_none hp
  have hchild : lk.pChild p = none := by rw [h.child_eq, hk]; rfl
  constructor
  case list =>
    intro q
    simp only [Links.unlinkTree]
    rw [← hchild, Function.update_eq_self]
    exact (h.list q).update_of_notMem (hnot q)
  case prnt =>
    intro r q
    simp only [Links.unlinkTree]
    rw [← hp, Function.update_eq_self]
    exact h.prnt r q

/-! ## `initPcbs` -/

/-- Every field of `p` has its initial value. -/
structure IsReset (s : Phase1 π δ) (p : π) : Prop where
  prnt : s.lk.pPrnt p = none
  child : s.lk.pChild p = none
  sib : s.lk.pSib p = none
  state : s.pcb.pS p = resetState
  semAdd : s.pcb.pSemAdd p = NULL
  time : s.pcb.pTime p = 0
  areas : s.pcb.pOldSys p = NULL ∧ s.pcb.pOldPgm p = NULL ∧
    s.pcb.pOldTlb p = NULL ∧ s.pcb.pNewSys p = NULL ∧
    s.pcb.pNewPgm p = NULL ∧ s.pcb.pNewTlb p = NULL

theorem freePcb_reset (s : Phase1 π δ) (p : π) :
    ∃ s', freePcb (some p) s = .ok () s' ∧ IsReset s' p ∧
      s'.lk.pcbFree = some p ∧
      s'.lk.pNext = Function.update s.lk.pNext p s.lk.pcbFree ∧
      ∀ q, q ≠ p → IsReset s q → IsReset s' q := by
  refine ⟨_, freePcb_eq s p, ?_, rfl, rfl, ?_⟩
  · constructor <;> simp [Links.unlinkTree, Payload.clear]
  · intro q hq h
    constructor <;>
      simp [Links.unlinkTree, Payload.clear, Function.update_of_ne hq, h.prnt,
        h.child, h.sib, h.state, h.semAdd, h.time, h.areas]

theorem freePcbs_spec {s : Phase1 π δ} {ps l : List π}
    (hl : Chain s.lk.pNext s.lk.pcbFree l) (hnd : (ps ++ l).Nodup)
    (hreset : ∀ p ∈ l, IsReset s p) :
    ∃ s', freePcbs ps s = .ok () s' ∧
      Chain s'.lk.pNext s'.lk.pcbFree (ps.reverse ++ l) ∧
      ∀ p ∈ ps ++ l, IsReset s' p := by
  induction ps generalizing s l with
  | nil => exact ⟨s, rfl, hl, hreset⟩
  | cons p ps ih =>
      obtain ⟨s₁, hfree, hp, hhead, hnext, hkeep⟩ := freePcb_reset s p
      have hpl : p ∉ l := by
        simp only [List.cons_append, List.nodup_cons, List.mem_append] at hnd
        tauto
      have hchain : Chain s₁.lk.pNext s₁.lk.pcbFree (p :: l) := by
        rw [hhead, hnext]
        refine ⟨rfl, ?_⟩
        rw [Function.update_self]
        exact hl.update_of_notMem hpl
      have hreset₁ : ∀ q ∈ p :: l, IsReset s₁ q := by
        intro q hq
        rcases List.mem_cons.mp hq with rfl | hq
        · exact hp
        · exact hkeep q (fun heq => hpl (heq ▸ hq)) (hreset q hq)
      have hnd₁ : (ps ++ p :: l).Nodup := by
        rwa [List.nodup_middle]
      obtain ⟨s', hrest, hc, hr⟩ := ih hchain hnd₁ hreset₁
      refine ⟨s', ?_, by simpa using hc, ?_⟩
      · rw [freePcbs, bind_ok hfree]
        exact hrest
      · intro q hq
        apply hr
        simp at hq ⊢
        tauto

theorem initPcbs_spec (s : Phase1 π δ) {pcbArr : List π}
    (hnd : pcbArr.Nodup) :
    ∃ s', initPcbs pcbArr s = .ok () s' ∧
      Chain s'.lk.pNext s'.lk.pcbFree pcbArr.reverse ∧
      ∀ p ∈ pcbArr, IsReset s' p := by
  let s₁ : Phase1 π δ := { s with lk.pcbFree := none }
  have hnil : Chain s₁.lk.pNext s₁.lk.pcbFree [] := rfl
  have hnd' : (pcbArr ++ []).Nodup := by simpa using hnd
  obtain ⟨s', hrun, hc, hr⟩ := freePcbs_spec hnil hnd' (by simp)
  refine ⟨s', ?_, by simpa using hc, by simpa using hr⟩
  simpa [initPcbs, setPcbFree, mkEmptyProcQ] using hrun

/-! ## `initASL` -/

def Phase1.resemd (s : Phase1 π δ) (sNext : δ → Option δ) (sSemAdd : δ → Word)
    (sProcQ : δ → Option π) (semdActive semdFree : Option δ) : Phase1 π δ :=
  { s with lk := { s.lk with sNext, sSemAdd, sProcQ, semdActive, semdFree } }

omit [DecidableEq π] in
theorem freeSemds_spec [DecidableEq δ] {s : Phase1 π δ} {ds l : List δ}
    (hl : Chain s.lk.sNext s.lk.semdFree l) (hnd : (ds ++ l).Nodup) :
    ∃ sNext sSemAdd sProcQ semdFree, freeSemds ds s = .ok ()
        (s.resemd sNext sSemAdd sProcQ s.lk.semdActive semdFree) ∧
      Chain sNext semdFree (ds.reverse ++ l) := by
  induction ds generalizing s l with
  | nil => exact ⟨s.lk.sNext, s.lk.sSemAdd, s.lk.sProcQ, s.lk.semdFree, rfl, hl⟩
  | cons d ds ih =>
      have hdl : d ∉ l := by
        simp only [List.cons_append, List.nodup_cons, List.mem_append] at hnd
        tauto
      have hnd₁ : (ds ++ d :: l).Nodup := by
        rwa [List.nodup_middle]
      let s₁ : Phase1 π δ := s.resemd
        (Function.update s.lk.sNext d s.lk.semdFree)
        (Function.update s.lk.sSemAdd d NULL)
        (Function.update s.lk.sProcQ d none) s.lk.semdActive (some d)
      have hfree : freeSemd (some d) s = .ok () s₁ := rfl
      have hchain : Chain s₁.lk.sNext s₁.lk.semdFree (d :: l) := by
        refine ⟨rfl, ?_⟩
        simp only [s₁, Phase1.resemd, Function.update_self]
        exact hl.update_of_notMem hdl
      obtain ⟨sn, sa, sq, sf, hrest, hc⟩ := ih hchain hnd₁
      refine ⟨sn, sa, sq, sf, ?_, by simpa using hc⟩
      rw [freeSemds, bind_ok hfree, hrest]
      rfl

omit [DecidableEq π] in
/-- After `initASL` no semaphore has waiters and the two sentinels are the only
active descriptors. -/
theorem initASL_spec [DecidableEq δ] (s : Phase1 π δ) {semdArr : List δ}
    (hnd : semdArr.Nodup) (hall : ∀ d, d ∈ semdArr)
    (hlen : 2 ≤ semdArr.length) :
    ∃ sNext sSemAdd sProcQ semdActive semdFree,
      initASL semdArr s = .ok ()
        (s.resemd sNext sSemAdd sProcQ semdActive semdFree) ∧
      IsAsl (s.resemd sNext sSemAdd sProcQ semdActive semdFree).lk
        (fun _ => []) := by
  let s₁ : Phase1 π δ := { s with lk.semdFree := none }
  have hnil : Chain s₁.lk.sNext s₁.lk.semdFree [] := rfl
  have hnd' : (semdArr ++ []).Nodup := by simpa using hnd
  obtain ⟨sn, sa, sq, sf, hrun, hc⟩ := freeSemds_spec hnil hnd'
  obtain ⟨x, y, rest, hrev⟩ : ∃ x y rest, semdArr.reverse = x :: y :: rest := by
    match h : semdArr.reverse with
    | [] => simp at h; simp [h] at hlen
    | [x] => have := congrArg List.length h; simp at this; omega
    | x :: y :: rest => exact ⟨x, y, rest, rfl⟩
  rw [List.append_nil, hrev] at hc
  have hndc := hc.nodup
  have hsf : sf = some x := hc.1
  have hx : sn x = some y := hc.2.1
  have hxy : x ≠ y := by
    rintro rfl
    simp at hndc
  simp only [List.nodup_cons, List.mem_cons, not_or] at hndc
  refine ⟨Function.update (Function.update (Function.update sn x none) y none) x
      (some y),
    Function.update (Function.update sa x MININT) y MAXINT,
    Function.update (Function.update sq x none) y none, some x, sn y, ?_,
    [x, y], rest, ?_⟩
  · have h₁ : setSemdFree (π := π) (none : Option δ) s = .ok () s₁ := rfl
    rw [initASL, bind_ok h₁, bind_ok hrun]
    simp [allocSemd, setSemdFree, setSNext, setSProcQ, setSSemAdd, getSNext,
      setSemdActive, deref, mkEmptyProcQ, Phase1.resemd, hsf, hx,
      Ne.symm hxy, s₁]
  · have hyx : y ≠ x := Ne.symm hxy
    constructor
    case active =>
      refine ⟨rfl, ?_⟩
      simp [Phase1.resemd, hyx]
    case unused =>
      have hrest := hc.2.2
      simp only [Phase1.resemd]
      exact ((hrest.update_of_notMem hndc.1.2).update_of_notMem
        hndc.2.1).update_of_notMem hndc.1.2
    case all =>
      intro d
      have hd : d ∈ semdArr.reverse := List.mem_reverse.mpr (hall d)
      rw [hrev] at hd
      simp at hd ⊢
      tauto
    case disj =>
      intro d hd
      rcases List.mem_cons.mp hd with rfl | hd
      · exact hndc.1.2
      · obtain rfl : d = y := by simpa using hd
        exact hndc.2.1
    case sorted =>
      have hlt : MININT.toNat < MAXINT.toNat := by decide
      simpa [Phase1.resemd, Links.key, hxy] using hlt
    case first => exact ⟨x, by simp, by simp [Phase1.resemd, hxy]⟩
    case last => exact ⟨y, by simp, by simp [Phase1.resemd]⟩
    case queue =>
      intro d hd hmin hmax
      rcases List.mem_cons.mp hd with rfl | hd
      · simp [Phase1.resemd, hxy] at hmin
      · obtain rfl : d = y := by simpa using hd
        simp [Phase1.resemd] at hmax
    case keys =>
      intro a ha
      exact absurd rfl ha

end Kaya
