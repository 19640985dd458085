import Kaya.Phase1.Proofs.Alloc
import Kaya.Lib.Run

/-!
# Who owns a PCB

Between `allocPcb` and `freePcb` a PCB belongs to its owner, who may write anything into it.
The free list holds exactly the PCBs that nobody owns, and a PCB that is allocated again
shows nothing of what its last owner left there.
-/

namespace Kaya

open Lib

/-- `pcb_t`: everything that a PCB holds. -/
structure PcbT (π : Type) where
  pNext : Option π
  pPrev : Option π
  pPrnt : Option π
  pChild : Option π
  pSib : Option π
  pS : State
  pSemAdd : Word
  pTime : Int
  pOldSys : Word
  pOldPgm : Word
  pOldTlb : Word
  pNewSys : Word
  pNewPgm : Word
  pNewTlb : Word

def PcbT.blank {π : Type} : PcbT π where
  pNext := none
  pPrev := none
  pPrnt := none
  pChild := none
  pSib := none
  pS := resetState
  pSemAdd := NULL
  pTime := 0
  pOldSys := NULL
  pOldPgm := NULL
  pOldTlb := NULL
  pNewSys := NULL
  pNewPgm := NULL
  pNewTlb := NULL

namespace Phase1

variable {π δ : Type} (s : Phase1 π δ) (p : π)

def readPcb : PcbT π where
  pNext := s.lk.pNext p
  pPrev := s.lk.pPrev p
  pPrnt := s.lk.pPrnt p
  pChild := s.lk.pChild p
  pSib := s.lk.pSib p
  pS := s.pcb.pS p
  pSemAdd := s.pcb.pSemAdd p
  pTime := s.pcb.pTime p
  pOldSys := s.pcb.pOldSys p
  pOldPgm := s.pcb.pOldPgm p
  pOldTlb := s.pcb.pOldTlb p
  pNewSys := s.pcb.pNewSys p
  pNewPgm := s.pcb.pNewPgm p
  pNewTlb := s.pcb.pNewTlb p

variable [DecidableEq π] (r : PcbT π)

def writePcb : Phase1 π δ where
  lk := { s.lk with
    pNext := Function.update s.lk.pNext p r.pNext
    pPrev := Function.update s.lk.pPrev p r.pPrev
    pPrnt := Function.update s.lk.pPrnt p r.pPrnt
    pChild := Function.update s.lk.pChild p r.pChild
    pSib := Function.update s.lk.pSib p r.pSib }
  pcb :=
    { pS := Function.update s.pcb.pS p r.pS
      pSemAdd := Function.update s.pcb.pSemAdd p r.pSemAdd
      pTime := Function.update s.pcb.pTime p r.pTime
      pOldSys := Function.update s.pcb.pOldSys p r.pOldSys
      pOldPgm := Function.update s.pcb.pOldPgm p r.pOldPgm
      pOldTlb := Function.update s.pcb.pOldTlb p r.pOldTlb
      pNewSys := Function.update s.pcb.pNewSys p r.pNewSys
      pNewPgm := Function.update s.pcb.pNewPgm p r.pNewPgm
      pNewTlb := Function.update s.pcb.pNewTlb p r.pNewTlb }

end Phase1

/-! ## Runs of owners -/

/-- Memory, and the PCBs that are allocated. -/
structure Pool (π δ : Type) where
  mem : Phase1 π δ
  owned : Finset π

inductive PoolOp (π : Type) where
  | alloc
  | free (p : π)
  /-- The owner leaves `r` in `p`. -/
  | write (p : π) (r : PcbT π)

namespace Pool

variable {π δ : Type} [DecidableEq π]

/-- PCBs are freed and written to by their owners. -/
def Allowed (a : Pool π δ) : PoolOp π → Prop
  | .alloc => True
  | .free p | .write p _ => p ∈ a.owned

def step (a : Pool π δ) : PoolOp π → Pool π δ
  | .alloc =>
      match allocPcb a.mem with
      | .ok (some p) s => ⟨s, insert p a.owned⟩
      | .ok none s | .error _ s => ⟨s, a.owned⟩
  | .free p =>
      match freePcb (some p) a.mem with
      | .ok _ s | .error _ s => ⟨s, a.owned.erase p⟩
  | .write p r => ⟨a.mem.writePcb p r, a.owned⟩

def Initial (pcbArr : List π) (a : Pool π δ) : Prop :=
  a.owned = ∅ ∧ ∃ s, initPcbs pcbArr s = .ok () a.mem

/-- The free list is `l`. -/
structure Frees (a : Pool π δ) (l : List π) : Prop where
  chain : Chain a.mem.lk.pNext a.mem.lk.pcbFree l
  mem_iff : ∀ p, p ∈ l ↔ p ∉ a.owned

/-- What the pool does for its users. -/
structure Serves (a : Pool π δ) : Prop where
  free : ∃ l, Chain a.mem.lk.pNext a.mem.lk.pcbFree l ∧ l.Nodup ∧ ∀ p, p ∈ l ↔ p ∉ a.owned
  allocPcb : ∃ p s, allocPcb a.mem = .ok p s ∧ (p = none ↔ a.owned.card = MAXPROC) ∧
    ∀ q, p = some q → q ∉ a.owned ∧ s.readPcb q = .blank
  freePcb : ∀ p ∈ a.owned, ∃ s, freePcb (some p) a.mem = .ok () s

variable {a : Pool π δ} {l : List π} {p : π}

/-! ## One call -/

theorem Frees.write (h : a.Frees l) (hp : p ∈ a.owned) (r : PcbT π) :
    Frees (⟨a.mem.writePcb p r, a.owned⟩ : Pool π δ) l := by
  have hpl : p ∉ l := fun hl => (h.mem_iff p).mp hl hp
  exact ⟨h.chain.update_of_notMem hpl, h.mem_iff⟩

theorem Frees.free (h : a.Frees l) (hp : p ∈ a.owned) :
    ∃ s, freePcb (some p) a.mem = .ok () s ∧ Frees ⟨s, a.owned.erase p⟩ (p :: l) := by
  have hpl : p ∉ l := fun hl => (h.mem_iff p).mp hl hp
  have hchain : Chain (Function.update a.mem.lk.pNext p a.mem.lk.pcbFree) (some p) (p :: l) := by
    refine ⟨rfl, ?_⟩
    rw [Function.update_self]
    exact h.chain.update_of_notMem hpl
  refine ⟨_, freePcb_eq a.mem p, hchain, ?_⟩
  intro q
  rw [List.mem_cons, h.mem_iff, Finset.mem_erase]
  tauto

theorem Frees.alloc (h : a.Frees (p :: l)) :
    ∃ s, allocPcb a.mem = .ok (some p) s ∧ s.readPcb p = .blank ∧
      Frees ⟨s, insert p a.owned⟩ l := by
  obtain ⟨hhead, hchain⟩ := h.chain
  have hpl : p ∉ l := (List.nodup_cons.mp h.chain.nodup).1
  refine ⟨_, allocPcb_some hhead, ?_, hchain.update_of_notMem hpl, ?_⟩
  · simp [Phase1.readPcb, PcbT.blank, Links.unlinkTree, Payload.clear]
  · intro q
    have hq := h.mem_iff q
    rw [List.mem_cons] at hq
    rw [Finset.mem_insert]
    by_cases hqp : q = p
    · subst hqp
      simp [hpl]
    · simpa [hqp] using hq

theorem Frees.step (h : a.Frees l) {op : PoolOp π} (hop : a.Allowed op) :
    ∃ l', (a.step op).Frees l' := by
  cases op with
  | alloc =>
      cases l with
      | nil =>
          have hrun : Kaya.allocPcb a.mem = .ok none a.mem := allocPcb_none h.chain
          refine ⟨[], ?_⟩
          simp only [Pool.step, hrun]
          exact h
      | cons p l =>
          obtain ⟨s, hrun, -, h'⟩ := h.alloc
          refine ⟨l, ?_⟩
          simp only [Pool.step, hrun]
          exact h'
  | free p =>
      obtain ⟨s, hrun, h'⟩ := h.free hop
      refine ⟨p :: l, ?_⟩
      simp only [Pool.step, hrun]
      exact h'
  | write p r => exact ⟨l, h.write hop r⟩

/-- The free PCBs and the allocated ones are those of `pcbArr`. -/
theorem Frees.card (h : a.Frees l) {pcbArr : List π} (hnd : pcbArr.Nodup)
    (hall : ∀ p, p ∈ pcbArr) : l.length + a.owned.card = pcbArr.length := by
  have hdisj : Disjoint l.toFinset a.owned := by
    rw [Finset.disjoint_left]
    intro p hp
    exact (h.mem_iff p).mp (List.mem_toFinset.mp hp)
  have hunion : l.toFinset ∪ a.owned = pcbArr.toFinset := by
    ext p
    by_cases hp : p ∈ a.owned <;> simp [h.mem_iff, hp, hall p]
  rw [← List.toFinset_card_of_nodup h.chain.nodup, ← List.toFinset_card_of_nodup hnd, ← hunion,
    Finset.card_union_of_disjoint hdisj]

theorem Frees.serves (h : a.Frees l) {pcbArr : List π} (hnd : pcbArr.Nodup)
    (hall : ∀ p, p ∈ pcbArr) (hlen : pcbArr.length = MAXPROC) : a.Serves := by
  have hcard := h.card hnd hall
  rw [hlen] at hcard
  refine ⟨⟨l, h.chain, h.chain.nodup, h.mem_iff⟩, ?_, ?_⟩
  · cases l with
    | nil =>
        refine ⟨none, a.mem, allocPcb_none h.chain, ?_, by simp⟩
        simpa using hcard
    | cons p l =>
        obtain ⟨s, hrun, hblank, -⟩ := h.alloc
        refine ⟨some p, s, hrun, ?_, ?_⟩
        · rw [List.length_cons] at hcard
          simp only [reduceCtorEq, false_iff]
          omega
        · rintro q ⟨⟩
          exact ⟨(h.mem_iff p).mp List.mem_cons_self, hblank⟩
  · intro p hp
    obtain ⟨s, hrun, -⟩ := h.free hp
    exact ⟨s, hrun⟩

end Pool

/-! ## Whole runs -/

variable {π δ : Type} [DecidableEq π]

/-- `initPcbs` returns, and after it the pool serves its users in every run. -/
theorem pool_serves {pcbArr : List π} (hnd : pcbArr.Nodup) (hall : ∀ p, p ∈ pcbArr)
    (hlen : pcbArr.length = MAXPROC) :
    (∀ s : Phase1 π δ, ∃ s', initPcbs pcbArr s = .ok () s') ∧
    ∀ (h : List (Pool π δ × PoolOp π)) (a : Pool π δ),
      Run (Pool.Initial pcbArr) Pool.step Pool.Allowed h a → a.Serves := by
  constructor
  · intro s
    obtain ⟨s', hrun, -⟩ := initPcbs_spec s hnd
    exact ⟨s', hrun⟩
  · intro h a hrun
    have hfrees : ∃ l, a.Frees l := by
      refine hrun.invariant (I := fun a => ∃ l, a.Frees l) ?_ ?_
      · rintro ⟨t, o⟩ ⟨rfl, s, hinit⟩
        obtain ⟨s', hrun', hchain, -⟩ := initPcbs_spec s hnd
        obtain rfl : s' = t := by
          have heq := hrun'.symm.trans hinit
          cases heq
          rfl
        exact ⟨_, hchain, by simp [hall]⟩
      · rintro b op ⟨l, hl⟩ hop
        exact hl.step hop
    obtain ⟨l, hl⟩ := hfrees
    exact hl.serves hnd hall hlen

/-- The pool when one PCB was allocated. -/
theorem pool_serves_one : ∃ s : Phase1 (Fin MAXPROC) Unit,
    initPcbs (List.finRange MAXPROC) Phase1.sample = .ok () s ∧
      Pool.Serves (Pool.step ⟨s, ∅⟩ .alloc) := by
  have h := pool_serves (π := Fin MAXPROC) (δ := Unit) (List.nodup_finRange MAXPROC)
    List.mem_finRange (List.length_finRange ..)
  obtain ⟨s, hinit⟩ := h.1 Phase1.sample
  exact ⟨s, hinit, h.2 _ _ (.next (.start ⟨rfl, _, hinit⟩) trivial)⟩

end Kaya
