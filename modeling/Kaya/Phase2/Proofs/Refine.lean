import Kaya.Phase2.Proofs.Invariant
import Kaya.Phase2.Proofs.Shape

/-!
# The code does to its pointers what the services do to the lists
-/

namespace Kaya

open Lib

/-- From any pointers that represent the lists of `a`, the program `x` stops as
`m` does, with pointers that represent the lists of `m`. -/
def Refines (x : NucM Unit) (a : Abs) (m : AbsMachine) : Prop :=
  ∀ lk, Shape lk a.lk → ∃ lk',
    x (a.withLk lk) = .error m.cpu (m.nuc.withLk lk') ∧ Shape lk' m.nuc.lk

def Runs (x : NucM Unit) (a b : Abs) : Prop :=
  ∀ lk, Shape lk a.lk → ∃ lk',
    x (a.withLk lk) = .ok () (b.withLk lk') ∧ Shape lk' b.lk

section Placed

variable {K : Layout} {a : Abs} {place : Pcb → Place} {p : Pcb}

theorem Placed.apart (h : Placed K a place) : Apart a.lk := by
  constructor
  · intro p hf hr
    rw [(h.spot p).free] at hf
    rw [(h.spot p).ready, hf] at hr
    simp at hr
  · intro p hf w hw
    rw [(h.spot p).free] at hf
    rw [(h.spot p).blocked, hf] at hw
    simp at hw
  · intro p hr w hw
    rw [(h.spot p).ready] at hr
    rw [(h.spot p).blocked, hr] at hw
    simp at hw
  · exact h.disjoint

theorem Placed.out (h : Placed K a place) (hcur : a.currentProc = some p) :
    a.lk.Out p := by
  have hp : place p = .running := (h.spot p).running.mp hcur
  constructor
  · rw [(h.spot p).free, hp]
    simp
  · rw [(h.spot p).ready, hp]
    simp
  · intro w
    rw [(h.spot p).blocked, hp]
    simp

end Placed

variable {K : Layout} {a : Abs} {place : Pcb → Place} {p : Pcb} {w : Word}

/-! ## The scheduler -/

theorem scheduler_run (hap : Apart a.lk) (hsft : 0 ≤ a.sftBlkCnt) {lk : Ptrs}
    (hshape : Shape lk a.lk) :
    ∃ lk', scheduler (a.withLk lk) = .error a.schedule.cpu (a.schedule.nuc.withLk lk') ∧
      Shape lk' a.schedule.nuc.lk ∧ SameSemd lk.toLinks lk'.toLinks := by
  cases hready : a.lk.ready with
  | nil =>
      have hrem (s : Nucleus) (hs : s.lk = lk) : removeReady s = .ok none s :=
        (removeReady_nil (hs ▸ hshape.queues) hready).2
      refine ⟨lk, ?_, ?_, ⟨rfl, rfl, rfl, rfl, rfl⟩⟩
      · simp only [scheduler, emit, bind_run, get_run, modify_run, hrem, Abs.schedule,
          hready, NucleusOf.withLk]
        by_cases h0 : a.procCnt = 0
        · simp [h0, HALT]
        · by_cases h1 : a.sftBlkCnt = 0
          · simp [h0, h1, PANIC]
          · have hpos : 0 < a.sftBlkCnt := by omega
            simp [h0, h1, hpos, getSTATUS, setSTATUS, WAIT]
      · have hlk : a.schedule.nuc.lk = a.lk := by
          simp only [Abs.schedule, hready]
          split_ifs <;> rfl
        rwa [hlk]
  | cons p ps =>
      obtain ⟨lk', hrem, hq, htree, hsemd⟩ := removeReady_spec (s := { a.withLk lk with
        waiting := false, ioProcTime := 0
        trace := .scheduler a.currentProc :: a.trace }) hshape.queues hap hready
      simp only [NucleusOf.withLk] at hrem
      refine ⟨lk', ?_, ?_, hsemd⟩
      · simp [scheduler, emit, hrem, Abs.schedule, hready, NucleusOf.withLk, setCurrentProc,
          setTIMER, STCK, getPS, deref, LDST]
      · simp only [Abs.schedule, hready]
        exact ⟨hq, hshape.trees.congr htree⟩

theorem scheduler_refines (hap : Apart a.lk) (hsft : 0 ≤ a.sftBlkCnt) :
    Refines scheduler a a.schedule := by
  intro lk hshape
  obtain ⟨lk', hrun, hshape', -⟩ := scheduler_run hap hsft hshape
  exact ⟨lk', hrun, hshape'⟩

/-! ## Waiting -/

theorem blockCurrent_runs (h : Placed K a place) (hcur : a.currentProc = some p)
    (hw : SemAddr w) (soft : Int) :
    Runs (blockCurrent w) a
      { a.block soft p w with currentProc := some p, sftBlkCnt := a.sftBlkCnt } := by
  intro lk hshape
  obtain ⟨lk', hins, hq, htree⟩ := insertBlocked_shape (s := { (a.block soft p w).withLk lk with
    currentProc := some p, sftBlkCnt := a.sftBlkCnt, pcb.pSemAdd := a.pcb.pSemAdd })
    hshape.queues h.apart (h.out hcur) hw
  simp only [NucleusOf.withLk, Abs.block] at hins
  refine ⟨lk', ?_, hq, hshape.trees.congr htree⟩
  simp [blockCurrent, STCK, deref, emit, NucleusOf.withLk, hcur, Abs.block, hins]


theorem schedule_from_block (h : Placed K a place) (hcur : a.currentProc = some p)
    (hw : SemAddr w) {soft : Int} (hsoft : soft = weight K.IsDev w) :
    Refines scheduler (a.block soft p w) (a.block soft p w).schedule := by
  have hb := h.block hcur hw hsoft
  exact scheduler_refines hb.apart hb.sftBlkCnt_nonneg

theorem P_refines (h : Placed K a place) (hcur : a.currentProc = some p)
    (hw : SemAddr a.sysOld.a1) (hdev : ¬ K.IsDev a.sysOld.a1) :
    Refines P a (a.P p) := by
  intro lk hshape
  let b := a.setInt a.sysOld.a1 (a.mem a.sysOld.a1 - 1)
  have hb : Placed K b place := h.congr rfl rfl rfl rfl rfl rfl rfl
  by_cases hneg : (a.mem a.sysOld.a1 - 1).toInt < 0
  · obtain ⟨lk₁, hblk, hshape₁⟩ := blockCurrent_runs hb hcur hw 0 lk hshape
    obtain ⟨lk₂, hsch, hshape₂⟩ :=
      schedule_from_block hb hcur hw (weight_of_not hdev).symm lk₁ hshape₁
    rw [Abs.P_of_neg hneg]
    refine ⟨lk₂, ?_, hshape₂⟩
    simp only [NucleusOf.withLk, Abs.setInt, Abs.block, add_zero, b] at hblk hsch ⊢
    simp only [P, storeInt, loadInt, setCurrentProc, bind_run, get_run, modify_run, pure_run,
      ite_run, Function.update_self, if_pos hneg, hblk, hsch]
  · rw [Abs.P_of_not_neg hneg]
    refine ⟨lk, ?_, hshape⟩
    simp only [P, storeInt, loadInt, LDST, bind_run, get_run, modify_run, pure_run, ite_run,
      throw_run, NucleusOf.withLk, Abs.setInt, Function.update_self, if_neg hneg]

theorem waitSemDev_refines (h : Placed K a place) (hcur : a.currentProc = some p)
    (hdev : K.IsDev w) : Refines (waitSemDev w) a (a.waitDev p w) := by
  intro lk hshape
  let b := a.setInt w (a.mem w - 1)
  have hb : Placed K b place := h.congr rfl rfl rfl rfl rfl rfl rfl
  by_cases hneg : (a.mem w - 1).toInt < 0
  · have hw := Layout.semAddr_of_isDev hdev
    obtain ⟨lk₁, hblk, hshape₁⟩ := blockCurrent_runs hb hcur hw 1 lk hshape
    obtain ⟨lk₂, hsch, hshape₂⟩ :=
      schedule_from_block hb hcur hw (weight_of hdev).symm lk₁ hshape₁
    rw [Abs.waitDev_of_neg hneg]
    refine ⟨lk₂, ?_, hshape₂⟩
    simp only [NucleusOf.withLk, Abs.setInt, Abs.block, b] at hblk hsch ⊢
    simp only [waitSemDev, storeInt, loadInt, setCurrentProc, bind_run, get_run, modify_run,
      pure_run, ite_run, Function.update_self, if_pos hneg, hblk, hsch]
  · rw [Abs.waitDev_of_not_neg hneg]
    refine ⟨lk, ?_, hshape⟩
    simp only [waitSemDev, storeInt, loadInt, LDST, bind_run, get_run, modify_run, pure_run,
      ite_run, throw_run, NucleusOf.withLk, Abs.setInt, Function.update_self, if_neg hneg]

/-! ## Waking -/

theorem Placed.apart_dequeue (h : Placed K a place) {ps : List Pcb}
    (hq : a.lk.blocked w = p :: ps) (hnd : (p :: ps).Nodup) :
    Apart { a.lk with blocked := Function.update a.lk.blocked w ps } ∧
      Lists.Out { a.lk with blocked := Function.update a.lk.blocked w ps } p := by
  have hap := h.apart
  have hsub : ∀ v, ∀ u ∈ Function.update a.lk.blocked w ps v, u ∈ a.lk.blocked v := by
    intro v u hu
    by_cases hv : v = w
    · subst hv
      rw [Function.update_self] at hu
      simp [hq, hu]
    · rwa [Function.update_of_ne hv] at hu
  have hpw : p ∈ a.lk.blocked w := by simp [hq]
  refine ⟨⟨hap.freeReady, fun u hu v hv => hap.freeBlocked u hu v (hsub v u hv),
    fun u hu v hv => hap.readyBlocked u hu v (hsub v u hv),
    fun v v' u hu hu' => hap.blocked v v' u (hsub v u hu) (hsub v' u hu')⟩, ?_, ?_, ?_⟩
  · exact fun hf => hap.freeBlocked p hf w hpw
  · exact fun hr => hap.readyBlocked p hr w hpw
  · intro v hv
    obtain rfl := hap.blocked v w p (hsub v p hv) hpw
    have hps : p ∈ ps := by simpa using hv
    exact (List.nodup_cons.mp hnd).1 hps

/-- Waking the first waiter of `w`; `b` is the state in which it becomes ready. -/
theorem unblock_runs (h : Placed K a place) (hw : SemAddr w) {ps : List Pcb}
    (hq : a.lk.blocked w = p :: ps) (lk : Ptrs) (hshape : Shape lk a.lk) (b : Abs) :
    ∃ lk₁ lk₂, phase1 (removeBlocked w) (a.withLk lk) = .ok (some p)
        { a.withLk lk₁ with pcb.pSemAdd := Function.update a.pcb.pSemAdd p NULL } ∧
      insertReady (some p) (b.withLk lk₁) = .ok ()
        { b.withLk lk₂ with trace := .join (some p) :: b.trace } ∧
      Shape lk₂ { a.lk with
        blocked := Function.update a.lk.blocked w ps, ready := a.lk.ready ++ [p] } ∧
      Released lk.toLinks lk₂.toLinks w (ps = []) := by
  have hnd := hshape.queues.nodups_blocked w
  rw [hq] at hnd
  obtain ⟨lk₁, hrem, hq₁, ht₁, hrel⟩ :=
    removeBlocked_shape (s := a.withLk lk) hshape.queues h.apart hw hq
  obtain ⟨hap, hout⟩ := h.apart_dequeue hq hnd
  obtain ⟨lk₂, hins, hq₂, ht₂, hsemd⟩ := insertReady_spec (s := b.withLk lk₁) hq₁ hap hout
  exact ⟨lk₁, lk₂, hrem, hins, ⟨hq₂, (hshape.trees.congr ht₁).congr ht₂⟩, hrel.same hsemd⟩

theorem V_refines (h : Placed K a place) (hw : SemAddr a.sysOld.a1) :
    Refines V a a.V := by
  intro lk hshape
  let b := a.setInt a.sysOld.a1 (a.mem a.sysOld.a1 + 1)
  have hb : Placed K b place := h.congr rfl rfl rfl rfl rfl rfl rfl
  by_cases hle : (a.mem a.sysOld.a1 + 1).toInt ≤ 0
  · rw [Abs.V_of_le hle]
    cases hq : a.lk.blocked a.sysOld.a1 with
    | nil =>
        have hrem := removeBlocked_shape_nil (s := b.withLk lk) hshape.queues hw hq
        rw [Abs.wake_nil (a := a.setInt _ _) hq]
        refine ⟨lk, ?_, hshape⟩
        simp only [NucleusOf.withLk, Abs.setInt, b] at hrem ⊢
        simp only [V, storeInt, loadInt, LDST, bind_run, get_run, modify_run, pure_run, ite_run,
          throw_run, Function.update_self, if_pos hle, hrem, ne_eq, not_true_eq_false, if_false]
    | cons p ps =>
        obtain ⟨lk₁, lk₂, hrem, hins, hshape₂, -⟩ :=
          unblock_runs hb hw hq lk hshape
            { b.unblock 0 a.sysOld.a1 p ps with trace := b.trace }
        rw [Abs.wake_cons (a := a.setInt _ _) hq]
        refine ⟨lk₂, ?_, hshape₂⟩
        simp only [NucleusOf.withLk, Abs.setInt, Abs.unblock, sub_zero, b] at hrem hins ⊢
        simp only [V, storeInt, loadInt, LDST, bind_run, get_run, modify_run, pure_run, ite_run,
          throw_run, Function.update_self, if_pos hle, hrem, ne_eq, reduceCtorEq,
          not_false_eq_true, if_true, hins]
  · rw [Abs.V_of_not_le hle]
    refine ⟨lk, ?_, hshape⟩
    simp only [V, storeInt, loadInt, LDST, bind_run, get_run, modify_run, pure_run, ite_run,
      throw_run, NucleusOf.withLk, Abs.setInt, Function.update_self, if_neg hle]

/-! ## Creating a process -/

/-- A free process has no tree links. -/
theorem Family.orphan {l : Lists} {lk : Ptrs} (h : Family l) (htree : Trees lk.toLinks l.kids)
    (hp : p ∈ l.free) : lk.pPrnt p = none ∧ l.kids p = [] := by
  constructor
  · cases hprnt : lk.pPrnt p with
    | none => rfl
    | some q => exact absurd hp (h.child p q ((htree.forest.prnt p q).mp hprnt))
  · cases hkids : l.kids p with
    | nil => rfl
    | cons c cs => exact absurd hp (h.parent c p (by simp [hkids]))

theorem Placed.apart_alloc (h : Placed K a place) {fs : List Pcb} (hfree : a.lk.free = p :: fs)
    (hnd : (p :: fs).Nodup) :
    Apart { a.lk with free := fs } ∧ Lists.Out { a.lk with free := fs } p := by
  have hap := h.apart
  have hp : p ∈ a.lk.free := by simp [hfree]
  have hsub : ∀ u ∈ fs, u ∈ a.lk.free := by
    intro u hu
    simp [hfree, hu]
  exact ⟨⟨fun u hu => hap.freeReady u (hsub u hu), fun u hu => hap.freeBlocked u (hsub u hu),
    hap.readyBlocked, hap.blocked⟩,
    (List.nodup_cons.mp hnd).1, hap.freeReady p hp, hap.freeBlocked p hp⟩

theorem createprocess_refines (h : Placed K a place) (hfam : Family a.lk)
    (hcur : a.currentProc = some p) :
    Refines createprocess a (a.createprocess p) := by
  intro lk hshape
  cases hfree : a.lk.free with
  | nil =>
      have hnone : lk.pcbFree = none := by
        rw [hshape.queues.free.none_iff, hfree]
      have halloc : phase1 allocPcb (a.withLk lk) = .ok none (a.withLk lk) := by
        have hrun := allocPcb_none (s := ⟨lk.toLinks, a.pcb⟩) hnone
        simp [phase1_run, NucleusOf.withLk, hrun]
      refine ⟨lk, ?_, ?_⟩
      · simp only [NucleusOf.withLk] at halloc
        simp [createprocess, halloc, setSysOld, LDST, Abs.createprocess, hfree, NucleusOf.withLk]
      · simpa only [Abs.createprocess, hfree] using hshape
  | cons c fs =>
      have hhead : lk.pcbFree = some c := by
        rw [hshape.queues.free.eq_head?, hfree]
        rfl
      have hnd := hshape.queues.nodups_free
      rw [hfree] at hnd
      obtain ⟨hprnt, hkids⟩ := hfam.orphan hshape.trees (p := c) (by simp [hfree])
      obtain ⟨hap, hout⟩ := h.apart_alloc hfree hnd
      let lk₁ := lk.acquire c
      have hq₁ := hshape.queues.acquire h.apart hfree
      have ht₁ : Trees lk₁.toLinks a.lk.kids :=
        (hshape.trees.unlinkTree hprnt hkids).congr ⟨rfl, rfl, rfl⟩
      have hprnt₁ : lk₁.pPrnt c = none := by simp [lk₁, Ptrs.acquire, Links.unlinkTree]
      have hsib₁ : lk₁.pSib c = none := by simp [lk₁, Ptrs.acquire, Links.unlinkTree]
      let lk₂ := lk₁.retree (Function.update lk₁.pPrnt c (some p))
        (Function.update lk₁.pChild p (some c)) (Function.update lk₁.pSib c (lk₁.pChild p))
      have hq₂ : Queues lk₂ { a.lk with free := fs } := hq₁.retree _ _ _
      have ht₂ : Trees lk₂.toLinks (Function.update a.lk.kids p (c :: a.lk.kids p)) :=
        ht₁.insert hprnt₁
      let b : Abs := { a with
        pcb := { a.pcb.clear c with
          pS := Function.update (a.pcb.clear c).pS c (stateAt a.mem a.sysOld.a1) } }
      obtain ⟨lk₃, hins, hq₃, ht₃, -⟩ := insertReady_spec (s := b.withLk lk₂) hq₂ hap hout
      have halloc := allocPcb_run (s := a.withLk lk) hhead
      have hchild := insertChild_run (s := b.withLk lk₁) (q := p) hsib₁
      refine ⟨lk₃, ?_, ?_⟩
      · simp only [NucleusOf.withLk, hcur, b] at halloc hchild hins
        simp [createprocess, NucleusOf.withLk, hcur, halloc, hchild, hins, lk₁, lk₂, setSysOld,
          emit, LDST, Abs.createprocess, hfree]
      · simp only [Abs.createprocess, hfree]
        exact ⟨⟨hq₃.free, hq₃.ready, hq₃.asl⟩, ht₂.congr ht₃⟩

end Kaya
