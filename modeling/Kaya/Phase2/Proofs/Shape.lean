import Kaya.Phase2.Abstract
import Kaya.Phase1.Proofs.Alloc

/-!
# The pointers behind the lists

`Shape lk l` says that the pointers of the nucleus represent its lists.  Each
call of phase 1 that the nucleus makes changes one list and keeps the shape of
the others.
-/

namespace Kaya

open Lib

/-- The lists that use `p_next` and `p_prev`. -/
structure Queues (lk : Ptrs) (l : Lists) : Prop where
  free : Chain lk.pNext lk.pcbFree l.free
  ready : IsQueue lk.pNext lk.pPrev lk.readyQue l.ready
  asl : IsAsl lk.toLinks l.blocked

/-- The process tree.  A process without parent has no sibling link. -/
structure Trees (lk : Links Pcb Semd) (kids : Pcb → List Pcb) : Prop where
  forest : IsForest lk kids
  loose : ∀ p, lk.pPrnt p = none → lk.pSib p = none

structure Shape (lk : Ptrs) (l : Lists) : Prop where
  queues : Queues lk l
  trees : Trees lk.toLinks l.kids

theorem Trees.unique {lk : Links Pcb Semd} {kids kids' : Pcb → List Pcb} (h : Trees lk kids)
    (h' : Trees lk kids') : kids = kids' :=
  funext fun p => (h.forest.list p).unique (h'.forest.list p)

/-- The pointers represent at most one set of lists. -/
theorem Shape.unique {lk : Ptrs} {l l' : Lists} (h : Shape lk l) (h' : Shape lk l') : l = l' := by
  obtain ⟨free, ready, blocked, kids⟩ := l
  obtain ⟨free', ready', blocked', kids'⟩ := l'
  obtain rfl : free = free' := h.queues.free.unique h'.queues.free
  obtain rfl : ready = ready' := h.queues.ready.unique h'.queues.ready
  obtain rfl : blocked = blocked' := h.queues.asl.unique h'.queues.asl
  obtain rfl : kids = kids' := h.trees.unique h'.trees
  rfl

/-- No process is in two lists. -/
structure Apart (l : Lists) : Prop where
  freeReady : ∀ p ∈ l.free, p ∉ l.ready
  freeBlocked : ∀ p ∈ l.free, ∀ w, p ∉ l.blocked w
  readyBlocked : ∀ p ∈ l.ready, ∀ w, p ∉ l.blocked w
  blocked : QueuesDisjoint l.blocked

/-- `p` is in no list. -/
structure Lists.Out (l : Lists) (p : Pcb) : Prop where
  free : p ∉ l.free
  ready : p ∉ l.ready
  blocked : ∀ w, p ∉ l.blocked w

/-- The tree links are the same. -/
structure SameTree (lk lk' : Links Pcb Semd) : Prop where
  prnt : lk'.pPrnt = lk.pPrnt
  child : lk'.pChild = lk.pChild
  sib : lk'.pSib = lk.pSib

/-- The descriptors are the same. -/
structure SameSemd (lk lk' : Links Pcb Semd) : Prop where
  next : lk'.sNext = lk.sNext
  semAdd : lk'.sSemAdd = lk.sSemAdd
  procQ : lk'.sProcQ = lk.sProcQ
  active : lk'.semdActive = lk.semdActive
  free : lk'.semdFree = lk.semdFree

theorem SameSemd.lined {lk lk' : Links Pcb Semd} (h : SameSemd lk lk') {act free : List Semd}
    (hl : Lined lk act free) : Lined lk' act free := by
  constructor
  · rw [h.next, h.active]
    exact hl.active
  · rw [h.next, h.free]
    exact hl.unused

theorem Released.same {lk lk₁ lk₂ : Links Pcb Semd} {w : Word} {gone : Prop}
    (h : Released lk lk₁ w gone) (hs : SameSemd lk₁ lk₂) : Released lk lk₂ w gone := by
  obtain ⟨act, free, act', free', hl, hl', hadd, hrest⟩ := h
  refine ⟨act, free, act', free', hl, hs.lined hl', fun d hd => ?_, hrest⟩
  rw [hs.semAdd, hadd d hd]

theorem Trees.congr {lk lk' : Links Pcb Semd} {kids : Pcb → List Pcb}
    (h : Trees lk kids) (hs : SameTree lk lk') : Trees lk' kids := by
  constructor
  case forest =>
    constructor
    · rw [hs.sib, hs.child]
      exact h.forest.list
    · rw [hs.prnt]
      exact h.forest.prnt
  case loose =>
    rw [hs.prnt, hs.sib]
    exact h.loose

variable {lk : Ptrs} {l : Lists} {p : Pcb} {w : Word}

namespace Queues

/-- Writes to the links of other processes keep the shape of the active list. -/
theorem asl_frame (h : Queues lk l) {lk' : Links Pcb Semd} {q : Pcb → Prop}
    (hsemd : SameSemd lk.toLinks lk')
    (hag : AgreeOn q lk.pNext lk'.pNext lk.pPrev lk'.pPrev)
    (hq : ∀ w, ∀ u ∈ l.blocked w, q u) : IsAsl lk' l.blocked := by
  obtain ⟨act, free, hasl⟩ := h.asl
  obtain ⟨hnext, hadd, hproc, hact, hfree⟩ := hsemd
  refine ⟨act, free, ?_⟩
  constructor
  case active => rw [hnext, hact]; exact hasl.active
  case unused => rw [hnext, hfree]; exact hasl.unused
  case all => exact hasl.all
  case disj => exact hasl.disj
  case sorted => simpa only [Links.key, hadd] using hasl.sorted
  case first => rw [hadd]; exact hasl.first
  case last => rw [hadd]; exact hasl.last
  case queue =>
    intro d hd hmin hmax
    rw [hadd] at hmin hmax ⊢
    obtain ⟨hne, hqueue⟩ := hasl.queue d hd hmin hmax
    rw [hproc]
    exact ⟨hne, hqueue.congr (fun u hu => hag u (hq _ u hu))⟩
  case keys => rw [hadd]; exact hasl.keys

theorem setReady (h : Queues lk l) {next prev : Pcb → Option Pcb}
    {tp : Option Pcb} {ready : List Pcb} {q : Pcb → Prop}
    (hready : IsQueue next prev tp ready)
    (hag : AgreeOn q lk.pNext next lk.pPrev prev) (hfree : ∀ u ∈ l.free, q u)
    (hblk : ∀ w, ∀ u ∈ l.blocked w, q u) :
    Queues { lk with pNext := next, pPrev := prev, readyQue := tp }
      { l with ready := ready } where
  free := h.free.congr (fun u hu => (hag u (hfree u hu)).1)
  ready := hready
  asl := h.asl_frame ⟨rfl, rfl, rfl, rfl, rfl⟩ hag hblk

theorem setBlocked (h : Queues lk l) {lk' : Links Pcb Semd}
    {blocked : Word → List Pcb} {q : Pcb → Prop} (hasl : IsAsl lk' blocked)
    (hstep : QueueStep q lk.toLinks lk') (hfree : ∀ u ∈ l.free, ¬ q u)
    (hready : ∀ u ∈ l.ready, ¬ q u) :
    Queues { lk with toLinks := lk' } { l with blocked := blocked } where
  free := by
    have hchain := h.free.congr (fun u hu => (hstep.agree u (hfree u hu)).1)
    rwa [← hstep.pcbFree] at hchain
  ready := h.ready.congr (fun u hu => hstep.agree u (hready u hu))
  asl := hasl

theorem nodups_free (h : Queues lk l) : l.free.Nodup := h.free.nodup

theorem nodups_ready (h : Queues lk l) : l.ready.Nodup := h.ready.nodup

theorem nodups_blocked (h : Queues lk l) (w : Word) : (l.blocked w).Nodup := by
  obtain ⟨act, free, hasl⟩ := h.asl
  by_cases hw : l.blocked w = []
  · simp [hw]
  · obtain ⟨hmin, hmax, d, hd, rfl⟩ := hasl.keys w hw
    exact (hasl.queue d hd hmin hmax).2.nodup

end Queues

/-! ## Calls of phase 1 -/

theorem phase1_run {α : Type} (x : Phase1M Pcb Semd α) (s : Nucleus) :
    phase1 x s = match x ⟨s.lk.toLinks, s.pcb⟩ with
      | .ok v t => .ok v { s with lk.toLinks := t.lk, pcb := t.pcb }
      | .error e t => .error e { s with lk.toLinks := t.lk, pcb := t.pcb } := by
  unfold phase1 zoom
  cases x ⟨s.lk.toLinks, s.pcb⟩ <;> rfl

@[simp] theorem setPS_run (s : Nucleus) (p : Pcb) (v : State) :
    phase1 (setPS (some p) v) s =
      .ok () { s with pcb.pS := Function.update s.pcb.pS p v } := rfl

@[simp] theorem setPTime_run (s : Nucleus) (p : Pcb) (v : Int) :
    phase1 (setPTime (some p) v) s =
      .ok () { s with pcb.pTime := Function.update s.pcb.pTime p v } := rfl

@[simp] theorem getPSemAdd_run (s : Nucleus) (p : Pcb) :
    phase1 (getPSemAdd (some p)) s = .ok (s.pcb.pSemAdd p) s := rfl

/-! ## The ready queue -/

theorem insertReady_spec {s : Nucleus} (h : Queues s.lk l) (hap : Apart l)
    (hout : l.Out p) :
    ∃ lk, insertReady (some p) s =
        .ok () { s with lk := lk, trace := .join (some p) :: s.trace } ∧
      Queues lk { l with ready := l.ready ++ [p] } ∧
      SameTree s.lk.toLinks lk.toLinks ∧ SameSemd s.lk.toLinks lk.toLinks := by
  obtain ⟨next, prev, hrun, hq, hag⟩ :=
    insertProcQ_spec (s := ⟨s.lk.toLinks, s.pcb⟩) h.ready hout.ready
  refine ⟨{ s.lk with pNext := next, pPrev := prev, readyQue := some p }, ?_,
    h.setReady hq hag ?_ ?_, ⟨rfl, rfl, rfl⟩, ⟨rfl, rfl, rfl, rfl, rfl⟩⟩
  · simp [insertReady, phase1_run, hrun, Phase1.relink, emit]
  · intro u hu
    exact ⟨hap.freeReady u hu, fun heq => hout.free (heq ▸ hu)⟩
  · intro w u hu
    exact ⟨fun hr => hap.readyBlocked u hr w hu,
      fun heq => hout.blocked w (heq ▸ hu)⟩

theorem removeReady_nil {s : Nucleus} (h : Queues s.lk l) (hl : l.ready = []) :
    s.lk.readyQue = none ∧ removeReady s = .ok none s := by
  have hq := h.ready
  rw [hl] at hq
  have htp : s.lk.readyQue = none := hq.eq_nil_iff.mpr rfl
  refine ⟨htp, ?_⟩
  have hlk : { s.lk with readyQue := none } = s.lk := by rw [← htp]
  simp [removeReady, phase1_run, htp, removeProcQ_none, hlk]

theorem removeReady_spec {s : Nucleus} (h : Queues s.lk l) (hap : Apart l)
    {ps : List Pcb} (hl : l.ready = p :: ps) :
    ∃ lk, removeReady s = .ok (some p) { s with lk := lk } ∧
      Queues lk { l with ready := ps } ∧
      SameTree s.lk.toLinks lk.toLinks ∧ SameSemd s.lk.toLinks lk.toLinks := by
  have hq := h.ready
  rw [hl] at hq
  obtain ⟨tp, next, prev, hrun, hq', -, -, hag⟩ :=
    removeProcQ_spec (s := ⟨s.lk.toLinks, s.pcb⟩) hq
  rw [← hl] at hag
  refine ⟨{ s.lk with pNext := next, pPrev := prev, readyQue := tp }, ?_,
    h.setReady hq' hag hap.freeReady ?_, ⟨rfl, rfl, rfl⟩, ⟨rfl, rfl, rfl, rfl, rfl⟩⟩
  · simp [removeReady, phase1_run, hrun, Phase1.relink]
  · intro w u hu hr
    exact hap.readyBlocked u hr w hu

/-- A ready process that is not at the tail is not found. -/
theorem outReady_ne {s : Nucleus} (h : s.lk.readyQue ≠ some p) :
    outReady (some p) s = .ok none s := by
  cases htp : s.lk.readyQue with
  | none =>
      have hlk : { s.lk with readyQue := none } = s.lk := by rw [← htp]
      simp [outReady, phase1_run, htp, outProcQ_empty, hlk]
  | some z =>
      have hne : p ≠ z := by
        rintro rfl
        exact h htp
      have hlk : { s.lk with readyQue := some z } = s.lk := by rw [← htp]
      simp [outReady, phase1_run, htp, outProcQ_ne _ hne, hlk]

theorem outReady_spec {s : Nucleus} (h : Queues s.lk l) (hap : Apart l)
    {ps : List Pcb} (hl : l.ready = ps ++ [p]) :
    ∃ lk, outReady (some p) s = .ok (some p) { s with lk := lk } ∧
      Queues lk { l with ready := ps } ∧
      SameTree s.lk.toLinks lk.toLinks := by
  have hq := h.ready
  rw [hl] at hq
  have htp : s.lk.readyQue = some p := by
    rw [hq.eq_getLast?]
    simp
  rw [htp] at hq
  obtain ⟨tp, next, prev, hrun, hq', -, -, hag⟩ :=
    outProcQ_spec (s := ⟨s.lk.toLinks, s.pcb⟩) hq
  rw [← hl] at hag
  refine ⟨{ s.lk with pNext := next, pPrev := prev, readyQue := tp }, ?_,
    h.setReady hq' hag hap.freeReady ?_, ⟨rfl, rfl, rfl⟩⟩
  · simp [outReady, phase1_run, htp, hrun, Phase1.relink]
  · intro w u hu hr
    exact hap.readyBlocked u hr w hu

/-! ## The semaphore queues -/

theorem insertBlocked_shape {s : Nucleus} (h : Queues s.lk l) (hap : Apart l)
    (hout : l.Out p) (hw : SemAddr w) :
    ∃ lk, phase1 (insertBlocked w (some p)) s = .ok false { s with
        lk := lk, pcb.pSemAdd := Function.update s.pcb.pSemAdd p w } ∧
      Queues lk { l with
        blocked := Function.update l.blocked w (l.blocked w ++ [p]) } ∧
      SameTree s.lk.toLinks lk.toLinks := by
  have hroom := h.asl.room hap.blocked hout.blocked (by simp)
  obtain ⟨lk, hrun, hasl, hstep⟩ := insertBlocked_spec
    (s := ⟨s.lk.toLinks, s.pcb⟩) h.asl hap.blocked hw hout.blocked (fun _ => hroom)
  refine ⟨{ s.lk with toLinks := lk }, ?_, h.setBlocked hasl hstep ?_ ?_,
    ⟨hstep.prnt, hstep.child, hstep.sib⟩⟩
  · simp [phase1_run, hrun]
  · rintro u hu (hq | rfl)
    · exact hap.freeBlocked u hu w hq
    · exact hout.free hu
  · rintro u hu (hq | rfl)
    · exact hap.readyBlocked u hu w hq
    · exact hout.ready hu

theorem removeBlocked_shape_nil {s : Nucleus} (h : Queues s.lk l)
    (hw : SemAddr w) (hl : l.blocked w = []) :
    phase1 (removeBlocked w) s = .ok none s := by
  have hrun := removeBlocked_nil (s := ⟨s.lk.toLinks, s.pcb⟩) h.asl hw hl
  simp [phase1_run, hrun]

theorem removeBlocked_shape {s : Nucleus} (h : Queues s.lk l) (hap : Apart l)
    (hw : SemAddr w) {ps : List Pcb} (hl : l.blocked w = p :: ps) :
    ∃ lk, phase1 (removeBlocked w) s = .ok (some p) { s with
        lk := lk, pcb.pSemAdd := Function.update s.pcb.pSemAdd p NULL } ∧
      Queues lk { l with blocked := Function.update l.blocked w ps } ∧
      SameTree s.lk.toLinks lk.toLinks ∧ Released s.lk.toLinks lk.toLinks w (ps = []) := by
  obtain ⟨lk, hrun, hasl, -, -, hstep, hrel⟩ := removeBlocked_spec
    (s := ⟨s.lk.toLinks, s.pcb⟩) h.asl hap.blocked hw hl
  refine ⟨{ s.lk with toLinks := lk }, ?_, h.setBlocked hasl hstep ?_ ?_,
    ⟨hstep.prnt, hstep.child, hstep.sib⟩, hrel⟩
  · simp [phase1_run, hrun]
  · intro u hu hq
    exact hap.freeBlocked u hu w hq
  · intro u hu hq
    exact hap.readyBlocked u hu w hq

theorem headBlocked_shape {s : Nucleus} (h : Queues s.lk l) (hw : SemAddr w) :
    phase1 (headBlocked w) s = .ok (l.blocked w).head? s := by
  have hrun := headBlocked_spec (s := ⟨s.lk.toLinks, s.pcb⟩) h.asl hw
  simp [phase1_run, hrun]

theorem outBlocked_shape {s : Nucleus} (h : Queues s.lk l) (hap : Apart l)
    (hw : SemAddr w) {ps : List Pcb} (hl : l.blocked w = ps ++ [p])
    (hp : s.pcb.pSemAdd p = w) :
    ∃ lk, phase1 (outBlocked (some p)) s = .ok (some p) { s with
        lk := lk, pcb.pSemAdd := Function.update s.pcb.pSemAdd p NULL } ∧
      Queues lk { l with blocked := Function.update l.blocked w ps } ∧
      SameTree s.lk.toLinks lk.toLinks := by
  obtain ⟨lk, hrun, hasl, -, -, hstep⟩ := outBlocked_tail
    (s := ⟨s.lk.toLinks, s.pcb⟩) h.asl hap.blocked hw hl hp
  refine ⟨{ s.lk with toLinks := lk }, ?_, h.setBlocked hasl hstep ?_ ?_,
    ⟨hstep.prnt, hstep.child, hstep.sib⟩⟩
  · simp [phase1_run, hrun]
  · intro u hu hq
    exact hap.freeBlocked u hu w hq
  · intro u hu hq
    exact hap.readyBlocked u hu w hq

/-! ## The free list -/

def Ptrs.release (lk : Ptrs) (p : Pcb) : Ptrs :=
  { lk with toLinks := { lk.toLinks.unlinkTree p with
    pNext := Function.update lk.pNext p lk.pcbFree
    pPrev := Function.update lk.pPrev p none
    pcbFree := some p } }

def Ptrs.acquire (lk : Ptrs) (p : Pcb) : Ptrs :=
  { lk with toLinks := { lk.toLinks.unlinkTree p with
    pNext := Function.update lk.pNext p none
    pPrev := Function.update lk.pPrev p none
    pcbFree := lk.pNext p } }

theorem freePcb_run (s : Nucleus) (p : Pcb) :
    phase1 (freePcb (some p)) s =
      .ok () { s with lk := s.lk.release p, pcb := s.pcb.clear p } := by
  simp [phase1_run, freePcb_eq, Ptrs.release]

theorem allocPcb_run {s : Nucleus} (h : s.lk.pcbFree = some p) :
    phase1 allocPcb s =
      .ok (some p) { s with lk := s.lk.acquire p, pcb := s.pcb.clear p } := by
  have hrun := allocPcb_some (s := ⟨s.lk.toLinks, s.pcb⟩) h
  simp [phase1_run, hrun, Ptrs.acquire]

theorem agreeOn_update {next prev : Pcb → Option Pcb} (v u : Option Pcb) :
    AgreeOn (· ≠ p) next (Function.update next p v) prev
      (Function.update prev p u) :=
  fun _ hne => ⟨Function.update_of_ne hne _ _, Function.update_of_ne hne _ _⟩

theorem Queues.release (h : Queues lk l) (hout : l.Out p) :
    Queues (lk.release p) { l with free := p :: l.free } where
  free := by
    refine ⟨rfl, ?_⟩
    simp only [Ptrs.release, Function.update_self]
    exact h.free.update_of_notMem hout.free
  ready := h.ready.congr (fun u hu => agreeOn_update _ _ u
    (fun heq => hout.ready (heq ▸ hu)))
  asl := h.asl_frame ⟨rfl, rfl, rfl, rfl, rfl⟩ (agreeOn_update (p := p) _ _)
    (fun w u hu heq => hout.blocked w (heq ▸ hu))

theorem Queues.acquire (h : Queues lk l) (hap : Apart l) {fs : List Pcb}
    (hl : l.free = p :: fs) : Queues (lk.acquire p) { l with free := fs } := by
  have hmem : p ∈ l.free := by simp [hl]
  have hfree := h.free
  rw [hl] at hfree
  constructor
  case free =>
    exact hfree.2.update_of_notMem (List.nodup_cons.mp hfree.nodup).1
  case ready =>
    exact h.ready.congr (fun u hu => agreeOn_update _ _ u
      (fun heq => hap.freeReady p hmem (heq ▸ hu)))
  case asl =>
    exact h.asl_frame ⟨rfl, rfl, rfl, rfl, rfl⟩ (agreeOn_update (p := p) _ _)
      (fun w u hu heq => hap.freeBlocked p hmem w (heq ▸ hu))

theorem Trees.unlinkTree {lk : Links Pcb Semd} {kids : Pcb → List Pcb}
    (h : Trees lk kids) (hp : lk.pPrnt p = none) (hk : kids p = []) :
    Trees (lk.unlinkTree p) kids := by
  refine ⟨h.forest.unlinkTree hp hk, ?_⟩
  intro q hq
  by_cases hqp : q = p
  · subst hqp
    simp [Links.unlinkTree]
  · simp only [Links.unlinkTree, Function.update_of_ne hqp] at hq ⊢
    exact h.loose q hq

/-! ## The process tree -/

def Ptrs.retree (lk : Ptrs) (prnt child sib : Pcb → Option Pcb) : Ptrs :=
  { lk with toLinks := { lk.toLinks with
    pPrnt := prnt, pChild := child, pSib := sib } }

theorem Queues.retree (h : Queues lk l) (prnt child sib : Pcb → Option Pcb) :
    Queues (lk.retree prnt child sib) l where
  free := h.free
  ready := h.ready
  asl := by
    refine h.asl_frame (q := fun _ => True) ⟨rfl, rfl, rfl, rfl, rfl⟩ ?_ ?_
    · exact fun u _ => ⟨rfl, rfl⟩
    · exact fun _ _ _ => trivial

theorem insertChild_run {s : Nucleus} {q : Pcb} (hp : s.lk.pSib p = none) :
    phase1 (insertChild (some q) (some p)) s = .ok () { s with
      lk := s.lk.retree (Function.update s.lk.pPrnt p (some q))
        (Function.update s.lk.pChild q (some p))
        (Function.update s.lk.pSib p (s.lk.pChild q)) } := by
  have hrun := insertChild_eq (s := ⟨s.lk.toLinks, s.pcb⟩) (q := q) (fun _ => hp)
  simp [phase1_run, hrun, Ptrs.retree]

theorem Trees.insert {kids : Pcb → List Pcb} {q : Pcb}
    (h : Trees lk.toLinks kids) (hp : lk.pPrnt p = none) :
    Trees (lk.retree (Function.update lk.pPrnt p (some q))
      (Function.update lk.pChild q (some p))
      (Function.update lk.pSib p (lk.pChild q))).toLinks
      (Function.update kids q (p :: kids q)) := by
  refine ⟨h.forest.insert hp, ?_⟩
  intro r hr
  have hrp : r ≠ p := by
    rintro rfl
    simp [Ptrs.retree] at hr
  simp only [Ptrs.retree, Function.update_of_ne hrp] at hr ⊢
  exact h.loose r hr

end Kaya
