import Kaya.Phase2.Proofs.Plain

/-!
# The end of a process tree

`terminateprocess` on a tree whose other processes are all ready.  `outProcQ`
takes only the tail out of `readyQue`, so a victim may be freed while it is
still linked there; the walk itself needs of a victim only that its queue links
are not `NULL`, and ends after one visit to each process.
-/

namespace Kaya

open Lib

variable {K : Layout} {p v : Pcb} {vs : List Pcb} {s : Nucleus}

/-! ## One victim -/

/-- The victims `vs` still to come do not run and wait for nothing, and their queue links
lead somewhere; `n`, `tr` and `b` are the process count, the trace and the fields of the PCBs when
they are gone. -/
structure Doomed (p : Pcb) (n : Int) (tr : List Obs) (b : Payload Pcb) (vs : List Pcb)
    (s : Nucleus) : Prop where
  current : s.currentProc = some p
  notMem : p ∉ vs
  nodup : vs.Nodup
  semAdd : ∀ v ∈ vs, s.pcb.pSemAdd v = NULL
  links : ∀ v ∈ vs, s.lk.pNext v ≠ none ∧ s.lk.pPrev v ≠ none
  procCnt : s.procCnt - vs.length = n
  trace : vs.reverse.map (fun v => Obs.exit (some v)) ++ s.trace = tr
  fields : vs.foldl Payload.clear s.pcb = b

/-- `outProcQ(&readyQue, v)` changes queue links only, and those of other PCBs never
to `NULL`. -/
theorem outReady_linked (hlinks : s.lk.pNext v ≠ none ∧ s.lk.pPrev v ≠ none) :
    ∃ r next prev tp, outReady (some v) s = .ok r { s with
        lk := { s.lk with pNext := next, pPrev := prev, readyQue := tp } } ∧
      (∀ u, u ≠ v → s.lk.pNext u ≠ none → next u ≠ none) ∧
      ∀ u, u ≠ v → s.lk.pPrev u ≠ none → prev u ≠ none := by
  obtain ⟨a, ha⟩ := Option.ne_none_iff_exists'.mp hlinks.1
  obtain ⟨y, hy⟩ := Option.ne_none_iff_exists'.mp hlinks.2
  by_cases htp : s.lk.readyQue = some v
  · by_cases hav : a = v
    · subst hav
      have hrun := outProcQ_single (s := ⟨s.lk.toLinks, s.pcb⟩) ha
      refine ⟨some a, Function.update s.lk.pNext a none, Function.update s.lk.pPrev a none,
        none, ?_, ?_, ?_⟩
      · simp [outReady, phase1_run, htp, hrun, Phase1.relink]
      · intro u hu hne
        rwa [Function.update_of_ne hu]
      · intro u hu hne
        rwa [Function.update_of_ne hu]
    · have hrun := outProcQ_tail (s := ⟨s.lk.toLinks, s.pcb⟩) ha hav hy
      refine ⟨some v, Function.update (Function.update s.lk.pNext y (some a)) v none,
        Function.update (Function.update s.lk.pPrev a (some y)) v none, some y, ?_, ?_, ?_⟩
      · simp [outReady, phase1_run, htp, hrun, Phase1.relink]
      · intro u hu hne
        rw [Function.update_of_ne hu]
        by_cases huy : u = y
        · simp [huy]
        · rwa [Function.update_of_ne huy]
      · intro u hu hne
        rw [Function.update_of_ne hu]
        by_cases hua : u = a
        · simp [hua]
        · rwa [Function.update_of_ne hua]
  · exact ⟨none, s.lk.pNext, s.lk.pPrev, s.lk.readyQue, outReady_ne htp, fun _ _ h => h,
      fun _ _ h => h⟩

theorem outBlocked_idle (hsem : s.pcb.pSemAdd v = NULL) :
    phase1 (outBlocked (some v)) s = .ok none s := by
  have hrun := outBlocked_null (s := ⟨s.lk.toLinks, s.pcb⟩) hsem
  simp [phase1_run, hrun]

/-- Whether or not it is found in `readyQue`, the victim is counted out and freed. -/
theorem terminateOne_doomed {n : Int} {tr : List Obs} {b : Payload Pcb}
    (h : Doomed p n tr b (v :: vs) s) :
    ∃ s', terminateOne K (some v) (s.pcb.pSemAdd v) s = .ok () s' ∧ Doomed p n tr b vs s' ∧
      Reaped v s s' := by
  obtain ⟨hv, hnd⟩ := List.nodup_cons.mp h.nodup
  have hne : ∀ u ∈ vs, u ≠ v := fun u hu heq => hv (heq ▸ hu)
  have hcur : ¬ some v = s.currentProc := by
    rw [h.current]
    intro heq
    exact h.notMem (by simp [Option.some.inj heq])
  obtain ⟨r, next, prev, tp, hout, hnext, hprev⟩ := outReady_linked (h.links v (by simp))
  let s₁ : Nucleus := { s with lk := { s.lk with pNext := next, pPrev := prev, readyQue := tp } }
  have hblk : phase1 (outBlocked (some v)) s₁ = .ok none s₁ :=
    outBlocked_idle (h.semAdd v (by simp))
  let s₂ : Nucleus :=
    { s₁ with
      procCnt := s.procCnt - 1, trace := .exit (some v) :: s.trace
      lk := s₁.lk.release v, pcb := s.pcb.clear v }
  refine ⟨s₂, ?_, ?_, ?_⟩
  · by_cases hr : r = none
    · simp [terminateOne, callFreePcb, hcur, hout, hr, hblk, emit, freePcb_run, s₁, s₂]
    · simp [terminateOne, callFreePcb, hcur, hout, hr, emit, freePcb_run, s₁, s₂]
  · constructor
    case current => exact h.current
    case notMem => exact fun hp => h.notMem (List.mem_cons_of_mem v hp)
    case nodup => exact hnd
    case semAdd =>
      intro u hu
      exact (Function.update_of_ne (hne u hu) _ _).trans
        (h.semAdd u (List.mem_cons_of_mem v hu))
    case links =>
      intro u hu
      obtain ⟨hn, hp⟩ := h.links u (List.mem_cons_of_mem v hu)
      simp only [s₂, s₁, Ptrs.release, Function.update_of_ne (hne u hu)]
      exact ⟨hnext u (hne u hu) hn, hprev u (hne u hu) hp⟩
    case procCnt =>
      have hcnt := h.procCnt
      simp only [List.length_cons] at hcnt
      simp only [s₂]
      omega
    case trace =>
      rw [← h.trace]
      simp [s₂]
    case fields => exact h.fields
  · refine ⟨⟨rfl, rfl, rfl⟩, ?_⟩
    intro q hq
    exact Function.update_of_ne hq _ _

theorem doomed_reaper (K : Layout) (p : Pcb) (n : Int) (tr : List Obs) (b : Payload Pcb) :
    Reaper K (Doomed p n tr b) False := by
  constructor
  case retree =>
    intro vs s prnt child sib h
    exact ⟨h.current, h.notMem, h.nodup, h.semAdd, h.links, h.procCnt, h.trace, h.fields⟩
  case reap =>
    intro v vs s h
    exact .inl (terminateOne_doomed h)

/-! ## The links of the others -/

section Links

variable {lk lk' : Links Pcb Semd} {kids kids' : Pcb → List Pcb} {q r : Pcb}

theorem Trees.prnt_eq (h : Trees lk kids) (h' : Trees lk' kids')
    (hq : ∀ r, q ∈ kids' r ↔ q ∈ kids r) : lk'.pPrnt q = lk.pPrnt q := by
  ext r
  rw [h'.forest.prnt, h.forest.prnt, hq]

theorem Trees.child_eq (h : Trees lk kids) (h' : Trees lk' kids') (hq : kids' q = kids q) :
    lk'.pChild q = lk.pChild q := by
  rw [h'.forest.child_eq, h.forest.child_eq, hq]

/-- A process keeps its sibling link when its parent's list stays as it is. -/
theorem Trees.sib_eq (h : Trees lk kids) (h' : Trees lk' kids')
    (hq : ∀ r, q ∈ kids' r ↔ q ∈ kids r) (hsame : ∀ r, q ∈ kids r → kids' r = kids r) :
    lk'.pSib q = lk.pSib q := by
  have hprnt := h.prnt_eq h' hq
  cases hr : lk.pPrnt q with
  | none => rw [h.loose q hr, h'.loose q (hprnt.trans hr)]
  | some r =>
      have hmem : q ∈ kids r := (h.forest.prnt q r).mp hr
      have hlist' := h'.forest.list r
      rw [hsame r hmem] at hlist'
      exact (h.forest.list r).next_eq_next hlist' q hmem

end Links

/-! ## The whole tree -/

/-- The child lists when `p` and the processes below it are gone. -/
def Lists.survivors (l : Lists) (p q : Pcb) : List Pcb :=
  if q = p ∨ q ∈ l.descendants p then [] else (l.kids q).filter (· ≠ p)

/-- `p` and everything below it has been freed, and the rest of the forest is as it was. -/
structure TornDown (l : Lists) (p : Pcb) (s s' : Nucleus) : Prop where
  /-- The calls of `freePcb`, the last one first. -/
  freed : s'.trace = (l.descendants p ++ [p]).reverse.map (fun v => Obs.exit (some v)) ++ s.trace
  /-- What they do to the fields of the PCBs, and to no others. -/
  fields : s'.pcb = (l.descendants p ++ [p]).foldl Payload.clear s.pcb
  head : s'.lk.pcbFree = some p
  all : ∀ v, v ∈ l.descendants p ++ [p] ↔ Below l.kids v p
  once : (l.descendants p ++ [p]).Nodup
  childrenFirst : ∀ pre q post, l.descendants p ++ [p] = pre ++ q :: post →
    ∀ x ∈ l.kids q, x ∈ pre
  procCnt : s'.procCnt = s.procCnt - (l.descendants p ++ [p]).length
  forest : IsForest s'.lk.toLinks (l.survivors p)
  prnt : ∀ q, ¬ Below l.kids q p → s'.lk.pPrnt q = s.lk.pPrnt q
  child : ∀ q, ¬ Below l.kids q p → p ∉ l.kids q → s'.lk.pChild q = s.lk.pChild q
  sib : ∀ q, ¬ Below l.kids q p → (∀ r, q ∈ l.kids r → p ∉ l.kids r) →
    s'.lk.pSib q = s.lk.pSib q

section Tree

variable {l : Lists}

theorem survivors_eq (l : Lists) (p : Pcb) :
    (fun q => (pruneKids l.kids p (l.descendants p) q).filter (· ≠ p)) = l.survivors p := by
  funext q
  unfold pruneKids Lists.survivors
  by_cases hq : q = p ∨ q ∈ l.descendants p
  · rw [if_pos hq, if_pos hq, List.filter_nil]
  · rw [if_neg hq, if_neg hq]

/-- Outside of the subtree only the list that held `p` changes. -/
theorem survivors_of_not_below {q : Pcb}
    (hbelow : ∀ v, v ∈ l.descendants p ++ [p] ↔ Below l.kids v p) (hq : ¬ Below l.kids q p) :
    l.survivors p q = (l.kids q).filter (· ≠ p) := by
  rw [Lists.survivors, if_neg]
  rintro (rfl | hmem)
  · exact hq .refl
  · exact hq ((hbelow q).mp (by simp [hmem]))

theorem TornDown.of_trees {s' : Nucleus} (hbelow : ∀ v, v ∈ l.descendants p ++ [p] ↔ Below l.kids v p)
    (hpost : Postorder l.kids (l.kids p) (l.descendants p))
    (hnd : (l.descendants p ++ [p]).Nodup) (h : Trees s.lk.toLinks l.kids)
    (h' : Trees s'.lk.toLinks (l.survivors p))
    (hfreed : s'.trace =
      (l.descendants p ++ [p]).reverse.map (fun v => Obs.exit (some v)) ++ s.trace)
    (hfields : s'.pcb = (l.descendants p ++ [p]).foldl Payload.clear s.pcb)
    (hhead : s'.lk.pcbFree = some p)
    (hcnt : s'.procCnt = s.procCnt - (l.descendants p ++ [p]).length) :
    TornDown l p s s' := by
  -- a process outside the subtree keeps its parent
  have hout : ∀ q r, ¬ Below l.kids q p → q ∈ l.kids r → ¬ Below l.kids r p :=
    fun q r hq hqr hrp => hq (hrp.head hqr)
  have hmem : ∀ q, ¬ Below l.kids q p → ∀ r, q ∈ l.survivors p r ↔ q ∈ l.kids r := by
    intro q hq r
    have hqp : q ≠ p := fun heq => hq (heq ▸ .refl)
    by_cases hr : Below l.kids r p
    · have hnil : l.survivors p r = [] := by
        rw [Lists.survivors, if_pos]
        have hrp := (hbelow r).mpr hr
        rw [List.mem_append, List.mem_singleton] at hrp
        exact hrp.symm
      have hnot : q ∉ l.kids r := fun hqr => hout q r hq hqr hr
      simp [hnil, hnot]
    · rw [survivors_of_not_below hbelow hr, List.mem_filter]
      simp [hqp]
  have hsame : ∀ r, ¬ Below l.kids r p → p ∉ l.kids r → l.survivors p r = l.kids r := by
    intro r hr hpr
    rw [survivors_of_not_below hbelow hr, filter_ne_of_notMem hpr]
  constructor
  case freed => exact hfreed
  case fields => exact hfields
  case head => exact hhead
  case all => exact hbelow
  case once => exact hnd
  case childrenFirst =>
    have hself : Postorder l.kids [p] (l.descendants p ++ [p]) := .cons hpost .nil
    exact fun pre q post hvs x hx => hself.children_first hvs hx
  case procCnt => exact hcnt
  case forest => exact h'.forest
  case prnt => exact fun q hq => h.prnt_eq h' (hmem q hq)
  case child => exact fun q hq hpq => h.child_eq h' (hsame q hq hpq)
  case sib =>
    intro q hq hsib
    exact h.sib_eq h' (hmem q hq) fun r hqr => hsame r (hout q r hq hqr) (hsib r hqr)

/-- The running process itself, when everything below it is gone. -/
theorem terminateOne_current (hcur : s.currentProc = some p) {kids : Pcb → List Pcb}
    (htree : Pruned (fun _ => False) s.lk.toLinks kids) (hkids : kids p = []) (w : Word) :
    ∃ s', terminateOne K (some p) w s = .ok () s' ∧
      Trees s'.lk.toLinks (fun q => (kids q).filter (· ≠ p)) ∧
      s'.procCnt = s.procCnt - 1 ∧ s'.trace = .exit (some p) :: s.trace ∧
      s'.pcb = s.pcb.clear p ∧ s'.lk.pcbFree = some p := by
  obtain ⟨r, child, sib, hout, htree'⟩ := outChild_run (p := p) htree
  let lk := s.lk.retree (Function.update s.lk.pPrnt p none) child sib
  let s' : Nucleus :=
    { s with
      lk := lk.release p, pcb := s.pcb.clear p, currentProc := none
      procCnt := s.procCnt - 1, trace := .exit (some p) :: s.trace }
  refine ⟨s', ?_, ?_, rfl, rfl, rfl, rfl⟩
  · simp [terminateOne, callFreePcb, hcur, hout, setCurrentProc, emit, freePcb_run, s', lk]
  · have hfree := Pruned.unlinkTree (S := fun _ => False) (c := p)
      ⟨htree'.forest, fun q hq => htree'.loose q (by simpa using hq)⟩
      (fun q => by simp) (by simp [hkids])
    have htrees : Pruned (fun _ => False) (lk.release p).toLinks _ := hfree.congr ⟨rfl, rfl, rfl⟩
    exact ⟨htrees.forest, fun q => htrees.loose q id⟩

/-- When all processes below the running one are ready, `terminateprocess` tears its tree
down. -/
theorem terminateprocess_tearsDown (hshape : Shape s.lk l) (hinv : Inv K (s.withLk l))
    (hcur : s.currentProc = some p)
    (hready : ∀ v, Below l.kids v p → v ≠ p → v ∈ l.ready) :
    ∃ s', terminateprocess K (some p) s = .ok () s' ∧ TornDown l p s s' := by
  obtain ⟨place, hpl⟩ := hinv.placed
  have hac : Acyclic l.kids := hinv.family.acyclic
  have hu : UniqueParents l.kids := hshape.trees.forest.uniqueParents
  have hv : Victims (s.withLk l) place p (l.descendants p) :=
    victims hpl hinv.family hu hcur
  have hpost : Postorder l.kids (l.kids p) (l.descendants p) := hv.order
  have hbelow : ∀ v, v ∈ l.descendants p ++ [p] ↔ Below l.kids v p := by
    intro v
    rw [List.mem_append, List.mem_singleton, hpost.mem_iff, below_iff]
  have hlen : 2 * (l.descendants p).length < 2 * MAXPROC := by
    have hle := (List.nodup_cons.mpr ⟨hv.notMem, hv.nodup⟩).length_le_card
    rw [Fintype.card_fin, List.length_cons] at hle
    omega
  let n := s.procCnt - (l.descendants p).length
  let tr := (l.descendants p).reverse.map (fun v => Obs.exit (some v)) ++ s.trace
  let b := (l.descendants p).foldl Payload.clear s.pcb
  have hdoomed : Doomed p n tr b (l.descendants p ++ []) s := by
    rw [List.append_nil]
    have hmem : ∀ v ∈ l.descendants p, v ∈ l.ready := by
      intro v hmem
      have hne : v ≠ p := fun heq => hv.notMem (heq ▸ hmem)
      exact hready v ((hbelow v).mp (by simp [hmem])) hne
    refine ⟨hcur, hv.notMem, hv.nodup, ?_, ?_, rfl, rfl, rfl⟩
    · intro v hvd
      have hat : place v = .ready := (hpl.spot v).ready.mp (hmem v hvd)
      have hsem : s.pcb.pSemAdd v = (place v).semAdd := hpl.semAdd v
      rw [hsem, hat]
      rfl
    · exact fun v hvd => hshape.queues.ready.links_ne_none (hmem v hvd)
  obtain ⟨s₁, hrun₁, hwalk⟩ | ⟨hF, -⟩ := terminateChildren_walk (S := fun _ => False)
    (doomed_reaper K p n tr b) hpost hv.nodup hlen hdoomed
    ⟨hshape.trees.forest, fun q _ => hshape.trees.loose q⟩ rfl (fun v _ => rfl) hv.notMem
  · obtain ⟨s', hrun', htrees, hcnt, htrace, hfields, hhead⟩ := terminateOne_current (K := K)
      hwalk.remaining.current hwalk.tree (by simp [pruneKids]) (s.pcb.pSemAdd p)
    have hcnt₁ := hwalk.remaining.procCnt
    have htr₁ := hwalk.remaining.trace
    have hb₁ : s₁.pcb = b := hwalk.remaining.fields
    simp only [List.length_nil, List.reverse_nil, List.map_nil, List.nil_append] at hcnt₁ htr₁
    refine ⟨s', ?_, TornDown.of_trees hbelow hpost ?_ hshape.trees ?_ ?_ ?_ hhead ?_⟩
    · rw [terminateprocess, terminateLoop, bind_ok (getPSemAdd_run _ _), bind_ok hrun₁]
      exact hrun'
    · rw [nodup_concat]
      exact ⟨hv.notMem, hv.nodup⟩
    · rwa [survivors_eq] at htrees
    · rw [htrace, htr₁]
      simp [tr]
    · rw [hfields, hb₁, List.foldl_append]
      rfl
    · rw [hcnt, List.length_append, List.length_singleton]
      omega
  · exact hF.elim

end Tree

/-! ## A parent and its child -/

def secondPcb : Pcb := ⟨18, by decide⟩

theorem sample_create : ∃ l, (Machine.step .sample (boot .sample .sample)
      (.syscall (.call CREATEPROCESS 0 0 0))).Holds .sample l ∧
    (Machine.step .sample (boot .sample .sample)
      (.syscall (.call CREATEPROCESS 0 0 0))).nuc.currentProc = some Abs.firstPcb ∧
    l.ready = [secondPcb] ∧
    l.kids = Function.update (fun _ => []) Abs.firstPcb [secondPcb] := by
  have hplain : (boot .sample .sample).Plain .sample (.syscall (.call CREATEPROCESS 0 0 0)) := by
    refine ⟨⟨_, boot_cpu _ _⟩, ?_⟩
    constructor
    case user => decide
    case call => exact .inl rfl
    all_goals exact fun h => absurd h (by decide)
  obtain ⟨l, hl, hover⟩ := boot_holds .sample .sample
  obtain ⟨l', hl', hover'⟩ := hl.step hplain.admits
  rw [hover] at hover'
  have htakes : (Abs.first .sample .sample).schedule.cpu.Takes
      (.syscall (.call CREATEPROCESS 0 0 0)) := ⟨_, rfl⟩
  rw [AbsMachine.step, if_pos htakes] at hover'
  let a : Abs := { (Abs.first .sample .sample).schedule.nuc with
    sysOld := .call CREATEPROCESS 0 0 0 }
  have hcall : (Abs.first .sample .sample).schedule.take .sample
      (.syscall (.call CREATEPROCESS 0 0 0)) =
        Abs.createprocess { a with sysOld := a.sysOld.advance } Abs.firstPcb := by
    have huser : ¬ a.sysOld.Privileged := by
      show ¬ (State.call CREATEPROCESS 0 0 0).Privileged
      decide
    have hcur : a.currentProc = some Abs.firstPcb := rfl
    have hsys : a.sysCall .sample Abs.firstPcb = Abs.sysSwitch .sample
        { a with sysOld := a.sysOld.advance } Abs.firstPcb a.sysOld.a0 := if_neg huser
    have hcreate : a.sysOld.a0 = CREATEPROCESS := rfl
    have hswitch : Abs.sysSwitch .sample { a with sysOld := a.sysOld.advance } Abs.firstPcb
        a.sysOld.a0 = Abs.createprocess { a with sysOld := a.sysOld.advance } Abs.firstPcb :=
      if_pos hcreate
    exact (Abs.withCurrent_some (a := a) (Abs.sysCall .sample) hcur).trans (hsys.trans hswitch)
  rw [hcall] at hover'
  generalize Machine.step .sample (boot .sample .sample) (.syscall (.call CREATEPROCESS 0 0 0)) =
    m at hl' hover' ⊢
  refine ⟨l', hl', ?_, ?_, ?_⟩
  · exact congrArg (fun am : AbsMachine => am.nuc.currentProc) hover'
  · exact congrArg (fun am : AbsMachine => am.nuc.lk.ready) hover'
  · exact congrArg (fun am : AbsMachine => am.nuc.lk.kids) hover'

theorem terminateprocess_tearsDown_child : ∃ l s',
    terminateprocess .sample (some Abs.firstPcb) (Machine.step .sample (boot .sample .sample)
      (.syscall (.call CREATEPROCESS 0 0 0))).nuc = .ok () s' ∧
    TornDown l Abs.firstPcb (Machine.step .sample (boot .sample .sample)
      (.syscall (.call CREATEPROCESS 0 0 0))).nuc s' := by
  obtain ⟨l, hl, hcur, hready, hkids⟩ := sample_create
  generalize Machine.step .sample (boot .sample .sample) (.syscall (.call CREATEPROCESS 0 0 0)) =
    m at hl hcur ⊢
  have hchild : ∀ v q, v ∈ l.kids q → q = Abs.firstPcb ∧ v = secondPcb := by
    intro v q hv
    rw [hkids] at hv
    by_cases hq : q = Abs.firstPcb
    · subst hq
      exact ⟨rfl, by simpa using hv⟩
    · rw [Function.update_of_ne hq] at hv
      cases hv
  obtain ⟨s', hrun, htorn⟩ := terminateprocess_tearsDown hl.shape hl.sound.inv hcur (by
    intro v hv hne
    rw [hready, List.mem_singleton]
    rcases Relation.ReflTransGen.cases_head hv with heq | ⟨q, hq, -⟩
    · exact absurd heq hne
    · exact (hchild v q hq).2)
  exact ⟨l, s', hrun, htorn⟩

end Kaya
