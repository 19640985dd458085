import Kaya.Phase2.Proofs.Refine
import Kaya.Phase2.Proofs.Walk
import Kaya.Lib.TailsFirst

/-!
# `terminateprocess` when every victim is the last of its queue
-/

namespace Kaya

open Lib

variable {K : Layout} {a b : Abs} {place : Pcb → Place} {p v : Pcb} {w : Word}

/-- `reap` on the lists: `v` is filtered out of the one queue it is in. -/
theorem reap_lk_ready (h : Placed K a place) {m : List Pcb} (hq : a.lk.ready = m ++ [v])
    (hnd : (m ++ [v]).Nodup) :
    (a.reap K v).lk =
      { a.lk with free := v :: a.lk.free, ready := m } := by
  have hmem : v ∈ a.lk.ready := by simp [hq]
  have hblk : ∀ w, (a.lk.blocked w).filter (· ≠ v) = a.lk.blocked w :=
    fun w => filter_ne_of_notMem (h.apart.readyBlocked v hmem w)
  have hrdy : a.lk.ready.filter (· ≠ v) = m := by
    rw [hq]
    exact filter_ne_concat hnd
  simp only [Abs.reap, hblk, hrdy]

theorem reap_lk_blocked (h : Placed K a place) {m : List Pcb} (hq : a.lk.blocked w = m ++ [v])
    (hnd : (m ++ [v]).Nodup) :
    (a.reap K v).lk = { a.lk with
      free := v :: a.lk.free, blocked := Function.update a.lk.blocked w m } := by
  have hmem : v ∈ a.lk.blocked w := by simp [hq]
  have hrdy : a.lk.ready.filter (· ≠ v) = a.lk.ready :=
    filter_ne_of_notMem (fun hr => h.apart.readyBlocked v hr w hmem)
  have hblk : (fun u => (a.lk.blocked u).filter (· ≠ v)) =
      Function.update a.lk.blocked w m := by
    ext1 u
    by_cases hu : u = w
    · subst hu
      rw [Function.update_self, hq]
      exact filter_ne_concat hnd
    · rw [Function.update_of_ne hu]
      exact filter_ne_of_notMem (fun hv => hu (h.disjoint u w v hv hmem))
  simp only [Abs.reap, hblk, hrdy]

/-- `v` and its lists after a victim has left its queue: it is in none. -/
theorem out_of_reap (h : Placed K a place) (hp : place v = .ready ∨ ∃ w, place v = .blocked w) :
    Lists.Out { (a.reap K v).lk with free := a.lk.free } v := by
  have hlive : place v ≠ .free := by
    rcases hp with hp | ⟨w, hp⟩ <;> simp [hp]
  constructor
  · rwa [(h.spot v).free]
  · simp [Abs.reap]
  · simp [Abs.reap]

theorem terminateOne_ready (h : Placed K b place) {lk : Ptrs} (hq : Queues lk b.lk)
    {m : List Pcb} (hready : b.lk.ready = m ++ [v]) :
    ∃ lk', terminateOne K (some v) (b.pcb.pSemAdd v) (b.withLk lk) =
        .ok () ((b.reap K v).withLk lk') ∧
      Queues lk' (b.reap K v).lk ∧ SameTree (lk.unlinkTree v) lk'.toLinks := by
  have hp : place v = .ready := (h.spot v).ready.mp (by simp [hready])
  have hsem : b.pcb.pSemAdd v = NULL := by
    rw [h.semAdd, hp]
    rfl
  have hcur : some v ≠ b.currentProc := by
    intro heq
    have hrun := (h.spot v).running.mp heq.symm
    simp [hp] at hrun
  have hnd := hq.nodups_ready
  rw [hready] at hnd
  obtain ⟨lk₁, hout, hq₁, ht₁⟩ := outReady_spec (s := b.withLk lk) hq h.apart hready
  have hlists := reap_lk_ready h hready hnd
  have hfree := hq₁.release (p := v) (by simpa [hlists] using out_of_reap h (.inl hp))
  refine ⟨lk₁.release v, ?_, by rwa [hlists], ?_⟩
  · simp only [NucleusOf.withLk] at hout
    simp [terminateOne, callFreePcb, emit, NucleusOf.withLk, hcur, hout, freePcb_run, Abs.reap, hsem,
      Layout.not_isDev_null]
  · exact ⟨by simp [Ptrs.release, Links.unlinkTree, ht₁.prnt, NucleusOf.withLk],
      by simp [Ptrs.release, Links.unlinkTree, ht₁.child, NucleusOf.withLk],
      by simp [Ptrs.release, Links.unlinkTree, ht₁.sib, NucleusOf.withLk]⟩

theorem terminateOne_blocked (h : Placed K b place) {lk : Ptrs} (hq : Queues lk b.lk)
    {m : List Pcb} (hblk : b.lk.blocked w = m ++ [v]) :
    ∃ lk', terminateOne K (some v) (b.pcb.pSemAdd v) (b.withLk lk) =
        .ok () ((b.reap K v).withLk lk') ∧
      Queues lk' (b.reap K v).lk ∧ SameTree (lk.unlinkTree v) lk'.toLinks := by
  have hmem : v ∈ b.lk.blocked w := by simp [hblk]
  have hp : place v = .blocked w := ((h.spot v).blocked w).mp hmem
  have hw : SemAddr w := h.addr v w hp
  have hnull : w ≠ NULL := hw.2
  have hsem : b.pcb.pSemAdd v = w := by
    rw [h.semAdd, hp]
    rfl
  have hcur : some v ≠ b.currentProc := by
    intro heq
    have hrun := (h.spot v).running.mp heq.symm
    simp [hp] at hrun
  have hnd := hq.nodups_blocked w
  rw [hblk] at hnd
  have hready : outReady (some v) (b.withLk lk) = .ok none (b.withLk lk) := by
    apply outReady_ne
    intro htp
    have hlast : some v = b.lk.ready.getLast? := by rw [← hq.ready.eq_getLast?, ← htp]; rfl
    exact h.apart.readyBlocked v (List.mem_of_getLast? hlast.symm) w hmem
  obtain ⟨lk₁, hout, hq₁, ht₁⟩ := outBlocked_shape (s := b.withLk lk) hq h.apart hw hblk hsem
  have hlists := reap_lk_blocked h hblk hnd
  have hfree := hq₁.release (p := v) (by simpa [hlists] using out_of_reap h (.inr ⟨w, hp⟩))
  refine ⟨lk₁.release v, ?_, by rwa [hlists], ?_⟩
  · simp only [NucleusOf.withLk] at hout hready
    by_cases hdev : K.IsDev w
    · have hdev' := hdev
      rw [Layout.IsDev] at hdev'
      simp only [terminateOne, callFreePcb, emit, NucleusOf.withLk, bind_run, get_run, ite_run, if_neg hcur, hready,
        hout, ne_eq, reduceCtorEq, not_false_eq_true, if_true, if_pos hdev', modify_run,
        freePcb_run, Payload.clear, Function.update_idem, Abs.reap, hsem, hdev,
        not_true_eq_false, and_false, if_false]
    · have hdev' := hdev
      rw [Layout.IsDev] at hdev'
      simp only [terminateOne, callFreePcb, emit, NucleusOf.withLk, bind_run, get_run, ite_run, if_neg hcur, hready,
        hout, ne_eq, reduceCtorEq, not_false_eq_true, if_true, if_neg hdev', modify_run,
        storeInt, loadInt, pure_run, freePcb_run, Payload.clear, Function.update_idem, Abs.reap,
        hsem, hnull, hdev, and_self, if_false]
  · exact ⟨by simp [Ptrs.release, Links.unlinkTree, ht₁.prnt, NucleusOf.withLk],
      by simp [Ptrs.release, Links.unlinkTree, ht₁.child, NucleusOf.withLk],
      by simp [Ptrs.release, Links.unlinkTree, ht₁.sib, NucleusOf.withLk]⟩

/-- The victims `vs` still to come are alive but not running, each will be the last of
its queue at its turn, and reaping them leads to `fin`. -/
structure Dying (K : Layout) (fin b : Abs) (vs : List Pcb) : Prop where
  placed : ∃ place, Placed K b place ∧
    ∀ v ∈ vs, place v = .ready ∨ ∃ w, place v = .blocked w
  nodup : vs.Nodup
  ready : TailsFirst b.lk.ready vs
  blocked : ∀ w, TailsFirst (b.lk.blocked w) vs
  result : vs.foldl (Abs.reap K) b = fin

theorem Dying.tail {fin : Abs} {vs : List Pcb} (h : Dying K fin b (v :: vs)) :
    Dying K fin (b.reap K v) vs := by
  obtain ⟨place, hpl, hvs⟩ := h.placed
  obtain ⟨hv, hnd⟩ := List.nodup_cons.mp h.nodup
  refine ⟨⟨_, hpl.reap (hvs v (by simp)), ?_⟩, hnd, h.ready.2, fun w => (h.blocked w).2,
    h.result⟩
  intro u hu
  have hne : u ≠ v := fun heq => hv (heq ▸ hu)
  rw [Function.update_of_ne hne]
  exact hvs u (by simp [hu])

theorem dying_reaper (K : Layout) (fin : Abs) :
    Reaper K (fun vs s => ∃ b lk, s = b.withLk lk ∧ Queues lk b.lk ∧ Dying K fin b vs)
      False := by
  constructor
  case retree =>
    rintro vs s prnt child sib ⟨b, lk, rfl, hq, hd⟩
    exact ⟨b, lk.retree prnt child sib, rfl, hq.retree prnt child sib, hd⟩
  case reap =>
    rintro v vs s ⟨b, lk, rfl, hq, hd⟩
    left
    obtain ⟨place, hpl, hvs⟩ := hd.placed
    have hsem : ∀ q, q ≠ v → (b.reap K v).pcb.pSemAdd q = b.pcb.pSemAdd q := by
      intro q hqv
      simp [Abs.reap, Payload.clear, Function.update_of_ne hqv]
    rcases hvs v (by simp) with hp | ⟨w, hp⟩
    · have hmem : v ∈ b.lk.ready := (hpl.spot v).ready.mpr hp
      obtain ⟨m, hm⟩ := List.getLast?_eq_some_iff.mp (hd.ready.1 hmem)
      obtain ⟨lk', hrun, hq', htree⟩ := terminateOne_ready hpl hq hm
      exact ⟨_, hrun, ⟨_, lk', rfl, hq', hd.tail⟩, htree, hsem⟩
    · have hmem : v ∈ b.lk.blocked w := ((hpl.spot v).blocked w).mpr hp
      obtain ⟨m, hm⟩ := List.getLast?_eq_some_iff.mp ((hd.blocked w).1 hmem)
      obtain ⟨lk', hrun, hq', htree⟩ := terminateOne_blocked hpl hq hm
      exact ⟨_, hrun, ⟨_, lk', rfl, hq', hd.tail⟩, htree, hsem⟩

/-! ## The running process itself -/

theorem outChild_run {s : Nucleus} {kids : Pcb → List Pcb}
    (h : Pruned (fun _ => False) s.lk.toLinks kids) :
    ∃ r child sib, phase1 (outChild (some p)) s = .ok r { s with
        lk := s.lk.retree (Function.update s.lk.pPrnt p none) child sib } ∧
      Pruned (fun q => q = p) (s.lk.retree (Function.update s.lk.pPrnt p none) child sib).toLinks
        (fun q => (kids q).filter (· ≠ p)) := by
  cases hprnt : s.lk.pPrnt p with
  | none =>
      have hrun := outChild_none (s := ⟨s.lk.toLinks, s.pcb⟩) hprnt
      have hupd : Function.update s.lk.pPrnt p none = s.lk.pPrnt := by
        rw [← hprnt, Function.update_eq_self]
      have hkids : (fun q => (kids q).filter (· ≠ p)) = kids := by
        funext q
        exact filter_ne_of_notMem (h.forest.notMem_of_prnt_none hprnt q)
      refine ⟨none, s.lk.pChild, s.lk.pSib, ?_, ?_⟩
      · simp [phase1_run, hrun, Ptrs.retree, hupd]
      · rw [hupd, hkids]
        exact ⟨h.forest, fun q _ hq => h.loose q id hq⟩
  | some q =>
      have hmem : p ∈ kids q := (h.forest.prnt p q).mp hprnt
      obtain ⟨pre, post, hq⟩ := List.append_of_mem hmem
      obtain ⟨child, sib, hrun, hforest, -, hsib⟩ :=
        outChild_spec (s := ⟨s.lk.toLinks, s.pcb⟩) h.forest hq
      have hkids : (fun r => (kids r).filter (· ≠ p)) =
          Function.update kids q (pre ++ post) := by
        funext r
        by_cases hr : r = q
        · subst hr
          have hnd := h.forest.nodup r
          rw [hq, List.nodup_middle, List.nodup_cons, List.mem_append, not_or] at hnd
          rw [Function.update_self, hq, List.filter_append, List.filter_cons_of_neg (by simp),
            filter_ne_of_notMem hnd.1.1, filter_ne_of_notMem hnd.1.2]
        · rw [Function.update_of_ne hr]
          exact filter_ne_of_notMem (fun hpr => hr (h.forest.unique hpr hmem))
      refine ⟨some p, child, sib, ?_, ?_⟩
      · simp [phase1_run, hrun, Ptrs.retree]
      · rw [hkids]
        refine ⟨hforest, ?_⟩
        intro r hrp hnone
        have hnone' : s.lk.pPrnt r = none := by
          simpa [Ptrs.retree, Function.update_of_ne hrp] using hnone
        have hsame : sib r = s.lk.pSib r :=
          hsib r (.inl (h.forest.notMem_of_prnt_none hnone' q))
        simp only [Ptrs.retree, hsame]
        exact h.loose r id hnone'

/-! ## The whole walk -/

/-- The victims below `p`: in which order they come, and that they are alive and do not
run. -/
structure Victims (a : Abs) (place : Pcb → Place) (p : Pcb) (vs : List Pcb) : Prop where
  order : Postorder a.lk.kids (a.lk.kids p) vs
  nodup : vs.Nodup
  notMem : p ∉ vs
  place : ∀ v ∈ vs, place v = .ready ∨ ∃ w, place v = .blocked w

theorem victims (h : Placed K a place) (hfam : Family a.lk) (hu : UniqueParents a.lk.kids)
    (hcur : a.currentProc = some p) : Victims a place p (a.lk.descendants p) := by
  have hpost := hfam.acyclic.postorder_spec hu p
  rw [Fintype.card_fin] at hpost
  have hp : p ∉ a.lk.descendants p := by
    intro hmem
    obtain ⟨c, hc, hpc⟩ := hpost.mem_iff.mp hmem
    exact hfam.acyclic.not_below hc hpc
  refine ⟨hpost, hpost.nodup hu hfam.acyclic (fun c hc => hc) (hu.nodup p), hp, ?_⟩
  intro v hv
  have hfree : v ∉ a.lk.free := by
    obtain ⟨c, hc, hvc⟩ := hpost.mem_iff.mp hv
    rcases Relation.ReflTransGen.cases_head hvc with rfl | ⟨q, hvq, -⟩
    · exact hfam.child v p hc
    · exact hfam.child v q hvq
  have hne : v ≠ p := fun heq => hp (heq ▸ hv)
  cases hpl : place v with
  | free => exact absurd ((h.spot v).free.mpr hpl) hfree
  | running =>
      have heq := (h.spot v).running.mpr hpl
      rw [hcur, Option.some.injEq] at heq
      exact absurd heq.symm hne
  | ready => exact .inl rfl
  | blocked w => exact .inr ⟨w, rfl⟩

/-- The lists once the children lists of `p` and its descendants are empty. -/
def Abs.prune (a : Abs) (p : Pcb) : Abs :=
  { a with lk.kids := pruneKids a.lk.kids p (a.lk.descendants p) }

theorem Abs.kill_eq (a : Abs) (p : Pcb) :
    a.kill K p = ((a.lk.descendants p).foldl (reap K) (a.prune p)).reapCurrent p := rfl

theorem foldl_reap_currentProc (vs : List Pcb) (a : Abs) :
    (vs.foldl (Abs.reap K) a).currentProc = a.currentProc := by
  induction vs generalizing a with
  | nil => rfl
  | cons v vs ih => exact ih (a.reap K v)

theorem foldl_reap_kids (vs : List Pcb) (a : Abs) :
    (vs.foldl (Abs.reap K) a).lk.kids = a.lk.kids := by
  induction vs generalizing a with
  | nil => rfl
  | cons v vs ih => exact ih (a.reap K v)

theorem terminateprocess_runs (h : Placed K a place) (hfam : Family a.lk)
    (hcur : a.currentProc = some p) (hlast : a.lk.VictimsLast p) :
    Runs (terminateprocess K (some p)) a (a.kill K p) := by
  intro lk hshape
  let vs := a.lk.descendants p
  have hv : Victims a place p vs := victims h hfam hshape.trees.forest.uniqueParents hcur
  let fin := vs.foldl (Abs.reap K) (a.prune p)
  have hdying : Dying K fin (a.prune p) vs := by
    refine ⟨⟨place, h.congr rfl rfl rfl rfl rfl rfl rfl, hv.place⟩, hv.nodup, ?_, ?_, rfl⟩
    · exact (tailsFirst_iff hshape.queues.nodups_ready hv.nodup).mpr hlast.ready
    · intro w
      exact (tailsFirst_iff (hshape.queues.nodups_blocked w) hv.nodup).mpr (hlast.blocked w)
  have hlen : 2 * vs.length < 2 * MAXPROC := by
    have hle := (List.nodup_cons.mpr ⟨hv.notMem, hv.nodup⟩).length_le_card
    rw [Fintype.card_fin, List.length_cons] at hle
    omega
  -- everything below `p`
  have hall : Dying K fin (a.prune p) (vs ++ []) := by rwa [List.append_nil]
  obtain ⟨s₁, hrun₁, hwalk⟩ | ⟨hF, -⟩ := terminateChildren_walk (S := fun _ => False)
    (dying_reaper K fin) hv.order hv.nodup hlen
    ⟨a.prune p, lk, rfl, ⟨hshape.queues.free, hshape.queues.ready, hshape.queues.asl⟩, hall⟩
    (s := a.withLk lk) ⟨hshape.trees.forest, fun q _ => hshape.trees.loose q⟩ rfl
    (fun v _ => rfl) hv.notMem
  · obtain ⟨b, lk₁, rfl, hq₁, hd₁⟩ := hwalk.remaining
    obtain rfl : b = fin := hd₁.result
    -- `p` itself
    obtain ⟨place₁, hpl₁, -⟩ := hd₁.placed
    have hcur₁ : fin.currentProc = some p := (foldl_reap_currentProc vs _).trans hcur
    obtain ⟨r, child, sib, hout, htree₂⟩ := outChild_run (p := p) hwalk.tree
    have hq₃ := (hq₁.retree (Function.update lk₁.pPrnt p none) child sib).release
      (hpl₁.out hcur₁)
    have htree₃ := Pruned.unlinkTree (S := fun _ => False) (c := p)
      ⟨htree₂.forest, fun q hq => htree₂.loose q (by simpa using hq)⟩
      (fun q => by simp) (by simp [pruneKids])
    refine ⟨_, ?_, ⟨hq₃.free, hq₃.ready, hq₃.asl⟩, ?_⟩
    · have hone : terminateOne K (some p) (a.pcb.pSemAdd p) (fin.withLk lk₁) = .ok ()
          ((fin.reapCurrent p).withLk
            ((lk₁.retree (Function.update lk₁.pPrnt p none) child sib).release p)) := by
        simp only [NucleusOf.withLk, hcur₁] at hout
        simp [terminateOne, callFreePcb, emit, NucleusOf.withLk, hcur₁, hout, setCurrentProc, freePcb_run,
          Abs.reapCurrent]
      rw [terminateprocess, terminateLoop, bind_ok (getPSemAdd_run _ _), bind_ok hrun₁]
      exact hone
    · have hkids : (a.kill K p).lk.kids =
          fun q => (pruneKids a.lk.kids p vs q).filter (· ≠ p) := by
        rw [Abs.kill_eq]
        simp only [Abs.reapCurrent, foldl_reap_kids, Abs.prune, vs]
      rw [hkids]
      have htrees : Pruned (fun _ => False)
          ((lk₁.retree (Function.update lk₁.pPrnt p none) child sib).release p).toLinks _ :=
        htree₃.congr ⟨rfl, rfl, rfl⟩
      exact ⟨htrees.forest, fun q => htrees.loose q id⟩
  · exact hF.elim

/-! ## What is left -/

theorem Placed.foldl_reap (h : Placed K a place) {vs : List Pcb} (hnd : vs.Nodup)
    (hvs : ∀ v ∈ vs, place v = .ready ∨ ∃ w, place v = .blocked w) :
    ∃ place', Placed K (vs.foldl (Abs.reap K) a) place' := by
  induction vs generalizing a place with
  | nil => exact ⟨place, h⟩
  | cons v vs ih =>
      obtain ⟨hv, hnd⟩ := List.nodup_cons.mp hnd
      apply ih (h.reap (hvs v (by simp))) hnd
      intro u hu
      have hne : u ≠ v := fun heq => hv (heq ▸ hu)
      rw [Function.update_of_ne hne]
      exact hvs u (by simp [hu])

theorem Placed.kill (h : Placed K a place) (hv : Victims a place p (a.lk.descendants p))
    (hcur : a.currentProc = some p) : ∃ place', Placed K (a.kill K p) place' := by
  have hpr : Placed K (a.prune p) place := h.congr rfl rfl rfl rfl rfl rfl rfl
  obtain ⟨place', hfin⟩ := hpr.foldl_reap hv.nodup hv.place
  rw [Abs.kill_eq]
  exact ⟨_, hfin.reapCurrent ((foldl_reap_currentProc _ _).trans hcur)⟩

theorem foldl_reap_free (vs : List Pcb) (a : Abs) :
    (vs.foldl (Abs.reap K) a).lk.free = vs.reverse ++ a.lk.free := by
  induction vs generalizing a with
  | nil => rfl
  | cons v vs ih =>
      rw [List.foldl_cons, ih]
      simp [Abs.reap]

theorem foldl_reap_ready (vs : List Pcb) (a : Abs) :
    (vs.foldl (Abs.reap K) a).lk.ready = a.lk.ready.filter (· ∉ vs) := by
  induction vs generalizing a with
  | nil => simp
  | cons v vs ih =>
      rw [List.foldl_cons, ih]
      simp [Abs.reap, List.filter_filter, not_or, Bool.and_comm]

theorem foldl_reap_blocked (vs : List Pcb) (a : Abs) (w : Word) :
    (vs.foldl (Abs.reap K) a).lk.blocked w = (a.lk.blocked w).filter (· ∉ vs) := by
  induction vs generalizing a with
  | nil => simp
  | cons v vs ih =>
      rw [List.foldl_cons, ih]
      simp [Abs.reap, List.filter_filter, not_or, Bool.and_comm]

/-- What remains of the tree are links between survivors. -/
theorem kill_kids (a : Abs) (p q : Pcb) :
    (a.kill K p).lk.kids q =
      (pruneKids a.lk.kids p (a.lk.descendants p) q).filter (· ≠ p) := by
  rw [Abs.kill_eq]
  simp only [Abs.reapCurrent, foldl_reap_kids, Abs.prune]

theorem Family.kill (hfam : Family a.lk) (hu : UniqueParents a.lk.kids)
    (hv : Victims a place p (a.lk.descendants p)) : Family (a.kill K p).lk := by
  have hsub : ∀ q, ∀ x ∈ (a.kill K p).lk.kids q,
      x ∈ a.lk.kids q ∧ x ≠ p ∧ q ≠ p ∧ q ∉ a.lk.descendants p := by
    intro q x hx
    rw [kill_kids, List.mem_filter] at hx
    obtain ⟨hx, hxp⟩ := hx
    unfold pruneKids at hx
    split_ifs at hx with hq
    · simp at hx
    · rw [not_or] at hq
      exact ⟨hx, by simpa using hxp, hq.1, hq.2⟩
  have hfree : ∀ x, x ∈ (a.kill K p).lk.free ↔
      x = p ∨ x ∈ a.lk.descendants p ∨ x ∈ a.lk.free := by
    intro x
    rw [Abs.kill_eq]
    simp [Abs.reapCurrent, foldl_reap_free, Abs.prune]
  constructor
  · exact hfam.acyclic.mono (fun q x hx => (hsub q x hx).1)
  · intro x q hx hmem
    obtain ⟨hxq, hxp, hqp, hqvs⟩ := hsub q x hx
    rcases (hfree x).mp hmem with heq | hxvs | hxf
    · exact hxp heq
    · -- the parent of a victim is `p` or a victim
      obtain ⟨c, hc, hxc⟩ := hv.order.mem_iff.mp hxvs
      rcases Relation.ReflTransGen.cases_head hxc with rfl | ⟨r, hxr, hrc⟩
      · exact hqp (hu.unique x q p hxq hc)
      · obtain rfl : r = q := hu.unique x r q hxr hxq
        exact hqvs (hv.order.mem_iff.mpr ⟨c, hc, hrc⟩)
    · exact hfam.child x q hxq hxf
  · intro x q hx hmem
    obtain ⟨hxq, hxp, hqp, hqvs⟩ := hsub q x hx
    rcases (hfree q).mp hmem with heq | hqv | hqf
    · exact hqp heq
    · exact hqvs hqv
    · exact hfam.parent x q hxq hqf

end Kaya
