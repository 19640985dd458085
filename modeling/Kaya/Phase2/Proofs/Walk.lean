import Kaya.Phase2.Proofs.Shape

/-!
# The walk of `terminateprocess`

`terminateprocess` takes the process tree apart, children first.  What happens
to each process on the way (`terminateOne`) is a parameter here: `Reaper Φ`
says that it leads from `Φ (v :: vs)` to `Φ vs`, where `vs` are the processes
still to come.
-/

namespace Kaya

open Lib

/-- The process tree while the processes in `S` are being taken apart: they have
no parent any more but may still have a sibling link. -/
structure Pruned (S : Pcb → Prop) (lk : Links Pcb Semd) (kids : Pcb → List Pcb) :
    Prop where
  forest : IsForest lk kids
  loose : ∀ q, ¬ S q → lk.pPrnt q = none → lk.pSib q = none

theorem Pruned.congr {S : Pcb → Prop} {lk lk' : Links Pcb Semd} {kids : Pcb → List Pcb}
    (h : Pruned S lk kids) (hs : SameTree lk lk') : Pruned S lk' kids := by
  constructor
  case forest =>
    constructor
    · rw [hs.sib, hs.child]
      exact h.forest.list
    · rw [hs.prnt]
      exact h.forest.prnt
  case loose =>
    rw [hs.prnt, hs.sib]
    exact h.loose

/-- The children of every process when `vs` and the children of `p` are gone. -/
def pruneKids (kids : Pcb → List Pcb) (p : Pcb) (vs : List Pcb) (q : Pcb) : List Pcb :=
  if q = p ∨ q ∈ vs then [] else kids q

/-- What `terminateOne` does to `v` besides its queue: the tree links of `v` are
cleared, and the other processes keep their links and semaphores. -/
structure Reaped (v : Pcb) (s s' : Nucleus) : Prop where
  tree : SameTree (s.lk.unlinkTree v) s'.lk.toLinks
  semAdd : ∀ q, q ≠ v → s'.pcb.pSemAdd q = s.pcb.pSemAdd q

/-- `terminateOne` keeps `Φ`, or faults where `Faults` allows it. -/
structure Reaper (K : Layout) (Φ : List Pcb → Nucleus → Prop) (Faults : Prop) : Prop where
  retree : ∀ vs s prnt child sib, Φ vs s →
    Φ vs { s with lk := s.lk.retree prnt child sib }
  reap : ∀ v vs s, Φ (v :: vs) s →
    (∃ s', terminateOne K (some v) (s.pcb.pSemAdd v) s = .ok () s' ∧ Φ vs s' ∧ Reaped v s s') ∨
      Faults ∧ ∃ s', terminateOne K (some v) (s.pcb.pSemAdd v) s = .error .fault s'

variable {K : Layout} {Φ : List Pcb → Nucleus → Prop} {Faults : Prop}
  {kids kids₀ : Pcb → List Pcb} {S : Pcb → Prop} {s : Nucleus} {p c : Pcb}
  {cs vs rest : List Pcb}

/-! ## Tree surgery -/

/-- The first child `c` of `p` is taken out of the tree. -/
def Nucleus.detach (s : Nucleus) (p c : Pcb) : Nucleus :=
  { s with
    lk := s.lk.retree (Function.update s.lk.pPrnt c none)
      (Function.update s.lk.pChild p (s.lk.pSib c)) s.lk.pSib }

@[simp] theorem Nucleus.detach_pcb (s : Nucleus) (p c : Pcb) : (s.detach p c).pcb = s.pcb := rfl

theorem removeChild_run (h : s.lk.pChild p = some c) :
    phase1 (removeChild (some p)) s = .ok (some c) (s.detach p c) := by
  have hrun := removeChild_cons (s := ⟨s.lk.toLinks, s.pcb⟩) h
  simp [phase1_run, hrun, Ptrs.retree, Nucleus.detach]

theorem emptyChild_run (s : Nucleus) (p : Pcb) :
    phase1 (emptyChild (some p)) s = .ok (decide (s.lk.pChild p = none)) s := by
  simp [phase1_run, emptyChild_eq]

theorem Pruned.detach (h : Pruned S s.lk.toLinks kids) (hp : kids p = c :: cs) :
    Pruned (fun q => q = c ∨ S q) (s.detach p c).lk.toLinks (Function.update kids p cs) := by
  refine ⟨h.forest.removeFirst hp, ?_⟩
  intro q hq hprnt
  rw [not_or] at hq
  simp only [Nucleus.detach, Ptrs.retree, Function.update_of_ne hq.1] at hprnt ⊢
  exact h.loose q hq.2 hprnt

/-- Once detached, `c` is nobody's child. -/
theorem Pruned.notMem (h : Pruned S s.lk.toLinks kids) (hp : kids p = c :: cs) (q : Pcb) :
    c ∉ pruneKids (Function.update kids p cs) c vs q := by
  have hnd := h.forest.nodup p
  rw [hp] at hnd
  intro hq
  have hq₁ : c ∈ Function.update kids p cs q := by
    unfold pruneKids at hq
    split_ifs at hq
    · simp at hq
    · exact hq
  by_cases hqp : q = p
  · subst hqp
    rw [Function.update_self] at hq₁
    exact (List.nodup_cons.mp hnd).1 hq₁
  · rw [Function.update_of_ne hqp] at hq₁
    exact hqp (h.forest.unique hq₁ (by simp [hp]))

theorem Pruned.unlinkTree {lk : Links Pcb Semd} (h : Pruned (fun q => q = c ∨ S q) lk kids)
    (hc : ∀ q, c ∉ kids q) (hkids : kids c = []) : Pruned S (lk.unlinkTree c) kids := by
  have hprnt : lk.pPrnt c = none := by
    cases hq : lk.pPrnt c with
    | none => rfl
    | some q => exact absurd ((h.forest.prnt c q).mp hq) (hc q)
  refine ⟨h.forest.unlinkTree hprnt hkids, ?_⟩
  intro q hq hnone
  by_cases hqc : q = c
  · subst hqc
    simp [Links.unlinkTree]
  · simp only [Links.unlinkTree, Function.update_of_ne hqc] at hnone ⊢
    exact h.loose q (by simp [hqc, hq]) hnone

/-! ## The walk -/

/-- What a walk over the processes `vs` below `p` has done. -/
structure Walked (Φ : List Pcb → Nucleus → Prop) (S : Pcb → Prop) (kids : Pcb → List Pcb)
    (p : Pcb) (vs rest : List Pcb) (s s' : Nucleus) : Prop where
  remaining : Φ rest s'
  tree : Pruned S s'.lk.toLinks (pruneKids kids p vs)
  semAdd : ∀ q, q ∉ vs → s'.pcb.pSemAdd q = s.pcb.pSemAdd q

/-- Dropping the first child of `p`, walking below it and then below the other
children leaves the tree that one walk over all of them leaves. -/
theorem pruneKids_append (kids : Pcb → List Pcb) (p c : Pcb) (cs vs ws : List Pcb) :
    pruneKids (pruneKids (Function.update kids p cs) c vs) p ws =
      pruneKids kids p (vs ++ c :: ws) := by
  funext q
  by_cases hqp : q = p
  · simp [pruneKids, hqp]
  · simp only [pruneKids, hqp, false_or, Function.update_of_ne hqp, List.mem_append,
      List.mem_cons]
    by_cases hqc : q = c
    · simp [hqc]
    · by_cases hvs : q ∈ vs
      · simp [hvs]
      · simp [hqc, hvs]

theorem terminateChildren_nil {fuel : Nat} (h : s.lk.pChild p = none) :
    terminateChildren K (fuel + 1) (some p) s = .ok () s := by
  rw [terminateChildren]
  simp [emptyChild_run, h]

/-- One turn of the loop: the first child goes, after what is below it. -/
theorem terminateChildren_cons {fuel : Nat} (h : s.lk.pChild p = some c) :
    terminateChildren K (fuel + 2) (some p) s =
      (do terminateChildren K fuel (some c)
          terminateOne K (some c) (s.pcb.pSemAdd c)
          terminateChildren K (fuel + 1) (some p)) (s.detach p c) := by
  rw [terminateChildren]
  simp only [bind_run, emptyChild_run, h, reduceCtorEq, decide_false, ite_run, ne_eq,
    Bool.false_eq_true, not_false_eq_true, if_true, removeChild_run h]
  rw [terminateLoop]
  simp only [bind_run, getPSemAdd_run, Nucleus.detach_pcb]
  cases terminateChildren K fuel (some c) (s.detach p c) <;> rfl

theorem terminateChildren_walk (hR : Reaper K Φ Faults) (hpost : Postorder kids₀ cs vs)
    (hnd : vs.Nodup) {fuel : Nat} (hfuel : 2 * vs.length < fuel) (hΦ : Φ (vs ++ rest) s)
    (htree : Pruned S s.lk.toLinks kids) (hp : kids p = cs) (hk : ∀ v ∈ vs, kids v = kids₀ v)
    (hpvs : p ∉ vs) :
    (∃ s', terminateChildren K fuel (some p) s = .ok () s' ∧
      Walked Φ S kids p vs rest s s') ∨
      Faults ∧ ∃ s', terminateChildren K fuel (some p) s = .error .fault s' := by
  induction hpost generalizing fuel s kids S p rest with
  | nil =>
      obtain ⟨fuel, rfl⟩ := Nat.exists_eq_succ_of_ne_zero (Nat.ne_of_gt hfuel)
      have hchild : s.lk.pChild p = none := by
        rw [htree.forest.child_eq, hp]
        rfl
      have hkids : pruneKids kids p [] = kids := by
        funext q
        by_cases hq : q = p
        · simp [pruneKids, hq, hp]
        · simp [pruneKids, hq]
      exact .inl ⟨s, terminateChildren_nil hchild, hΦ, by rwa [hkids], fun _ _ => rfl⟩
  | @cons c cs vs ws hc _ ihc ihs =>
      simp only [List.length_append, List.length_cons] at hfuel
      obtain ⟨fuel, rfl⟩ : ∃ n, fuel = n + 2 := ⟨fuel - 2, by omega⟩
      simp only [List.nodup_append, List.nodup_cons, List.mem_cons] at hnd
      obtain ⟨hndv, ⟨hcws, hndw⟩, hdisj⟩ := hnd
      have hcvs : c ∉ vs := fun hv => hdisj c hv c (.inl rfl) rfl
      simp only [List.mem_append, List.mem_cons, not_or] at hpvs hk
      obtain ⟨hpv, hpc, hpw⟩ := hpvs
      have hchild : s.lk.pChild p = some c := by
        rw [htree.forest.child_eq, hp]
        rfl
      let kids₁ := Function.update kids p cs
      have hkids₁ : ∀ v, v ≠ p → kids₁ v = kids v := fun v hv => Function.update_of_ne hv _ _
      have hΦ₁ : Φ (vs ++ (c :: (ws ++ rest))) (s.detach p c) := by
        have h := hR.retree _ _ (Function.update s.lk.pPrnt c none)
          (Function.update s.lk.pChild p (s.lk.pSib c)) s.lk.pSib hΦ
        simpa [Nucleus.detach] using h
      have hfuel₁ : 2 * vs.length < fuel := by omega
      have hbelow := ihc hndv hfuel₁ hΦ₁ (htree.detach hp)
        ((hkids₁ c (Ne.symm hpc)).trans (hk c (by simp)))
        (fun v hv => (hkids₁ v (fun heq => hpv (heq ▸ hv))).trans (hk v (by simp [hv]))) hcvs
      rcases hbelow with ⟨s₂, hrun₂, hwalk₂⟩ | ⟨hF, s₂, hrun₂⟩
      · -- the processes below `c` are gone, `c` itself follows
        have hsem : s₂.pcb.pSemAdd c = s.pcb.pSemAdd c := hwalk₂.semAdd c hcvs
        rcases hR.reap c (ws ++ rest) s₂ hwalk₂.remaining with ⟨s₃, hrun₃, hΦ₃, hreap⟩ | ⟨hF, s₃, hrun₃⟩
        · rw [hsem] at hrun₃
          have htree₃ : Pruned S s₃.lk.toLinks (pruneKids kids₁ c vs) :=
            (hwalk₂.tree.unlinkTree (htree.notMem hp) (by simp [pruneKids])).congr hreap.tree
          have hp₃ : pruneKids kids₁ c vs p = cs := by
            simp [pruneKids, hpc, hpv, kids₁]
          have hk₃ : ∀ v ∈ ws, pruneKids kids₁ c vs v = kids₀ v := by
            intro v hv
            have hvc : v ≠ c := fun heq => hcws (heq ▸ hv)
            have hvp : v ≠ p := fun heq => hpw (heq ▸ hv)
            have hvv : v ∉ vs := fun hvv => hdisj v hvv v (.inr hv) rfl
            simp only [pruneKids, hvc, hvv, or_self, if_false, hkids₁ v hvp]
            exact hk v (by simp [hv])
          have hfuel₃ : 2 * ws.length < fuel + 1 := by omega
          have hrest := ihs hndw hfuel₃ hΦ₃ htree₃ hp₃ hk₃ hpw
          rcases hrest with ⟨s₄, hrun₄, hwalk₄⟩ | ⟨hF, s₄, hrun₄⟩
          · refine .inl ⟨s₄, ?_, hwalk₄.remaining, ?_, ?_⟩
            · rw [terminateChildren_cons hchild, bind_ok hrun₂, bind_ok hrun₃, hrun₄]
            · rw [← pruneKids_append kids p c cs vs ws]
              exact hwalk₄.tree
            · intro q hq
              simp only [List.mem_append, List.mem_cons, not_or] at hq
              rw [hwalk₄.semAdd q hq.2.2, hreap.semAdd q hq.2.1, hwalk₂.semAdd q hq.1,
                Nucleus.detach_pcb]
          · refine .inr ⟨hF, s₄, ?_⟩
            rw [terminateChildren_cons hchild, bind_ok hrun₂, bind_ok hrun₃, hrun₄]
        · rw [hsem] at hrun₃
          refine .inr ⟨hF, s₃, ?_⟩
          rw [terminateChildren_cons hchild, bind_ok hrun₂, bind_error hrun₃]
      · refine .inr ⟨hF, s₂, ?_⟩
        rw [terminateChildren_cons hchild, bind_error hrun₂]

end Kaya
