import Kaya.Phase1.Capacity
import Kaya.Phase2.Places
import Kaya.Phase2.Proofs.Bystander

/-!
# No waiter is lost

`P`, `waitforclock` and `waitio` ignore what `insertBlocked` returns and give the processor
away.  It never returns `TRUE`, so the process that gave it away is in the queue of its
semaphore.
-/

namespace Kaya

open Lib

variable {K : Layout} {a : Abs} {m : Machine} {l : Lists} {p : Pcb} {w : Word}

theorem P_queue (hneg : (a.mem a.sysOld.a1 - 1).toInt < 0) :
    (a.P p).nuc.lk.blocked =
      Function.update a.lk.blocked a.sysOld.a1 (a.lk.blocked a.sysOld.a1 ++ [p]) := by
  rw [Abs.P_of_neg hneg, (schedule_world _).blocked]
  rfl

theorem waitDev_queue (hneg : (a.mem w - 1).toInt < 0) :
    (a.waitDev p w).nuc.lk.blocked =
      Function.update a.lk.blocked w (a.lk.blocked w ++ [p]) := by
  rw [Abs.waitDev_of_neg hneg, (schedule_world _).blocked]
  rfl

theorem sysCall_queue (hpriv : ¬ a.sysOld.Privileged) (hw : a.sysOld.waitsOn K = some w)
    (hneg : (a.mem w - 1).toInt < 0) :
    (a.sysCall K p).nuc.lk.blocked = Function.update a.lk.blocked w (a.lk.blocked w ++ [p]) := by
  have hcall : a.sysCall K p = (a.called a.sysOld).sysSwitch K p a.sysOld.a0 := if_neg hpriv
  rw [hcall]
  unfold State.waitsOn at hw
  split_ifs at hw with h4 h7 h8
  · obtain rfl : a.sysOld.a1 = w := Option.some.inj hw
    rw [h4]
    exact P_queue (a := a.called a.sysOld) hneg
  · obtain rfl : K.clock = w := Option.some.inj hw
    rw [h7]
    exact waitDev_queue (a := a.called a.sysOld) hneg
  · obtain rfl : K.semDev _ = w := Option.some.inj hw
    have hswitch : (a.called a.sysOld).sysSwitch K p WAITIO =
        (a.called a.sysOld).waitDev p
          (K.semDev (waitioIndex a.sysOld.a1 a.sysOld.a2 a.sysOld.a3)) := if_neg h8.2
    rw [h8.1, hswitch]
    exact waitDev_queue (a := a.called a.sysOld) hneg

theorem Machine.Holds.waits (h : m.Holds K l) {st : State} (hok : m.Admits K (.syscall st))
    (hpriv : ¬ st.Privileged) (hw : st.waitsOn K = some w)
    (hneg : (m.nuc.mem w - 1).toInt < 0) :
    ∃ p l', m.nuc.currentProc = some p ∧ Shape (m.step K (.syscall st)).nuc.lk l' ∧
      Accounted (m.step K (.syscall st)) l' ∧
      l'.blocked = Function.update l.blocked w (l.blocked w ++ [p]) := by
  obtain ⟨p, hcur, -⟩ := h.serves hok.takes
  obtain ⟨l', h', hover⟩ := h.step hok
  let a : Abs := { m.abs l with sysOld := st }
  have htake : (m.over l).step K (.syscall st) = (m.over l).take K (.syscall st) :=
    if_pos hok.takes
  have hcall : (m.over l).take K (.syscall st) = a.sysCall K p :=
    Abs.withCurrent_some (a := a) _ hcur
  refine ⟨p, l', hcur, h'.shape, h'.accounted, ?_⟩
  have hblk : l'.blocked = ((m.over l).step K (.syscall st)).nuc.lk.blocked := by
    rw [← hover]
    rfl
  rw [hblk, htake, hcall]
  exact sysCall_queue (a := a) hpriv hw hneg

/-- At most `MAXPROC` PCBs never see `insertBlocked` return `TRUE`, and in every state reached
a process that has to wait for a semaphore is in its queue after the call. -/
theorem insertBlocked_has_room {π δ : Type} [DecidableEq π] [DecidableEq δ] [Fintype δ]
    {semdArr : List δ} (hnd : semdArr.Nodup) (hall : ∀ d, d ∈ semdArr)
    (hlen : semdArr.length = MAXPROC + 2) (s : Phase1 π δ) {X : Finset π}
    (hX : X.card ≤ MAXPROC) (cs : List (AslCall π)) (hin : ∀ c ∈ cs, c.Within X)
    (hcs : AllOk AslCall.next (fun m c => c.Allowed m) QueueMap.empty cs) (K : Layout) :
    (∃ s₀ s' rs, initASL semdArr s = .ok () s₀ ∧ AslCall.runAll cs s₀ = .ok rs s' ∧
      ∀ (i : Nat) (a : Word) (p : π), cs[i]? = some (.insert a (some p)) →
        rs[i]? = some (.inserted false)) ∧
    ∀ (h : List (Machine × Event)) (m : Machine), Reaches K (Machine.Admits K) h m →
      ∀ st w, m.Admits K (.syscall st) → ¬ st.Privileged → st.waitsOn K = some w →
        (m.nuc.mem w - 1).toInt < 0 →
        ∃ p l', m.nuc.currentProc = some p ∧ Shape (m.step K (.syscall st)).nuc.lk l' ∧
          Accounted (m.step K (.syscall st)) l' ∧ p ∈ l'.blocked w := by
  constructor
  · obtain ⟨hδ, s₀, hinit, h₀⟩ := initASL_represents hnd hall hlen s
    obtain ⟨s', hrun, -⟩ := h₀.calls hδ hcs
    refine ⟨s₀, s', _, hinit, hrun, ?_⟩
    intro i a p hi
    exact h₀.has_room hδ hX (QueueMap.empty_within X) hcs hin hi
  · intro h m hrun st w hok hpriv hw hneg
    obtain ⟨l, hl⟩ := hrun.holds fun _ _ he => he
    obtain ⟨p, l', hcur, hshape, hacc, hblk⟩ := hl.waits hok hpriv hw hneg
    refine ⟨p, l', hcur, hshape, hacc, ?_⟩
    rw [hblk, Function.update_self]
    simp

/-- Two PCBs wait for the semaphore at 4, and the first process waits for the clock. -/
theorem insertBlocked_has_room_two :
    (∃ (s₀ s' : Phase1 (Fin 2) (Fin (MAXPROC + 2))) (rs : List (AslAnswer (Fin 2))),
      initASL (List.finRange (MAXPROC + 2)) Phase1.sample = .ok () s₀ ∧
      AslCall.runAll [.insert 4 (some 0), .insert 4 (some 1)] s₀ = .ok rs s' ∧
      ∀ (i : Nat) (a : Word) (p : Fin 2),
        [AslCall.insert 4 (some 0), .insert 4 (some 1)][i]? = some (.insert a (some p)) →
        rs[i]? = some (.inserted false)) ∧
    ∃ p l', (boot .sample .sample).nuc.currentProc = some p ∧
      Shape (Machine.step .sample (boot .sample .sample)
        (.syscall (.call WAITCLOCK 0 0 0))).nuc.lk l' ∧
      Accounted (Machine.step .sample (boot .sample .sample)
        (.syscall (.call WAITCLOCK 0 0 0))) l' ∧ p ∈ l'.blocked Layout.sample.clock := by
  have haddr : SemAddr 4 := ⟨by decide, by decide⟩
  have hmem : (boot .sample .sample).nuc.mem Layout.sample.clock = 0 := by
    rw [boot_mem]
    exact first_mem_dev _ (by decide)
  have hroom := insertBlocked_has_room (List.nodup_finRange _) List.mem_finRange
    (List.length_finRange ..) Phase1.sample (X := Finset.univ) (by decide)
    [.insert 4 (some (0 : Fin 2)), .insert 4 (some 1)] (by
      intro c hc
      rcases List.mem_cons.mp hc with rfl | hc
      · exact Finset.mem_univ 0
      · obtain rfl := List.mem_singleton.mp hc
        exact Finset.mem_univ 1) ⟨⟨haddr, by
      intro q _ b hq
      cases hq⟩, ⟨haddr, by
      rintro q hq b hmem
      cases hq
      have hnext : AslCall.next QueueMap.empty (.insert 4 (some (0 : Fin 2))) =
          QueueMap.empty.append 4 0 := rfl
      rw [hnext, QueueMap.mem_append] at hmem
      simp at hmem⟩, trivial⟩ .sample
  refine ⟨hroom.1, ?_⟩
  exact hroom.2 [] _ (.start ⟨.sample, rfl, rfl⟩) _ _ waitclock_plain.admits (by decide) (by decide)
    (by rw [hmem]; decide)

end Kaya
