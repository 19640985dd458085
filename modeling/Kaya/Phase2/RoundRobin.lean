import Kaya.Lib.Fifo
import Kaya.Phase2.Proofs.Frame

/-!
# Round robin

`readyQue` is a line: a process that gave its turn away, was woken, created or preempted
stands behind all the others, and the scheduler takes the first.
-/

namespace Kaya

open Lib

/-- What `readyQue` sees of an observation. -/
def Obs.move : Obs → Option (Move (Option Pcb))
  | .join p => some (.join p)
  | .dispatch p _ => some (.serve p)
  | _ => none

/-- The processes that joined `readyQue`, the first one first. -/
def joins (tr : List Obs) : List (Option Pcb) := joined (tr.filterMap Obs.move)

/-- The processes dispatched, the first one first. -/
def dispatches (tr : List Obs) : List (Option Pcb) := served (tr.filterMap Obs.move)

structure RoundRobin (m : Machine) (l : Lists) : Prop where
  /-- Dispatched in the order of joining; who is left is in `readyQue`, in that order. -/
  order : joins m.nuc.trace = dispatches m.nuc.trace ++ l.ready.map some
  /-- The same at every earlier moment. -/
  earlier : ∀ tr, tr <:+ m.nuc.trace → dispatches tr <+: joins tr
  /-- While `p` waits in `readyQue`, nobody is dispatched twice. -/
  bypass : ∀ p tr₁ tr₂ tr₃, m.nuc.trace = tr₃ ++ (tr₂ ++ .join p :: tr₁) →
    p ∉ dispatches tr₂ → ∀ q, (dispatches tr₂).count q ≤ 1

variable {K : Layout} {m : Machine} {l : Lists} {h : List (Machine × Event)} {e : Event}
  {a : Abs} {am : AbsMachine} {c : Stop} {p : Pcb} {w : Word} {place : Pcb → Place}

/-- `readyQue` is the line that the trace tells of. -/
def Abs.InLine (a : Abs) : Prop := Fifo (a.trace.filterMap Obs.move) (a.lk.ready.map some)

theorem Placed.notMem_ready (h : Placed K a place) (hp : place p ≠ .ready) : p ∉ a.lk.ready :=
  fun hmem => hp ((h.spot p).ready.mp hmem)

theorem Placed.notMem_ready_of_blocked (h : Placed K a place) (hp : p ∈ a.lk.blocked w) :
    p ∉ a.lk.ready := by
  apply h.notMem_ready
  rw [((h.spot p).blocked w).mp hp]
  exact nofun

namespace Abs.InLine

theorem schedule (h : a.InLine) : Abs.InLine a.schedule.nuc := by
  unfold Abs.InLine at h ⊢
  cases hready : a.lk.ready with
  | cons p ps =>
      rw [hready] at h
      simp only [Abs.schedule, hready]
      exact h.serve
  | nil =>
      rw [hready] at h
      unfold Abs.schedule
      simp only [hready]
      split_ifs <;> rw [hready] <;> exact h

/-- `p`, which was not in `readyQue`, joins it. -/
theorem join (h : a.InLine) (hp : p ∉ a.lk.ready) :
    Fifo (.join (some p) :: a.trace.filterMap Obs.move) ((a.lk.ready ++ [p]).map some) := by
  rw [List.map_append]
  exact Fifo.join h (by simpa using hp)

theorem unblock (h : a.InLine) (hp : p ∉ a.lk.ready) (soft : Int) (w : Word) (ps : List Pcb) :
    (a.unblock soft w p ps).InLine := h.join hp

theorem wake (h : a.InLine) (hpl : Placed K a place) (w : Word) : (a.wake w).InLine := by
  cases hq : a.lk.blocked w with
  | nil => rwa [Abs.wake_nil hq]
  | cons p ps =>
      rw [Abs.wake_cons hq]
      exact h.unblock (hpl.notMem_ready_of_blocked (w := w) (by simp [hq])) 0 w ps

theorem wakeAll {ps : List Pcb} (h : a.InLine) (hnd : ps.Nodup) (hps : ∀ p ∈ ps, p ∉ a.lk.ready)
    (w : Word) : (a.wakeAll w ps).InLine := by
  induction ps generalizing a with
  | nil => exact h
  | cons p ps ih =>
      rw [List.nodup_cons] at hnd
      refine ih (h.unblock (hps p List.mem_cons_self) 1 w ps) hnd.2 ?_
      intro q hq hmem
      have hready : q ∈ a.lk.ready ++ [p] := hmem
      rcases List.mem_append.mp hready with hold | hnew
      · exact hps q (List.mem_cons_of_mem p hq) hold
      · rw [List.mem_singleton] at hnew
        exact hnd.1 (hnew ▸ hq)

theorem signal (h : a.InLine) (hpl : Placed K a place) (w status : Word) :
    (a.signal w status).InLine := by
  by_cases hle : (a.mem w + 1).toInt ≤ 0
  · cases hq : a.lk.blocked w with
    | nil =>
        rw [Abs.signal_nil hle hq]
        exact h
    | cons p ps =>
        rw [Abs.signal_cons hle hq]
        have hp : p ∉ a.lk.ready := hpl.notMem_ready_of_blocked (w := w) (by simp [hq])
        exact h.join hp
  · rw [Abs.signal_of_pos hle]
    exact h

theorem endQuantum (h : a.InLine) (hpl : Placed K a place) (t : Int) :
    (a.endQuantum t).InLine := by
  cases hcur : a.currentProc with
  | none => simpa only [Abs.InLine, Abs.endQuantum, Abs.preempt, Abs.tick, hcur] using h
  | some p =>
      have hp : p ∉ a.lk.ready := by
        apply hpl.notMem_ready
        rw [(hpl.spot p).running.mp hcur]
        simp
      have hjoin := h.join hp
      simp only [Abs.InLine, Abs.endQuantum, Abs.preempt, Abs.tick, hcur]
      exact hjoin

theorem createprocess (h : a.InLine) (hpl : Placed K a place) (c : Pcb) :
    Abs.InLine (a.createprocess c).nuc := by
  unfold Abs.createprocess
  split
  · exact h
  · rename_i p fs hfree
    have hp : p ∉ a.lk.ready := by
      apply hpl.notMem_ready
      rw [(hpl.spot p).free.mp (by simp [hfree])]
      exact nofun
    exact h.join hp

theorem leaveHandler (h : a.InLine) (t : Int) : Abs.InLine (a.leaveHandler t).nuc := by
  cases hwait : a.waiting with
  | true =>
      rw [Abs.leaveHandler_waiting hwait]
      exact h.schedule
  | false =>
      rw [Abs.leaveHandler_awake hwait]
      exact h

end Abs.InLine

theorem PlainStep.inLine (hs : PlainStep K a c e am) (h : a.InLine) (hpl : Placed K a place)
    (hnd : (a.lk.blocked K.clock).Nodup) : Abs.InLine am.nuc := by
  cases hs with
  | store => exact h
  | @create st p h1 hcur =>
      have hpl' : Placed K (a.called st) place := hpl.congr rfl rfl rfl rfl rfl rfl rfl
      exact Abs.InLine.createprocess (a := a.called st) h hpl' p
  | @exit st p h2 hcur hkids =>
      have hexit : ((a.called st).reapCurrent p).InLine := h
      exact hexit.schedule
  | @V st p h3 hcur hw =>
      by_cases hle : (((a.called st).mem (a.called st).sysOld.a1) + 1).toInt ≤ 0
      · rw [Abs.V_of_le hle]
        have hset : ((a.called st).setInt (a.called st).sysOld.a1
            ((a.called st).mem (a.called st).sysOld.a1 + 1)).InLine := h
        exact hset.wake (hpl.congr rfl rfl rfl rfl rfl rfl rfl) _
      · rw [Abs.V_of_not_le hle]
        exact h
  | @P st p h4 hcur hw =>
      by_cases hneg : (((a.called st).mem (a.called st).sysOld.a1) - 1).toInt < 0
      · rw [Abs.P_of_neg hneg]
        exact Abs.InLine.schedule h
      · rw [Abs.P_of_not_neg hneg]
        exact h
  | @waitDev st p u h78 hcur hdev =>
      by_cases hneg : ((a.called st).mem u - 1).toInt < 0
      · rw [Abs.waitDev_of_neg hneg]
        exact Abs.InLine.schedule h
      · rw [Abs.waitDev_of_not_neg hneg]
        exact h
  | @quantum st i d h1 =>
      have hint : (a.interrupted st i d).InLine := h
      exact (hint.endQuantum (hpl.congr rfl rfl rfl rfl rfl rfl rfl) _).schedule
  | @clock st i d h2 =>
      have hint : (a.interrupted st i d).InLine := h
      have hwake := hint.wakeAll hnd (fun p hp => hpl.notMem_ready_of_blocked hp) K.clock
      exact Abs.InLine.leaveHandler (a := (a.interrupted st i d).clockTick K) hwake _
  | @device st i d h3 hdev =>
      have hint : ((a.interrupted st i d).acked (findLineNo st.sCause)).InLine := h
      exact (hint.signal (hpl.congr rfl rfl rfl rfl rfl rfl rfl) _ _).leaveHandler _

theorem Abs.first_inLine {s : Nucleus} (hs : s.trace = []) : (Abs.first K s).InLine := by
  have hline : Fifo [Move.join (some Abs.firstPcb)] ([] ++ [some Abs.firstPcb]) :=
    Fifo.nil.join List.not_mem_nil
  have htrace : (Abs.first K s).trace.filterMap Obs.move = [.join (some Abs.firstPcb)] := by
    simp only [Abs.first, hs]
    rfl
  unfold Abs.InLine
  rw [htrace]
  exact hline

theorem Abs.InLine.roundRobin (h : (m.abs l).InLine) : RoundRobin m l := by
  have hline : Fifo (m.nuc.trace.filterMap Obs.move) (l.ready.map some) := h
  constructor
  case order => exact hline.order
  case earlier =>
    rintro tr ⟨tr', htr⟩
    rw [← htr, List.filterMap_append] at hline
    obtain ⟨v, hv, -⟩ := hline.append
    exact ⟨v, hv.order.symm⟩
  case bypass =>
    intro p tr₁ tr₂ tr₃ htr hp q
    rw [htr, List.filterMap_append] at hline
    obtain ⟨v, hv, -⟩ := hline.append
    rw [List.filterMap_append] at hv
    exact List.nodup_iff_count_le_one.mp (hv.bypass hp) q

/-- In every run of plain events `readyQue` is served round robin. -/
theorem plain_roundRobin (hrun : Reaches K (Machine.Plain K) h m) :
    ∃ l, Shape m.nuc.lk l ∧ RoundRobin m l := by
  obtain ⟨l, hholds, hline⟩ := hrun.induction (fun _ _ he => he.admits)
    (I := fun _ am => Abs.InLine am.nuc) (fun _ hs => (Abs.first_inLine hs).schedule) (by
      intro h m l e hholds hline hok
      obtain ⟨place, hpl⟩ := hholds.sound.inv.placed
      exact (hholds.plain hok).inLine hline hpl (hholds.shape.nodups.blocked _))
  exact ⟨l, hholds.shape, Abs.InLine.roundRobin hline⟩

/-- Three processes take turns. -/
theorem plain_roundRobin_quantum : ∃ l, Shape (sampleRun threeQuanta).2.nuc.lk l ∧
    RoundRobin (sampleRun threeQuanta).2 l :=
  plain_roundRobin (sampleRun_reaches threeQuanta_plain)

end Kaya
