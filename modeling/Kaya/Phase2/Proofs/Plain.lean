import Kaya.Phase2.Proofs.Reach

/-!
# Plain events

What each plain event does to the lists.
-/

namespace Kaya

open Lib

variable {K : Layout} {m : Machine} {l : Lists} {e : Event} {p : Pcb}

theorem Shape.kids_eq_nil {lk : Ptrs} (h : Shape lk l) : l.kids p = [] ↔ lk.pChild p = none := by
  rw [h.trees.forest.child_eq]
  cases l.kids p <;> simp

theorem Lists.descendants_eq_nil (h : l.kids p = []) : l.descendants p = [] := by
  rw [descendants, h]
  rfl

theorem Machine.Plain.admits (h : m.Plain K e) : m.Admits K e := by
  obtain ⟨htakes, hplain⟩ := h
  refine ⟨htakes, ?_, ?_⟩
  · cases e with
    | syscall st => exact fun _ => ⟨hplain.sem, fun hio _ => hplain.slot hio⟩
    | interrupt st interruptDev devReg => exact hplain
    | store a v => exact trivial
    | progTrap st | tlbTrap st => exact hplain.elim
  · intro p l hcur hkills hshape
    cases e with
    | syscall st =>
        rw [Event.Kills, if_neg hplain.user] at hkills
        have hterm : st.a0 = TERMINATEPROCESS := by
          rcases hkills with ht | ⟨hs, -⟩ | ⟨hio, hline⟩ | ⟨hrange, -⟩
          · exact ht
          · have hcall := hplain.call
            rw [hs] at hcall
            exact absurd hcall (by decide)
          · exact absurd hline (hplain.device hio)
          · exfalso
            apply hrange
            rcases hplain.call with h | h | h | h | h | h <;> rw [h] <;> decide
        have hkids : l.kids p = [] := hshape.kids_eq_nil.mpr (hplain.childless hterm p hcur)
        constructor <;> simp [Lists.descendants_eq_nil hkids]
    | store a v => exact hkills.elim
    | interrupt st interruptDev devReg => exact hkills.elim
    | progTrap st | tlbTrap st => exact hplain.elim

def Abs.called (a : Abs) (st : State) : Abs := { a with sysOld := st.advance }

def Abs.interrupted (a : Abs) (st : State) (interruptDev : Int → Word) (devReg : Word → Device) :
    Abs :=
  { a with intOld := st, interruptDev := interruptDev, devReg := devReg, reads := a.reads + 1 }

/-- What a plain event does. -/
inductive PlainStep (K : Layout) (a : Abs) (c : Stop) : Event → AbsMachine → Prop
  | store {w v : Word} : ¬ K.IsDev w → c.Running →
      PlainStep K a c (.store w v) ⟨a.setInt w v, c⟩
  | create {st : State} {p : Pcb} : st.a0 = CREATEPROCESS → a.currentProc = some p →
      PlainStep K a c (.syscall st) ((a.called st).createprocess p)
  | exit {st : State} {p : Pcb} : st.a0 = TERMINATEPROCESS → a.currentProc = some p →
      a.lk.kids p = [] →
      PlainStep K a c (.syscall st) ((a.called st).reapCurrent p).schedule
  | V {st : State} {p : Pcb} : st.a0 = VERHOGEN → a.currentProc = some p →
      K.UserWord st.a1 → PlainStep K a c (.syscall st) (a.called st).V
  | P {st : State} {p : Pcb} : st.a0 = PASSEREN → a.currentProc = some p →
      K.UserWord st.a1 → PlainStep K a c (.syscall st) ((a.called st).P p)
  | waitDev {st : State} {p : Pcb} {w : Word} : st.a0 = WAITCLOCK ∨ st.a0 = WAITIO →
      a.currentProc = some p → K.IsDev w →
      PlainStep K a c (.syscall st) ((a.called st).waitDev p w)
  | quantum {st : State} {interruptDev : Int → Word} {devReg : Word → Device} :
      findLineNo st.sCause = PLOCINT →
      PlainStep K a c (.interrupt st interruptDev devReg)
        ((a.interrupted st interruptDev devReg).endQuantum
          (a.tod a.reads)).schedule
  | clock {st : State} {interruptDev : Int → Word} {devReg : Word → Device} :
      findLineNo st.sCause = IVTIMINT →
      PlainStep K a c (.interrupt st interruptDev devReg)
        (((a.interrupted st interruptDev devReg).clockTick K).leaveHandler
          (a.tod a.reads))
  | device {st : State} {interruptDev : Int → Word} {devReg : Word → Device} :
      3 ≤ findLineNo st.sCause →
      K.IsDev (K.semDev (BitVec.ofInt 32
        (shownIndex (findLineNo st.sCause) interruptDev devReg))) →
      PlainStep K a c (.interrupt st interruptDev devReg)
        (((a.interrupted st interruptDev devReg).device K
          (findLineNo st.sCause)).leaveHandler (a.tod a.reads))

theorem Abs.kill_childless {a : Abs} (hkids : a.lk.kids p = []) :
    a.kill K p = a.reapCurrent p := by
  have hprune : a.prune p = a := by
    have hk : pruneKids a.lk.kids p [] = a.lk.kids := by
      funext q
      by_cases hq : q = p
      · simp [pruneKids, hq, hkids]
      · simp [pruneKids, hq]
    rw [Abs.prune, Lists.descendants_eq_nil hkids, hk]
  rw [Abs.kill_eq, Lists.descendants_eq_nil hkids, hprune]
  rfl

theorem Machine.Holds.plain (h : m.Holds K l) (hok : m.Plain K e) :
    PlainStep K (m.abs l) m.cpu e ((m.over l).step K e) := by
  obtain ⟨htakes, hplain⟩ := hok
  have hstep : (m.over l).step K e = (m.over l).take K e := if_pos htakes
  rw [hstep]
  cases e with
  | store w v => exact .store hplain htakes
  | progTrap st | tlbTrap st => exact hplain.elim
  | syscall st =>
      obtain ⟨p, hcur, -⟩ := h.serves htakes
      have htake : (m.over l).take K (.syscall st) =
          ((m.abs l).called st).sysSwitch K p st.a0 := by
        have hcall : (m.over l).take K (.syscall st) =
            Abs.sysCall K { m.abs l with sysOld := st } p := Abs.withCurrent_some _ hcur
        rw [hcall, Abs.sysCall, if_neg hplain.user]
        rfl
      rw [htake]
      rcases hplain.call with h1 | h2 | h3 | h4 | h7 | h8
      · rw [h1]
        exact .create h1 hcur
      · have hkids : l.kids p = [] :=
          h.shape.kids_eq_nil.mpr (hplain.childless h2 p hcur)
        have hdie : ((m.abs l).called st).sysSwitch K p TERMINATEPROCESS =
            (((m.abs l).called st).reapCurrent p).schedule := by
          have hsw : ((m.abs l).called st).sysSwitch K p TERMINATEPROCESS =
            ((m.abs l).called st).die K p := rfl
          rw [hsw, Abs.die, Abs.kill_childless (a := (m.abs l).called st) hkids]
        rw [h2, hdie]
        exact .exit h2 hcur hkids
      · rw [h3]
        exact .V h3 hcur (hplain.sem (.inl h3))
      · rw [h4]
        exact .P h4 hcur (hplain.sem (.inr h4))
      · have hclock : ((m.abs l).called st).sysSwitch K p WAITCLOCK =
            ((m.abs l).called st).waitDev p K.clock := by
          unfold Abs.sysSwitch
          rw [if_neg (by decide), if_neg (by decide), if_neg (by decide), if_neg (by decide),
            if_neg (by decide), if_neg (by decide), if_pos rfl]
        rw [h7, hclock]
        exact .waitDev (.inl h7) hcur Layout.isDev_clock
      · have hio : ((m.abs l).called st).sysSwitch K p st.a0 =
            ((m.abs l).called st).waitDev p
              (K.semDev (waitioIndex st.a1 st.a2 st.a3)) := by
          have hline : ¬ ((m.abs l).called st).sysOld.a1 < DISKINT := hplain.device h8
          rw [h8]
          exact if_neg hline
        rw [hio]
        exact .waitDev (.inr h8) hcur (Layout.isDev_semDev (hplain.slot h8))
  | interrupt st interruptDev devReg =>
      let a : Abs := { m.abs l with
        intOld := st, interruptDev := interruptDev, devReg := devReg }
      have htake : (m.over l).take K (.interrupt st interruptDev devReg) = a.interrupt K := rfl
      have htick : a.tick = (m.abs l).interrupted st interruptDev devReg := rfl
      rw [htake]
      rcases findLineNo_cases st.sCause with h0 | h1 | h2 | ⟨h3, -⟩
      · exact absurd h0 hplain.line
      · rw [Abs.interrupt_ploc (a := a) h1, htick]
        exact .quantum h1
      · rw [Abs.interrupt_ivtim (a := a) h2, htick]
        exact .clock h2
      · obtain ⟨hfound, hidx⟩ := hplain.dev h3
        rw [Abs.interrupt_device (a := a) rfl h3 hfound, htick]
        exact .device h3 (Layout.isDev_semDev hidx)

/-! ## Runs that can be computed -/

instance (m : Machine) : Decidable m.Childless :=
  decidable_of_iff (m.nuc.currentProc.all (fun p => (m.nuc.lk.pChild p).isNone) = true)
    (by simp [Machine.Childless, Option.all_eq_true])

instance (st : State) (interruptDev : Int → Word) (devReg : Word → Device) :
    Decidable (st.SaneInterrupt interruptDev devReg) :=
  decidable_of_iff (_ ∧ _) ⟨fun h => ⟨h.1, h.2⟩, fun h => ⟨h.line, h.dev⟩⟩

instance (K : Layout) (m : Machine) (st : State) : Decidable (st.PlainCall K m) :=
  decidable_of_iff (_ ∧ _ ∧ _ ∧ _ ∧ _ ∧ _)
    ⟨fun h => ⟨h.1, h.2.1, h.2.2.1, h.2.2.2.1, h.2.2.2.2.1, h.2.2.2.2.2⟩,
      fun h => ⟨h.user, h.call, h.sem, h.device, h.slot, h.childless⟩⟩

instance (K : Layout) (m : Machine) : DecidablePred (m.Plain K)
  | .syscall st => inferInstanceAs (Decidable (_ ∧ st.PlainCall K m))
  | .interrupt st interruptDev devReg =>
      inferInstanceAs (Decidable (_ ∧ st.SaneInterrupt interruptDev devReg))
  | .store _ _ => inferInstanceAs (Decidable (_ ∧ ¬ _))
  | .progTrap _ | .tlbTrap _ => inferInstanceAs (Decidable (_ ∧ False))

def sampleRun (es : List Event) : List (Machine × Event) × Machine :=
  Lib.replay (Machine.step .sample) ([], boot .sample .sample) es

theorem sampleRun_reaches {ok : Machine → Event → Prop} {es : List Event}
    (hes : Lib.AllOk (Machine.step .sample) ok (boot .sample .sample) es) :
    Reaches .sample ok (sampleRun es).1 (sampleRun es).2 :=
  (Lib.Run.start ⟨.sample, rfl, rfl⟩).replay es hes

/-- The first process creates two children, and each of the three runs for a quantum. -/
def threeQuanta : List Event :=
  [.syscall (.call CREATEPROCESS 0x20008000 0 0), .syscall (.call CREATEPROCESS 0x20008000 0 0),
    .quantum { resetState with sPc := 4 }, .quantum { resetState with sPc := 8 },
    .quantum { resetState with sPc := 12 }]

theorem threeQuanta_plain :
    Lib.AllOk (Machine.step .sample) (Machine.Plain .sample) (boot .sample .sample) threeQuanta := by
  decide +kernel

theorem waitclock_plain : (boot .sample .sample).Plain .sample (.syscall (.call WAITCLOCK 0 0 0)) := by
  refine ⟨⟨_, boot_cpu _ _⟩, ?_⟩
  constructor
  case user => decide
  case call => exact .inr (.inr (.inr (.inr (.inl rfl))))
  all_goals exact fun h => absurd h (by decide)

end Kaya
