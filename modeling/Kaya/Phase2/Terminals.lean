import Kaya.Phase2.Machine
import Kaya.Phase2.Proofs.Files
import Kaya.Phase2.Transparency

/-!
# Which half of a terminal an interrupt is for

A terminal is two devices that share a line and a number: its receiver and its transmitter.  In
any nucleus state the handler acknowledges one of the two and signals the semaphore of the same
one.
-/

namespace Kaya

open Lib

/-! ## What a handler passes on -/

/-- From `s` to `t` saved states stay as they are or get `v` as their `v0`. -/
structure Passes (v : Word) (s t : Nucleus) : Prop where
  mem : t.mem = s.mem
  devReg : t.devReg = s.devReg
  intOld : t.intOld = s.intOld ∨ t.intOld = s.intOld.setV0 v
  pS : ∀ p, t.pcb.pS p = s.pcb.pS p ∨ t.pcb.pS p = (s.pcb.pS p).setV0 v

theorem setV0_twice {st st' st'' : State} {v : Word} (h : st' = st ∨ st' = st.setV0 v)
    (h' : st'' = st' ∨ st'' = st'.setV0 v) : st'' = st ∨ st'' = st.setV0 v := by
  rcases h with rfl | rfl
  · exact h'
  · rw [State.setV0_setV0, or_self] at h'
    exact .inr h'

namespace Passes

variable {v : Word} {α β : Type} {x : NucM α} {s t u : Nucleus}

theorem refl (s : Nucleus) : Passes v s s := ⟨rfl, rfl, .inl rfl, fun _ => .inl rfl⟩

theorem trans (h : Passes v s t) (h' : Passes v t u) : Passes v s u :=
  ⟨h'.mem.trans h.mem, h'.devReg.trans h.devReg, setV0_twice h.intOld h'.intOld,
    fun p => setV0_twice (h.pS p) (h'.pS p)⟩

theorem of_files (h : t.files = s.files) : Passes v s t := by
  have hrec := congrArg Files.records h
  exact ⟨congrArg Files.mem h, congrArg Files.devReg h, .inl (congrArg Files.intOld h),
    fun p => .inl (congrFun (congrArg Records.pS hrec) p)⟩

end Passes

/-- A program that passes on `v` at most, however it ends. -/
def PassesOn (v : Word) {α : Type} (x : NucM α) : Prop :=
  Within (Passes v) (fun _ => Passes v) x

namespace PassesOn

variable {v : Word} {α β : Type} {x : NucM α}

theorem bind (hx : PassesOn v x) {f : α → NucM β} (hf : ∀ a, PassesOn v (f a)) :
    PassesOn v (x >>= f) :=
  Within.bind (fun _ _ _ => .trans) (fun _ _ _ _ => .trans) hx hf

theorem pure (a : α) : PassesOn v (pure a : NucM α) := .refl

theorem ite {c : Prop} [Decidable c] {y : NucM α} (hx : PassesOn v x) (hy : PassesOn v y) :
    PassesOn v (if c then x else y) := Within.ite hx hy

theorem of_stays (hx : Stays Nucleus.files x) : PassesOn v x :=
  .of_endState fun s => .of_files (hx.endState s)

end PassesOn

section Handler

variable {K : Layout} {s : Nucleus}

theorem answerDev_passesOn (w status : Word) :
    PassesOn (status &&& STATUSMASK) (answerDev w status) := by
  have hremove := queue_stays (removeBlocked_keeps semBlind_records w)
  refine PassesOn.bind (.of_stays hremove) fun q => PassesOn.ite ?_ (.pure _)
  refine PassesOn.bind (.of_stays ?count) fun _ => ?_
  case count => exact fun _ => rfl
  refine .of_endState fun s => ?_
  cases q with
  | none => exact .refl s
  | some p =>
    let s' : Nucleus := { s with
      pcb.pS := Function.update s.pcb.pS p ((s.pcb.pS p).setV0 (status &&& STATUSMASK)) }
    have hsaved : Passes (status &&& STATUSMASK) s s' := by
      refine ⟨rfl, rfl, .inl rfl, fun r => ?_⟩
      by_cases hr : r = p
      · subst hr
        exact .inr (Function.update_self ..)
      · exact .inl (Function.update_of_ne hr ..)
    have hready := (PassesOn.of_stays (v := status &&& STATUSMASK) (insertReady_stays (some p)))
    exact hsaved.trans (hready.endState s')

theorem signalDev_passes (w status : Word) (s : Nucleus) :
    Passes (status &&& STATUSMASK) { s with mem := Function.update s.mem w (s.mem w + 1) }
      (endState (signalDev w status) s) := by
  by_cases hle : (s.mem w + 1).toInt ≤ 0
  · have hrun : signalDev w status s =
        answerDev w status { s with mem := Function.update s.mem w (s.mem w + 1) } := by
      simp only [signalDev, answerDev, storeInt, loadInt, bind_run, get_run, modify_run, pure_run,
        ite_run, Function.update_self, if_pos hle]
    rw [endState, hrun]
    exact (answerDev_passesOn w status).endState _
  · have hrun : signalDev w status s = .ok ()
        { s with
          mem := Function.update s.mem w (s.mem w + 1)
          intOld := s.intOld.setV0 (status &&& STATUSMASK) } := by
      simp only [signalDev, storeInt, loadInt, bind_run, get_run, modify_run, pure_run, ite_run,
        Function.update_self, if_neg hle]
    rw [endState, hrun]
    exact ⟨rfl, rfl, .inr rfl, fun _ => .inl rfl⟩

theorem leaveHandler_stays (timeStart : Int) : Stays Nucleus.files (leaveHandler timeStart) := by
  have hend : Stays Nucleus.files (do
      let timeEnd ← STCK
      modify fun t : Nucleus => { t with ioProcTime := t.ioProcTime + (timeStart - timeEnd) }
      emit (.handled (← get).currentProc timeStart timeEnd)
      LDST (← get).intOld : NucM Unit) := by
    refine .bind STCK_stays fun _ => .bind ?time fun _ => .bind .of_get fun _ => ?_
    case time => exact fun _ => rfl
    exact .bind (emit_stays _) fun _ => .bind .of_get fun _ => .throw _
  exact .bind .of_get fun _ => .ite (.bind scheduler_stays fun _ => hend) hend

theorem leaveHandler_stops (timeStart : Int) (s : Nucleus) :
    ∃ e t, leaveHandler timeStart s = .error e t := by
  unfold leaveHandler
  refine bind_stops get (fun t s => ?_) s
  split
  · exact bind_stops scheduler (fun _ _ => ⟨_, _, rfl⟩) s
  · exact ⟨_, _, rfl⟩

/-- In any nucleus state the handler of a device interrupt stops after it has acknowledged the
device that is shown and signalled its semaphore. -/
theorem ioTrapHandler_device {lineNo devNo : Int} (hline : findLineNo s.intOld.sCause = lineNo)
    (h3 : 3 ≤ lineNo) (hdev : findDevNo (s.interruptDev (lineNo - 3)) = devNo)
    (hfound : devNo ≠ -1) :
    ∃ e t, ioTrapHandler K s = .error e t ∧
      Passes (((s.devReg (getDeviceReg lineNo devNo)).ack lineNo).1 &&& STATUSMASK)
        { s with
          devReg := Function.update s.devReg (getDeviceReg lineNo devNo)
            ((s.devReg (getDeviceReg lineNo devNo)).ack lineNo).2.2
          mem := Function.update s.mem
            (K.semDev (BitVec.ofInt 32 (ioIndex lineNo devNo
              ((s.devReg (getDeviceReg lineNo devNo)).ack lineNo).2.1)))
            (s.mem (K.semDev (BitVec.ofInt 32 (ioIndex lineNo devNo
              ((s.devReg (getDeviceReg lineNo devNo)).ack lineNo).2.1))) + 1) } t := by
  subst hline hdev
  let s₀ : Nucleus := { s with reads := s.reads + 1 }
  have hrun : ioTrapHandler K s =
      (deviceInterrupt K (findLineNo s.intOld.sCause) >>= fun _ => leaveHandler (s.tod s.reads))
        s₀ := by
    rw [← ioSwitch_device h3 (s.tod s.reads)]
    rfl
  have hdevice := signalDev_passes
    (K.semDev (BitVec.ofInt 32 (shownIndex (findLineNo s.intOld.sCause) s.interruptDev s.devReg)))
    (shownBy (findLineNo s.intOld.sCause) s.interruptDev s.devReg).1
    { s₀ with
      devReg := Function.update s.devReg
        (getDeviceReg (findLineNo s.intOld.sCause)
          (findDevNo (s.interruptDev (findLineNo s.intOld.sCause - 3))))
        (shownBy (findLineNo s.intOld.sCause) s.interruptDev s.devReg).2.2 }
  rw [endState, ← deviceInterrupt_found (s := s₀) hfound] at hdevice
  rw [hrun]
  cases hx : deviceInterrupt K (findLineNo s.intOld.sCause) s₀ with
  | error e t =>
    rw [hx] at hdevice
    exact ⟨e, t, bind_error hx, hdevice.mem, hdevice.devReg, hdevice.intOld, hdevice.pS⟩
  | ok u t =>
    rw [hx] at hdevice
    obtain ⟨e, t', hend⟩ := leaveHandler_stops (s.tod s.reads) t
    have hfiles := (leaveHandler_stays (s.tod s.reads)).endState t
    rw [endState, hend] at hfiles
    have htrans := hdevice.trans (.of_files hfiles)
    exact ⟨e, t', (bind_ok hx).trans hend, htrans.mem, htrans.devReg, htrans.intOld, htrans.pS⟩

end Handler

/-! ## Halves -/

inductive Half where
  | receiver
  | transmitter
  deriving DecidableEq

/-- The status words of a terminal. -/
abbrev Halves := Half → Word

/-- What a device register shows of a terminal. -/
def Device.halves (dev : Device) : Halves
  | .receiver => dev.dStatus
  | .transmitter => dev.dData0

namespace Half

def ack (dev : Device) : Half → Device
  | receiver => { dev with dCommand := ACK }
  | transmitter => { dev with dData1 := ACK }

def read : Half → Int
  | receiver => 1
  | transmitter => 0

def slot (K : Layout) (devNo : Fin 8) (x : Half) : Word :=
  K.semDev (BitVec.ofInt 32 (ioIndex 7 devNo.val x.read))

end Half

namespace Halves

variable (d : Halves) (x : Half)

def Ready : Prop := d x &&& STATUSMASK = READY

def Busy : Prop := d x &&& STATUSMASK = BUSY

/-- The operation is over and the half waits for its acknowledgement. -/
def Completed : Prop := ¬ d.Ready x ∧ ¬ d.Busy x

instance : Decidable (d.Ready x) := inferInstanceAs (Decidable (_ = _))

instance : Decidable (d.Busy x) := inferInstanceAs (Decidable (_ = _))

instance : Decidable (d.Completed x) := inferInstanceAs (Decidable (_ ∧ _))

/-- What the terminal does when half `x` is acknowledged: a busy half takes no command. -/
def acked : Halves := if d.Busy x then d else Function.update d x READY

end Halves

/-- Terminal `devNo` shows `d` when it interrupts a process in state `st`. -/
structure Raises (devNo : Fin 8) (d : Halves) (st : State) (interruptDev : Int → Word)
    (devReg : Word → Device) : Prop where
  line : findLineNo st.sCause = 7
  dev : findDevNo (interruptDev 4) = devNo.val
  shows : (devReg (getDeviceReg 7 devNo.val)).halves = d
  completed : ∃ x, d.Completed x

/-- The nucleus, which was `s` when the device registers showed `devReg` and state `st` was
interrupted, has acknowledged half `x` and signalled it, with its status for whoever waits. -/
structure Answers (K : Layout) (devNo : Fin 8) (s : Nucleus) (st : State)
    (devReg : Word → Device) (x : Half) (t : Nucleus) : Prop where
  acks : t.devReg = Function.update devReg (getDeviceReg 7 devNo.val)
    (x.ack (devReg (getDeviceReg 7 devNo.val)))
  signals : t.mem = Function.update s.mem (x.slot K devNo) (s.mem (x.slot K devNo) + 1)
  intOld : t.intOld = st ∨
    t.intOld = st.setV0 ((devReg (getDeviceReg 7 devNo.val)).halves x &&& STATUSMASK)
  pS : ∀ p, t.pcb.pS p = s.pcb.pS p ∨ t.pcb.pS p =
    (s.pcb.pS p).setV0 ((devReg (getDeviceReg 7 devNo.val)).halves x &&& STATUSMASK)

/-- Operations on the halves of a terminal, in any order, and interrupts of the terminal that
the nucleus handles in any state.  The history keeps what the terminal showed at each interrupt
and the half that the nucleus answered. -/
inductive TerminalRun (K : Layout) (devNo : Fin 8) : List (Halves × Half) → Halves → Prop
  | start {d : Halves} : (∀ x, d.Ready x) → TerminalRun K devNo [] d
  | command {hist : List (Halves × Half)} {d : Halves} {x : Half} {v : Word} :
      TerminalRun K devNo hist d → d.Ready x → v &&& STATUSMASK = BUSY →
      TerminalRun K devNo hist (Function.update d x v)
  | complete {hist : List (Halves × Half)} {d : Halves} {x : Half} {v : Word} :
      TerminalRun K devNo hist d → d.Busy x → v &&& STATUSMASK ≠ READY →
      v &&& STATUSMASK ≠ BUSY → TerminalRun K devNo hist (Function.update d x v)
  | interrupt {hist : List (Halves × Half)} {d : Halves} {x : Half} {m : Machine} {st : State}
      {interruptDev : Int → Word} {devReg : Word → Device} :
      TerminalRun K devNo hist d → Raises devNo d st interruptDev devReg →
      m.cpu.Takes (.interrupt st interruptDev devReg) →
      Answers K devNo m.nuc st devReg x (m.step K (.interrupt st interruptDev devReg)).nuc →
      TerminalRun K devNo ((d, x) :: hist) (d.acked x)

/-! ## Which half is answered -/

section Choice

variable {K : Layout} {devNo : Fin 8} {d : Halves} {x y : Half} {m : Machine} {s t : Nucleus}
  {st : State} {interruptDev : Int → Word} {devReg : Word → Device}

def Halves.chosen (d : Halves) : Half :=
  if d.Ready .receiver then .transmitter else .receiver

theorem ack_chosen (dev : Device) : dev.ack 7 =
    (dev.halves dev.halves.chosen, dev.halves.chosen.read, dev.halves.chosen.ack dev) := by
  by_cases hready : dev.dStatus &&& STATUSMASK = READY
  · have hchosen : dev.halves.chosen = .transmitter := if_pos hready
    rw [Device.ack, if_pos rfl, if_pos hready, hchosen]
    rfl
  · have hchosen : dev.halves.chosen = .receiver := if_neg hready
    rw [Device.ack, if_pos rfl, if_neg hready, hchosen]
    rfl

theorem slot_ne : Half.slot K devNo .receiver ≠ Half.slot K devNo .transmitter := by
  intro heq
  have hidx := (BitVec.add_right_inj _).mp heq
  have hdecide : ∀ n : Fin 8, (4 : Word) * BitVec.ofInt 32 (ioIndex 7 n.val 1) ≠
      4 * BitVec.ofInt 32 (ioIndex 7 n.val 0) := by decide
  exact hdecide devNo hidx

/-- The nucleus answers one half only. -/
theorem Answers.unique (hx : Answers K devNo s st devReg x t)
    (hy : Answers K devNo s st devReg y t) : x = y := by
  by_contra hne
  have hslots : x.slot K devNo ≠ y.slot K devNo := by
    cases x with
    | receiver =>
      cases y with
      | receiver => exact absurd rfl hne
      | transmitter => exact slot_ne
    | transmitter =>
      cases y with
      | receiver => exact slot_ne.symm
      | transmitter => exact absurd rfl hne
  have hmem := congrFun (hx.signals.symm.trans hy.signals) (x.slot K devNo)
  rw [Function.update_self, Function.update_of_ne hslots] at hmem
  generalize s.mem (x.slot K devNo) = v at hmem
  bv_omega

theorem Raises.answers (h : Raises devNo d st interruptDev devReg)
    (htakes : m.cpu.Takes (.interrupt st interruptDev devReg)) :
    Answers K devNo m.nuc st devReg d.chosen
      (m.step K (.interrupt st interruptDev devReg)).nuc := by
  let s : Nucleus := { m.nuc with
    intOld := st, interruptDev := interruptDev, devReg := devReg }
  have hstep : m.step K (.interrupt st interruptDev devReg) =
      Machine.enter (ioTrapHandler K) s := if_pos htakes
  have hdev : (devNo.val : Int) ≠ -1 := by omega
  obtain ⟨e, t, hrun, hpasses⟩ := @ioTrapHandler_device K s 7 devNo.val h.line (by decide) h.dev hdev
  rw [ack_chosen] at hpasses
  have hshows : (s.devReg (getDeviceReg 7 devNo.val)).halves = d := h.shows
  rw [hshows] at hpasses
  rw [hstep, Machine.enter, hrun]
  constructor
  case acks => exact hpasses.devReg
  case signals => exact hpasses.mem
  case intOld =>
    rw [h.shows]
    exact hpasses.intOld
  case pS =>
    rw [h.shows]
    exact hpasses.pS

/-- Some half has completed; the chosen one has unless the receiver is busy. -/
theorem Halves.completed_chosen_iff (h : ∃ x, d.Completed x) :
    d.Completed d.chosen ↔ ¬ d.Busy .receiver := by
  by_cases hready : d.Ready .receiver
  · have hchosen : d.chosen = .transmitter := if_pos hready
    have hbusy : ¬ d.Busy .receiver := by
      intro hbusy
      have heq : READY = BUSY := hready.symm.trans hbusy
      exact absurd heq (by decide)
    rw [hchosen, iff_true_right hbusy]
    obtain ⟨x, hx⟩ := h
    cases x with
    | receiver => exact absurd hready hx.1
    | transmitter => exact hx
  · have hchosen : d.chosen = .receiver := if_neg hready
    rw [hchosen]
    exact and_iff_right hready

end Choice

/-! ## In every run -/

section Runs

variable {K : Layout} {devNo : Fin 8} {hist : List (Halves × Half)} {d : Halves}

theorem TerminalRun.chosen (hrun : TerminalRun K devNo hist d) :
    ∀ i ∈ hist, (∃ x, i.1.Completed x) ∧ i.2 = i.1.chosen := by
  induction hrun with
  | start => exact fun i hi => absurd hi List.not_mem_nil
  | command _ _ _ ih | complete _ _ _ _ ih => exact ih
  | interrupt _ hraises htakes hanswers ih =>
    rw [List.forall_mem_cons]
    exact ⟨⟨hraises.completed, hanswers.unique (hraises.answers htakes)⟩, ih⟩

/-- In every run the nucleus answers one half at each interrupt, and these are all completed
ones if and only if the receiver is never busy at an interrupt. -/
theorem terminal_answered_iff (hrun : TerminalRun K devNo hist d) :
    ((∀ i ∈ hist, i.1.Completed i.2) ↔ ∀ i ∈ hist, ¬ i.1.Busy .receiver) ∧
    ∀ (m : Machine) (st : State) (interruptDev : Int → Word) (devReg : Word → Device),
      Raises devNo d st interruptDev devReg → m.cpu.Takes (.interrupt st interruptDev devReg) →
      ∃! x, Answers K devNo m.nuc st devReg x
        (m.step K (.interrupt st interruptDev devReg)).nuc := by
  constructor
  · refine forall₂_congr fun i hi => ?_
    obtain ⟨hcompleted, hchosen⟩ := hrun.chosen i hi
    rw [hchosen]
    exact Halves.completed_chosen_iff hcompleted
  · intro m st interruptDev devReg hraises htakes
    exact ⟨d.chosen, hraises.answers htakes, fun y hy => hy.unique (hraises.answers htakes)⟩

def terminalCause : State := { resetState with sCause := 0x8000 }

def Halves.register (d : Halves) : Device := ⟨d .receiver, 0, d .transmitter, 0⟩

theorem raises_register (h : ∃ x, d.Completed x) :
    Raises 0 d terminalCause (fun _ => 1) fun _ => d.register := by
  refine ⟨by decide, by decide, ?_, h⟩
  funext x
  cases x <;> rfl

def Halves.of (r t : Word) : Halves
  | .receiver => r
  | .transmitter => t

theorem update_transmitter (r t v : Word) :
    Function.update (Halves.of r t) .transmitter v = Halves.of r v := by
  funext x
  cases x <;> rfl

theorem update_receiver (r t v : Word) :
    Function.update (Halves.of r t) .receiver v = Halves.of v t := by
  funext x
  cases x <;> rfl

/-- The transmitter sends a character while the receiver shows `r`, and interrupts. -/
theorem sent_run {r : Word} {hist : List (Halves × Half)}
    (hrun : TerminalRun .sample 0 hist (.of r READY)) :
    TerminalRun .sample 0 ((Halves.of r 5, (Halves.of r 5).chosen) :: hist)
      ((Halves.of r 5).acked (Halves.of r 5).chosen) := by
  have hready : (Halves.of r READY).Ready .transmitter := by
    show READY &&& STATUSMASK = READY
    decide
  have hbusy := hrun.command hready (v := BUSY) (by decide)
  rw [update_transmitter] at hbusy
  have hsending : (Halves.of r BUSY).Busy .transmitter := by
    show BUSY &&& STATUSMASK = BUSY
    decide
  have hdone := hbusy.complete hsending (v := 5) (by decide) (by decide)
  rw [update_transmitter] at hdone
  have hcompleted : (Halves.of r 5).Completed .transmitter := by
    show ¬ (5 : Word) &&& STATUSMASK = READY ∧ ¬ (5 : Word) &&& STATUSMASK = BUSY
    decide
  have hraises := raises_register ⟨.transmitter, hcompleted⟩
  have htakes : (boot .sample .sample).cpu.Takes
      (.interrupt terminalCause (fun _ => 1) fun _ => (Halves.of r 5).register) :=
    .inl ⟨_, boot_cpu _ _⟩
  exact hdone.interrupt hraises htakes (hraises.answers htakes)

theorem idle_run : TerminalRun .sample 0 [] (.of READY READY) :=
  .start fun x => by cases x <;> decide

theorem terminal_answered_iff_sent :
    ((∀ i ∈ [(Halves.of READY 5, Half.transmitter)], i.1.Completed i.2) ↔
      ∀ i ∈ [(Halves.of READY 5, Half.transmitter)], ¬ i.1.Busy .receiver) ∧
    ∀ (m : Machine) (st : State) (interruptDev : Int → Word) (devReg : Word → Device),
      Raises 0 ((Halves.of READY 5).acked .transmitter) st interruptDev devReg →
      m.cpu.Takes (.interrupt st interruptDev devReg) →
      ∃! x, Answers .sample 0 m.nuc st devReg x
        (m.step .sample (.interrupt st interruptDev devReg)).nuc :=
  terminal_answered_iff (sent_run idle_run)

/-- A character is sent while the receiver waits for one: the receiver is answered. -/
theorem terminal_answers_busy : ∃ d, TerminalRun .sample 0 [(d, .receiver)] (d.acked .receiver) ∧
    d.Busy .receiver ∧ d.Completed .transmitter := by
  have hbusy := idle_run.command (x := .receiver) (v := BUSY) (by decide) (by decide)
  rw [update_receiver] at hbusy
  exact ⟨.of BUSY 5, sent_run hbusy, by decide, by decide⟩

end Runs

end Kaya
