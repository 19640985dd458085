import Kaya.Phase1.Proofs.Harmless
import Kaya.Phase2.Proofs.Frame

/-!
# What an interrupt leaves of the interrupted state

An interrupt that does not end the quantum goes back to the process it found,
with the state it found; a device that nobody waits for puts its status into
`v0`.
-/

namespace Kaya

open Lib

/-- The semaphore an interrupt of a device signals has a positive value afterwards: nobody
waited. -/
def Unawaited (K : Layout) (mem : Word → Word) (lineNo : Int) (interruptDev : Int → Word)
    (devReg : Word → Device) : Prop :=
  0 < (mem (K.semDev (BitVec.ofInt 32 (shownIndex lineNo interruptDev devReg))) + 1).toInt

instance (K : Layout) (mem : Word → Word) (lineNo : Int) (interruptDev : Int → Word)
    (devReg : Word → Device) : Decidable (Unawaited K mem lineNo interruptDev devReg) :=
  inferInstanceAs (Decidable (_ < _))

/-- The state that is loaded after an interrupt in state `st`. -/
def resumed (K : Layout) (mem : Word → Word) (st : State) (interruptDev : Int → Word)
    (devReg : Word → Device) : State :=
  if 3 ≤ findLineNo st.sCause ∧ Unawaited K mem (findLineNo st.sCause) interruptDev devReg then
    st.setV0 (statusByte (findLineNo st.sCause) interruptDev devReg)
  else st

variable {K : Layout} {s t : Nucleus} {α : Type}

/-! ## From any nucleus state -/

/-- No state is loaded. -/
def Stop.Mild (c : Stop) : Prop := ∀ st, c ≠ .ldst st

def Mild (c : Stop) (_ _ : Nucleus) : Prop := c.Mild

theorem Stop.Lost.mild {c : Stop} (h : c.Lost) : c.Mild := by
  rintro st rfl
  rcases h with h | h <;> cases h

/-- The same process runs, and goes on with the same state. -/
structure Calm (s t : Nucleus) : Prop where
  waiting : t.waiting = s.waiting
  currentProc : t.currentProc = s.currentProc
  intOld : t.intOld = s.intOld

namespace Calm

theorem refl (s : Nucleus) : Calm s s := ⟨rfl, rfl, rfl⟩

theorem trans (s t u : Nucleus) (h : Calm s t) (h' : Calm t u) : Calm s u :=
  ⟨h'.waiting.trans h.waiting, h'.currentProc.trans h.currentProc, h'.intOld.trans h.intOld⟩

theorem bind {β : Type} {x : NucM α} {f : α → NucM β} (hx : Within Calm Mild x)
    (hf : ∀ a, Within Calm Mild (f a)) : Within Calm Mild (x >>= f) :=
  Within.bind trans (fun _ _ _ _ _ h => h) hx hf

theorem pure (a : α) : Within Calm Mild (pure a : NucM α) := Within.pure refl a

theorem phase1 {x : Phase1M Pcb Semd α} (hx : Harmless x) :
    Within Calm Mild (phase1 x) :=
  Within.zoom hx (fun _ _ _ => ⟨rfl, rfl, rfl⟩) fun _ _ _ h => h.1.mild

theorem insertReady (p : Option Pcb) : Within Calm Mild (insertReady p) := by
  refine bind (Within.get refl) fun s => bind (phase1 (insertProcQ_keeps _ _)) fun _ => ?_
  exact Within.modify fun _ => ⟨rfl, rfl, rfl⟩

theorem unblockClock (w : Word) (fuel : Nat) : Within Calm Mild (unblockClock w fuel) := by
  induction fuel with
  | zero => exact Within.throw fun _ => Stop.Lost.mild (.inr rfl)
  | succ fuel ih =>
      refine bind (phase1 (headBlocked_keeps w)) fun _ => .ite ?_ (pure _)
      refine bind (phase1 (removeBlocked_keeps (fun _ _ => rfl) w)) fun q => .ite ?_ ih
      refine bind (Within.modify fun _ => ⟨rfl, rfl, rfl⟩) fun _ => ?_
      exact bind (insertReady q) fun _ => ih

theorem ivtimInterrupt : Within Calm Mild (ivtimInterrupt K) := by
  refine bind (unblockClock _ _) fun _ => bind (Within.modify fun _ => ⟨rfl, rfl, rfl⟩) fun _ => ?_
  exact Within.modify fun _ => ⟨rfl, rfl, rfl⟩

end Calm

def answerDev (semAdd status : Word) : NucM Unit := do
  let blockedProc ← phase1 (removeBlocked semAdd)
  if blockedProc ≠ none then
    modify fun s => { s with sftBlkCnt := s.sftBlkCnt - 1 }
    phase1 (setPS blockedProc
      ((← getPS blockedProc).setV0 (status &&& STATUSMASK)))
    insertReady blockedProc

theorem answerDev_calm (w status : Word) : Within Calm Mild (answerDev w status) := by
  refine Calm.bind (Calm.phase1 (removeBlocked_keeps (fun _ _ => rfl) w)) fun q => .ite ?_ (Calm.pure _)
  refine Calm.bind (Within.modify fun _ => ⟨rfl, rfl, rfl⟩) fun _ => ?_
  refine Calm.bind ?_ fun st => Calm.bind (Calm.phase1 (setPS_keeps (fun _ _ => rfl) _ _)) fun _ => Calm.insertReady q
  refine Calm.bind ?_ fun p => Calm.bind (Within.get Calm.refl) fun _ => Calm.pure _
  cases q with
  | none => exact Within.throw fun _ => Stop.Lost.mild (.inl rfl)
  | some p => exact Calm.pure p

/-- After the `V` on its semaphore a device changes `v0` of the interrupted state, or nothing of
it. -/
structure Signalled (w status : Word) (s t : Nucleus) : Prop where
  waiting : t.waiting = s.waiting
  currentProc : t.currentProc = s.currentProc
  intOld : t.intOld = if 0 < (s.mem w + 1).toInt then s.intOld.setV0 (status &&& STATUSMASK)
    else s.intOld

theorem signalDev_within (w status : Word) :
    Within (Signalled w status) Mild (signalDev w status) := by
  intro s
  by_cases hle : (s.mem w + 1).toInt ≤ 0
  · have hrun : signalDev w status s =
        answerDev w status { s with mem := Function.update s.mem w (s.mem w + 1) } := by
      simp only [signalDev, answerDev, storeInt, loadInt, bind_run, get_run, modify_run, pure_run,
        ite_run, Function.update_self, if_pos hle]
    have hcalm := answerDev_calm w status
      { s with mem := Function.update s.mem w (s.mem w + 1) }
    rw [hrun]
    cases hans : answerDev w status
        { s with mem := Function.update s.mem w (s.mem w + 1) } with
    | error e t =>
        rw [hans] at hcalm
        exact hcalm
    | ok u t =>
        rw [hans] at hcalm
        refine ⟨hcalm.waiting, hcalm.currentProc, ?_⟩
        rw [if_neg (by omega)]
        exact hcalm.intOld
  · have hrun : signalDev w status s = .ok ()
        { s with
          mem := Function.update s.mem w (s.mem w + 1)
          intOld := s.intOld.setV0 (status &&& STATUSMASK) } := by
      simp only [signalDev, storeInt, loadInt, bind_run, get_run, modify_run, pure_run, ite_run,
        Function.update_self, if_neg hle]
    rw [hrun]
    refine ⟨rfl, rfl, ?_⟩
    rw [if_pos (by omega)]

/-- The cases of the handler that return leave `st` to load. -/
structure Resuming (s : Nucleus) (st : State) (t : Nucleus) : Prop where
  waiting : t.waiting = s.waiting
  currentProc : t.currentProc = s.currentProc
  intOld : t.intOld = st

theorem deviceInterrupt_resuming (s : Nucleus) (hline : 3 ≤ findLineNo s.intOld.sCause) :
    match deviceInterrupt K (findLineNo s.intOld.sCause) s with
    | .ok _ t => Resuming s (resumed K s.mem s.intOld s.interruptDev s.devReg) t
    | .error e _ => e.Mild := by
  by_cases hfound : findDevNo (s.interruptDev (findLineNo s.intOld.sCause - 3)) = -1
  · rw [deviceInterrupt_run, if_pos hfound]
    intro st hst
    cases hst
  · have hsig := signalDev_within
      (K.semDev (BitVec.ofInt 32
        (shownIndex (findLineNo s.intOld.sCause) s.interruptDev s.devReg)))
      (shownBy (findLineNo s.intOld.sCause) s.interruptDev s.devReg).1
      { s with
        devReg :=
          Function.update s.devReg
            (getDeviceReg (findLineNo s.intOld.sCause)
              (findDevNo (s.interruptDev (findLineNo s.intOld.sCause - 3))))
            (shownBy (findLineNo s.intOld.sCause) s.interruptDev s.devReg).2.2 }
    rw [← deviceInterrupt_found hfound] at hsig
    cases hrun : deviceInterrupt K (findLineNo s.intOld.sCause) s with
    | error e t =>
        rw [hrun] at hsig
        exact hsig
    | ok u t =>
        rw [hrun] at hsig
        refine ⟨hsig.waiting, hsig.currentProc, hsig.intOld.trans ?_⟩
        simp only [resumed, Unawaited, hline, true_and]
        rfl

theorem ioSwitch_resuming (s : Nucleus) (hline : findLineNo s.intOld.sCause ≠ PLOCINT)
    (timeStart : Int) :
    match ioSwitch K (findLineNo s.intOld.sCause) timeStart s with
    | .ok _ t => Resuming s (resumed K s.mem s.intOld s.interruptDev s.devReg) t
    | .error e _ => e.Mild := by
  rcases findLineNo_cases s.intOld.sCause with h0 | h1 | h2 | ⟨h3, -⟩
  · rw [ioSwitch, if_pos h0]
    intro st hst
    cases hst
  · exact absurd h1 hline
  · have hsame : resumed K s.mem s.intOld s.interruptDev s.devReg = s.intOld := by
      rw [resumed, h2, if_neg (fun h => absurd h.1 (by decide))]
    have hcalm := Calm.ivtimInterrupt (K := K) s
    rw [ioSwitch, h2, if_neg (by decide), if_neg (by decide), if_pos rfl, hsame]
    cases hrun : ivtimInterrupt K s with
    | error e t =>
        rw [hrun] at hcalm
        exact hcalm
    | ok u t =>
        rw [hrun] at hcalm
        exact ⟨hcalm.waiting, hcalm.currentProc, hcalm.intOld⟩
  · rw [ioSwitch_device h3]
    exact deviceInterrupt_resuming s h3

/-- If the handler loads a state, it is the one `resumed` says, and the same process runs. -/
theorem ioTrapHandler_resuming (s : Nucleus) (hwait : s.waiting = false)
    (hline : findLineNo s.intOld.sCause ≠ PLOCINT) :
    match ioTrapHandler K s with
    | .ok _ _ => False
    | .error e t => ∀ st, e = .ldst st → t.intOld = st ∧ t.currentProc = s.currentProc ∧
        st = resumed K s.mem s.intOld s.interruptDev s.devReg := by
  have hswitch := ioSwitch_resuming (K := K) { s with reads := s.reads + 1 } hline (s.tod s.reads)
  rw [ioTrapHandler_run]
  cases hrun : ioSwitch K (findLineNo s.intOld.sCause) (s.tod s.reads)
      { s with reads := s.reads + 1 } with
  | error e t =>
      rw [hrun] at hswitch
      rw [bind_error hrun]
      exact fun st hst => absurd hst (hswitch st)
  | ok u t =>
      rw [hrun] at hswitch
      obtain ⟨hwait', hcur, hint⟩ := hswitch
      have hawake : t.waiting = false := hwait'.trans hwait
      rw [bind_ok hrun, leaveHandler, bind_ok (get_run _), hawake]
      rintro st ⟨⟩
      exact ⟨rfl, hcur, hint⟩

/-! ## Where the pointers represent lists -/

theorem findDevNo_cases (bitMap : Word) :
    findDevNo bitMap = -1 ∨ 0 ≤ findDevNo bitMap ∧ findDevNo bitMap ≤ 7 := by
  unfold findDevNo
  simp only [firstBit]
  split_ifs <;> omega

/-- The largest index is that of a receiver of terminal 7. -/
theorem shownIndex_bounds {lineNo : Int} {interruptDev : Int → Word} {devReg : Word → Device}
    (h3 : 3 ≤ lineNo) (h7 : lineNo ≤ 7)
    (hfound : findDevNo (interruptDev (lineNo - 3)) ≠ -1) :
    0 ≤ shownIndex lineNo interruptDev devReg ∧ shownIndex lineNo interruptDev devReg ≤ 54 := by
  have hread : ∀ dev : Device, (dev.ack lineNo).2.1 = 0 ∨ (dev.ack lineNo).2.1 = 1 := by
    intro dev
    unfold Device.ack
    split_ifs <;> simp
  have hdev := (findDevNo_cases (interruptDev (lineNo - 3))).resolve_left hfound
  have hr := hread (devReg (getDeviceReg lineNo (findDevNo (interruptDev (lineNo - 3)))))
  simp only [shownIndex, ioIndex]
  split <;> omega

theorem semAddr_shown {lineNo : Int} {interruptDev : Int → Word} {devReg : Word → Device}
    (h3 : 3 ≤ lineNo) (h7 : lineNo ≤ 7)
    (hfound : findDevNo (interruptDev (lineNo - 3)) ≠ -1) :
    SemAddr (K.semDev (BitVec.ofInt 32 (shownIndex lineNo interruptDev devReg))) := by
  have hbounds : 0 ≤ shownIndex lineNo interruptDev devReg ∧
      shownIndex lineNo interruptDev devReg ≤ 54 := shownIndex_bounds h3 h7 hfound
  obtain ⟨hlo, hhi⟩ := hbounds
  apply Layout.semAddr_semDev
  rw [BitVec.toNat_ofInt, Int.emod_eq_of_lt hlo (by omega)]
  have hcnt : DEVICECNT = 49 := rfl
  omega

/-- The handler does load a state. -/
theorem ioTrapHandler_loads {a : Abs} {place : Pcb → Place} {lk : Ptrs} (h : Placed K a place)
    (hshape : Shape lk a.lk) (hwait : a.waiting = false) (hline : findLineNo a.intOld.sCause ≠ -1)
    (hquantum : findLineNo a.intOld.sCause ≠ PLOCINT)
    (hfound : 3 ≤ findLineNo a.intOld.sCause →
      findDevNo (a.interruptDev (findLineNo a.intOld.sCause - 3)) ≠ -1) :
    ∃ st t, ioTrapHandler K (a.withLk lk) = .error (.ldst st) t := by
  have hline' : findLineNo (a.withLk lk).intOld.sCause = findLineNo a.intOld.sCause := rfl
  rcases findLineNo_cases a.intOld.sCause with h0 | h1 | h2 | ⟨h3, h7⟩
  · exact absurd h0 hline
  · exact absurd h1 hquantum
  · have hq := wakeAll_quiet a.tick K.clock (a.lk.blocked K.clock)
    have hawake : (a.tick.clockTick K).waiting = false := hq.waiting.trans hwait
    obtain ⟨lk', hrun, -⟩ := ivtim_run h h2 hshape
    rw [Abs.interrupt_ivtim h2, Abs.leaveHandler_awake hawake] at hrun
    exact ⟨_, _, hrun⟩
  · have hq := signal_quiet (a.tick.acked (findLineNo a.intOld.sCause))
      (a.tick.slot K (findLineNo a.intOld.sCause)) (a.tick.shown (findLineNo a.intOld.sCause)).1
    have hawake : (a.tick.device K (findLineNo a.intOld.sCause)).waiting = false :=
      hq.waiting.trans hwait
    obtain ⟨lk₁, hrun, hshape₁⟩ := deviceInterrupt_runs h.tick (hfound h3)
      (semAddr_shown h3 h7 (hfound h3)) lk hshape
    have hnot : (a.tick.device K (findLineNo a.intOld.sCause)).waiting = true →
        ∃ place, Placed K (a.tick.device K (findLineNo a.intOld.sCause)) place := by
      intro htrue
      rw [hawake] at htrue
      exact absurd htrue (by decide)
    obtain ⟨lk₂, hleave, -⟩ := leaveHandler_run hnot (a.tod a.reads) hshape₁
    rw [Abs.leaveHandler_awake hawake] at hleave
    rw [ioTrapHandler_run, hline', ioSwitch_device h3]
    exact ⟨_, _, (bind_ok hrun).trans hleave⟩

/-! ## Transparency -/

/-- A line shows an interrupt, and if it is one of the devices', a device does. -/
structure State.Shows (st : State) (interruptDev : Int → Word) : Prop where
  line : findLineNo st.sCause ≠ -1
  dev : 3 ≤ findLineNo st.sCause → findDevNo (interruptDev (findLineNo st.sCause - 3)) ≠ -1

theorem step_resuming {m : Machine} {st st' : State} {interruptDev : Int → Word}
    {devReg : Word → Device} (hrun : m.cpu.Running) (hawake : m.nuc.waiting = false)
    (hquantum : findLineNo st.sCause ≠ PLOCINT)
    (hcpu : (m.step K (.interrupt st interruptDev devReg)).cpu = .ldst st') :
    st' = resumed K m.nuc.mem st interruptDev devReg ∧
      (m.step K (.interrupt st interruptDev devReg)).nuc.intOld = st' ∧
      (m.step K (.interrupt st interruptDev devReg)).nuc.currentProc = m.nuc.currentProc := by
  let s : Nucleus := { m.nuc with
    intOld := st, interruptDev := interruptDev, devReg := devReg }
  have hstep : m.step K (.interrupt st interruptDev devReg) =
      Machine.enter (ioTrapHandler K) s := if_pos (.inl hrun)
  have hres := ioTrapHandler_resuming (K := K) s hawake hquantum
  rw [hstep] at hcpu ⊢
  cases hhand : ioTrapHandler K s with
  | ok u t =>
      rw [hhand] at hres
      exact hres.elim
  | error e t =>
      rw [Machine.enter, hhand] at hcpu
      rw [hhand] at hres
      obtain ⟨hint, hcur, hst⟩ := hres st' hcpu
      rw [Machine.enter, hhand]
      exact ⟨hst, hint, hcur⟩

theorem Machine.Holds.loads {m : Machine} {l : Lists} (h : m.Holds K l) {st : State}
    {interruptDev : Int → Word} {devReg : Word → Device} (hrun : m.cpu.Running)
    (hawake : m.nuc.waiting = false) (hquantum : findLineNo st.sCause ≠ PLOCINT)
    (hshows : st.Shows interruptDev) :
    (m.step K (.interrupt st interruptDev devReg)).cpu.Running := by
  let s : Nucleus := { m.nuc with
    intOld := st, interruptDev := interruptDev, devReg := devReg }
  have hstep : m.step K (.interrupt st interruptDev devReg) =
      Machine.enter (ioTrapHandler K) s := if_pos (.inl hrun)
  obtain ⟨place, hpl⟩ := h.sound.inv.placed
  have hs : Placed K (s.withLk l) place := hpl.congr rfl rfl rfl rfl rfl rfl rfl
  obtain ⟨st', t, hhand⟩ := ioTrapHandler_loads hs h.shape hawake hshows.line hquantum
    hshows.dev
  have hhand' : ioTrapHandler K s = .error (.ldst st') t := hhand
  rw [hstep, Machine.enter, hhand']
  exact ⟨st', rfl⟩

/-- An interrupt that is not the end of the quantum leaves the running process running: in any
nucleus state, the only state the handler can load is that of the interruption, but for `v0` when
a device signals a semaphore nobody waits on.  Where the pointers represent lists the handler does
load it. -/
theorem interrupt_transparent (K : Layout) (m : Machine) (st : State) (interruptDev : Int → Word)
    (devReg : Word → Device) (hrun : m.cpu.Running) (hawake : m.nuc.waiting = false)
    (hquantum : findLineNo st.sCause ≠ PLOCINT) :
    (∀ st', (m.step K (.interrupt st interruptDev devReg)).cpu = .ldst st' →
      st' = resumed K m.nuc.mem st interruptDev devReg ∧
      (m.step K (.interrupt st interruptDev devReg)).nuc.intOld = st' ∧
      (m.step K (.interrupt st interruptDev devReg)).nuc.currentProc = m.nuc.currentProc) ∧
    ∀ l, m.Holds K l → st.Shows interruptDev →
      (m.step K (.interrupt st interruptDev devReg)).cpu.Running :=
  ⟨fun _ hcpu => step_resuming hrun hawake hquantum hcpu,
    fun _ hholds hshows => hholds.loads hrun hawake hquantum hshows⟩

theorem boot_waiting (K : Layout) (s : Nucleus) : (boot K s).nuc.waiting = false := by
  obtain ⟨lk, hboot, -⟩ := boot_represents K s
  rw [hboot]
  rfl

/-- The first process is interrupted by the interval timer. -/
theorem interrupt_transparent_tick :
    (∀ st', (Machine.step .sample (boot .sample .sample) (.tick resetState)).cpu = .ldst st' →
      st' = resumed .sample (boot .sample .sample).nuc.mem { resetState with sCause := 0x400 }
        (fun _ => 0) (fun _ => ⟨0, 0, 0, 0⟩) ∧
      (Machine.step .sample (boot .sample .sample) (.tick resetState)).nuc.intOld = st' ∧
      (Machine.step .sample (boot .sample .sample) (.tick resetState)).nuc.currentProc =
        (boot .sample .sample).nuc.currentProc) ∧
    ∀ l, (boot .sample .sample).Holds .sample l →
      ({ resetState with sCause := 0x400 } : State).Shows (fun _ => 0) →
      (Machine.step .sample (boot .sample .sample) (.tick resetState)).cpu.Running := by
  have hrun : (boot .sample .sample).cpu.Running := ⟨_, boot_cpu _ _⟩
  have hawake := boot_waiting .sample .sample
  generalize boot .sample .sample = m at hrun hawake ⊢
  exact interrupt_transparent .sample m { resetState with sCause := 0x400 }
    (fun _ => 0) (fun _ => ⟨0, 0, 0, 0⟩) hrun hawake (by decide)

/-- The disk is ready before the first process waits for it: `v0` changes from 0 to 1. -/
theorem interrupt_changes_v0 :
    (boot .sample .sample).Plain .sample (.disk resetState READY) ∧
      (Machine.step .sample (boot .sample .sample) (.disk resetState READY)).nuc.currentProc =
        (boot .sample .sample).nuc.currentProc ∧
      (Machine.step .sample (boot .sample .sample) (.disk resetState READY)).cpu =
        .ldst (({ resetState with sCause := 0x800 } : State).setV0 1) ∧
      ({ resetState with sCause := 0x800 } : State).v0 = 0 := by
  have hrun : (boot .sample .sample).cpu.Running := ⟨_, boot_cpu _ _⟩
  have hawake := boot_waiting .sample .sample
  have hmem : (boot .sample .sample).nuc.mem (Layout.sample.semDev 0) = 0 := by
    rw [boot_mem]
    exact first_mem_dev _ (by decide)
  obtain ⟨l, hholds, -⟩ := boot_holds .sample .sample
  generalize boot .sample .sample = m at hrun hawake hmem hholds ⊢
  have hquantum : findLineNo 0x800 ≠ PLOCINT := by decide
  have hloads : (m.step .sample (.disk resetState READY)).cpu.Running :=
    hholds.loads hrun hawake hquantum ⟨by decide, fun _ => by decide⟩
  obtain ⟨st', hcpu⟩ := hloads
  obtain ⟨hst, -, hcur⟩ := step_resuming hrun hawake hquantum hcpu
  have hres : resumed .sample m.nuc.mem { resetState with sCause := 0x800 } (fun _ => 1)
      (fun _ => ⟨READY, 0, 0, 0⟩) = ({ resetState with sCause := 0x800 } : State).setV0 1 := by
    have hidx : BitVec.ofInt 32 (shownIndex (findLineNo 0x800) (fun _ => 1)
        (fun _ => ⟨READY, 0, 0, 0⟩)) = 0 := by decide
    rw [resumed, if_pos]
    · rfl
    · refine ⟨by decide, ?_⟩
      show 0 < (_ + 1 : Word).toInt
      rw [hidx, hmem]
      decide
  refine ⟨⟨.inl hrun, by decide, fun _ => by decide⟩, hcur, ?_, rfl⟩
  rw [← hres, ← hst]
  exact hcpu

end Kaya
