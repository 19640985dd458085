import Kaya.Phase2.Terminals
import Kaya.Phase2.TrapAreas
import Mathlib.Tactic.IntervalCases

/-!
# What SYS 8 does to memory

`waitio` computes an index from three registers, in unsigned arithmetic, and decrements that
entry of `semDevArray` in any nucleus state.  It checks only that the line is not below
`DISKINT`.
-/

namespace Kaya

open Lib

variable {K : Layout} {s : Nucleus} {α : Type}

/-! ## The decrement -/

theorem phase1_mem (x : Phase1M Pcb Semd α) : Stays (fun s => s.mem) (phase1 x) := by
  intro s
  rw [phase1_run]
  cases x ⟨s.lk.toLinks, s.pcb⟩ <;> rfl

theorem blockCurrent_mem (w : Word) : Stays (fun s => s.mem) (blockCurrent w) := by
  refine .bind ?time fun _ => .bind .of_get fun _ => .bind (.of_deref _) fun _ => ?_
  case time => exact fun _ => rfl
  refine .bind .of_get fun _ => .bind (phase1_mem _) fun _ => .bind ?leave fun _ => ?_
  case leave => exact fun _ => rfl
  refine .bind .of_get fun _ => .bind .of_get fun _ => .bind (phase1_mem _) fun _ => ?_
  exact .bind .of_get fun _ => .discard (phase1_mem _)

theorem scheduler_mem : Stays (fun s => s.mem) scheduler := scheduler_stays.map Files.mem

theorem waitSemDev_mem (w : Word) (s : Nucleus) :
    (endState (waitSemDev w) s).mem = Function.update s.mem w (s.mem w - 1) := by
  let rest : NucM Unit := do
    if (← loadInt w).toInt < 0 then
      blockCurrent w
      modify fun s => { s with sftBlkCnt := s.sftBlkCnt + 1 }
      setCurrentProc none
      scheduler
    LDST (← get).sysOld
  have hleave : Stays (fun s => s.mem) (do LDST (← get).sysOld : NucM Unit) :=
    .bind .of_get fun _ => .throw _
  have hblock : Stays (fun s => s.mem) (do
      blockCurrent w
      modify fun s => { s with sftBlkCnt := s.sftBlkCnt + 1 }
      setCurrentProc none
      scheduler
      LDST (← get).sysOld : NucM Unit) := by
    refine .bind (blockCurrent_mem w) fun _ => .bind ?count fun _ => .bind ?none fun _ => ?_
    case count | none => exact fun _ => rfl
    exact .bind scheduler_mem fun _ => hleave
  have hrest : Stays (fun s => s.mem) rest := by
    refine .bind (.bind .of_get fun _ => .pure _) fun _ => ?_
    exact .ite hblock hleave
  exact hrest.endState { s with mem := Function.update s.mem w (s.mem w - 1) }

/-- The entry that SYS 8 decrements. -/
def State.entry (K : Layout) (st : State) : Word := K.semDev (waitioIndex st.a1 st.a2 st.a3)

/-- In any nucleus state SYS 8 with a line from `DISKINT` on decrements one word. -/
theorem waitio_mem (m : Machine) {st : State} (hruns : m.cpu.Running) (huser : ¬ st.Privileged)
    (h8 : st.a0 = WAITIO) (hline : ¬ st.a1 < DISKINT) :
    (m.step K (.syscall st)).nuc.mem =
      Function.update m.nuc.mem (st.entry K) (m.nuc.mem (st.entry K) - 1) := by
  let s : Nucleus := { m.nuc with sysOld := st.advance }
  have hrun : sysCallHandler K { m.nuc with sysOld := st } = waitSemDev (st.entry K) s := by
    have huser' : ¬ ({ m.nuc with sysOld := st } : Nucleus).sysOld.Privileged := huser
    have hline' : ¬ s.sysOld.a1 < DISKINT := hline
    have hswitch : sysSwitch K WAITIO s = waitio K s := rfl
    rw [sysCallHandler_run, if_neg huser']
    show sysSwitch K st.a0 s = _
    rw [h8, hswitch, waitio_run, if_neg hline']
    rfl
  have hstep : m.step K (.syscall st) =
      Machine.enter (sysCallHandler K) { m.nuc with sysOld := st } := if_pos hruns
  have hend : (Machine.enter (sysCallHandler K) { m.nuc with sysOld := st }).nuc =
      endState (waitSemDev (st.entry K)) s := by
    rw [Machine.enter, hrun, endState]
    cases waitSemDev (st.entry K) s <;> rfl
  rw [hstep, hend]
  exact waitSemDev_mem _ s

/-! ## The increment -/

/-- Half `read` of the device has completed an operation and interrupts.  Only terminals have two
halves.  Where both have completed, the interrupt is the receiver's, and the transmitter's comes
once the receiver is acknowledged. -/
def Device.Reports (dev : Device) (lineNo read : Int) : Prop :=
  if lineNo = 7 then
    read = 1 ∧ dev.halves.Completed .receiver ∨
      read = 0 ∧ dev.halves.Completed .transmitter ∧ ¬ dev.halves.Completed .receiver
  else read = 0

/-- The device is a terminal whose receiver is at work. -/
def Device.ReceiverBusy (dev : Device) (lineNo : Int) : Prop :=
  lineNo = 7 ∧ dev.halves.Busy .receiver

instance (dev : Device) (lineNo read : Int) : Decidable (dev.Reports lineNo read) :=
  inferInstanceAs (Decidable (if lineNo = 7 then _ else _))

instance (dev : Device) (lineNo : Int) : Decidable (dev.ReceiverBusy lineNo) :=
  inferInstanceAs (Decidable (_ ∧ _))

/-- The machine shows an interrupt of half `read` of device `devNo` on line `lineNo`. -/
structure Nucleus.ShowsDev (s : Nucleus) (lineNo devNo read : Int) : Prop where
  line : findLineNo s.intOld.sCause = lineNo
  device : 3 ≤ lineNo
  dev : findDevNo (s.interruptDev (lineNo - 3)) = devNo
  found : devNo ≠ -1
  half : (s.devReg (getDeviceReg lineNo devNo)).Reports lineNo read

/-- There are interrupts of that device, and `w` is the word that `ioTrapHandler` increments for
those among `I`. -/
structure Increments (K : Layout) (I : Nucleus → Prop) (lineNo devNo read : Int) (w : Word) :
    Prop where
  shown : ∃ s : Nucleus, s.ShowsDev lineNo devNo read
  increments : ∀ s : Nucleus, I s → s.ShowsDev lineNo devNo read →
    ∃ e t, ioTrapHandler K s = .error e t ∧ t.mem = Function.update s.mem w (s.mem w + 1)

/-- The machine has such a device. -/
structure HasDev (lineNo devNo read : Int) : Prop where
  line : 3 ≤ lineNo ∧ lineNo ≤ 7
  dev : 0 ≤ devNo ∧ devNo ≤ 7
  half : read = 0 ∨ lineNo = 7 ∧ read = 1

section Increment

variable {I : Nucleus → Prop} {dev : Device} {lineNo devNo read lineNo' devNo' read' : Int}
  {w w' : Word}

/-- Where one word of memory changes, it is that word. -/
theorem update_inj {f : Word → Word} {g : Word → Word} (hg : ∀ x, g x ≠ x)
    (h : Function.update f w (g (f w)) = Function.update f w' (g (f w'))) : w = w' := by
  by_contra hne
  have hw := congrFun h w
  rw [Function.update_self, Function.update_of_ne hne] at hw
  exact hg _ hw

theorem ack_read (dev : Device) (lineNo : Int) :
    (dev.ack lineNo).2.1 = 0 ∨ lineNo = 7 ∧ (dev.ack lineNo).2.1 = 1 := by
  by_cases h7 : lineNo = 7
  · rw [h7, ack_chosen]
    cases dev.halves.chosen with
    | receiver => exact .inr ⟨rfl, rfl⟩
    | transmitter => exact .inl rfl
  · left
    rw [Device.ack, if_neg h7]

/-- The handler takes the half that interrupts unless it mistakes a busy receiver for it. -/
theorem Device.Reports.ack_iff (h : dev.Reports lineNo read) :
    (dev.ack lineNo).2.1 = read ↔ ¬ dev.ReceiverBusy lineNo := by
  by_cases h7 : lineNo = 7
  · subst h7
    rw [Device.Reports, if_pos rfl] at h
    rw [ack_chosen, Device.ReceiverBusy, iff_true_intro (rfl : (7 : Int) = 7), true_and]
    rcases h with ⟨rfl, hdone⟩ | ⟨rfl, hdone, hrest⟩
    · have hchosen : dev.halves.chosen = .receiver := if_neg hdone.1
      rw [hchosen]
      exact iff_of_true rfl hdone.2
    · have hread : dev.halves.chosen.read = 0 ↔ dev.halves.Completed dev.halves.chosen := by
        cases dev.halves.chosen with
        | receiver => exact iff_of_false (by decide) hrest
        | transmitter => exact iff_of_true rfl hdone
      exact hread.trans (Halves.completed_chosen_iff ⟨.transmitter, hdone⟩)
  · rw [Device.Reports, if_neg h7] at h
    rw [Device.ack, if_neg h7, h]
    exact iff_of_true rfl fun hbusy => h7 hbusy.1

theorem Device.Reports.read_cases (h : dev.Reports lineNo read) :
    read = 0 ∨ lineNo = 7 ∧ read = 1 := by
  by_cases h7 : lineNo = 7
  · rw [Device.Reports, if_pos h7] at h
    rcases h with ⟨hread, -⟩ | ⟨hread, -⟩
    · exact .inr ⟨h7, hread⟩
    · exact .inl hread
  · rw [Device.Reports, if_neg h7] at h
    exact .inl h

/-- A device that the handler finds is one of the machine's. -/
theorem hasDev_of_found {cause : Word} {interruptDev : Int → Word} (hline : findLineNo cause = lineNo)
    (h3 : 3 ≤ lineNo) (hdev : findDevNo (interruptDev (lineNo - 3)) = devNo) (hfound : devNo ≠ -1)
    (hread : read = 0 ∨ lineNo = 7 ∧ read = 1) : HasDev lineNo devNo read := by
  constructor
  case line =>
    have hcases := findLineNo_cases cause
    rw [hline] at hcases
    simp only [PLOCINT, IVTIMINT] at hcases
    omega
  case dev =>
    have hcases := findDevNo_cases (interruptDev (lineNo - 3))
    rw [hdev] at hcases
    exact hcases.resolve_left hfound
  case half => exact hread

theorem Nucleus.ShowsDev.hasDev (h : s.ShowsDev lineNo devNo read) : HasDev lineNo devNo read :=
  hasDev_of_found h.line h.device h.dev h.found h.half.read_cases

theorem HasDev.toNat_index (h : HasDev lineNo devNo read) :
    ((BitVec.ofInt 32 (ioIndex lineNo devNo read)).toNat : Int) = ioIndex lineNo devNo read ∧
      0 ≤ ioIndex lineNo devNo read ∧ ioIndex lineNo devNo read ≤ 54 := by
  obtain ⟨hl, hd, hr⟩ := h
  have hbounds : 0 ≤ ioIndex lineNo devNo read ∧ ioIndex lineNo devNo read ≤ 54 := by
    unfold ioIndex
    split_ifs <;> omega
  refine ⟨?_, hbounds⟩
  rw [BitVec.toNat_ofInt]
  omega

theorem HasDev.slot_inj (h : HasDev lineNo devNo read) (h' : HasDev lineNo' devNo' read')
    (heq : K.semDev (BitVec.ofInt 32 (ioIndex lineNo devNo read)) =
      K.semDev (BitVec.ofInt 32 (ioIndex lineNo' devNo' read'))) :
    lineNo = lineNo' ∧ devNo = devNo' ∧ read = read' := by
  obtain ⟨hnat, hlo, hhi⟩ := h.toNat_index
  obtain ⟨hnat', hlo', hhi'⟩ := h'.toNat_index
  have hcnt : DEVICECNT = 49 := rfl
  have hword := Layout.semDev_inj (by omega) (by omega) heq
  have hidx : ioIndex lineNo devNo read = ioIndex lineNo' devNo' read' := by
    rw [← hnat, ← hnat', hword]
  obtain ⟨hl, hd, hr⟩ := h
  obtain ⟨hl', hd', hr'⟩ := h'
  unfold ioIndex at hidx
  split_ifs at hidx <;> omega

theorem HasDev.shown (h : HasDev lineNo devNo read) :
    ∃ s : Nucleus, s.ShowsDev lineNo devNo read := by
  obtain ⟨cause, hcause⟩ : ∃ cause, findLineNo cause = lineNo := by
    obtain ⟨h3, h7⟩ := h.line
    interval_cases lineNo
    · exact ⟨0x800, by decide⟩
    · exact ⟨0x1000, by decide⟩
    · exact ⟨0x2000, by decide⟩
    · exact ⟨0x4000, by decide⟩
    · exact ⟨0x8000, by decide⟩
  obtain ⟨bits, hbits⟩ : ∃ bits, findDevNo bits = devNo := by
    obtain ⟨h0, h7⟩ := h.dev
    interval_cases devNo
    · exact ⟨0x01, by decide⟩
    · exact ⟨0x02, by decide⟩
    · exact ⟨0x04, by decide⟩
    · exact ⟨0x08, by decide⟩
    · exact ⟨0x10, by decide⟩
    · exact ⟨0x20, by decide⟩
    · exact ⟨0x40, by decide⟩
    · exact ⟨0x80, by decide⟩
  obtain ⟨dev, hdev⟩ : ∃ dev : Device, dev.Reports lineNo read := by
    rcases h.half with rfl | ⟨rfl, rfl⟩
    · by_cases h7 : lineNo = 7
      · subst h7
        exact ⟨⟨READY, 0, 5, 0⟩, by decide⟩
      · exact ⟨⟨0, 0, 0, 0⟩, by rw [Device.Reports, if_neg h7]⟩
    · exact ⟨⟨5, 0, READY, 0⟩, by decide⟩
  refine ⟨{ Nucleus.sample with
    intOld := { resetState with sCause := cause }, interruptDev := fun _ => bits
    devReg := fun _ => dev }, hcause, h.line.1, hbits, ?_, hdev⟩
  have h0 := h.dev.1
  omega

/-- For an interrupt of a device the handler increments the entry of the half that it takes. -/
theorem Nucleus.ShowsDev.run (hs : s.ShowsDev lineNo devNo read) :
    ∃ e t, ioTrapHandler K s = .error e t ∧ t.mem = Function.update s.mem
      (K.semDev (BitVec.ofInt 32 (ioIndex lineNo devNo
        ((s.devReg (getDeviceReg lineNo devNo)).ack lineNo).2.1)))
      (s.mem (K.semDev (BitVec.ofInt 32 (ioIndex lineNo devNo
        ((s.devReg (getDeviceReg lineNo devNo)).ack lineNo).2.1))) + 1) := by
  obtain ⟨e, t, hrun, hpasses⟩ :=
    ioTrapHandler_device (K := K) hs.line hs.device hs.dev hs.found
  exact ⟨e, t, hrun, hpasses.mem⟩

/-- The handler increments the entry of the device that interrupts exactly where no busy receiver
is in its way. -/
theorem Nucleus.ShowsDev.increments_iff (hs : s.ShowsDev lineNo devNo read) :
    (∃ e t, ioTrapHandler K s = .error e t ∧ t.mem = Function.update s.mem
        (K.semDev (BitVec.ofInt 32 (ioIndex lineNo devNo read)))
        (s.mem (K.semDev (BitVec.ofInt 32 (ioIndex lineNo devNo read))) + 1)) ↔
      ¬ (s.devReg (getDeviceReg lineNo devNo)).ReceiverBusy lineNo := by
  obtain ⟨e, t, hrun, hmem⟩ := hs.run (K := K)
  rw [← hs.half.ack_iff]
  constructor
  · rintro ⟨e', t', hrun', hmem'⟩
    obtain rfl : t = t' := (EStateM.Result.error.inj (hrun.symm.trans hrun')).2
    have hslots := update_inj (g := (· + 1)) (fun x => by bv_omega) (hmem.symm.trans hmem')
    have htaken : HasDev lineNo devNo ((s.devReg (getDeviceReg lineNo devNo)).ack lineNo).2.1 :=
      hasDev_of_found hs.line hs.device hs.dev hs.found (ack_read _ _)
    exact (htaken.slot_inj hs.hasDev hslots).2.2
  · intro hread
    rw [hread] at hmem
    exact ⟨e, t, hrun, hmem⟩

/-- Which word is incremented for the interrupts among `I`. -/
theorem HasDev.increments_iff (hdev : HasDev lineNo devNo read) :
    Increments K I lineNo devNo read (K.semDev (BitVec.ofInt 32 (ioIndex lineNo devNo read))) ↔
      ∀ s, I s → s.ShowsDev lineNo devNo read →
        ¬ (s.devReg (getDeviceReg lineNo devNo)).ReceiverBusy lineNo := by
  constructor
  · exact fun hinc s hI hs => hs.increments_iff.mp (hinc.increments s hI hs)
  · exact fun hall => ⟨hdev.shown, fun s hI hs => hs.increments_iff.mpr (hall s hI hs)⟩

end Increment

/-! ## The registers -/

theorem ofInt_toNat (x : Word) : BitVec.ofInt 32 x.toNat = x := by
  apply BitVec.eq_of_toNat_eq
  simp

/-- The half of a terminal that `a3` asks for; other devices have one. -/
def State.half (st : State) : Int := if st.a1 = TERMINT then st.a3.toNat else 0

theorem line_eq_iff (a1 : Word) : a1 = TERMINT ↔ (a1.toNat : Int) = 7 := by
  constructor
  · rintro rfl
    rfl
  · intro h
    apply BitVec.eq_of_toNat_eq
    exact_mod_cast h

/-- Computed with words or with integers, for any registers, the index is the same word. -/
theorem waitioIndex_eq (st : State) : waitioIndex st.a1 st.a2 st.a3 =
    BitVec.ofInt 32 (ioIndex st.a1.toNat st.a2.toNat st.half) := by
  have hsub : BitVec.ofInt 32 ((st.a1.toNat : Int) - 3) = st.a1 - DEVINTOFFSET := by
    rw [sub_eq_add_neg, BitVec.ofInt_add, ofInt_toNat, BitVec.sub_eq_add_neg]
    rfl
  unfold waitioIndex ioIndex State.half
  by_cases h : st.a1 = TERMINT
  · rw [if_neg (not_not_intro h), if_pos h, if_pos ((line_eq_iff _).mp h)]
    rw [BitVec.ofInt_add, BitVec.ofInt_add, BitVec.ofInt_mul, BitVec.ofInt_mul, hsub, ofInt_toNat,
      ofInt_toNat]
    rfl
  · rw [if_pos h, if_neg (fun h' => h ((line_eq_iff _).mpr h'))]
    rw [BitVec.ofInt_add, BitVec.ofInt_mul, hsub, ofInt_toNat]
    rfl

/-- The registers name a device whose entry is before the clock's. -/
def State.Names (st : State) : Prop :=
  DISKINT ≤ st.a1 ∧ st.a1 < TERMINT ∧ st.a2 < DEVCNT ∨
    st.a1 = TERMINT ∧ st.a3 ≤ 1 ∧ (st.a2 < 5 ∨ st.a2 = 5 ∧ st.a3 = 0)

instance (st : State) : Decidable st.Names := inferInstanceAs (Decidable (_ ∨ _))

theorem names_iff (st : State) : st.Names ↔
    HasDev st.a1.toNat st.a2.toNat st.half ∧
      ioIndex st.a1.toNat st.a2.toNat st.half ≤ DEVICECNT - 2 := by
  have hcnt : (DEVICECNT : Int) - 2 = 47 := rfl
  rw [hcnt]
  by_cases h7 : st.a1 = TERMINT
  · have hline := (line_eq_iff _).mp h7
    have hhalf : st.half = st.a3.toNat := if_pos h7
    rw [ioIndex, if_pos hline, hhalf]
    constructor
    · rintro (⟨-, hlt, -⟩ | ⟨-, h3, h2⟩)
      · rw [h7] at hlt
        exact absurd hlt (by decide)
      · refine ⟨⟨?_, ?_, ?_⟩, ?_⟩ <;> bv_omega
    · rintro ⟨⟨-, hdev, hread⟩, hle⟩
      right
      refine ⟨h7, ?_, ?_⟩ <;> bv_omega
  · have hline : ¬ (st.a1.toNat : Int) = 7 := fun h => h7 ((line_eq_iff _).mpr h)
    have hhalf : st.half = 0 := if_neg h7
    rw [ioIndex, if_neg hline, hhalf]
    constructor
    · rintro (⟨h3, hlt, h2⟩ | ⟨heq, -⟩)
      · simp only [DISKINT, TERMINT, DEVCNT] at h3 hlt h2
        refine ⟨⟨?_, ?_, .inl rfl⟩, ?_⟩ <;> bv_omega
      · exact absurd heq h7
    · rintro ⟨⟨hl, hdev, -⟩, -⟩
      left
      simp only [DISKINT, TERMINT, DEVCNT]
      refine ⟨?_, ?_, ?_⟩ <;> bv_omega

/-! ## Slots -/

section Slots

variable {lineNo devNo read : Int} {m : Machine} {st : State}

theorem HasDev.slot_ne_clock (h : HasDev lineNo devNo read)
    (hle : ioIndex lineNo devNo read ≤ DEVICECNT - 2) :
    K.semDev (BitVec.ofInt 32 (ioIndex lineNo devNo read)) ≠ K.clock := by
  intro heq
  obtain ⟨hnat, hlo, -⟩ := h.toNat_index
  have hcnt : DEVICECNT = 49 := rfl
  have hword := Layout.semDev_inj (by omega) (by decide) heq
  have hclock : ((BitVec.ofNat 32 (DEVICECNT - 1) : Word).toNat : Int) = 48 := by decide
  rw [← hword] at hclock
  omega

theorem State.Names.hasDev (h : st.Names) : HasDev st.a1.toNat st.a2.toNat st.half :=
  ((names_iff st).mp h).1

theorem State.Names.line (h : st.Names) : ¬ st.a1 < DISKINT := by
  have h3 := h.hasDev.line.1
  simp only [DISKINT]
  bv_omega

theorem entry_eq (st : State) : st.entry K =
    K.semDev (BitVec.ofInt 32 (ioIndex st.a1.toNat st.a2.toNat st.half)) :=
  congrArg K.semDev (waitioIndex_eq st)

theorem State.Names.entry_ne_clock (h : st.Names) : st.entry K ≠ K.clock := by
  rw [entry_eq]
  exact h.hasDev.slot_ne_clock ((names_iff st).mp h).2

theorem State.Names.isDev (h : st.Names) : K.IsDev (st.entry K) := by
  obtain ⟨hdev, hle⟩ := (names_iff st).mp h
  obtain ⟨hnat, -, -⟩ := hdev.toNat_index
  have hcnt : DEVICECNT = 49 := rfl
  rw [entry_eq]
  apply Layout.isDev_semDev
  omega

/-- A device interrupt shows a device of the machine. -/
theorem shown_hasDev {s : State} {interruptDev : Int → Word} {devReg : Word → Device}
    (hok : m.Admits K (.interrupt s interruptDev devReg)) (h3 : 3 ≤ findLineNo s.sCause) :
    ∃ read, HasDev (findLineNo s.sCause) (findDevNo (interruptDev (findLineNo s.sCause - 3))) read ∧
      read = ((devReg (getDeviceReg (findLineNo s.sCause)
        (findDevNo (interruptDev (findLineNo s.sCause - 3))))).ack (findLineNo s.sCause)).2.1 ∧
      shownIndex (findLineNo s.sCause) interruptDev devReg =
        ioIndex (findLineNo s.sCause) (findDevNo (interruptDev (findLineNo s.sCause - 3))) read :=
  ⟨_, hasDev_of_found rfl h3 rfl (hok.sane.dev h3).1 (ack_read _ _), rfl, rfl⟩

end Slots

/-! ## A line below `DISKINT` -/

section Killed

variable {a : Abs} {p v : Pcb} {l : Lists} {m : Machine} {h : List (Machine × Event)} {st : State}

theorem reap_mem (a : Abs) (v : Pcb) (w : Word) : (a.reap K v).mem w =
    if a.pcb.pSemAdd v = w ∧ w ≠ NULL ∧ ¬ K.IsDev w then a.mem w + 1 else a.mem w := by
  by_cases hsem : a.pcb.pSemAdd v = w
  · subst hsem
    by_cases hw : a.pcb.pSemAdd v ≠ NULL ∧ ¬ K.IsDev (a.pcb.pSemAdd v)
    · simp only [Abs.reap, if_pos hw, Function.update_self, true_and]
    · simp only [Abs.reap, if_neg hw, true_and]
  · rw [if_neg fun hw => hsem hw.1]
    simp only [Abs.reap]
    split_ifs
    · exact Function.update_of_ne (Ne.symm hsem) _ _
    · rfl

/-- The semaphores of killed processes get back what they were owed. -/
theorem foldl_reap_mem {vs : List Pcb} (hnd : vs.Nodup) (a : Abs) (w : Word) :
    (vs.foldl (Abs.reap K) a).mem w = if w ≠ NULL ∧ ¬ K.IsDev w then
      a.mem w + BitVec.ofNat 32 (vs.countP fun v => a.pcb.pSemAdd v = w) else a.mem w := by
  induction vs generalizing a with
  | nil => simp
  | cons v vs ih =>
    obtain ⟨hv, hnd⟩ := List.nodup_cons.mp hnd
    -- those who follow still wait for what they waited for
    have hrest : (vs.countP fun u => (a.reap K v).pcb.pSemAdd u = w) =
        vs.countP fun u => a.pcb.pSemAdd u = w := by
      apply List.countP_congr
      intro u hu
      have hne : u ≠ v := fun heq => hv (heq ▸ hu)
      have hsem : (a.reap K v).pcb.pSemAdd u = a.pcb.pSemAdd u := Function.update_of_ne hne _ _
      rw [hsem]
    rw [List.foldl_cons, ih hnd, hrest, reap_mem, List.countP_cons]
    by_cases hw : w ≠ NULL ∧ ¬ K.IsDev w
    · rw [if_pos hw, if_pos hw]
      by_cases hsem : a.pcb.pSemAdd v = w
      · rw [if_pos ⟨hsem, hw⟩, if_pos (decide_eq_true hsem), BitVec.ofNat_add,
          BitVec.add_assoc, BitVec.add_comm 1]
        rfl
      · simp [hsem]
    · rw [if_neg hw, if_neg hw, if_neg fun hc => hw hc.2]

theorem die_mem (hnd : (a.lk.descendants p).Nodup) (w : Word) :
    (a.die K p).nuc.mem w = if w ≠ NULL ∧ ¬ K.IsDev w then
      a.mem w + BitVec.ofNat 32 ((a.lk.descendants p).countP fun v => a.pcb.pSemAdd v = w)
      else a.mem w := by
  rw [Abs.die, (schedule_world _).mem, Abs.kill_eq]
  exact foldl_reap_mem hnd (a.prune p) w

theorem die_mem_eq_iff (hnd : (a.lk.descendants p).Nodup) :
    (a.die K p).nuc.mem = a.mem ↔
      ∀ v ∈ a.lk.descendants p, a.pcb.pSemAdd v = NULL ∨ K.IsDev (a.pcb.pSemAdd v) := by
  constructor
  · intro hmem v hv
    by_contra hor
    have hw := congrFun hmem (a.pcb.pSemAdd v)
    rw [die_mem hnd, if_pos (not_or.mp hor)] at hw
    have hpos : 0 < (a.lk.descendants p).countP fun u => a.pcb.pSemAdd u = a.pcb.pSemAdd v :=
      List.countP_pos_iff.mpr ⟨v, hv, by simp⟩
    have hle := (List.countP_le_length (p := fun u => a.pcb.pSemAdd u = a.pcb.pSemAdd v)
      (l := a.lk.descendants p)).trans hnd.length_le_card
    rw [Fintype.card_fin] at hle
    have hmax : MAXPROC = 20 := rfl
    bv_omega
  · intro hall
    funext w
    rw [die_mem hnd]
    split_ifs with hw
    · have hzero : ((a.lk.descendants p).countP fun v => a.pcb.pSemAdd v = w) = 0 := by
        rw [List.countP_eq_zero]
        intro v hv heq
        have hsem : a.pcb.pSemAdd v = w := of_decide_eq_true heq
        have hor := hall v hv
        rw [hsem] at hor
        exact hor.elim hw.1 hw.2
      rw [hzero]
      exact BitVec.add_zero _
    · rfl

end Killed

/-! ## SYS 8 -/

section Law

variable {p : Pcb} {l l' : Lists} {m m' : Machine} {h : List (Machine × Event)} {st : State}
  {I : Nucleus → Prop}

/-- The caller is gone, and no semaphore was touched on the way. -/
def EndsQuietly (p : Pcb) (m m' : Machine) : Prop := Ended p m' ∧ m'.nuc.mem = m.nuc.mem

/-- Only one word changes: the entry of a device before the clock's, which the interrupts among `I`
of the device that `st` names increment, is decremented. -/
def Decrements (K : Layout) (I : Nucleus → Prop) (st : State) (m m' : Machine) : Prop :=
  ∃ i : Word, i.toNat ≤ DEVICECNT - 2 ∧
    Increments K I st.a1.toNat st.a2.toNat st.half (K.semDev i) ∧
    m'.nuc.mem = Function.update m.nuc.mem (K.semDev i) (m.nuc.mem (K.semDev i) - 1)

/-- The interrupts among `I` of the device that `st` names come while the receiver is not at work. -/
def State.ReceiverRests (I : Nucleus → Prop) (st : State) : Prop :=
  ∀ s, I s → s.ShowsDev st.a1.toNat st.a2.toNat st.half →
    ¬ (s.devReg (getDeviceReg st.a1.toNat st.a2.toNat)).ReceiverBusy st.a1.toNat

theorem decrements_iff (hruns : m.cpu.Running) (huser : ¬ st.Privileged) (h8 : st.a0 = WAITIO)
    (hline : ¬ st.a1 < DISKINT) :
    ¬ EndsQuietly p m (m.step K (.syscall st)) ∧
      (Decrements K I st m (m.step K (.syscall st)) ↔ st.Names ∧ st.ReceiverRests I) := by
  have hmem := waitio_mem (K := K) m hruns huser h8 hline
  have hne : ∀ x : Word, x - 1 ≠ x := fun x => by bv_omega
  constructor
  · rintro ⟨-, hsame⟩
    have hat := congrFun (hmem.symm.trans hsame) (st.entry K)
    rw [Function.update_self] at hat
    exact hne _ hat
  · rw [names_iff]
    have hcnt : (DEVICECNT : Int) - 2 = 47 := rfl
    constructor
    · rintro ⟨i, hi, hinc, hmem'⟩
      obtain ⟨s, hs⟩ := hinc.shown
      have hdev := hs.hasDev
      obtain ⟨hnat, -, hle⟩ := hdev.toNat_index
      have hw := (update_inj (g := (· - 1)) hne (hmem.symm.trans hmem')).symm.trans (entry_eq st)
      rw [hw] at hinc
      refine ⟨⟨hdev, ?_⟩, hdev.increments_iff.mp hinc⟩
      have hbound : DEVICECNT = 49 := rfl
      rw [← hnat, ← Layout.semDev_inj (by omega) (by omega) hw]
      omega
    · rintro ⟨⟨hdev, hle⟩, hrests⟩
      obtain ⟨hnat, -, -⟩ := hdev.toNat_index
      refine ⟨_, ?_, hdev.increments_iff.mpr hrests, ?_⟩
      · have hbound : DEVICECNT = 49 := rfl
        omega
      · rw [← entry_eq]
        exact hmem

theorem endsQuietly_iff (hholds : m.Holds K l) (hok : m.Admits K (.syscall st))
    (hcur : m.nuc.currentProc = some p) (huser : ¬ st.Privileged) (h8 : st.a0 = WAITIO)
    (hline : st.a1 < DISKINT) :
    EndsQuietly p m (m.step K (.syscall st)) ↔
      ∀ v ∈ l.descendants p, m.nuc.pcb.pSemAdd v = NULL ∨ K.IsDev (m.nuc.pcb.pSemAdd v) := by
  obtain ⟨l', hl', hover⟩ := hholds.step hok
  let a : Abs := (m.abs l).called st
  have hdie : (m.over l).step K (.syscall st) = a.die K p := by
    have hstep : (m.over l).step K (.syscall st) = (m.over l).take K (.syscall st) :=
      if_pos hok.takes
    have htake : (m.over l).take K (.syscall st) = Abs.sysCall K { m.abs l with sysOld := st } p :=
      Abs.withCurrent_some (a := { m.abs l with sysOld := st }) _ hcur
    have hcall : Abs.sysCall K { m.abs l with sysOld := st } p = a.sysSwitch K p st.a0 :=
      if_neg huser
    have hswitch : a.sysSwitch K p WAITIO = a.die K p := if_pos hline
    rw [hstep, htake, hcall, h8, hswitch]
  have hend : (m.step K (.syscall st)).over l' = a.die K p := hover.trans hdie
  have hfree : p ∈ l'.free := by
    have hlk : l' = (a.die K p).nuc.lk := congrArg (fun am : AbsMachine => am.nuc.lk) hend
    rw [hlk]
    exact mem_free_die a p
  have hmem : (m.step K (.syscall st)).nuc.mem = (a.die K p).nuc.mem :=
    congrArg (fun am : AbsMachine => am.nuc.mem) hend
  have hnd : (l.descendants p).Nodup := by
    obtain ⟨place, hpl⟩ := hholds.sound.inv.placed
    exact (victims hpl hholds.sound.inv.family hholds.shape.parents hcur).nodup
  have hiff : (a.die K p).nuc.mem = a.mem ↔ _ := die_mem_eq_iff (a := a) hnd
  rw [← hmem] at hiff
  exact ⟨fun hends => hiff.mp hends.2, fun hall => ⟨hl'.ended hfree, hiff.mpr hall⟩⟩

/-- SYS 8 with any registers, in every state of a run in which `terminateprocess` finds its
victims, and any interrupts. -/
theorem waitio_keeps_to_devices_iff (I : Nucleus → Prop)
    (hrun : Reaches K (Machine.Admits K) h m) (hshape : Shape m.nuc.lk l)
    (hcur : m.nuc.currentProc = some p) (hruns : m.cpu.Running) (huser : ¬ st.Privileged)
    (h8 : st.a0 = WAITIO) (hord : m.KillsInOrder (.syscall st)) :
    EndsQuietly p m (m.step K (.syscall st)) ∨ Decrements K I st m (m.step K (.syscall st)) ↔
      (st.a1 < DISKINT ∧ ∀ v ∈ l.descendants p,
        m.nuc.pcb.pSemAdd v = NULL ∨ K.IsDev (m.nuc.pcb.pSemAdd v)) ∨
      st.Names ∧ st.ReceiverRests I := by
  obtain ⟨l₀, hholds⟩ := hrun.holds fun _ _ he => he
  obtain rfl := hshape.unique hholds.shape
  by_cases hline : st.a1 < DISKINT
  · have hok : m.Admits K (.syscall st) := by
      refine ⟨hruns, fun _ => ⟨?_, fun _ hnot => absurd hline hnot⟩, hord⟩
      rw [h8]
      exact fun hsem => absurd hsem (by decide)
    have hnames : ¬ (st.Names ∧ st.ReceiverRests I) := by
      rintro ⟨⟨h3, -⟩ | ⟨h7, -⟩, -⟩
      · exact absurd hline (BitVec.not_lt.mpr h3)
      · rw [h7] at hline
        exact absurd hline (by decide)
    have hdec : ¬ Decrements K I st m (m.step K (.syscall st)) := by
      rintro ⟨i, -, hinc, -⟩
      obtain ⟨s, hs⟩ := hinc.shown
      have h3 := hs.device
      simp only [DISKINT] at hline
      bv_omega
    rw [or_iff_left hnames, or_iff_left hdec, endsQuietly_iff hholds hok hcur huser h8 hline]
    exact ⟨fun hall => ⟨hline, hall⟩, fun hall => hall.2⟩
  · obtain ⟨hends, hdec⟩ := decrements_iff (p := p) (K := K) (I := I) hruns huser h8 hline
    rw [or_iff_right hends, hdec]
    exact ⟨.inr, fun hor => hor.resolve_left fun hlow => hline hlow.1⟩

/-- A call with a line from `DISKINT` on kills nobody. -/
theorem kills_of_line (h8 : st.a0 = WAITIO) (hline : ¬ st.a1 < DISKINT) (huser : ¬ st.Privileged) :
    m.KillsInOrder (.syscall st) := by
  intro p l _ hkills
  rw [Event.Kills, if_neg huser, Payload.SwitchKills, h8] at hkills
  rcases hkills with h2 | ⟨h5, -⟩ | ⟨-, hlow⟩ | ⟨hrange, -⟩
  · exact absurd h2 (by decide)
  · exact absurd h5 (by decide)
  · exact absurd hlow hline
  · exact absurd (by decide) hrange

/-- The first process waits for the transmitter of terminal 0, which interrupts while the receiver is
ready. -/
theorem waitio_keeps_to_devices_iff_transmitter : ∃ l : Lists,
    EndsQuietly Abs.firstPcb (boot .sample .sample)
        ((boot .sample .sample).step .sample (.syscall (.call WAITIO 7 0 0))) ∨
      Decrements .sample (fun s => s.devReg (getDeviceReg 7 0) = ⟨READY, 0, 5, 0⟩)
        (.call WAITIO 7 0 0) (boot .sample .sample)
        ((boot .sample .sample).step .sample (.syscall (.call WAITIO 7 0 0))) ↔
      ((State.call WAITIO 7 0 0).a1 < DISKINT ∧ ∀ v ∈ l.descendants Abs.firstPcb,
        (boot .sample .sample).nuc.pcb.pSemAdd v = NULL ∨
          Layout.sample.IsDev ((boot .sample .sample).nuc.pcb.pSemAdd v)) ∨
        (State.call WAITIO 7 0 0).Names ∧
          (State.call WAITIO 7 0 0).ReceiverRests
            (fun s => s.devReg (getDeviceReg 7 0) = ⟨READY, 0, 5, 0⟩) := by
  obtain ⟨l, hholds, -⟩ := boot_holds .sample .sample
  have huser : ¬ (State.call WAITIO 7 0 0).Privileged := by decide
  have hline : ¬ (State.call WAITIO 7 0 0).a1 < DISKINT := by decide
  exact ⟨l, waitio_keeps_to_devices_iff _ (.start ⟨.sample, rfl, rfl⟩) hholds.shape boot_current
    ⟨_, boot_cpu _ _⟩ huser rfl (kills_of_line rfl hline huser)⟩

/-- Registers that name no device with an entry, in any nucleus state and for any interrupts. -/
theorem waitio_strays (hruns : m.cpu.Running) (huser : ¬ st.Privileged) (h8 : st.a0 = WAITIO)
    (hline : ¬ st.a1 < DISKINT) (hnames : ¬ st.Names) :
    (m.step K (.syscall st)).nuc.mem (st.entry K) = m.nuc.mem (st.entry K) - 1 ∧
      ¬ (EndsQuietly p m (m.step K (.syscall st)) ∨
        Decrements K I st m (m.step K (.syscall st))) := by
  obtain ⟨hends, hdec⟩ := decrements_iff (p := p) (K := K) (I := I) hruns huser h8 hline
  refine ⟨?_, fun hor => hor.elim hends fun h => hnames (hdec.mp h).1⟩
  rw [waitio_mem m hruns huser h8 hline, Function.update_self]

/-- Device 48 of line 3 is the pseudo-clock, and device 49 a word behind `semDevArray`. -/
theorem waitio_decrements_clock :
    Reaches .sample (Machine.Admits .sample) [] (boot .sample .sample) ∧
      ∀ (I : Nucleus → Prop) (devNo : Word), devNo = 48 ∨ devNo = 49 →
        ((boot .sample .sample).step .sample (.syscall (.call WAITIO 3 devNo 0))).nuc.mem
            (Layout.sample.semDev devNo) =
          (boot .sample .sample).nuc.mem (Layout.sample.semDev devNo) - 1 ∧
        ¬ (EndsQuietly Abs.firstPcb (boot .sample .sample)
            ((boot .sample .sample).step .sample (.syscall (.call WAITIO 3 devNo 0))) ∨
          Decrements .sample I (.call WAITIO 3 devNo 0) (boot .sample .sample)
            ((boot .sample .sample).step .sample (.syscall (.call WAITIO 3 devNo 0)))) := by
  refine ⟨.start ⟨.sample, rfl, rfl⟩, fun I devNo hdev => ?_⟩
  have hentry : (State.call WAITIO 3 devNo 0).entry .sample = Layout.sample.semDev devNo := by
    rcases hdev with rfl | rfl <;> decide
  rw [← hentry]
  apply waitio_strays ⟨_, boot_cpu _ _⟩
  · rcases hdev with rfl | rfl <;> decide
  · rfl
  · rcases hdev with rfl | rfl <;> decide
  · rcases hdev with rfl | rfl <;> decide

end Law

end Kaya
