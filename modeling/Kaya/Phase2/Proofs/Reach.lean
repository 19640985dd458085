import Kaya.Lib.Run
import Kaya.Phase2.Proofs.Boot

/-!
# Reachable states

A run starts with `main` and goes on with any events that keep to the rules of
the nucleus's interface.  In every state reached the pointers represent lists,
and the machine over the pointers steps as the machine over the lists does.
-/

namespace Kaya

open Lib

/-! ## Which events a run may have -/

section Events

variable (K : Layout)

/-- SYS 3 and SYS 4 get a semaphore of the processes, SYS 8 a device that has an entry in
`semDevArray`. -/
structure State.SaneCall (st : State) : Prop where
  sem : st.a0 = VERHOGEN ∨ st.a0 = PASSEREN → K.UserWord st.a1
  slot : st.a0 = WAITIO → ¬ st.a1 < DISKINT →
    (waitioIndex st.a1 st.a2 st.a3).toNat < DEVICECNT

/-- An interrupt has a line, and a device interrupt a device with an entry in
`semDevArray`. -/
structure State.SaneInterrupt (st : State) (interruptDev : Int → Word)
    (devReg : Word → Device) : Prop where
  line : findLineNo st.sCause ≠ -1
  dev : 3 ≤ findLineNo st.sCause →
    findDevNo (interruptDev (findLineNo st.sCause - 3)) ≠ -1 ∧
      (BitVec.ofInt 32 (shownIndex (findLineNo st.sCause) interruptDev devReg)).toNat < DEVICECNT

def Event.Sane : Event → Prop
  | .syscall st => ¬ st.Privileged → st.SaneCall K
  | .interrupt st interruptDev devReg => st.SaneInterrupt interruptDev devReg
  | .store _ _ | .progTrap _ | .tlbTrap _ => True

/-- The event kills the running process `p`. -/
def Event.Kills (b : Payload Pcb) (p : Pcb) : Event → Prop
  | .syscall st =>
      if st.Privileged then b.pNewPgm p = NULL else b.SwitchKills st p
  | .progTrap _ => b.pNewPgm p = NULL
  | .tlbTrap _ => b.pNewTlb p = NULL
  | .store _ _ | .interrupt _ _ _ => False

/-- If `e` kills, `terminateprocess` finds every victim at the tail of its queue. -/
def Machine.KillsInOrder (m : Machine) (e : Event) : Prop :=
  ∀ p l, m.nuc.currentProc = some p → e.Kills m.nuc.pcb p → Shape m.nuc.lk l → l.VictimsLast p

structure Machine.Admits (m : Machine) (e : Event) : Prop where
  takes : m.cpu.Takes e
  sane : e.Sane K
  inOrder : m.KillsInOrder e

def Machine.Booted (m : Machine) : Prop := ∃ s : Nucleus, s.trace = [] ∧ m = boot K s

/-- Runs of the machine, with the history of events and the machines they met. -/
abbrev Reaches (ok : Machine → Event → Prop) : List (Machine × Event) → Machine → Prop :=
  Run (Machine.Booted K) (Machine.step K) ok

/-- The running process has no children. -/
def Machine.Childless (m : Machine) : Prop :=
  ∀ p, m.nuc.currentProc = some p → m.nuc.lk.pChild p = none

/-- The system calls of a process that uses semaphores, the clock and devices, and ends
after its children.  For SYS 1 `a1` is the address of an area in user memory, the only kind that
`createprocess` models. -/
structure State.PlainCall (m : Machine) (st : State) : Prop where
  user : ¬ st.Privileged
  call : st.a0 = CREATEPROCESS ∨ st.a0 = TERMINATEPROCESS ∨ st.a0 = VERHOGEN ∨
    st.a0 = PASSEREN ∨ st.a0 = WAITCLOCK ∨ st.a0 = WAITIO
  sem : st.a0 = VERHOGEN ∨ st.a0 = PASSEREN → K.UserWord st.a1
  device : st.a0 = WAITIO → ¬ st.a1 < DISKINT
  slot : st.a0 = WAITIO → (waitioIndex st.a1 st.a2 st.a3).toNat < DEVICECNT
  childless : st.a0 = TERMINATEPROCESS → m.Childless

/-- Plain events: these calls, interrupts, and stores of the running process outside
`semDevArray`. -/
def Machine.Plain (m : Machine) (e : Event) : Prop :=
  m.cpu.Takes e ∧ match e with
    | .syscall st => st.PlainCall K m
    | .interrupt st interruptDev devReg => st.SaneInterrupt interruptDev devReg
    | .store a _ => ¬ K.IsDev a
    | .progTrap _ | .tlbTrap _ => False

end Events

variable {K : Layout} {m : Machine} {l : Lists} {e : Event}

/-! ## One step -/

def Machine.abs (m : Machine) (l : Lists) : Abs := m.nuc.withLk l

def Machine.over (m : Machine) (l : Lists) : AbsMachine := ⟨m.abs l, m.cpu⟩

/-- The pointers of `m` represent `l`, and the invariant holds. -/
structure Machine.Holds (K : Layout) (m : Machine) (l : Lists) : Prop where
  shape : Shape m.nuc.lk l
  sound : Sound K (m.over l)

theorem Refines.enter {x : NucM Unit} {a : Abs} {am : AbsMachine} (hx : Refines x a am)
    {t : Ptrs} (hshape : Shape t a.lk) (hsound : Sound K am) :
    (Machine.enter x (a.withLk t)).Holds K am.nuc.lk ∧
      (Machine.enter x (a.withLk t)).over am.nuc.lk = am := by
  obtain ⟨lk', hrun, hshape'⟩ := hx t hshape
  have henter : Machine.enter x (a.withLk t) = ⟨am.nuc.withLk lk', am.cpu⟩ := by
    rw [Machine.enter, hrun]
  rw [henter]
  exact ⟨⟨hshape', hsound⟩, rfl⟩

theorem Machine.Holds.serves (h : m.Holds K l) (hrun : m.cpu.Running) :
    ∃ p, m.nuc.currentProc = some p ∧ Serves K (m.abs l) p := by
  obtain ⟨st, hst⟩ := hrun
  have hfits := h.sound.fits
  have hcpu : (m.over l).cpu = .ldst st := hst
  rw [hcpu] at hfits
  obtain ⟨⟨p, hcur⟩, hwait⟩ := hfits
  exact ⟨p, hcur, h.sound.inv.placed, h.sound.inv.family, h.shape.nodups, h.shape.parents, hcur,
    hwait⟩

theorem Machine.Holds.not_runs (h : m.Holds K l) {p : Pcb} {w : Word} (hp : p ∈ l.blocked w) :
    m.nuc.currentProc ≠ some p := by
  obtain ⟨place, hpl⟩ := h.sound.inv.placed
  exact fun hcur => (hpl.out hcur).blocked w hp

theorem Abs.withCurrent_some {a : Abs} {p : Pcb} (f : Abs → Pcb → AbsMachine)
    (hcur : a.currentProc = some p) : a.withCurrent f = f a p := by
  simp only [Abs.withCurrent, hcur]

/-- The system calls of sane events are within the rules of `sysCallHandler`. -/
theorem Machine.Holds.syscall (h : m.Holds K l) {st : State} (hok : m.Admits K (.syscall st)) :
    (m.take K (.syscall st)).Holds K ((m.over l).take K (.syscall st)).nuc.lk ∧
      (m.take K (.syscall st)).over ((m.over l).take K (.syscall st)).nuc.lk =
        (m.over l).take K (.syscall st) := by
  obtain ⟨p, hcur, hserves⟩ := h.serves hok.takes
  let a : Abs := { m.abs l with sysOld := st }
  have ha : Serves K a p := hserves.congr rfl rfl rfl rfl rfl rfl
  have hcall : (m.over l).take K (.syscall st) = a.sysCall K p :=
    Abs.withCurrent_some (a := a) _ hcur
  have hkills : ∀ hk : (Event.syscall st).Kills m.nuc.pcb p, l.VictimsLast p :=
    fun hk => hok.inOrder p l hcur hk h.shape
  have hsem : a.sysOld.a0 = VERHOGEN ∨ a.sysOld.a0 = PASSEREN → ¬ a.sysOld.Privileged →
      K.UserWord a.sysOld.a1 := fun hc hp => (hok.sane hp).sem hc
  have hslot : a.sysOld.a0 = WAITIO → ¬ a.sysOld.Privileged → ¬ a.sysOld.a1 < DISKINT →
      (waitioIndex a.sysOld.a1 a.sysOld.a2 a.sysOld.a3).toNat < DEVICECNT :=
    fun hc hp => (hok.sane hp).slot hc
  obtain ⟨place, hpl⟩ := ha.placed
  rw [hcall]
  refine Refines.enter (a := a) (t := m.nuc.lk) ?_ h.shape (ha.sysCall hsem hslot)
  apply sysCall_refines hpl ha.family ha.current hsem hslot
  · intro hp hnew
    exact hkills (by rw [Event.Kills, if_pos hp]; exact hnew)
  · intro hp hkill
    exact hkills (by rw [Event.Kills, if_neg hp]; exact hkill)

theorem Machine.Holds.trap (h : m.Holds K l) (hok : m.Admits K e) {st : State}
    (he : e = .progTrap st ∨ e = .tlbTrap st) :
    (m.take K e).Holds K ((m.over l).take K e).nuc.lk ∧
      (m.take K e).over ((m.over l).take K e).nuc.lk = (m.over l).take K e := by
  rcases he with rfl | rfl
  · obtain ⟨p, hcur, hserves⟩ := h.serves hok.takes
    let a : Abs := { m.abs l with pgmOld := st }
    have ha : Serves K a p := hserves.congr rfl rfl rfl rfl rfl rfl
    have hcall : (m.over l).take K (.progTrap st) = a.progTrap K p :=
      Abs.withCurrent_some (a := a) _ hcur
    obtain ⟨place, hpl⟩ := ha.placed
    rw [hcall]
    refine Refines.enter (a := a) (t := m.nuc.lk) ?_ h.shape (ha.passUp _ _ _)
    exact progTrap_refines hpl ha.family ha.current
      (fun hk => hok.inOrder p l hcur hk h.shape)
  · obtain ⟨p, hcur, hserves⟩ := h.serves hok.takes
    let a : Abs := { m.abs l with tlbOld := st }
    have ha : Serves K a p := hserves.congr rfl rfl rfl rfl rfl rfl
    have hcall : (m.over l).take K (.tlbTrap st) = a.tlbTrap K p :=
      Abs.withCurrent_some (a := a) _ hcur
    obtain ⟨place, hpl⟩ := ha.placed
    rw [hcall]
    refine Refines.enter (a := a) (t := m.nuc.lk) ?_ h.shape (ha.passUp _ _ _)
    exact tlbTrap_refines hpl ha.family ha.current
      (fun hk => hok.inOrder p l hcur hk h.shape)

theorem Stop.Fits.alive {c : Stop} {a : Abs} (h : c.Fits a) (hc : c.Running ∨ c = .wait) :
    (∃ p, a.currentProc = some p) ∧ a.waiting = false ∨
      a.currentProc = none ∧ a.waiting = true := by
  rcases hc with ⟨st, rfl⟩ | rfl
  · exact .inl h
  · exact .inr ⟨h.1, h.2.1⟩

theorem Stop.Takes.alive {c : Stop} (h : c.Takes e) : c.Running ∨ c = .wait := by
  cases e with
  | interrupt => exact h
  | store | syscall | progTrap | tlbTrap => exact .inl h

theorem Machine.Holds.waiting (h : m.Holds K l) (htakes : m.cpu.Takes e)
    (hwait : m.nuc.waiting = true) : m.nuc.currentProc = none := by
  rcases h.sound.fits.alive htakes.alive with ⟨-, hawake⟩ | ⟨hcur, -⟩
  · have hfalse : m.nuc.waiting = false := hawake
    rw [hwait] at hfalse
    exact absurd hfalse (by decide)
  · exact hcur

theorem Machine.Holds.interrupt (h : m.Holds K l) {st : State} {interruptDev : Int → Word}
    {devReg : Word → Device} (hok : m.Admits K (.interrupt st interruptDev devReg)) :
    (m.take K (.interrupt st interruptDev devReg)).Holds K
        ((m.over l).take K (.interrupt st interruptDev devReg)).nuc.lk ∧
      (m.take K (.interrupt st interruptDev devReg)).over
          ((m.over l).take K (.interrupt st interruptDev devReg)).nuc.lk =
        (m.over l).take K (.interrupt st interruptDev devReg) := by
  let a : Abs := { m.abs l with
    intOld := st, interruptDev := interruptDev, devReg := devReg }
  obtain ⟨place, hpl⟩ := h.sound.inv.placed
  have ha : Placed K a place := hpl.congr rfl rfl rfl rfl rfl rfl rfl
  have hserved : a.Served K := by
    refine ⟨hok.sane.line, fun h3 => ?_⟩
    obtain ⟨hfound, hidx⟩ := hok.sane.dev h3
    exact ⟨hfound, Layout.isDev_semDev hidx⟩
  have halive := h.sound.fits.alive hok.takes
  have hint : (m.over l).take K (.interrupt st interruptDev devReg) = a.interrupt K := rfl
  rw [hint]
  exact Refines.enter (a := a) (t := m.nuc.lk) (interrupt_refines ha hserved) h.shape
    (interrupt_sound ha h.sound.inv.family h.shape halive hserved)

/-- The machine over pointers steps as the machine over lists, and the invariant is
kept. -/
theorem Machine.Holds.step (h : m.Holds K l) (hok : m.Admits K e) :
    ∃ l', (m.step K e).Holds K l' ∧ (m.step K e).over l' = (m.over l).step K e := by
  have hstep : m.step K e = m.take K e := if_pos hok.takes
  have hastep : (m.over l).step K e = (m.over l).take K e := if_pos hok.takes
  rw [hstep, hastep]
  cases e with
  | store a v =>
      refine ⟨l, ⟨h.shape, ⟨?_, h.sound.inv.family⟩, ?_⟩, rfl⟩
      · obtain ⟨place, hpl⟩ := h.sound.inv.placed
        exact ⟨place, hpl.congr rfl rfl rfl rfl rfl rfl rfl⟩
      · obtain ⟨st, hst⟩ := hok.takes
        have hfits := h.sound.fits
        have hcpu : (m.over l).cpu = .ldst st := hst
        have hcpu' : ((m.take K (.store a v)).over l).cpu = .ldst st := hst
        rw [hcpu] at hfits
        rw [hcpu']
        exact hfits
  | syscall st => exact ⟨_, h.syscall hok⟩
  | progTrap st => exact ⟨_, h.trap hok (.inl rfl)⟩
  | tlbTrap st => exact ⟨_, h.trap hok (.inr rfl)⟩
  | interrupt st interruptDev devReg => exact ⟨_, h.interrupt hok⟩

/-! ## Runs -/

theorem boot_cpu (K : Layout) (s : Nucleus) :
    (boot K s).cpu = .ldst (firstState K resetState) := by
  obtain ⟨lk, hboot, -⟩ := boot_represents K s
  rw [hboot]
  rfl

theorem boot_holds (K : Layout) (s : Nucleus) :
    ∃ l, (boot K s).Holds K l ∧ (boot K s).over l = (Abs.first K s).schedule := by
  obtain ⟨lk, hboot, hshape⟩ := boot_represents K s
  rw [hboot]
  exact ⟨_, ⟨hshape, first_sound K s⟩, rfl⟩

/-- What holds at the start of a run and is kept by every step of the machine over lists holds
in every state reached. -/
theorem run_induction {init : Machine → Prop} {ok : Machine → Event → Prop}
    {h : List (Machine × Event)} (hrun : Run init (Machine.step K) ok h m)
    (hok : ∀ m e, ok m e → m.Admits K e) {I : List (Machine × Event) → AbsMachine → Prop}
    (hinit : ∀ m, init m → ∃ l, m.Holds K l ∧ I [] (m.over l))
    (hstep : ∀ h m l e, m.Holds K l → I h (m.over l) → ok m e →
      I ((m, e) :: h) ((m.over l).step K e)) :
    ∃ l, m.Holds K l ∧ I h (m.over l) := by
  refine Run.history (I := fun h m => ∃ l, m.Holds K l ∧ I h (m.over l)) hrun hinit ?_
  rintro h m e - ⟨l, hl, hI⟩ he
  obtain ⟨l', hl', hover⟩ := hl.step (hok m e he)
  refine ⟨l', hl', ?_⟩
  rw [hover]
  exact hstep h m l e hl hI he

/-- The same from `main` on. -/
theorem Reaches.induction {ok : Machine → Event → Prop} {h : List (Machine × Event)}
    (hrun : Reaches K ok h m) (hok : ∀ m e, ok m e → m.Admits K e)
    {I : List (Machine × Event) → AbsMachine → Prop}
    (hinit : ∀ s : Nucleus, s.trace = [] → I [] (Abs.first K s).schedule)
    (hstep : ∀ h m l e, m.Holds K l → I h (m.over l) → ok m e →
      I ((m, e) :: h) ((m.over l).step K e)) :
    ∃ l, m.Holds K l ∧ I h (m.over l) := by
  refine run_induction hrun hok ?_ hstep
  rintro m ⟨s, hs, hm⟩
  obtain ⟨l, hl, hover⟩ := boot_holds K s
  rw [← hm] at hl hover
  refine ⟨l, hl, ?_⟩
  rw [hover]
  exact hinit s hs

theorem Reaches.holds {ok : Machine → Event → Prop} {h : List (Machine × Event)}
    (hrun : Reaches K ok h m) (hok : ∀ m e, ok m e → m.Admits K e) : ∃ l, m.Holds K l := by
  obtain ⟨l, hl, -⟩ := hrun.induction hok (I := fun _ _ => True) (fun _ _ => trivial)
    (fun _ _ _ _ _ _ _ => trivial)
  exact ⟨l, hl⟩

end Kaya
