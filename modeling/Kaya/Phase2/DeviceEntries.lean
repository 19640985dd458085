import Kaya.Phase2.DeviceWait
import Kaya.Phase2.Waiters
import Kaya.Phase2.Semaphores

/-!
# Which waiters an interrupt wakes

`waitio` and `ioTrapHandler` compute the entry of a device on their own, and the last entry of
the array is the clock's.  As long as only devices with an entry before it are used, an
interrupt wakes processes that wait for its own device, and only the interval timer wakes those
that wait for the clock.
-/

namespace Kaya

open Lib

/-! ## What is to be kept apart -/

def lastState (p : Pcb) : List (Machine × Event) → Option State
  | [] => none
  | (m, .syscall st) :: h => if m.nuc.currentProc = some p then some st else lastState p h
  | _ :: h => lastState p h

/-- An interrupt of half `read` of device `devNo` on line `lineNo`.  A terminal interrupts for a
half that has completed its operation. -/
def Event.IsFrom (lineNo devNo read : Int) : Event → Prop
  | .interrupt st interruptDev devReg =>
      findLineNo st.sCause = lineNo ∧ findDevNo (interruptDev (lineNo - 3)) = devNo ∧
        (lineNo = 7 → ∃ x : Half,
          x.read = read ∧ (devReg (getDeviceReg 7 devNo)).halves.Completed x)
  | _ => False

/-- The entry of `semDevArray` that `waitio` or `ioTrapHandler` reads and writes. -/
def Event.entry (K : Layout) : Event → Option Word
  | .syscall st =>
      if ¬ st.Privileged ∧ st.a0 = WAITIO ∧ ¬ st.a1 < DISKINT then some (st.entry K) else none
  | .interrupt st interruptDev devReg =>
      if findLineNo st.sCause = IVTIMINT then some K.clock
      else if 3 ≤ findLineNo st.sCause then
        some (K.semDev (BitVec.ofInt 32 (shownIndex (findLineNo st.sCause) interruptDev devReg)))
      else none
  | _ => none

/-- `p` waits for a semaphore, and after the event it does not wait and is not dead. -/
structure Machine.Wakes (K : Layout) (m : Machine) (p : Pcb) (e : Event) : Prop where
  waits : m.nuc.pcb.pSemAdd p ≠ NULL
  wakes : (m.step K e).nuc.pcb.pSemAdd p = NULL
  alive : (m.step K e).Alive p

/-- What the event does in `m` after the history `h` to those who wait for a device or the clock. -/
structure KeptApart (K : Layout) (h : List (Machine × Event)) (m : Machine) (e : Event) :
    Prop where
  device : ∀ p st, lastState p h = some st → st.a0 = WAITIO → m.Wakes K p e →
    e.IsFrom st.a1.toNat st.a2.toNat st.half
  clock : ∀ p st, lastState p h = some st → st.a0 = WAITCLOCK → m.Wakes K p e → e.IsTick
  blocks : ∀ p st, e = .syscall st → ¬ st.Privileged → st.a0 = WAITCLOCK →
    m.nuc.currentProc = some p → (m.step K e).nuc.pcb.pSemAdd p = K.clock
  releases : e.IsTick → ∀ p, (m.step K e).nuc.pcb.pSemAdd p ≠ K.clock
  inside : ∀ w, e.entry K = some w →
    K.IsDev w ∧ ∃ v, (m.step K e).nuc.mem = Function.update m.nuc.mem w v
  outside : ∀ st interruptDev devReg, e = .interrupt st interruptDev devReg → e.entry K = none →
    (m.step K e).nuc.mem = m.nuc.mem

/-- Only devices whose entries are before the clock's are used, terminals interrupt while their
receivers are not busy, and processes and traps do not write to the array. -/
structure Machine.UsesEntries (K : Layout) (m : Machine) (e : Event) : Prop where
  admits : m.Admits K e
  names : ∀ st, e = .syscall st → st.a0 = WAITIO → st.Names
  shown : ∀ st interruptDev devReg, e = .interrupt st interruptDev devReg →
    3 ≤ findLineNo st.sCause →
    shownIndex (findLineNo st.sCause) interruptDev devReg ≤ DEVICECNT - 2
  halves : ∀ st interruptDev devReg, e = .interrupt st interruptDev devReg →
    findLineNo st.sCause = 7 →
    (∃ x, (devReg (getDeviceReg 7 (findDevNo (interruptDev 4)))).halves.Completed x) ∧
      ¬ (devReg (getDeviceReg 7 (findDevNo (interruptDev 4)))).halves.Busy .receiver
  store : ∀ w v, e = .store w v → ¬ K.IsDev w
  areas : ∀ k st p w, e.trap = some (k, st) → m.nuc.currentProc = some p → K.IsDev w →
    ¬ InArea (m.nuc.pcb.areas p k).1 w
  /-- The clock's entry stays within 32 bits. -/
  low : ∀ st, e = .syscall st → st.a0 = WAITCLOCK → -2 ^ 31 ≤ (m.nuc.mem K.clock).toInt - 1

variable {K : Layout} {m : Machine} {l : Lists} {h : List (Machine × Event)} {p q : Pcb}
  {e : Event} {a : Abs} {st : State} {u w : Word}

/-! ## Who writes to the array -/

theorem die_dev (hdev : K.IsDev w) : (a.die K p).nuc.mem w = a.mem w := by
  have hreap : ∀ (vs : List Pcb) (a : Abs), (vs.foldl (Abs.reap K) a).mem w = a.mem w := by
    intro vs
    induction vs with
    | nil => exact fun a => rfl
    | cons v vs ih =>
      intro a
      have hone : (a.reap K v).mem w = a.mem w := by
        rw [reap_mem, if_neg fun hw => hw.2.2 hdev]
      exact (ih _).trans hone
  rw [Abs.die, (schedule_world _).mem, Abs.kill_eq]
  exact hreap _ (a.prune p)

theorem passUp_dev (hdev : K.IsDev w) (new : Word) {old : Word} (trap : State)
    (hout : ¬ InArea old w) : (a.passUp K p new old trap).nuc.mem w = a.mem w := by
  by_cases hnew : new = NULL
  · rw [Abs.passUp_null hnew]
    exact die_dev hdev
  · rw [Abs.passUp_of_ne hnew]
    exact storeState_of_not_inArea trap hout

theorem spectrapvec_dev (hdev : K.IsDev w) : (a.spectrapvec K p).nuc.mem w = a.mem w := by
  unfold Abs.spectrapvec
  dsimp only
  split_ifs
  · rfl
  · rfl
  · rfl
  · exact die_dev hdev

theorem V_dev (hne : w ≠ a.sysOld.a1) : a.V.nuc.mem w = a.mem w := by
  by_cases hle : (a.mem a.sysOld.a1 + 1).toInt ≤ 0
  · rw [Abs.V_of_le hle, wake_mem]
    exact Function.update_of_ne hne ..
  · rw [Abs.V_of_not_le hle]
    exact Function.update_of_ne hne ..

theorem P_dev (hne : w ≠ a.sysOld.a1) : (a.P p).nuc.mem w = a.mem w := by
  by_cases hneg : (a.mem a.sysOld.a1 - 1).toInt < 0
  · rw [Abs.P_of_neg hneg, (schedule_world _).mem]
    exact Function.update_of_ne hne ..
  · rw [Abs.P_of_not_neg hneg]
    exact Function.update_of_ne hne ..

theorem waitDev_mem (a : Abs) (p : Pcb) (u : Word) :
    (a.waitDev p u).nuc.mem = Function.update a.mem u (a.mem u - 1) := by
  by_cases hneg : (a.mem u - 1).toInt < 0
  · rw [Abs.waitDev_of_neg hneg, (schedule_world _).mem]
    rfl
  · rw [Abs.waitDev_of_not_neg hneg]
    rfl

/-- One entry at most is taken from. -/
theorem waitDev_dev (hon : a.sysOld.waitsOn K = some u) :
    (a.waitDev p u).nuc.mem w = a.mem w ∨
      a.sysOld.waitsOn K = some w ∧ (a.waitDev p u).nuc.mem w = a.mem w - 1 := by
  rw [waitDev_mem]
  by_cases hwu : w = u
  · subst hwu
    exact .inr ⟨hon, Function.update_self ..⟩
  · exact .inl (Function.update_of_ne hwu ..)

theorem sysSwitch_dev (hdev : K.IsDev w)
    (hsem : a.sysOld.a0 = VERHOGEN ∨ a.sysOld.a0 = PASSEREN → w ≠ a.sysOld.a1)
    (hout : ¬ (CREATEPROCESS ≤ a.sysOld.a0 ∧ a.sysOld.a0 ≤ WAITIO) → ¬ InArea (a.pcb.pOldSys p) w) :
    (a.sysSwitch K p a.sysOld.a0).nuc.mem w = a.mem w ∨
      a.sysOld.waitsOn K = some w ∧ (a.sysSwitch K p a.sysOld.a0).nuc.mem w = a.mem w - 1 := by
  unfold Abs.sysSwitch
  split_ifs with h1 h2 h3 h4 h5 h6 h7 h8 hline
  · exact .inl (congrFun (createprocess_mem a p) w)
  · exact .inl (die_dev hdev)
  · exact .inl (V_dev (hsem (.inl h3)))
  · exact .inl (P_dev (hsem (.inr h4)))
  · exact .inl (spectrapvec_dev hdev)
  · exact .inl rfl
  · exact waitDev_dev ((if_neg h4).trans (if_pos h7))
  · exact .inl (die_dev hdev)
  · exact waitDev_dev ((if_neg h4).trans ((if_neg h7).trans (if_pos ⟨h8, hline⟩)))
  · refine .inl (passUp_dev hdev _ _ (hout ?_))
    simp only [CREATEPROCESS, TERMINATEPROCESS, VERHOGEN, PASSEREN, SPECTRAPVEC, GETCPUTIME,
      WAITCLOCK, WAITIO] at h1 h2 h3 h4 h5 h6 h7 h8 ⊢
    bv_omega

/-- An entry changes only by a call that waits for it, by an interrupt that is for it and by a
tick. -/
theorem step_dev (hholds : m.Holds K l) (hok : m.UsesEntries K e) (hdev : K.IsDev w)
    (htick : e.IsTick → w ≠ K.clock) (hshows : e.shows K w = none) :
    ((m.over l).step K e).nuc.mem w = m.nuc.mem w ∨
      ∃ st, e = .syscall st ∧ ¬ st.Privileged ∧ st.waitsOn K = some w ∧
        ((m.over l).step K e).nuc.mem w = m.nuc.mem w - 1 := by
  have hadm := hok.admits
  have hstep : (m.over l).step K e = (m.over l).take K e := if_pos hadm.takes
  cases e with
  | store v x =>
    left
    rw [hstep]
    apply Function.update_of_ne
    rintro rfl
    exact hok.store w x rfl hdev
  | syscall st =>
    obtain ⟨p, hcur, -⟩ := hholds.serves hadm.takes
    have htake : (m.over l).take K (.syscall st) =
        Abs.sysCall K { m.abs l with sysOld := st } p :=
      Abs.withCurrent_some (a := { m.abs l with sysOld := st }) _ hcur
    by_cases hp : st.Privileged
    · left
      have hrun : Abs.sysCall K { m.abs l with sysOld := st } p =
          Abs.progTrap K { m.abs l with sysOld := st, pgmOld := st.reserved } p := if_pos hp
      rw [hstep, htake, hrun]
      exact passUp_dev hdev _ _ (hok.areas .pgm st.reserved p w (if_pos hp) hcur hdev)
    · have hrun : Abs.sysCall K { m.abs l with sysOld := st } p =
          Abs.sysSwitch K ((m.abs l).called st) p st.a0 := if_neg hp
      have hdone := sysSwitch_dev (a := (m.abs l).called st) (p := p) hdev ?sem ?out
      case sem =>
        intro hvp heq
        exact ((hadm.sane hp).sem hvp).2.2 (heq ▸ hdev)
      case out =>
        intro hout
        exact hok.areas .sys st.advance p w ((if_neg hp).trans (if_neg hout)) hcur hdev
      rw [hstep, htake, hrun]
      rcases hdone with hsame | ⟨hon, hless⟩
      · exact .inl hsame
      · exact .inr ⟨st, rfl, hp, hon, hless⟩
  | progTrap st =>
    obtain ⟨p, hcur, -⟩ := hholds.serves hadm.takes
    have htake : (m.over l).take K (.progTrap st) =
        Abs.progTrap K { m.abs l with pgmOld := st } p :=
      Abs.withCurrent_some (a := { m.abs l with pgmOld := st }) _ hcur
    left
    rw [hstep, htake]
    exact passUp_dev hdev _ _ (hok.areas .pgm st p w rfl hcur hdev)
  | tlbTrap st =>
    obtain ⟨p, hcur, -⟩ := hholds.serves hadm.takes
    have htake : (m.over l).take K (.tlbTrap st) =
        Abs.tlbTrap K { m.abs l with tlbOld := st } p :=
      Abs.withCurrent_some (a := { m.abs l with tlbOld := st }) _ hcur
    left
    rw [hstep, htake]
    exact passUp_dev hdev _ _ (hok.areas .tlb st p w rfl hcur hdev)
  | interrupt st interruptDev devReg =>
    left
    rw [interrupt_mem hadm rfl]
    split_ifs with h2 h3
    · exact Function.update_of_ne (htick h2) ..
    · apply Function.update_of_ne
      intro heq
      have hsome : (Event.interrupt st interruptDev devReg).shows K w ≠ none := by
        simp [Event.shows, h3, heq]
      exact hsome hshows
    · rfl

/-! ## Who is woken -/

theorem Machine.Holds.blocked_of_semAdd (hholds : m.Holds K l) (hp : m.nuc.pcb.pSemAdd p ≠ NULL) :
    p ∈ l.blocked (m.nuc.pcb.pSemAdd p) := by
  obtain ⟨place, hpl⟩ := hholds.sound.inv.placed
  have hsem : m.nuc.pcb.pSemAdd p = (place p).semAdd := hpl.semAdd p
  apply ((hpl.spot p).blocked _).mpr
  rw [hsem] at hp ⊢
  cases hplace : place p with
  | blocked w => rfl
  | free | running | ready =>
    rw [hplace] at hp
    exact absurd rfl hp

theorem Machine.Holds.semAdd_of_blocked (hholds : m.Holds K l) (hp : p ∈ l.blocked w) :
    m.nuc.pcb.pSemAdd p = w := by
  obtain ⟨place, hpl⟩ := hholds.sound.inv.placed
  have hplace : place p = .blocked w := ((hpl.spot p).blocked w).mp hp
  have hsem : m.nuc.pcb.pSemAdd p = (place p).semAdd := hpl.semAdd p
  rw [hsem, hplace]
  rfl

/-- Who waits for an entry is woken by a tick, if it is the clock's, or by an interrupt for it. -/
theorem Machine.Wakes.cause (hwakes : m.Wakes K p e) (hholds : m.Holds K l)
    (hok : m.UsesEntries K e) (hp : p ∈ l.blocked w) (hdev : K.IsDev w) :
    e.IsTick ∧ w = K.clock ∨ ∃ b, e.shows K w = some b := by
  by_contra hnone
  obtain ⟨htick, hshow⟩ := not_or.mp hnone
  have hshows : e.shows K w = none := Option.eq_none_iff_forall_ne_some.mpr (not_exists.mp hshow)
  have htick' : e.IsTick → w ≠ K.clock := fun ht hw => htick ⟨ht, hw⟩
  obtain ⟨place, hpl⟩ := hholds.sound.inv.placed
  have hplace : place p = .blocked w := ((hpl.spot p).blocked w).mp hp
  have hcur : m.nuc.currentProc ≠ some p := hholds.not_runs hp
  have hfree : p ∉ l.free := by
    intro hfree
    have hcontra := hplace.symm.trans ((hpl.spot p).free.mp hfree)
    exact absurd hcontra (by simp)
  have hsig : ∀ v, p ∈ l.blocked v → e.shows K v = none := by
    intro v hv
    have hsame : Place.blocked v = Place.blocked w := (((hpl.spot p).blocked v).mp hv).symm.trans hplace
    obtain rfl : v = w := Place.blocked.inj hsame
    exact hshows
  obtain ⟨v, hvw, hv⟩ : ∃ v, w ≠ v ∧ (e.IsTick → v = K.clock) := by
    by_cases hw : w = K.clock
    · refine ⟨NULL, ?_, fun ht => absurd hw (htick' ht)⟩
      rintro rfl
      exact Layout.not_isDev_null hdev
    · exact ⟨K.clock, hw, fun _ => rfl⟩
  obtain ⟨l', hholds', hover⟩ := hholds.step hok.admits
  have hlk : l' = ((m.over l).step K e).nuc.lk := congrArg (fun am : AbsMachine => am.nuc.lk) hover
  rcases step_spares hholds hok.admits hfree hcur hsig hv with hdead | hs
  · exact hwakes.alive l' hholds'.shape (hlk ▸ hdead)
  · rcases hs.waits w hvw hp with hstill | hinc
    · have hsem := hholds'.semAdd_of_blocked (hlk ▸ hstill)
      rw [hwakes.wakes] at hsem
      exact Layout.not_isDev_null (hsem ▸ hdev)
    · have hinc' : ((m.over l).step K e).nuc.mem w = m.nuc.mem w + 1 := hinc
      rcases step_dev hholds hok hdev htick' hshows with hsame | ⟨st, -, -, -, hless⟩
      · rw [hsame] at hinc'
        bv_omega
      · rw [hless] at hinc'
        bv_omega

/-! ## Runs -/

theorem State.waitsOn_clock (h7 : st.a0 = WAITCLOCK) : st.waitsOn K = some K.clock := by
  have h4 : ¬ st.a0 = PASSEREN := by
    rw [h7]
    decide
  exact (if_neg h4).trans (if_pos h7)

theorem State.waitsOn_entry (h8 : st.a0 = WAITIO) (hline : ¬ st.a1 < DISKINT) :
    st.waitsOn K = some (st.entry K) := by
  have h4 : ¬ st.a0 = PASSEREN := by
    rw [h8]
    decide
  have h7 : ¬ st.a0 = WAITCLOCK := by
    rw [h8]
    decide
  exact (if_neg h4).trans ((if_neg h7).trans (if_pos ⟨h8, hline⟩))

/-- Only SYS 7 waits for the clock's entry. -/
theorem Machine.UsesEntries.waitclock (hok : m.UsesEntries K (.syscall st))
    (huser : ¬ st.Privileged) (hon : st.waitsOn K = some K.clock) : st.a0 = WAITCLOCK := by
  unfold State.waitsOn at hon
  split_ifs at hon with h4 h7 h8
  · have hclock : st.a1 = K.clock := Option.some.inj hon
    have huserword := (hok.admits.sane huser).sem (.inr h4)
    exact absurd Layout.isDev_clock (hclock ▸ huserword.2.2)
  · exact h7
  · have hclock : st.entry K = K.clock := Option.some.inj hon
    exact absurd hclock (hok.names st rfl h8.1).entry_ne_clock

/-- No device signals the clock's entry. -/
theorem Machine.UsesEntries.shows_clock (hok : m.UsesEntries K e) :
    e.shows K K.clock = none := by
  cases e with
  | store | syscall | progTrap | tlbTrap => rfl
  | interrupt st interruptDev devReg =>
    apply if_neg
    rintro ⟨h3, hslot⟩
    obtain ⟨read, hdev, -, hidx⟩ := shown_hasDev hok.admits h3
    have hle := hok.shown st interruptDev devReg rfl h3
    rw [hidx] at hle hslot
    exact hdev.slot_ne_clock hle hslot

theorem lastState_of_ne (hcur : m.nuc.currentProc ≠ some p) :
    lastState p ((m, e) :: h) = lastState p h := by
  cases e with
  | syscall st => exact if_neg hcur
  | store | progTrap | tlbTrap | interrupt => rfl

/-- Who waits made its last call for the semaphore it waits for, and nobody passes the clock's. -/
structure CallersWait (K : Layout) (h : List (Machine × Event)) (a : Abs) : Prop where
  waits : ∀ w, ∀ p ∈ a.lk.blocked w, ∃ st, lastState p h = some st ∧ st.waitsOn K = some w ∧
    (st.a0 = WAITIO → st.Names)
  clock : (a.mem K.clock).toInt ≤ 0

theorem step_waits (hholds : m.Holds K l) (hok : m.UsesEntries K e)
    (hcalls : CallersWait K h (m.abs l)) (hp : p ∈ ((m.over l).step K e).nuc.lk.blocked w) :
    ∃ st, lastState p ((m, e) :: h) = some st ∧ st.waitsOn K = some w ∧
      (st.a0 = WAITIO → st.Names) := by
  obtain ⟨place, hpl⟩ := hholds.sound.inv.placed
  have hold : p ∈ l.blocked w → ∃ st, lastState p ((m, e) :: h) = some st ∧
      st.waitsOn K = some w ∧ (st.a0 = WAITIO → st.Names) := by
    intro hp
    rw [lastState_of_ne (hholds.not_runs hp)]
    exact hcalls.waits w p hp
  rcases step_queues hholds hok.admits with hshrinks | ⟨st, rfl, henters⟩
  · exact hold ((hshrinks w).subset hp)
  · rcases henters.takes w with hsub | ⟨hon, -⟩
    · exact hold (hsub.subset hp)
    · rcases List.mem_append.mp ((henters.queue w).subset hp) with hp | hp
      · exact hold hp
      · have hcur : m.nuc.currentProc = some p := Option.mem_toList.mp hp
        exact ⟨st, if_pos hcur, hon, hok.names st rfl⟩

theorem step_clock (hholds : m.Holds K l) (hok : m.UsesEntries K e)
    (hcalls : CallersWait K h (m.abs l)) :
    (((m.over l).step K e).nuc.mem K.clock).toInt ≤ 0 := by
  have hclock : (m.nuc.mem K.clock).toInt ≤ 0 := hcalls.clock
  by_cases htick : e.IsTick
  · cases e with
    | store | syscall | progTrap | tlbTrap => exact htick.elim
    | interrupt st interruptDev devReg =>
      have hline : findLineNo st.sCause = IVTIMINT := htick
      rw [interrupt_mem hok.admits rfl, if_pos hline, Function.update_self]
      decide
  · rcases step_dev hholds hok Layout.isDev_clock (fun ht => absurd ht htick) hok.shows_clock with
      hsame | ⟨st, rfl, huser, hon, hless⟩
    · rw [hsame]
      exact hclock
    · have hlow := hok.low st rfl (hok.waitclock huser hon)
      rw [hless, toInt_pred hlow]
      omega

theorem Reaches.callersWait (hrun : Reaches K (Machine.UsesEntries K) h m) :
    ∃ l, m.Holds K l ∧ CallersWait K h (m.abs l) := by
  refine hrun.induction (fun _ _ he => he.admits) (I := fun h am => CallersWait K h am.nuc) ?_ ?_
  · intro s _
    constructor
    · intro w p hp
      rw [(schedule_world _).blocked] at hp
      exact absurd hp List.not_mem_nil
    · rw [(schedule_world _).mem, Layout.clock, first_mem_dev _ (by decide)]
      decide
  · intro h m l e hholds hcalls hok
    exact ⟨fun w p hp => step_waits hholds hok hcalls hp, step_clock hholds hok hcalls⟩

/-! ## Every event -/

theorem Machine.Wakes.from_device (hwakes : m.Wakes K p e) (hholds : m.Holds K l)
    (hcalls : CallersWait K h (m.abs l)) (hok : m.UsesEntries K e)
    (hlast : lastState p h = some st) (h8 : st.a0 = WAITIO) :
    e.IsFrom st.a1.toNat st.a2.toNat st.half := by
  have hp := hholds.blocked_of_semAdd hwakes.waits
  obtain ⟨st', hlast', hon, hnames⟩ := hcalls.waits _ p hp
  obtain rfl : st = st' := Option.some.inj (hlast.symm.trans hlast')
  have hst := hnames h8
  rw [State.waitsOn_entry h8 hst.line, Option.some.injEq] at hon
  rw [← hon] at hp
  rcases hwakes.cause hholds hok hp hst.isDev with ⟨-, hclock⟩ | ⟨b, hb⟩
  · exact absurd hclock hst.entry_ne_clock
  · cases e with
    | store | syscall | progTrap | tlbTrap => exact absurd hb (by simp [Event.shows])
    | interrupt s interruptDev devReg =>
      simp only [Event.shows] at hb
      split_ifs at hb with hslot
      obtain ⟨read, hdev, hread, hidx⟩ := shown_hasDev hok.admits hslot.1
      have hentry := hslot.2
      rw [hidx, entry_eq] at hentry
      obtain ⟨hl, hd, hr⟩ := hdev.slot_inj hst.hasDev hentry
      refine ⟨hl, by rw [← hl]; exact hd, fun h7 => ?_⟩
      have hline : findLineNo s.sCause = 7 := hl.trans h7
      have hfour : (7 : Int) - 3 = 4 := rfl
      obtain ⟨hsome, hbusy⟩ := hok.halves s interruptDev devReg rfl hline
      rw [hline, hfour] at hd hread
      rw [hd] at hsome hbusy hread
      rw [ack_chosen] at hread
      exact ⟨_, hread.symm.trans hr, (Halves.completed_chosen_iff hsome).mpr hbusy⟩

theorem Machine.Wakes.from_clock (hwakes : m.Wakes K p e) (hholds : m.Holds K l)
    (hcalls : CallersWait K h (m.abs l)) (hok : m.UsesEntries K e)
    (hlast : lastState p h = some st) (h7 : st.a0 = WAITCLOCK) : e.IsTick := by
  have hp := hholds.blocked_of_semAdd hwakes.waits
  obtain ⟨st', hlast', hon, -⟩ := hcalls.waits _ p hp
  obtain rfl : st = st' := Option.some.inj (hlast.symm.trans hlast')
  rw [State.waitsOn_clock h7, Option.some.injEq] at hon
  rw [← hon] at hp
  rcases hwakes.cause hholds hok hp Layout.isDev_clock with ⟨htick, -⟩ | ⟨b, hb⟩
  · exact htick
  · rw [hok.shows_clock] at hb
    exact absurd hb (by simp)

theorem Machine.Holds.waitclock_blocks (hholds : m.Holds K l) (hcalls : CallersWait K h (m.abs l))
    (hok : m.UsesEntries K (.syscall st)) (huser : ¬ st.Privileged) (h7 : st.a0 = WAITCLOCK)
    (hcur : m.nuc.currentProc = some p) :
    (m.step K (.syscall st)).nuc.pcb.pSemAdd p = K.clock := by
  have hclock : (m.nuc.mem K.clock).toInt ≤ 0 := hcalls.clock
  have hneg : (m.nuc.mem K.clock - 1).toInt < 0 := by
    rw [toInt_pred (hok.low st rfl h7)]
    omega
  obtain ⟨q, l', hq, -, hacc, hblocked⟩ :=
    hholds.waits hok.admits huser (State.waitsOn_clock h7) hneg
  obtain rfl : p = q := Option.some.inj (hcur.symm.trans hq)
  have hmem : p ∈ l'.blocked K.clock := by
    rw [hblocked, Function.update_self]
    simp
  obtain ⟨place, hat, hsem⟩ := hacc.place p
  exact hsem K.clock ((hat.blocked K.clock).mp hmem)

theorem Machine.Holds.tick_releases (hholds : m.Holds K l) (hok : m.Admits K e) (htick : e.IsTick)
    (p : Pcb) : (m.step K e).nuc.pcb.pSemAdd p ≠ K.clock := by
  intro hp
  obtain ⟨l', hholds', hover⟩ := hholds.step hok
  have hnull : (m.step K e).nuc.pcb.pSemAdd p ≠ NULL := by
    rw [hp]
    exact fun heq => Layout.not_isDev_null (heq ▸ Layout.isDev_clock)
  have hmem := hholds'.blocked_of_semAdd hnull
  have hlk : l' = ((m.over l).step K e).nuc.lk := congrArg (fun am : AbsMachine => am.nuc.lk) hover
  rw [hp, hlk] at hmem
  cases e with
  | store | syscall | progTrap | tlbTrap => exact htick.elim
  | interrupt st interruptDev devReg =>
    let a : Abs := { m.abs l with
      intOld := st, interruptDev := interruptDev, devReg := devReg }
    have hstep : (m.over l).step K (.interrupt st interruptDev devReg) = a.interrupt K :=
      if_pos hok.takes
    rw [hstep, Abs.interrupt_ivtim (a := a) htick, (leaveHandler_world _ _).blocked,
      clockTick_queues, Function.update_self] at hmem
    exact List.not_mem_nil hmem

theorem Machine.UsesEntries.inside (hok : m.UsesEntries K e) (hholds : m.Holds K l)
    (hw : e.entry K = some w) :
    K.IsDev w ∧ ∃ v, (m.step K e).nuc.mem = Function.update m.nuc.mem w v := by
  cases e with
  | store | progTrap | tlbTrap => exact absurd hw (by simp [Event.entry])
  | syscall st =>
    simp only [Event.entry] at hw
    split_ifs at hw with hcall
    obtain ⟨huser, h8, hline⟩ := hcall
    obtain rfl : st.entry K = w := Option.some.inj hw
    exact ⟨(hok.names st rfl h8).isDev, _, waitio_mem m hok.admits.takes huser h8 hline⟩
  | interrupt st interruptDev devReg =>
    obtain ⟨l', -, hover⟩ := hholds.step hok.admits
    have hmem : (m.step K (.interrupt st interruptDev devReg)).nuc.mem =
        ((m.over l).step K (.interrupt st interruptDev devReg)).nuc.mem :=
      congrArg (fun am : AbsMachine => am.nuc.mem) hover
    rw [hmem, interrupt_mem hok.admits rfl]
    simp only [Event.entry] at hw
    split_ifs at hw ⊢ with h2 h3
    · obtain rfl : K.clock = w := Option.some.inj hw
      exact ⟨Layout.isDev_clock, _, rfl⟩
    · obtain rfl := Option.some.inj hw
      exact ⟨Layout.isDev_semDev (hok.admits.sane.dev h3).2, _, rfl⟩

theorem Machine.Holds.quantum_mem (hholds : m.Holds K l) {interruptDev : Int → Word}
    {devReg : Word → Device} (hok : m.Admits K (.interrupt st interruptDev devReg))
    (hnone : (Event.interrupt st interruptDev devReg).entry K = none) :
    (m.step K (.interrupt st interruptDev devReg)).nuc.mem = m.nuc.mem := by
  obtain ⟨l', -, hover⟩ := hholds.step hok
  have hmem : (m.step K (.interrupt st interruptDev devReg)).nuc.mem =
      ((m.over l).step K (.interrupt st interruptDev devReg)).nuc.mem :=
    congrArg (fun am : AbsMachine => am.nuc.mem) hover
  rw [hmem, interrupt_mem hok rfl]
  simp only [Event.entry] at hnone
  split_ifs at hnone ⊢
  rfl

/-- In every run in which only entries before the clock's are used, waits for devices and for
the clock are kept apart. -/
theorem waits_kept_apart (hrun : Reaches K (Machine.UsesEntries K) h m) (hok : m.UsesEntries K e) :
    KeptApart K h m e := by
  obtain ⟨l, hholds, hcalls⟩ := hrun.callersWait
  constructor
  case device =>
    exact fun p st hlast h8 hwakes => hwakes.from_device hholds hcalls hok hlast h8
  case clock =>
    exact fun p st hlast h7 hwakes => hwakes.from_clock hholds hcalls hok hlast h7
  case blocks =>
    rintro p st rfl huser h7 hcur
    exact hholds.waitclock_blocks hcalls hok huser h7 hcur
  case releases => exact hholds.tick_releases hok.admits
  case inside => exact fun w hw => hok.inside hholds hw
  case outside =>
    rintro st interruptDev devReg rfl hnone
    exact hholds.quantum_mem hok.admits hnone

/-! ## A disk, and terminal 5 -/

theorem usesEntries_diskCall (hplain : m.Plain .sample (.syscall diskCall)) :
    m.UsesEntries .sample (.syscall diskCall) := by
  constructor
  case admits => exact hplain.admits
  case names =>
    rintro st hst -
    obtain rfl := Event.syscall.inj hst
    decide
  case low =>
    intro st hst h7
    obtain rfl := Event.syscall.inj hst
    exact absurd h7 (by decide)
  case areas =>
    intro k st p w htrap
    have huser : ¬ diskCall.Privileged := by decide
    have hrange : CREATEPROCESS ≤ diskCall.a0 ∧ diskCall.a0 ≤ WAITIO := by decide
    simp only [Event.trap, if_neg huser, if_pos hrange] at htrap
    exact absurd htrap (by simp)
  all_goals simp

theorem usesEntries_disk (hplain : m.Plain .sample (.disk resetState READY)) :
    m.UsesEntries .sample (.disk resetState READY) := by
  constructor
  case admits => exact hplain.admits
  case shown =>
    rintro st interruptDev devReg he -
    obtain ⟨rfl, rfl, rfl⟩ := Event.interrupt.inj he
    decide
  case halves =>
    intro st interruptDev devReg he h7
    obtain ⟨rfl, rfl, rfl⟩ := Event.interrupt.inj he
    exact absurd h7 (by decide)
  case areas => exact fun k st p w htrap => absurd htrap (by simp [Event.disk, Event.trap])
  all_goals simp [Event.disk]

/-- The first process waits for the disk, and the disk interrupts. -/
theorem waits_kept_apart_disk :
    KeptApart .sample [(boot .sample .sample, .syscall diskCall)] diskAwaited
      (.disk resetState READY) := by
  have hwait : diskAwaited.cpu = .wait := by decide +kernel
  have hcall := usesEntries_diskCall (m := boot .sample .sample) (diskCall_plain ⟨_, boot_cpu _ _⟩)
  have hdisk := usesEntries_disk (m := diskAwaited) (disk_plain (.inr hwait))
  exact waits_kept_apart (.next (.start ⟨.sample, rfl, rfl⟩) hcall) hdisk

theorem Machine.Holds.wakes (hholds : (m.step K e).Holds K l)
    (hwaits : m.nuc.pcb.pSemAdd p ≠ NULL) (hruns : (m.step K e).nuc.currentProc = some p) :
    m.Wakes K p e := by
  refine ⟨hwaits, ?_, hholds.alive_of_runs hruns⟩
  obtain ⟨place, hpl⟩ := hholds.sound.inv.placed
  have hplace : place p = .running := (hpl.spot p).running.mp hruns
  have hsem : (m.step K e).nuc.pcb.pSemAdd p = (place p).semAdd := hpl.semAdd p
  rw [hsem, hplace]
  rfl

def receiverCall : State := .call WAITIO 7 5 1

def receiverAwaited : Machine := (boot .sample .sample).step .sample (.syscall receiverCall)

theorem receiverCall_plain : (boot .sample .sample).Plain .sample (.syscall receiverCall) := by
  refine ⟨⟨_, boot_cpu _ _⟩, ?_⟩
  constructor
  case user => decide
  case call => exact .inr (.inr (.inr (.inr (.inr rfl))))
  case device => decide
  case slot => decide
  all_goals exact fun h => absurd h (by decide)

theorem tick_plain (htakes : m.cpu.Takes (.tick resetState)) :
    m.Plain .sample (.tick resetState) :=
  ⟨htakes, by decide, fun h => absurd h (by decide)⟩

/-- The entry of the receiver of terminal 5 is the clock's, and a tick wakes the process. -/
theorem tick_wakes_receiver : HasDev 7 5 1 ∧
    Reaches .sample (Machine.Admits .sample)
      [(boot .sample .sample, .syscall receiverCall)] receiverAwaited ∧
    receiverAwaited.Admits .sample (.tick resetState) ∧
    ¬ KeptApart .sample [(boot .sample .sample, .syscall receiverCall)] receiverAwaited
      (.tick resetState) := by
  have hwait : receiverAwaited.cpu = .wait := by decide +kernel
  have hcall := receiverCall_plain.admits
  have htick := (tick_plain (m := receiverAwaited) (.inr hwait)).admits
  have hrun : Reaches .sample (Machine.Admits .sample)
      [(boot .sample .sample, .syscall receiverCall)] receiverAwaited :=
    .next (.start ⟨.sample, rfl, rfl⟩) hcall
  refine ⟨⟨by decide, by decide, .inr ⟨rfl, rfl⟩⟩, hrun, htick, fun hkept => ?_⟩
  obtain ⟨l, hholds⟩ := hrun.holds fun _ _ he => he
  obtain ⟨l', hholds', -⟩ := hholds.step htick
  have hsem : receiverAwaited.nuc.pcb.pSemAdd Abs.firstPcb = Layout.sample.clock := by
    decide +kernel
  have hnull : receiverAwaited.nuc.pcb.pSemAdd Abs.firstPcb ≠ NULL := by
    rw [hsem]
    decide
  have hwakes := hholds'.wakes hnull (by decide +kernel)
  have hlast : lastState Abs.firstPcb [(boot .sample .sample, .syscall receiverCall)] =
      some receiverCall := if_pos boot_current
  have hfrom := hkept.device Abs.firstPcb receiverCall hlast rfl hwakes
  exact absurd hfrom.1 (by decide)

end Kaya
