import Kaya.Phase3.Proofs.LockRules

/-!
# The rules for devices

Each process has a tape and a terminal of its own, and the semaphore of its terminal.  The pager
may interrupt `writeToTerminal`, and goes back to where it did.
-/

namespace Kaya.Phase3

open Lib Lib.Program

def termSem (p : Word) : Sem := .devSemArray (DEVCNT * (TERMINT - DEVINTOFFSET) + TERMCNT * (p - 1))

def termReg (p : Word) : Word := getDeviceReg TERMINT (p - 1)

def tapeReg (p : Word) : Word := getDeviceReg TAPEINT (p - 1)

/-- What process `p` may do that holds the semaphore of its terminal, or does not. -/
def Act.Permitted (p : Word) (g : Bool) : Act → Prop
  | .passeren x => x.IsMutex ∨ x = termSem p ∧ g = false
  | .verhogen x => x.IsMutex ∨ x = .masterSem ∨ x = termSem p ∧ g = true
  | .waitio l d u => u = 0 ∧
      (l = DISKINT ∧ d = 0 ∨ l = TAPEINT ∧ d = p - 1 ∨ l = TERMINT ∧ d = p - 1 ∧ g = true)
  | .createprocess _ _ => False
  | .spectrapvec trap new => new.sPc = trap.entry ∧ asidOf new.sAsid = p
  | .setCommand reg _ | .setData0 reg _ => reg = Sys.disk0Reg ∨ reg = tapeReg p
  | .setData1 reg _ => reg = termReg p ∧ g = true
  | .getData1 reg => reg = tapeReg p
  | .load _ => g = true
  | _ => True

/-- The ghost state says whether the process holds the semaphore of its terminal.  A process that
is `trapped` runs code that must not trap itself. -/
def deviceRules (trapped : Bool) (p : Word) (E : Bool → Leave → Prop) :
    Discipline Act Word Leave View Bool where
  may g a := a.Permitted p g ∧ (trapped = true → ∀ virtAddr, a ≠ .load virtAddr)
  admits _ a r _ := a = .getENTRYHI → asidOf r = p
  next g a _ _ :=
    match a with
    | .passeren x => if x = termSem p then true else g
    | .verhogen x => if x = termSem p then false else g
    | _ => g
  leave := E

/-- What a process may do whatever it holds. -/
def Act.Common (p : Word) : Act → Prop
  | .passeren x => x.IsMutex
  | .verhogen x => x.IsMutex ∨ x = .masterSem
  | .waitio l d u => u = 0 ∧ (l = DISKINT ∧ d = 0 ∨ l = TAPEINT ∧ d = p - 1)
  | .setCommand reg _ | .setData0 reg _ => reg = Sys.disk0Reg ∨ reg = tapeReg p
  | .getData1 reg => reg = tapeReg p
  | .createprocess _ _ | .spectrapvec _ _ | .setData1 _ _ | .load _ => False
  | _ => True

variable {α : Type} {p : Word} {trapped g : Bool} {E : Bool → Leave → Prop} {a : Act}
  {P' : Leave → Prop}

theorem isMutex_ne_termSem (hp : p < 64) {x : Sem} (hx : x.IsMutex) : x ≠ termSem p := by
  rcases hx with rfl | rfl
  · exact nofun
  · exact (terminalSem_ne hp).symm

theorem Act.Common.follows (hp : p < 64) (ha : a.Common p) : (deviceRules trapped p E).may g a ∧
    ∀ r x, (deviceRules trapped p E).admits g a r x → (deviceRules trapped p E).next g a r x = g := by
  cases a with
  | passeren x => exact ⟨⟨.inl ha, nofun⟩, fun _ _ _ => if_neg (isMutex_ne_termSem hp ha)⟩
  | verhogen x =>
    refine ⟨⟨ha.imp_right .inl, nofun⟩, fun _ _ _ => if_neg ?_⟩
    rcases ha with hx | rfl
    · exact isMutex_ne_termSem hp hx
    · exact nofun
  | waitio l d u => exact ⟨⟨⟨ha.1, ha.2.imp_right .inl⟩, nofun⟩, fun _ _ _ => rfl⟩
  | createprocess | spectrapvec | setData1 | load => exact ha.elim
  | setCommand | setData0 | getData1 => exact ⟨⟨ha, nofun⟩, fun _ _ _ => rfl⟩
  | _ => exact ⟨⟨trivial, nofun⟩, fun _ _ _ => rfl⟩

/-- Code that does nothing with the terminal. -/
theorem common_follows (hp : p < 64) {x : SupM α} (hx : x.Only (Act.Common p) P')
    (hE : ∀ l, P' l → E g l) : Follows (deviceRules trapped p E) x g fun _ g' => g' = g :=
  hx.follows (fun _ ha => ha.follows hp) hE

theorem common_issue (hp : p < 64) (ha : a.Common p) {f : Unit → SupM α} {Q : α → Bool → Prop}
    (hf : Follows (deviceRules trapped p E) (f ()) g Q) :
    Follows (deviceRules trapped p E) (Program.issue a >>= f) g Q := by
  have hfollows : (deviceRules trapped p E).may g a ∧ ∀ r x,
      (deviceRules trapped p E).admits g a r x → (deviceRules trapped p E).next g a r x = g :=
    ha.follows hp
  obtain ⟨hmay, hnext⟩ := hfollows
  refine .issue hmay fun r x hr => ?_
  rw [hnext r x hr]
  exact hf

/-! ## The functions of phase 3 -/

theorem disableInts_common (disable : Bool) : (disableInts disable).Only (Act.Common p) P' := by
  cases disable <;> exact ⟨trivial, fun _ => ⟨trivial, fun _ => trivial⟩⟩

theorem diskIO_common (hP : P' .terminate) (sector cyl head memBuf command : Word) :
    ( diskIO sector cyl head disk0sem 0 memBuf command).Only (Act.Common p) P' := by
  have hreg : getDeviceReg DISKINT 0 = Sys.disk0Reg := rfl
  refine ⟨.inr rfl, fun _ => (disableInts_common true).bind fun _ => ?_⟩
  refine ⟨.inl hreg, fun _ => ⟨⟨rfl, .inl ⟨rfl, rfl⟩⟩, fun status => ?_⟩⟩
  refine (disableInts_common false).bind fun _ => .ite (fun _ => hP) fun _ => ?_
  refine (disableInts_common true).bind fun _ => ⟨.inl hreg, fun _ => ⟨.inl hreg, fun _ => ?_⟩⟩
  refine ⟨⟨rfl, .inl ⟨rfl, rfl⟩⟩, fun status => (disableInts_common false).bind fun _ => ?_⟩
  exact .ite (fun _ => hP) fun _ => ⟨.inl (.inr rfl), fun _ => trivial⟩

theorem tapeToDisk_common (hP : P' .terminate) (i : Word) (hagain : ∀ i, P' (.again p i)) :
    (tapeToDisk p i).Only (Act.Common p) P' := by
  have htape : (onTape (tapeReg p)).Only (Act.Common p) P' :=
    ⟨rfl, fun _ => Only.ite (fun _ => trivial) fun _ => ⟨rfl, fun _ => trivial⟩⟩
  refine htape.bind fun more => ?_
  cases more with
  | false => exact trivial
  | true =>
    refine ⟨.inr rfl, fun _ => ⟨.inr rfl, fun _ => ⟨⟨rfl, .inr ⟨rfl, rfl⟩⟩, fun status => ?_⟩⟩⟩
    refine .ite (fun _ => hP) fun _ => (diskIO_common hP _ _ _ _ _).bind fun _ => hagain _

theorem setTrap_devices {f : Unit → SupM α} {Q : α → Bool → Prop} (asid i : Word) (trap : Trap)
    (hf : Follows (deviceRules trapped p E) (f ()) g Q) :
    Follows (deviceRules trapped p E) (setTrap asid i trap trap.entry >>= f) g Q :=
  .perform ⟨trivial, nofun⟩ fun _ _ hr => ⟨⟨⟨rfl, hr rfl⟩, nofun⟩, fun _ _ _ => hf⟩

theorem uProcInitFrom_devices (hp : p < 64) (hterm : E false .terminate)
    (hagain : ∀ i, E false (.again p i)) (huser : ∀ asid sp st pc, E false (.user asid sp st pc))
    (i : Word) {Q : Unit → Bool → Prop} :
    Follows (deviceRules trapped p E) (uProcInitFrom p i) false Q := by
  have htape : (tapeToDisk p i).Only (Act.Common p) (E false) := tapeToDisk_common hterm i hagain
  refine (common_follows hp htape fun _ h => h).bind ?_
  rintro _ _ rfl
  refine setTrap_devices p TLBTRAP .tlb ?_
  refine setTrap_devices p PROGTRAP .pgm ?_
  refine setTrap_devices p SYSTRAP .sys ?_
  exact .perform ⟨trivial, nofun⟩ fun _ _ _ => huser ..

theorem tables_common {x : SupM α} {P'' : Leave → Prop} (hx : x.Only Act.IsTables P'')
    (hP : ∀ l, P'' l → P' l) : x.Only (Act.Common p) P' := by
  induction x with
  | done a => exact trivial
  | leave l => exact hP l hx
  | act a k ih =>
    refine ⟨?_, fun r => ih r (hx.2 r)⟩
    cases a with
    | tables f => exact trivial
    | _ => exact hx.1.elim

/-- The process ends, and does not come back. -/
theorem terminateUserProc_devices (hp : p < 64) (hE : E g .terminateprocess) (entryHi : Word)
    {Q : Unit → Bool → Prop} :
    Follows (deviceRules trapped p E) (terminateUserProc entryHi) g Q := by
  have hfree : ((List.range POOLSIZE).forM fun i =>
      freeFrame (asidOf entryHi) (BitVec.ofNat 32 i)).Only (Act.Common p) (E g) :=
    tables_common (freeFrames_only _ _) fun _ => False.elim
  refine common_issue hp (a := .passeren .swapPoolSem) (.inl rfl) ?_
  refine (common_follows hp hfree fun _ h => h).bind ?_
  rintro _ _ rfl
  refine common_issue hp (a := .TLBCLR) trivial ?_
  refine common_issue hp (a := .verhogen .swapPoolSem) (.inl (.inl rfl)) ?_
  exact common_issue hp (a := .verhogen .masterSem) (.inr rfl) hE

theorem transmit_devices (virtAddr : Word) (n : Nat) (i status : Word) :
    Follows (deviceRules false p E) (transmit p virtAddr n i status) true
      fun _ g' => g' = true := by
  have hints : ∀ b, Follows (deviceRules false p E) (disableInts b) true fun _ g' => g' = true := by
    intro b
    cases b <;> exact ⟨⟨trivial, nofun⟩, fun _ _ _ => ⟨⟨trivial, nofun⟩, fun _ _ _ => rfl⟩⟩
  induction n generalizing i status with
  | zero => rfl
  | succ n ih =>
    refine (hints true).bind ?_
    rintro _ _ rfl
    refine .perform ⟨rfl, nofun⟩ fun _ _ _ => .issue ⟨⟨rfl, rfl⟩, nofun⟩ fun _ _ _ => ?_
    refine .perform ⟨⟨rfl, .inr (.inr ⟨rfl, rfl, rfl⟩)⟩, nofun⟩ fun status _ _ => ?_
    refine (hints false).bind ?_
    rintro _ _ rfl
    exact .ite (fun _ => rfl) fun _ => ih ..

theorem writeToTerminal_devices (junk : Word) {entryHi : Word} (hasid : asidOf entryHi = p)
    (state : State) (hterm : ∀ g, E g .terminateprocess)
    (hldst : ∀ st, E false (.ldst .sys st)) {Q : Unit → Bool → Prop} :
    Follows (deviceRules false p E) (writeToTerminal junk entryHi state) false Q := by
  have hp : p < 64 := hasid ▸ asidOf_lt entryHi
  have hrest : Follows (deviceRules false p E) (do
      passeren (termSem p)
      let status ← transmit p state.a1 state.a2.toNat 0 junk
      verhogen (termSem p)
      leave (.ldst .sys (state.setV0 status)) : SupM Unit) false Q := by
    refine .issue ⟨.inr ⟨rfl, rfl⟩, nofun⟩ fun _ _ _ => ?_
    have hnext : ∀ r x, (deviceRules false p E).next false (.passeren (termSem p)) r x = true :=
      fun _ _ => if_pos rfl
    rw [hnext]
    refine (transmit_devices _ _ _ _).bind ?_
    rintro status _ rfl
    refine .issue ⟨.inr (.inr ⟨rfl, rfl⟩), nofun⟩ fun _ _ _ => ?_
    have hnext' : ∀ r x, (deviceRules false p E).next true (.verhogen (termSem p)) r x = false :=
      fun _ _ => if_pos rfl
    rw [hnext']
    exact hldst _
  unfold writeToTerminal
  rw [hasid]
  refine .ite (fun _ => ?_) fun _ => hrest
  exact (terminateUserProc_devices hp (hterm false) entryHi).bind fun _ _ (h : False) => h.elim

theorem userSyscallHandler_devices (junk : Word) {entryHi : Word} (hasid : asidOf entryHi = p)
    (state : State) (hterm : ∀ g, E g .terminateprocess)
    (hldst : ∀ st, E false (.ldst .sys st)) {Q : Unit → Bool → Prop} :
    Follows (deviceRules false p E) (userSyscallHandler junk entryHi state) false Q := by
  have hp : p < 64 := hasid ▸ asidOf_lt entryHi
  refine .ite (fun _ => writeToTerminal_devices junk hasid state hterm hldst) fun _ => ?_
  exact .ite (fun _ => terminateUserProc_devices hp (hterm false) entryHi) fun _ =>
    terminateUserProc_devices hp (hterm false) entryHi

section Pager

theorem evict_common (hP : P' .terminate) (fNo swapLoc : Word) :
    (evict fNo swapLoc).Only (Act.Common p) P' := by
  refine (disableInts_common true).bind fun _ => ⟨trivial, fun _ => ⟨trivial, fun _ => ?_⟩⟩
  refine ⟨trivial, fun _ => ⟨trivial, fun _ => (disableInts_common false).bind fun _ => ?_⟩⟩
  exact diskIO_common hP ..

theorem enterPage_common (asid segment missingPage vPageNo fNo swapLoc : Word) :
    (enterPage asid segment missingPage vPageNo fNo swapLoc).Only (Act.Common p) P' := by
  refine (disableInts_common true).bind fun _ => ⟨trivial, fun _ => ⟨trivial, fun _ => ?_⟩⟩
  refine ⟨trivial, fun _ => ⟨trivial, fun _ => ⟨trivial, fun _ => ⟨trivial, fun _ => ?_⟩⟩⟩⟩
  exact disableInts_common false

theorem bringIn_common (hP : P' .terminate) (K : Layout) (asid segment missingPage vPageNo : Word) :
    (bringIn K asid segment missingPage vPageNo).Only (Act.Common p) P' := by
  have hframe : getFrame.Only (Act.Common p) P' := tables_common getFrame_only fun _ => False.elim
  refine hframe.bind fun fNo => ⟨trivial, fun _ => ?_⟩
  have hload : (do
      diskIO (asid - 1) vPageNo 0 disk0sem 0 (frameAddr K fNo) READBLK
      enterPage asid segment missingPage vPageNo fNo (frameAddr K fNo) : SupM Unit).Only
        (Act.Common p) P' := (diskIO_common hP _ _ _ _ _).bind fun _ => enterPage_common ..
  exact .ite (fun _ => (evict_common hP _ _).bind fun _ => hload) fun _ => hload

/-- The pager goes back to where it interrupted the process, or has it ended. -/
theorem pager_devices (hp : p < 64) (hterm : E g .terminate) (K : Layout) (entryHi : Word)
    {oldTLB : State} (hldst : E g (.ldst .tlb oldTLB)) {Q : Unit → Bool → Prop} :
    Follows (deviceRules trapped p E) (pager K entryHi oldTLB) g Q := by
  have hend : ∀ l, E g l →
      Follows (deviceRules trapped p E) (verhogen .swapPoolSem >>= fun _ => leave l) g Q :=
    fun l hl => common_issue hp (a := .verhogen .swapPoolSem) (.inl (.inl rfl)) hl
  have hrest : ∀ asid segment missingPage vPageNo, Follows (deviceRules trapped p E) (do
      bringIn K asid segment missingPage vPageNo
      verhogen .swapPoolSem
      leave (.ldst .tlb oldTLB)) g Q := by
    intro asid segment missingPage vPageNo
    have hin : (bringIn K asid segment missingPage vPageNo).Only (Act.Common p) (E g) :=
      bringIn_common hterm ..
    refine (common_follows hp hin fun _ h => h).bind ?_
    rintro _ _ rfl
    exact hend _ hldst
  refine common_issue hp (a := .passeren .swapPoolSem) (.inl rfl) ?_
  refine .ite (fun _ => hend _ hterm) fun _ => .ite (fun _ => ?_) fun _ => hrest ..
  refine .perform ⟨trivial, nofun⟩ fun _ _ _ => .ite (fun _ => ?_) fun _ => hrest ..
  exact hend _ hldst

end Pager

/-! ## `test` -/

/-- `test` waits for its processes when it has created all of them; the ghost state says which
were. -/
def creatorRules : Discipline Act Word Leave View (Word → Bool) where
  may g
    | .passeren x => x = .masterSem ∧ ∀ p : Word, 0 < p.toNat → p.toNat ≤ MAXUPROC → g p = true
    | .createprocess _ _ => True
    | _ => False
  admits _ _ _ _ := True
  next g
    | .createprocess sAsid _, _, _ => Function.update g (asidOf sAsid) true
    | _, _, _ => g
  leave _ l := l = .terminateprocess

theorem createUProc_creates (i : Nat) (g : Word → Bool) :
    Follows creatorRules (createUProc i) g fun _ g' =>
      g' = Function.update g (asidOf (BitVec.ofNat 32 i <<< 6)) true :=
  .perform trivial fun _ _ _ => .ite (fun _ => (rfl : Leave.terminateprocess = _)) fun _ => rfl

theorem test_creates {Q : Unit → (Word → Bool) → Prop} :
    Follows creatorRules test (fun _ => false) Q := by
  have hall : ∀ p : Word, 0 < p.toNat → p.toNat ≤ MAXUPROC →
      Function.update (Function.update (fun _ => false) 1 true) 2 true p = true := by
    intro p hpos hle
    have hmax : MAXUPROC = 2 := rfl
    have hcases : p = 1 ∨ p = 2 := by bv_omega
    rcases hcases with rfl | rfl <;> decide
  refine ((createUProc_creates 1 _).bind fun _ _ h1 => (createUProc_creates 2 _).bind
    fun _ _ h2 => ?_).bind (P := fun _ g => g = Function.update (Function.update (fun _ => false) 1 true)
      2 true) ?_
  · rw [h2, h1]
    rfl
  · rintro _ _ rfl
    exact ⟨⟨rfl, hall⟩, fun _ _ _ => ⟨⟨rfl, hall⟩, fun _ _ _ => rfl⟩⟩

end Kaya.Phase3
