import Kaya.Phase3.Proofs.Live

/-!
# The rules for disk 0

What a process may do with the disk, by where it is in a call of `diskIO`.
-/

namespace Kaya.Phase3

open Lib Lib.Program

/-- Where a process is in a call of `diskIO`; `w` is the command with which it sought its
cylinder, `shut` says that it disabled the interrupts. -/
inductive Stage where
  | out
  | owned (shut : Bool)
  | seeking (w : Word)
  | positioned (w : Word) (shut : Bool)
  | loaded (w : Word) (shut : Bool)
  | moving (w : Word)
  | finished
  /-- After a status that is not `READY`. -/
  | lost
  deriving DecidableEq

namespace Stage

def setShut (b : Bool) : Stage → Stage
  | owned _ => owned b
  | positioned w _ => positioned w b
  | loaded w _ => loaded w b
  | g => g

def Busy : Stage → Prop
  | seeking _ | moving _ => True
  | _ => False

def Quiet (g : Stage) : Prop := g = out ∨ g = lost

def answered (status : Word) : Stage → Stage
  | seeking w => if status = READY then positioned w true else lost
  | moving _ => if status = READY then finished else lost
  | g => g

end Stage

def OnDisk0 (lineNo devNo read : Word) : Prop :=
  ¬ lineNo < DISKINT ∧ waitioIndex lineNo devNo read = 0

instance (l d u : Word) : Decidable (OnDisk0 l d u) := inferInstanceAs (Decidable (_ ∧ _))

def Act.Foreign : Act → Prop
  | .passeren x | .verhogen x => x ≠ disk0sem
  | .waitio l d u => ¬ OnDisk0 l d u
  | .setCommand reg _ | .setData0 reg _ | .setData1 reg _ => reg ≠ Sys.disk0Reg
  | .spectrapvec trap new => new.sPc = trap.entry
  | _ => True

def Leave.Fits : Leave → Prop
  | .again asid _ => asid < 64
  | _ => True

def diskRules : Discipline Act Word Leave View Stage where
  may g
    | .passeren x => if x = disk0sem then g = .out else g.Quiet
    | .verhogen x => if x = disk0sem then g = .finished else g.Quiet
    | .waitio l d u => if OnDisk0 l d u then g.Busy else g.Quiet
    | .setCommand reg v =>
        if reg = Sys.disk0Reg then
          g = .owned true ∧ opOf v = SEEKCYL ∨ ∃ w, g = .loaded w true
        else g.Quiet
    | .setData0 reg _ =>
        if reg = Sys.disk0Reg then ∃ w b, g = .positioned w b else g.Quiet
    | .setData1 reg _ => reg ≠ Sys.disk0Reg ∧ g.Quiet
    | .getSTATUS | .setSTATUS _ => ¬ g.Busy
    | .load _ => g = .out
    | .spectrapvec trap new => g = .out ∧ new.sPc = trap.entry
    | _ => g.Quiet
  admits g
    | .setCommand reg _, _, x => reg = Sys.disk0Reg → ∀ w b, g = .loaded w b → x.cyl = cylOf w
    | _, _, _ => True
  next g
    | .passeren x, _, _ => if x = disk0sem then .owned false else g
    | .verhogen x, _, _ => if x = disk0sem then .out else g
    | .waitio l d u, r, _ => if OnDisk0 l d u then g.answered r else g
    | .setCommand reg v, _, _ =>
        if reg = Sys.disk0Reg then
          match g with
          | .loaded w _ => .moving w
          | _ => .seeking v
        else g
    | .setData0 reg _, _, _ =>
        if reg = Sys.disk0Reg then
          match g with
          | .positioned w b => .loaded w b
          | _ => g
        else g
    | .setSTATUS status, _, _ => g.setShut (status &&& 1 = 0)
    | _, _, _ => g
  leave g
    | .terminate | .terminateprocess => g.Quiet
    | l => g = .out ∧ l.Fits

variable {α : Type} {g : Stage} {a : Act}

theorem masked_shut (status : Word) : (status &&& 0xFFFF00FE) &&& 1 = 0 := by
  rw [BitVec.and_assoc]
  exact BitVec.and_zero

theorem disableInts_true_follows (h : ¬ g.Busy) :
    Follows diskRules (disableInts true) g fun _ g' => g' = g.setShut true := by
  refine ⟨h, fun r x _ => ?_⟩
  refine ⟨h, fun _ _ _ => ?_⟩
  have hshut : decide ((r &&& 0xFFFF00FE) &&& 1 = 0) = true := decide_eq_true (masked_shut r)
  exact congrArg g.setShut hshut

theorem disableInts_false_follows (h : ¬ g.Busy) :
    Follows diskRules (disableInts false) g fun _ g' => ∃ b, g' = g.setShut b := by
  refine ⟨h, fun r x _ => ?_⟩
  exact ⟨h, fun _ _ _ => ⟨_, rfl⟩⟩

/-- The command in progress ends, and the call goes on if the status is `READY`. -/
theorem completed_follows {n : Stage} {f : Unit → SupM α} {Q : α → Stage → Prop} (h : g.Busy)
    (hans : ∀ status, g.answered status = if status = READY then n else .lost)
    (hn : ¬ n.Busy) (hf : ∀ b, Follows diskRules (f ()) (n.setShut b) Q) :
    Follows diskRules ( waitForIO DISKINT 0 0 >>= fun status => disableInts false >>= fun _ =>
      if status ≠ READY then leave .terminate >>= f else f ()) g Q := by
  refine .perform h fun status _ _ => ?_
  change Follows diskRules _ (g.answered status) Q
  rw [hans]
  by_cases hready : status = READY
  · rw [if_pos hready]
    refine (disableInts_false_follows hn).bind ?_
    rintro _ _ ⟨b, rfl⟩
    exact .leaveIf (fun hne => absurd hready hne) fun _ => hf b
  · rw [if_neg hready]
    refine (disableInts_false_follows (g := .lost) id).bind ?_
    rintro _ _ ⟨b, rfl⟩
    exact .leaveIf (fun _ => .inr rfl) fun hne => absurd hready hne

theorem opOf_seek (cyl : Word) : opOf ((cyl <<< 8) ||| SEEKCYL) = SEEKCYL := by
  have hlow : (cyl <<< 8) &&& 0xFF = 0#32 := by
    apply BitVec.eq_of_toNat_eq
    have hmask : (0xFF : Word).toNat = 2 ^ 8 - 1 := rfl
    rw [BitVec.toNat_and, hmask, Nat.and_two_pow_sub_one_eq_mod, BitVec.toNat_shiftLeft,
      Nat.shiftLeft_eq]
    have h0 : (0#32).toNat = 0 := rfl
    omega
  rw [opOf, BitVec.and_or_distrib_right, hlow, BitVec.zero_or]
  rfl

theorem diskIO_follows (sector cyl head memBuf command : Word) :
    Follows diskRules ( diskIO sector cyl head disk0sem 0 memBuf command) .out
      fun _ g => g = .out := by
  refine .issue rfl fun _ _ _ => ?_
  refine (disableInts_true_follows (g := .owned false) id).bind ?_
  rintro _ _ rfl
  refine .issue (.inl ⟨rfl, opOf_seek cyl⟩) fun _ _ _ => ?_
  refine completed_follows (g := .seeking _) (n := .positioned _ true) trivial (fun _ => rfl) id
    fun b => ?_
  refine (disableInts_true_follows (g := .positioned _ b) id).bind ?_
  rintro _ _ rfl
  refine .issue ⟨_, true, rfl⟩ fun _ _ _ => ?_
  refine .issue (.inr ⟨_, rfl⟩) fun _ _ _ => ?_
  refine completed_follows (g := .moving _) (n := .finished) trivial (fun _ => rfl) id
    fun _ => ?_
  exact ⟨rfl, fun _ _ _ => rfl⟩

/-! ## Code that leaves the disk alone -/

theorem Act.Foreign.follows (ha : a.Foreign) :
    diskRules.may .out a ∧ ∀ r x, diskRules.admits .out a r x → diskRules.next .out a r x = .out := by
  cases a with
  | passeren x | verhogen x => exact ⟨(if_neg ha).mpr (.inl rfl), fun _ _ _ => if_neg ha⟩
  | waitio l d u => exact ⟨(if_neg ha).mpr (.inl rfl), fun _ _ _ => if_neg ha⟩
  | setCommand reg v | setData0 reg v =>
    exact ⟨(if_neg ha).mpr (.inl rfl), fun _ _ _ => if_neg ha⟩
  | setData1 reg v => exact ⟨⟨ha, .inl rfl⟩, fun _ _ _ => rfl⟩
  | spectrapvec trap new => exact ⟨⟨rfl, ha⟩, fun _ _ _ => rfl⟩
  | getSTATUS | setSTATUS => exact ⟨id, fun _ _ _ => rfl⟩
  | load => exact ⟨rfl, fun _ _ _ => rfl⟩
  | createprocess | getENTRYHI | TLBCLR | getData1 | tables =>
    exact ⟨.inl rfl, fun _ _ _ => rfl⟩

/-- A program that calls `diskIO` for disk 0, with any arguments, and else leaves the disk
alone. -/
inductive DiskClient : SupM α → Prop
  | done (a : α) : DiskClient (.done a)
  | leave {l : Leave} : l.Fits → DiskClient (.leave l)
  | act {a : Act} {k : Word → SupM α} : a.Foreign → (∀ r, DiskClient (k r)) →
      DiskClient (.act a k)
  | diskIO {sector cyl head memBuf command : Word} {k : Unit → SupM α} : DiskClient (k ()) →
      DiskClient ( diskIO sector cyl head disk0sem 0 memBuf command >>= k)

namespace DiskClient

variable {β : Type} {x : SupM α}

theorem bind {f : α → SupM β} (hx : DiskClient x) (hf : ∀ a, DiskClient (f a)) :
    DiskClient (x >>= f) := by
  induction hx with
  | done a => exact hf a
  | leave hl => exact .leave hl
  | act ha _ ih => exact .act ha ih
  | diskIO _ ih =>
    rw [bind_assoc]
    exact DiskClient.diskIO ih

theorem call {sector cyl head memBuf command : Word} :
    DiskClient ( Phase3.diskIO sector cyl head disk0sem 0 memBuf command) := by
  rw [← bind_done ( Phase3.diskIO sector cyl head disk0sem 0 memBuf command)]
  exact DiskClient.diskIO (.done _)

theorem follows (hx : DiskClient x) : Follows diskRules x .out fun _ g => g = .out := by
  induction hx with
  | done a => rfl
  | @leave l hl =>
    cases l with
    | terminate | terminateprocess => exact .inl rfl
    | ldst | user | again => exact ⟨rfl, hl⟩
  | act ha _ ih =>
    obtain ⟨hmay, hnext⟩ := ha.follows
    refine ⟨hmay, fun r x hr => ?_⟩
    rw [hnext r x hr]
    exact ih r
  | diskIO _ ih =>
    refine (diskIO_follows ..).bind ?_
    rintro _ _ rfl
    exact ih

theorem issue {f : Unit → SupM β} (ha : a.Foreign) (hf : DiskClient (f ())) :
    DiskClient (Program.issue a >>= f) := .act ha fun _ => hf

theorem perform {f : Word → SupM β} (ha : a.Foreign) (hf : ∀ r, DiskClient (f r)) :
    DiskClient (Program.perform a >>= f) := .act ha hf

theorem ite {c : Prop} [Decidable c] {y : SupM α} (hx : c → DiskClient x)
    (hy : ¬ c → DiskClient y) : DiskClient (if c then x else y) := by
  split
  · exact hx ‹c›
  · exact hy ‹¬ c›

end DiskClient

/-! ## The functions of phase 3 -/

theorem asidOf_lt (entryHi : Word) : asidOf entryHi < 64 := by
  have hlt := (entryHi <<< 20).isLt
  rw [asidOf, BitVec.lt_def, BitVec.toNat_ushiftRight, Nat.shiftRight_eq_div_pow]
  exact (Nat.div_lt_iff_lt_mul (by decide)).mpr hlt

section Numbers

variable {asid : Word} (h : asid < 64)

include h

theorem tapeReg_ne : getDeviceReg TAPEINT (asid - 1) ≠ Sys.disk0Reg := by
  unfold getDeviceReg TAPEINT Sys.disk0Reg
  bv_omega

theorem tape_foreign : ¬ OnDisk0 TAPEINT (asid - 1) 0 := by
  have hindex : waitioIndex TAPEINT (asid - 1) 0 = 8 + (asid - 1) := if_pos (by decide)
  rw [OnDisk0, hindex]
  intro ⟨_, h0⟩
  bv_omega

theorem terminal_offset : (32 : Word) + 3 * (asid - 1) ≠ 0 := by
  intro heq
  have hnat := congrArg BitVec.toNat heq
  rw [BitVec.toNat_add, BitVec.toNat_mul, BitVec.toNat_sub] at hnat
  rw [BitVec.lt_def] at h
  have h64 : (64 : Word).toNat = 64 := rfl
  have h32 : (32 : Word).toNat = 32 := rfl
  have h3 : (3 : Word).toNat = 3 := rfl
  have h1 : (1 : Word).toNat = 1 := rfl
  have h0 : (0 : Word).toNat = 0 := rfl
  rw [h32, h3, h1, h0] at hnat
  rw [h64] at h
  omega

theorem terminal_foreign : ¬ OnDisk0 TERMINT (asid - 1) 0 := by
  have hindex : waitioIndex TERMINT (asid - 1) 0 = 32 + 3 * (asid - 1) + 0 := if_neg (by decide)
  rw [OnDisk0, hindex]
  exact fun heq => terminal_offset h ((BitVec.add_zero _).symm.trans heq.2)

theorem terminalReg_ne : getDeviceReg TERMINT (asid - 1) ≠ Sys.disk0Reg := by
  unfold getDeviceReg TERMINT Sys.disk0Reg
  bv_omega

theorem terminalSem_ne :
    Sem.devSemArray (DEVCNT * (TERMINT - DEVINTOFFSET) + TERMCNT * (asid - 1)) ≠ disk0sem :=
  fun heq => terminal_offset h (Sem.devSemArray.inj heq)

end Numbers

theorem disableInts_client (disable : Bool) : DiskClient (disableInts disable) := by
  cases disable <;> exact .perform trivial fun _ => .act trivial fun _ => .done _

theorem onTape_client (reg : Word) : DiskClient (onTape reg) :=
  .perform trivial fun _ => .ite (fun _ => .done _) fun _ => .perform trivial fun _ => .done _

theorem tapeToDisk_client {asid : Word} (h : asid < 64) (i : Word) :
    DiskClient (tapeToDisk asid i) := by
  refine (onTape_client _).bind fun more => ?_
  cases more with
  | false => exact .done _
  | true =>
    refine .issue (tapeReg_ne h) ?_
    refine .issue (tapeReg_ne h) ?_
    refine .perform (tape_foreign h) fun status => ?_
    refine .ite (fun _ => .leave trivial) fun _ => ?_
    exact DiskClient.diskIO (.leave h)

theorem setTrap_client (asid i : Word) (trap : Trap) :
    DiskClient (setTrap asid i trap trap.entry) :=
  .perform trivial fun _ => .act rfl fun _ => .done _

theorem uProcInitFrom_client {asid : Word} (h : asid < 64) (i : Word) :
    DiskClient (uProcInitFrom asid i) := by
  refine (tapeToDisk_client h i).bind fun _ => ?_
  refine (setTrap_client asid TLBTRAP .tlb).bind fun _ => ?_
  refine (setTrap_client asid PROGTRAP .pgm).bind fun _ => ?_
  refine (setTrap_client asid SYSTRAP .sys).bind fun _ => ?_
  exact .perform trivial fun _ => .leave trivial

theorem uProcInit_client : DiskClient uProcInit :=
  .perform trivial fun _ => uProcInitFrom_client (asidOf_lt _) 0

theorem test_client : DiskClient test := by
  have hcreate : ∀ is : List Nat, DiskClient (is.forM createUProc) := by
    intro is
    induction is with
    | nil => exact .done _
    | cons i is ih =>
      refine DiskClient.bind (.perform trivial fun _ => ?_) fun _ => ih
      exact .ite (fun _ => .leave trivial) fun _ => .done _
  have hwait : ∀ is : List Nat, DiskClient (is.forM fun _ => passeren .masterSem) := by
    intro is
    induction is with
    | nil => exact .done _
    | cons i is ih => exact .issue nofun ih
  exact (hcreate _).bind fun _ => (hwait _).bind fun _ => .leave trivial

def Act.IsTables : Act → Prop
  | .tables _ => True
  | _ => False

theorem getFrame_only : getFrame.Only Act.IsTables fun _ => False := by
  refine ⟨trivial, fun _ => ⟨trivial, fun _ => ?_⟩⟩
  refine Only.ite (fun _ => ⟨trivial, fun _ => ?_⟩) fun _ => ?_ <;>
    exact ⟨trivial, fun _ => trivial⟩

theorem freeFrame_only (asid i : Word) : (freeFrame asid i).Only Act.IsTables fun _ => False := by
  refine ⟨trivial, fun _ => Only.ite (fun _ => ?_) fun _ => trivial⟩
  exact ⟨trivial, fun _ => ⟨trivial, fun _ => ⟨trivial, fun _ => ⟨trivial, fun _ => trivial⟩⟩⟩⟩

theorem freeFrames_only (asid : Word) (is : List Nat) :
    (is.forM fun i => freeFrame asid (BitVec.ofNat 32 i)).Only Act.IsTables fun _ => False := by
  induction is with
  | nil => exact trivial
  | cons i is ih => exact (freeFrame_only asid _).bind fun _ => ih

namespace DiskClient

theorem of_tables {x : SupM α} {P' : Leave → Prop} (hx : x.Only Act.IsTables P')
    (hP : ∀ l, P' l → l.Fits) : DiskClient x := by
  induction x with
  | done a => exact .done a
  | leave l => exact .leave (hP l hx)
  | act a k ih =>
    refine .act ?_ fun r => ih r (hx.2 r)
    cases a with
    | tables f => exact trivial
    | _ => exact hx.1.elim

end DiskClient

theorem getFrame_client : DiskClient getFrame := .of_tables getFrame_only fun _ => False.elim

/-- Also after a status that is not `READY`. -/
theorem terminateUserProc_follows (hg : g.Quiet) (entryHi : Word) {Q : Unit → Stage → Prop} :
    Follows diskRules (terminateUserProc entryHi) g Q := by
  refine .issue hg fun _ _ _ => ?_
  refine ((freeFrames_only _ _).follows (fun a ha => ?_) fun _ => False.elim).bind ?_
  · cases a with
    | tables f => exact ⟨hg, fun _ _ _ => rfl⟩
    | _ => exact ha.elim
  rintro _ _ rfl
  refine .issue hg fun _ _ _ => ?_
  refine .issue hg fun _ _ _ => ?_
  refine .issue hg fun _ _ _ => ?_
  exact hg

theorem terminateUserProc_client (entryHi : Word) : DiskClient (terminateUserProc entryHi) := by
  refine .issue nofun ?_
  refine (DiskClient.of_tables (freeFrames_only _ _) fun _ => False.elim).bind fun _ => ?_
  refine .issue trivial ?_
  refine .issue nofun ?_
  refine .issue nofun ?_
  exact .leave trivial

theorem transmit_client {asid : Word} (h : asid < 64) (virtAddr : Word) (n : Nat)
    (i status : Word) : DiskClient (transmit asid virtAddr n i status) := by
  induction n generalizing i status with
  | zero => exact .done _
  | succ n ih =>
    refine (disableInts_client true).bind fun _ => ?_
    refine .perform trivial fun _ => ?_
    refine .issue (terminalReg_ne h) ?_
    refine .perform (terminal_foreign h) fun _ => ?_
    refine (disableInts_client false).bind fun _ => ?_
    exact .ite (fun _ => .done _) fun _ => ih _ _

theorem writeToTerminal_client (junk entryHi : Word) (state : State) :
    DiskClient (writeToTerminal junk entryHi state) := by
  have hlt := asidOf_lt entryHi
  have hrest : DiskClient (do
      passeren (.devSemArray (DEVCNT * (TERMINT - DEVINTOFFSET) +
        TERMCNT * (asidOf entryHi - 1)))
      let status ← transmit (asidOf entryHi) state.a1 state.a2.toNat 0 junk
      verhogen (.devSemArray (DEVCNT * (TERMINT - DEVINTOFFSET) +
        TERMCNT * (asidOf entryHi - 1)))
      leave (.ldst .sys (state.setV0 status)) : SupM Unit) := by
    refine .issue (terminalSem_ne hlt) ?_
    refine (transmit_client hlt _ _ _ _).bind fun _ => ?_
    exact .issue (terminalSem_ne hlt) (.leave trivial)
  refine .ite (fun _ => ?_) fun _ => hrest
  exact (terminateUserProc_client entryHi).bind fun _ => hrest

theorem userSyscallHandler_client (junk entryHi : Word) (state : State) :
    DiskClient (userSyscallHandler junk entryHi state) :=
  .ite (fun _ => writeToTerminal_client junk entryHi state) fun _ =>
    .ite (fun _ => terminateUserProc_client entryHi) fun _ => terminateUserProc_client entryHi

theorem evict_client (fNo swapLoc : Word) : DiskClient (evict fNo swapLoc) := by
  refine (disableInts_client true).bind fun _ => ?_
  refine .issue trivial ?_
  refine .perform trivial fun _ => ?_
  refine .perform trivial fun _ => ?_
  refine .issue trivial ?_
  refine (disableInts_client false).bind fun _ => ?_
  exact .call

theorem enterPage_client (asid segment missingPage vPageNo fNo swapLoc : Word) :
    DiskClient (enterPage asid segment missingPage vPageNo fNo swapLoc) := by
  refine (disableInts_client true).bind fun _ => ?_
  refine .issue trivial ?_
  refine .issue trivial ?_
  refine .issue trivial ?_
  refine .issue trivial ?_
  refine .issue trivial ?_
  refine .issue trivial ?_
  exact disableInts_client false

variable (K : Layout)

theorem bringIn_client (asid segment missingPage vPageNo : Word) :
    DiskClient (bringIn K asid segment missingPage vPageNo) := by
  refine getFrame_client.bind fun fNo => ?_
  have hload : DiskClient (do
      diskIO (asid - 1) vPageNo 0 disk0sem 0 (frameAddr K fNo) READBLK
      enterPage asid segment missingPage vPageNo fNo (frameAddr K fNo)) :=
    DiskClient.diskIO (enterPage_client ..)
  refine .perform trivial fun _ => .ite (fun _ => ?_) fun _ => hload
  exact (evict_client _ _).bind fun _ => hload

theorem pager_client (entryHi : Word) (oldTLB : State) : DiskClient (pager K entryHi oldTLB) := by
  have hrest : ∀ asid segment missingPage vPageNo, DiskClient (do
      bringIn K asid segment missingPage vPageNo
      verhogen .swapPoolSem
      leave (.ldst .tlb oldTLB) : SupM Unit) := fun asid segment missingPage vPageNo =>
    (bringIn_client K asid segment missingPage vPageNo).bind fun _ => .issue nofun (.leave trivial)
  refine .issue nofun ?_
  refine .ite (fun _ => .issue nofun (.leave trivial)) fun _ => ?_
  refine .ite (fun _ => ?_) fun _ => hrest ..
  exact .perform trivial fun _ => .ite (fun _ => .issue nofun (.leave trivial)) fun _ => hrest ..

/-! ## Systems of clients -/

variable {ι : Type} {junk : Word} {start : ι → Prog} {child : Word → ι} {root : ι → Bool}

/-- Processes that start with any programs of clients keep to the rules. -/
theorem support_obeys [DecidableEq ι] (hstart : ∀ p, DiskClient (start p)) :
    (support K junk start child root).Obeys (fun _ => diskRules) (fun _ => .out) fun _ => .out where
  start p g sAsid sStatus _ := (hstart _).follows.mono fun _ _ _ => trivial
  again p g asid i h := by
    obtain ⟨rfl, hfits⟩ := h
    exact (uProcInitFrom_client hfits i).follows.mono fun _ _ _ => trivial
  enter p g trap new st h := by
    refine Follows.mono (Q := fun _ g => g = .out) ?_ fun _ _ _ => trivial
    rw [h.2]
    cases trap with
    | tlb => exact (pager_client K new.sAsid st).follows
    | pgm => exact .inl rfl
    | sys => exact (userSyscallHandler_client junk new.sAsid st).follows
  terminate p g g' new h h' := by
    rw [h.2]
    exact terminateUserProc_follows h' new.sAsid
  load p g virtAddr h := h
  ldst p g trap st h := h.1
  user p g a1 a2 a3 a4 h := h.1

end Kaya.Phase3
