import Kaya.Phase3.Proofs.DiskRules
import Kaya.Phase3.Proofs.Mutex

/-!
# The rules for the tables

The page tables and the swap pool are written by whoever holds `swapPoolSem`, and the page table
of the shared segment by nobody.
-/

namespace Kaya.Phase3

open Lib Lib.Program

/-- What an action does to the tables leaves `kUseg3` alone, and all of them if the process does
not hold `swapPoolSem`. -/
def Writes (g : Bool) (f : Tables → Word × Tables) : Prop :=
  (∀ t, (f t).2.kUseg3 = t.kUseg3) ∧ (g = true ∨ ∀ t, (f t).2 = t)

/-- The ghost state says whether the process holds `swapPoolSem`. -/
def tableRules : Discipline Act Word Leave View Bool where
  may g
    | .tables f => Writes g f
    | .verhogen x => x = .swapPoolSem → g = true
    | .spectrapvec trap new => new.sPc = trap.entry
    | .load _ => g = false
    | _ => True
  admits _ _ _ _ := True
  next g
    | .passeren x, _, _ => if x = .swapPoolSem then true else g
    | .verhogen x, _, _ => if x = .swapPoolSem then false else g
    | _, _, _ => g
  leave g
    | .terminate | .terminateprocess => True
    | .ldst _ _ | .user _ _ _ _ | .again _ _ => g = false

def Act.Keeps (g : Bool) : Act → Prop
  | .tables f => Writes g f
  | .passeren x | .verhogen x => x ≠ .swapPoolSem
  | .spectrapvec trap new => new.sPc = trap.entry
  | .load _ => g = false
  | _ => True

variable {α : Type} {g : Bool} {a : Act} {x : SupM α}

theorem Act.Keeps.follows (ha : a.Keeps g) :
    tableRules.may g a ∧ ∀ r x, tableRules.admits g a r x → tableRules.next g a r x = g := by
  cases a with
  | passeren x => exact ⟨trivial, fun _ _ _ => if_neg ha⟩
  | verhogen x => exact ⟨fun hx => absurd hx ha, fun _ _ _ => if_neg ha⟩
  | tables | spectrapvec | load => exact ⟨ha, fun _ _ _ => rfl⟩
  | _ => exact ⟨trivial, fun _ _ _ => rfl⟩

/-- A program keeps to the rules and to what it holds. -/
abbrev Tame (g : Bool) (x : SupM α) : Prop := x.Only (Act.Keeps g) (tableRules.leave g)

theorem Tame.follows (hx : Tame g x) : Follows tableRules x g fun _ g' => g' = g :=
  Only.follows hx (fun _ ha => ha.follows) fun _ => id

/-! ## The functions of phase 3 -/

theorem look_keeps (g : Bool) (f : Tables → Word) : Writes g fun t => (f t, t) :=
  ⟨fun _ => rfl, .inr fun _ => rfl⟩

theorem write_keeps {f : Tables → Tables} (hf : ∀ t, (f t).kUseg3 = t.kUseg3) :
    Writes true fun t => (0, f t) := ⟨hf, .inl rfl⟩

theorem setEntryLo_kUseg3 (t : Tables) (ptr : PtePtr) (v : Word) :
    (t.setEntryLo ptr v).kUseg3 = t.kUseg3 := by
  cases ptr <;> rfl

theorem disableInts_tame (disable : Bool) : Tame g (disableInts disable) := by
  cases disable <;> exact ⟨trivial, fun _ => ⟨trivial, fun _ => trivial⟩⟩

theorem diskIO_tame (sector cyl head memBuf command : Word) :
    Tame g ( diskIO sector cyl head disk0sem 0 memBuf command) := by
  refine ⟨nofun, fun _ => ?_⟩
  refine (disableInts_tame true).bind fun _ => ⟨trivial, fun _ => ⟨trivial, fun status => ?_⟩⟩
  refine (disableInts_tame false).bind fun _ => .ite (fun _ => trivial) fun _ => ?_
  refine (disableInts_tame true).bind fun _ => ⟨trivial, fun _ => ⟨trivial, fun _ => ?_⟩⟩
  refine ⟨trivial, fun status => (disableInts_tame false).bind fun _ => ?_⟩
  exact .ite (fun _ => trivial) fun _ => ⟨nofun, fun _ => trivial⟩

theorem onTape_tame (reg : Word) : Tame g (onTape reg) :=
  ⟨trivial, fun _ => Only.ite (fun _ => trivial) fun _ => ⟨trivial, fun _ => trivial⟩⟩

theorem tapeToDisk_tame (asid i : Word) : Tame false (tapeToDisk asid i) := by
  refine (onTape_tame _).bind fun more => ?_
  cases more with
  | false => exact trivial
  | true =>
    refine ⟨trivial, fun _ => ⟨trivial, fun _ => ⟨trivial, fun status => ?_⟩⟩⟩
    exact .ite (fun _ => trivial) fun _ => (diskIO_tame _ _ _ _ _).bind fun _ => rfl

theorem setTrap_tame (asid i : Word) (trap : Trap) : Tame g (setTrap asid i trap trap.entry) :=
  ⟨trivial, fun _ => ⟨rfl, fun _ => trivial⟩⟩

theorem uProcInitFrom_tame (asid i : Word) : Tame false (uProcInitFrom asid i) := by
  refine (tapeToDisk_tame asid i).bind fun _ => ?_
  refine (setTrap_tame asid TLBTRAP .tlb).bind fun _ => ?_
  refine (setTrap_tame asid PROGTRAP .pgm).bind fun _ => ?_
  refine (setTrap_tame asid SYSTRAP .sys).bind fun _ => ?_
  exact ⟨trivial, fun _ => rfl⟩

theorem uProcInit_tame : Tame false uProcInit := ⟨trivial, fun _ => uProcInitFrom_tame _ 0⟩

theorem test_tame : Tame false test := by
  have hcreate : ∀ is : List Nat, Tame false (is.forM createUProc) := by
    intro is
    induction is with
    | nil => exact trivial
    | cons i is ih =>
      refine Only.bind ⟨trivial, fun _ => ?_⟩ fun _ => ih
      exact .ite (fun _ => trivial) fun _ => trivial
  have hwait : ∀ is : List Nat, Tame false (is.forM fun _ => passeren .masterSem) := by
    intro is
    induction is with
    | nil => exact trivial
    | cons i is ih => exact ⟨nofun, fun _ => ih⟩
  exact (hcreate _).bind fun _ => (hwait _).bind fun _ => trivial

theorem getFrame_tame : Tame true getFrame := by
  refine ⟨write_keeps fun _ => rfl, fun _ => ⟨look_keeps .., fun _ => ?_⟩⟩
  refine Only.ite (fun _ => ⟨write_keeps fun _ => rfl, fun _ => ?_⟩) fun _ => ?_
  all_goals exact ⟨look_keeps .., fun _ => trivial⟩

theorem freeFrame_tame (asid i : Word) : Tame true (freeFrame asid i) := by
  refine ⟨look_keeps .., fun _ => Only.ite (fun _ => ?_) fun _ => trivial⟩
  refine ⟨write_keeps fun _ => rfl, fun _ => ⟨write_keeps fun _ => rfl, fun _ => ?_⟩⟩
  exact ⟨write_keeps fun _ => rfl, fun _ => ⟨write_keeps fun _ => rfl, fun _ => trivial⟩⟩

theorem freeFrames_tame (asid : Word) (is : List Nat) :
    Tame true (is.forM fun i => freeFrame asid (BitVec.ofNat 32 i)) := by
  induction is with
  | nil => exact trivial
  | cons i is ih => exact (freeFrame_tame asid _).bind fun _ => ih

/-- Also after a bad status of the disk, when the process still holds `swapPoolSem`. -/
theorem terminateUserProc_tables (entryHi : Word) {Q : Unit → Bool → Prop} :
    Follows tableRules (terminateUserProc entryHi) g Q := by
  refine .issue trivial fun _ _ _ => ?_
  refine (freeFrames_tame _ _).follows.bind ?_
  rintro _ _ rfl
  refine .issue trivial fun _ _ _ => .issue (fun _ => rfl) fun _ _ _ => ?_
  exact .issue nofun fun _ _ _ => trivial

theorem transmit_tame (asid virtAddr : Word) (n : Nat) (i status : Word) :
    Tame false (transmit asid virtAddr n i status) := by
  induction n generalizing i status with
  | zero => exact trivial
  | succ n ih =>
    refine (disableInts_tame true).bind fun _ => ?_
    refine ⟨rfl, fun _ => ⟨trivial, fun _ => ⟨trivial, fun status => ?_⟩⟩⟩
    exact (disableInts_tame false).bind fun _ => .ite (fun _ => trivial) fun _ => ih _ _

theorem userSyscallHandler_tables (junk entryHi : Word) (state : State) :
    Follows tableRules (userSyscallHandler junk entryHi state) false fun _ _ => True := by
  refine .ite (fun _ => ?_) fun _ => .ite (fun _ => terminateUserProc_tables entryHi) fun _ =>
    terminateUserProc_tables entryHi
  have hrest : Tame false (do
      passeren (.devSemArray (DEVCNT * (TERMINT - DEVINTOFFSET) +
        TERMCNT * (asidOf entryHi - 1)))
      let status ← transmit (asidOf entryHi) state.a1 state.a2.toNat 0 junk
      verhogen (.devSemArray (DEVCNT * (TERMINT - DEVINTOFFSET) +
        TERMCNT * (asidOf entryHi - 1)))
      leave (.ldst .sys (state.setV0 status)) : SupM Unit) :=
    ⟨nofun, fun _ => (transmit_tame _ _ _ _ _).bind fun _ => ⟨nofun, fun _ => rfl⟩⟩
  refine .ite (fun _ => ?_) fun _ => ?_
  · exact (terminateUserProc_tables entryHi).bind fun _ _ (h : False) => h.elim
  · exact hrest.follows.mono fun _ _ _ => trivial

theorem evict_tame (fNo swapLoc : Word) : Tame true (evict fNo swapLoc) := by
  refine (disableInts_tame true).bind fun _ => ?_
  refine ⟨write_keeps fun _ => setEntryLo_kUseg3 .., fun _ => ?_⟩
  refine ⟨look_keeps .., fun _ => ⟨look_keeps .., fun _ => ⟨trivial, fun _ => ?_⟩⟩⟩
  exact (disableInts_tame false).bind fun _ => diskIO_tame ..

theorem enterPage_tame (asid segment missingPage vPageNo fNo swapLoc : Word) :
    Tame true (enterPage asid segment missingPage vPageNo fNo swapLoc) := by
  refine (disableInts_tame true).bind fun _ => ?_
  refine ⟨write_keeps fun _ => rfl, fun _ => ⟨write_keeps fun _ => rfl, fun _ => ?_⟩⟩
  refine ⟨write_keeps fun _ => rfl, fun _ => ⟨write_keeps fun _ => rfl, fun _ => ?_⟩⟩
  refine ⟨write_keeps fun _ => setEntryLo_kUseg3 .., fun _ => ⟨trivial, fun _ => ?_⟩⟩
  exact disableInts_tame false

theorem bringIn_tame (K : Layout) (asid segment missingPage vPageNo : Word) :
    Tame true (bringIn K asid segment missingPage vPageNo) := by
  refine getFrame_tame.bind fun fNo => ⟨look_keeps .., fun _ => ?_⟩
  have hload : Tame true (do
      diskIO (asid - 1) vPageNo 0 disk0sem 0 (frameAddr K fNo) READBLK
      enterPage asid segment missingPage vPageNo fNo (frameAddr K fNo)) :=
    (diskIO_tame _ _ _ _ _).bind fun _ => enterPage_tame ..
  exact .ite (fun _ => (evict_tame _ _).bind fun _ => hload) fun _ => hload

theorem pager_tables (K : Layout) (entryHi : Word) (oldTLB : State) :
    Follows tableRules (pager K entryHi oldTLB) false fun _ _ => True := by
  have hrest : ∀ asid segment missingPage vPageNo, Follows tableRules (do
      bringIn K asid segment missingPage vPageNo
      verhogen .swapPoolSem
      leave (.ldst .tlb oldTLB) : SupM Unit) true fun _ _ => True := by
    intro asid segment missingPage vPageNo
    refine (bringIn_tame K asid segment missingPage vPageNo).follows.bind ?_
    rintro _ _ rfl
    exact .issue (fun _ => rfl) fun _ _ _ => rfl
  refine .issue trivial fun _ _ _ => ?_
  refine .ite (fun _ => .issue (fun _ => rfl) fun _ _ _ => trivial) fun _ => ?_
  refine .ite (fun _ => ?_) fun _ => hrest ..
  refine .perform (look_keeps ..) fun _ _ _ => .ite (fun _ => ?_) fun _ => hrest ..
  exact .issue (fun _ => rfl) fun _ _ _ => rfl

theorem kaya_tables (K : Layout) (junk : Word) :
    (kaya K junk).Obeys (fun _ => tableRules) (fun _ => false) fun _ => false where
  start _ _ _ _ _ := uProcInit_tame.follows.mono fun _ _ _ => trivial
  again p g asid i h := by
    obtain rfl : g = false := h
    exact (uProcInitFrom_tame asid i).follows.mono fun _ _ _ => trivial
  enter p g trap new st h := by
    have hpc : new.sPc = trap.entry := h
    rw [hpc]
    cases trap with
    | tlb => exact pager_tables K new.sAsid st
    | pgm => exact trivial
    | sys => exact userSyscallHandler_tables junk new.sAsid st
  terminate p g g' new h _ := by
    have hpc : new.sPc = .userSyscallHandler := h
    rw [hpc]
    exact terminateUserProc_tables new.sAsid
  load _ _ _ h := h
  ldst _ _ _ _ h := h
  user _ _ _ _ _ _ h := h

end Kaya.Phase3
