import Kaya.Phase3.Support

/-!
# `phase3/initProc.c`
-/

namespace Kaya.Phase3

open Lib.Program

def getDeviceReg (lineNo devNo : Word) : Word :=
  0x10000050 + (lineNo - 3) * 0x80 + devNo * 0x10

def disableInts (disable : Bool) : SupM Unit := do
  if disable then
    let status ← perform .getSTATUS
    issue (.setSTATUS (status &&& 0xFFFF00FE))
  else
    let status ← perform .getSTATUS
    issue (.setSTATUS (status ||| (INTERON >>> 2) ||| INTERUNMASKED))

def diskIO (sector cyl head : Word) (sem : Sem) (diskNum memBuf command : Word) : SupM Unit := do
  let disk := getDeviceReg DISKINT diskNum
  passeren sem
  disableInts true
  issue (.setCommand disk ((cyl <<< 8) ||| SEEKCYL))
  let status ← waitForIO DISKINT diskNum 0
  disableInts false
  if status ≠ READY then
    leave .terminate
  disableInts true
  issue (.setData0 disk memBuf)
  issue (.setCommand disk ((head <<< 16) ||| (sector <<< 8) ||| command))
  let status ← waitForIO DISKINT diskNum 0
  disableInts false
  if status ≠ READY then
    leave .terminate
  verhogen sem

def disk0sem : Sem := .devSemArray (DEVCNT * (DISKINT - DEVINTOFFSET))

/-- The condition of the loop of `tapeToDisk`. -/
def onTape (tapeReg : Word) : SupM Bool := do
  if (← perform (.getData1 tapeReg)) = EOT then
    return false
  return (← perform (.getData1 tapeReg)) ≠ EOF

/-- `tapeToDisk(asid)` from the head of its loop on, where `i` blocks are on the disk.  A round
ends with going back to the head. -/
def tapeToDisk (asid i : Word) : SupM Unit := do
  let tapeReg := getDeviceReg TAPEINT (asid - 1)
  let tapeBuf := TAPEDMABUFFER + (asid - 1) * PAGESIZE
  if ← onTape tapeReg then
    issue (.setData0 tapeReg tapeBuf)
    issue (.setCommand tapeReg READBLK)
    let status ← waitForIO TAPEINT (asid - 1) 0
    if status ≠ READY then
      leave .terminate
    diskIO (asid - 1) i 0 disk0sem 0 tapeBuf WRITEBLK
    leave (.again asid (i + 1))

def setTrap (asid i : Word) (type : Trap) (pc : Entry) : SupM Unit := do
  let sAsid ← perform .getENTRYHI
  issue (.spectrapvec type
    { sAsid := sAsid
      sSp := UPROCSTACK + ((asid - 1) * TRAPTYPES + i) * PAGESIZE
      sStatus := VMON ||| INTERON ||| INTERUNMASKED ||| PLOCTIMEON ||| KERNELON
      sPc := pc })

/-- `uProcInit` from the call of `tapeToDisk` on. -/
def uProcInitFrom (asid i : Word) : Prog := do
  tapeToDisk asid i
  setTrap asid TLBTRAP .tlb .pager
  setTrap asid PROGTRAP .pgm .userProgTrapHandler
  setTrap asid SYSTRAP .sys .userSyscallHandler
  let sAsid ← perform .getENTRYHI
  leave (.user sAsid 0xC0000000
    (VMON ||| INTERON ||| INTERUNMASKED ||| PLOCTIMEON ||| KERNELOFF) 0x800000B0)

def uProcInit : Prog := do
  let asid := asidOf (← perform .getENTRYHI)
  uProcInitFrom asid 0

/-- The tables after the loops at the start of `test`. -/
def Tables.init : Tables where
  frameNo := BitVec.ofNat 32 (POOLSIZE - 1)
  swapPool := fun _ => ⟨-1, 0, 0, .null⟩
  uPte := fun u j =>
    if j = BitVec.ofNat 32 (MAXPAGES - 1) then
      ⟨(0xBFFFF <<< 12) ||| ((u + 1) <<< 6), 0x1 <<< 10⟩
    else ⟨((0x80000 + j) <<< 12) ||| ((u + 1) <<< 6), 0x1 <<< 10⟩
  kUseg3 := fun j => ⟨(0xC0000 + j) <<< 12, 0x5 <<< 8⟩

/-- Create process `i` with entry point `uProcInit`. -/
def createUProc (i : Nat) : SupM Unit := do
  let status ← perform (.createprocess (BitVec.ofNat 32 i <<< 6)
    (VMNOTON ||| INTERON ||| INTERUNMASKED ||| PLOCTIMEON ||| KERNELON))
  if status ≠ SUCCESS then
    leave .terminateprocess

/-- `test`; its first loops and assignments give the initial values of the global variables. -/
def test : Prog := do
  (List.range' 1 MAXUPROC).forM createUProc
  (List.range MAXUPROC).forM fun _ => passeren .masterSem
  leave .terminateprocess

end Kaya.Phase3
