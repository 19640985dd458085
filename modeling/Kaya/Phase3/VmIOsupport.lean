import Kaya.Phase3.InitProc
import Kaya.Phase2.Nucleus

/-!
# `phase3/vmIOsupport.c`

A handler is a function of `ENTRYHI` and of the old area of its trap.
-/

namespace Kaya.Phase3

open Lib.Program

variable (K : Layout)

def getFrame : SupM Word := do
  write fun t => { t with frameNo := t.frameNo + 1 }
  if (← look (·.frameNo)) = BitVec.ofNat 32 POOLSIZE then
    write fun t => { t with frameNo := 0 }
  look (·.frameNo)

/-- The body of the loop of `terminateUserProc`. -/
def freeFrame (asid i : Word) : SupM Unit := do
  if (← look fun t => (t.swapPool i).spAsid) = asid then
    write fun t => t.setSwap i { (t.swapPool i) with spAsid := -1 }
    write fun t => t.setSwap i { (t.swapPool i) with spPageNo := 0 }
    write fun t => t.setSwap i { (t.swapPool i) with spSegNo := 0 }
    write fun t => t.setSwap i { (t.swapPool i) with spPteEntry := .null }

def terminateUserProc (entryHi : Word) : SupM Unit := do
  let asid := asidOf entryHi
  passeren .swapPoolSem
  (List.range POOLSIZE).forM fun i => freeFrame asid (BitVec.ofNat 32 i)
  issue .TLBCLR
  verhogen .swapPoolSem
  verhogen .masterSem
  leave .terminateprocess

/-- The loop of `writeToTerminal` with `n` characters to go; returns `status`. -/
def transmit (asid virtAddr : Word) : Nat → Word → Word → SupM Word
  | 0, _, status => return status
  | n + 1, i, _ => do
    disableInts true
    let c ← perform (.load (virtAddr + i))
    issue (.setData1 (getDeviceReg TERMINT (asid - 1)) ((c <<< 8) ||| TRANSMCHAR))
    let status ← waitForIO TERMINT (asid - 1) 0
    disableInts false
    if status ≠ CHARTRANSMD then
      return -status
    else transmit asid virtAddr n (i + 1) i

/-- `junk` is what `status` holds before it gets a value. -/
def writeToTerminal (junk entryHi : Word) (state : State) : SupM Unit := do
  let asid := asidOf entryHi
  let virtAddr := state.a1
  let len := state.a2
  if len.toInt < 0 ∨ 128 < len.toInt ∨ virtAddr < KSEGOSEND then
    terminateUserProc entryHi
  let index := DEVCNT * (TERMINT - DEVINTOFFSET) + TERMCNT * (asid - 1)
  passeren (.devSemArray index)
  let status ← transmit asid virtAddr len.toNat 0 junk
  verhogen (.devSemArray index)
  leave (.ldst .sys (state.setV0 status))

def userSyscallHandler (junk entryHi : Word) (state : State) : Prog := do
  let call := state.a0
  if call = WRITETERMINAL then
    writeToTerminal junk entryHi state
  else if call = TERMINATE then
    terminateUserProc entryHi
  else
    terminateUserProc entryHi

def userProgTrapHandler : Prog := leave .terminate

/-- The entry of a page in its table. -/
def clip (page : Word) : Word := if page ≥ KUSEGPTESIZE then KUSEGPTESIZE - 1 else page

def frameAddr (fNo : Word) : Word := (K.rambase + K.ramsize) - 4 * PAGESIZE - fNo * PAGESIZE

/-- An occupied frame goes to the disk. -/
def evict (fNo swapLoc : Word) : SupM Unit := do
  disableInts true
  write fun t => t.setEntryLo (t.swapPool fNo).spPteEntry
    (t.entryLo (t.swapPool fNo).spPteEntry &&& 0xCFF)
  let swapPageNo ← look fun t => (t.swapPool fNo).spPageNo
  let swapId ← look fun t => (t.swapPool fNo).spAsid
  issue .TLBCLR
  disableInts false
  diskIO (swapId - 1) (clip swapPageNo) 0 disk0sem 0 swapLoc WRITEBLK

/-- The page gets its frame. -/
def enterPage (asid segment missingPage vPageNo fNo swapLoc : Word) : SupM Unit := do
  disableInts true
  write fun t => t.setSwap fNo { (t.swapPool fNo) with spAsid := asid }
  write fun t => t.setSwap fNo { (t.swapPool fNo) with spSegNo := segment }
  write fun t => t.setSwap fNo { (t.swapPool fNo) with spPageNo := missingPage }
  write fun t => t.setSwap fNo { (t.swapPool fNo) with spPteEntry := .entry (asid - 1) vPageNo }
  write fun t => t.setEntryLo (t.swapPool fNo).spPteEntry
    ((swapLoc &&& 0xFFFFF000) ||| (0x6 <<< 8))
  issue .TLBCLR
  disableInts false

/-- `pager` from `getFrame` on. -/
def bringIn (asid segment missingPage vPageNo : Word) : SupM Unit := do
  let fNo ← getFrame
  let swapLoc := frameAddr K fNo
  if (← look fun t => (t.swapPool fNo).spAsid) ≠ -1 then
    evict fNo swapLoc
  diskIO (asid - 1) vPageNo 0 disk0sem 0 swapLoc READBLK
  enterPage asid segment missingPage vPageNo fNo swapLoc

def pager (entryHi : Word) (oldTLB : State) : Prog := do
  passeren .swapPoolSem
  let asid := asidOf entryHi
  let cause := (oldTLB.sCause <<< 25) >>> 27
  if cause ≠ TLBINVLW ∧ cause ≠ TLBINVSW then
    verhogen .swapPoolSem
    leave .terminate
  let segment := oldTLB.sAsid >>> 30
  let missingPage := (oldTLB.sAsid &&& 0x3FFFF000) >>> 12
  let vPageNo := clip missingPage
  if segment = KUSEG3NO then
    -- `==` binds tighter than `&`
    if (← look fun t => (t.kUseg3 vPageNo).entryLo) &&& 1 ≠ 0 then
      verhogen .swapPoolSem
      leave (.ldst .tlb oldTLB)
  bringIn K asid segment missingPage vPageNo
  verhogen .swapPoolSem
  leave (.ldst .tlb oldTLB)

end Kaya.Phase3
