import Kaya.Phase2.Scheduler

/-!
# `phase2/interrupts.c`
-/

namespace Kaya

variable (K : Layout)

/-- The first entry whose bit is set, or -1. -/
def firstBit (word : Word) : List (Word × Int) → Int
  | [] => -1
  | (bit, n) :: rest => if word &&& bit = bit then n else firstBit word rest

def findLineNo (cause : Word) : Int :=
  firstBit cause [(0x200, 1), (0x400, 2), (0x800, 3), (0x1000, 4),
    (0x2000, 5), (0x4000, 6), (0x8000, 7)]

def findDevNo (bitMap : Word) : Int :=
  firstBit bitMap [(0x01, 0), (0x02, 1), (0x04, 2), (0x08, 3), (0x10, 4),
    (0x20, 5), (0x40, 6), (0x80, 7)]

def getDeviceReg (lineNo devNo : Int) : Word :=
  BitVec.ofInt 32 (0x10000050 + (lineNo - 3) * 0x80 + devNo * 0x10)

/-- The entry of `semDevArray` for a device, as the handler computes it. -/
def ioIndex (lineNo devNo read : Int) : Int :=
  if lineNo = 7 then
    8 * (lineNo - 3) + 3 * devNo + read
  else
    8 * (lineNo - 3) + devNo

/-- The `while` loop of the interval timer interrupt. -/
def unblockClock (semAdd : Word) : Nat → NucM Unit
  | 0 => throw .loop
  | fuel + 1 => do
    if (← phase1 (headBlocked semAdd)) ≠ none then
      let blockedProc ← phase1 (removeBlocked semAdd)
      if blockedProc ≠ none then
        modify fun s => { s with sftBlkCnt := s.sftBlkCnt - 1 }
        insertReady blockedProc
      unblockClock semAdd fuel

/-- The status of the interrupting device, which is acknowledged, and the
`read` flag of its semaphore. -/
def acknowledge (lineNo devNo : Int) : NucM (Word × Int) := do
  let reg := getDeviceReg lineNo devNo
  let dev := (← get).devReg reg
  if lineNo = 7 then
    if dev.dStatus &&& STATUSMASK = READY then
      modify fun s => { s with
        devReg := Function.update s.devReg reg { dev with dData1 := ACK } }
      return (dev.dData0, 0)
    else
      modify fun s => { s with
        devReg := Function.update s.devReg reg { dev with dCommand := ACK } }
      return (dev.dStatus, 1)
  else
    modify fun s => { s with
      devReg := Function.update s.devReg reg { dev with dCommand := ACK } }
    return (dev.dStatus, 0)

/-- The `default` case of the handler: an interrupt of a device. -/
def deviceInterrupt (lineNo : Int) : NucM Unit := do
  let devNo := findDevNo ((← get).interruptDev (lineNo - 3))
  if devNo = -1 then
    PANIC
  let (status, read) ← acknowledge lineNo devNo
  let index := ioIndex lineNo devNo read
  let semAdd := K.semDev (BitVec.ofInt 32 index)
  storeInt semAdd ((← loadInt semAdd) + 1)
  if (← loadInt semAdd).toInt ≤ 0 then
    let blockedProc ← phase1 (removeBlocked semAdd)
    if blockedProc ≠ none then
      modify fun s => { s with sftBlkCnt := s.sftBlkCnt - 1 }
      phase1 (setPS blockedProc
        ((← getPS blockedProc).setV0 (status &&& STATUSMASK)))
      insertReady blockedProc
  else
    modify fun s => { s with intOld := s.intOld.setV0 (status &&& STATUSMASK) }

/-- The `case` of the processor's local timer: the quantum is over. -/
def plocInterrupt (timeStart : Int) : NucM Unit := do
  let timeEnd ← STCK
  if (← get).currentProc ≠ none then
    modify fun s => { s with ioProcTime := s.ioProcTime + (timeEnd - timeStart) }
    let p ← deref (← get).currentProc
    let s ← get
    phase1 (setPTime (some p)
      (s.pcb.pTime p + ((timeEnd - s.startTOD) - s.ioProcTime)))
    emit (.expired (some p) timeStart timeEnd)
    emit (.leave (some p) timeEnd)
    phase1 (setPS (← get).currentProc (copyState (← get).intOld))
    insertReady (← get).currentProc
    setCurrentProc none
  setTIMER QUANTUM
  scheduler

/-- The `case` of the interval timer. -/
def ivtimInterrupt : NucM Unit := do
  let semAdd := K.semDev (BitVec.ofNat 32 (DEVICECNT - 1))
  unblockClock semAdd (MAXPROC + 1)
  storeInt semAdd 0
  LDIT INTERVAL

def ioSwitch (lineNo timeStart : Int) : NucM Unit :=
  if lineNo = -1 then
    PANIC
  else if lineNo = PLOCINT then
    plocInterrupt timeStart
  else if lineNo = IVTIMINT then
    ivtimInterrupt K
  else
    deviceInterrupt K lineNo

def ioTrapHandler : NucM Unit := do
  let timeStart ← STCK
  let lineNo := findLineNo (← get).intOld.sCause
  ioSwitch K lineNo timeStart
  if (← get).waiting then
    scheduler
  let timeEnd ← STCK
  modify fun s => { s with ioProcTime := s.ioProcTime + (timeStart - timeEnd) }
  emit (.handled (← get).currentProc timeStart timeEnd)
  LDST (← get).intOld

end Kaya
