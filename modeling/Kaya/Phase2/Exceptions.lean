import Kaya.Phase2.Scheduler

/-!
# `phase2/exceptions.c`

The functions that take a `state_t *state` are only called with
`SYSCALLOLD`, so they work on `sysOld`.
-/

namespace Kaya

variable (K : Layout)

/-- SYS 1 with an area of user memory in `a1`: `mem` holds neither the old areas of the nucleus nor
anything at NULL or at an address that is not aligned. -/
def createprocess : NucM Unit := do
  let p ← phase1 allocPcb
  if p = none then
    setSysOld ((← get).sysOld.setV0 FAIL)
  else
    phase1 (setPS p (copyState (stateAt (← get).mem (← get).sysOld.a1)))
    phase1 (insertChild (← get).currentProc p)
    insertReady p
    modify fun s => { s with procCnt := s.procCnt + 1 }
    emit (.create p)
    setSysOld ((← get).sysOld.setV0 SUCCESS)
  LDST (← get).sysOld

/-- The call `freePcb(p)`, which the trace records. -/
def callFreePcb (p : Option Pcb) : NucM Unit := do
  emit (.exit p)
  phase1 (freePcb p)

/-- What `terminateprocess` does with `p` once its children are gone. -/
def terminateOne (p : Option Pcb) (semAdd : Word) : NucM Unit := do
  let firstDevice := K.semDev 0
  let lastDevice := K.semDev (BitVec.ofNat 32 (DEVICECNT - 1))
  if p = (← get).currentProc then
    discard <| phase1 (outChild p)
    setCurrentProc none
  else if (← outReady p) = none then
    if (← phase1 (outBlocked p)) ≠ none then
      if firstDevice ≤ semAdd ∧ semAdd ≤ lastDevice then
        modify fun s => { s with sftBlkCnt := s.sftBlkCnt - 1 }
      else
        storeInt semAdd ((← loadInt semAdd) + 1)
  modify fun s => { s with procCnt := s.procCnt - 1 }
  callFreePcb p

mutual

/-- `terminateprocess(p)`, with a bound on the depth of calls. -/
def terminateLoop : Nat → Option Pcb → NucM Unit
  | 0, _ => throw .loop
  | fuel + 1, p => do
    let semAdd ← phase1 (getPSemAdd p)
    terminateChildren fuel p
    terminateOne K p semAdd

/-- Its `while` loop over the children of `p`. -/
def terminateChildren : Nat → Option Pcb → NucM Unit
  | 0, _ => throw .loop
  | fuel + 1, p => do
    if (← phase1 (emptyChild p)) ≠ true then
      terminateLoop fuel (← phase1 (removeChild p))
      terminateChildren fuel p

end

/-- SYS 2.  A walk over a tree of `MAXPROC` nodes makes at most
`2 * MAXPROC` nested calls. -/
def terminateprocess (p : Option Pcb) : NucM Unit :=
  terminateLoop K (2 * MAXPROC + 1) p

def V : NucM Unit := do
  let sem := (← get).sysOld.a1
  storeInt sem ((← loadInt sem) + 1)
  if (← loadInt sem).toInt ≤ 0 then
    let temp ← phase1 (removeBlocked sem)
    if temp ≠ none then
      insertReady temp
  LDST (← get).sysOld

/-- What `P`, `waitforclock` and `waitio` do alike when the current process has
to wait: `p_time` grows by its share of the quantum, its state is saved and it
joins the queue of `semAdd`. -/
def blockCurrent (semAdd : Word) : NucM Unit := do
  let currTime ← STCK
  let p ← deref (← get).currentProc
  let s ← get
  phase1 (setPTime (some p)
    (s.pcb.pTime p + ((currTime - s.startTOD) - s.ioProcTime)))
  emit (.leave (some p) currTime)
  phase1 (setPS (← get).currentProc (copyState (← get).sysOld))
  discard <| phase1 (insertBlocked semAdd (← get).currentProc)

def P : NucM Unit := do
  let sem := (← get).sysOld.a1
  storeInt sem ((← loadInt sem) - 1)
  if (← loadInt sem).toInt < 0 then
    blockCurrent sem
    setCurrentProc none
    scheduler
  LDST (← get).sysOld

/-- One `case` of `spectrapvec`: set a pair of areas that is not set yet. -/
def setAreas (newArea : Payload Pcb → Pcb → Word)
    (set : Payload Pcb → Pcb → Word → Word → Payload Pcb) : NucM Unit := do
  let p ← deref (← get).currentProc
  if newArea (← get).pcb p = NULL then
    modify fun s => { s with pcb := set s.pcb p s.sysOld.a2 s.sysOld.a3 }
    LDST (← get).sysOld

def spectrapvec : NucM Unit := do
  let type := (← get).sysOld.a1
  if type = TLBTRAP then
    setAreas (·.pNewTlb) fun b p old new => { b with
      pOldTlb := Function.update b.pOldTlb p old
      pNewTlb := Function.update b.pNewTlb p new }
  else if type = PROGTRAP then
    setAreas (·.pNewPgm) fun b p old new => { b with
      pOldPgm := Function.update b.pOldPgm p old
      pNewPgm := Function.update b.pNewPgm p new }
  else if type = SYSTRAP then
    setAreas (·.pNewSys) fun b p old new => { b with
      pOldSys := Function.update b.pOldSys p old
      pNewSys := Function.update b.pNewSys p new }
  terminateprocess K (← get).currentProc
  scheduler

def getcputime : NucM Unit := do
  let currTime ← STCK
  let time ← getPTime (← get).currentProc
  let s ← get
  setSysOld (s.sysOld.setV0
    (BitVec.ofInt 32 (time + (currTime - s.startTOD) - s.ioProcTime)))
  LDST (← get).sysOld

/-- What `waitforclock` and `waitio` do with their entry of `semDevArray`. -/
def waitSemDev (semAdd : Word) : NucM Unit := do
  storeInt semAdd ((← loadInt semAdd) - 1)
  if (← loadInt semAdd).toInt < 0 then
    blockCurrent semAdd
    modify fun s => { s with sftBlkCnt := s.sftBlkCnt + 1 }
    setCurrentProc none
    scheduler
  LDST (← get).sysOld

def waitforclock : NucM Unit :=
  waitSemDev (K.semDev (BitVec.ofNat 32 (DEVICECNT - 1)))

/-- The entry of `semDevArray` that `waitio` computes. -/
def waitioIndex (lineNo devNo read : Word) : Word :=
  if lineNo ≠ TERMINT then
    DEVCNT * (lineNo - DEVINTOFFSET) + devNo
  else
    DEVCNT * (lineNo - DEVINTOFFSET) + TERMCNT * devNo + read

def waitio : NucM Unit := do
  let lineNo := (← get).sysOld.a1
  let devNo := (← get).sysOld.a2
  let read := (← get).sysOld.a3
  if lineNo < DISKINT then
    terminateprocess K (← get).currentProc
    scheduler
  let index := waitioIndex lineNo devNo read
  waitSemDev (K.semDev index)

/-- `pUoDHelper(new, old, trapLoc)`; `trap` reads the area at `trapLoc`.  `new` and `old` are areas
of user memory (`Machine.AdmitsAreas`): at NULL or an address that is not aligned the copy traps. -/
def pUoDHelper (new old : Word) (trap : Nucleus → State) : NucM Unit := do
  if new = NULL then
    terminateprocess K (← get).currentProc
    scheduler
  modify fun s => { s with mem := storeState s.mem old (copyState (trap s)) }
  LDST (stateAt (← get).mem new)

def passUpOrDie (type : Word) : NucM Unit := do
  let p ← deref (← get).currentProc
  let b := (← get).pcb
  if type = TLBTRAP then
    pUoDHelper K (b.pNewTlb p) (b.pOldTlb p) (·.tlbOld)
  else if type = PROGTRAP then
    pUoDHelper K (b.pNewPgm p) (b.pOldPgm p) (·.pgmOld)
  else if type = SYSTRAP then
    pUoDHelper K (b.pNewSys p) (b.pOldSys p) (·.sysOld)

def progTrapHandler : NucM Unit := passUpOrDie K PROGTRAP

def tlbTrapHandler : NucM Unit := passUpOrDie K TLBTRAP

def sysSwitch (call : Word) : NucM Unit :=
  if call = CREATEPROCESS then
    createprocess
  else if call = TERMINATEPROCESS then do
    terminateprocess K (← get).currentProc
    scheduler
  else if call = VERHOGEN then
    V
  else if call = PASSEREN then
    P
  else if call = SPECTRAPVEC then
    spectrapvec K
  else if call = GETCPUTIME then
    getcputime
  else if call = WAITCLOCK then
    waitforclock K
  else if call = WAITIO then
    waitio K
  else
    passUpOrDie K SYSTRAP

def sysCallHandler : NucM Unit := do
  let status := (← get).sysOld.sStatus
  let call := (← get).sysOld.a0
  if status &&& KERNELOFF = KERNELOFF ∧ call ≤ 8 then
    modify fun s => { s with pgmOld := copyState s.sysOld }
    modify fun s => { s with pgmOld.sCause :=
      (s.pgmOld.sCause &&& CAUSEREGMASK) ||| RESERVEDINSTR }
    progTrapHandler K
  setSysOld { (← get).sysOld with sPc := (← get).sysOld.sPc + WORDLEN }
  sysSwitch K call

end Kaya
