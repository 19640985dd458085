import Kaya.Phase2.Exceptions
import Kaya.Phase2.Interrupts

/-!
# `phase2/initial.c`
-/

namespace Kaya

variable (K : Layout)

def Layout.RAMTOP : Word := K.rambase + K.ramsize

/-- A new area: the handler's address, the top of RAM as its stack and a status
with interrupts off. -/
def newArea (handler : Word) (area : State) : State :=
  let area := { area.setT9 handler with sPc := handler }
  { area.setSp K.RAMTOP with sStatus := ALLOFF ||| PLOCTIMEON }

def clearSemDevs : List Nat → NucM Unit
  | [] => pure ()
  | i :: is => do
    storeInt (K.semDev (BitVec.ofNat 32 i)) 0
    clearSemDevs is

def firstState (st : State) : State :=
  let st := { st.setT9 K.test with sPc := K.test }
  { st.setSp (K.RAMTOP - PAGESIZE) with
    sStatus := INTERON ||| INTERUNMASKED ||| VMNOTON ||| PLOCTIMEON ||| KERNELON }

def main : NucM Unit := do
  modify fun s => { s with
    sysNew := newArea K K.sysCallHandler s.sysNew
    pgmNew := newArea K K.progTrapHandler s.pgmNew
    tlbNew := newArea K K.tlbTrapHandler s.tlbNew
    intNew := newArea K K.ioTrapHandler s.intNew }
  phase1 (initPcbs (List.finRange MAXPROC))
  phase1 (initASL (List.finRange (MAXPROC + 2)))
  modify fun s => { s with
    procCnt := 0, sftBlkCnt := 0, lk.readyQue := mkEmptyProcQ
    currentProc := none, ioProcTime := 0 }
  clearSemDevs K (List.range DEVICECNT)
  let p ← phase1 allocPcb
  phase1 (setPS p (firstState K (← getPS p)))
  insertReady p
  modify fun s => { s with procCnt := s.procCnt + 1 }
  emit (.create p)
  LDIT INTERVAL
  let now ← STCK
  modify fun s => { s with startTOD := now }
  scheduler

end Kaya
