import Kaya.Phase2.Nucleus

/-!
# `phase2/scheduler.c`
-/

namespace Kaya

def scheduler : NucM Unit := do
  emit (.scheduler (← get).currentProc)
  modify fun s => { s with waiting := false, ioProcTime := 0 }
  let nextProc ← removeReady
  if nextProc ≠ none then
    setCurrentProc nextProc
    setTIMER QUANTUM
    let now ← STCK
    modify fun s => { s with startTOD := now }
    emit (.dispatch (← get).currentProc now)
    LDST (← getPS (← get).currentProc)
  if (← get).procCnt = 0 then
    HALT
  if (← get).sftBlkCnt = 0 then
    PANIC
  if 0 < (← get).sftBlkCnt then
    modify fun s => { s with waiting := true }
    -- `INTERON` is the previous-enable bit; two places right is the current one
    setSTATUS ((← getSTATUS) ||| (INTERON >>> 2) ||| INTERUNMASKED ||| PLOCTIMEON)
    WAIT
  emit .schedulerReturned

end Kaya
