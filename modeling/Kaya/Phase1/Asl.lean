import Kaya.Phase1.Pcb

/-!
# `phase1/asl.c`

The active semaphore list is a chain of descriptors sorted by `s_semAdd`
between a sentinel with address 0 and one with address `0xFFFFFFFF`; unused
descriptors are on `semdFree_h`.
-/

namespace Kaya

variable {π δ : Type}

def getSNext (d : Option δ) : Phase1M π δ (Option δ) := do
  let d ← deref d
  return (← get).lk.sNext d

def getSSemAdd (d : Option δ) : Phase1M π δ Word := do
  let d ← deref d
  return (← get).lk.sSemAdd d

def getSProcQ (d : Option δ) : Phase1M π δ (Option π) := do
  let d ← deref d
  return (← get).lk.sProcQ d

/-- The search loop of `findASemd`. -/
def findASemdLoop (i : Word) : Nat → Option δ → Phase1M π δ (Option δ)
  | 0, _ => throw .loop
  | fuel + 1, sCurrent => do
    if (← getSSemAdd (← getSNext sCurrent)) < i then
      findASemdLoop i fuel (← getSNext sCurrent)
    else
      return sCurrent

def findASemd [Fintype δ] (i : Word) : Phase1M π δ (Option δ) := do
  findASemdLoop i (Fintype.card δ + 1) (← get).lk.semdActive

section Writes

variable [DecidableEq δ]

def setSNext (d v : Option δ) : Phase1M π δ Unit := do
  let d ← deref d
  modify fun s => { s with lk.sNext := Function.update s.lk.sNext d v }

def setSSemAdd (d : Option δ) (v : Word) : Phase1M π δ Unit := do
  let d ← deref d
  modify fun s => { s with lk.sSemAdd := Function.update s.lk.sSemAdd d v }

def setSProcQ (d : Option δ) (v : Option π) : Phase1M π δ Unit := do
  let d ← deref d
  modify fun s => { s with lk.sProcQ := Function.update s.lk.sProcQ d v }

def setSemdActive (v : Option δ) : Phase1M π δ Unit :=
  modify fun s => { s with lk.semdActive := v }

def setSemdFree (v : Option δ) : Phase1M π δ Unit :=
  modify fun s => { s with lk.semdFree := v }

def freeSemd (s : Option δ) : Phase1M π δ Unit := do
  setSSemAdd s NULL
  setSProcQ s mkEmptyProcQ
  setSNext s (← get).lk.semdFree
  setSemdFree s

def allocSemd (i : Word) : Phase1M π δ (Option δ) := do
  let sRet := (← get).lk.semdFree
  if sRet = none then
    return none
  else
    setSemdFree (← getSNext sRet)
    setSNext sRet none
    setSProcQ sRet mkEmptyProcQ
    setSSemAdd sRet i
    return sRet

/-- The `while` loop of `initASL` over the entries of `semdArr`. -/
def freeSemds : List δ → Phase1M π δ Unit
  | [] => pure ()
  | d :: ds => do
    freeSemd (some d)
    freeSemds ds

def initASL (semdArr : List δ) : Phase1M π δ Unit := do
  setSemdFree none
  freeSemds semdArr
  setSemdActive (← allocSemd MININT)
  let hi ← allocSemd MAXINT
  setSNext (← get).lk.semdActive hi

end Writes

variable [DecidableEq π] [DecidableEq δ] [Fintype δ]

/-- `insertBlocked(semAdd, p)`; `TRUE` when no descriptor is left. -/
def insertBlocked (semAdd : Word) (p : Option π) : Phase1M π δ Bool := do
  let sPrev ← findASemd semAdd
  let sCurrent ← getSNext sPrev
  if p = none then
    return true
  if semAdd = (← getSSemAdd sCurrent) then
    setPSemAdd p semAdd
    setSProcQ sCurrent (← insertProcQ (← getSProcQ sCurrent) p)
    return false
  if (← get).lk.semdFree = none then
    return true
  setPSemAdd p semAdd
  let sInsert ← allocSemd semAdd
  setSNext sInsert sCurrent
  setSNext sPrev sInsert
  setSProcQ sInsert mkEmptyProcQ
  setSProcQ sInsert (← insertProcQ (← getSProcQ sInsert) p)
  return false

def removeBlocked (semAdd : Word) : Phase1M π δ (Option π) := do
  let sPrev ← findASemd semAdd
  let sCurrent ← getSNext sPrev
  if (← getSSemAdd sCurrent) = semAdd then
    let (pReturn, tp) ← removeProcQ (← getSProcQ sCurrent)
    setSProcQ sCurrent tp
    if emptyProcQ (← getSProcQ sCurrent) then
      setSNext sPrev (← getSNext sCurrent)
      freeSemd sCurrent
    setPSemAdd pReturn NULL
    return pReturn
  return none

def outBlocked [Fintype π] (p : Option π) : Phase1M π δ (Option π) := do
  let sAdd ← getPSemAdd p
  if sAdd = NULL then
    return none
  let sPrev ← findASemd sAdd
  let sCurrent ← getSNext sPrev
  if (← getSSemAdd sCurrent) = sAdd then
    let (pReturn, tp) ← outProcQ (← getSProcQ sCurrent) p
    setSProcQ sCurrent tp
    if emptyProcQ (← getSProcQ sCurrent) then
      setSNext sPrev (← getSNext sCurrent)
      freeSemd sCurrent
    setPSemAdd pReturn NULL
    return pReturn
  return none

def headBlocked (semAdd : Word) : Phase1M π δ (Option π) := do
  let sCurrent ← findASemd semAdd
  let sCurrent ← getSNext sCurrent
  if semAdd = (← getSSemAdd sCurrent) then
    headProcQ (← getSProcQ sCurrent)
  else
    return none

end Kaya
