import Kaya.Types
import Kaya.Lib.Control

/-!
# `phase1/pcb.c`

The process control blocks live in a heap with one map for each field of
`pcb_t`; a `pcb_PTR` is an `Option`, with `none` for `NULL`.  A read or a write
through `none` is a `fault`.  `π` is the type of PCB addresses and `δ` that of
semaphore descriptors; both are arbitrary finite types here, so a pointer
chase of more than `Fintype.card π` steps is one that does not end.

Functions that take the address of a tail pointer take its value and return
the new one.
-/

namespace Kaya

/-- The link fields of `pcb_t` and `semd_t` and the heads of the lists that
`pcb.c` and `asl.c` keep. -/
structure Links (π δ : Type) where
  pNext : π → Option π
  pPrev : π → Option π
  pPrnt : π → Option π
  pChild : π → Option π
  pSib : π → Option π
  pcbFree : Option π
  sNext : δ → Option δ
  sSemAdd : δ → Word
  sProcQ : δ → Option π
  semdActive : Option δ
  semdFree : Option δ

/-- The other fields of `pcb_t`. -/
structure Payload (π : Type) where
  pS : π → State
  pSemAdd : π → Word
  pTime : π → Int
  pOldSys : π → Word
  pOldPgm : π → Word
  pOldTlb : π → Word
  pNewSys : π → Word
  pNewPgm : π → Word
  pNewTlb : π → Word

structure Phase1 (π δ : Type) where
  lk : Links π δ
  pcb : Payload π

/-- Code of phase 1. -/
abbrev Phase1M (π δ : Type) := EStateM Stop (Phase1 π δ)

variable {π δ : Type}

/-- The node a pointer points to; `NULL` faults. -/
def deref {σ α : Type} : Option α → EStateM Stop σ α
  | some p => pure p
  | none => throw .fault

section Fields

variable [DecidableEq π]

def getNext (p : Option π) : Phase1M π δ (Option π) := do
  let p ← deref p
  return (← get).lk.pNext p

def getPrev (p : Option π) : Phase1M π δ (Option π) := do
  let p ← deref p
  return (← get).lk.pPrev p

def getPrnt (p : Option π) : Phase1M π δ (Option π) := do
  let p ← deref p
  return (← get).lk.pPrnt p

def getChild (p : Option π) : Phase1M π δ (Option π) := do
  let p ← deref p
  return (← get).lk.pChild p

def getSib (p : Option π) : Phase1M π δ (Option π) := do
  let p ← deref p
  return (← get).lk.pSib p

def getPSemAdd (p : Option π) : Phase1M π δ Word := do
  let p ← deref p
  return (← get).pcb.pSemAdd p

def setNext (p v : Option π) : Phase1M π δ Unit := do
  let p ← deref p
  modify fun s => { s with lk.pNext := Function.update s.lk.pNext p v }

def setPrev (p v : Option π) : Phase1M π δ Unit := do
  let p ← deref p
  modify fun s => { s with lk.pPrev := Function.update s.lk.pPrev p v }

def setPrnt (p v : Option π) : Phase1M π δ Unit := do
  let p ← deref p
  modify fun s => { s with lk.pPrnt := Function.update s.lk.pPrnt p v }

def setChild (p v : Option π) : Phase1M π δ Unit := do
  let p ← deref p
  modify fun s => { s with lk.pChild := Function.update s.lk.pChild p v }

def setSib (p v : Option π) : Phase1M π δ Unit := do
  let p ← deref p
  modify fun s => { s with lk.pSib := Function.update s.lk.pSib p v }

def setPcbFree (v : Option π) : Phase1M π δ Unit :=
  modify fun s => { s with lk.pcbFree := v }

def setPSemAdd (p : Option π) (v : Word) : Phase1M π δ Unit := do
  let p ← deref p
  modify fun s => { s with pcb.pSemAdd := Function.update s.pcb.pSemAdd p v }

def setPS (p : Option π) (v : State) : Phase1M π δ Unit := do
  let p ← deref p
  modify fun s => { s with pcb.pS := Function.update s.pcb.pS p v }

def setPTime (p : Option π) (v : Int) : Phase1M π δ Unit := do
  let p ← deref p
  modify fun s => { s with pcb.pTime := Function.update s.pcb.pTime p v }

/-- The six trap areas of `p` are set to `NULL`. -/
def clearTraps (p : Option π) : Phase1M π δ Unit := do
  let p ← deref p
  modify fun s => { s with
    pcb.pOldSys := Function.update s.pcb.pOldSys p NULL
    pcb.pOldPgm := Function.update s.pcb.pOldPgm p NULL
    pcb.pOldTlb := Function.update s.pcb.pOldTlb p NULL
    pcb.pNewSys := Function.update s.pcb.pNewSys p NULL
    pcb.pNewPgm := Function.update s.pcb.pNewPgm p NULL
    pcb.pNewTlb := Function.update s.pcb.pNewTlb p NULL }

end Fields

section Queues

variable [DecidableEq π]

def mkEmptyProcQ : Option π := none

def emptyProcQ (tp : Option π) : Bool := tp == none

/-- `insertProcQ(&tp, p)`; returns the new `tp`. -/
def insertProcQ (tp p : Option π) : Phase1M π δ (Option π) := do
  if emptyProcQ tp then
    setNext p p
    setPrev p p
    return p
  else
    setNext p (← getNext tp)
    setNext tp p
    setPrev p tp
    setPrev (← getNext p) p
    return p

/-- `removeProcQ(&tp)`; returns the removed head and the new `tp`. -/
def removeProcQ (tp : Option π) : Phase1M π δ (Option π × Option π) := do
  if emptyProcQ tp then
    return (none, tp)
  if (← getNext tp) = tp then
    setNext tp none
    setPrev tp none
    return (tp, none)
  else
    let head ← getNext tp
    setNext tp (← getNext (← getNext tp))
    setPrev (← getNext tp) tp
    setNext head none
    setPrev head none
    return (head, tp)

/-- The search loop of `outProcQ`: `current` walks from `tp`. -/
def outProcQLoop (tp p : Option π) : Nat → Option π →
    Phase1M π δ (Option π × Option π)
  | 0, _ => throw .loop
  | fuel + 1, current => do
    if current = none then
      return (none, tp)
    if current = p then
      setPrev (← getNext current) (← getPrev current)
      setNext (← getPrev current) (← getNext current)
      setNext current none
      setPrev current none
      return (current, tp)
    if current = tp then
      return (none, tp)
    outProcQLoop tp p fuel (← getNext current)

/-- `outProcQ(&tp, p)`; returns `p` or `NULL`, and the new `tp`. -/
def outProcQ [Fintype π] (tp p : Option π) :
    Phase1M π δ (Option π × Option π) := do
  if emptyProcQ tp || p == none then
    return (none, tp)
  if tp = p ∧ tp = (← getNext tp) then
    setNext tp none
    setPrev tp none
    return (tp, none)
  if tp = p ∧ tp ≠ (← getNext tp) then
    setNext (← getPrev tp) (← getNext tp)
    setPrev (← getNext tp) (← getPrev tp)
    let tp' ← getPrev tp
    setNext tp none
    setPrev tp none
    return (tp, tp')
  outProcQLoop tp p (Fintype.card π + 1) tp

def headProcQ (tp : Option π) : Phase1M π δ (Option π) := do
  if emptyProcQ tp then
    return none
  else if (← getNext tp) = tp then
    return tp
  else
    getNext tp

end Queues

section Alloc

variable [DecidableEq π]

def freePcb (p : Option π) : Phase1M π δ Unit := do
  setPrnt p none
  setChild p none
  setSib p none
  setPS p resetState
  setPSemAdd p NULL
  setPTime p 0
  clearTraps p
  if emptyProcQ (← get).lk.pcbFree then
    setPrev p none
    setNext p none
    setPcbFree p
  else
    setPrev p none
    setNext p (← get).lk.pcbFree
    setPcbFree p

def allocPcb : Phase1M π δ (Option π) := do
  let pRet := (← get).lk.pcbFree
  if emptyProcQ pRet then
    return none
  setPcbFree (← getNext pRet)
  setNext pRet none
  setPrev pRet none
  setPrnt pRet none
  setChild pRet none
  setSib pRet none
  setPS pRet resetState
  setPSemAdd pRet NULL
  setPTime pRet 0
  clearTraps pRet
  return pRet

/-- The `while` loop of `initPcbs` over the entries of `pcbArr`. -/
def freePcbs : List π → Phase1M π δ Unit
  | [] => pure ()
  | p :: ps => do
    freePcb (some p)
    freePcbs ps

def initPcbs (pcbArr : List π) : Phase1M π δ Unit := do
  setPcbFree mkEmptyProcQ
  freePcbs pcbArr

end Alloc

section Tree

variable [DecidableEq π]

def emptyChild (p : Option π) : Phase1M π δ Bool := do
  if (← getChild p) = none then
    return true
  else
    return false

def insertChild (prnt p : Option π) : Phase1M π δ Unit := do
  if prnt = none then
    return
  else
    if (← getChild prnt) ≠ none then
      setSib p (← getChild prnt)
      setChild prnt p
      setPrnt p prnt
    else
      setChild prnt p
      setPrnt p prnt

def removeChild (p : Option π) : Phase1M π δ (Option π) := do
  if (← getChild p) = none then
    return none
  else
    let child ← getChild p
    if (← getSib child) ≠ none then
      setChild p (← getSib child)
    else
      setChild p none
    setPrnt child none
    return child

/-- The search loop of `outChild`: the sibling in front of `p`. -/
def outChildLoop (p : Option π) : Nat → Option π → Phase1M π δ (Option π)
  | 0, _ => throw .loop
  | fuel + 1, current => do
    if (← getSib current) ≠ p then
      outChildLoop p fuel (← getSib current)
    else
      return current

def outChild [Fintype π] (p : Option π) : Phase1M π δ (Option π) := do
  if (← getPrnt p) = none then
    return none
  let prnt ← getPrnt p
  if (← getChild prnt) = p then
    if (← getSib p) = none then
      setChild prnt none
    else
      setChild prnt (← getSib p)
    setPrnt p none
    return p
  let current ← outChildLoop p (Fintype.card π + 1) (← getChild prnt)
  if (← getSib p) ≠ none then
    setSib current (← getSib p)
  else
    setSib current none
  setPrnt p none
  return p

end Tree

/-! ## Memory for examples -/

def Phase1.sample : Phase1 π δ where
  lk :=
    { pNext := fun _ => none, pPrev := fun _ => none, pPrnt := fun _ => none
      pChild := fun _ => none, pSib := fun _ => none, pcbFree := none
      sNext := fun _ => none, sSemAdd := fun _ => 0, sProcQ := fun _ => none
      semdActive := none, semdFree := none }
  pcb :=
    { pS := fun _ => resetState, pSemAdd := fun _ => 0, pTime := fun _ => 0
      pOldSys := fun _ => 0, pOldPgm := fun _ => 0, pOldTlb := fun _ => 0
      pNewSys := fun _ => 0, pNewPgm := fun _ => 0, pNewTlb := fun _ => 0 }

end Kaya
