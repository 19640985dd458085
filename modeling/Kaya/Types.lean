import Mathlib.Data.Fintype.Card
import Mathlib.Data.Fintype.Pi
import Mathlib.Logic.Function.Basic

/-!
# Constants and types of the nucleus

`h/const.h` and `h/types.h`, as far as the modelled functions use them.  A C
`int` or `unsigned int` is a 32-bit word; the code's comparisons read it back
as signed or unsigned.
-/

namespace Kaya

/-- A machine word: `unsigned int`, `int`, `memaddr` and data pointers. -/
abbrev Word := BitVec 32

/-! ## `const.h` -/

def WORDLEN : Word := 4

def ALLOFF : Word := 0x00000000
def VMNOTON : Word := 0x00000000
def KERNELON : Word := 0x00000000
def KERNELOFF : Word := 0x00000008
def INTERUNMASKED : Word := 0x0000FF00
def INTERON : Word := 0x00000004
def PLOCTIMEON : Word := 0x08000000

/-- `RESERVEDINSTR`, the exception code 10 at its place in the cause register. -/
def RESERVEDINSTR : Word := 10 <<< 2
def CAUSEREGMASK : Word := 0xFFFFFF00

def PAGESIZE : Word := 4096

/-- `QUANTUM` and `INTERVAL`, in microseconds. -/
def QUANTUM : Int := 5000
def INTERVAL : Int := 100000

def CREATEPROCESS : Word := 1
def TERMINATEPROCESS : Word := 2
def VERHOGEN : Word := 3
def PASSEREN : Word := 4
def SPECTRAPVEC : Word := 5
def GETCPUTIME : Word := 6
def WAITCLOCK : Word := 7
def WAITIO : Word := 8

def MAXPROC : Nat := 20
def DEVICECNT : Nat := 49
def SUCCESS : Word := 0
def FAIL : Word := -1

/-- `NULL` is all ones, so it is the largest address. -/
def NULL : Word := 0xFFFFFFFF

/-- `MAXINT` and `MININT`, the keys of the two sentinel descriptors. -/
def MAXINT : Word := 0xFFFFFFFF
def MININT : Word := 0x0

def TLBTRAP : Word := 0
def PROGTRAP : Word := 1
def SYSTRAP : Word := 2

def PLOCINT : Int := 1
def IVTIMINT : Int := 2
def DISKINT : Word := 3
def TERMINT : Word := 7

def DEVINTOFFSET : Word := 3
def DEVCNT : Word := 8
def TERMCNT : Word := 3

def STATUSMASK : Word := 0xFF
def READY : Word := 1
def BUSY : Word := 3
def ACK : Word := 1

/-! ## `types.h` -/

instance State.neZero_sReg : @NeZero Nat Zero.ofOfNat0 31 := Nat.instNeZeroSucc

/-- `state_t`, the state of the processor. -/
@[ext] structure State where
  sAsid : Word
  sCause : Word
  sStatus : Word
  sPc : Word
  sReg : Fin 31 → Word
  deriving DecidableEq

namespace State

/-- `s_v0`, `s_a0` .. `s_a3`, `s_t9` and `s_sp` name entries of `s_reg`. -/
def v0 (st : State) : Word := st.sReg 1
def a0 (st : State) : Word := st.sReg 3
def a1 (st : State) : Word := st.sReg 4
def a2 (st : State) : Word := st.sReg 5
def a3 (st : State) : Word := st.sReg 6

def setV0 (st : State) (v : Word) : State :=
  { st with sReg := Function.update st.sReg 1 v }

def setT9 (st : State) (v : Word) : State :=
  { st with sReg := Function.update st.sReg 24 v }

def setSp (st : State) (v : Word) : State :=
  { st with sReg := Function.update st.sReg 26 v }

@[simp] theorem v0_setV0 (st : State) (v : Word) : (st.setV0 v).v0 = v := by
  simp [setV0, v0]

@[simp] theorem setV0_setV0 (st : State) (v w : Word) :
    (st.setV0 v).setV0 w = st.setV0 w := by
  simp [setV0]

@[simp] theorem setV0_v0 (st : State) : st.setV0 st.v0 = st := by
  simp [setV0, v0]

end State

/-- `resetState`: every field and every register is set to 0. -/
def resetState : State where
  sAsid := 0
  sCause := 0
  sStatus := 0
  sPc := 0
  sReg := fun _ => 0

/-- `copyState(orig, curr)` copies field by field; its result is what `curr`
holds afterwards. -/
def copyState (orig : State) : State where
  sAsid := orig.sAsid
  sCause := orig.sCause
  sStatus := orig.sStatus
  sPc := orig.sPc
  sReg := fun i => orig.sReg i

@[simp] theorem copyState_eq (orig : State) : copyState orig = orig := rfl

/-- How control leaves the nucleus: a state is loaded (`LDST`), the machine
stops (`HALT`, `PANIC`) or waits (`WAIT`).  `fault` is an access through
`NULL`, `loop` a loop that does not end. -/
inductive Stop where
  | ldst (st : State)
  | halt
  | panic
  | wait
  | fault
  | loop
  deriving DecidableEq

end Kaya
