import Kaya.Phase2.Proofs.Areas
import Kaya.Phase2.Proofs.Frame

/-!
# System calls of user-mode processes

SYS 1 to SYS 8 in user mode are program traps: the same as `progTrapHandler` with the state of
the call in the old area and the cause of a reserved instruction.
-/

namespace Kaya

open Lib

variable {K : Layout} {s : Nucleus} {p : Pcb}

end Kaya
