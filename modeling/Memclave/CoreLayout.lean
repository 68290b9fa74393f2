/-
One place for the core: its files one after the other from address 0 on, a
C function in the place of its first instruction.
-/
import Memclave.Core
import Memclave.Lib.Linked

namespace Memclave.Core

open Words Asm Linked

/-- The instructions of a label. -/
def len (l : Label) : Nat := (code l).length

end Memclave.Core
