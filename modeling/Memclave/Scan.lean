/-
The instruction filter of `core_scan.c`, on one 8-byte word.

`is_ldmai` and `is_thread_ctrl` compare the word above bit 39 or 41 as it
is; the other comparisons mask.
-/
import Memclave.Lib.Words

namespace Memclave.Loader

open Words

def isLdmai (n : BitVec 64) : Bool :=
  if n >>> 39 ≠ 0xe0 then false
  else if (n >>> 20 &&& 0xF) ≠ 0 then false
  else if (n &&& 0x1FF) ≠ 0x1 then false
  else true

def isThreadCtrl (n : BitVec 64) : Bool :=
  if n >>> 41 ≠ 0x3e then false
  else if (n >>> 39 &&& 0x3) = 0 then false
  else if (n >>> 28 &&& 0x3F) ≠ 0x32 then false
  else true

/-- `wr` is a `uint8_t`. -/
def isBannedReg (n : BitVec 64) : Bool :=
  let wr : Byte := (n >>> 39 &&& 0x1F).setWidth 8
  if wr < 24 then wr = 20 || wr = 21
  else
    let wr : Byte := ((n >>> 44 &&& 0x3) <<< 3 ||| (n >>> 39 &&& 0x7)).setWidth 8
    wr = 20 || wr = 21

/-- One of the three checks faults on the word. -/
def banned (n : BitVec 64) : Bool := isLdmai n || isThreadCtrl n || isBannedReg n

/-- The DPU's instruction in an 8-byte word: the low 48 bits. -/
def instr (n : BitVec 64) : BitVec 48 := n.setWidth 48

end Memclave.Loader
