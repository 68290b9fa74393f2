/-
`src/core/chacha.S`: the ChaCha20 block function with a user's key, which the
calling thread runs itself, and with the system key, which thread 22 runs for
thread 0 with its registers 16 to 23.

Both share `chacha_loop`. Thread 22 counts its rounds in run bits 24 to 27, a
user's thread in register 16. Thread 0 calls `ime_check_system` of
`core_util.s` while thread 22 runs.
-/
import Memclave.Isa
import Memclave.Lib.Linked

namespace Memclave.Chacha

open Words Isa

inductive Label where
  | bootstrap
  | coreOnBoot
  | chachaBlk
  | sysKey
  | waitLoop
  | checkSystem
  | chachaThread
  | blockEntry
  | chachaLoop
  | loopLt8
  | threadEnd
  | userKey
  | userExit
  | secFault
  | sanityFault
  /-- code of other files -/
  | elsewhere
deriving DecidableEq, Repr

open Instr Src Cond Target

/-- Where the thread-io area begins. -/
def threadioStart : Word := 0xFFC0

/-- `QUARTERROUND` -/
def quarterround (r0 r1 r2 r3 : Reg) : List (Instr Label) := [
  add r0 r0 (reg r1),
  xor r3 r3 (reg r0),
  rol r3 r3 16,

  add r2 r2 (reg r3),
  xor r1 r1 (reg r2),
  rol r1 r1 12,

  add r0 r0 (reg r1),
  xor r3 r3 (reg r0),
  rol r3 r3 8,

  add r2 r2 (reg r3),
  xor r1 r1 (reg r2),
  rol r1 r1 7]

/-- The rounds at `chacha_loop`. -/
def doubleRoundCode : List (Instr Label) :=
  quarterround 0 4 8 12 ++ quarterround 1 5 9 13 ++ quarterround 2 6 10 14 ++ quarterround 3 7 11 15 ++
  quarterround 0 5 10 15 ++ quarterround 1 6 11 12 ++ quarterround 2 7 8 13 ++ quarterround 3 4 9 14

/-- The end of the loop's body. -/
def loopEnd : List (Instr Label) := [
  test id (imm 22) z (skip 2),
  sub 16 16 (imm 1) nz .chachaLoop,
  clrRun 27 nz (label .loopLt8),

  boot 24 z (label .chachaLoop),
  clrRun 24 t (skip 1),
  boot 25 z (label .chachaLoop),
  clrRun 25 t (skip 1),
  boot 26 z (label .chachaLoop),
  clrRun 26 t (skip 1),
  boot 27 t (label .chachaLoop)]

/-- The stores of thread 22, from `sw zero, 0x0, r0` on. -/
def threadExit : List (Instr Label) := [
  sw zero 0x0 (reg 0),
  move 0 (imm threadioStart),
  lw 0 (reg 0) 0x14,

  sw (reg 0) 0x4 (reg 1),
  sw (reg 0) 0x8 (reg 2),
  sw (reg 0) 0xC (reg 3),

  lw 1 zero 0x0,
  sw (reg 0) 0x0 (reg 1),

  move 0 (imm threadioStart),
  lw 1 (reg 0) 0x18,
  sw zero 0x0 (reg 1),

  lw 1 (reg 0) 0x4,
  add 12 12 (reg 1),

  lw 1 (reg 0) 0x8,
  add 13 13 (reg 1),

  lw 1 (reg 0) 0xC,
  add 14 14 (reg 1),

  lw 1 (reg 0) 0x10,
  add 15 15 (reg 1),

  add 4 4 (reg 16),
  add 5 5 (reg 17),
  add 6 6 (reg 18),
  add 7 7 (reg 19),
  add 8 8 (reg 20),
  add 9 9 (reg 21),
  add 10 10 (reg 22),
  add 11 11 (reg 23),

  lw 1 (reg 0) 20,

  sw (reg 1) 16 (reg 4),
  sw (reg 1) 20 (reg 5),
  sw (reg 1) 24 (reg 6),
  sw (reg 1) 28 (reg 7),
  sw (reg 1) 32 (reg 8),
  sw (reg 1) 36 (reg 9),
  sw (reg 1) 40 (reg 10),
  sw (reg 1) 44 (reg 11),
  sw (reg 1) 48 (reg 12),
  sw (reg 1) 52 (reg 13),
  sw (reg 1) 56 (reg 14),
  sw (reg 1) 60 (reg 15)]

/-- The code of `chacha.S`, without what `#if 0` leaves out, and the way to it
from `__bootstrap` in `core.s`. A `boot` without a condition goes on with what
follows, as one to `.+1` does. -/
def code : Label → List (Instr Label)
  | .bootstrap => [jump .coreOnBoot]
  | .coreOnBoot => [
    test id (imm 23) z (label .elsewhere),
    test id (imm 22) z (label .chachaThread),
    jump .elsewhere]
  | .chachaBlk => [
    test (reg 0) (imm 0) nz (label .userKey),
    test id (imm 0) nz (label .sanityFault)]
  | .sysKey => [
    move 6 (imm threadioStart),
    move 7 lneg,
    sw (reg 6) 60 (reg 7),

    sw (reg 6) 0x00 (reg 0),
    sw (reg 6) 0x04 (reg 1),
    sw (reg 6) 0x08 (reg 2),
    sw (reg 6) 0x0C (reg 3),
    sw (reg 6) 0x10 (reg 4),
    sw (reg 6) 0x14 (reg 5),

    boot 22 nz (label .secFault),
    call 0 .checkSystem]
  | .waitLoop => [
    lw 0 (reg 6) 60,
    test (reg 0) (imm 0) nz (label .waitLoop),
    ret]
  -- core_util.s
  | .checkSystem => [
    lw 1 zero 0,
    lw 2 zero 4,
    ldma zero 21 0,
    sw zero 0 (reg 1),
    sw zero 4 (reg 2),

    move 1 id,
    addTest zero (reg 1) nz (label .secFault),

    jumpReg 0]
  | .chachaThread => [
    move 0 (imm threadioStart),

    lw 1 zero 0x0,
    sw (reg 0) 0x18 (reg 1),

    lw 15 (reg 0) 0x10,
    lw 14 (reg 0) 0x0C,
    lw 13 (reg 0) 0x08,
    lw 12 (reg 0) 0x04,

    move 4 (reg 16),
    move 5 (reg 17),
    move 6 (reg 18),
    move 7 (reg 19),
    move 8 (reg 20),
    move 9 (reg 21),
    move 10 (reg 22),
    move 11 (reg 23),

    clrRun 24 t (skip 1),
    clrRun 25 t (skip 1),
    clrRun 26 t (skip 1),
    clrRun 27 t (skip 1)]
  | .blockEntry => [
    move 0 (imm 0x61707865),
    move 1 (imm 0x3320646e),
    move 2 (imm 0x79622d32),
    move 3 (imm 0x6b206574)]
  | .chachaLoop => doubleRoundCode ++ loopEnd
  | .loopLt8 => [
    boot 27 t (skip 1),
    boot 24 z (label .chachaLoop),

    add 0 0 (imm 0x61707865),
    add 1 1 (imm 0x3320646e),
    add 2 2 (imm 0x79622d32),
    add 3 3 (imm 0x6b206574),

    test id (imm 22) nz (label .userExit)] ++ threadExit
  | .threadEnd => [
    sw (reg 0) 60 (imm 0),
    stop]
  | .userKey => [
    sw (reg 22) 0x00 (reg 0),
    sw (reg 22) 0x04 (reg 1),
    sw (reg 22) 0x08 (reg 2),
    sw (reg 22) 0x0C (reg 3),
    sw (reg 22) 0x10 (reg 4),
    sw (reg 22) 0x14 (reg 5),

    sw (reg 22) 0x18 (reg 14),
    sw (reg 22) 0x1C (reg 15),
    sw (reg 22) 0x20 (reg 16),

    move 12 (reg 1),
    move 13 (reg 2),
    move 14 (reg 3),
    move 15 (reg 4),

    lw 4 (reg 0) 0x0,
    lw 5 (reg 0) 0x4,
    lw 6 (reg 0) 0x8,
    lw 7 (reg 0) 0xC,
    lw 8 (reg 0) 0x10,
    lw 9 (reg 0) 0x14,
    lw 10 (reg 0) 0x18,
    lw 11 (reg 0) 0x1C,

    move 16 (imm 10),
    jump .blockEntry]
  | .userExit => [
    lw 16 (reg 22) 0x4,
    add 12 12 (reg 16),
    lw 16 (reg 22) 0x8,
    add 13 13 (reg 16),
    lw 16 (reg 22) 0xC,
    add 14 14 (reg 16),
    lw 16 (reg 22) 0x10,
    add 15 15 (reg 16),

    lw 16 (reg 22) 0x14,

    sw (reg 16) 0x30 (reg 12),
    sw (reg 16) 0x34 (reg 13),
    sw (reg 16) 0x38 (reg 14),
    sw (reg 16) 0x3C (reg 15),

    lw 14 (reg 22) 0x0,

    lw 15 (reg 14) 0x0,
    add 4 4 (reg 15),
    lw 15 (reg 14) 0x4,
    add 5 5 (reg 15),
    lw 15 (reg 14) 0x8,
    add 6 6 (reg 15),
    lw 15 (reg 14) 0xC,
    add 7 7 (reg 15),

    lw 15 (reg 14) 0x10,
    add 8 8 (reg 15),
    lw 15 (reg 14) 0x14,
    add 9 9 (reg 15),
    lw 15 (reg 14) 0x18,
    add 10 10 (reg 15),
    lw 15 (reg 14) 0x1C,
    add 11 11 (reg 15),

    sw (reg 16) 0x00 (reg 0),
    sw (reg 16) 0x04 (reg 1),
    sw (reg 16) 0x08 (reg 2),
    sw (reg 16) 0x0C (reg 3),
    sw (reg 16) 0x10 (reg 4),
    sw (reg 16) 0x14 (reg 5),
    sw (reg 16) 0x18 (reg 6),
    sw (reg 16) 0x1C (reg 7),
    sw (reg 16) 0x20 (reg 8),
    sw (reg 16) 0x24 (reg 9),
    sw (reg 16) 0x28 (reg 10),
    sw (reg 16) 0x2C (reg 11),

    lw 14 (reg 22) 0x18,
    lw 15 (reg 22) 0x1C,
    lw 16 (reg 22) 0x20,

    ret]
  | .secFault | .sanityFault => [fault]
  | .elsewhere => [jump .elsewhere]

/-- `chacha.S` -/
def chachaS : Prog Label where
  code := code
  bootstrap := .bootstrap
  next
    | .bootstrap | .coreOnBoot | .elsewhere => .elsewhere
    | .chachaBlk => .sysKey
    | .sysKey => .waitLoop
    | .waitLoop => .chachaThread
    | .checkSystem => .secFault
    | .chachaThread => .blockEntry
    | .blockEntry => .chachaLoop
    | .chachaLoop => .loopLt8
    | .loopLt8 => .threadEnd
    | .threadEnd => .userKey
    | .userKey => .userExit
    | .userExit => .secFault
    | .secFault | .sanityFault => .sanityFault

/-! ## A place for it -/

def labels : List Label :=
  [.bootstrap, .coreOnBoot, .checkSystem, .secFault, .sanityFault, .chachaBlk, .sysKey, .waitLoop, .chachaThread,
    .blockEntry, .chachaLoop, .loopLt8, .threadEnd, .userKey, .userExit, .elsewhere]

/-- The instructions of a label. -/
def len (l : Label) : Nat := (code l).length

open Linked in
/-- One label after the other from address 0 on. -/
def board (mram : Nat → Word) : Board chachaS where
  addr l i := BitVec.ofNat 32 (posIn len labels l + i)
  find w := match findIn len labels w.toNat with
    | some (l, i) => .at l i
    | none => .faulted
  find_addr l i hi := by
    have hm : l ∈ labels := by cases l <;> decide
    have hlt := posIn_lt len hm
    have hsize : size len labels ≤ 1024 := by decide
    have hi' : i < len l := hi
    rw [BitVec.toNat_ofNat, Nat.mod_eq_of_lt (by omega), findIn_posIn hm hi']
  mram := mram

end Memclave.Chacha
