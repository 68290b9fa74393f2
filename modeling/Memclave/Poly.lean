/-
The Poly1305 of `src/poly`: `poly.c` on its 32-bit words and `poly.S` on its
registers.

A row of five registers is `Limbs`. The three carry chains of `poly.S` are
one definition (`Limbs.add`: one `add`, four `addc`); the rest follows the
source instruction by instruction. `poly_mul_assign` has its loop written
out four times, once for each word of the key: here that is `mulLoop`,
called four times.
-/
import Memclave.Lib.Words

namespace Memclave.Poly

open Words

/-- Five registers, or a `uint32_t[5]`, the lowest word first. -/
structure Limbs where
  w0 : Word
  w1 : Word
  w2 : Word
  w3 : Word
  w4 : Word
deriving DecidableEq, Repr

def Limbs.zero : Limbs := ⟨0, 0, 0, 0, 0⟩

/-- `add` on the lowest register, `addc` on the other four. -/
def Limbs.add (t s : Limbs) : Limbs :=
  let r0 := addc t.w0 s.w0 false
  let r1 := addc t.w1 s.w1 r0.2
  let r2 := addc t.w2 s.w2 r1.2
  let r3 := addc t.w3 s.w3 r2.2
  let r4 := addc t.w4 s.w4 r3.2
  ⟨r0.1, r1.1, r2.1, r3.1, r4.1⟩

/-- The carry flag after the last `addc`. -/
def Limbs.carryOut (t s : Limbs) : Bool :=
  let r0 := addc t.w0 s.w0 false
  let r1 := addc t.w1 s.w1 r0.2
  let r2 := addc t.w2 s.w2 r1.2
  let r3 := addc t.w3 s.w3 r2.2
  let r4 := addc t.w4 s.w4 r3.2
  r4.2

/-! ## `poly.S` -/

/-- The mask of `POLY_ADD_REDUCE`: all ones if the top limb is above 3 in
the signed comparison `gts`, and 0 otherwise. -/
def reduceMask (t5 : Word) : Word :=
  let n1 : Word := if BitVec.slt 3 t5 then 1 else 0
  let n1 := n1 ^^^ 0x1
  n1 + (-1)

/-- The macro `POLY_ADD_REDUCE`: `t` becomes `t + s`, less `2^130 - 5` when
the top limb of the sum is above 3. -/
def addReduceMacro (t s : Limbs) : Limbs :=
  let t := t.add s
  let n1 := reduceMask t.w4
  let n2 := n1 &&& 0xFFFFFFFC
  let n1 := n1 &&& 0x5
  t.add ⟨n1, 0, 0, 0, n2⟩

def polyMaskedReduce (target : Limbs) (mask : Word) : Limbs :=
  let r7 := mask &&& 0x5
  let r8 := mask &&& 0x0
  let r9 := mask &&& 0xFFFFFFFC
  target.add ⟨r7, r8, r8, r8, r9⟩

def polyAddReduce (target : Limbs) (block : Fin 4 → Word) : Limbs :=
  addReduceMacro target ⟨block 0, block 1, block 2, block 3, 0x1⟩

/-- `poly_mul_assign_loop_i`, `r2` passes left, the rest of the key word in
`r3`: the product `r4`–`r8` and the accumulator `r9`–`r13`. -/
def mulLoop : Nat → Word → Limbs × Limbs → Limbs × Limbs
  | 0, _, s => s
  | r2 + 1, r3, (prod, acc) =>
    let prod := if r3 &&& 0x1 = 0 then prod else addReduceMacro prod acc
    mulLoop r2 (r3 >>> 1) (prod, addReduceMacro acc acc)

/-- What is stored back: the product, and nothing of the accumulator. -/
def mulStore (s : Limbs × Limbs) : Limbs := s.1

def polyMulAssign (a : Limbs) (r : Fin 4 → Word) : Limbs :=
  let s := mulLoop 32 (r 0) (Limbs.zero, a)
  let s := mulLoop 32 (r 1) s
  let s := mulLoop 32 (r 2) s
  let s := mulLoop 32 (r 3) s
  mulStore s

def polyAdd128 (a b : Fin 4 → Word) : Fin 4 → Word :=
  let r3 := addc (a 0) (b 0) false
  let r4 := addc (a 1) (b 1) r3.2
  let r5 := addc (a 2) (b 2) r4.2
  let r6 := addc (a 3) (b 3) r5.2
  ![r3.1, r4.1, r5.1, r6.1]

/-! ## `poly.c` -/

structure Context where
  r : Fin 4 → Word
  s : Fin 4 → Word
  a : Limbs

/-- All ones if `n` is at least `2^130 - 5`, for an `n` below `2^130`. -/
def polyReductionReq (n : Limbs) : Word :=
  let b := n.w4 == 0x3
  let c := n.w3 == 0xFFFFFFFF && n.w2 == 0xFFFFFFFF && n.w1 == 0xFFFFFFFF
  let d := (0xFFFFFFFB : Word).ule n.w0
  let res : Word := if b && c && d then 1 else 0
  0 - res

def polyMulKey (ctx : Context) : Context :=
  let a := polyMulAssign ctx.a ctx.r
  let mask := polyReductionReq a
  { ctx with a := polyMaskedReduce a mask }

def polyFeedBlock (ctx : Context) (block : Fin 4 → Word) : Context :=
  polyMulKey { ctx with a := polyAddReduce ctx.a block }

def polyInit (key : Fin 8 → Word) : Context where
  r := ![key 0 &&& 0x0FFFFFFF, key 1 &&& 0x0FFFFFFC, key 2 &&& 0x0FFFFFFC, key 3 &&& 0x0FFFFFFC]
  s := ![key 4, key 5, key 6, key 7]
  a := Limbs.zero

def Limbs.low (a : Limbs) : Fin 4 → Word := ![a.w0, a.w1, a.w2, a.w3]

/-- The tag, and the context left behind, which is all zero. -/
def polyFinalize (ctx : Context) : (Fin 4 → Word) × Context :=
  (polyAdd128 ctx.a.low ctx.s, ⟨fun _ => 0, fun _ => 0, Limbs.zero⟩)

/-- `poly_init`, `poly_feed_block` on every block in order, `poly_finalize`. -/
def polyTag (key : Fin 8 → Word) (blocks : List (Fin 4 → Word)) : Fin 4 → Word :=
  (polyFinalize (blocks.foldl polyFeedBlock (polyInit key))).1

end Memclave.Poly
