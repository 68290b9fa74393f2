/-
Poly1305 as RFC 8439 (section 2.5) states it, on numbers.
-/
import Mathlib.Data.Nat.Bitwise
import Mathlib.Data.List.Basic
import Mathlib.Data.List.Induction

namespace Poly1305

/-- The prime `2^130 - 5`. -/
def p : Nat := 2 ^ 130 - 5

/-- The bits of `r` the RFC keeps. -/
def clamp (r : Nat) : Nat := r &&& 0x0ffffffc0ffffffc0ffffffc0fffffff

/-- The accumulator after one more 16-byte block. -/
def absorb (r acc block : Nat) : Nat := (acc + (block + 2 ^ 128)) * r % p

/-- The Horner evaluation over the blocks, below `p`. -/
def horner (r : Nat) (blocks : List Nat) : Nat := blocks.foldl (absorb r) 0

/-- The tag of whole blocks: `r` clamped already, `s` the second key half. -/
def tag (r s : Nat) (blocks : List Nat) : Nat := (horner r blocks + s) % 2 ^ 128

theorem p_pos : 0 < p := by simp [p]

theorem absorb_lt (r acc block : Nat) : absorb r acc block < p := by
  unfold absorb
  exact Nat.mod_lt _ p_pos

theorem horner_concat (r : Nat) (blocks : List Nat) (b : Nat) :
    horner r (blocks ++ [b]) = absorb r (horner r blocks) b :=
  List.foldl_concat (absorb r) 0 b blocks

theorem horner_lt (r : Nat) (blocks : List Nat) : horner r blocks < p := by
  induction blocks using List.reverseRecOn with
  | nil => exact p_pos
  | append_singleton bs b _ => rw [horner_concat]; exact absorb_lt ..

end Poly1305
