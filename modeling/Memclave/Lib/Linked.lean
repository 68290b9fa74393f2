/-
Pieces of code linked one after the other: where a piece begins
(`posIn`), and what lies at a position (`findIn`). The two are inverse to
each other (`findIn_posIn`), whatever the pieces are.
-/
import Mathlib.Tactic.Common

namespace Linked

variable {L : Type} (len : L → Nat)

/-- Where `l` begins. -/
def posIn [DecidableEq L] : List L → L → Nat
  | [], _ => 0
  | l' :: ls, l => if l' = l then 0 else len l' + posIn ls l

/-- The piece at a position, and the place in it. -/
def findIn : List L → Nat → Option (L × Nat)
  | [], _ => none
  | l :: ls, n => if n < len l then some (l, n) else findIn ls (n - len l)

def size : List L → Nat
  | [] => 0
  | l :: ls => len l + size ls

variable {len} {ls : List L} {l : L} {i n : Nat}

variable [DecidableEq L]

theorem findIn_posIn (hm : l ∈ ls) (hi : i < len l) : findIn len ls (posIn len ls l + i) = some (l, i) := by
  induction ls with
  | nil => cases hm
  | cons l' ls ih =>
    rw [posIn]
    split
    next h =>
      subst h
      rw [Nat.zero_add, findIn, if_pos hi]
    next h =>
      have hm' : l ∈ ls := (List.mem_cons.mp hm).resolve_left (Ne.symm h)
      rw [findIn, if_neg (by omega), show len l' + posIn len ls l + i - len l' = posIn len ls l + i by omega]
      exact ih hm'

variable (len) in
theorem posIn_lt (hm : l ∈ ls) : posIn len ls l + len l ≤ size len ls := by
  induction ls with
  | nil => cases hm
  | cons l' ls ih =>
    rw [posIn, size]
    split
    next h =>
      subst h
      omega
    next h =>
      have := ih ((List.mem_cons.mp hm).resolve_left (Ne.symm h))
      omega

end Linked
