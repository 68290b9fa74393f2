/-
The ChaCha20 block function of RFC 8439, section 2.3.

The quarter round works on any row of words and four of its places; the
block function is the case of a row of sixteen. Where the sixteen are places
of a larger row, the double round is that of the sixteen (`doubleRound_comp`)
and leaves the rest as it is (`doubleRound_other`).
-/
import Memclave.Lib.Words
import Mathlib.Data.Fin.VecNotation
import Mathlib.Logic.Function.Iterate

namespace ChaCha20

open Words Function

/-- The four steps of a quarter round on four words. -/
def quarter (a b c d : Word) : Word × Word × Word × Word :=
  let a := a + b
  let d := (d ^^^ a).rotateLeft 16
  let c := c + d
  let b := (b ^^^ c).rotateLeft 12
  let a := a + b
  let d := (d ^^^ a).rotateLeft 8
  let c := c + d
  let b := (b ^^^ c).rotateLeft 7
  (a, b, c, d)

def quarterRound {ι : Type} [DecidableEq ι] (a b c d : ι) (s : ι → Word) : ι → Word :=
  let q := quarter (s a) (s b) (s c) (s d)
  update (update (update (update s a q.1) b q.2.1) c q.2.2.1) d q.2.2.2

/-- A double round, on a row whose places include sixteen given ones. -/
def doubleRound {ι : Type} [DecidableEq ι] (i : Fin 16 → ι) (s : ι → Word) : ι → Word :=
  let s := quarterRound (i 0) (i 4) (i 8) (i 12) s
  let s := quarterRound (i 1) (i 5) (i 9) (i 13) s
  let s := quarterRound (i 2) (i 6) (i 10) (i 14) s
  let s := quarterRound (i 3) (i 7) (i 11) (i 15) s
  let s := quarterRound (i 0) (i 5) (i 10) (i 15) s
  let s := quarterRound (i 1) (i 6) (i 11) (i 12) s
  let s := quarterRound (i 2) (i 7) (i 8) (i 13) s
  quarterRound (i 3) (i 4) (i 9) (i 14) s

def init (key : Fin 8 → Word) (counter : Word) (nonce : Fin 3 → Word) : Fin 16 → Word :=
  ![0x61707865, 0x3320646e, 0x79622d32, 0x6b206574,
    key 0, key 1, key 2, key 3, key 4, key 5, key 6, key 7,
    counter, nonce 0, nonce 1, nonce 2]

def block (key : Fin 8 → Word) (counter : Word) (nonce : Fin 3 → Word) : Fin 16 → Word :=
  let s := init key counter nonce
  fun i => (doubleRound id)^[10] s i + s i

/-- The test vector of section 2.3.2. -/
example : block ![0x03020100, 0x07060504, 0x0b0a0908, 0x0f0e0d0c, 0x13121110, 0x17161514, 0x1b1a1918, 0x1f1e1d1c]
    1 ![0x09000000, 0x4a000000, 0x00000000] 0 = 0xe4e7f110 := by
  decide +kernel

/-- The place of a word of the key. -/
def keyPlace (j : Fin 8) : Fin 16 := ⟨j.val + 4, by omega⟩

theorem init_key (key : Fin 8 → Word) (counter : Word) (nonce : Fin 3 → Word) :
    ∀ j, init key counter nonce (keyPlace j) = key j
  | 0 | 1 | 2 | 3 | 4 | 5 | 6 | 7 => rfl

theorem eq_keyPlace {i : Fin 16} (h4 : 4 ≤ i.val) (h12 : i.val < 12) : ∃ j, i = keyPlace j :=
  ⟨⟨i.val - 4, by omega⟩, Fin.ext (Nat.sub_add_cancel h4).symm⟩

/-! ## Sixteen places of a larger row -/

variable {ι : Type} [DecidableEq ι] {i : Fin 16 → ι} {s : ι → Word}

theorem quarterRound_comp (hi : Injective i) (a b c d : Fin 16) (s : ι → Word) :
    quarterRound (i a) (i b) (i c) (i d) s ∘ i = quarterRound a b c d (s ∘ i) := by
  simp only [quarterRound, update_comp_eq_of_injective _ hi, comp_apply]

theorem quarterRound_other {a b c d x : ι} (ha : x ≠ a) (hb : x ≠ b) (hc : x ≠ c) (hd : x ≠ d) :
    quarterRound a b c d s x = s x := by
  simp only [quarterRound, update_of_ne, ne_eq, ha, hb, hc, hd, not_false_eq_true]

theorem doubleRound_comp (hi : Injective i) (s : ι → Word) : doubleRound i s ∘ i = doubleRound id (s ∘ i) := by
  simp only [doubleRound, quarterRound_comp hi, id_eq]

theorem doubleRound_other {x : ι} (h : ∀ j, x ≠ i j) : doubleRound i s x = s x := by
  simp only [doubleRound, quarterRound_other (h _) (h _) (h _) (h _)]

end ChaCha20
