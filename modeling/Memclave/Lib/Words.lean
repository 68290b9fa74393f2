/-
32-bit words: addition with carry, rotation, and the number a little-endian
row of words stands for.

`addc_val` is the one fact the carry chains need: the sum word and the carry
together are the exact sum. Rows are numbers in base `2^32` (`rowVal`); two
rows with the same number are the same row (`rowVal_inj`).
-/
import Mathlib.Data.Nat.Bitwise
import Mathlib.Data.Fin.VecNotation
import Mathlib.Data.List.OfFn
import Mathlib.Tactic.Ring
import Mathlib.Tactic.IntervalCases

namespace Words

abbrev Byte := BitVec 8

abbrev Word := BitVec 32

abbrev Dword := BitVec 64

theorem word_lt (x : Word) : x.toNat < 2 ^ 32 := x.isLt

theorem word_ext {x y : Word} (h : x.toNat = y.toNat) : x = y := BitVec.eq_of_toNat_eq h

theorem xor_eq_left {x y : Word} : x ^^^ y = x ↔ y = 0 := by
  constructor
  · intro h
    have := congrArg (x ^^^ ·) h
    simpa [← BitVec.xor_assoc] using this
  · rintro rfl
    exact BitVec.xor_zero

/-! ## Places in rows of fixed length -/

instance (priority := 1100) neZero_three : NeZero 3 := ⟨by decide⟩

instance (priority := 1100) neZero_four : NeZero 4 := ⟨by decide⟩

instance (priority := 1100) neZero_eight : NeZero 8 := ⟨by decide⟩

instance (priority := 1100) neZero_sixteen : NeZero 16 := ⟨by decide⟩

/-- A place in the first half of a row of sixteen. -/
theorem lt_sixteen (i : Fin 8) : i.val < 16 := by omega

theorem mod_sixteen_lt (j : Nat) : j % 16 < 16 := Nat.mod_lt j (by decide)

/-! ## Addition with carry -/

/-- The sum word and the outgoing carry flag of `x + y + c`. -/
def addc (x y : Word) (c : Bool) : Word × Bool :=
  (BitVec.ofNat 32 (x.toNat + y.toNat + c.toNat), decide (2 ^ 32 ≤ x.toNat + y.toNat + c.toNat))

/-- **The sum word and the carry are the exact sum.** -/
theorem addc_val (x y : Word) (c : Bool) :
    (addc x y c).1.toNat + 2 ^ 32 * (addc x y c).2.toNat = x.toNat + y.toNat + c.toNat := by
  have hx := word_lt x
  have hy := word_lt y
  have hc := Bool.toNat_le c
  simp only [addc, BitVec.toNat_ofNat]
  by_cases h : 2 ^ 32 ≤ x.toNat + y.toNat + c.toNat
  · rw [decide_eq_true h]
    simp only [Bool.toNat_true]
    omega
  · rw [decide_eq_false h]
    simp only [Bool.toNat_false]
    omega

/-! ## Rows of words -/

/-- The number a row of words stands for, its lowest word first. -/
def rowVal : List Word → Nat
  | [] => 0
  | x :: xs => x.toNat + 2 ^ 32 * rowVal xs

theorem rowVal_lt : ∀ xs : List Word, rowVal xs < 2 ^ (32 * xs.length)
  | [] => by simp [rowVal]
  | x :: xs => by
    have hx := word_lt x
    have ih := rowVal_lt xs
    have e : 2 ^ (32 * (x :: xs).length) = 2 ^ 32 * 2 ^ (32 * xs.length) := by
      rw [← Nat.pow_add, List.length_cons]
      congr 1
      omega
    rw [e, rowVal]
    omega

/-- Rows of one length with the same number are the same row. -/
theorem rowVal_inj : ∀ {xs ys : List Word}, xs.length = ys.length → rowVal xs = rowVal ys → xs = ys
  | [], [], _, _ => rfl
  | x :: xs, y :: ys, hl, h => by
    have hx := word_lt x
    have hy := word_lt y
    simp only [rowVal] at h
    have h1 : x.toNat = y.toNat := by omega
    have h2 : rowVal xs = rowVal ys := by omega
    rw [word_ext h1, rowVal_inj (by simpa using hl) h2]

/-- The low word and the words above it do not meet in a bitwise and. -/
theorem and_low_high {x m : Nat} (hx : x < 2 ^ 32) (hm : m < 2 ^ 32) (y k : Nat) :
    (x + 2 ^ 32 * y) &&& (m + 2 ^ 32 * k) = (x &&& m) + 2 ^ 32 * (y &&& k) := by
  have hxm : x &&& m < 2 ^ 32 := lt_of_le_of_lt Nat.and_le_left hx
  apply Nat.eq_of_testBit_eq
  intro i
  rw [Nat.add_comm x, Nat.add_comm m, Nat.add_comm (x &&& m), Nat.testBit_and,
    Nat.testBit_two_pow_mul_add _ hx, Nat.testBit_two_pow_mul_add _ hm, Nat.testBit_two_pow_mul_add _ hxm]
  split <;> rw [Nat.testBit_and]

theorem and_two_pow_mul (x y i : Nat) : x &&& (2 ^ i * y) = 2 ^ i * (x / 2 ^ i &&& y) := by
  apply Nat.eq_of_testBit_eq
  intro j
  rw [Nat.testBit_and, Nat.testBit_two_pow_mul, Nat.testBit_two_pow_mul, Nat.testBit_and, Nat.testBit_div_two_pow]
  by_cases h : i ≤ j
  · rw [Nat.sub_add_cancel h]
    cases x.testBit j <;> simp
  · simp [h]

/-- The mask that clears the low `i` bits. -/
theorem and_high {x i n : Nat} (hx : x < 2 ^ (n + i)) : x &&& (2 ^ i * (2 ^ n - 1)) = 2 ^ i * (x / 2 ^ i) := by
  rw [and_two_pow_mul, Nat.and_two_pow_sub_one_of_lt_two_pow]
  rw [Nat.div_lt_iff_lt_mul (Nat.two_pow_pos i), ← Nat.pow_add]
  exact hx
/-- The number in a fixed array of words. -/
def arrVal {n : Nat} (f : Fin n → Word) : Nat := rowVal (List.ofFn f)

theorem arrVal_lt {n : Nat} (f : Fin n → Word) : arrVal f < 2 ^ (32 * n) := by
  simpa [arrVal] using rowVal_lt (List.ofFn f)

theorem arrVal_inj {n : Nat} {f g : Fin n → Word} (h : arrVal f = arrVal g) : f = g :=
  List.ofFn_injective (rowVal_inj (by simp) h)

theorem arrVal_four (f : Fin 4 → Word) :
    arrVal f = (f 0).toNat + 2 ^ 32 * (f 1).toNat + 2 ^ 64 * (f 2).toNat + 2 ^ 96 * (f 3).toNat := by
  simp [arrVal, rowVal, List.ofFn_succ]
  ring

/-- A number in an array of `n` words. -/
def limbs (n x : Nat) : Fin n → Word := fun i => BitVec.ofNat 32 (x / 2 ^ (32 * i.val))

theorem arrVal_limbs : ∀ {n x : Nat}, x < 2 ^ (32 * n) → arrVal (limbs n x) = x
  | 0, x, h => by
    have hx : x = 0 := by simpa using h
    rw [hx]
    rfl
  | n + 1, x, h => by
    have hlt : x / 2 ^ 32 < 2 ^ (32 * n) := by
      rw [Nat.div_lt_iff_lt_mul (by decide), ← Nat.pow_add]
      exact h
    have hrest : (fun i : Fin n => limbs (n + 1) x i.succ) = limbs n (x / 2 ^ 32) := funext fun i => by
      have hdiv : x / 2 ^ (32 * (i.val + 1)) = x / 2 ^ 32 / 2 ^ (32 * i.val) := by
        rw [Nat.div_div_eq_div_mul, ← Nat.pow_add]
        congr 2
        omega
      rw [limbs, limbs, Fin.val_succ, hdiv]
    have hfirst : (limbs (n + 1) x 0).toNat = x % 2 ^ 32 := by
      rw [limbs, BitVec.toNat_ofNat]
      show x / 2 ^ 0 % 2 ^ 32 = _
      rw [Nat.pow_zero, Nat.div_one]
    have ih : rowVal (List.ofFn (limbs n (x / 2 ^ 32))) = x / 2 ^ 32 := arrVal_limbs hlt
    rw [arrVal, List.ofFn_succ, rowVal, hrest, ih, hfirst]
    omega

end Words
