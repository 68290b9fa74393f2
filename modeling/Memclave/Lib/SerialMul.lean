/-
Bit-serial multiplication with a lazy reduction: double-and-add where a sum
is reduced by one modulus `p`, and only once it reaches a bound `B`.

A lazily reduced number need not be below `p`. `serial_modEq` says the
product is right modulo `p`, `serial_le` how far above `p` it can get, and
`serial_excess` what a multiplicand at or above `p` does: it stays above
`p`, its excess doubles with each bit, and the excesses add up in the
product without ever being reduced.
-/
import Mathlib.Data.Nat.ModEq
import Mathlib.Tactic.Ring
import Mathlib.Tactic.Linarith

namespace SerialMul

/-- Less `p`, once, when `x` has reached `B`. -/
def red (B p x : Nat) : Nat := if B ≤ x then x - p else x

/-- `n` bits of `r`, the lowest first: the product so far and the doubled
multiplicand. -/
def serial (B p : Nat) : Nat → Nat → Nat × Nat → Nat × Nat
  | 0, _, s => s
  | n + 1, r, (a, d) =>
    serial B p n (r / 2) (if r % 2 = 0 then a else red B p (a + d), red B p (d + d))

variable {B p : Nat}

theorem red_of_lt {x : Nat} (h : x < B) : red B p x = x := by
  simp [red, Nat.not_le.mpr h]

theorem red_of_ge {x : Nat} (h : B ≤ x) : red B p x = x - p := by
  simp [red, h]

theorem red_modEq (hp : p ≤ B) (x : Nat) : red B p x ≡ x [MOD p] := by
  by_cases h : B ≤ x
  · rw [red_of_ge h]
    have hx : x - p + p = x := Nat.sub_add_cancel (le_trans hp h)
    calc x - p ≡ x - p + p [MOD p] := by simp [Nat.ModEq]
      _ = x := hx
  · rw [red_of_lt (Nat.not_le.mp h)]

/-- A sum of two numbers at most `p + e` is at most `p + 2e` once reduced. -/
theorem red_add_le {x y e : Nat} (hB : B ≤ p + 2 * e) (hx : x ≤ p + e) (hy : y ≤ p + e) :
    red B p (x + y) ≤ p + 2 * e := by
  by_cases h : B ≤ x + y
  · rw [red_of_ge h]; omega
  · rw [red_of_lt (Nat.not_le.mp h)]; omega

theorem serial_add (m n : Nat) : ∀ (r : Nat) (s : Nat × Nat),
    serial B p (m + n) r s = serial B p n (r / 2 ^ m) (serial B p m r s) := by
  induction m with
  | zero => intro r s; simp [serial]
  | succ m ih =>
    intro r ⟨a, d⟩
    rw [Nat.succ_add, serial, serial, ih, Nat.div_div_eq_div_mul, ← Nat.pow_succ']

/-- Only the low `n` bits of `r` are read. -/
theorem serial_congr (n : Nat) : ∀ {r r' : Nat} (s : Nat × Nat), r % 2 ^ n = r' % 2 ^ n →
    serial B p n r s = serial B p n r' s := by
  induction n with
  | zero => intro r r' s _; rfl
  | succ n ih =>
    intro r r' ⟨a, d⟩ h
    have e : ∀ x : Nat, x % 2 ^ (n + 1) = 2 * (x / 2 % 2 ^ n) + x % 2 := fun x => by
      rw [Nat.pow_succ', Nat.mod_mul]; omega
    rw [e, e] at h
    have h2 : r % 2 = r' % 2 := by omega
    simp only [serial, h2]
    exact ih _ (by omega)

/-- **The product is right modulo `p`.** -/
theorem serial_modEq (hp : p ≤ B) (n : Nat) : ∀ (r a d : Nat), r < 2 ^ n →
    (serial B p n r (a, d)).1 ≡ a + d * r [MOD p] := by
  induction n with
  | zero => intro r a d h; simp at h; simp [serial, h, Nat.ModEq]
  | succ n ih =>
    intro r a d h
    have hr : r = 2 * (r / 2) + r % 2 := by omega
    have hd : red B p (d + d) ≡ d + d [MOD p] := red_modEq hp _
    have hstep := ih (r / 2) (if r % 2 = 0 then a else red B p (a + d)) (red B p (d + d)) (by omega)
    simp only [serial]
    refine hstep.trans ?_
    by_cases h0 : r % 2 = 0
    · rw [if_pos h0]
      calc a + red B p (d + d) * (r / 2) ≡ a + (d + d) * (r / 2) [MOD p] := (hd.mul_right _).add_left a
        _ = a + d * r := by rw [show r = 2 * (r / 2) by omega]; simp; ring
    · rw [if_neg h0]
      have h1 : r % 2 = 1 := by omega
      calc red B p (a + d) + red B p (d + d) * (r / 2)
          ≡ (a + d) + (d + d) * (r / 2) [MOD p] := (red_modEq hp _).add (hd.mul_right _)
        _ = a + d * (2 * (r / 2) + 1) := by ring
        _ = a + d * r := by rw [show 2 * (r / 2) + 1 = r by omega]

/-- **How far above `p`.** An excess of at most `e` has grown to at most
`e * 2^n` after `n` bits, in the product and in the multiplicand. -/
theorem serial_le (n : Nat) : ∀ {r a d e : Nat}, B ≤ p + 2 * e → a ≤ p + e → d ≤ p + e →
    (serial B p n r (a, d)).1 ≤ p + e * 2 ^ n ∧ (serial B p n r (a, d)).2 ≤ p + e * 2 ^ n := by
  induction n with
  | zero => intro r a d e _ ha hd; simp [serial, ha, hd]
  | succ n ih =>
    intro r a d e hB ha hd
    have hd' : red B p (d + d) ≤ p + 2 * e := red_add_le hB hd hd
    have ha' : (if r % 2 = 0 then a else red B p (a + d)) ≤ p + 2 * e := by
      split
      · omega
      · exact red_add_le hB ha hd
    have := ih (r := r / 2) (e := 2 * e) (by omega) ha' hd'
    rw [show e * 2 ^ (n + 1) = 2 * e * 2 ^ n by rw [Nat.pow_succ]; ring]
    simpa only [serial] using this

/-- **A multiplicand above `p`.** With the multiplicand `p + e` and a product
`a` that its addition takes to the bound, nothing but the excess is added,
and no reduction takes anything from it. -/
theorem serial_excess (hB : B ≤ 2 * p) (n : Nat) : ∀ {r a e : Nat}, B ≤ a + p + e → r < 2 ^ n →
    (serial B p n r (a, p + e)).1 = a + e * r := by
  induction n with
  | zero => intro r a e _ h; simp at h; simp [serial, h]
  | succ n ih =>
    intro r a e ha h
    have hd : red B p (p + e + (p + e)) = p + 2 * e := by rw [red_of_ge (by omega)]; omega
    have hs : red B p (a + (p + e)) = a + e := by rw [red_of_ge (by omega)]; omega
    simp only [serial, hd, hs]
    by_cases h0 : r % 2 = 0
    · rw [if_pos h0, ih (by omega) (by omega)]
      rw [show a + e * r = a + e * (2 * (r / 2)) by rw [show 2 * (r / 2) = r by omega]]
      ring
    · rw [if_neg h0, ih (by omega) (by omega)]
      rw [show a + e * r = a + e * (2 * (r / 2) + 1) by rw [show 2 * (r / 2) + 1 = r by omega]]
      ring

/-- With no bit set the product stays as it is. -/
theorem serial_zero_bits (n a d : Nat) : (serial B p n 0 (a, d)).1 = a := by
  induction n generalizing a d with
  | zero => rfl
  | succ n ih => simpa [serial] using ih a (red B p (d + d))

end SerialMul
