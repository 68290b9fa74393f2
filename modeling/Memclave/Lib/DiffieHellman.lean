/-
A Diffie-Hellman exchange modulo `p`: both sides come to the same secret
(`secret_comm`), and what a side publishes can be computed by squaring
(`powMod_eq`).
-/
import Mathlib.Data.Nat.ModEq
import Mathlib.Tactic.Ring

namespace DiffieHellman

/-- What the side with exponent `x` makes of the other side's number. -/
def secret (p y x : Nat) : Nat := y ^ x % p

/-- What it publishes. -/
def share (p g x : Nat) : Nat := secret p g x

theorem secret_share {p g x y : Nat} : secret p (share p g x) y = g ^ (x * y) % p := by
  rw [secret, share, secret, ← Nat.pow_mod, pow_mul]

theorem secret_comm {p g x y : Nat} : secret p (share p g x) y = secret p (share p g y) x := by
  rw [secret_share, secret_share, Nat.mul_comm]

theorem secret_lt {p y x : Nat} (hp : 0 < p) : secret p y x < p := Nat.mod_lt _ hp

/-- By squaring, over `n` bits of the exponent. -/
def powMod (p : Nat) : Nat → Nat → Nat → Nat
  | 0, _, _ => 1 % p
  | n + 1, y, x => powMod p n (y * y % p) (x / 2) * (if x % 2 = 1 then y else 1) % p

theorem powMod_eq {p : Nat} : ∀ {n y x : Nat}, x < 2 ^ n → powMod p n y x = secret p y x
  | 0, y, x, h => by
    have hx : x = 0 := by omega
    rw [powMod, secret, hx, pow_zero]
  | n + 1, y, x, h => by
    have ih : powMod p n (y * y % p) (x / 2) = secret p (y * y % p) (x / 2) := powMod_eq (by omega)
    have hsq : secret p (y * y % p) (x / 2) = y ^ (2 * (x / 2)) % p := by
      rw [secret, ← Nat.pow_mod, pow_mul, sq]
    have hbit : (if x % 2 = 1 then y else 1) = y ^ (x % 2) := by
      cases Nat.mod_two_eq_zero_or_one x with
      | inl h0 => rw [h0, if_neg (by decide), pow_zero]
      | inr h1 => rw [h1, if_pos rfl, pow_one]
    calc powMod p (n + 1) y x = y ^ (2 * (x / 2)) % p * y ^ (x % 2) % p := by rw [powMod, ih, hsq, hbit]
      _ = y ^ (2 * (x / 2) + x % 2) % p := by rw [Nat.mod_mul_mod, pow_add]
      _ = secret p y x := by rw [Nat.div_add_mod, secret]

end DiffieHellman
