/-
What the bit-serial product of `poly_mul_assign` is, exactly.

`poly_S` reduces a sum by `p = 2^130 - 5` only when it reaches `2^130`, so
numbers in `[p, 2^130)` stay as they are. A multiplicand that is there, or
gets there while it is doubled, is from then on above `p`. `serial_exact`
says when this shows in the product: exactly when the first multiplicand
added is one of those (`Overshoots`). Then the product is `p` more than the
canonical one, and in no other case is it past `2^130`.
-/
import Memclave.Lib.SerialMul
import Memclave.Lib.Poly1305
import Mathlib.Data.Nat.Prime.Basic

namespace Memclave.Poly

open SerialMul Poly1305

/-- The number of the product `poly_mul_assign` leaves, on numbers. -/
def product (n r d : Nat) : Nat := (serial (2 ^ 130) p n r (0, d)).1

/-- The product of `m` and `r` is left above `p`: with `r = 2^v * q`, `q`
odd, the first multiplicand added, `m * 2^v`, is 0 to 4 modulo `p`, and the
product is 5 or more. -/
def Overshoots (r m : Nat) : Prop :=
  ∃ v q, r = 2 ^ v * q ∧ q % 2 = 1 ∧ m * 2 ^ v % p ≤ 4 ∧ 5 ≤ m * 2 ^ v % p * q

theorem p_eq : p = 1361129467683753853853498429727072845819 := rfl

theorem bound_eq : (2 ^ 130 : Nat) = p + 5 := by decide

theorem p_le : p ≤ 2 ^ 130 := by decide

/-! ## Odd parts -/

theorem exists_odd_part : ∀ {r : Nat}, r ≠ 0 → ∃ v q, r = 2 ^ v * q ∧ q % 2 = 1
  | r, h => by
    by_cases h2 : r % 2 = 1
    · exact ⟨0, r, by simp, h2⟩
    · obtain ⟨v, q, hr, hq⟩ := exists_odd_part (r := r / 2) (by omega)
      refine ⟨v + 1, q, ?_, hq⟩
      rw [Nat.pow_succ', Nat.mul_assoc, ← hr]
      omega

theorem odd_part_odd {r v q : Nat} (hr : r = 2 ^ v * q) (h : r % 2 = 1) : v = 0 := by
  cases v with
  | zero => rfl
  | succ v => rw [Nat.pow_succ', Nat.mul_assoc] at hr; omega

theorem odd_part_even {r v q : Nat} (hr : r = 2 ^ v * q) (hq : q % 2 = 1) (h : r % 2 = 0) :
    ∃ w, v = w + 1 ∧ r / 2 = 2 ^ w * q := by
  cases v with
  | zero => simp at hr; omega
  | succ v => exact ⟨v, rfl, by rw [hr, Nat.pow_succ', Nat.mul_assoc]; omega⟩

theorem odd_part_unique : ∀ {v v' q q' : Nat}, 2 ^ v * q = 2 ^ v' * q' → q % 2 = 1 → q' % 2 = 1 →
    v = v' ∧ q = q'
  | 0, 0, q, q', h, _, _ => by simpa using h
  | 0, v' + 1, q, q', h, hq, _ => by rw [Nat.pow_succ', Nat.mul_assoc] at h; omega
  | v + 1, 0, q, q', h, _, hq' => by rw [Nat.pow_succ', Nat.mul_assoc] at h; omega
  | v + 1, v' + 1, q, q', h, hq, hq' => by
    have h' : 2 ^ v * q = 2 ^ v' * q' := by
      rw [Nat.pow_succ', Nat.pow_succ', Nat.mul_assoc, Nat.mul_assoc] at h
      omega
    obtain ⟨hv, hqq⟩ := odd_part_unique h' hq hq'
    exact ⟨by rw [hv], hqq⟩

/-- Whether the product overshoots depends on `m` modulo `p` alone. -/
theorem overshoots_congr {r m m' : Nat} (h : m ≡ m' [MOD p]) : Overshoots r m ↔ Overshoots r m' := by
  have e : ∀ v, m * 2 ^ v % p = m' * 2 ^ v % p := fun v => h.mul_right _
  simp only [Overshoots, e]

/-- A zero low bit of `r` is a doubling of `m`. -/
theorem overshoots_even {r m : Nat} (h : r % 2 = 0) : Overshoots r m ↔ Overshoots (r / 2) (m + m) := by
  have e : ∀ w, m * 2 ^ (w + 1) = (m + m) * 2 ^ w := fun w => by rw [Nat.pow_succ]; ring
  constructor
  · rintro ⟨v, q, hr, hq, h4, h5⟩
    obtain ⟨w, rfl, hw⟩ := odd_part_even hr hq h
    rw [e] at h4 h5
    exact ⟨w, q, hw, hq, h4, h5⟩
  · rintro ⟨w, q, hr, hq, h4, h5⟩
    refine ⟨w + 1, q, ?_, hq, ?_, ?_⟩
    · rw [Nat.pow_succ', Nat.mul_assoc, ← hr]; omega
    · rw [e]; exact h4
    · rw [e]; exact h5

/-! ## A multiplicand at or above `p` -/

theorem red_above (e : Nat) : red (2 ^ 130) p (p + e + (p + e)) = p + 2 * e := by
  rw [red_of_ge (by rw [p_eq]; omega)]
  omega

theorem product_above_even {n r e : Nat} (h : r % 2 = 0) :
    product (n + 1) r (p + e) = product n (r / 2) (p + 2 * e) := by
  simp only [product, serial, red_above, h, if_true]

/-- The first multiplicand added: in `[p, 2^130)` it enters the product as it
is, otherwise reduced to its excess. -/
theorem product_above_odd {n r e : Nat} (h : r % 2 = 1) (hn : r < 2 ^ (n + 1)) :
    product (n + 1) r (p + e) = if e ≤ 4 then p + e * r else e * r := by
  have hr : e * r = e + 2 * e * (r / 2) := by
    calc e * r = e * (2 * (r / 2) + 1) := by rw [show 2 * (r / 2) + 1 = r by omega]
      _ = e + 2 * e * (r / 2) := by ring
  have ha : red (2 ^ 130) p (0 + (p + e)) = if e ≤ 4 then p + e else e := by
    split
    · rw [red_of_lt (by rw [bound_eq]; omega)]; omega
    · rw [red_of_ge (by rw [bound_eq]; omega)]; omega
  have h5 : 2 ^ 130 ≤ (if e ≤ 4 then p + e else e) + p + 2 * e := by
    rw [bound_eq, p_eq]
    split <;> omega
  simp only [product, serial, red_above, ha, h, Nat.one_ne_zero, if_false]
  rw [serial_excess (by decide) n h5 (by omega), hr]
  split <;> omega

/-- From a multiplicand `p + e`: the product is `p` too large exactly when
the first multiplicand added is in `[p, 2^130)`. -/
theorem product_above {q : Nat} (hq : q % 2 = 1) : ∀ {v n r e : Nat}, r = 2 ^ v * q → r < 2 ^ n →
    product n r (p + e) = if e * 2 ^ v ≤ 4 then p + e * r else e * r := by
  intro v
  induction v with
  | zero =>
    intro n r e hr hn
    have h1 : r % 2 = 1 := by simp at hr; omega
    cases n with
    | zero => simp at hn; omega
    | succ n => rw [product_above_odd h1 hn, Nat.pow_zero, Nat.mul_one]
  | succ v ih =>
    intro n r e hr hn
    have h0 : r % 2 = 0 := by rw [hr, Nat.pow_succ', Nat.mul_assoc]; omega
    have hr2 : r / 2 = 2 ^ v * q := by rw [hr, Nat.pow_succ', Nat.mul_assoc]; omega
    cases n with
    | zero =>
      have := Nat.two_pow_pos v
      have := Nat.mul_pos this (show 0 < q by omega)
      simp at hn
      omega
    | succ n =>
      have he : 2 * e * 2 ^ v = e * 2 ^ (v + 1) := by rw [Nat.pow_succ]; ring
      have hr' : 2 * e * (r / 2) = e * r := by
        calc 2 * e * (r / 2) = e * (2 * (r / 2)) := by ring
          _ = e * r := by rw [show 2 * (r / 2) = r by omega]
      rw [product_above_even h0, ih hr2 (by omega), he, hr']

/-! ## A multiplicand that gets above `p` later -/

/-- A doubled multiplicand below `p` stays below, or is `p + 1` or `p + 3`. -/
theorem red_below {d : Nat} (hd : d < p) : red (2 ^ 130) p (d + d) < p ∨
    ∃ e, (e = 1 ∨ e = 3) ∧ red (2 ^ 130) p (d + d) = p + e := by
  by_cases h : 2 ^ 130 ≤ d + d
  · rw [red_of_ge h]
    exact .inl (by omega)
  · rw [red_of_lt (by omega)]
    by_cases hp : d + d < p
    · exact .inl hp
    · refine .inr ⟨d + d - p, ?_, by omega⟩
      rw [bound_eq] at h
      rw [p_eq] at h hp ⊢
      omega

/-- With `m * 2^j` being 1 or 3 modulo `p`, the product with the bits below
`j` is not one of the five numbers next to a multiple of `p`. -/
theorem not_small {c e j ρ : Nat} (hc : c ≤ 4) (he : e = 1 ∨ e = 3) (hρ : 0 < ρ) (hj : ρ < 2 ^ j)
    (hb : 2 ^ j < 2 ^ 124) : ¬ c * 2 ^ j ≡ e * ρ [MOD p] := by
  intro h
  have hb' : (2 : Nat) ^ 124 * 4 < p := by decide
  have heq : c * 2 ^ j = e * ρ := by
    have h1 : c * 2 ^ j < p := by nlinarith
    have h2 : e * ρ < p := by rcases he with rfl | rfl <;> omega
    have := h
    rwa [Nat.ModEq, Nat.mod_eq_of_lt h1, Nat.mod_eq_of_lt h2] at this
  rcases he with rfl | rfl
  · rcases Nat.eq_zero_or_pos c with rfl | hc0
    · omega
    · have := Nat.le_mul_of_pos_left (2 ^ j) hc0
      omega
  · -- 3 divides `c * 2^j`, so it divides `c`, and `c` is below 3
    have h3 : 3 ∣ c * 2 ^ j := ⟨ρ, heq⟩
    have hco : Nat.Coprime 3 (2 ^ j) := Nat.Coprime.pow_right j (by decide)
    obtain ⟨k, rfl⟩ := hco.dvd_of_dvd_mul_right h3
    have : k * 2 ^ j = ρ := by
      have : 3 * (k * 2 ^ j) = 3 * ρ := by rw [← heq]; ring
      omega
    rcases Nat.eq_zero_or_pos k with rfl | hk
    · omega
    · have := Nat.le_mul_of_pos_left (2 ^ j) hk
      omega

/-- **The product when the multiplicand first gets above `p`**, with the bits
`ρ` below `j` already in it: it stays clear of 0 and of `p`, so the excesses
still to be added never take it past `2^130`. -/
theorem clear_of_ends {P m e j ρ r : Nat} (he : e = 1 ∨ e = 3) (hρ : 0 < ρ) (hj : ρ < 2 ^ j)
    (hr : 0 < r) (hb : ρ + 2 ^ j * r < 2 ^ 124) (hP : P < 2 ^ 130) (hPm : P ≡ m * ρ [MOD p])
    (hem : e ≡ m * 2 ^ j [MOD p]) : 5 ≤ P ∧ P + e * r < p := by
  have hj124 : 2 ^ j < 2 ^ 124 := by nlinarith
  have hmul : P * 2 ^ j ≡ e * ρ [MOD p] := by
    calc P * 2 ^ j ≡ m * ρ * 2 ^ j [MOD p] := hPm.mul_right _
      _ = m * 2 ^ j * ρ := by ring
      _ ≡ e * ρ [MOD p] := (hem.mul_right _).symm
  constructor
  · by_contra hlt
    exact not_small (by omega) he hρ hj hj124 hmul
  · by_contra hge
    cases Nat.lt_or_ge P p with
    | inl hPp =>
      -- `p - P` more would make it 0 modulo `p`, but there is too little
      have h0 : e * ρ + (p - P) * 2 ^ j ≡ 0 [MOD p] := by
        calc e * ρ + (p - P) * 2 ^ j ≡ P * 2 ^ j + (p - P) * 2 ^ j [MOD p] := (hmul.symm).add_right _
          _ = p * 2 ^ j := by rw [← Nat.add_mul]; congr 1; omega
          _ ≡ 0 [MOD p] := (Nat.modEq_zero_iff_dvd).mpr (Nat.dvd_mul_right _ _)
      have hpos : 0 < e * ρ + (p - P) * 2 ^ j := by rcases he with rfl | rfl <;> omega
      have hle : (p - P) * 2 ^ j ≤ e * r * 2 ^ j := Nat.mul_le_mul_right _ (by omega)
      have hlt : e * ρ + (p - P) * 2 ^ j < p := by
        have hb' : (2 : Nat) ^ 124 * 3 < p := by decide
        have : e * ρ + e * r * 2 ^ j = e * (ρ + 2 ^ j * r) := by ring
        rcases he with rfl | rfl <;> omega
      have := Nat.le_of_dvd hpos ((Nat.modEq_zero_iff_dvd).mp h0)
      omega
    | inr hPp =>
      refine not_small (c := P - p) ?_ he hρ hj hj124 ?_
      · rw [bound_eq] at hP; omega
      · calc (P - p) * 2 ^ j ≡ (P - p) * 2 ^ j + p * 2 ^ j [MOD p] := by simp [Nat.ModEq]
          _ = P * 2 ^ j := by rw [← Nat.add_mul]; congr 1; omega
          _ ≡ e * ρ [MOD p] := hmul

/-- With some bits of `r` done (`ρ`, those below `j`), the multiplicand below
`p` or above it for the first time: the product ends below `2^130`. -/
theorem serial_clear (m : Nat) : ∀ (n : Nat) {r P D j ρ : Nat}, 0 < ρ → ρ < 2 ^ j →
    ρ + 2 ^ j * r < 2 ^ 124 → r < 2 ^ n → P < 2 ^ 130 → P ≡ m * ρ [MOD p] → D ≡ m * 2 ^ j [MOD p] →
    (D < p ∨ ∃ e, (e = 1 ∨ e = 3) ∧ D = p + e) → (serial (2 ^ 130) p n r (P, D)).1 < 2 ^ 130 := by
  intro n
  induction n with
  | zero => intro r P D j ρ _ _ _ _ hP _ _ _; exact hP
  | succ n ih =>
    intro r P D j ρ hρ hj hb hn hP hPm hDm hD
    rcases hD with hD | ⟨e, he, rfl⟩
    · have hρ' : ρ + 2 ^ j * (r % 2) < 2 ^ (j + 1) := by
        rw [Nat.pow_succ]
        rcases Nat.mod_two_eq_zero_or_one r with h | h <;> rw [h] <;> omega
      have hb' : ρ + 2 ^ j * (r % 2) + 2 ^ (j + 1) * (r / 2) < 2 ^ 124 := by
        calc ρ + 2 ^ j * (r % 2) + 2 ^ (j + 1) * (r / 2)
            = ρ + 2 ^ j * (r % 2 + 2 * (r / 2)) := by rw [Nat.pow_succ]; ring
          _ = ρ + 2 ^ j * r := by rw [Nat.mod_add_div]
          _ < 2 ^ 124 := hb
      have hDm' : red (2 ^ 130) p (D + D) ≡ m * 2 ^ (j + 1) [MOD p] := by
        calc red (2 ^ 130) p (D + D) ≡ D + D [MOD p] := red_modEq p_le _
          _ ≡ m * 2 ^ j + m * 2 ^ j [MOD p] := hDm.add hDm
          _ = m * 2 ^ (j + 1) := by rw [Nat.pow_succ]; ring
      simp only [serial]
      refine ih (by omega) hρ' hb' (by omega) ?_ ?_ hDm' (red_below hD)
      · split
        · exact hP
        · by_cases h : 2 ^ 130 ≤ P + D
          · rw [red_of_ge h]; omega
          · rw [red_of_lt (by omega)]; omega
      · split
        next h0 => rwa [h0, Nat.mul_zero, Nat.add_zero]
        next h1 =>
          have : r % 2 = 1 := by omega
          calc red (2 ^ 130) p (P + D) ≡ P + D [MOD p] := red_modEq p_le _
            _ ≡ m * ρ + m * 2 ^ j [MOD p] := hPm.add hDm
            _ = m * (ρ + 2 ^ j * (r % 2)) := by rw [this]; ring
    · rcases Nat.eq_zero_or_pos r with rfl | hr
      · rw [serial_zero_bits]; exact hP
      · have hem : e ≡ m * 2 ^ j [MOD p] := by
          calc e ≡ p + e [MOD p] := by simp [Nat.ModEq]
            _ ≡ m * 2 ^ j [MOD p] := hDm
        obtain ⟨h5, hlt⟩ := clear_of_ends he hρ hj hr hb hP hPm hem
        rw [serial_excess (by decide) (n + 1) (by rw [bound_eq]; omega) hn]
        exact lt_of_lt_of_le hlt p_le

/-! ## The product, exactly -/

/-- What `serial_exact` says of a product of `r` and `d`. -/
structure ProductExact (n r d : Nat) : Prop where
  lt : ¬ Overshoots r d → product n r d < 2 ^ 130
  eq : Overshoots r d → product n r d = p + d * r % p
  ge : Overshoots r d → 5 ≤ d * r % p
  le : Overshoots r d → d * r % p ≤ 2 ^ 126

theorem exact_above {n r e : Nat} (hn : r < 2 ^ n) (hr : r < 2 ^ 124) (he : e ≤ 4) :
    ProductExact n r (p + e) := by
  have hp : (2 : Nat) ^ 126 < p := by decide
  rcases Nat.eq_zero_or_pos r with rfl | hr0
  · have h0 : ¬ Overshoots 0 (p + e) := by
      rintro ⟨v, q, h, hq, -⟩
      have := Nat.mul_pos (Nat.two_pow_pos v) (show 0 < q by omega)
      omega
    refine ⟨fun _ => ?_, fun h => absurd h h0, fun h => absurd h h0, fun h => absurd h h0⟩
    rw [product, serial_zero_bits]
    decide
  obtain ⟨v, q, hv, hq⟩ := exists_odd_part (Nat.pos_iff_ne_zero.mp hr0)
  have her : e * r ≤ 2 ^ 126 := by
    calc e * r ≤ 4 * 2 ^ 124 := Nat.mul_le_mul he hr.le
      _ = 2 ^ 126 := by decide
  have hq0 : 0 < q := by omega
  have hev : e * 2 ^ v ≤ e * r := by
    rw [hv, ← Nat.mul_assoc]
    exact Nat.le_mul_of_pos_right _ hq0
  have hmod : ∀ x, (p + e) * x % p = e * x % p := fun x => by
    rw [Nat.add_mul, Nat.mul_add_mod_self_left]
  have hu : (p + e) * 2 ^ v % p = e * 2 ^ v := by rw [hmod, Nat.mod_eq_of_lt (by omega)]
  have hrm : (p + e) * r % p = e * r := by rw [hmod, Nat.mod_eq_of_lt (by omega)]
  have heq : e * 2 ^ v * q = e * r := by rw [hv]; ring
  have hprod := product_above (e := e) hq hv hn
  -- the odd part of `r` is the one `Overshoots` speaks of
  have hiff : Overshoots r (p + e) ↔ e * 2 ^ v ≤ 4 ∧ 5 ≤ e * r := by
    constructor
    · rintro ⟨v', q', hv', hq', h4, h5⟩
      have hvv : v' = v ∧ q' = q := odd_part_unique (hv'.symm.trans hv) hq' hq
      obtain ⟨rfl, rfl⟩ := hvv
      rw [hu] at h4 h5
      exact ⟨h4, by rwa [heq] at h5⟩
    · rintro ⟨h4, h5⟩
      exact ⟨v, q, hv, hq, by rwa [hu], by rwa [hu, heq]⟩
  refine ⟨fun h => ?_, fun h => ?_, fun h => ?_, fun h => ?_⟩
  · rw [hprod, bound_eq]
    rw [hiff] at h
    split <;> omega
  · rw [hprod, if_pos (hiff.mp h).1, hrm]
  · rw [hrm]; exact (hiff.mp h).2
  · rw [hrm]; exact her

/-- **The product of `poly_mul_assign`, exactly.** -/
theorem serial_exact : ∀ (n : Nat) {r d : Nat}, r < 2 ^ n → r < 2 ^ 124 → 5 ≤ d → d < 2 ^ 130 →
    ProductExact n r d := by
  intro n
  induction n with
  | zero =>
    intro r d hn _ _ _
    have h0 : r = 0 := by simpa using hn
    subst h0
    have h0 : ¬ Overshoots 0 d := by
      rintro ⟨v, q, h, hq, -⟩
      have := Nat.mul_pos (Nat.two_pow_pos v) (show 0 < q by omega)
      omega
    exact ⟨fun _ => by simp [product, serial], fun h => absurd h h0, fun h => absurd h h0,
      fun h => absurd h h0⟩
  | succ n ih =>
    intro r d hn hr h5 hd
    by_cases hdp : p ≤ d
    · obtain ⟨e, rfl⟩ := Nat.exists_eq_add_of_le hdp
      exact exact_above hn hr (by rw [bound_eq] at hd; omega)
    have hdp : d < p := by omega
    cases Nat.mod_two_eq_zero_or_one r with
    | inl h0 =>
      -- a doubling
      have hmod : red (2 ^ 130) p (d + d) ≡ d + d [MOD p] := red_modEq p_le _
      have h5' : 5 ≤ red (2 ^ 130) p (d + d) := by
        by_cases h : 2 ^ 130 ≤ d + d
        · rw [red_of_ge h]; rw [bound_eq] at h; omega
        · rw [red_of_lt (by omega)]; omega
      have hlt' : red (2 ^ 130) p (d + d) < 2 ^ 130 := by
        by_cases h : 2 ^ 130 ≤ d + d
        · rw [red_of_ge h]; omega
        · rw [red_of_lt (by omega)]; omega
      have hprod : product (n + 1) r d = product n (r / 2) (red (2 ^ 130) p (d + d)) := by
        simp only [product, serial, h0, if_true]
      have hval : red (2 ^ 130) p (d + d) * (r / 2) % p = d * r % p := by
        calc red (2 ^ 130) p (d + d) * (r / 2) % p = (d + d) * (r / 2) % p := hmod.mul_right _
          _ = d * (2 * (r / 2)) % p := by congr 1; ring
          _ = d * r % p := by rw [show 2 * (r / 2) = r by omega]
      have ho : Overshoots r d ↔ Overshoots (r / 2) (red (2 ^ 130) p (d + d)) := by
        rw [overshoots_even h0, overshoots_congr hmod]
      obtain ⟨e1, e2, e3, e4⟩ := ih (r := r / 2) (by omega) (by omega) h5' hlt'
      rw [hval] at e2 e3 e4
      exact ⟨fun h => hprod ▸ e1 (fun h' => h (ho.mpr h')), fun h => hprod ▸ e2 (ho.mp h),
        fun h => e3 (ho.mp h), fun h => e4 (ho.mp h)⟩
    | inr h1 =>
      -- the first addition
      have hno : ¬ Overshoots r d := by
        rintro ⟨v, q, hv, -, h4, -⟩
        obtain rfl := odd_part_odd hv h1
        rw [Nat.pow_zero, Nat.mul_one, Nat.mod_eq_of_lt hdp] at h4
        omega
      refine ⟨fun _ => ?_, fun h => absurd h hno, fun h => absurd h hno, fun h => absurd h hno⟩
      simp only [product, serial, h1, Nat.one_ne_zero, if_false, Nat.zero_add]
      refine serial_clear d n (j := 1) (ρ := 1) (by omega) (by omega) (by omega) (by omega) ?_ ?_ ?_
        (red_below hdp)
      · rwa [red_of_lt hd]
      · rw [red_of_lt hd, Nat.mul_one]
      · calc red (2 ^ 130) p (d + d) ≡ d + d [MOD p] := red_modEq p_le _
          _ = d * 2 ^ 1 := by ring

end Memclave.Poly
