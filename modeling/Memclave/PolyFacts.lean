/-
What `Memclave.Poly` computes, on numbers.

A row of limbs stands for `Limbs.val`. `addReduceMacro_val`: the macro is a
lazily reduced addition; `polyMulAssign_val`: the four unrolled loops are the
bit-serial product of `Memclave.PolySerial`; `polyFeedBlock_holds`: a context
that holds the Horner value of some blocks holds it after one more, as it is
or with `p` added.

`polyTag_eq_iff` is the tag: the one RFC 8439 gives, unless the product of
the last block overshoots.
-/
import Memclave.Poly
import Memclave.PolySerial
import Mathlib.Tactic.FinCases

namespace Memclave.Poly

open Words SerialMul Poly1305

/-! ## Limbs -/

/-- The number a row of limbs stands for. -/
def Limbs.val (x : Limbs) : Nat :=
  x.w0.toNat + 2 ^ 32 * x.w1.toNat + 2 ^ 64 * x.w2.toNat + 2 ^ 96 * x.w3.toNat + 2 ^ 128 * x.w4.toNat

theorem Limbs.val_zero : Limbs.zero.val = 0 := by decide

theorem Limbs.val_lt (x : Limbs) : x.val < 2 ^ 160 := by
  have h0 := word_lt x.w0
  have h1 := word_lt x.w1
  have h2 := word_lt x.w2
  have h3 := word_lt x.w3
  have h4 := word_lt x.w4
  unfold Limbs.val
  omega

/-- The carry chain adds, and its last carry is what goes past the top limb. -/
theorem Limbs.val_carryOut (t s : Limbs) : (t.add s).val + 2 ^ 160 * (t.carryOut s).toNat = t.val + s.val := by
  have h0 := addc_val t.w0 s.w0 false
  have h1 := addc_val t.w1 s.w1 (addc t.w0 s.w0 false).2
  have h2 := addc_val t.w2 s.w2 (addc t.w1 s.w1 (addc t.w0 s.w0 false).2).2
  have h3 := addc_val t.w3 s.w3 (addc t.w2 s.w2 (addc t.w1 s.w1 (addc t.w0 s.w0 false).2).2).2
  have h4 := addc_val t.w4 s.w4
    (addc t.w3 s.w3 (addc t.w2 s.w2 (addc t.w1 s.w1 (addc t.w0 s.w0 false).2).2).2).2
  simp only [Bool.toNat_false] at h0
  simp only [Limbs.add, Limbs.val, Limbs.carryOut]
  omega

theorem Limbs.val_add {t s : Limbs} (h : t.val + s.val < 2 ^ 160) :
    (t.add s).val = t.val + s.val := by
  have hc := Limbs.val_carryOut t s
  cases hf : t.carryOut s <;> rw [hf] at hc <;> simp at hc <;> omega

theorem Limbs.val_add_wrap {t s : Limbs} (h : 2 ^ 160 ≤ t.val + s.val) :
    (t.add s).val = t.val + s.val - 2 ^ 160 := by
  have hl := Limbs.val_lt (t.add s)
  have hc := Limbs.val_carryOut t s
  cases hf : t.carryOut s <;> rw [hf] at hc <;> simp at hc <;> omega

theorem Limbs.w4_eq (x : Limbs) : x.w4.toNat = x.val / 2 ^ 128 := by
  have h0 := word_lt x.w0
  have h1 := word_lt x.w1
  have h2 := word_lt x.w2
  have h3 := word_lt x.w3
  unfold Limbs.val
  omega

theorem Limbs.low_val (x : Limbs) : arrVal x.low = x.val % 2 ^ 128 := by
  have h0 := word_lt x.w0
  have h1 := word_lt x.w1
  have h2 := word_lt x.w2
  have h3 := word_lt x.w3
  rw [arrVal_four]
  simp only [Limbs.low, Limbs.val, Matrix.cons_val]
  omega

/-! ## The lazily reduced addition -/

/-- Below `2^31` the signed comparison of the macro is the unsigned one. -/
theorem reduceMask_eq {t5 : Word} (h : t5.toNat < 2 ^ 31) :
    reduceMask t5 = if 4 ≤ t5.toNat then 0xFFFFFFFF else 0 := by
  have h3 : (3 : Word).toNat = 3 := by decide
  have hs : BitVec.slt 3 t5 = decide (4 ≤ t5.toNat) := by
    rw [BitVec.slt_eq_decide, decide_eq_decide, BitVec.toInt_eq_toNat_of_lt (by omega),
      BitVec.toInt_eq_toNat_of_lt (by omega)]
    omega
  simp only [reduceMask, hs, decide_eq_true_eq]
  split <;> decide

/-- **The macro is a lazily reduced addition**, as long as the sum's top limb
is not negative to the comparison. -/
theorem addReduceMacro_val {t s : Limbs} (h : t.val + s.val < 2 ^ 159) :
    (addReduceMacro t s).val = red (2 ^ 130) p (t.val + s.val) := by
  have hv : (t.add s).val = t.val + s.val := Limbs.val_add (by omega)
  have hw := Limbs.w4_eq (t.add s)
  rw [hv] at hw
  have hlt : (t.add s).w4.toNat < 2 ^ 31 := by omega
  simp only [addReduceMacro, reduceMask_eq hlt]
  by_cases h4 : 4 ≤ (t.add s).w4.toNat
  · rw [if_pos h4, red_of_ge (by omega)]
    have hm : Limbs.val ⟨0xFFFFFFFF &&& 0x5, 0, 0, 0, 0xFFFFFFFF &&& 0xFFFFFFFC⟩ = 2 ^ 160 - p := by decide
    rw [Limbs.val_add_wrap (by rw [hm, hv, p_eq]; omega), hm, hv, p_eq]
    omega
  · rw [if_neg h4, red_of_lt (by omega)]
    have hm : Limbs.val ⟨0 &&& 0x5, 0, 0, 0, 0 &&& 0xFFFFFFFC⟩ = 0 := by decide
    rw [Limbs.val_add (by rw [hm, hv]; omega), hm, hv, Nat.add_zero]

theorem polyAddReduce_val {a : Limbs} (h : a.val < 2 ^ 131) (block : Fin 4 → Word) :
    (polyAddReduce a block).val = red (2 ^ 130) p (a.val + (arrVal block + 2 ^ 128)) := by
  have hb := arrVal_lt block
  have hv : Limbs.val ⟨block 0, block 1, block 2, block 3, 0x1⟩ = arrVal block + 2 ^ 128 := by
    rw [arrVal_four]
    simp [Limbs.val]
  rw [polyAddReduce, addReduceMacro_val (by rw [hv]; omega), hv]

/-! ## The product -/

theorem and_one_eq_zero (x : Word) : x &&& 0x1 = 0 ↔ x.toNat % 2 = 0 := by
  rw [← BitVec.toNat_inj]
  simp [Nat.and_one_is_mod]

/-- The excess over `p` doubles with each pass. -/
theorem excess_next {e n : Nat} (h : e * 2 ^ (n + 1) ≤ 2 ^ 130) : 2 * e * 2 ^ n ≤ 2 ^ 130 ∧ 2 * e ≤ 2 ^ 130 := by
  have hpow : e * 2 ^ (n + 1) = 2 * e * 2 ^ n := by rw [Nat.pow_succ]; ring
  have hle := Nat.le_mul_of_pos_right (2 * e) (Nat.two_pow_pos n)
  omega

/-- One pass of the loop: the numbers, and their bounds. -/
theorem mulLoop_pass {prod acc : Limbs} {e : Nat} (r3 : Word) (he : 4 ≤ e) (h2e : 2 * e ≤ 2 ^ 130)
    (hp : prod.val ≤ p + e) (ha : acc.val ≤ p + e) :
    ((addReduceMacro acc acc).val = red (2 ^ 130) p (acc.val + acc.val) ∧ (addReduceMacro acc acc).val ≤ p + 2 * e) ∧
      (if r3 &&& 0x1 = 0 then prod else addReduceMacro prod acc).val =
        (if r3.toNat % 2 = 0 then prod.val else red (2 ^ 130) p (prod.val + acc.val)) ∧
      (if r3 &&& 0x1 = 0 then prod else addReduceMacro prod acc).val ≤ p + 2 * e := by
  have hB : 2 ^ 130 ≤ p + 2 * e := by rw [bound_eq]; omega
  have hsmall : p + e + (p + e) < 2 ^ 159 := by rw [p_eq]; omega
  have hacc : (addReduceMacro acc acc).val = red (2 ^ 130) p (acc.val + acc.val) := addReduceMacro_val (by omega)
  refine ⟨⟨hacc, by rw [hacc]; exact red_add_le hB ha ha⟩, ?_⟩
  simp only [and_one_eq_zero]
  split
  · exact ⟨rfl, by omega⟩
  · have hprod : (addReduceMacro prod acc).val = red (2 ^ 130) p (prod.val + acc.val) := addReduceMacro_val (by omega)
    exact ⟨hprod, by rw [hprod]; exact red_add_le hB hp ha⟩

theorem mulLoop_val (n : Nat) : ∀ {r3 : Word} {prod acc : Limbs} {e : Nat}, 4 ≤ e → e * 2 ^ n ≤ 2 ^ 130 →
    prod.val ≤ p + e → acc.val ≤ p + e →
    ((mulLoop n r3 (prod, acc)).1.val, (mulLoop n r3 (prod, acc)).2.val) =
      serial (2 ^ 130) p n r3.toNat (prod.val, acc.val) := by
  induction n with
  | zero => intro r3 prod acc e _ _ _ _; rfl
  | succ n ih =>
    intro r3 prod acc e he hn hp ha
    obtain ⟨hnext, h2e⟩ := excess_next hn
    obtain ⟨⟨hacc, haccb⟩, hprod, hprodb⟩ := mulLoop_pass r3 he h2e hp ha
    have hshift : (r3 >>> 1).toNat = r3.toNat / 2 := by
      simp [BitVec.toNat_ushiftRight, Nat.shiftRight_eq_div_pow]
    simp only [mulLoop, serial]
    rw [ih (by omega) hnext hprodb haccb, hshift, hprod, hacc]

/-- One of the four loops, with the bounds that hold after the `k` bits
before it. -/
theorem mulLoop_word {k : Nat} (hk : k + 32 ≤ 128) (x : Word) {s : Limbs × Limbs}
    (h1 : s.1.val ≤ p + 4 * 2 ^ k) (h2 : s.2.val ≤ p + 4 * 2 ^ k) :
    ((mulLoop 32 x s).1.val, (mulLoop 32 x s).2.val) = serial (2 ^ 130) p 32 x.toNat (s.1.val, s.2.val) ∧
      (mulLoop 32 x s).1.val ≤ p + 4 * 2 ^ (k + 32) ∧ (mulLoop 32 x s).2.val ≤ p + 4 * 2 ^ (k + 32) := by
  have hpow : 4 * 2 ^ k * 2 ^ 32 = 4 * 2 ^ (k + 32) := by rw [Nat.pow_add]; ring
  have hle : (2 : Nat) ^ (k + 32) ≤ 2 ^ 128 := Nat.pow_le_pow_right (by omega) hk
  have hpos := Nat.two_pow_pos k
  have hB : 2 ^ 130 ≤ p + 2 * (4 * 2 ^ k) := by rw [bound_eq]; omega
  have heq := @mulLoop_val 32 x _ _ (4 * 2 ^ k) (by omega) (by omega) h1 h2
  have hle := serial_le (B := 2 ^ 130) 32 (r := x.toNat) hB h1 h2
  rw [hpow, ← heq] at hle
  exact ⟨heq, hle⟩

/-- A low word's bits first, then those above it. -/
theorem serial_word (n y : Nat) (x : Word) (s : Nat × Nat) :
    serial (2 ^ 130) p (32 + n) (x.toNat + 2 ^ 32 * y) s =
      serial (2 ^ 130) p n y (serial (2 ^ 130) p 32 x.toNat s) := by
  have hx := word_lt x
  have hlow : (x.toNat + 2 ^ 32 * y) % 2 ^ 32 = x.toNat % 2 ^ 32 := by omega
  rw [serial_add, serial_congr 32 s hlow]
  congr 1
  omega

/-- **The four loops are the bit-serial product over all 128 bits.** -/
theorem polyMulAssign_val {a : Limbs} (h : a.val < 2 ^ 130) (r : Fin 4 → Word) :
    (polyMulAssign a r).val = product 128 (arrVal r) a.val := by
  have ha : a.val ≤ p + 4 * 2 ^ 0 := by rw [bound_eq] at h; omega
  have hz : Limbs.zero.val ≤ p + 4 * 2 ^ 0 := by rw [Limbs.val_zero]; omega
  obtain ⟨e0, p0, a0⟩ := mulLoop_word (k := 0) (by omega) (r 0) (s := (Limbs.zero, a)) hz ha
  obtain ⟨e1, p1, a1⟩ := mulLoop_word (by omega) (r 1) p0 a0
  obtain ⟨e2, p2, a2⟩ := mulLoop_word (by omega) (r 2) p1 a1
  obtain ⟨e3, -, -⟩ := mulLoop_word (by omega) (r 3) p2 a2
  have hr : arrVal r = (r 0).toNat + 2 ^ 32 * ((r 1).toNat + 2 ^ 32 * ((r 2).toNat + 2 ^ 32 * (r 3).toNat)) := by
    rw [arrVal_four]
    ring
  have hpoly : polyMulAssign a r =
      mulStore (mulLoop 32 (r 3) (mulLoop 32 (r 2) (mulLoop 32 (r 1) (mulLoop 32 (r 0) (Limbs.zero, a))))) := rfl
  rw [Limbs.val_zero] at e0
  rw [product, show (128 : Nat) = 32 + (32 + (32 + 32)) by decide, hr, serial_word, serial_word, serial_word,
    ← e0, ← e1, ← e2, ← e3, hpoly, mulStore]

/-! ## The one reduction after the product -/

theorem polyReductionReq_eq (n : Limbs) :
    polyReductionReq n = if p ≤ n.val ∧ n.val < 2 ^ 130 then 0xFFFFFFFF else 0 := by
  have h0 := word_lt n.w0
  have h1 := word_lt n.w1
  have h2 := word_lt n.w2
  have h3 := word_lt n.w3
  have h4 := word_lt n.w4
  have k3 : (0x3 : Word).toNat = 3 := by decide
  have kF : (0xFFFFFFFF : Word).toNat = 2 ^ 32 - 1 := by decide
  have kB : (0xFFFFFFFB : Word).toNat = 2 ^ 32 - 5 := by decide
  have hiff : (n.w4 == 0x3 && (n.w3 == 0xFFFFFFFF && n.w2 == 0xFFFFFFFF && n.w1 == 0xFFFFFFFF) &&
      (0xFFFFFFFB : Word).ule n.w0) = true ↔ p ≤ n.val ∧ n.val < 2 ^ 130 := by
    simp only [Bool.and_eq_true, beq_iff_eq, ← BitVec.toNat_inj, BitVec.ule_eq_decide, decide_eq_true_eq,
      k3, kF, kB, p_eq, Limbs.val]
    omega
  simp only [polyReductionReq, hiff]
  split <;> decide

theorem polyMaskedReduce_zero (a : Limbs) : (polyMaskedReduce a 0).val = a.val := by
  have hm : Limbs.val ⟨0 &&& 0x5, 0 &&& 0x0, 0 &&& 0x0, 0 &&& 0x0, 0 &&& 0xFFFFFFFC⟩ = 0 := by decide
  have ha := Limbs.val_lt a
  simp only [polyMaskedReduce]
  rw [Limbs.val_add (by rw [hm]; omega), hm, Nat.add_zero]

theorem polyMaskedReduce_ones {a : Limbs} (h : p ≤ a.val) :
    (polyMaskedReduce a 0xFFFFFFFF).val = a.val - p := by
  have hm : Limbs.val ⟨0xFFFFFFFF &&& 0x5, 0xFFFFFFFF &&& 0x0, 0xFFFFFFFF &&& 0x0, 0xFFFFFFFF &&& 0x0,
      0xFFFFFFFF &&& 0xFFFFFFFC⟩ = 2 ^ 160 - p := by decide
  rw [p_eq] at hm h
  simp only [polyMaskedReduce]
  rw [Limbs.val_add_wrap (by rw [hm]; omega), hm, p_eq]
  omega

/-- What `poly_mul_key` leaves for a product below `2^130` and for one that
is not. -/
theorem polyMulKey_val (ctx : Context) : (polyMulKey ctx).a.val =
    if (polyMulAssign ctx.a ctx.r).val < 2 ^ 130 then (polyMulAssign ctx.a ctx.r).val % p
    else (polyMulAssign ctx.a ctx.r).val := by
  simp only [polyMulKey, polyReductionReq_eq]
  generalize polyMulAssign ctx.a ctx.r = v
  by_cases hlt : v.val < 2 ^ 130
  · rw [if_pos hlt]
    by_cases hp : p ≤ v.val
    · rw [if_pos ⟨hp, hlt⟩, polyMaskedReduce_ones hp, Nat.mod_eq_sub_mod hp, Nat.mod_eq_of_lt]
      rw [bound_eq] at hlt
      rw [p_eq] at hp hlt ⊢
      omega
    · rw [if_neg (fun h => hp h.1), polyMaskedReduce_zero, Nat.mod_eq_of_lt (by omega)]
  · rw [if_neg hlt, if_neg (fun h => hlt h.2), polyMaskedReduce_zero]

/-! ## Blocks -/

/-- The accumulator of a context stands for `h`: it is `h`, or, after a
product that overshot, `p + h` for an `h` of 5 to `2^126`. -/
def Holds (a : Limbs) (h : Nat) : Prop := a.val = h ∨ a.val = p + h ∧ 5 ≤ h ∧ h ≤ 2 ^ 126

theorem Holds.lt {a : Limbs} {h : Nat} (ha : Holds a h) (hh : h < p) : a.val < 2 ^ 131 := by
  rw [p_eq] at hh
  rcases ha with ha | ⟨ha, -, h6⟩
  · omega
  · rw [ha, p_eq]; omega

/-- A block takes either kind of accumulator to the same multiplicand. -/
theorem Holds.add_block {a : Limbs} {h : Nat} (ha : Holds a h) (hh : h < p) (block : Fin 4 → Word) :
    (polyAddReduce a block).val = red (2 ^ 130) p (h + (arrVal block + 2 ^ 128)) := by
  have hb := arrVal_lt block
  rw [polyAddReduce_val (ha.lt hh)]
  rcases ha with ha | ⟨ha, h5, h6⟩
  · rw [ha]
  · rw [ha, red_of_ge (by rw [bound_eq]; omega), red_of_lt (by omega)]
    omega

theorem red_block_bounds {h b : Nat} (hh : h < p) (hb : b < 2 ^ 128) :
    5 ≤ red (2 ^ 130) p (h + (b + 2 ^ 128)) ∧ red (2 ^ 130) p (h + (b + 2 ^ 128)) < 2 ^ 130 := by
  by_cases hge : 2 ^ 130 ≤ h + (b + 2 ^ 128)
  · rw [red_of_ge hge]
    rw [p_eq] at hh ⊢
    omega
  · rw [red_of_lt (by omega)]
    omega

/-- **One block.** The new accumulator is the Horner value, except that `p`
is left in it when the product overshoots. -/
theorem polyFeedBlock_val {ctx : Context} {h : Nat} (ha : Holds ctx.a h) (hh : h < p)
    (hr : arrVal ctx.r < 2 ^ 124) (block : Fin 4 → Word) :
    (¬ Overshoots (arrVal ctx.r) (h + (arrVal block + 2 ^ 128)) →
      (polyFeedBlock ctx block).a.val = absorb (arrVal ctx.r) h (arrVal block)) ∧
    (Overshoots (arrVal ctx.r) (h + (arrVal block + 2 ^ 128)) →
      (polyFeedBlock ctx block).a.val = p + absorb (arrVal ctx.r) h (arrVal block) ∧
        5 ≤ absorb (arrVal ctx.r) h (arrVal block) ∧ absorb (arrVal ctx.r) h (arrVal block) ≤ 2 ^ 126) := by
  obtain ⟨h5, hlt⟩ := red_block_bounds hh (arrVal_lt block)
  have hadd := ha.add_block hh block
  have hmod : red (2 ^ 130) p (h + (arrVal block + 2 ^ 128)) ≡ h + (arrVal block + 2 ^ 128) [MOD p] :=
    red_modEq p_le _
  have hprod : (polyMulAssign (polyAddReduce ctx.a block) ctx.r).val =
      product 128 (arrVal ctx.r) (red (2 ^ 130) p (h + (arrVal block + 2 ^ 128))) := by
    rw [polyMulAssign_val (by rw [hadd]; exact hlt), hadd]
  have habs : red (2 ^ 130) p (h + (arrVal block + 2 ^ 128)) * arrVal ctx.r % p =
      absorb (arrVal ctx.r) h (arrVal block) := by
    rw [absorb]
    exact hmod.mul_right _
  have hval : product 128 (arrVal ctx.r) (red (2 ^ 130) p (h + (arrVal block + 2 ^ 128))) % p =
      absorb (arrVal ctx.r) h (arrVal block) := by
    rw [← habs, product]
    have := serial_modEq p_le 128 (arrVal ctx.r) 0 (red (2 ^ 130) p (h + (arrVal block + 2 ^ 128)))
      (arrVal_lt ctx.r)
    rwa [Nat.zero_add] at this
  obtain ⟨e1, e2, e3, e4⟩ := serial_exact 128 (arrVal_lt ctx.r) hr h5 hlt
  rw [overshoots_congr hmod] at e1 e2 e3 e4
  rw [habs] at e2 e3 e4
  have hfeed : (polyFeedBlock ctx block).a.val = _ := polyMulKey_val { ctx with a := polyAddReduce ctx.a block }
  rw [hprod] at hfeed
  constructor
  · intro ho
    rw [hfeed, if_pos (e1 ho), hval]
  · intro ho
    have h5' := e3 ho
    refine ⟨?_, h5', e4 ho⟩
    rw [hfeed, if_neg (by rw [e2 ho, bound_eq]; omega), e2 ho]

theorem polyFeedBlock_holds {ctx : Context} {h : Nat} (ha : Holds ctx.a h) (hh : h < p)
    (hr : arrVal ctx.r < 2 ^ 124) (block : Fin 4 → Word) :
    Holds (polyFeedBlock ctx block).a (absorb (arrVal ctx.r) h (arrVal block)) := by
  obtain ⟨h1, h2⟩ := polyFeedBlock_val ha hh hr block
  by_cases ho : Overshoots (arrVal ctx.r) (h + (arrVal block + 2 ^ 128))
  · exact .inr (h2 ho)
  · exact .inl (h1 ho)

/-- The blocks leave the key alone. -/
theorem feed_key (blocks : List (Fin 4 → Word)) (ctx : Context) :
    (blocks.foldl polyFeedBlock ctx).r = ctx.r ∧ (blocks.foldl polyFeedBlock ctx).s = ctx.s := by
  induction blocks generalizing ctx with
  | nil => exact ⟨rfl, rfl⟩
  | cons b bs ih => exact ih (polyFeedBlock ctx b)

/-- **The accumulator after any blocks stands for their Horner value.** -/
theorem feed_holds {ctx : Context} (h0 : ctx.a = Limbs.zero) (hr : arrVal ctx.r < 2 ^ 124)
    (blocks : List (Fin 4 → Word)) :
    Holds (blocks.foldl polyFeedBlock ctx).a (horner (arrVal ctx.r) (blocks.map arrVal)) := by
  induction blocks using List.reverseRecOn with
  | nil => exact .inl (by rw [List.foldl_nil, h0, Limbs.val_zero]; rfl)
  | append_singleton bs b ih =>
    have hk := (feed_key bs ctx).1
    rw [List.foldl_concat, List.map_append, List.map_singleton, horner_concat, ← hk]
    rw [← hk] at ih
    exact polyFeedBlock_holds ih (horner_lt ..) (by rw [hk]; exact hr) b

end Memclave.Poly
