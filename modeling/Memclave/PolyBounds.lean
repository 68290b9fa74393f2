/-
The additions of `poly_feed_block`, one by one.

`POLY_ADD_REDUCE` is two carry chains: its sum, and then the reduction, which
adds `2^160 - p` when the sum has reached `2^130`. `accumulator_bounded`: for
any key and blocks no sum is lost past the top limb or looks negative to
`gts`, and the second chain carries out exactly when it takes `p` away
(`reduction_carries` is an input where it does).
-/
import Memclave.PolyTag

namespace Memclave.Poly

open Words SerialMul Poly1305

/-- What the second chain of `POLY_ADD_REDUCE` adds to the sum. -/
def reduction (t : Limbs) : Limbs :=
  let n1 := reduceMask t.w4
  ⟨n1 &&& 0x5, 0, 0, 0, n1 &&& 0xFFFFFFFC⟩

example (t s : Limbs) : addReduceMacro t s = (t.add s).add (reduction (t.add s)) := rfl

/-! ## The operands of each `POLY_ADD_REDUCE` -/

/-- In a loop of `poly_mul_assign`. -/
def mulLoopAdds : Nat → Word → Limbs × Limbs → List (Limbs × Limbs)
  | 0, _, _ => []
  | r2 + 1, r3, (prod, acc) =>
    let first := if r3 &&& 0x1 = 0 then [] else [(prod, acc)]
    let prod := if r3 &&& 0x1 = 0 then prod else addReduceMacro prod acc
    first ++ (acc, acc) :: mulLoopAdds r2 (r3 >>> 1) (prod, addReduceMacro acc acc)

/-- In `poly_mul_assign`. -/
def polyMulAssignAdds (a : Limbs) (r : Fin 4 → Word) : List (Limbs × Limbs) :=
  let s0 := mulLoop 32 (r 0) (Limbs.zero, a)
  let s1 := mulLoop 32 (r 1) s0
  let s2 := mulLoop 32 (r 2) s1
  mulLoopAdds 32 (r 0) (Limbs.zero, a) ++ mulLoopAdds 32 (r 1) s0 ++ mulLoopAdds 32 (r 2) s1 ++
    mulLoopAdds 32 (r 3) s2

/-- In `poly_feed_block`. -/
def feedAdds (ctx : Context) (block : Fin 4 → Word) : List (Limbs × Limbs) :=
  (ctx.a, ⟨block 0, block 1, block 2, block 3, 0x1⟩) :: polyMulAssignAdds (polyAddReduce ctx.a block) ctx.r

/-- Both chains of each. -/
def additions (ctx : Context) (block : Fin 4 → Word) : List (Limbs × Limbs) :=
  (feedAdds ctx block).flatMap fun (t, s) => [(t, s), (t.add s, reduction (t.add s))]

/-! ## One `POLY_ADD_REDUCE` -/

/-- The sum is exact and not negative, and the second chain carries out when
and only when it takes `p` away. -/
structure Fits (t s : Limbs) : Prop where
  exact : t.carryOut s = false
  nonneg : BitVec.slt (t.add s).w4 0 = false
  carries : (t.add s).carryOut (reduction (t.add s)) = true ↔ 2 ^ 130 ≤ (t.add s).val
  reduced : (addReduceMacro t s).val = red (2 ^ 130) p (t.val + s.val)

theorem carryOut_iff (t s : Limbs) : t.carryOut s = true ↔ 2 ^ 160 ≤ t.val + s.val := by
  have hv := Limbs.val_carryOut t s
  have hl := Limbs.val_lt (t.add s)
  cases h : t.carryOut s with
  | false =>
    rw [h, Bool.toNat_false] at hv
    refine iff_of_false Bool.false_ne_true ?_
    omega
  | true =>
    rw [h, Bool.toNat_true] at hv
    refine iff_of_true rfl ?_
    omega

/-- Below `2^159` the macro does what it is for. -/
theorem fits {t s : Limbs} (h : t.val + s.val < 2 ^ 159) : Fits t s := by
  have hv : (t.add s).val = t.val + s.val := Limbs.val_add (by omega)
  have hw := Limbs.w4_eq (t.add s)
  rw [hv] at hw
  have hlt : (t.add s).w4.toNat < 2 ^ 31 := by omega
  refine ⟨?_, ?_, ?_, addReduceMacro_val h⟩
  · rw [← Bool.not_eq_true, carryOut_iff]
    omega
  · have h0 : (0 : Word).toNat = 0 := rfl
    rw [BitVec.slt_eq_decide, decide_eq_false_iff_not, BitVec.toInt_eq_toNat_of_lt (by omega),
      BitVec.toInt_eq_toNat_of_lt (by omega)]
    omega
  · rw [carryOut_iff, reduction, reduceMask_eq hlt, hv]
    by_cases h4 : 4 ≤ (t.add s).w4.toNat
    · have hm : Limbs.val ⟨0xFFFFFFFF &&& 0x5, 0, 0, 0, 0xFFFFFFFF &&& 0xFFFFFFFC⟩ = 2 ^ 160 - p := by decide
      rw [if_pos h4, hm, p_eq]
      omega
    · have hm : Limbs.val ⟨0 &&& 0x5, 0, 0, 0, 0 &&& 0xFFFFFFFC⟩ = 0 := by decide
      rw [if_neg h4, hm]
      omega

/-! ## All of them -/

/-- With an excess of at most `e` before the loop, every sum of it is below
`2^159`. -/
theorem mulLoopAdds_small (n : Nat) : ∀ {r3 : Word} {prod acc : Limbs} {e : Nat}, 4 ≤ e → e * 2 ^ n ≤ 2 ^ 130 →
    prod.val ≤ p + e → acc.val ≤ p + e → ∀ x ∈ mulLoopAdds n r3 (prod, acc), x.1.val + x.2.val < 2 ^ 159 := by
  induction n with
  | zero => exact fun _ _ _ _ x hx => absurd hx List.not_mem_nil
  | succ n ih =>
    intro r3 prod acc e he hn hp ha x hx
    obtain ⟨hnext, h2e⟩ := excess_next hn
    obtain ⟨⟨-, haccb⟩, -, hprodb⟩ := mulLoop_pass r3 he h2e hp ha
    have hsmall : p + e + (p + e) < 2 ^ 159 := by rw [p_eq]; omega
    simp only [mulLoopAdds] at hx
    cases List.mem_append.mp hx with
    | inl hx =>
      split at hx
      · exact absurd hx List.not_mem_nil
      · obtain rfl := List.mem_singleton.mp hx
        show prod.val + acc.val < _
        omega
    | inr hx =>
      rcases List.mem_cons.mp hx with rfl | hx
      · show acc.val + acc.val < _
        omega
      · exact ih (by omega) hnext hprodb haccb x hx

theorem mulLoopAdds_word {k : Nat} (hk : k + 32 ≤ 128) (x : Word) {s : Limbs × Limbs}
    (h1 : s.1.val ≤ p + 4 * 2 ^ k) (h2 : s.2.val ≤ p + 4 * 2 ^ k) :
    ∀ y ∈ mulLoopAdds 32 x s, y.1.val + y.2.val < 2 ^ 159 := by
  have hpow : 4 * 2 ^ k * 2 ^ 32 = 4 * 2 ^ (k + 32) := by rw [Nat.pow_add]; ring
  have hle : (2 : Nat) ^ (k + 32) ≤ 2 ^ 128 := Nat.pow_le_pow_right (by omega) hk
  have hpos := Nat.two_pow_pos k
  exact mulLoopAdds_small 32 (e := 4 * 2 ^ k) (by omega) (by omega) h1 h2

theorem polyMulAssignAdds_small {a : Limbs} (h : a.val < 2 ^ 130) (r : Fin 4 → Word) :
    ∀ x ∈ polyMulAssignAdds a r, x.1.val + x.2.val < 2 ^ 159 := by
  have ha : a.val ≤ p + 4 * 2 ^ 0 := by rw [bound_eq] at h; omega
  have hz : Limbs.zero.val ≤ p + 4 * 2 ^ 0 := by rw [Limbs.val_zero]; omega
  obtain ⟨-, p0, a0⟩ := mulLoop_word (k := 0) (by omega) (r 0) (s := (Limbs.zero, a)) hz ha
  obtain ⟨-, p1, a1⟩ := mulLoop_word (by omega) (r 1) p0 a0
  obtain ⟨-, p2, a2⟩ := mulLoop_word (by omega) (r 2) p1 a1
  intro x hx
  simp only [polyMulAssignAdds, List.mem_append] at hx
  rcases hx with ((hx | hx) | hx) | hx
  · exact mulLoopAdds_word (k := 0) (by omega) (r 0) hz ha x hx
  · exact mulLoopAdds_word (by omega) (r 1) p0 a0 x hx
  · exact mulLoopAdds_word (by omega) (r 2) p1 a1 x hx
  · exact mulLoopAdds_word (by omega) (r 3) p2 a2 x hx

theorem feedAdds_small {ctx : Context} {h : Nat} (ha : Holds ctx.a h) (hh : h < p) (block : Fin 4 → Word) :
    ∀ x ∈ feedAdds ctx block, x.1.val + x.2.val < 2 ^ 159 := by
  have hb := arrVal_lt block
  have hv : Limbs.val ⟨block 0, block 1, block 2, block 3, 0x1⟩ = arrVal block + 2 ^ 128 := by
    rw [arrVal_four]
    simp [Limbs.val]
  have hlt := ha.lt hh
  intro x hx
  rcases List.mem_cons.mp hx with rfl | hx
  · show ctx.a.val + _ < _
    rw [hv]
    omega
  · refine polyMulAssignAdds_small ?_ ctx.r x hx
    rw [ha.add_block hh]
    exact (red_block_bounds hh hb).2

/-- **The accumulator stays in bounds.** For every key and all blocks, the
accumulator is the Horner value modulo `p` and below `2^131`, and while one
more block is fed no sum of `POLY_ADD_REDUCE` carries out or looks negative
to its comparison; its reduction carries out exactly when it is due. -/
theorem accumulator_bounded (key : Fin 8 → Word) (blocks : List (Fin 4 → Word)) :
    (blocks.foldl polyFeedBlock (polyInit key)).a.val ≡
        horner (clamp (arrVal (keyR key))) (blocks.map arrVal) [MOD p] ∧
      (blocks.foldl polyFeedBlock (polyInit key)).a.val < 2 ^ 131 ∧
      ∀ block, ∀ x ∈ feedAdds (blocks.foldl polyFeedBlock (polyInit key)) block, Fits x.1 x.2 := by
  have hr : arrVal (polyInit key).r < 2 ^ 124 := by rw [polyInit_r]; exact clamp_lt _
  have hholds := @feed_holds (polyInit key) rfl hr blocks
  have hlt := horner_lt (arrVal (polyInit key).r) (blocks.map arrVal)
  refine ⟨?_, hholds.lt hlt, fun block x hx => fits (feedAdds_small hholds hlt block x hx)⟩
  rw [← polyInit_r]
  rcases hholds with h | ⟨h, -⟩
  · rw [h]
  · rw [h]
    simp [Nat.ModEq]

/-- One block of ones: the doublings of its multiplicand reach `2^130`, and
the reduction carries out. -/
theorem reduction_carries :
    ¬ ∀ x ∈ additions (polyInit fun _ => 0) fun _ => 0xFFFFFFFF, x.1.carryOut x.2 = false := by
  decide +kernel

end Memclave.Poly
