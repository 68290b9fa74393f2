/-
The tag of `poly_init`, `poly_feed_block` on every block, `poly_finalize`,
against RFC 8439.

`poly_reduction_req` assumes a product below `2^130`. `polyTag_eq_iff` says
what this assumption costs: the tag is the RFC's exactly when the product of
the last block does not overshoot (`Overshoots`). An overshoot at an earlier
block does no harm, because the addition of the next block takes the `p`
away again (`Holds.add_block`).
-/
import Memclave.PolyFacts

namespace Memclave.Poly

open Words Poly1305

/-- The first half of the key, which is clamped. -/
def keyR (key : Fin 8 → Word) : Fin 4 → Word := ![key 0, key 1, key 2, key 3]

/-- The second half of the key. -/
def keyS (key : Fin 8 → Word) : Fin 4 → Word := ![key 4, key 5, key 6, key 7]

theorem polyInit_s (key : Fin 8 → Word) : (polyInit key).s = keyS key := rfl

/-- **The four masks of `poly_init` are the RFC's clamp.** -/
theorem polyInit_r (key : Fin 8 → Word) : arrVal (polyInit key).r = clamp (arrVal (keyR key)) := by
  have e : ∀ a b c d : Nat, a + 2 ^ 32 * b + 2 ^ 64 * c + 2 ^ 96 * d =
      a + 2 ^ 32 * (b + 2 ^ 32 * (c + 2 ^ 32 * d)) := fun a b c d => by ring
  have hm : 0x0ffffffc0ffffffc0ffffffc0fffffff =
      0x0fffffff + 2 ^ 32 * (0x0ffffffc + 2 ^ 32 * (0x0ffffffc + 2 ^ 32 * 0x0ffffffc)) := by decide
  have kF : (0x0FFFFFFF : Word).toNat = 0x0fffffff := by decide
  have kC : (0x0FFFFFFC : Word).toNat = 0x0ffffffc := by decide
  rw [clamp, hm, arrVal_four, arrVal_four, e, e]
  simp only [polyInit, keyR, Matrix.cons_val, BitVec.toNat_and, kF, kC]
  rw [and_low_high (word_lt _) (by decide), and_low_high (word_lt _) (by decide),
    and_low_high (word_lt _) (by decide)]

theorem clamp_lt (r : Nat) : clamp r < 2 ^ 124 :=
  lt_of_le_of_lt Nat.and_le_right (by decide)

theorem polyAdd128_val (a b : Fin 4 → Word) : arrVal (polyAdd128 a b) = (arrVal a + arrVal b) % 2 ^ 128 := by
  have h0 := addc_val (a 0) (b 0) false
  have h1 := addc_val (a 1) (b 1) (addc (a 0) (b 0) false).2
  have h2 := addc_val (a 2) (b 2) (addc (a 1) (b 1) (addc (a 0) (b 0) false).2).2
  have h3 := addc_val (a 3) (b 3) (addc (a 2) (b 2) (addc (a 1) (b 1) (addc (a 0) (b 0) false).2).2).2
  have hlt := arrVal_lt (polyAdd128 a b)
  simp only [Bool.toNat_false] at h0
  rw [arrVal_four] at hlt ⊢
  rw [arrVal_four a, arrVal_four b]
  simp only [polyAdd128, Matrix.cons_val] at hlt ⊢
  omega

/-- The tag is the low 128 bits of the accumulator plus `s`. -/
theorem polyTag_val (key : Fin 8 → Word) (blocks : List (Fin 4 → Word)) :
    arrVal (polyTag key blocks) =
      ((blocks.foldl polyFeedBlock (polyInit key)).a.val + arrVal (keyS key)) % 2 ^ 128 := by
  rw [polyTag, polyFinalize, polyAdd128_val, Limbs.low_val, (feed_key blocks _).2, polyInit_s]
  omega

/-- The product of the last block is left above `p`. -/
def LastOvershoots (r : Nat) (blocks : List Nat) : Prop :=
  ∃ init last, blocks = init ++ [last] ∧ Overshoots r (horner r init + (last + 2 ^ 128))

theorem lastOvershoots_concat {r : Nat} {init : List Nat} {last : Nat} :
    LastOvershoots r (init ++ [last]) ↔ Overshoots r (horner r init + (last + 2 ^ 128)) := by
  constructor
  · rintro ⟨init', last', h, ho⟩
    obtain ⟨rfl, h1⟩ := List.append_inj' h rfl
    obtain rfl := List.singleton_inj.mp h1
    exact ho
  · exact fun ho => ⟨init, last, rfl, ho⟩

/-- **When the tag is the RFC's.** For every key and all blocks, the tag
`poly.c` computes is the Poly1305 tag if and only if the product of the last
block does not overshoot. -/
theorem polyTag_eq_iff (key : Fin 8 → Word) (blocks : List (Fin 4 → Word)) :
    arrVal (polyTag key blocks) =
        tag (clamp (arrVal (keyR key))) (arrVal (keyS key)) (blocks.map arrVal) ↔
      ¬ LastOvershoots (clamp (arrVal (keyR key))) (blocks.map arrVal) := by
  have hr : arrVal (polyInit key).r < 2 ^ 124 := by rw [polyInit_r]; exact clamp_lt _
  rw [polyTag_val, tag]
  induction blocks using List.reverseRecOn with
  | nil =>
    refine iff_of_true ?_ ?_
    · rw [List.foldl_nil, List.map_nil]
      simp only [polyInit, Limbs.val_zero, horner, List.foldl_nil]
    · rintro ⟨init, last, h, -⟩
      simp at h
  | append_singleton bs b _ =>
    have hk := (feed_key bs (polyInit key)).1
    have hh := @feed_holds (polyInit key) rfl hr bs
    rw [← hk] at hh hr
    obtain ⟨h1, h2⟩ := polyFeedBlock_val hh (horner_lt ..) hr b
    rw [hk, polyInit_r] at h1 h2
    rw [List.foldl_concat, List.map_append, List.map_singleton, lastOvershoots_concat, horner_concat]
    constructor
    · intro heq ho
      rw [(h2 ho).1, p_eq] at heq
      omega
    · intro ho
      rw [h1 ho]

/-- Two blocks, `r = 3` and `s = 0`: the accumulator before the last product
is `2^130 - 3`, the product `2^130 + 1` keeps its `p`, and the tag is 1 where
the RFC's is 6. -/
theorem polyTag_overshoot :
    let key : Fin 8 → Word := ![3, 0, 0, 0, 0, 0, 0, 0]
    let blocks : List (Fin 4 → Word) :=
      [fun _ => 0xFFFFFFFF, ![0xFFFFFFFB, 0xFFFFFFFF, 0xFFFFFFFF, 0xFFFFFFFF]]
    arrVal (polyTag key blocks) = 1 ∧
      tag (clamp (arrVal (keyR key))) (arrVal (keyS key)) (blocks.map arrVal) = 6 := by
  decide +kernel

end Memclave.Poly
