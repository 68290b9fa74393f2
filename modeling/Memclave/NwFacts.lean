/-
A job of the Needleman-Wunsch kernel computes the recurrence in every block
(`job_correct`), whatever the order within a diagonal.

A cell has a phase from which on it is settled (`due`). A sub-block reads
settled cells only, apart from column 5 of its cache, which no cell is
computed from (`compute_cell`). It writes that column too: over cells that
are not settled yet, while its column 0 writes back what is there
(`Guar.settled`). The others of its diagonal have other rows.
-/
import Memclave.Nw

namespace Memclave.Nw

open Words Tasklets

/-! ## The cells of a sub-block -/

theorem foldl_range'_inv {β : Type} (P : Nat → β → Prop) {f : β → Nat → β} {a n : Nat} {x : β} (h0 : P a x)
    (h : ∀ i y, a ≤ i → i < a + n → P i y → P (i + 1) (f y i)) : P (a + n) ((List.range' a n).foldl f x) := by
  induction n generalizing a x with
  | zero => exact h0
  | succ n ih =>
    rw [List.range'_succ, List.foldl_cons, show a + (n + 1) = a + 1 + n by omega]
    exact ih (h a x (Nat.le_refl a) (by omega) h0) fun i y hi hi' => h i y (by omega) (by omega)

/-- The rows above row `i` hold `G`, and so does row `i` up to column `j`;
column 0 holds it anyway. -/
structure Computed (G : Nat → Nat → Word) (i j : Nat) (c : Nat → Word) : Prop where
  rows : ∀ a b, a < i → a < 5 → b < 5 → c (a * 6 + b) = G a b
  row : ∀ b, b ≤ j → b < 5 → i < 5 → c (i * 6 + b) = G i b
  column : ∀ a, a < 5 → c (a * 6) = G a 0

variable {penalty : Word} {G : Nat → Nat → Word} {cache_ref c : Nat → Word}

theorem Computed.cell {i j : Nat} (h : Computed G i (j - 1) c) (hi : 1 ≤ i) (hi' : i < 5) (hj : 1 ≤ j) (hj' : j < 5)
    (hG : G i j = maximum (G (i - 1) (j - 1) + cache_ref ((i - 1) * 4 + (j - 1))) (G i (j - 1) - penalty) (G (i - 1) j - penalty)) :
    Computed G i j (Nw.cell penalty cache_ref i c j) := by
  have hval : maximum (c ((i - 1) * 6 + j - 1) + cache_ref ((i - 1) * 4 + j - 1)) (c (i * 6 + j - 1) - penalty)
      (c ((i - 1) * 6 + j) - penalty) = G i j := by
    rw [hG, show (i - 1) * 6 + j - 1 = (i - 1) * 6 + (j - 1) by omega, h.rows _ _ (by omega) (by omega) (by omega),
      show (i - 1) * 4 + j - 1 = (i - 1) * 4 + (j - 1) by omega, show i * 6 + j - 1 = i * 6 + (j - 1) by omega,
      h.row _ (Nat.le_refl _) (by omega) hi', h.rows (i - 1) j (by omega) (by omega) hj']
  have hother : ∀ k, k ≠ i * 6 + j → Nw.cell penalty cache_ref i c j k = c k := fun k hk => Function.update_of_ne hk _ _
  refine ⟨fun a b ha ha' hb => ?_, fun b hb hb' _ => ?_, fun a ha => ?_⟩
  · rw [hother _ (by omega), h.rows a b ha ha' hb]
  · by_cases hbj : b = j
    · rw [hbj, Nw.cell, BL_IN, Function.update_self, hval]
    · rw [hother _ (by omega), h.row b (by omega) hb' hi']
  · rw [hother _ (by omega), h.column a ha]

/-- **The cells of a sub-block.** Column 5 of the cache plays no part. -/
theorem compute_cell (h0 : ∀ b < 5, c b = G 0 b) (hc : ∀ a < 5, c (a * 6) = G a 0)
    (hG : ∀ a < 4, ∀ b < 4, G (a + 1) (b + 1) =
      maximum (G a b + cache_ref (a * 4 + b)) (G (a + 1) b - penalty) (G a (b + 1) - penalty))
    {a b : Nat} (ha : a < 5) (hb : b < 5) : compute penalty cache_ref c (a * 6 + b) = G a b := by
  have hrows : Computed G 5 0 (compute penalty cache_ref c) := by
    refine foldl_range'_inv (a := 1) (n := 4) (fun i => Computed G i 0) ⟨fun a b ha _ hb => ?_, fun b hb _ _ => ?_, hc⟩ ?_
    · obtain rfl : a = 0 := by omega
      rw [Nat.zero_mul, Nat.zero_add, h0 b hb]
    · rw [Nat.le_zero.mp hb, Nat.add_zero, hc 1 (by omega)]
    · intro i y hi hi' hy
      have hrow : Computed G i 4 ((List.range' 1 4).foldl (cell penalty cache_ref i) y) := by
        refine foldl_range'_inv (a := 1) (n := 4) (fun j => Computed G i (j - 1)) hy fun j y hj hj' hy => ?_
        refine hy.cell hi (by omega) hj (by omega) ?_
        have := hG (i - 1) (by omega) (j - 1) (by omega)
        rwa [Nat.sub_add_cancel hi, Nat.sub_add_cancel hj] at this
      refine ⟨fun a b ha ha' hb => ?_, fun b hb hb' hi5 => ?_, hrow.column⟩
      · by_cases hai : a = i
        · rw [hai]
          exact hrow.row b (by omega) hb (by omega)
        · exact hrow.rows a b (by omega) ha' hb
      · rw [Nat.le_zero.mp hb, Nat.add_zero]
        exact hrow.column _ hi5
  exact hrows.rows a b ha ha hb

/-! ## The protocol -/

section

variable (args : DpuArguments) (m0 : Mram)

/-- The word of a cell of an itemset block. -/
def idx (bl i j : Nat) : Nat := 4160 + bl * 306 + i * 18 + j

/-- The recurrence from the blocks as they are at first. -/
def goal (bl i j : Nat) : Word := nw args.penalty (itemset m0 bl) (refCell args m0 bl) i j

/-- The phase from which on a cell is settled. -/
def due (bl i j : Nat) : Nat := if i = 0 ∨ j = 0 then 0 else 8 * bl + (i - 1) / 4 + (j - 1) / 4 + 2

structure Inv (n : Nat) (m : Mram) : Prop where
  settled : ∀ bl i j, bl < args.nblocks.toNat → i ≤ 16 → j ≤ 16 → due bl i j ≤ n → m (idx bl i j) = goal args m0 bl i j
  frame : ∀ k, (k < 4160 ∨ 4160 + 306 * args.nblocks.toNat ≤ k) → m k = m0 k

/-- The sub-block of tasklet `t` in phase `n`. -/
structure Task (n t x y : Nat) : Prop where
  block : n / 8 < args.nblocks.toNat
  x_lt : x < 4
  y_lt : y < 4
  diagonal : x + y + 1 = n % 8
  tasklet : x = t + (n % 8 - 4)

/-- The words that a sub-block is written to. -/
def Written (n t k : Nat) : Prop :=
  ∃ x y i c, Task args n t x y ∧ 1 ≤ i ∧ i ≤ 4 ∧ c < 6 ∧ k = idx (n / 8) (4 * x + i) (4 * y + c)

structure Guar (n t : Nat) (m m' : Mram) : Prop where
  cells : ∀ k, ¬ Written args n t k → m' k = m k
  settled : ∀ bl i j, bl < args.nblocks.toNat → i ≤ 16 → j ≤ 16 → due bl i j ≤ n → m (idx bl i j) = goal args m0 bl i j →
    m' (idx bl i j) = goal args m0 bl i j

/-- The first `r` rows of a sub-block are done. -/
def Done (n x y r : Nat) (m : Mram) : Prop :=
  ∀ i c, 1 ≤ i → i ≤ r → 1 ≤ c → c ≤ 4 → m (idx (n / 8) (4 * x + i) (4 * y + c)) = goal args m0 (n / 8) (4 * x + i) (4 * y + c)

structure Brings (n t : Nat) (m : Mram) : Prop where
  phase : n < 8 * args.nblocks.toNat
  inv : Inv args m0 n m
  done : ∀ x y, Task args n t x y → Done args m0 n x y 4 m

def protocol : Protocol Mram where
  N := NR_TASKLETS
  ok := free
  guar := Guar args m0
  brings := Brings args m0
  busy _ _ := False

end

variable {args : DpuArguments} {m0 m m' : Mram} {n t : Nat}

theorem idx_add (bl i j c : Nat) : idx bl i (j + c) = idx bl i j + c := (Nat.add_assoc _ j c).symm

theorem idx_inj {bl bl' i i' j j' : Nat} (h : idx bl i j = idx bl' i' j') (hi : i ≤ 16) (hi' : i' ≤ 16) (hj : j < 18)
    (hj' : j' < 18) : bl = bl' ∧ i = i' ∧ j = j' := by
  unfold idx at h
  have hbl : bl = bl' := by omega
  subst hbl
  have hii : i = i' := by omega
  exact ⟨rfl, hii, by omega⟩

theorem Written.inside {k : Nat} (h : Written args n t k) : 4160 ≤ k ∧ k < 4160 + 306 * args.nblocks.toNat := by
  obtain ⟨x, y, i, c, ⟨hb, hx, hy, -, -⟩, -, hi, hc, rfl⟩ := h
  unfold idx
  omega

/-- The sub-blocks of one diagonal have different rows. -/
theorem Written.row {u x y i c : Nat} (h : Written args n u (idx (n / 8) (4 * x + i) (4 * y + c))) (ht : Task args n t x y)
    (hi : 1 ≤ i) (hi' : i ≤ 4) (hc : c < 6) : u = t := by
  obtain ⟨x', y', i', c', ⟨-, hx', hy', hd', hu⟩, hi1, hi2, hc', he⟩ := h
  obtain ⟨-, hx, hy, hd, ht⟩ := ht
  unfold idx at he
  omega

theorem Inv.keep (h : Inv args m0 n m) (hg : Guar args m0 n t m m') : Inv args m0 n m' where
  settled bl i j hbl hi hj hd := hg.settled bl i j hbl hi hj hd (h.settled bl i j hbl hi hj hd)
  frame k hk := by
    rw [hg.cells k fun hw => by have := hw.inside; omega, h.frame k hk]

theorem Inv.stable : (protocol args m0).Stable t n (Inv args m0 n) := fun _ _ h ⟨_, _, _, hg⟩ => h.keep hg

theorem Done.stable {x y r : Nat} (ht : Task args n t x y) (hr : r ≤ 4) :
    (protocol args m0).Stable t n (Done args m0 n x y r) := by
  intro m m' h ⟨u, _, hu, hg⟩ i c hi hi' hc hc'
  rw [Guar.cells hg _ fun hw => hu (hw.row ht hi (by omega) (by omega)), h i c hi hi' hc hc']

/-- After the barrier the diagonal is settled. -/
theorem Inv.succ (h : ∀ u < 16, Brings args m0 n u m) : Inv args m0 (n + 1) m := by
  refine ⟨fun bl i j hbl hi hj hd => ?_, (h 0 (by omega)).inv.frame⟩
  by_cases hn : due bl i j ≤ n
  · exact (h 0 (by omega)).inv.settled bl i j hbl hi hj hn
  · have hdue : due bl i j = n + 1 := by omega
    unfold due at hdue
    split at hdue
    next => omega
    next hij =>
      -- the tasklet that has the cell's sub-block
      have htask : Task args n ((i - 1) / 4 - (n % 8 - 4)) ((i - 1) / 4) ((j - 1) / 4) :=
        ⟨by omega, by omega, by omega, by omega, by omega⟩
      have hdone := (h _ (by omega)).done _ _ htask ((i - 1) % 4 + 1) ((j - 1) % 4 + 1) (by omega) (by omega) (by omega) (by omega)
      rwa [show n / 8 = bl by omega, show 4 * ((i - 1) / 4) + ((i - 1) % 4 + 1) = i by omega,
        show 4 * ((j - 1) / 4) + ((j - 1) % 4 + 1) = j by omega] at hdone

/-! ## A sub-block -/

/-- The recurrence, seen from a sub-block. -/
theorem goal_succ (bl i j : Nat) : goal args m0 bl (i + 1) (j + 1) =
    maximum (goal args m0 bl i j + refCell args m0 bl i j) (goal args m0 bl (i + 1) j - args.penalty)
      (goal args m0 bl i (j + 1) - args.penalty) := by
  unfold goal
  rw [nw]

theorem Fits.room (h : Fits args) : args.nblocks.toNat ≤ args.active_blocks.toNat ∧
    16640 + args.active_blocks.toNat * 1224 + args.nblocks.toNat * 1024 ≤ 67108864 := ⟨h.active, h.mram⟩

theorem heapBase_toNat : HEAP_BASE.toNat = 16640 := rfl

theorem baseRef_toNat (h : Fits args) : (baseRef args).toNat = 16640 + 1224 * args.active_blocks.toNat := by
  obtain ⟨-, hm⟩ := h.room
  have hsize : (BitVec.ofNat 32 ((BL + 1) * (BL + 2) * 4)).toNat = 1224 := rfl
  have hactive : (HEAP_BASE + args.active_blocks * BitVec.ofNat 32 ((BL + 1) * (BL + 2) * 4)).toNat =
      16640 + 1224 * args.active_blocks.toNat := by
    rw [BitVec.toNat_add, BitVec.toNat_mul, hsize, heapBase_toNat]
    omega
  unfold baseRef
  split
  next => exact hactive
  next heq => rw [not_not.mp heq, hactive]

theorem line_input (h : Fits args) {bl x y i : Nat} (hbl : bl < args.nblocks.toNat) (hx : x < 4) (hy : y < 4) (hi : i < 5) :
    line (rowAddr (itemsetsAddr bl) (BL + 2) x y i) = idx bl (4 * x + i) (4 * y) := by
  obtain ⟨ha, hm⟩ := h.room
  simp only [line, rowAddr, itemsetsAddr, idx, heapBase_toNat, BL, BL_IN, BitVec.toNat_add, BitVec.toNat_ofNat]
  omega

theorem line_ref (h : Fits args) {bl x y i : Nat} (hbl : bl < args.nblocks.toNat) (hx : x < 4) (hy : y < 4) (hi : i < 4) :
    line (rowAddr (refAddr args bl) BL x y i) = (baseRef args).toNat / 4 + bl * 256 + (4 * x + i) * 16 + 4 * y := by
  obtain ⟨-, hm⟩ := h.room
  have hb := baseRef_toNat h
  simp only [line, rowAddr, refAddr, BL, BL_IN, BitVec.toNat_add, BitVec.toNat_ofNat]
  omega

theorem baseRef_ge (h : Fits args) : 4160 + 306 * args.nblocks.toNat ≤ (baseRef args).toNat / 4 := by
  have ha := h.active
  rw [baseRef_toNat h]
  omega

/-- The cells that a sub-block starts from are settled. -/
theorem due_border {x y : Nat} (ht : Task args n t x y) :
    (∀ b < 5, due (n / 8) (4 * x) (4 * y + b) ≤ n) ∧ ∀ a < 5, due (n / 8) (4 * x + a) (4 * y) ≤ n := by
  obtain ⟨-, hx, hy, hd, -⟩ := ht
  refine ⟨fun b hb => ?_, fun a ha => ?_⟩
  · unfold due
    split <;> omega
  · unfold due
    split <;> omega

/-- What a sub-block's cache holds before its cells are computed: its first
row, and its first column down to row `r`. -/
structure Loaded (args : DpuArguments) (m0 : Mram) (n x y r : Nat) (c : Nat → Word) : Prop where
  row : ∀ b < 5, c b = goal args m0 (n / 8) (4 * x) (4 * y + b)
  column : ∀ a < r, a < 5 → c (a * 6) = goal args m0 (n / 8) (4 * x + a) (4 * y)

section

variable {x y : Nat} (ht : Task args n t x y) (hs : Inv args m0 n m)

include ht hs

theorem Loaded.first (q : Nat → Word) : Loaded args m0 n x y 1 (Copy.blit q 0 m (idx (n / 8) (4 * x) (4 * y)) 6) := by
  have hblock := ht.block
  have hx := ht.x_lt
  have hy := ht.y_lt
  have hrow : ∀ b < 5, Copy.blit q 0 m (idx (n / 8) (4 * x) (4 * y)) 6 b = goal args m0 (n / 8) (4 * x) (4 * y + b) := by
    intro b hb
    rw [Copy.blit_in (Nat.zero_le b) (by omega), Nat.sub_zero, ← idx_add]
    exact hs.settled (n / 8) (4 * x) (4 * y + b) hblock (by omega) (by omega) ((due_border ht).1 b hb)
  refine ⟨hrow, fun a ha _ => ?_⟩
  obtain rfl : a = 0 := by omega
  exact hrow 0 (by omega)

theorem Loaded.next {r : Nat} {c : Nat → Word} (h : Loaded args m0 n x y r c) (hr : 1 ≤ r) (hr5 : r < 5) :
    Loaded args m0 n x y (r + 1) (Copy.blit c (r * 6) m (idx (n / 8) (4 * x + r) (4 * y)) 2) := by
  have hblock := ht.block
  have hx := ht.x_lt
  have hy := ht.y_lt
  refine ⟨fun b hb => ?_, fun a ha ha5 => ?_⟩
  · rw [Copy.blit_out (by omega), h.row b hb]
  · by_cases har : a = r
    · rw [har, Copy.blit_in (by omega) (by omega), Nat.sub_self, Nat.add_zero]
      exact hs.settled (n / 8) (4 * x + r) (4 * y) hblock (by omega) (by omega) ((due_border ht).2 r hr5)
    · rw [Copy.blit_out (by omega), h.column a (by omega) ha5]

omit hs in
/-- A row written back. -/
theorem guar_row {c : Nat → Word} {i : Nat} (hi : 1 ≤ i) (hi' : i ≤ 4)
    (hc : ∀ b < 5, c (i * 6 + b) = goal args m0 (n / 8) (4 * x + i) (4 * y + b)) :
    Guar args m0 n t m (Copy.blit m (idx (n / 8) (4 * x + i) (4 * y)) c (i * 6) 6) := by
  refine ⟨fun k hk => Copy.blit_out ?_, fun bl a b hbl ha hb hd hm => ?_⟩
  · by_contra hin
    refine hk ⟨x, y, i, k - idx (n / 8) (4 * x + i) (4 * y), ht, hi, hi', by omega, ?_⟩
    unfold idx at hin ⊢
    omega
  · obtain ⟨hblock, hx, hy, hdiag, -⟩ := ht
    by_cases hin : idx (n / 8) (4 * x + i) (4 * y) ≤ idx bl a b ∧ idx bl a b < idx (n / 8) (4 * x + i) (4 * y) + 6
    · obtain ⟨e, he⟩ := Nat.exists_eq_add_of_le hin.1
      have he6 : e < 6 := by omega
      rw [← idx_add] at he
      obtain ⟨rfl, rfl, rfl⟩ := idx_inj he ha (by omega) (by omega) (by omega)
      -- column 5 of the cache is for cells of the next diagonal
      have he5 : e < 5 := by
        by_contra he5
        unfold due at hd
        split at hd <;> omega
      rw [Copy.blit_in hin.1 hin.2, idx_add, Nat.add_sub_cancel_left, hc e he5]
    · rw [Copy.blit_out (by omega), hm]

omit hs in
theorem Done.next {c : Nat → Word} {i : Nat} (hi : 1 ≤ i) (hi' : i ≤ 4) (h : Done args m0 n x y (i - 1) m)
    (hc : ∀ b < 5, c (i * 6 + b) = goal args m0 (n / 8) (4 * x + i) (4 * y + b)) :
    Done args m0 n x y i (Copy.blit m (idx (n / 8) (4 * x + i) (4 * y)) c (i * 6) 6) := by
  obtain ⟨hblock, hx, hy, hdiag, -⟩ := ht
  intro a b ha ha' hb hb'
  by_cases hai : a = i
  · rw [hai, Copy.blit_in (by rw [idx_add]; omega) (by rw [idx_add]; omega), idx_add, Nat.add_sub_cancel_left, hc b (by omega)]
  · rw [Copy.blit_out (by unfold idx; omega), h a b ha (by omega) hb hb']

end

/-- The reference cells of a sub-block, down to row `r`. -/
def LoadedRef (args : DpuArguments) (m0 : Mram) (n x y r : Nat) (c : Nat → Word) : Prop :=
  ∀ a < r, ∀ b < 4, c (a * 4 + b) = refCell args m0 (n / 8) (4 * x + a) (4 * y + b)

/-- The cells that a sub-block has computed. -/
def Ready (args : DpuArguments) (m0 : Mram) (n x y : Nat) (c : Nat → Word) : Prop :=
  ∀ a < 5, ∀ b < 5, c (a * 6 + b) = goal args m0 (n / 8) (4 * x + a) (4 * y + b)

theorem Loaded.compute {x y : Nat} {c cache_ref : Nat → Word} (h : Loaded args m0 n x y 5 c)
    (hr : LoadedRef args m0 n x y 4 cache_ref) : Ready args m0 n x y (compute args.penalty cache_ref c) := by
  intro a ha b hb
  refine compute_cell (G := fun a b => goal args m0 (n / 8) (4 * x + a) (4 * y + b)) h.row (fun a ha => h.column a ha ha)
    (fun a ha b hb => ?_) ha hb
  rw [hr a ha b hb]
  exact goal_succ (n / 8) (4 * x + a) (4 * y + b)

theorem LoadedRef.next {x y r : Nat} {c : Nat → Word} (h : LoadedRef args m0 n x y r c) (hs : Inv args m0 n m)
    (hfit : Fits args) :
    LoadedRef args m0 n x y (r + 1)
      (Copy.blit c (r * 4) m ((baseRef args).toNat / 4 + n / 8 * 256 + (4 * x + r) * 16 + 4 * y) 4) := by
  have hge := baseRef_ge hfit
  intro a ha b hb
  by_cases har : a = r
  · rw [har, Copy.blit_in (by omega) (by omega), Nat.add_sub_cancel_left, hs.frame _ (by omega), refCell]
    simp only [BL, Nat.add_assoc]
  · rw [Copy.blit_out (by omega), h a (by omega) b hb]

/-- **One sub-block.** -/
theorem subBlock_safe {x y : Nat} (ht : Task args n t x y) (hfit : Fits args) (q : Caches)
    (hs : Inv args m0 n m) : (protocol args m0).Safe t (fun n' _ m => n' = n ∧ Inv args m0 n m ∧ Done args m0 n x y 4 m)
      (subBlock args.penalty (itemsetsAddr (n / 8)) (refAddr args (n / 8)) x y q) n m := by
  have hpasses : Prog.passes 1 (BL_IN + 1) 1 = 4 := rfl
  have hline := fun {i} => line_input hfit ht.block ht.x_lt ht.y_lt (i := i)
  unfold subBlock
  refine Protocol.Safe.read _ Inv.stable hs fun m hs => ?_
  rw [hline (by omega), Nat.add_zero]
  refine Protocol.Safe.forStep (fun j c m => Inv args m0 n m ∧ Loaded args m0 n x y (j + 1) c)
    (fun j c m m' h ho => ⟨Inv.stable m m' h.1 ho, h.2⟩) ⟨hs, Loaded.first ht hs q.cache_input⟩ (fun j hj c m ⟨hs, hc⟩ => ?_)
    fun c m ⟨hs, hc⟩ => ?_
  · rw [hpasses] at hj
    refine Protocol.Safe.last (Protocol.Safe.read _ Inv.stable hs fun m hs => ?_)
    rw [hline (by omega)]
    have hnext := hc.next ht hs (by omega) (by omega)
    rw [Nat.add_comm j 1] at hnext
    exact Protocol.Safe.ret (Inv args m0 n) Inv.stable hs fun m hs => ⟨rfl, hs, by rw [Nat.one_mul, Nat.add_comm j 1]; exact hnext⟩
  · rw [hpasses] at hc
    refine Protocol.Safe.forStep (fun j f m => Inv args m0 n m ∧ LoadedRef args m0 n x y j f)
      (fun j f m m' h ho => ⟨Inv.stable m m' h.1 ho, h.2⟩) ⟨hs, fun a ha => absurd ha (Nat.not_lt_zero a)⟩
      (fun j hj f m ⟨hs, hf⟩ => ?_) fun f m ⟨hs, hf⟩ => ?_
    · refine Protocol.Safe.last (Protocol.Safe.read _ Inv.stable hs fun m hs => ?_)
      rw [Nat.zero_add, Nat.one_mul, line_ref hfit ht.block ht.x_lt ht.y_lt hj]
      have hnext := hf.next hs hfit
      exact Protocol.Safe.ret (Inv args m0 n) Inv.stable hs fun m hs => ⟨rfl, hs, hnext⟩
    · have hready := hc.compute hf
      refine Protocol.Safe.loop (fun j m => Inv args m0 n m ∧ (j ≤ 4 ∧ Done args m0 n x y j m))
        (fun j m m' h ho => ⟨Inv.stable m m' h.1 ho, h.2.1, Done.stable ht h.2.1 m m' h.2.2 ho⟩)
        ⟨hs, by omega, fun i c hi hi' => absurd hi (by omega)⟩ (fun j hj m ⟨hs, _, hd⟩ => ?_) fun m ⟨hs, _, hd⟩ => ?_
      · rw [hpasses] at hj
        have hst := fun r (hr : r ≤ 4) => (@Inv.stable args m0 n t).and (Done.stable ht hr)
        refine Protocol.Safe.last (Protocol.Safe.write _ (hst j (by omega)) ⟨hs, hd⟩ fun m ⟨hs, hd⟩ _ => ?_)
        rw [Nat.one_mul, hline (by omega)]
        have hrow := hready (1 + j) (by omega)
        have hg := guar_row ht (m := m) (i := 1 + j) (by omega) (by omega) hrow
        refine ⟨hg, Protocol.Safe.ret _ (hst (1 + j) (by omega)) ⟨hs.keep hg, ?_⟩ fun m ⟨hs, hd⟩ => ⟨rfl, hs, by omega, ?_⟩⟩
        · exact Done.next ht (by omega) (by omega) (by rwa [Nat.add_sub_cancel_left]) hrow
        · rwa [Nat.add_comm j 1]
      · rw [hpasses] at hd
        have hst := (@Inv.stable args m0 n t).and (Done.stable ht (Nat.le_refl 4))
        exact Protocol.Safe.ret _ hst ⟨hs, hd⟩ fun m hs => ⟨rfl, hs⟩

/-! ## A diagonal, a block, a job -/

theorem chunks_eq {k : Nat} (hk : k < 16) : chunks t k = if t < k then 1 else 0 := by
  rw [chunks, NR_TASKLETS, Nat.mod_eq_of_lt hk, Nat.div_eq_of_lt hk]

theorem start_eq {k : Nat} (hk : k < 16) (ht : t < k) : start t k = t := by
  rw [start, NR_TASKLETS, Nat.mod_eq_of_lt hk, chunks_eq hk]
  split_ifs <;> omega

section

variable (hfit : Fits args)

include hfit

/-- **One diagonal.** -/
theorem diagonal_safe {k x0 d : Nat} (hn : n < 8 * args.nblocks.toNat) (hk : k < 16)
    (htask : ∀ x y, Task args n t x y ↔ t < k ∧ x = x0 + t ∧ y = d - x) (q : Caches) (hs : Inv args m0 n m) :
    (protocol args m0).Safe t (fun n' _ m => n' = n + 1 ∧ Inv args m0 (n + 1) m)
      (diagonal args.penalty t (itemsetsAddr (n / 8)) (refAddr args (n / 8)) k x0 d q) n m := by
  have hpasses : Prog.passes 0 (chunks t k) 1 = if t < k then 1 else 0 := by
    rw [chunks_eq hk]
    split <;> rfl
  unfold diagonal
  refine Protocol.Safe.forStep (fun j _ m => Inv args m0 n m ∧ ∀ x y, Task args n t x y → 0 < j → Done args m0 n x y 4 m)
    (fun j _ m m' h ho => ⟨Inv.stable m m' h.1 ho, fun x y hx hj => Done.stable hx (Nat.le_refl 4) m m' (h.2 x y hx hj) ho⟩)
    ⟨hs, fun _ _ _ hj => absurd hj (Nat.lt_irrefl 0)⟩ (fun j hj q m ⟨hs, _⟩ => ?_) fun q m ⟨hs, hd⟩ => ?_
  · rw [hpasses] at hj
    have ht : t < k := by
      by_contra ht
      rw [if_neg ht] at hj
      exact Nat.not_lt_zero j hj
    rw [if_pos ht] at hj
    obtain rfl : j = 0 := by omega
    rw [start_eq hk ht, Nat.mul_zero, Nat.add_zero, Nat.add_zero]
    refine (subBlock_safe ((htask _ _).mpr ⟨ht, rfl, rfl⟩) hfit q hs).mono fun n' _ m ⟨hn', hs, hd⟩ => ⟨hn', hs, ?_⟩
    intro x y hx _
    obtain ⟨_, rfl, rfl⟩ := (htask x y).mp hx
    exact hd
  · refine Protocol.Safe.barrier (fun m => Inv args m0 n m ∧ ∀ x y, Task args n t x y → Done args m0 n x y 4 m)
      (fun m m' h ho => ⟨Inv.stable m m' h.1 ho, fun x y hx => Done.stable hx (Nat.le_refl 4) m m' (h.2 x y hx) ho⟩)
      ⟨hs, fun x y hx => hd x y hx ?_⟩ (fun m hm => (⟨hn, hm.1, hm.2⟩ : Brings args m0 n t m)) fun m hall => ?_
    · rw [hpasses, if_pos ((htask x y).mp hx).1]
      exact Nat.one_pos
    · exact Protocol.Safe.ret _ Inv.stable (Inv.succ hall) fun m hs => ⟨rfl, hs⟩

omit hfit in
/-- The phases of a loop over diagonals. -/
theorem phase_stable {b : Nat} : ∀ j, ∀ (_ : Caches) n',
    (protocol args m0).Stable t n' fun m => n' = b + j ∧ Inv args m0 n' m :=
  fun _ _ _ m m' h ho => ⟨h.1, Inv.stable m m' h.2 ho⟩

theorem topLeft_safe {bl blk : Nat} (hbl : bl < args.nblocks.toNat) (hblk : blk < 5) (q : Caches)
    (hs : Inv args m0 (8 * bl + blk) m) :
    (protocol args m0).Safe t (fun n' _ m => n' = 8 * bl + (blk + 1) ∧ Inv args m0 (8 * bl + (blk + 1)) m)
      (topLeft args.penalty t (itemsetsAddr bl) (refAddr args bl) blk q) (8 * bl + blk) m := by
  have hbase : (8 * bl + blk) / 8 = bl := by omega
  have hsafe := @diagonal_safe args m0 m (8 * bl + blk) t hfit blk 0 (blk - 1) (by omega) (by omega)
    (fun x y => ⟨fun ⟨_, hx, hy, hd, ht⟩ => by omega, fun ⟨ht, hx, hy⟩ =>
      ⟨by omega, by omega, by omega, by omega, by omega⟩⟩) q hs
  rwa [hbase] at hsafe

theorem bottomRight_safe {bl blk : Nat} (hbl : bl < args.nblocks.toNat) (hblk : 2 ≤ blk) (hblk' : blk < 5) (q : Caches)
    (hs : Inv args m0 (8 * bl + (blk + 3)) m) :
    (protocol args m0).Safe t (fun n' _ m => n' = 8 * bl + (blk + 4) ∧ Inv args m0 (8 * bl + (blk + 4)) m)
      (bottomRight args.penalty t (itemsetsAddr bl) (refAddr args bl) blk q) (8 * bl + (blk + 3)) m := by
  have hbase : (8 * bl + (blk + 3)) / 8 = bl := by omega
  have hrep : REP = 4 := rfl
  have hsafe := @diagonal_safe args m0 m (8 * bl + (blk + 3)) t hfit (REP - blk + 1) (blk - 1) (REP + blk - 2)
    (by omega) (by omega) (fun x y => ⟨fun ⟨_, hx, hy, hd, ht⟩ => by omega, fun ⟨ht, hx, hy⟩ =>
      ⟨by omega, by omega, by omega, by omega, by omega⟩⟩) q hs
  rwa [hbase] at hsafe

/-- **One block.** -/
theorem block_safe {bl : Nat} (hbl : bl < args.nblocks.toNat) (q : Caches) (hs : Inv args m0 (8 * bl) m) :
    (protocol args m0).Safe t (fun n' _ m => n' = 8 * (bl + 1) ∧ Inv args m0 (8 * (bl + 1)) m) (block t args bl q) (8 * bl) m := by
  unfold block
  refine Protocol.Safe.forPhases (fun j _ n' m => n' = 8 * bl + j ∧ Inv args m0 n' m) phase_stable ⟨rfl, hs⟩
    (fun j hj q n' m ⟨hn', hs⟩ => ?_) fun q n' m ⟨hn', hs⟩ => ?_
  · rw [hn'] at hs ⊢
    rw [Nat.zero_add, Nat.one_mul]
    exact (topLeft_safe hfit hbl hj q hs).mono fun n' _ m ⟨hn', hs⟩ => ⟨hn', by rwa [hn']⟩
  · rw [show n' = 8 * bl + 5 from hn'] at hs ⊢
    refine Protocol.Safe.last (Protocol.Safe.forPhases (fun j _ n' m => n' = 8 * bl + 5 + j ∧ Inv args m0 n' m)
      phase_stable ⟨rfl, hs⟩
      (fun j hj q n' m ⟨hn', hs⟩ => ?_) fun q n' m ⟨hn', hs⟩ => ?_)
    · have hj : j < 3 := hj
      have hphase : 8 * bl + 5 + j = 8 * bl + (2 + j + 3) := by omega
      rw [hn', hphase] at hs ⊢
      rw [Nat.one_mul]
      refine (bottomRight_safe hfit hbl (by omega) (by omega) q hs).mono fun n' _ m ⟨hn', hs⟩ => ⟨by omega, by rwa [hn']⟩
    · rw [show n' = 8 * (bl + 1) from hn'] at hs ⊢
      exact Protocol.Safe.ret _ Inv.stable hs fun m hs => ⟨rfl, hs⟩

theorem job_safe (caches : Nat → Caches) : (protocol args m0).Safe t
    (fun n _ m => n = 8 * args.nblocks.toNat ∧ Inv args m0 n m) (job t args caches) 0 m0 := by
  have hpasses : Prog.passes 0 args.nblocks.toNat 1 = args.nblocks.toNat := by
    unfold Prog.passes
    omega
  have hs : Inv args m0 0 m0 := by
    refine ⟨fun bl i j hbl hi hj hd => ?_, fun _ _ => rfl⟩
    have hij : i = 0 ∨ j = 0 := by
      by_contra hij
      rw [due, if_neg hij] at hd
      omega
    rcases hij with rfl | rfl
    · rw [goal, nw]
      rfl
    · cases i with
      | zero =>
        rw [goal, nw]
        rfl
      | succ i =>
        rw [goal, nw]
        rfl
  unfold job
  refine Protocol.Safe.forPhases (fun j _ n m => n = 8 * j ∧ Inv args m0 n m)
    (fun j _ n m m' h ho => ⟨h.1, Inv.stable m m' h.2 ho⟩) ⟨rfl, hs⟩ (fun j hj q n m h => ?_) fun q n m h => ?_
  · obtain ⟨rfl, hs⟩ := h
    rw [hpasses] at hj
    rw [Nat.zero_add, Nat.one_mul]
    exact (block_safe hfit hj q hs).mono fun n' _ m h => ⟨h.1, h.1 ▸ h.2⟩
  · obtain ⟨hn, hs⟩ := h
    rw [hpasses] at hn
    exact Protocol.Safe.ret _ Inv.stable hs fun m hs => ⟨hn, hs⟩

end

/-- What a job is to leave of `m0`. -/
def Result (args : DpuArguments) (m0 m : Mram) : Prop := ∀ bl < args.nblocks.toNat,
  (∀ i ≤ 16, ∀ j ≤ 16, itemset m bl i j = nw args.penalty (itemset m0 bl) (refCell args m0 bl) i j) ∧
  (∀ j ≤ 16, itemset m bl 0 j = itemset m0 bl 0 j) ∧ (∀ i ≤ 16, itemset m bl i 0 = itemset m0 bl i 0)

/-- **A job computes the recurrence in every block**, and leaves row 0 and
column 0 as they are, if it has no more blocks than are active. -/
theorem job_correct (hfit : Fits args) (caches : Nat → Caches) :
    Ends NR_TASKLETS free (fun m => m = m0) (fun t => job t args caches) (Result args m0) := by
  refine (protocol args m0).ends (e := 8 * args.nblocks.toNat) (Q := fun n _ m => n = 8 * args.nblocks.toNat ∧ Inv args m0 n m)
    (show 0 < 16 by decide) (fun t _ m hm => ?_) ⟨fun _ _ => rfl, ?_, ?_⟩ fun n m hQ bl hbl => ?_
  · rw [hm]
    exact job_safe hfit caches
  · exact fun n t m hb => ⟨Brings.phase hb, fun hbusy => hbusy⟩
  · exact fun n t m hQ => ⟨hQ.1, fun hbusy => hbusy⟩
  · obtain ⟨rfl, hs⟩ := hQ 0 (show 0 < 16 by decide)
    have hall : ∀ i ≤ 16, ∀ j ≤ 16, itemset m bl i j = goal args m0 bl i j := fun i hi j hj =>
      hs.settled bl i j hbl hi hj (by unfold due; split <;> omega)
    refine ⟨hall, fun j hj => ?_, fun i hi => ?_⟩
    · rw [hall 0 (by omega) j hj, goal, nw]
    · rw [hall i hi 0 (by omega), goal]
      cases i <;> rw [nw]

theorem job_correct_one : Ends NR_TASKLETS free (fun m => m = fun _ => 1)
    (fun t => job t ⟨1, 1, 1⟩ fun _ => ⟨fun _ => 0, fun _ => 0⟩) fun m => itemset m 0 2 2 = 3 := by
  refine (@job_correct ⟨1, 1, 1⟩ (fun _ => 1) ⟨by decide, by decide⟩ _).mono fun m hres => ?_
  rw [(hres 0 (by decide)).1 2 (by decide) 2 (by decide)]
  simp only [nw, itemset, refCell]
  decide

/-- One word that is not zero, cell (12, 2) of the third itemset block. -/
def oneWord (k : Nat) : Word := if k = 4990 then 100 else 0

/-- Three blocks, one of them active: the word is reference cell (0, 12) of the
third block too, and overwritten before it is read. -/
def threeStart : Conf Mram := ⟨oneWord, fun t => job t ⟨3, 1, 1⟩ fun _ => ⟨fun _ => 0, fun _ => 0⟩⟩

/-- One tasklet after the other in each phase. -/
def inTurn : List (List (Nat × Nat)) := List.replicate 24 (inOrder NR_TASKLETS 14)

theorem job_overlies : ¬ ∀ c, Sys.Reachable (Starts (fun m => m = oneWord) threeStart.progs) (Step NR_TASKLETS free) c →
    c.Finished NR_TASKLETS → Result ⟨3, 1, 1⟩ oneWord c.state := by
  intro h
  obtain ⟨hfin, h12, h13⟩ : (threeStart.run NR_TASKLETS free inTurn).finished NR_TASKLETS = true ∧
      itemset (threeStart.run NR_TASKLETS free inTurn).state 2 1 12 = 0 ∧
      itemset (threeStart.run NR_TASKLETS free inTurn).state 2 1 13 = 0 := by decide +kernel
  have hres := h _ (Conf.run_reachable (by decide) (.init ⟨rfl, rfl⟩)) (Conf.finished_of hfin)
  have hrow := (hres 2 (by decide)).1 1 (by decide)
  rw [hrow 12 (by decide)] at h12
  rw [hrow 13 (by decide), nw, h12] at h13
  simp only [nw] at h13
  exact absurd h13 (by decide)

end Memclave.Nw
