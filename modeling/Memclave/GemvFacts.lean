/-
The GEMV kernel computes the product of the matrix and the vector
(`main_correct`).

The rows of the tasklets follow one another (`start_row_succ`). A row is the
sum of its blocks (`block_safe`) and of what is left (`row_safe`); where it
starts at an odd word, `offset` says so, and the block that is shifted is the
one that an aligned transfer cannot fetch (`realign_safe`).
-/
import Memclave.Gemv
import Mathlib.Algebra.BigOperators.Intervals
import Mathlib.Data.BitVec

namespace Memclave.Gemv

open Words Tasklets

variable {args : DpuArguments} {t : Nat}

/-! ## The rows of a tasklet -/

theorem start_row_eq : start_row args t = t * dbl_chunks args + 2 * min t ((rest_rows args + 1) / 2) := by
  unfold start_row roundup element_per_cacheC
  have hmul : t * (dbl_chunks args + 2) = t * dbl_chunks args + 2 * t := by ring
  split_ifs <;> omega

theorem start_row_succ : start_row args (t + 1) = start_row args t + rows_per_tasklet args t := by
  rw [start_row_eq, start_row_eq, rows_per_tasklet, Nat.succ_mul, element_per_cacheC]
  split_ifs <;> omega

theorem start_row_zero : start_row args 0 = 0 := by
  rw [start_row_eq]
  omega

theorem start_row_mono {t' : Nat} (h : t ≤ t') : start_row args t ≤ start_row args t' := by
  induction t', h using Nat.le_induction with
  | base => exact Nat.le_refl _
  | succ u _ ih =>
    rw [start_row_succ]
    omega

theorem start_row_even : 2 ∣ start_row args t := by
  have h : 2 ∣ t * dbl_chunks args := Dvd.dvd.mul_left (Dvd.intro_left _ rfl) t
  rw [start_row_eq]
  omega

/-- The last tasklet ends where the rows do, rounded up to a whole `cache_C`. -/
theorem start_row_end : start_row args 16 = args.nr_rows.toNat + args.nr_rows.toNat % 2 := by
  rw [start_row_eq]
  simp only [dbl_chunks, rest_rows, NR_TASKLETS, element_per_cacheC]
  omega

/-- Each row has a tasklet. -/
theorem row_owner {i n : Nat} (hi : i < start_row args n) : ∃ u < n, start_row args u ≤ i ∧ i < start_row args (u + 1) := by
  induction n with
  | zero => exact absurd hi (by rw [start_row_zero]; omega)
  | succ n ih =>
    by_cases hn : i < start_row args n
    · obtain ⟨u, hu, h⟩ := ih hn
      exact ⟨u, by omega, h⟩
    · exact ⟨n, Nat.lt_succ_self n, Nat.not_lt.mp hn, hi⟩

/-! ## Sums -/

theorem foldl_dot (bufferC a b : Nat → Word) (pos n : Nat) :
    (List.range n).foldl (fun c i => Function.update c pos (c pos + a i * b i)) bufferC =
      Function.update bufferC pos (bufferC pos + ∑ i ∈ Finset.range n, a i * b i) := by
  induction n with
  | zero => simp
  | succ n ih =>
    rw [List.range_succ, List.foldl_append, ih, List.foldl_cons, List.foldl_nil, Function.update_self,
      Function.update_idem, Finset.sum_range_succ, add_assoc]

/-! ## Addresses -/

/-- The first word of the vector, and of the results. -/
def wordB (args : DpuArguments) : Nat := 0x840 + args.max_rows.toNat * args.n_size_pad.toNat

def wordC (args : DpuArguments) : Nat := wordB args + args.n_size_pad.toNat

/-- The first word of row `i`. -/
def wordA (args : DpuArguments) (i : Nat) : Nat := 0x840 + i * args.n_size.toNat

section

variable (h : Slice args)

include h

theorem space : 4 * (wordC args + (args.nr_rows.toNat + args.nr_rows.toNat % 2)) < 2 ^ 32 := by
  have hf := h.fits
  rw [show A_OFFSET.toNat = 4 * 0x840 from rfl] at hf
  unfold wordC wordB
  omega

theorem base_B : (mram_base_addr_B args).toNat = 4 * wordB args := by
  have hs := space h
  unfold wordC wordB at hs
  rw [mram_base_addr_B, BitVec.toNat_add, BitVec.toNat_mul, BitVec.toNat_mul, show (4 : Word).toNat = 4 from rfl,
    show A_OFFSET.toNat = 4 * 0x840 from rfl, Nat.mod_eq_of_lt (a := _ * _) (by omega), wordB]
  omega

theorem base_C : (mram_base_addr_C args).toNat = 4 * wordC args := by
  have hs := space h
  unfold wordC at hs
  rw [mram_base_addr_C, BitVec.toNat_add, BitVec.toNat_mul, base_B h, wordC, show (4 : Word).toNat = 4 from rfl]
  omega

theorem wordB_even : 2 ∣ wordB args := by
  have := Dvd.dvd.mul_left h.even args.max_rows.toNat
  unfold wordB
  omega

theorem wordC_even : 2 ∣ wordC args := by
  have := wordB_even h
  have := h.even
  unfold wordC
  omega

/-- A row ends before the vector starts. -/
theorem row_within {i : Nat} (hi : i < args.nr_rows.toNat) : wordA args i + args.n_size.toNat ≤ wordB args := by
  have hle : (i + 1) * args.n_size.toNat ≤ args.max_rows.toNat * args.n_size_pad.toNat :=
    Nat.mul_le_mul (by have := h.rows; omega) h.pad
  rw [Nat.succ_mul] at hle
  unfold wordA wordB
  omega

theorem small : args.n_size.toNat < 2 ^ 30 ∧ args.nr_rows.toNat < 2 ^ 30 := by
  have hs := space h
  have hp := h.pad
  unfold wordC wordB at hs
  omega

/-! ### The block loop -/

theorem blockBound_eq : blockBound args = args.n_size.toNat - 256 := by
  have hs := (small h).1
  have hpos := h.size
  rw [blockBound, BitVec.toInt_eq_toNat_cond, BitVec.toNat_sub, show (BitVec.ofNat 32 BLOCK_WORDS : Word).toNat = 256 from rfl]
  split <;> omega

/-- What the block loop leaves is a block at most, and not nothing. -/
theorem blockEnd_bounds : blockEnd args < args.n_size.toNat ∧ args.n_size.toNat ≤ blockEnd args + 256 := by
  have hpos := h.size
  rw [blockEnd, Prog.passes, blockBound_eq h, BLOCK_WORDS]
  omega

theorem remain_eq : (remain args).toNat = args.n_size.toNat - blockEnd args := by
  have hs := (small h).1
  have hb := blockEnd_bounds h
  rw [remain, BitVec.toNat_sub, BitVec.toNat_ofNat]
  omega

theorem remain_toInt : min (remain args).toInt.toNat BLOCK_WORDS = args.n_size.toNat - blockEnd args := by
  have hs := (small h).1
  have hb := blockEnd_bounds h
  rw [BitVec.toInt_eq_toNat_cond, remain_eq h, BLOCK_WORDS]
  split <;> omega

end

/-! ## The protocol -/

section

variable (args : DpuArguments) (m0 : Mram)

/-- What the first `n` elements of row `i` contribute. -/
def dot (i n : Nat) : Word := ∑ j ∈ Finset.range n, elemA args m0 i j * elemB args m0 j

/-- The rows of tasklet `t` below `b` are done. -/
structure Rows (t b : Nat) (m : Mram) : Prop where
  kept : ∀ k < wordC args, m k = m0 k
  done : ∀ i, start_row args t ≤ i → i < b → i < args.nr_rows.toNat → m (wordC args + i) = dot args m0 i args.n_size.toNat

/-- A tasklet writes the results of its own rows. -/
def protocol : Protocol Mram where
  N := NR_TASKLETS
  ok := free
  guar _ t m m' := ∀ k, (k < wordC args + start_row args t ∨ wordC args + start_row args (t + 1) ≤ k) → m' k = m k
  brings _ _ _ := False
  busy _ _ := False

end

variable {m0 m : Mram} {b : Nat}

theorem Rows.stable (hb : b ≤ start_row args (t + 1)) : (protocol args).Stable t 0 (Rows args m0 t b) := by
  intro m m' h ⟨u, _, hu, hg⟩
  refine ⟨fun k hk => ?_, fun i hi hib hn => ?_⟩
  · rw [hg k (.inl (by omega)), h.kept k hk]
  · rw [hg _ ?_, h.done i hi hib hn]
    -- another tasklet's rows are all before or all after these
    cases Nat.lt_or_ge u t with
    | inl hlt => exact .inr (by have := @start_row_mono args _ _ (show u + 1 ≤ t from hlt); omega)
    | inr hge => exact .inl (by have := @start_row_mono args _ _ (show t + 1 ≤ u by omega); omega)

section

variable {α : Type} {Q : Nat → α → Mram → Prop} (hb : b ≤ start_row args (t + 1)) (hs : Rows args m0 t b m)

include hb hs

theorem mramRead_safe {k : (Nat → Word) → Prog Mram α} {addr : Word}
    (hk : ∀ f m, Rows args m0 t b m → (∀ i, line addr + i < wordC args → f i = m0 (line addr + i)) →
      (protocol args).Safe t Q (k f) 0 m) : (protocol args).Safe t Q (mramRead addr >>= k) 0 m :=
  Protocol.Safe.read _ (Rows.stable hb) hs fun m hs => hk _ m hs fun _ hi => hs.kept _ hi

/-- The block at word `w`, wherever it starts. -/
theorem realign_safe (h : Slice args) {k : (Nat → Word) → Prog Mram α} {r : Regs} {cache_A : Nat → Word} {w : Nat}
    (haddr : r.mram_temp_addr_A.toNat = 4 * w) (hoff : r.offset = decide (w % 2 = 1))
    (hA : ∀ i, line r.mram_temp_addr_A + i < wordC args → cache_A i = m0 (line r.mram_temp_addr_A + i))
    (hk : ∀ f m, Rows args m0 t b m → (∀ i < 256, w + i < wordC args → f i = m0 (w + i)) →
      (protocol args).Safe t Q (k f) 0 m) : (protocol args).Safe t Q (realign r cache_A >>= k) 0 m := by
  have hline : line r.mram_temp_addr_A = w - w % 2 := by
    rw [line, haddr]
    omega
  rw [hline] at hA
  unfold realign
  split
  next ho =>
    have hodd : w % 2 = 1 := of_decide_eq_true (hoff.symm.trans ho)
    refine Protocol.Safe.bind (mramRead_safe hb hs fun aux m hs haux => ?_)
    refine Protocol.Safe.ret _ (Rows.stable hb) hs fun m hs => hk _ m hs fun i hi hw => ?_
    by_cases h255 : i = 255
    · subst h255
      have hnext : line (r.mram_temp_addr_A + BitVec.ofNat 32 BLOCK_SIZE) = w + 255 := by
        have hsp := space h
        rw [line, BitVec.toNat_add, haddr, show (BitVec.ofNat 32 BLOCK_SIZE : Word).toNat = 1024 from rfl]
        omega
      rw [show BLOCK_WORDS - 1 = 255 from rfl, Function.update_self, haux 0 (by rw [hnext]; omega), hnext, Nat.add_zero]
    · rw [Function.update_of_ne (by simpa [BLOCK_WORDS] using h255), Copy.fwd_eq _ (.inl (Nat.zero_le 1)),
        Copy.blit_in (Nat.zero_le i) (by simp only [BLOCK_WORDS]; omega), hA _ (by omega)]
      congr 1
      omega
  next ho =>
    have heven : w % 2 = 0 := by
      rw [hoff, decide_eq_true_iff] at ho
      omega
    refine hk cache_A m hs fun i _ hw => ?_
    rw [hA i (by omega), heven, Nat.sub_zero]

end

/-! ## A row -/

/-- How far the last block goes on. -/
theorem back_eq {w : Word} (hw : w.toNat ≤ 256) :
    (BitVec.ofNat 32 BLOCK_SIZE - (BitVec.ofNat 32 BLOCK_WORDS - w) * 4).toNat = 4 * w.toNat := by
  rw [BitVec.toNat_sub, BitVec.toNat_mul, BitVec.toNat_sub, show (BitVec.ofNat 32 BLOCK_SIZE : Word).toNat = 1024 from rfl,
    show (BitVec.ofNat 32 BLOCK_WORDS : Word).toNat = 256 from rfl, show (4 : Word).toNat = 4 from rfl]
  omega

theorem offset_eq {addr : Word} {w : Nat} (h : addr.toNat = 4 * w) : decide (addr % 8 ≠ 0) = decide (w % 2 = 1) := by
  refine decide_eq_decide.mpr ?_
  rw [Ne, ← BitVec.toNat_inj, BitVec.toNat_umod, h, show (8 : Word).toNat = 8 from rfl, show (0 : Word).toNat = 0 from rfl]
  omega

theorem dot_add (i n k : Nat) :
    dot args m0 i (n + k) = dot args m0 i n + ∑ x ∈ Finset.range k, elemA args m0 i (n + x) * elemB args m0 (n + x) :=
  Finset.sum_range_add _ n k

/-- After `n` elements of row `i`, whose results go to `pos`. -/
structure At (args : DpuArguments) (m0 : Mram) (i pos : Nat) (c0 : Nat → Word) (n : Nat) (r : Regs) : Prop where
  addrA : r.mram_temp_addr_A.toNat = 4 * (wordA args i + n)
  addrB : r.mram_temp_addr_B.toNat = 4 * (wordB args + n)
  offset : r.offset = decide (wordA args i % 2 = 1)
  cache : r.cache_C = Function.update c0 pos (dot args m0 i n)

section

variable (h : Slice args) (hb : b ≤ start_row args (t + 1)) (hs : Rows args m0 t b m) {i pos n : Nat} {c0 : Nat → Word}
  {r : Regs} (hi : i < args.nr_rows.toNat)

include h hb hs hi

omit hi in
theorem readB_safe {α : Type} {Q : Nat → α → Mram → Prop} {k : (Nat → Word) → Prog Mram α} (hn : 2 ∣ n)
    (hr : At args m0 i pos c0 n r)
    (hk : ∀ f m, Rows args m0 t b m → (∀ x, n + x < args.n_size.toNat → f x = elemB args m0 (n + x)) →
      (protocol args).Safe t Q (k f) 0 m) : (protocol args).Safe t Q (mramRead r.mram_temp_addr_B >>= k) 0 m := by
  have hpad := h.pad
  have heven := wordB_even h
  have hline : line r.mram_temp_addr_B = wordB args + n := by
    rw [line, hr.addrB]
    omega
  refine mramRead_safe hb hs fun f m hs hf => hk f m hs fun x hx => ?_
  rw [hf x (by rw [hline]; unfold wordC; omega), hline, elemB, base_B h, Nat.mul_div_cancel_left _ (by omega), Nat.add_assoc]

theorem realignA_safe {α : Type} {Q : Nat → α → Mram → Prop} {k : (Nat → Word) → Prog Mram α} {cache_A : Nat → Word}
    (hn : 2 ∣ n) (hr : At args m0 i pos c0 n r)
    (hA : ∀ x, line r.mram_temp_addr_A + x < wordC args → cache_A x = m0 (line r.mram_temp_addr_A + x))
    (hk : ∀ f m, Rows args m0 t b m → (∀ x < 256, n + x < args.n_size.toNat → f x = elemA args m0 i (n + x)) →
      (protocol args).Safe t Q (k f) 0 m) : (protocol args).Safe t Q (realign r cache_A >>= k) 0 m := by
  have hrow := row_within h hi
  refine realign_safe hb hs h hr.addrA (hr.offset.trans (decide_eq_decide.mpr (by omega))) hA fun f m hs hf =>
    hk f m hs fun x hx hxn => ?_
  rw [hf x hx (by unfold wordC; omega), elemA, ← Nat.add_assoc]
  rfl

theorem block_safe (hn : 2 ∣ n) (hfull : n + 256 ≤ args.n_size.toNat) (hr : At args m0 i pos c0 n r) :
    (protocol args).Safe t (fun n' r m => n' = 0 ∧ At args m0 i pos c0 (n + 256) r ∧ Rows args m0 t b m)
      (block pos r) 0 m := by
  have hrow := row_within h hi
  have hsp := space h
  have hBC : wordB args ≤ wordC args := Nat.le_add_right _ _
  have hpad := h.pad
  have h1024 : (BitVec.ofNat 32 BLOCK_SIZE : Word).toNat = 1024 := rfl
  unfold block
  refine mramRead_safe hb hs fun fA m hs hA => ?_
  refine readB_safe h hb hs hn hr fun fB m hs hB => ?_
  refine realignA_safe h hb hs hi hn hr hA fun fA m hs hA => ?_
  refine Protocol.Safe.ret _ (Rows.stable hb) hs fun m hs => ⟨rfl, ⟨?_, ?_, hr.offset, ?_⟩, hs⟩
  · rw [BitVec.toNat_add, hr.addrA, h1024]
    omega
  · rw [BitVec.toNat_add, hr.addrB, h1024]
    unfold wordC at hsp
    omega
  · have hsum : ∑ x ∈ Finset.range BLOCK_WORDS, fA x * fB x =
        ∑ x ∈ Finset.range BLOCK_WORDS, elemA args m0 i (n + x) * elemB args m0 (n + x) :=
      Finset.sum_congr rfl fun x hx => by
        have hx : x < 256 := Finset.mem_range.mp hx
        rw [hA x hx (by omega), hB x (by omega)]
    rw [gemv, foldl_dot, hr.cache, Function.update_self, Function.update_idem, hsum, ← dot_add, BLOCK_WORDS]

/-- **One row.** -/
theorem row_safe (hr : At args m0 i pos c0 0 r) :
    (protocol args).Safe t (fun n' r m => n' = 0 ∧
      (r.mram_temp_addr_A.toNat = 4 * wordA args (i + 1) ∧ r.mram_temp_addr_B = mram_base_addr_B args ∧
        r.offset = decide (wordA args (i + 1) % 2 = 1) ∧ r.cache_C = Function.update c0 pos (dot args m0 i args.n_size.toNat)) ∧
      Rows args m0 t b m) (row args pos r) 0 m := by
  have hrow := row_within h hi
  have hsp := space h
  have hBC : wordB args ≤ wordC args := Nat.le_add_right _ _
  obtain ⟨hend, hend'⟩ := blockEnd_bounds h
  have hst := fun j r => (@Rows.stable args t m0 b hb).and (B := fun _ => At args m0 i pos c0 (256 * j) r) fun _ _ ha _ => ha
  unfold row
  refine Protocol.Safe.forStep (fun j r m => Rows args m0 t b m ∧ At args m0 i pos c0 (256 * j) r) hst ⟨hs, hr⟩ ?_ ?_
  · intro j hj r m ⟨hs, hr⟩
    have hfull : 256 * j + 256 ≤ args.n_size.toNat := by
      rw [Prog.passes, blockBound_eq h, BLOCK_WORDS] at hj
      omega
    exact (block_safe h hb hs hi (by omega) hfull hr).mono fun n' r m ⟨hn', hr, hs⟩ => ⟨hn', hs, hr⟩
  · intro r m ⟨hs, hr⟩
    change At args m0 i pos c0 (blockEnd args) r at hr
    have heven : 2 ∣ blockEnd args := Dvd.intro _ (Nat.mul_assoc 2 128 _).symm
    refine mramRead_safe hb hs fun fA m hs hA => ?_
    refine realignA_safe h hb hs hi heven hr hA fun fA m hs hA => ?_
    refine readB_safe h hb hs heven hr fun fB m hs hB => ?_
    have haddr : (r.mram_temp_addr_A + (BitVec.ofNat 32 BLOCK_SIZE - (BitVec.ofNat 32 BLOCK_WORDS - remain args) * 4)).toNat =
        4 * wordA args (i + 1) := by
      have hsucc : wordA args (i + 1) = wordA args i + args.n_size.toNat := by
        rw [wordA, wordA, Nat.succ_mul, Nat.add_assoc]
      rw [BitVec.toNat_add, hr.addrA, back_eq (by rw [remain_eq h]; omega), remain_eq h, hsucc]
      omega
    have hsum : ∑ x ∈ Finset.range (args.n_size.toNat - blockEnd args), fA x * fB x =
        ∑ x ∈ Finset.range (args.n_size.toNat - blockEnd args),
          elemA args m0 i (blockEnd args + x) * elemB args m0 (blockEnd args + x) :=
      Finset.sum_congr rfl fun x hx => by
        have hx := Finset.mem_range.mp hx
        rw [hA x (by omega) (by omega), hB x (by omega)]
    refine Protocol.Safe.ret _ (Rows.stable hb) hs fun m hs => ⟨rfl, ⟨haddr, rfl, ?_, ?_⟩, hs⟩
    · dsimp only
      rw [offset_eq haddr]
    · rw [gemvRest, remain_toInt h, foldl_dot, hr.cache, Function.update_self, Function.update_idem, hsum, ← dot_add,
        Nat.add_sub_cancel' hend.le]

/-- The rows of one `cache_C`. -/
theorem rows_safe (heven : 2 ∣ i) (hr : At args m0 i 0 (fun _ => 0) 0 r) :
    (protocol args).Safe t (fun n' r m => n' = 0 ∧ (r.cache_C 0 = dot args m0 i args.n_size.toNat ∧
      (i + 1 < args.nr_rows.toNat → r.cache_C 1 = dot args m0 (i + 1) args.n_size.toNat ∧ r.offset = false)) ∧
      Rows args m0 t b m) (rows args i r) 0 m := by
  have hlt := args.nr_rows.isLt
  have hi32 : (BitVec.ofNat 32 i : Word).toNat = i := by
    rw [BitVec.toNat_ofNat, Nat.mod_eq_of_lt (by omega)]
  have hi32' : (BitVec.ofNat 32 (i + 1) : Word).toNat = i + 1 := by
    rw [BitVec.toNat_ofNat, Nat.mod_eq_of_lt (by omega)]
  unfold rows
  rw [if_neg (by rw [BitVec.le_def, hi32]; omega)]
  refine Protocol.Safe.bind ((row_safe h hb hs hi hr).mono fun n' r m ⟨hn', ⟨hA, hB, hoff, hcache⟩, hs⟩ => ?_)
  rw [hn']
  split
  next hlast =>
    rw [BitVec.le_def, hi32'] at hlast
    refine Protocol.Safe.ret _ (Rows.stable hb) hs fun m hs => ⟨rfl, ⟨?_, fun hi' => absurd hi' (by omega)⟩, hs⟩
    rw [hcache, Function.update_self]
  next hnext =>
    rw [BitVec.le_def, hi32'] at hnext
    have hr' : At args m0 (i + 1) 1 r.cache_C 0 r := by
      refine ⟨hA, by rw [hB, base_B h, Nat.add_zero], hoff, ?_⟩
      rw [show dot args m0 (i + 1) 0 = r.cache_C 1 by rw [hcache]; simp [dot], Function.update_eq_self]
    refine (row_safe h hb hs (by omega) hr').mono fun n' r' m ⟨hn', ⟨_, _, hoff, hcache'⟩, hs⟩ => ⟨hn', ⟨?_, fun _ => ⟨?_, ?_⟩⟩, hs⟩
    · rw [hcache', Function.update_of_ne (by omega), hcache, Function.update_self]
    · rw [hcache', Function.update_self]
    · rw [hoff, decide_eq_false_iff_not, wordA]
      have : 2 ∣ (i + 1 + 1) * args.n_size.toNat := Dvd.dvd.mul_right (by omega) _
      omega

omit hi in
/-- **A pass writes its rows.** -/
theorem pass_safe (heven : 2 ∣ i) (hbi : b = i) (hiend : i < start_row args (t + 1)) (ht : t < 16) {q : Place}
    (hC : q.mram_base_addr_C.toNat = 4 * (wordC args + i)) (hoff : i < args.nr_rows.toNat → q.offset = false)
    (hstart : start_row args t ≤ i) :
    (protocol args).Safe t (fun n' q m => n' = 0 ∧ (q.mram_base_addr_C.toNat = 4 * (wordC args + (i + 2)) ∧
      (i + 2 < args.nr_rows.toNat → q.offset = false)) ∧ Rows args m0 t (i + 2) m) (pass args i q) 0 m := by
  have hend := @start_row_mono args _ _ (show t + 1 ≤ 16 by omega)
  have hendeven := @start_row_even args (t + 1)
  have hCeven := wordC_even h
  have hsp := space h
  rw [start_row_end] at hend
  have hi : i < args.nr_rows.toNat := by omega
  subst hbi
  unfold pass
  have hr : At args m0 b 0 (fun _ => 0) 0 ⟨A_OFFSET + BitVec.ofNat 32 b * args.n_size * 4, mram_base_addr_B args,
      fun _ => 0, q.offset⟩ := by
    have hrow := row_within h hi
    have heq : wordA args b % 2 = 0 := by
      have : 2 ∣ b * args.n_size.toNat := Dvd.dvd.mul_right heven _
      unfold wordA
      omega
    refine ⟨?_, by rw [base_B h, Nat.add_zero], by rw [hoff hi, heq]; rfl, by simp [dot]⟩
    have hb32 : (BitVec.ofNat 32 b : Word).toNat = b := by
      rw [BitVec.toNat_ofNat]
      omega
    unfold wordA wordB at hrow
    unfold wordC wordB at hsp
    rw [BitVec.toNat_add, BitVec.toNat_mul, BitVec.toNat_mul, hb32, show (4 : Word).toNat = 4 from rfl,
      show A_OFFSET.toNat = 4 * 0x840 from rfl, Nat.mod_eq_of_lt (a := b * _) (by omega), wordA]
    omega
  refine Protocol.Safe.bind ((rows_safe h hb hs hi heven hr).mono fun n' r m ⟨hn', ⟨h0, h1⟩, hs⟩ => ?_)
  rw [hn']
  refine Protocol.Safe.write _ (Rows.stable hb) hs fun m hs _ => ?_
  have hline : line q.mram_base_addr_C = wordC args + b := by
    rw [line, hC]
    omega
  rw [hline]
  refine ⟨fun k hk => Copy.blit_out (by omega), ?_⟩
  have hs' : Rows args m0 t (b + 2) (Copy.blit m (wordC args + b) r.cache_C 0 2) := by
    refine ⟨fun k hk => by rw [Copy.blit_out (by omega), hs.kept k hk], fun j hj hjb hjn => ?_⟩
    by_cases hjb' : j < b
    · rw [Copy.blit_out (by omega), hs.done j hj hjb' hjn]
    · rw [Copy.blit_in (by omega) (by omega)]
      rcases Nat.eq_or_lt_of_le (Nat.not_lt.mp hjb') with rfl | hlt
      · rw [Nat.sub_self, Nat.add_zero, h0]
      · obtain rfl : j = b + 1 := by omega
        rw [show 0 + (wordC args + (b + 1) - (wordC args + b)) = 1 by omega, (h1 hjn).1]
  have hend2 : b + 2 ≤ start_row args (t + 1) := by omega
  refine Protocol.Safe.ret _ (Rows.stable hend2) hs' fun m hs => ⟨rfl, ⟨?_, fun hn => ?_⟩, hs⟩
  · rw [BitVec.toNat_add, hC, show (8 : Word).toNat = 8 from rfl]
    omega
  · exact (h1 (by omega)).2

end

/-! ## The kernel -/

/-- **One tasklet.** -/
theorem rowLoop_safe (h : Slice args) (ht : t < 16) :
    (protocol args).Safe t (fun n _ m => n = 0 ∧ Rows args m0 t (start_row args (t + 1)) m) (rowLoop args t) 0 m0 := by
  have hgrow := @start_row_succ args t
  have hpasses : ∀ j, j < Prog.passes (start_row args t) (start_row args t + rows_per_tasklet args t) element_per_cacheC ↔
      start_row args t + 2 * j < start_row args (t + 1) := fun j => by
    rw [hgrow, Prog.passes, element_per_cacheC]
    omega
  have heven := @start_row_even args t
  have heven' := @start_row_even args (t + 1)
  unfold rowLoop
  refine Protocol.Safe.forStep (fun j q m => Rows args m0 t (start_row args t + 2 * j) m ∧
      (start_row args t + 2 * j ≤ start_row args (t + 1) ∧ q.mram_base_addr_C.toNat = 4 * (wordC args + (start_row args t + 2 * j)) ∧
      (start_row args t + 2 * j < args.nr_rows.toNat → q.offset = false))) (fun j q m1 m2 ⟨hr, hq⟩ ho => ?_) ?_ ?_ ?_
  · exact ⟨Rows.stable hq.1 m1 m2 hr ho, hq⟩
  · have hend := @start_row_mono args _ _ (show t + 1 ≤ 16 by omega)
    have hsp := space h
    rw [start_row_end] at hend
    refine ⟨⟨fun _ _ => rfl, fun i hi hi' => absurd hi' (by omega)⟩, by omega, ?_, fun _ => rfl⟩
    rw [BitVec.toNat_add, base_C h, BitVec.toNat_mul, BitVec.toNat_ofNat, show (4 : Word).toNat = 4 from rfl]
    omega
  · intro j hj q m ⟨hs, hle, hC, hoff⟩
    have hj := (hpasses j).mp hj
    exact (pass_safe h hle hs (by omega) rfl hj ht hC hoff (by omega)).mono fun n' q m ⟨hn', ⟨hC, hoff⟩, hs⟩ =>
      ⟨hn', hs, by omega, hC, hoff⟩
  · intro q m ⟨hs, hle, _⟩
    have hend := (not_congr (hpasses _)).mp (Nat.lt_irrefl _)
    have heq : start_row args t + 2 * Prog.passes (start_row args t) (start_row args t + rows_per_tasklet args t)
        element_per_cacheC = start_row args (t + 1) := by omega
    rw [heq] at hs
    exact Protocol.Safe.ret _ (Rows.stable (Nat.le_refl _)) hs fun m hs => ⟨rfl, hs⟩

/-- **The rows of the tasklets are contiguous and cover all rows, and once all
row loops have ended the result is the product.** -/
theorem main_correct (h : Slice args) :
    (start_row args 0 = 0 ∧ (∀ t, start_row args (t + 1) = start_row args t + rows_per_tasklet args t) ∧
      start_row args NR_TASKLETS = args.nr_rows.toNat + args.nr_rows.toNat % 2) ∧
    Ends NR_TASKLETS free (fun m => m = m0) (rowLoop args) fun m => ∀ r < args.nr_rows.toNat,
      elemC args m r = ∑ j ∈ Finset.range args.n_size.toNat, elemA args m0 r j * elemB args m0 j := by
  refine ⟨⟨start_row_zero, fun t => start_row_succ, start_row_end⟩, ?_⟩
  refine (protocol args).ends (e := 0) (Q := fun n t m => n = 0 ∧ Rows args m0 t (start_row args (t + 1)) m)
    (show 0 < 16 by decide) (fun t ht m hm => ?_) ⟨fun _ _ => rfl, fun _ _ _ hb => hb.elim, ?_⟩ fun n m hQ r hr => ?_
  · rw [hm]
    exact rowLoop_safe h ht
  · exact fun n t m hQ => ⟨hQ.1, fun hbusy => hbusy⟩
  · obtain ⟨u, hu, hu1, hu2⟩ := @row_owner args r 16 (by rw [start_row_end]; omega)
    rw [elemC, base_C h, Nat.mul_div_cancel_left _ (by omega)]
    exact (hQ u hu).2.done r hu1 hu2 hr

/-- Two rows of 257 elements, the second at an odd word. -/
def twoRows : DpuArguments where
  n_size := 257
  n_size_pad := 258
  nr_rows := 2
  max_rows := 2

theorem twoRows_slice : Slice twoRows := ⟨by decide, by decide, by decide, by decide, by decide⟩

/-- Where each word of MRAM is its own index. -/
theorem main_correct_two : Ends NR_TASKLETS free (fun m => m = BitVec.ofNat 32) (rowLoop twoRows) fun m =>
    elemC twoRows m 0 = 0x5ea6c880 ∧ elemC twoRows m 1 = 0x69805b44 := by
  refine (main_correct twoRows_slice).2.mono fun m hres => ?_
  rw [hres 0 (by decide), hres 1 (by decide)]
  decide +kernel

end Memclave.Gemv
