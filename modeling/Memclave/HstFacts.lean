/-
Both histogram kernels count every element once; HST-S leaves out what is
beyond the last whole piece of a histogram of more than 2048 bytes
(`histograms_agree_iff`).

`cnt` is what a tasklet has counted of the elements below a number; a block
is no more than a stretch of such numbers (`blocks_safe`). In HST-S a tasklet
has a histogram of its own; in HST-L whoever holds the mutex is the only one
to count, and the histogram is the sum of what the tasklets have added
(`Shared`).
-/
import Memclave.Hst
import Mathlib.Algebra.BigOperators.Group.Finset.Piecewise
import Mathlib.Algebra.BigOperators.Intervals

namespace Memclave.Hst

open Words Tasklets Sys

variable {args : DpuArguments} {m0 : Nat → Word} {t : Nat}

/-! ## Counting -/

def bin (args : DpuArguments) (m : Nat → Word) (k : Nat) : Nat := (elem m k).toNat * args.bins.toNat / 2 ^ DEPTH

/-- Element `k` is in a block of tasklet `t`. -/
def Own (args : DpuArguments) (t k : Nat) : Prop := k < args.size.toNat / 4 ∧ k / 256 % 16 = t

instance : DecidablePred (Own args t) := fun _ => inferInstanceAs (Decidable (_ ∧ _))

/-- How many of the elements below `n` tasklet `t` has to count in bin `b`. -/
def cnt (args : DpuArguments) (m : Nat → Word) (t n b : Nat) : Nat := Nat.count (fun k => Own args t k ∧ bin args m k = b) n

theorem count_gap {p : Nat → Prop} [DecidablePred p] {n n' : Nat} (hn : n ≤ n') (h : ∀ k, n ≤ k → k < n' → ¬ p k) :
    Nat.count p n' = Nat.count p n := by
  induction n', hn using Nat.le_induction with
  | base => rfl
  | succ k hk ih => rw [Nat.count_succ, if_neg (h k hk (Nat.lt_succ_self k)), ih fun i hi hik => h i hi (by omega), Nat.add_zero]

theorem cnt_gap {n n' b : Nat} (hn : n ≤ n') (h : ∀ k, n ≤ k → k < n' → ¬ Own args t k) :
    cnt args m0 t n' b = cnt args m0 t n b := count_gap hn fun k hk hk' ho => h k hk hk' ho.1

theorem cnt_succ {k b : Nat} (hk : Own args t k) :
    cnt args m0 t (k + 1) b = cnt args m0 t k b + if b = bin args m0 k then 1 else 0 := by
  rw [cnt, Nat.count_succ]
  congr 1
  exact if_congr ⟨fun h => h.2.symm, fun h => ⟨hk, h.symm⟩⟩ rfl rfl

/-- **The tasklets together count every element once.** -/
theorem cnt_sum (n b : Nat) : ∑ u ∈ Finset.range 16, cnt args m0 u n b =
    Nat.count (fun k => k < args.size.toNat / 4 ∧ bin args m0 k = b) n := by
  induction n with
  | zero => simp [cnt]
  | succ n ih =>
    have hone : ∑ u ∈ Finset.range 16, (if Own args u n ∧ bin args m0 n = b then 1 else 0) =
        if n < args.size.toNat / 4 ∧ bin args m0 n = b then 1 else 0 := by
      have hsum := Finset.sum_ite_eq (Finset.range 16) (n / 256 % 16)
        fun _ => if n < args.size.toNat / 4 ∧ bin args m0 n = b then 1 else 0
      rw [if_pos (Finset.mem_range.mpr (by omega))] at hsum
      rw [← hsum]
      refine Finset.sum_congr rfl fun u _ => ?_
      by_cases hu : n / 256 % 16 = u <;> simp [Own, hu]
    rw [Nat.count_succ, ← ih, ← hone, ← Finset.sum_add_distrib]
    exact Finset.sum_congr rfl fun u _ => Nat.count_succ _ _

theorem cnt_sum_end {n : Nat} (hn : args.size.toNat / 4 ≤ n) (b : Nat) :
    ∑ u ∈ Finset.range 16, cnt args m0 u n b = binCount args m0 b := by
  rw [cnt_sum, count_gap hn fun k hk _ h => absurd h.1 (Nat.not_lt.mpr hk), binCount, Nat.count_eq_card_filter_range,
    Nat.count_eq_card_filter_range]
  congr 1
  refine Finset.filter_congr fun k hk => ?_
  have hk := Finset.mem_range.mp hk
  exact ⟨fun h => h.2, fun h => ⟨hk, h⟩⟩

theorem binCount_lt (b : Nat) : binCount args m0 b < 2 ^ 32 := by
  have := Nat.count_le (p := fun k => (elem m0 k).toNat * args.bins.toNat / 2 ^ DEPTH = b) (n := args.size.toNat / 4)
  have := args.size.isLt
  unfold binCount
  omega

/-- The bin that the code computes. -/
theorem index_eq (h : Elements args m0) {k : Nat} (hk : k < args.size.toNat / 4) : index args (elem m0 k) = bin args m0 k := by
  have hd := h.elems k hk
  have hle : (elem m0 k).toNat * args.bins.toNat ≤ 4095 * args.bins.toNat := Nat.mul_le_mul_right _ (by simp only [DEPTH] at hd; omega)
  have hb := h.bins
  rw [index, bin, BitVec.toNat_ushiftRight, BitVec.toNat_mul, Nat.mod_eq_of_lt (by omega), Nat.shiftRight_eq_div_pow]

/-! ## The blocks of a tasklet -/

theorem blocks_safe {P : Protocol St} {n : Nat} {α : Type} {Q : Nat → α → St → Prop} {k : Unit → Prog St α} {s : St}
    {histogram : (Nat → Word) → Nat → Prog St Unit} (hin : Elements args m0) (ht : t < 16) (I : Nat → St → Prop)
    (hst : ∀ i, P.Stable t n (I i)) (hm : ∀ i s, I i s → s.mram = m0)
    (hgap : ∀ i i' s, i ≤ i' → (∀ k, i ≤ k → k < i' → ¬ Own args t k) → I i s → I i' s)
    (hbody : ∀ input i l s, (∀ j < l, Own args t (i + j) ∧ input j = elem m0 (i + j)) → I i s →
      P.Safe t (fun n' _ s => n' = n ∧ I (i + l) s) (histogram input l) n s)
    (h0 : I 0 s) (hk : ∀ i s, args.size.toNat / 4 ≤ i → I i s → P.Safe t Q (k ()) n s) :
    P.Safe t Q (blocks args t histogram >>= k) n s := by
  have hsize := hin.size
  have hpasses : ∀ j, j < Prog.passes (t * BLOCK_SIZE) args.size.toNat (BLOCK_SIZE * NR_TASKLETS) ↔
      t * 1024 + 16384 * j < args.size.toNat := fun j => by
    simp only [Prog.passes, BLOCK_SIZE, NR_TASKLETS]
    omega
  refine Protocol.Safe.loop (fun j => I (t * 256 + 4096 * j)) (fun j => hst _)
    (hgap 0 _ s (Nat.zero_le _) (fun k _ hk ho => ?_) h0) (fun j hj s hs => ?_) fun s hs => ?_
  · have := ho.2
    omega
  · have hj := (hpasses j).mp hj
    refine Protocol.Safe.read _ (hst _) hs fun s hs => ?_
    have hindex : t * BLOCK_SIZE + BLOCK_SIZE * NR_TASKLETS * j = t * 1024 + 16384 * j := by
      unfold BLOCK_SIZE NR_TASKLETS
      omega
    -- the number of elements of the block
    have hl : l_size_bytes args (t * 1024 + 16384 * j) / 4 = min 256 (args.size.toNat / 4 - (t * 256 + 4096 * j)) := by
      unfold l_size_bytes BLOCK_SIZE
      split <;> omega
    rw [hindex, hl, hm _ s hs]
    have hown : ∀ i < min 256 (args.size.toNat / 4 - (t * 256 + 4096 * j)), Own args t (t * 256 + 4096 * j + i) := by
      intro i hi
      unfold Own
      omega
    have hread : ∀ i, m0 (line (A_OFFSET + (t * 1024 + 16384 * j)) + i) = elem m0 (t * 256 + 4096 * j + i) := by
      intro i
      unfold line elem A_OFFSET
      congr 1
      omega
    refine (hbody _ (t * 256 + 4096 * j) _ s (fun i hi => ⟨hown i hi, hread i⟩) hs).mono fun n' _ s ⟨hn', hs⟩ =>
      ⟨hn', hgap _ _ s (by omega) (fun k hk hk' ho => ?_) hs⟩
    obtain ⟨ho1, ho2⟩ := ho
    omega
  · have hend := (not_congr (hpasses _)).mp (Nat.lt_irrefl _)
    exact hk _ s (by omega) hs

/-! ## HST-S -/

/-- What tasklet `t` has in its histogram. -/
structure CountedS (args : DpuArguments) (m0 : Nat → Word) (t n : Nat) (s : St) : Prop where
  mram : s.mram = m0
  counts : ∀ b < args.bins.toNat, s.message t b = BitVec.ofNat 32 (cnt args m0 t n b)

/-- The bins of tasklet `t` below `b` are added up; the others are not yet. -/
structure MergedS (args : DpuArguments) (m0 : Nat → Word) (t n : Nat) (s : St) : Prop where
  mram : s.mram = m0
  done : ∀ b < args.bins.toNat, b % 16 = t → b < n → s.message 0 b = BitVec.ofNat 32 (binCount args m0 b)
  toDo : ∀ u < 16, ∀ b < args.bins.toNat, (u = 0 → b % 16 = t ∧ n ≤ b) →
    s.message u b = BitVec.ofNat 32 (cnt args m0 u (args.size.toNat / 4) b)

/-- The region after the bins below `n` are written. -/
structure WrittenTo (args : DpuArguments) (m0 : Nat → Word) (n : Nat) (s : St) : Prop where
  counts : ∀ b < args.bins.toNat, s.message 0 b = BitVec.ofNat 32 (binCount args m0 b)
  region : ∀ b < args.bins.toNat, entry args s.mram b =
    if b < n then BitVec.ofNat 32 (binCount args m0 b) else entry args m0 b

def protocolS (args : DpuArguments) (m0 : Nat → Word) : Protocol St where
  N := NR_TASKLETS
  ok := free
  guar n t s s' :=
    match n with
    | 0 => s'.mram = s.mram ∧ ∀ u, u ≠ t → s'.message u = s.message u
    | 1 => s'.mram = s.mram ∧ ∀ u b, (u = 0 → b % 16 ≠ t) → s'.message u b = s.message u b
    | _ => t = 0
  brings n t s :=
    match n with
    | 0 => CountedS args m0 t (args.size.toNat / 4) s
    | 1 => s.mram = m0 ∧ ∀ b < args.bins.toNat, b % 16 = t → s.message 0 b = BitVec.ofNat 32 (binCount args m0 b)
    | _ => False
  busy _ _ := False

theorem St.put_message (s : St) (j i : Nat) (v : Word) (u b : Nat) :
    (s.put j i v).message u b = if u = j ∧ b = i then v else s.message u b := by
  unfold St.put
  by_cases hu : u = j
  · subst hu
    by_cases hb : b = i <;> simp [hb]
  · simp [hu]

theorem CountedS.stable (n : Nat) : (protocolS args m0).Stable t 0 (CountedS args m0 t n) := by
  intro s s' h ⟨u, _, hu, hmram, hg⟩
  exact ⟨hmram.trans h.mram, fun b hb => by rw [hg t (Ne.symm hu), h.counts b hb]⟩

theorem put_guarS (s : St) (i : Nat) (v : Word) : (protocolS args m0).guar 0 t s (s.put t i v) :=
  ⟨rfl, fun u hu => by simp [St.put, hu]⟩

theorem histogramS_safe (hin : Elements args m0) (input : Nat → Word) (i l : Nat) (s : St)
    (h : ∀ j < l, Own args t (i + j) ∧ input j = elem m0 (i + j)) (hs : CountedS args m0 t i s) :
    (protocolS args m0).Safe t (fun n' _ s => n' = 0 ∧ CountedS args m0 t (i + l) s) (histogramS args t input l) 0 s := by
  have hpasses : Prog.passes 0 l 1 = l := by
    unfold Prog.passes
    omega
  refine Protocol.Safe.last (Protocol.Safe.loop (fun j => CountedS args m0 t (i + j)) (fun j => CountedS.stable _) hs
    (fun j hj s hs => ?_) fun s hs => ?_)
  · rw [hpasses] at hj
    obtain ⟨ho, hinput⟩ := h j hj
    rw [Nat.zero_add, Nat.one_mul, hinput, index_eq hin ho.1]
    refine Protocol.Safe.read _ (CountedS.stable _) hs fun s hs => ?_
    have hst : (protocolS args m0).Stable t 0 fun s' => CountedS args m0 t (i + j) s' ∧ s'.message t = s.message t := by
      intro s1 s2 hs1 ho
      refine ⟨CountedS.stable _ s1 s2 hs1.1 ho, ?_⟩
      obtain ⟨u, _, hu, _, hg⟩ := ho
      exact (hg t (Ne.symm hu)).trans hs1.2
    refine Protocol.Safe.last (Protocol.Safe.write _ hst ⟨hs, rfl⟩ fun s1 ⟨hs1, hsame⟩ _ => ⟨put_guarS s1 _ _, ?_⟩)
    have hs2 : CountedS args m0 t (i + (j + 1)) (s1.put t (bin args m0 (i + j)) (s.message t (bin args m0 (i + j)) + 1)) := by
      refine ⟨hs1.mram, fun b hb => ?_⟩
      rw [St.put_message, ← Nat.add_assoc, cnt_succ ho, ← hsame]
      by_cases hbin : b = bin args m0 (i + j)
      · rw [if_pos ⟨rfl, hbin⟩, if_pos hbin, ← hbin, hs1.counts b hb, BitVec.ofNat_add]
        rfl
      · rw [if_neg fun hb => hbin hb.2, if_neg hbin, hs1.counts b hb, Nat.add_zero]
    exact Protocol.Safe.ret _ (CountedS.stable _) hs2 fun s hs => ⟨rfl, hs⟩
  · rw [hpasses] at hs
    exact Protocol.Safe.ret _ (CountedS.stable _) hs fun s hs => ⟨rfl, hs⟩

theorem passes_one (n : Nat) : Prog.passes 0 n 1 = n := by
  unfold Prog.passes
  omega

theorem clearS_safe {α : Type} {Q : Nat → α → St → Prop} {k : Unit → Prog St α} {s : St} (hs : s.mram = m0)
    (hk : ∀ s, CountedS args m0 t 0 s → (protocolS args m0).Safe t Q (k ()) 0 s) :
    (protocolS args m0).Safe t Q (Prog.loop 0 args.bins.toNat 1 (fun i => Prog.write fun s => s.put t i 0) >>= k) 0 s := by
  have hst : ∀ j, (protocolS args m0).Stable t 0 fun s => s.mram = m0 ∧ ∀ b < j, s.message t b = 0 := by
    intro j s s' h ⟨u, _, hu, hmram, hg⟩
    exact ⟨hmram.trans h.1, fun b hb => by rw [hg t (Ne.symm hu), h.2 b hb]⟩
  refine Protocol.Safe.loop _ hst ⟨hs, fun b hb => absurd hb (Nat.not_lt_zero b)⟩ (fun j _ s hs => ?_) fun s hs => ?_
  · rw [Nat.zero_add, Nat.one_mul]
    refine Protocol.Safe.last (Protocol.Safe.write _ (hst j) hs fun s hs _ => ⟨put_guarS s _ _, ?_⟩)
    have hs' : (s.put t j 0).mram = m0 ∧ ∀ b < j + 1, (s.put t j 0).message t b = 0 := by
      refine ⟨hs.1, fun b hb => ?_⟩
      rw [St.put_message]
      by_cases hbj : b = j
      · rw [if_pos ⟨rfl, hbj⟩]
      · rw [if_neg fun h => hbj h.2, hs.2 b (by omega)]
    exact Protocol.Safe.ret _ (hst (j + 1)) hs' fun s hs => ⟨rfl, hs⟩
  · rw [passes_one] at hs
    refine hk s ⟨hs.1, fun b hb => ?_⟩
    rw [hs.2 b hb, cnt, Nat.count_zero]
    rfl

theorem MergedS.stable (n : Nat) : (protocolS args m0).Stable t 1 (MergedS args m0 t n) := by
  intro s s' h ⟨u, _, hu, hmram, hg⟩
  refine ⟨hmram.trans h.mram, fun b hb hbt hbn => ?_, fun v hv b hb hown => ?_⟩
  · rw [hg 0 b fun _ => by rw [hbt]; exact Ne.symm hu, h.done b hb hbt hbn]
  · rw [hg v b fun hv0 => by rw [(hown hv0).1]; exact Ne.symm hu, h.toDo v hv b hb hown]

/-- **One bin is added up.** -/
theorem mergeS_safe {i : Nat} (hi : i < args.bins.toNat) (hit : i % 16 = t) {s : St} (hs : MergedS args m0 t i s) :
    (protocolS args m0).Safe t (fun n' _ s => n' = 1 ∧ MergedS args m0 t (i + 16) s) (mergeS i) 1 s := by
  have hst : ∀ n, (protocolS args m0).Stable t 1 (MergedS args m0 t n) := MergedS.stable
  unfold mergeS
  refine Protocol.Safe.forStep (fun j b s => MergedS args m0 t i s ∧
      b = BitVec.ofNat 32 (∑ u ∈ Finset.range j, cnt args m0 u (args.size.toNat / 4) i))
    (fun j b s s' h ho => ⟨hst i s s' h.1 ho, h.2⟩) ⟨hs, rfl⟩ (fun j hj b s ⟨hs, hb⟩ => ?_) fun b s ⟨hs, hb⟩ => ?_
  · rw [passes_one] at hj
    rw [Nat.zero_add, Nat.one_mul]
    refine Protocol.Safe.read _ (hst i) hs fun s hs => ?_
    have hval := hs.toDo j hj i hi fun _ => ⟨hit, Nat.le_refl i⟩
    refine Protocol.Safe.ret _ (hst i) hs fun s hs => ⟨rfl, hs, ?_⟩
    rw [hb, hval, Finset.sum_range_succ, BitVec.ofNat_add]
  · rw [passes_one, NR_TASKLETS, cnt_sum_end (Nat.le_refl _)] at hb
    refine Protocol.Safe.last (Protocol.Safe.write _ (hst i) hs fun s hs _ => ⟨⟨rfl, fun u b' hb' => ?_⟩, ?_⟩)
    · rw [St.put_message, if_neg fun h => hb' h.1 (by rw [h.2, hit])]
    · have hs' : MergedS args m0 t (i + 16) (s.put 0 i b) := by
        refine ⟨hs.mram, fun b' hb' hbt hbn => ?_, fun u hu b' hb' hown => ?_⟩
        · rw [St.put_message]
          by_cases hbi : b' = i
          · rw [if_pos ⟨rfl, hbi⟩, hb, hbi]
          · rw [if_neg fun h => hbi h.2, hs.done b' hb' hbt (by omega)]
        · rw [St.put_message, if_neg fun h => by have := (hown h.1).2; omega]
          exact hs.toDo u hu b' hb' fun hu0 => ⟨(hown hu0).1, by have := (hown hu0).2; omega⟩
      exact Protocol.Safe.ret _ (hst (i + 16)) hs' fun s hs => ⟨rfl, hs⟩

/-! ### The region -/

theorem entry_eq (hin : Elements args m0) (m : Nat → Word) (b : Nat) :
    entry args m b = m (line (mram_base_addr_histo args) + b) := by
  have := hin.transfer
  unfold entry line mram_base_addr_histo A_OFFSET
  congr 1
  omega

/-- A piece of the histogram is written. -/
theorem WrittenTo.piece (hin : Elements args m0) {s : St} {n l : Nat} (h : WrittenTo args m0 n s) (hn : 2 ∣ n) :
    WrittenTo args m0 (n + l)
      { s with mram := Copy.blit s.mram (line (mram_base_addr_histo args + n * 4)) (s.message 0) n l } := by
  have hline : line (mram_base_addr_histo args + n * 4) = line (mram_base_addr_histo args) + n := by
    have := hin.transfer
    unfold line mram_base_addr_histo A_OFFSET
    omega
  refine ⟨h.counts, fun b hb => ?_⟩
  rw [entry_eq hin, hline]
  dsimp only
  by_cases hbn : b < n
  · rw [Copy.blit_out (by omega), if_pos (by omega), ← entry_eq hin s.mram, h.region b hb, if_pos hbn]
  · by_cases hbl : b < n + l
    · rw [Copy.blit_in (by omega) (by omega), if_pos hbl, ← h.counts b hb]
      congr 1
      omega
    · rw [Copy.blit_out (by omega), if_neg hbl, ← entry_eq hin s.mram, h.region b hb, if_neg hbn]

theorem WrittenTo.first {s : St} (hm : s.mram = m0)
    (h : ∀ b < args.bins.toNat, s.message 0 b = BitVec.ofNat 32 (binCount args m0 b)) : WrittenTo args m0 0 s :=
  ⟨h, fun b _ => by rw [if_neg (Nat.not_lt_zero b), hm]⟩

theorem WrittenTo.stableS (n : Nat) : (protocolS args m0).Stable 0 2 (WrittenTo args m0 n) :=
  fun _ _ _ ⟨_, _, hu, hg⟩ => absurd hg hu

theorem writeS_safe (hin : Elements args m0) {s : St} (hs : WrittenTo args m0 0 s) :
    (protocolS args m0).Safe 0 (fun n' _ s => n' = 2 ∧ WrittenTo args m0 (writtenS args) s) (writeS args) 2 s := by
  have hst : ∀ n, (protocolS args m0).Stable 0 2 (WrittenTo args m0 n) := WrittenTo.stableS
  unfold writeS writtenS
  split
  next =>
    refine Protocol.Safe.last (Protocol.Safe.write _ (hst 0) hs fun s hs _ => ⟨rfl, ?_⟩)
    have hnext := hs.piece hin (l := args.bins.toNat) (Dvd.intro 0 rfl)
    rw [Nat.zero_mul, Nat.add_zero, Nat.zero_add] at hnext
    exact Protocol.Safe.ret _ (hst _) hnext fun s hs => ⟨rfl, hs⟩
  next =>
    refine Protocol.Safe.last (Protocol.Safe.loop (fun j => WrittenTo args m0 (j * 512)) (fun j => hst _)
      (by rwa [Nat.zero_mul]) (fun j hj s hs => ?_) fun s hs => ?_)
    · rw [passes_one] at hj
      rw [Nat.zero_add, Nat.one_mul]
      refine Protocol.Safe.last (Protocol.Safe.write _ (hst _) hs fun s hs _ => ⟨rfl, ?_⟩)
      have hnext := hs.piece hin (l := 512) (by omega)
      rw [Nat.mul_assoc, ← Nat.succ_mul] at hnext
      exact Protocol.Safe.ret _ (hst _) hnext fun s hs => ⟨rfl, hs⟩
    · rw [passes_one] at hs
      exact Protocol.Safe.ret _ (hst _) hs fun s hs => ⟨rfl, hs⟩

/-- What a tasklet of HST-S ends with. -/
def EndS (args : DpuArguments) (m0 : Nat → Word) (n t : Nat) (s : St) : Prop :=
  n = 2 ∧ (t = 0 → WrittenTo args m0 (writtenS args) s)

theorem mainS_safe (hin : Elements args m0) (ht : t < 16) {s : St} (hs : s.mram = m0) :
    (protocolS args m0).Safe t (fun n _ s => EndS args m0 n t s) (mainS args t) 0 s := by
  unfold mainS
  refine clearS_safe hs fun s hs => ?_
  refine blocks_safe hin ht (CountedS args m0 t) CountedS.stable (fun _ _ hs => hs.mram)
    (fun i i' s hii hgap hs => ⟨hs.mram, fun b hb => by rw [cnt_gap hii hgap, hs.counts b hb]⟩)
    (histogramS_safe hin) hs fun i s hi hs => ?_
  have hs : CountedS args m0 t (args.size.toNat / 4) s :=
    ⟨hs.mram, fun b hb => by rw [hs.counts b hb, cnt_gap hi fun k hk _ ho => Nat.not_lt.mpr hk ho.1]⟩
  refine Protocol.Safe.barrier _ (CountedS.stable _) hs (fun s hs => hs) fun s hall => ?_
  have hall : ∀ u < 16, CountedS args m0 u (args.size.toNat / 4) s := hall
  have hpasses : ∀ j, j < Prog.passes t args.bins.toNat NR_TASKLETS ↔ t + 16 * j < args.bins.toNat := fun j => by
    unfold Prog.passes NR_TASKLETS
    omega
  refine Protocol.Safe.loop (fun j => MergedS args m0 t (t + 16 * j)) (fun j => MergedS.stable _) ?_ (fun j hj s hs => ?_)
    fun s hs => ?_
  · exact ⟨(hall t ht).mram, fun b _ hbt hbn => absurd hbn (by omega), fun u hu b hb _ => (hall u hu).counts b hb⟩
  · exact (mergeS_safe ((hpasses j).mp hj) (by omega) hs).mono fun n' _ s ⟨hn', hs⟩ => ⟨hn', hs⟩
  · have hend := (not_congr (hpasses _)).mp (Nat.lt_irrefl _)
    refine Protocol.Safe.barrier _ (MergedS.stable _) hs
      (fun s hs => (⟨hs.mram, fun b hb hbt => hs.done b hb hbt (by omega)⟩ : s.mram = m0 ∧ _)) fun s hall => ?_
    have hall : ∀ u < 16, s.mram = m0 ∧ ∀ b < args.bins.toNat, b % 16 = u → s.message 0 b = BitVec.ofNat 32 (binCount args m0 b) :=
      hall
    refine Protocol.Safe.last (Protocol.Safe.when (fun h0 => ?_) fun h0 => ?_)
    · subst h0
      have hfirst := WrittenTo.first (hall 0 (by omega)).1 fun b hb => (hall (b % 16) (by omega)).2 b hb rfl
      refine (writeS_safe hin hfirst).mono fun n' _ s ⟨hn', hs⟩ => ?_
      rw [hn']
      exact Protocol.Safe.ret _ (WrittenTo.stableS _) hs fun s hs => ⟨rfl, fun _ => hs⟩
    · exact Protocol.Safe.ret (fun _ => True) (fun _ _ _ _ => trivial) trivial fun s _ => ⟨rfl, fun ht0 => absurd ht0 h0⟩

/-- **HST-S, for every interleaving**: what it does not write stays. -/
theorem mainS_ends (hin : Elements args m0) : Ends NR_TASKLETS free (Init m0) (mainS args) fun s =>
    ∀ b < args.bins.toNat, entry args s.mram b =
      if b < writtenS args then BitVec.ofNat 32 (binCount args m0 b) else entry args m0 b := by
  refine (protocolS args m0).ends (e := 2) (Q := EndS args m0) (show 0 < 16 by decide)
    (fun t ht s hs => mainS_safe hin ht hs.1) ⟨fun _ _ => rfl, fun n t s hb => ⟨?_, fun h => h⟩, fun n t s h => ⟨h.1, fun h => h⟩⟩
    fun n s h => ((h 0 (show 0 < 16 by decide)).2 rfl).region
  match n, hb with
  | 0, _ => exact Nat.two_pos
  | 1, _ => exact Nat.one_lt_two

/-! ## HST-L -/

/-- The histogram is what the tasklets have added. -/
def Sum (args : DpuArguments) (s : St) : Prop :=
  ∀ b < args.bins.toNat, s.message 0 b = BitVec.ofNat 32 (∑ u ∈ Finset.range 16, s.added u b)

/-- While the histogram is cleared. -/
structure Cleared (m0 : Nat → Word) (t n : Nat) (s : St) : Prop where
  init : Init m0 s
  zero : ∀ b, b % 16 = t → b < n → s.message 0 b = 0

/-- Tasklet `t`, outside the mutex, has counted its elements below `n`. -/
structure Shared (args : DpuArguments) (m0 : Nat → Word) (t n : Nat) (s : St) : Prop where
  mram : s.mram = m0
  sum : Sum args s
  own : ∀ b < args.bins.toNat, s.added t b = cnt args m0 t n b
  holder : ∀ u, s.holder = some u → u < 16 ∧ u ≠ t

/-- Every bin is right. -/
structure Whole (args : DpuArguments) (m0 : Nat → Word) (s : St) : Prop where
  mram : s.mram = m0
  holder : s.holder = none
  counts : ∀ b < args.bins.toNat, s.message 0 b = BitVec.ofNat 32 (binCount args m0 b)

structure GuarCount (args : DpuArguments) (t : Nat) (s s' : St) : Prop where
  mram : s'.mram = s.mram
  sum : Sum args s → Sum args s'
  added : ∀ u, u ≠ t → s'.added u = s.added u
  holder : s'.holder = s.holder ∨ s'.holder = none ∨ s'.holder = some t
  locked : s.holder ≠ some t → s'.message = s.message ∧ s'.added = s.added ∧ (s'.holder = s.holder ∨ s.holder = none)

def protocolL (args : DpuArguments) (m0 : Nat → Word) : Protocol St where
  N := NR_TASKLETS
  ok := free
  guar n t s s' :=
    match n with
    | 0 => False
    | 1 => (Init m0 s → Init m0 s') ∧ ∀ b, b % 16 ≠ t → s'.message 0 b = s.message 0 b
    | 2 => GuarCount args t s s'
    | 3 => Whole args m0 s → Whole args m0 s'
    | _ => t = 0 ∧ s'.holder = s.holder
  brings n t s :=
    match n with
    | 0 => Init m0 s
    | 1 => Cleared m0 t args.bins.toNat s
    | 2 => Shared args m0 t (args.size.toNat / 4) s
    | 3 => Whole args m0 s
    | _ => False
  busy t s := s.holder = some t

theorem Cleared.stable (n : Nat) : (protocolL args m0).Stable t 1 (Cleared m0 t n) := by
  intro s s' h ⟨u, _, hu, hinit, hg⟩
  exact ⟨hinit h.init, fun b hb hbn => by rw [hg b (by rw [hb]; exact Ne.symm hu), h.zero b hb hbn]⟩

theorem Shared.stable (n : Nat) : (protocolL args m0).Stable t 2 (Shared args m0 t n) := by
  intro s s' h ⟨u, hu, hut, hg⟩
  have hg : GuarCount args u s s' := hg
  refine ⟨hg.mram.trans h.mram, hg.sum h.sum, fun b hb => by rw [hg.added t (Ne.symm hut), h.own b hb], fun v hv => ?_⟩
  rcases hg.holder with he | he | he
  · exact h.holder v (by rwa [← he])
  · rw [he] at hv
    cases hv
  · rw [he] at hv
    cases hv
    exact ⟨hu, hut⟩

/-- Nothing else happens while a tasklet has the mutex. -/
theorem held_stable {s1 : St} (h1 : s1.holder = some t) : (protocolL args m0).Stable t 2 fun s => s = s1 := by
  rintro s s' rfl ⟨u, _, hu, hg⟩
  have hg : GuarCount args u s s' := hg
  obtain ⟨hmessage, hadded, hholder⟩ := hg.locked (by rw [h1]; exact fun he => hu (Option.some.inj he).symm)
  have hmram := hg.mram
  have hholder : s'.holder = s.holder := hholder.resolve_right (by simp [h1])
  cases s'
  cases s
  simp_all

theorem guarCount_holder {s : St} {o : Option Nat} (h : s.holder = none ∨ s.holder = some t) (ho : o = none ∨ o = some t) :
    GuarCount args t s { s with holder := o } where
  mram := rfl
  sum hs := hs
  added _ _ := rfl
  holder := .inr ho
  locked hh := ⟨rfl, rfl, .inr (h.resolve_right hh)⟩

/-- What `store` makes of a state. -/
def St.stored (s : St) (t d : Nat) (v : Word) : St :=
  { s.put 0 d v with added := Function.update s.added t (Function.update (s.added t) d (s.added t d + 1)) }

theorem St.stored_added (s : St) (t d : Nat) (v : Word) (u b : Nat) :
    (s.stored t d v).added u b = s.added u b + if u = t ∧ b = d then 1 else 0 := by
  unfold St.stored
  by_cases hu : u = t
  · subst hu
    by_cases hb : b = d <;> simp [hb]
  · simp [hu]

theorem guarCount_store (ht : t < 16) {s : St} {d : Nat} (hh : s.holder = some t) :
    GuarCount args t s (s.stored t d (s.message 0 d + 1)) where
  mram := rfl
  sum hs b hb := by
    have hsum : ∑ u ∈ Finset.range 16, (s.stored t d (s.message 0 d + 1)).added u b =
        (∑ u ∈ Finset.range 16, s.added u b) + if b = d then 1 else 0 := by
      simp only [St.stored_added, Finset.sum_add_distrib]
      by_cases hbd : b = d <;> simp [hbd, ht]
    change (s.put 0 d _).message 0 b = _
    rw [hsum, St.put_message]
    by_cases hbd : b = d
    · rw [if_pos ⟨rfl, hbd⟩, if_pos hbd, BitVec.ofNat_add, ← hs b hb, hbd]
      rfl
    · rw [if_neg fun h => hbd h.2, if_neg hbd, hs b hb, Nat.add_zero]
  added u hu := by
    funext b
    rw [St.stored_added, if_neg fun h => hu h.1, Nat.add_zero]
  holder := .inl rfl
  locked hne := absurd hh hne

theorem histogramL_safe (hin : Elements args m0) (ht : t < 16) (input : Nat → Word) (i l : Nat) (s : St)
    (h : ∀ j < l, Own args t (i + j) ∧ input j = elem m0 (i + j)) (hs : Shared args m0 t i s) :
    (protocolL args m0).Safe t (fun n' _ s => n' = 2 ∧ Shared args m0 t (i + l) s) (histogramL args t input l) 2 s := by
  refine Protocol.Safe.last (Protocol.Safe.loop (fun j => Shared args m0 t (i + j)) (fun j => Shared.stable _) hs
    (fun j hj s hs => ?_) fun s hs => ?_)
  · rw [passes_one] at hj
    obtain ⟨ho, hinput⟩ := h j hj
    rw [Nat.zero_add, Nat.one_mul, hinput, index_eq hin ho.1]
    refine Protocol.Safe.awaitWrite _ (Shared.stable _) hs (fun s hs hheld => ?_) fun s hs hfree _ => ?_
    · -- the holder is another tasklet
      obtain ⟨u, hu⟩ := Option.isSome_iff_exists.mp (by simpa [Option.isSome_iff_ne_none] using hheld)
      exact ⟨u, (hs.holder u hu).1, hu, fun ht => absurd rfl (hs.holder t ht).2⟩
    refine ⟨guarCount_holder (.inl (by simpa using hfree)) (.inr rfl), ?_⟩
    refine Protocol.Safe.read _ (held_stable rfl) rfl fun s1 hs1 => ?_
    rw [hs1]
    refine Protocol.Safe.write _ (held_stable rfl) rfl fun s1 hs1 _ => ?_
    rw [hs1]
    have hg := @guarCount_store args t ht { s with holder := some t } (bin args m0 (i + j)) rfl
    refine ⟨hg, ?_⟩
    refine Protocol.Safe.last (Protocol.Safe.write _ (held_stable rfl) rfl fun s2 hs2 _ => ?_)
    rw [hs2]
    refine ⟨guarCount_holder (.inr rfl) (.inl rfl), ?_⟩
    have hs' : Shared args m0 t (i + (j + 1))
        { s.stored t (bin args m0 (i + j)) (s.message 0 (bin args m0 (i + j)) + 1) with holder := none } := by
      refine ⟨hs.mram, hg.sum hs.sum, fun b hb => ?_, fun u hu => absurd hu (by simp)⟩
      change (s.stored t (bin args m0 (i + j)) (s.message 0 (bin args m0 (i + j)) + 1)).added t b = _
      rw [St.stored_added, hs.own b hb, ← Nat.add_assoc, cnt_succ ho]
      congr 1
      exact if_congr (by simp) rfl rfl
    exact Protocol.Safe.ret _ (Shared.stable _) hs' fun s hs => ⟨rfl, hs⟩
  · rw [passes_one] at hs
    exact Protocol.Safe.ret _ (Shared.stable _) hs fun s hs => ⟨rfl, hs⟩

theorem strided (t j n : Nat) : j < Prog.passes t n NR_TASKLETS ↔ t + 16 * j < n := by
  unfold Prog.passes NR_TASKLETS
  omega

theorem clearL_safe {α : Type} {Q : Nat → α → St → Prop} {k : Unit → Prog St α} {s : St} (ht : t < 16) (hs : Init m0 s)
    (hk : ∀ s, Cleared m0 t args.bins.toNat s → (protocolL args m0).Safe t Q (k ()) 1 s) :
    (protocolL args m0).Safe t Q (Prog.loop t args.bins.toNat NR_TASKLETS (fun i => Prog.write fun s => s.put 0 i 0) >>= k) 1 s := by
  refine Protocol.Safe.loop (fun j => Cleared m0 t (t + 16 * j)) (fun j => Cleared.stable _)
    ⟨hs, fun b hb hbn => absurd hbn (by omega)⟩ (fun j _ s hs => ?_) fun s hs => ?_
  · refine Protocol.Safe.last (Protocol.Safe.write _ (Cleared.stable _) hs fun s hs _ => ⟨⟨fun h => h, fun b hb => ?_⟩, ?_⟩)
    · have hne : b ≠ t + NR_TASKLETS * j := by
        unfold NR_TASKLETS
        omega
      rw [St.put_message, if_neg fun h => hne h.2]
    · have hs' : Cleared m0 t (t + 16 * (j + 1)) (s.put 0 (t + NR_TASKLETS * j) 0) := by
        refine ⟨hs.init, fun b hb hbn => ?_⟩
        rw [St.put_message]
        by_cases hbj : b = t + 16 * j
        · rw [NR_TASKLETS, if_pos ⟨rfl, hbj⟩]
        · rw [NR_TASKLETS, if_neg fun h => hbj h.2]
          exact hs.zero b hb (by omega)
      exact Protocol.Safe.ret _ (Cleared.stable _) hs' fun s hs => ⟨rfl, hs⟩
  · have hend := (not_congr (strided t _ args.bins.toNat)).mp (Nat.lt_irrefl _)
    exact hk s ⟨hs.init, fun b hb hbn => hs.zero b hb (by omega)⟩

/-- Where the counting starts. -/
theorem Shared.first {s : St} (h : ∀ u < 16, Cleared m0 u args.bins.toNat s) : Shared args m0 t 0 s := by
  obtain ⟨hmram, hholder, hadded⟩ := (h 0 (by omega)).init
  refine ⟨hmram, fun b hb => ?_, fun b _ => ?_, fun u hu => absurd hu (by simp [hholder])⟩
  · rw [(h (b % 16) (by omega)).zero b rfl hb, hadded]
    simp
  · rw [hadded, cnt, Nat.count_zero]

/-- **When all have counted, the histogram is right.** -/
theorem Whole.of_shared {s : St} (h : ∀ u < 16, Shared args m0 u (args.size.toNat / 4) s) : Whole args m0 s := by
  refine ⟨(h 0 (by omega)).mram, ?_, fun b hb => ?_⟩
  · cases hholder : s.holder with
    | none => rfl
    | some u =>
      obtain ⟨hu, -⟩ := (h 0 (by omega)).holder u hholder
      exact absurd rfl ((h u hu).holder u hholder).2
  · have hsum : ∑ u ∈ Finset.range 16, s.added u b = binCount args m0 b := by
      rw [← cnt_sum_end (Nat.le_refl _)]
      exact Finset.sum_congr rfl fun u hu => (h u (Finset.mem_range.mp hu)).own b hb
    rw [(h 0 (by omega)).sum b hb, hsum]

theorem Whole.stable : (protocolL args m0).Stable t 3 (Whole args m0) := fun _ _ h ⟨_, _, _, hg⟩ => hg h

theorem mergeL_safe {b : Nat} (hb : b < args.bins.toNat) {s : St} (hs : Whole args m0 s) :
    (protocolL args m0).Safe t (fun n' _ s => n' = 3 ∧ Whole args m0 s) (mergeL b) 3 s := by
  unfold mergeL
  refine Protocol.Safe.read _ Whole.stable hs fun s hs => ?_
  have hkeeps : ∀ s', Whole args m0 s' → Whole args m0 (s'.put 0 b (0 + s.message 0 b)) := by
    refine fun s' hs' => ⟨hs'.mram, hs'.holder, fun b' hb' => ?_⟩
    rw [St.put_message]
    by_cases hbb : b' = b
    · rw [if_pos ⟨rfl, hbb⟩, hs.counts b hb, hbb]
      exact BitVec.zero_add _
    · rw [if_neg fun h => hbb h.2, hs'.counts b' hb']
  exact Protocol.Safe.last (Protocol.Safe.write _ Whole.stable hs fun s' hs' _ =>
    ⟨hkeeps s', Protocol.Safe.ret _ Whole.stable (hkeeps s' hs') fun s hs => ⟨rfl, hs⟩⟩)

/-- The region after the bins below `n` are written, with the mutex free. -/
structure WrittenL (args : DpuArguments) (m0 : Nat → Word) (n : Nat) (s : St) : Prop where
  written : WrittenTo args m0 n s
  holder : s.holder = none

theorem WrittenL.stable (n : Nat) : (protocolL args m0).Stable 0 4 (WrittenL args m0 n) :=
  fun _ _ _ ⟨_, _, hu, hg⟩ => absurd hg.1 hu

theorem writeL_safe (hin : Elements args m0) {s : St} (hs : WrittenL args m0 0 s) :
    (protocolL args m0).Safe 0 (fun n' _ s => n' = 4 ∧ WrittenL args m0 args.bins.toNat s) (writeL args) 4 s := by
  have hst : ∀ n, (protocolL args m0).Stable 0 4 (WrittenL args m0 n) := WrittenL.stable
  have hpasses : ∀ j, j < Prog.passes 0 (args.bins.toNat * 4) 2048 ↔ 512 * j < args.bins.toNat := fun j => by
    unfold Prog.passes
    omega
  refine Protocol.Safe.last (Protocol.Safe.loop (fun j => WrittenL args m0 (min (512 * j) args.bins.toNat)) (fun j => hst _)
    (by rwa [Nat.mul_zero, Nat.zero_min]) (fun j hj s hs => ?_) fun s hs => ?_)
  · have hj := (hpasses j).mp hj
    have hchunk : (if 2048 < args.bins.toNat * 4 - (0 + 2048 * j) then 2048 else args.bins.toNat * 4 - (0 + 2048 * j)) / 4 =
        min 512 (args.bins.toNat - 512 * j) := by
      split <;> omega
    have hoff : (0 + 2048 * j) / 4 = 512 * j := by omega
    have hbytes : 0 + 2048 * j = 512 * j * 4 := by omega
    dsimp only
    rw [hchunk, hoff, hbytes]
    rw [Nat.min_eq_left (Nat.le_of_lt hj)] at hs
    refine Protocol.Safe.last (Protocol.Safe.write _ (hst _) hs fun s hs _ => ⟨⟨rfl, rfl⟩, ?_⟩)
    have hnext := hs.written.piece hin (l := min 512 (args.bins.toNat - 512 * j)) (by omega)
    rw [show 512 * j + min 512 (args.bins.toNat - 512 * j) = min (512 * (j + 1)) args.bins.toNat by omega] at hnext
    have hnext : WrittenL args m0 (min (512 * (j + 1)) args.bins.toNat) _ := ⟨hnext, hs.holder⟩
    exact Protocol.Safe.ret _ (hst _) hnext fun s hs => ⟨rfl, hs⟩
  · have hend := (not_congr (hpasses _)).mp (Nat.lt_irrefl _)
    rw [Nat.min_eq_right (by omega)] at hs
    exact Protocol.Safe.ret _ (hst _) hs fun s hs => ⟨rfl, hs⟩

/-- What a tasklet of HST-L ends with. -/
def EndL (args : DpuArguments) (m0 : Nat → Word) (n t : Nat) (s : St) : Prop :=
  n = 4 ∧ (t = 0 → WrittenTo args m0 args.bins.toNat s) ∧ s.holder ≠ some t

theorem mainL_safe (hin : Elements args m0) (ht : t < 16) {s : St} (hs : Init m0 s) :
    (protocolL args m0).Safe t (fun n _ s => EndL args m0 n t s) (mainL args t) 0 s := by
  unfold mainL
  refine Protocol.Safe.barrier (Init m0) (fun _ _ _ ⟨_, _, _, hg⟩ => False.elim hg) hs (fun s hs => hs) fun s hall => ?_
  refine clearL_safe ht (hall t ht) fun s hs => ?_
  refine Protocol.Safe.barrier _ (Cleared.stable _) hs (fun s hs => hs) fun s hall => ?_
  refine blocks_safe hin ht (Shared args m0 t) Shared.stable (fun _ _ hs => hs.mram)
    (fun i i' s hii hgap hs => ⟨hs.mram, hs.sum, fun b hb => by rw [cnt_gap hii hgap, hs.own b hb], hs.holder⟩)
    (histogramL_safe hin ht) (Shared.first hall) fun i s hi hs => ?_
  have hs : Shared args m0 t (args.size.toNat / 4) s :=
    ⟨hs.mram, hs.sum, fun b hb => by rw [hs.own b hb, cnt_gap hi fun k hk _ ho => Nat.not_lt.mpr hk ho.1], hs.holder⟩
  refine Protocol.Safe.barrier _ (Shared.stable _) hs (fun s hs => hs) fun s hall => ?_
  refine Protocol.Safe.loop (fun _ => Whole args m0) (fun _ => Whole.stable) (Whole.of_shared hall) (fun j hj s hs => ?_)
    fun s hs => ?_
  · exact mergeL_safe ((strided t j args.bins.toNat).mp hj) hs
  · refine Protocol.Safe.barrier _ Whole.stable hs (fun s hs => hs) fun s hall => ?_
    have hwhole : Whole args m0 s := hall t ht
    refine Protocol.Safe.last (Protocol.Safe.when (fun h0 => ?_) fun h0 => ?_)
    · subst h0
      have hfirst : WrittenL args m0 0 s := ⟨WrittenTo.first hwhole.mram hwhole.counts, hwhole.holder⟩
      refine (writeL_safe hin hfirst).mono fun n' _ s ⟨hn', hs⟩ => ?_
      rw [hn']
      exact Protocol.Safe.ret _ (WrittenL.stable _) hs fun s hs => ⟨rfl, fun _ => hs.written, by simp [hs.holder]⟩
    · have hst : (protocolL args m0).Stable t 4 fun s => s.holder = none := fun _ _ h ⟨_, _, _, hg⟩ => hg.2.trans h
      exact Protocol.Safe.ret _ hst hwhole.holder fun s hs => ⟨rfl, fun ht0 => absurd ht0 h0, by simp [hs]⟩

/-- **HST-L, for every interleaving.** -/
theorem mainL_ends (hin : Elements args m0) : Ends NR_TASKLETS free (Init m0) (mainL args) fun s =>
    ∀ b < args.bins.toNat, entry args s.mram b = BitVec.ofNat 32 (binCount args m0 b) := by
  refine (protocolL args m0).ends (e := 4) (Q := EndL args m0) (show 0 < 16 by decide) (fun t ht s hs => mainL_safe hin ht hs)
    ⟨fun _ _ => rfl, fun n t s hb => ?_, fun n t s h => ⟨h.1, h.2.2⟩⟩ fun n s h b hb => ?_
  · match n, hb with
    | 0, hb =>
      have hb : Init m0 s := hb
      exact ⟨by omega, fun hbusy => by simp [protocolL, hb.2.1] at hbusy⟩
    | 1, hb =>
      have hb : Cleared m0 t args.bins.toNat s := hb
      exact ⟨by omega, fun hbusy => by simp [protocolL, hb.init.2.1] at hbusy⟩
    | 2, hb =>
      have hb : Shared args m0 t (args.size.toNat / 4) s := hb
      exact ⟨by omega, fun hbusy => (hb.holder t hbusy).2 rfl⟩
    | 3, hb =>
      have hb : Whole args m0 s := hb
      exact ⟨by omega, fun hbusy => by simp [protocolL, hb.holder] at hbusy⟩
  · rw [((h 0 (show 0 < 16 by decide)).2.1 rfl).region b hb, if_pos hb]

/-! ## Both -/

/-- Both kernels end, with every bin right and the same region. -/
structure Agree (args : DpuArguments) (m0 : Nat → Word) : Prop where
  endsS : Ends NR_TASKLETS free (Init m0) (mainS args) fun s => ∀ b < args.bins.toNat, (entry args s.mram b).toNat = binCount args m0 b
  endsL : Ends NR_TASKLETS free (Init m0) (mainL args) fun s => ∀ b < args.bins.toNat, (entry args s.mram b).toNat = binCount args m0 b
  same : ∀ c c', Reachable (Starts (Init m0) (mainS args)) (Step NR_TASKLETS free) c → c.Finished NR_TASKLETS →
    Reachable (Starts (Init m0) (mainL args)) (Step NR_TASKLETS free) c' → c'.Finished NR_TASKLETS →
    ∀ b < args.bins.toNat, entry args c.state.mram b = entry args c'.state.mram b

theorem count_toNat (b : Nat) : (BitVec.ofNat 32 (binCount args m0 b)).toNat = binCount args m0 b := by
  rw [BitVec.toNat_ofNat, Nat.mod_eq_of_lt (binCount_lt b)]

/-- The bins that HST-S does not write have to be right before. -/
theorem Agree.rest (hin : Elements args m0) (h : Agree args m0) :
    ∀ b < args.bins.toNat, writtenS args ≤ b → (entry args m0 b).toNat = binCount args m0 b := by
  intro b hb hle
  obtain ⟨c, hr, hfin⟩ := h.endsS.finished (s := ⟨m0, fun _ _ => 0, none, fun _ _ => 0⟩) ⟨rfl, rfl, rfl⟩
  have hend := (mainS_ends hin).result c hr hfin b hb
  rw [if_neg (Nat.not_lt.mpr hle)] at hend
  rw [← hend]
  exact h.endsS.result c hr hfin b hb

theorem Agree.of_rest (hin : Elements args m0)
    (h : ∀ b < args.bins.toNat, writtenS args ≤ b → (entry args m0 b).toNat = binCount args m0 b) : Agree args m0 := by
  have hS := (mainS_ends hin).mono fun s hs b hb => (show (entry args s.mram b).toNat = binCount args m0 b from by
    rw [hs b hb]
    split
    next => exact count_toNat b
    next hlt => exact h b hb (Nat.not_lt.mp hlt))
  have hL := (mainL_ends hin).mono fun s hs b hb => (show (entry args s.mram b).toNat = binCount args m0 b from by
    rw [hs b hb, count_toNat])
  exact ⟨hS, hL, fun c c' hr hfin hr' hfin' b hb =>
    BitVec.eq_of_toNat_eq ((hS.result c hr hfin b hb).trans (hL.result c' hr' hfin' b hb).symm)⟩

/-- HST-S does not write the bins beyond the last whole piece of a histogram of
more than 2048 bytes. -/
theorem agree_iff (hin : Elements args m0) : Agree args m0 ↔ args.bins.toNat * 4 ≤ 2048 ∨ 2048 ∣ args.bins.toNat * 4 ∨
    ∀ b < args.bins.toNat, args.bins.toNat * 4 / 2048 * 512 ≤ b → (entry args m0 b).toNat = binCount args m0 b := by
  refine ⟨fun h => ?_, fun h => Agree.of_rest hin fun b hb hle => ?_⟩
  · by_cases hsmall : args.bins.toNat * 4 ≤ 2048
    · exact .inl hsmall
    · refine .inr (.inr fun b hb hle => h.rest hin b hb ?_)
      rwa [writtenS, if_neg hsmall]
  · unfold writtenS at hle
    rcases h with hsmall | hdvd | hrest
    · rw [if_pos hsmall] at hle
      omega
    · split at hle <;> omega
    · split at hle
      next => omega
      next => exact hrest b hb hle

/-- The sixteen histograms of HST-S leave room for one piece each. -/
theorem Input.bins_le (h : Input args m0) : args.bins.toNat * 4 ≤ 2048 := by
  have hfit := h.fitsS
  simp only [heapS, NR_TASKLETS, BLOCK_SIZE, STACK_SIZE, WRAM_SIZE] at hfit
  omega

/-- **The histograms agree**: where the allocations fit in WRAM, HST-S writes the
whole histogram in one piece. -/
theorem histograms_agree (h : Input args m0) : Agree args m0 := (agree_iff h.toElements).mpr (.inl h.bins_le)

/-- 128 elements, of which element `k` is `73 * k % 4096`. -/
def spreadElems (i : Nat) : Word := if i < A_OFFSET / 4 + 128 then BitVec.ofNat 32 ((i - A_OFFSET / 4) * 73 % 4096) else 0

/-- With 512 bins, the most that fit. -/
theorem histograms_agree_most : Input ⟨512, 512, 512⟩ spreadElems ∧ Agree ⟨512, 512, 512⟩ spreadElems := by
  have hin : Input ⟨512, 512, 512⟩ spreadElems := by
    refine ⟨⟨by decide, by decide, by decide, fun k _ => ?_, by decide⟩, by decide, by decide⟩
    unfold elem spreadElems
    split
    · rw [BitVec.toNat_ofNat]
      exact Nat.mod_lt_of_lt (Nat.mod_lt _ (by decide))
    · decide
  exact ⟨hin, histograms_agree hin⟩

end Memclave.Hst
