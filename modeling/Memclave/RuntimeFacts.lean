/-
What the functions of `Runtime` do to buffers in memory: `passes_spec` for
the cipher, over the blocks that the loop of a stride visits
(`imeChachaCrypt_eq`), and `imePolySimple_spec` for the MAC.

The blocks come in ascending order. Only the last one can run past the end of
the buffer, so that what it writes there is read by no other.
-/
import Mathlib.Data.List.Induction
import Memclave.Runtime
import Memclave.SealFacts

namespace Memclave.Runtime

open Words Copy Loader Aead

/-! ## Buffers -/

/-- The word of its memory that an untagged pointer means. -/
def ptrWord : Space → Word → Nat
  | .wram, ptr => ptr.toNat / 4
  | .mram, ptr => mramAt ptr

/-- `n` words at an untagged pointer, aligned as `uint32_t` and a DMA ask. -/
def IsBuf : Space → Word → Nat → Prop
  | .wram, ptr, n => ptr.toNat % 4 = 0 ∧ ptr.toNat / 4 + n ≤ wramWords
  | .mram, ptr, n => ptr.toNat % 8 = 0 ∧ ptr.toNat < 2 ^ 31 ∧ mramAt ptr + n ≤ mramWords

/-- A tagged pointer to `n` words of a memory. -/
def Points (ptr : Word) (sp : Space) (w n : Nat) : Prop :=
  ∀ k, 2 * k ≤ n → spaceOf (ptr + BitVec.ofNat 32 (8 * k)) = sp ∧ wordOf (ptr + BitVec.ofNat 32 (8 * k)) = w + 2 * k

theorem tag_toNat {ptr : Word} (h : ptr.toNat < 2 ^ 31) : (ptr ||| 0x80000000).toNat = 2 ^ 31 + ptr.toNat := by
  rw [BitVec.toNat_or, Nat.or_comm, show (0x80000000 : Word).toNat = 2 ^ 31 * 1 by decide,
    ← Nat.two_pow_add_eq_or_of_lt h, Nat.mul_one]

theorem ptr32Mram_toNat (ptr : Word) : (ptr32Mram ptr).toNat = ptr.toNat % 2 ^ 31 := by
  rw [ptr32Mram, BitVec.toNat_and, show (~~~(0x80000000 : Word)).toNat = 2 ^ 31 - 1 by decide,
    Nat.and_two_pow_sub_one_eq_mod]

theorem IsBuf.points {sp : Space} {ptr : Word} {n : Nat} (h : IsBuf sp ptr n) :
    Points (ptr32 sp ptr) sp (ptrWord sp ptr) n := by
  intro k hk
  cases sp with
  | wram =>
    obtain ⟨h4, hle⟩ := h
    have hw : wramWords = 2 ^ 14 := rfl
    have hnat : (ptr + BitVec.ofNat 32 (8 * k)).toNat = ptr.toNat + 8 * k := by
      rw [BitVec.toNat_add, BitVec.toNat_ofNat]
      omega
    have hmsb : ptr32IsMram (ptr + BitVec.ofNat 32 (8 * k)) = false := by
      rw [ptr32IsMram, BitVec.msb_eq_decide, hnat]
      simp only [decide_eq_false_iff_not]
      omega
    simp only [ptr32, spaceOf, wordOf, ptrWord, hmsb, hnat, Bool.false_eq_true, if_false, true_and]
    omega
  | mram =>
    obtain ⟨h8, h31, hle⟩ := h
    have hw : mramWords = 2 ^ 24 := rfl
    have hoff : mramAt ptr = ptr.toNat % 2 ^ 27 / 8 * 2 := rfl
    have hnat : ((ptr ||| 0x80000000) + BitVec.ofNat 32 (8 * k)).toNat = 2 ^ 31 + (ptr.toNat + 8 * k) := by
      rw [BitVec.toNat_add, BitVec.toNat_ofNat, tag_toNat h31]
      omega
    have hmsb : ptr32IsMram ((ptr ||| 0x80000000) + BitVec.ofNat 32 (8 * k)) = true := by
      rw [ptr32IsMram, BitVec.msb_eq_decide, hnat]
      simp only [decide_eq_true_eq]
      omega
    have hat : mramAt (ptr32Mram ((ptr ||| 0x80000000) + BitVec.ofNat 32 (8 * k))) = mramAt ptr + 2 * k := by
      rw [hoff, mramAt, mramOff, ptr32Mram_toNat, hnat]
      omega
    simp only [ptr32, spaceOf, wordOf, ptrWord, hmsb, hat, if_true, true_and]

theorem Points.mono {ptr : Word} {sp : Space} {w n n' : Nat} (h : Points ptr sp w n) (hn : n' ≤ n) :
    Points ptr sp w n' := fun k hk => h k (hk.trans hn)

/-- A pointer some blocks on. -/
theorem Points.shift {ptr : Word} {sp : Space} {w n a : Nat} (h : Points ptr sp w n) (ha : 16 * a ≤ n) :
    Points (ptr + BitVec.ofNat 32 a * 64) sp (w + 16 * a) (n - 16 * a) := by
  intro k hk
  have hadd : ptr + BitVec.ofNat 32 a * 64 + BitVec.ofNat 32 (8 * k) = ptr + BitVec.ofNat 32 (8 * (8 * a + k)) := by
    have hmul : BitVec.ofNat 32 a * 64 = BitVec.ofNat 32 (a * 64) := (BitVec.ofNat_mul a 64).symm
    rw [hmul, BitVec.add_assoc, ← BitVec.ofNat_add, show a * 64 + 8 * k = 8 * (8 * a + k) by omega]
  rw [hadd]
  have := h (8 * a + k) (by omega)
  refine ⟨this.1, this.2.trans (by omega)⟩

theorem Points.zero {ptr : Word} {sp : Space} {w n : Nat} (h : Points ptr sp w n) : spaceOf ptr = sp ∧ wordOf ptr = w := by
  have := h 0 (Nat.zero_le _)
  rwa [Nat.mul_zero, show BitVec.ofNat 32 0 = (0 : Word) from rfl, show ptr + (0 : Word) = ptr from BitVec.add_zero ptr] at this

/-- Two buffers of `n` words are one, or apart. -/
def SameOrApart (sp : Space) (w : Nat) (sp' : Space) (w' n : Nat) : Prop :=
  (sp = sp' ∧ w = w') ∨ sp ≠ sp' ∨ w + n ≤ w' ∨ w' + n ≤ w

theorem mem_setMem (s : St) (m : Nat → Word) (sp sp' : Space) :
    (s.setMem m sp').mem sp = if sp = sp' then m else s.mem sp := by
  cases sp <;> cases sp' <;> rfl

theorem reads_setMem (s : St) (m : Nat → Word) (sp : Space) : (s.setMem m sp).reads = s.reads := by
  cases sp <;> rfl

/-! ## A pass -/

/-- The words of chunk `a`; the source multiplies `a` by 16, not by 64. -/
def chunk (len a : Nat) : Nat := min 16 ((len - 16 * a) / 4)

theorem chunkSize_div {len : Word} {a : Nat} (ha : 64 * a < len.toNat) :
    (chunkSize len (BitVec.ofNat 32 a)).toNat / 4 = chunk len.toNat a := by
  have hlt := word_lt len
  have hsub : (len - BitVec.ofNat 32 a * 16).toNat = len.toNat - 16 * a := by
    have hmul : BitVec.ofNat 32 a * 16 = BitVec.ofNat 32 (a * 16) := (BitVec.ofNat_mul a 16).symm
    rw [hmul, BitVec.toNat_sub, BitVec.toNat_ofNat]
    omega
  have h64 : (64 : Word).toNat = 64 := by decide
  simp only [chunkSize, chunk, BitVec.lt_def, hsub, h64]
  split
  · rw [hsub]
    omega
  · rw [h64]
    omega

variable {c : Crypto} {key : Fin 8 → Word} {iv : Fin 3 → Word} {len buf out_buf : Word}
  {spb spo : Space} {wb wo : Nat} {s s' : St}

/-- Word `j` of the key stream's block `a`. -/
def keyWord (c : Crypto) (key : Fin 8 → Word) (iv : Fin 3 → Word) (a j : Nat) : Word :=
  c.chachaBlk key (BitVec.ofNat 32 (a + 1)) iv (Fin.ofNat 16 j)

theorem pass_eq {a n : Nat} (hb : Points buf spb wb n) (ho : Points out_buf spo wo n) (hn : 16 * a ≤ n)
    (ha : 64 * a < len.toNat) :
    chachaPass c key iv len buf out_buf (BitVec.ofNat 32 a) s =
      { s with reads := ⟨.cipher, spb, wb + 16 * a, chunk len.toNat a⟩ :: s.reads }.setMem
        (lay (s.mem spo) (wo + 16 * a)
          ((cells (s.mem spb) (wb + 16 * a) (chunk len.toNat a)).mapIdx fun j w => w ^^^ keyWord c key iv a j)) spo := by
  obtain ⟨hbs, hbw⟩ := (hb.shift hn).zero
  obtain ⟨hos, how⟩ := (ho.shift hn).zero
  have hctr : BitVec.ofNat 32 a + 1 = BitVec.ofNat 32 (a + 1) := (BitVec.ofNat_add a 1).symm
  simp only [chachaPass, ptr32Read, ptr32Write, hbs, hbw, hos, how, chunkSize_div ha, hctr]
  cases spo <;> rfl

/-! ## The passes over a list of blocks -/

/-- The passes of the loop, by the blocks they are for. -/
def passes (c : Crypto) (key : Fin 8 → Word) (iv : Fin 3 → Word) (len buf out_buf : Word) (s : St) (vs : List Nat) :
    St :=
  vs.foldl (fun s a => chachaPass c key iv len buf out_buf (BitVec.ofNat 32 a) s) s

/-- What passes over the blocks `vs` leave, for buffers of `len / 4` words. -/
structure Passed (c : Crypto) (key : Fin 8 → Word) (iv : Fin 3 → Word) (len : Nat) (spb : Space) (wb : Nat)
    (spo : Space) (wo : Nat) (s : St) (vs : List Nat) (s' : St) : Prop where
  text : SameOrApart spb wb spo wo (len / 4) → ∀ a ∈ vs, ∀ j < 16, 16 * a + j < len / 4 →
    s'.mem spo (wo + 16 * a + j) = s.mem spb (wb + 16 * a + j) ^^^ keyWord c key iv a j
  frame : ∀ sp k, (∀ a ∈ vs, ¬ (sp = spo ∧ wo + 16 * a ≤ k ∧ k < wo + 16 * a + chunk len a)) →
    s'.mem sp k = s.mem sp k
  reads : s'.reads = (vs.map fun a => ⟨.cipher, spb, wb + 16 * a, chunk len a⟩).reverse ++ s.reads

theorem chunk_le {len a : Nat} : chunk len a ≤ 16 := Nat.min_le_left _ _

theorem passes_spec {vs : List Nat} (hb : Points buf spb wb (len.toNat / 4))
    (ho : Points out_buf spo wo (len.toNat / 4)) (hv : vs.Pairwise (· < ·))
    (hlt : ∀ a ∈ vs, 64 * a < len.toNat) :
    Passed c key iv len.toNat spb wb spo wo s vs (passes c key iv len buf out_buf s vs) := by
  induction vs using List.reverseRecOn with
  | nil => exact ⟨by simp, fun _ _ _ => rfl, rfl⟩
  | append_singleton vs b ih =>
    have hv' := List.pairwise_append.mp hv
    have hbelow : ∀ a ∈ vs, a < b := fun a ha => hv'.2.2 a ha b (List.mem_singleton_self b)
    have hb64 : 64 * b < len.toNat := hlt b (by simp)
    obtain ⟨htext, hframe, hreads⟩ := ih hv'.1 fun a ha => hlt a (List.mem_append_left _ ha)
    set s1 := passes c key iv len buf out_buf s vs with hs1
    have hpass : passes c key iv len buf out_buf s (vs ++ [b]) =
        chachaPass c key iv len buf out_buf (BitVec.ofNat 32 b) s1 := by
      rw [passes, List.foldl_append]
      rfl
    rw [hpass, pass_eq hb ho (by omega) hb64]
    -- the chunk that is read has not been written yet
    have hold : SameOrApart spb wb spo wo (len.toNat / 4) → ∀ j < 16, 16 * b + j < len.toNat / 4 →
        s1.mem spb (wb + 16 * b + j) = s.mem spb (wb + 16 * b + j) := by
      intro hd j hj hjl
      refine hframe _ _ fun a ha h => ?_
      have := hbelow a ha
      have := @chunk_le len.toNat a
      rcases hd with ⟨-, hw⟩ | hsp | h1 | h1
      · omega
      · exact hsp h.1
      · omega
      · omega
    refine ⟨fun hd a ha j hj hjl => ?_, fun sp k hk => ?_, ?_⟩
    · rw [mem_setMem, if_pos rfl]
      cases List.mem_append.mp ha with
      | inl ha =>
        have := hbelow a ha
        rw [lay_out (by omega)]
        exact htext hd a ha j hj hjl
      | inr ha =>
        obtain rfl := List.mem_singleton.mp ha
        have hchunk : j < chunk len.toNat a := by
          rw [chunk]
          omega
        rw [lay_in (by rw [List.length_mapIdx, cells_length]; exact hchunk), List.getElem_mapIdx, cells_getElem,
          hold hd j hj hjl]
    · have hk' : s1.mem sp k = s.mem sp k := hframe sp k fun a ha => hk a (List.mem_append_left _ ha)
      rw [mem_setMem]
      split
      next h =>
        subst h
        have hkb : ¬ (wo + 16 * b ≤ k ∧ k < wo + 16 * b + chunk len.toNat b) := fun h => hk b (by simp) ⟨rfl, h⟩
        rw [lay_out (by rw [List.length_mapIdx, cells_length]; omega)]
        exact hk'
      next => exact hk'
    · rw [reads_setMem, List.map_append, List.reverse_append]
      show _ :: s1.reads = _
      rw [hreads]
      rfl

/-- The blocks the loop visits. -/
def visited (stride nblocks : Nat) : List Nat := (List.range ((nblocks + stride - 1) / stride)).map (· * stride)

theorem mem_visited {stride nblocks a : Nat} (hs : 1 ≤ stride) : a ∈ visited stride nblocks ↔ a < nblocks ∧ stride ∣ a := by
  rw [visited, List.mem_map]
  constructor
  · rintro ⟨k, hk, rfl⟩
    rw [List.mem_range, Nat.lt_div_iff_mul_lt (by omega)] at hk
    have := Nat.mul_comm k stride
    exact ⟨by omega, Nat.dvd_mul_left _ _⟩
  · rintro ⟨ha, k, rfl⟩
    refine ⟨k, ?_, Nat.mul_comm _ _⟩
    have := Nat.mul_comm k stride
    rw [List.mem_range, Nat.lt_div_iff_mul_lt (by omega)]
    omega

theorem visited_pairwise {stride nblocks : Nat} (hs : 1 ≤ stride) : (visited stride nblocks).Pairwise (· < ·) := by
  rw [visited, List.pairwise_map]
  exact List.pairwise_lt_range.imp fun h => Nat.mul_lt_mul_of_pos_right h (by omega)

variable (c key iv buf out_buf) in
/-- What the loop computes, for a length that does not overflow. -/
theorem chachaLoop_eq {stride : Nat} (hs : 1 ≤ stride) (hs32 : stride < 2 ^ 32) (hlen : len.toNat + 63 < 2 ^ 32)
    (fuel k : Nat) (hk : k ≤ ((len.toNat + 63) / 64 + stride - 1) / stride)
    (hfuel : ((len.toNat + 63) / 64 + stride - 1) / stride - k < fuel) (s : St) :
    chachaLoop c key iv (BitVec.ofNat 32 stride) len buf out_buf fuel (BitVec.ofNat 32 (k * stride)) s =
      some (passes c key iv len buf out_buf s
        ((List.range' k (((len.toNat + 63) / 64 + stride - 1) / stride - k)).map (· * stride))) := by
  have hdiv : ((len + 63) / 64).toNat = (len.toNat + 63) / 64 := by
    rw [BitVec.toNat_udiv, BitVec.toNat_add, show (63 : Word).toNat = 63 by decide, show (64 : Word).toNat = 64 by decide,
      Nat.mod_eq_of_lt hlen]
  set nblocks := (len.toNat + 63) / 64 with hnb
  set n := (nblocks + stride - 1) / stride with hn
  have hbound : ∀ i, i < n ↔ i * stride < nblocks := by
    intro i
    have := Nat.mul_comm i stride
    rw [hn, Nat.lt_div_iff_mul_lt (by omega)]
    omega
  induction fuel generalizing k s with
  | zero => omega
  | succ fuel ih =>
    by_cases hlt : k < n
    · have hkn := (hbound k).mp hlt
      have hword : BitVec.ofNat 32 (k * stride) < (len + 63) / 64 := by
        rw [BitVec.lt_def, hdiv, BitVec.toNat_ofNat, Nat.mod_eq_of_lt (by omega)]
        exact hkn
      have hnext : BitVec.ofNat 32 (k * stride) + BitVec.ofNat 32 stride = BitVec.ofNat 32 ((k + 1) * stride) := by
        rw [← BitVec.ofNat_add, Nat.add_mul, Nat.one_mul]
      rw [chachaLoop, if_pos hword, hnext, ih (k + 1) _ (by omega) (by omega)]
      have hcons : List.range' k (n - k) = k :: List.range' (k + 1) (n - (k + 1)) := by
        rw [show n - k = n - (k + 1) + 1 by omega, List.range'_succ]
      rw [hcons]
      rfl
    · obtain rfl : k = n := by omega
      -- the index past the last block does not wrap around
      have hsmall : n * stride < 2 ^ 32 := by
        cases Nat.lt_or_ge n 2 with
        | inl h2 =>
          have := Nat.mul_le_mul_right stride (show n ≤ 1 by omega)
          omega
        | inr h2 =>
          have hlast := (hbound (n - 1)).mp (by omega)
          have := Nat.mul_le_mul_right stride (show 1 ≤ n - 1 by omega)
          have hsplit : n * stride = (n - 1) * stride + stride := by
            rw [← Nat.succ_mul, show (n - 1).succ = n by omega]
          omega
      have hword : ¬ BitVec.ofNat 32 (n * stride) < (len + 63) / 64 := by
        rw [BitVec.lt_def, hdiv, BitVec.toNat_ofNat, Nat.mod_eq_of_lt hsmall]
        exact fun h => hlt ((hbound n).mpr h)
      rw [chachaLoop, if_neg hword, Nat.sub_self]
      rfl

/-- **The loop of a stride is the passes over its blocks.** -/
theorem imeChachaCrypt_eq {stride : Word} (hs : 1 ≤ stride.toNat) (hlen : len.toNat + 63 < 2 ^ 32) :
    imeChachaCrypt c key iv stride len buf out_buf s =
      some (passes c key iv len buf out_buf s (visited stride.toNat ((len.toNat + 63) / 64))) := by
  have hle : ((len.toNat + 63) / 64 + stride.toNat - 1) / stride.toNat ≤ (len.toNat + 63) / 64 := by
    rw [Nat.div_le_iff_le_mul_add_pred (by omega)]
    have := Nat.mul_le_mul_right ((len.toNat + 63) / 64) hs
    omega
  have h := chachaLoop_eq c key iv buf out_buf hs (word_lt stride) hlen
    (len.toNat / 64 + 2) 0 (Nat.zero_le _) (by omega) s
  rw [Nat.zero_mul, Nat.sub_zero, BitVec.ofNat_toNat, BitVec.setWidth_eq] at h
  rw [imeChachaCrypt, visited, List.range_eq_range']
  exact h

theorem visited_one {n : Nat} : visited 1 n = List.range n := by
  simp [visited]

variable (c key iv s) in
/-- With a stride of 1, every block. -/
theorem crypt_passed (hb : Points buf spb wb (len.toNat / 4)) (ho : Points out_buf spo wo (len.toNat / 4))
    (hlen : len.toNat + 63 < 2 ^ 32) :
    ∃ s', imeChachaCrypt c key iv 1 len buf out_buf s = some s' ∧
      Passed c key iv len.toNat spb wb spo wo s (List.range ((len.toNat + 63) / 64)) s' := by
  have h1 : (1 : Word).toNat = 1 := by decide
  refine ⟨_, imeChachaCrypt_eq (by rw [h1]) hlen, ?_⟩
  rw [h1, visited_one]
  refine passes_spec hb ho List.pairwise_lt_range fun a ha => ?_
  have := List.mem_range.mp ha
  omega

/-- Every block of a text is the text. -/
theorem Passed.cells_crypt (h : Passed c key iv len.toNat spb wb spo wo s (List.range ((len.toNat + 63) / 64)) s')
    (hd : SameOrApart spb wb spo wo (len.toNat / 4)) :
    cells (s'.mem spo) wo (len.toNat / 4) = c.suite.crypt key 1 iv (cells (s.mem spb) wb (len.toNat / 4)) := by
  refine List.ext_getElem (by rw [crypt_length, cells_length, cells_length]) fun j h1 h2 => ?_
  have hj : j < len.toNat / 4 := by rwa [cells_length] at h1
  have hsplit : 16 * (j / 16) + j % 16 = j := Nat.div_add_mod j 16
  have htext := h.text hd (j / 16) (List.mem_range.mpr (by omega)) (j % 16) (Nat.mod_lt _ (by decide)) (by omega)
  have hkey : keyWord c key iv (j / 16) (j % 16) = c.suite.stream key 1 iv j := by
    show c.chachaBlk key (BitVec.ofNat 32 (j / 16 + 1)) iv _ = c.chachaBlk key (BitVec.ofNat 32 (1 + j / 16)) iv _
    rw [Nat.add_comm 1]
    refine congrArg _ (Fin.ext ?_)
    show j % 16 % 16 = j % 16
    omega
  rw [Nat.add_assoc, Nat.add_assoc, hsplit, hkey] at htext
  have hlen : j < (cells (s.mem spb) wb (len.toNat / 4)).length := by rwa [cells_length]
  rw [cells_getElem, crypt_getElem hlen, cells_getElem, htext]

/-! ## `ime_poly_simple` -/

theorem polyLoop_eq {sp : Space} {w n : Nat} (hb : Points buf sp w n) (m : Nat) (hm : 4 * m ≤ n) (ctx : c.Ctx) :
    (List.range m).foldl (fun (x : c.Ctx × St) i =>
        let r := ptr32Read .mac (buf + BitVec.ofNat 32 i * 16) 16 x.2
        (c.polyFeedBlock x.1 fun j => r.1.getD j 0, r.2)) (ctx, s) =
      ((blocks (cells (s.mem sp) w (4 * m))).foldl c.polyFeedBlock ctx,
        { s with reads := ((List.range m).map fun i => ⟨.mac, sp, w + 4 * i, 4⟩).reverse ++ s.reads }) := by
  induction m with
  | zero =>
    rw [blocks_cells]
    rfl
  | succ m ih =>
    have hmul : BitVec.ofNat 32 m * 16 = BitVec.ofNat 32 (8 * (2 * m)) := by
      rw [show 8 * (2 * m) = m * 16 by omega]
      exact (BitVec.ofNat_mul m 16).symm
    obtain ⟨hsp, hw⟩ := hb (2 * m) (by omega)
    have h16 : (16 : Word).toNat / 4 = 4 := by decide
    have hblock : (fun j : Fin 4 => (cells (s.mem sp) (w + 2 * (2 * m)) 4).getD j 0) =
        fun j : Fin 4 => s.mem sp (w + 4 * m + j) := by
      funext j
      have hj : (j : Nat) < (cells (s.mem sp) (w + 2 * (2 * m)) 4).length := by
        rw [cells_length]
        exact j.isLt
      rw [List.getD_eq_getElem _ _ hj, cells_getElem]
      congr 1
      omega
    rw [List.range_succ, List.foldl_append, ih (by omega)]
    simp only [List.foldl_cons, List.foldl_nil, ptr32Read, hmul, hsp, hw, h16]
    refine Prod.ext ?_ ?_
    · show c.polyFeedBlock _ (fun j : Fin 4 => (cells (s.mem sp) (w + 2 * (2 * m)) 4).getD j 0) = _
      rw [hblock, blocks_cells, blocks_cells, List.range_succ, List.map_append, List.foldl_append]
      rfl
    · show St.mk s.wram s.mram _ = St.mk s.wram s.mram _
      rw [List.map_append, List.reverse_append, show w + 2 * (2 * m) = w + 4 * m by omega]
      rfl

/-- **`ime_poly_simple` computes the tag of a text without additional data.** -/
theorem imePolySimple_spec {sp : Space} {w : Nat} (hb : Points buf sp w (len.toNat / 4)) (h16 : len.toNat % 16 = 0) :
    imePolySimple c key iv len buf s =
      (c.suite.tag key iv [] (cells (s.mem sp) w (len.toNat / 4)),
        { s with reads := ((List.range (len.toNat / 16)).map fun i => ⟨.mac, sp, w + 4 * i, 4⟩).reverse ++ s.reads }) := by
  have hlt := word_lt len
  have hloop := polyLoop_eq (c := c) (s := s) hb (len.toNat / 16) (by omega)
    (c.polyInit fun i => c.chachaBlk key 0 iv ⟨i, by omega⟩)
  have hlen : lengths (4 * ([] : List Word).length) (4 * (cells (s.mem sp) w (len.toNat / 4)).length) =
      ![0, 0, len, 0] := by
    rw [cells_length, show 4 * (len.toNat / 4) = len.toNat by omega, lengths, Nat.div_eq_of_lt hlt,
      BitVec.ofNat_toNat, BitVec.setWidth_eq]
    rfl
  rw [show 4 * (len.toNat / 16) = len.toNat / 4 by omega] at hloop
  rw [imePolySimple]
  simp only at hloop ⊢
  rw [hloop]
  refine Prod.ext ?_ rfl
  show _ = c.suite.mac (c.suite.oneTimeKey key iv) (macInput [] _)
  rw [macInput, hlen]
  show _ = c.polyFinalize (((blocks [] ++ blocks _ ++ [![0, 0, len, 0]]).foldl c.polyFeedBlock (c.polyInit _)))
  rw [List.foldl_append, List.foldl_append]
  rfl

end Memclave.Runtime
