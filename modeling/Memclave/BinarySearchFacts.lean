/-
The query loop of the BS kernel ends, stays inside the array and finds what
is there (`query_finds`).

The bounds `L` and `R` are always whole blocks apart, and what the query
looks for is between them (`Window`); a pass that does not end the loop
brings them closer (`pass_spec`).
-/
import Memclave.BinarySearch
import Mathlib.Tactic.FinCases

namespace Memclave.BinarySearch

open Words

/-! ## The search of one block -/

variable {buf : Nat → Dword} {x : Dword} {size : Word}

theorem isIndex_ofNat {i : Nat} (h : i < 2 ^ 32) : isIndex (BitVec.ofNat 64 i) = true := by
  have hi : (BitVec.ofNat 64 i).toNat = i := by rw [BitVec.toNat_ofNat]; omega
  have hneg : (-1 : Dword).toInt = -1 := by decide
  rw [isIndex, BitVec.slt_eq_decide, decide_eq_true_eq, hneg, BitVec.toInt_eq_toNat_of_lt (by omega)]
  omega

/-- What `search` returns: an index, or whether the block begins above `x`. -/
inductive Searched (buf : Nat → Dword) (x : Dword) (n : Nat) (f : Dword) : Prop
  | found {i} : i < n → buf i = x → f = BitVec.ofNat 64 i → isIndex f = true → Searched buf x n f
  | absent : (∀ i < n, buf i ≠ x) → (buf 0).sle x = true → f = -1 → Searched buf x n f
  | above : (buf 0).sle x = false → f = -2 → Searched buf x n f

theorem search_spec : Searched buf x (size.toNat / 8) (search buf x size) := by
  have hsize := word_lt size
  unfold search
  split
  next hle =>
    split
    next i hi =>
      have hlt := List.mem_range.mp (List.mem_of_find?_eq_some hi)
      have heq := List.find?_some hi
      exact .found hlt (by simpa using heq) rfl (isIndex_ofNat (by omega))
    next hnone =>
      refine .absent (fun i hi heq => ?_) hle rfl
      have := List.find?_eq_none.mp hnone i (List.mem_range.mpr hi)
      simp [heq] at this
  next hle => exact .above (Bool.eq_false_iff.mpr hle) rfl

/-! ## The array -/

section

variable {mram : Nat → Dword} {A_base A_end L R : Word} {n l r : Nat} {s s' : St}

/-- A non-decreasing array of `n` elements that MRAM holds. -/
structure Sorted (mram : Nat → Dword) (A_base A_end : Word) (n : Nat) : Prop where
  aligned : A_base.toNat % 8 = 0
  ends : A_end.toNat = A_base.toNat + 8 * n
  fits : A_end.toNat ≤ 2 ^ 26
  sorted : ∀ i j, i ≤ j → j < n → (mram (A_base.toNat / 8 + i)).sle (mram (A_base.toNat / 8 + j)) = true

/-- The bounds of a pass, as the indices `l` and `r`. -/
structure Window (mram : Nat → Dword) (A_base : Word) (n : Nat) (x : Dword) (L R : Word) (l r : Nat) : Prop where
  left : L.toNat = A_base.toNat + 8 * l
  right : R.toNat = A_base.toNat + 8 * r
  apart : l + 32 ≤ r
  le : r ≤ n
  between : ∀ i < n, mram (A_base.toNat / 8 + i) = x → l ≤ i ∧ i < r

/-- The new reads are of the array, one block at most each. -/
def ReadsIn (A_base A_end : Word) (s s' : St) : Prop :=
  ∃ new, s'.reads = new ++ s.reads ∧
    ∀ a ∈ new, A_base.toNat ≤ a.1.toNat ∧ a.1.toNat + a.2.toNat ≤ A_end.toNat ∧ a.2.toNat ≤ BLOCK_SIZE.toNat

theorem ReadsIn.refl : ReadsIn A_base A_end s s := ⟨[], rfl, fun _ h => absurd h List.not_mem_nil⟩

theorem ReadsIn.trans {s1 : St} (h : ReadsIn A_base A_end s s1) (h' : ReadsIn A_base A_end s1 s') :
    ReadsIn A_base A_end s s' := by
  obtain ⟨new, hn, hin⟩ := h
  obtain ⟨new', hn', hin'⟩ := h'
  refine ⟨new' ++ new, by rw [hn', hn, List.append_assoc], fun a ha => ?_⟩
  cases List.mem_append.mp ha with
  | inl ha => exact hin' a ha
  | inr ha => exact hin a ha

/-- One more read of `k` elements from element `i` on. -/
theorem ReadsIn.cons {addr size : Word} {i k : Nat} (hs : Sorted mram A_base A_end n)
    (ha : addr.toNat = A_base.toNat + 8 * i) (hk : size.toNat = 8 * k) (hk32 : k ≤ 32) (hin : i + k ≤ n)
    (hr : s'.reads = (addr, size) :: s.reads) : ReadsIn A_base A_end s s' := by
  refine ⟨[(addr, size)], hr, fun a h => ?_⟩
  obtain rfl := List.mem_singleton.mp h
  have hb : BLOCK_SIZE.toNat = 256 := rfl
  have hends := hs.ends
  dsimp only
  exact ⟨by omega, by omega, by omega⟩

/-- The answer to a query: an index of `x`, or `found` as it was. -/
def Answer (mram : Nat → Dword) (A_base : Word) (n : Nat) (x : Dword) (s s' : St) : Prop :=
  (∃ i < n, mram (A_base.toNat / 8 + i) = x ∧ s'.found = BitVec.ofNat 64 i) ∨
    (∀ i < n, mram (A_base.toNat / 8 + i) ≠ x) ∧ s'.found = s.found

/-- The array that a block's search reads, and the index of what it finds. -/
structure Block (mram : Nat → Dword) (A_base : Word) (addr size : Word) (i k : Nat) (s : St) : Prop where
  cells : ∀ j < k, (s.mramRead mram addr size).cacheA j = mram (A_base.toNat / 8 + (i + j))
  index : ∀ j, indexAt A_base addr (BitVec.ofNat 64 j) = BitVec.ofNat 64 (i + j)
  len : size.toNat / 8 = k

theorem Sorted.block {addr size : Word} {i k : Nat} (hs : Sorted mram A_base A_end n)
    (ha : addr.toNat = A_base.toNat + 8 * i) (hk : size.toNat = 8 * k) : Block mram A_base addr size i k s := by
  have halign := hs.aligned
  have hlen : size.toNat / 8 = k := by omega
  refine ⟨fun j hj => ?_, fun j => ?_, hlen⟩
  · have hat : addr.toNat / 8 + j = A_base.toNat / 8 + (i + j) := by omega
    simp only [St.mramRead, hlen, if_pos hj, hat]
  · have haddr := word_lt addr
    have h8 : (8 : Word).toNat = 8 := rfl
    apply BitVec.eq_of_toNat_eq
    rw [indexAt, BitVec.toNat_add, BitVec.toNat_setWidth, BitVec.toNat_udiv, BitVec.toNat_sub, BitVec.toNat_ofNat,
      BitVec.toNat_ofNat, h8]
    omega

/-- What the search of `k` elements from element `i` on returns. -/
inductive SearchedAt (mram : Nat → Dword) (A_base : Word) (x : Dword) (addr : Word) (i k : Nat) (f : Dword) : Prop
  | found {j} : j < k → mram (A_base.toNat / 8 + (i + j)) = x → indexAt A_base addr f = BitVec.ofNat 64 (i + j) →
      isIndex f = true → SearchedAt mram A_base x addr i k f
  | absent : (∀ j < k, mram (A_base.toNat / 8 + (i + j)) ≠ x) → (mram (A_base.toNat / 8 + i)).sle x = true →
      f = -1 → SearchedAt mram A_base x addr i k f
  | above : (mram (A_base.toNat / 8 + i)).sle x = false → f = -2 → SearchedAt mram A_base x addr i k f

theorem Block.searched {addr size : Word} {i k : Nat} (h : Block mram A_base addr size i k s) (hk : 0 < k) :
    SearchedAt mram A_base x addr i k (search (s.mramRead mram addr size).cacheA x size) := by
  have hfirst := h.cells 0 hk
  have hspec := @search_spec (s.mramRead mram addr size).cacheA x size
  rw [h.len] at hspec
  cases hspec with
  | found hj heq hf hi => exact .found hj ((h.cells _ hj).symm.trans heq) (hf ▸ h.index _) hi
  | absent hne hle hf => exact .absent (fun j hj => h.cells j hj ▸ hne j hj) (hfirst ▸ hle) hf
  | above hle hf => exact .above (hfirst ▸ hle) hf

/-! ## One pass -/

theorem Window.mid (hs : Sorted mram A_base A_end n) (hw : Window mram A_base n x L R l r) :
    (((L + R) / 2) &&& WORD_MASK).toNat = A_base.toNat + 8 * ((l + r) / 2) := by
  obtain ⟨hl, hr, hap, hle, -⟩ := hw
  have halign := hs.aligned
  have hends := hs.ends
  have hfits := hs.fits
  have hm : WORD_MASK.toNat = 2 ^ 3 * (2 ^ 29 - 1) := rfl
  have h2 : (2 : Word).toNat = 2 := rfl
  rw [BitVec.toNat_and, hm, BitVec.toNat_udiv, BitVec.toNat_add, h2, and_high (by omega)]
  omega

theorem add_block {addr : Word} (h : addr.toNat ≤ 2 ^ 26) : (addr + BLOCK_SIZE).toNat = addr.toNat + 256 := by
  have hb : BLOCK_SIZE.toNat = 256 := rfl
  rw [BitVec.toNat_add, hb]
  omega

theorem Window.remain (hs : Sorted mram A_base A_end n) (hw : Window mram A_base n x L R l r) :
    ((R - (L + BLOCK_SIZE)) &&& ~~~7).toNat = 8 * (r - l - 32) := by
  obtain ⟨hl, hr, hap, hle, -⟩ := hw
  have hends := hs.ends
  have hfits := hs.fits
  have hm : (~~~7 : Word).toNat = 2 ^ 3 * (2 ^ 29 - 1) := rfl
  have hlt := word_lt R
  rw [BitVec.toNat_and, hm, BitVec.toNat_sub, add_block (by omega), and_high (by omega)]
  omega

/-- What a pass has done. -/
structure PassDone (mram : Nat → Dword) (A_base A_end : Word) (n : Nat) (x : Dword) (l r : Nat) (s : St)
    (out : St × Option (Word × Word)) : Prop where
  reads : ReadsIn A_base A_end s out.1
  ends : out.2 = none → Answer mram A_base n x s out.1
  goes : ∀ L R, out.2 = some (L, R) → out.1.found = s.found ∧
    ∃ l' r', Window mram A_base n x L R l' r' ∧ r' - l' < r - l

theorem Sorted.le (hs : Sorted mram A_base A_end n) {i j : Nat} (hij : i ≤ j) (hj : j < n) :
    (mram (A_base.toNat / 8 + i)).toInt ≤ (mram (A_base.toNat / 8 + j)).toInt := by
  simpa [BitVec.sle_eq_decide] using hs.sorted i j hij hj

/-- What is below the first element of a block is not in it or behind it. -/
theorem Sorted.not_behind (hs : Sorted mram A_base A_end n) {i j : Nat} (hij : i ≤ j) (hj : j < n)
    (h : (mram (A_base.toNat / 8 + i)).sle x = false) : mram (A_base.toNat / 8 + j) ≠ x := by
  rintro rfl
  have := hs.le hij hj
  simp [BitVec.sle_eq_decide] at h
  omega

/-- What is not below the first element of a block and not in the block is
not before it. -/
theorem Sorted.not_before (hs : Sorted mram A_base A_end n) {i j : Nat} (hij : j ≤ i) (hi : i < n)
    (h : (mram (A_base.toNat / 8 + i)).sle x = true) (hne : mram (A_base.toNat / 8 + i) ≠ x) :
    mram (A_base.toNat / 8 + j) ≠ x := by
  rintro rfl
  have := hs.le hij hi
  simp [BitVec.sle_eq_decide] at h
  exact hne (BitVec.eq_of_toInt_eq (by omega))

theorem isIndex_neg : isIndex (-1) = false ∧ isIndex (-2) = false := by decide

/-- What is left behind the block at `L`, which does not have `x`. -/
theorem pass_rest (hs : Sorted mram A_base A_end n) (hw : Window mram A_base n x L R l r) (hr64 : r ≤ l + 64)
    {s1 : St} (hread1 : ReadsIn A_base A_end s s1) (hfound : s1.found = s.found)
    (hne : ∀ j < 32, mram (A_base.toNat / 8 + (l + j)) ≠ x) :
    PassDone mram A_base A_end n x l r s
      (let start2 := L + BLOCK_SIZE
       let remain := (R - start2) &&& ~~~7
       if remain ≠ 0 then
         let s := s1.mramRead mram start2 remain
         let f := search s.cacheA x remain
         if isIndex f then ({ s with found := indexAt A_base start2 f }, none) else (s, none)
       else (s1, none)) := by
  have hrem := hw.remain hs
  obtain ⟨hl, hr, hap, hle, hbet⟩ := hw
  have hends := hs.ends
  have hfits := hs.fits
  have hadd : (L + BLOCK_SIZE).toNat = A_base.toNat + 8 * (l + 32) := by rw [add_block (by omega)]; omega
  have hnone : (∀ i, l + 32 ≤ i → i < r → mram (A_base.toNat / 8 + i) ≠ x) →
      ∀ i < n, mram (A_base.toNat / 8 + i) ≠ x := fun hrest i hi heq => by
    obtain ⟨hli, hir⟩ := hbet i hi heq
    cases Nat.lt_or_ge i (l + 32) with
    | inl hi32 =>
      obtain ⟨j, rfl⟩ := Nat.exists_eq_add_of_le hli
      exact hne j (by omega) heq
    | inr hi32 => exact hrest i hi32 hir heq
  dsimp only
  split
  next h0 =>
    have hpos : 0 < r - l - 32 := by
      cases Nat.eq_zero_or_pos (r - l - 32) with
      | inl hz =>
        rw [hz] at hrem
        exact absurd (word_ext hrem) h0
      | inr hz => exact hz
    have hread2 : ReadsIn A_base A_end s1 (s1.mramRead mram (L + BLOCK_SIZE) ((R - (L + BLOCK_SIZE)) &&& ~~~7)) :=
      .cons (i := l + 32) (k := r - l - 32) hs hadd hrem (by omega) (by omega) rfl
    have hreads := hread1.trans hread2
    cases (hs.block (s := s1) hadd hrem).searched (x := x) hpos with
    | found hj heq hidx hf =>
      rw [if_pos hf]
      exact ⟨hreads, fun _ => .inl ⟨_, by omega, heq, hidx⟩, fun _ _ h => nomatch h⟩
    | absent habs hsle hf =>
      rw [if_neg (by rw [hf, isIndex_neg.1]; exact Bool.false_ne_true)]
      refine ⟨hreads, fun _ => .inr ⟨hnone fun i hi hir => ?_, hfound⟩, fun _ _ h => nomatch h⟩
      obtain ⟨j, rfl⟩ := Nat.exists_eq_add_of_le hi
      exact habs j (by omega)
    | above hsle hf =>
      rw [if_neg (by rw [hf, isIndex_neg.2]; exact Bool.false_ne_true)]
      exact ⟨hreads, fun _ => .inr ⟨hnone fun i hi hir => hs.not_behind hi (by omega) hsle, hfound⟩,
        fun _ _ h => nomatch h⟩
  next h0 =>
    rw [not_not.mp h0] at hrem
    have hz : (0 : Word).toNat = 0 := rfl
    exact ⟨hread1, fun _ => .inr ⟨hnone fun i hi hir => by omega, hfound⟩, fun _ _ h => nomatch h⟩

/-- The last pass. -/
theorem pass_last (hs : Sorted mram A_base A_end n) (hw : Window mram A_base n x L R l r)
    (hlast : ((L + R) / 2) &&& WORD_MASK < L + BLOCK_SIZE) :
    PassDone mram A_base A_end n x l r s (pass mram A_base x L R s) := by
  have hmid := hw.mid hs
  have hl := hw.left
  have hap := hw.apart
  have hle := hw.le
  have hends := hs.ends
  have hfits := hs.fits
  have hr64 : r ≤ l + 64 := by
    rw [BitVec.lt_def, hmid, add_block (by omega)] at hlast
    omega
  have hread : ReadsIn A_base A_end s (s.mramRead mram L BLOCK_SIZE) :=
    .cons (i := l) (k := 32) hs hl rfl le_rfl (by omega) rfl
  unfold pass
  rw [if_pos hlast]
  have hblock : Block mram A_base L BLOCK_SIZE l 32 s := hs.block hl rfl
  cases hblock.searched (x := x) (by omega) with
  | found hj heq hidx hf =>
    rw [if_pos hf]
    exact ⟨hread, fun _ => .inl ⟨_, by omega, heq, hidx⟩, fun _ _ h => nomatch h⟩
  | absent hne hsle hf =>
    rw [if_neg (by rw [hf, isIndex_neg.1]; exact Bool.false_ne_true)]
    exact pass_rest hs hw hr64 hread rfl hne
  | above hsle hf =>
    rw [if_neg (by rw [hf, isIndex_neg.2]; exact Bool.false_ne_true)]
    exact pass_rest hs hw hr64 hread rfl fun j hj => hs.not_behind (by omega) (by omega) hsle

/-- **One pass.** It reads the array alone, and ends with the answer or goes
on with closer bounds. -/
theorem pass_spec (hs : Sorted mram A_base A_end n) (hw : Window mram A_base n x L R l r) :
    PassDone mram A_base A_end n x l r s (pass mram A_base x L R s) := by
  by_cases hlast : ((L + R) / 2) &&& WORD_MASK < L + BLOCK_SIZE
  · exact pass_last hs hw hlast
  have hmid := hw.mid hs
  obtain ⟨hl, hr, hap, hle, hbet⟩ := hw
  have hends := hs.ends
  have hfits := hs.fits
  set mid := ((L + R) / 2) &&& WORD_MASK with hmiddef
  set m := (l + r) / 2 with hm
  have hlm : l + 32 ≤ m := by
    rw [BitVec.lt_def, hmid, add_block (by omega)] at hlast
    omega
  have hread : ReadsIn A_base A_end s (s.mramRead mram mid BLOCK_SIZE) :=
    .cons (i := m) (k := 32) hs hmid rfl le_rfl (by omega) rfl
  unfold pass
  rw [if_neg hlast]
  have hblock : Block mram A_base mid BLOCK_SIZE m 32 s := hs.block hmid rfl
  cases hblock.searched (x := x) (by omega) with
  | found hj heq hidx hf =>
    rw [if_pos hf]
    exact ⟨hread, fun _ => .inl ⟨_, by omega, heq, hidx⟩, fun _ _ h => nomatch h⟩
  | absent hne hsle hf =>
    rw [if_neg (by rw [hf, isIndex_neg.1]; exact Bool.false_ne_true), if_neg (by rw [hf]; decide)]
    refine ⟨hread, (fun h => nomatch h), fun L' R' h => ?_⟩
    obtain ⟨rfl, rfl⟩ := Prod.mk.inj (Option.some.inj h)
    refine ⟨rfl, m, r, ⟨hmid, hr, by omega, hle, fun i hi heq => ⟨?_, (hbet i hi heq).2⟩⟩, by omega⟩
    by_contra hlt
    exact hs.not_before (by omega) (by omega) hsle (hne 0 (by omega)) heq
  | above hsle hf =>
    rw [if_neg (by rw [hf, isIndex_neg.2]; exact Bool.false_ne_true), if_pos hf]
    refine ⟨hread, (fun h => nomatch h), fun L' R' h => ?_⟩
    obtain ⟨rfl, rfl⟩ := Prod.mk.inj (Option.some.inj h)
    refine ⟨rfl, l, m, ⟨hl, hmid, by omega, by omega, fun i hi heq => ⟨(hbet i hi heq).1, ?_⟩⟩, by omega⟩
    by_contra hlt
    exact hs.not_behind (by omega) hi hsle heq

/-! ## The loop -/

/-- The passes of the loop, by the distance of its bounds. -/
theorem loop_spec (hs : Sorted mram A_base A_end n) : ∀ {d : Nat} {L R : Word} {l r : Nat} {s : St}, r - l ≤ d →
    Window mram A_base n x L R l r → ∃ s', (∀ passes, d < passes → loop mram A_base x passes L R s = some s') ∧
      ReadsIn A_base A_end s s' ∧ Answer mram A_base n x s s' := by
  intro d
  induction d with
  | zero =>
    intro L R l r s hd hw
    have := hw.apart
    omega
  | succ d ih =>
    intro L R l r s hd hw
    have hp := pass_spec (s := s) hs hw
    rcases hpass : pass mram A_base x L R s with ⟨s1, _ | ⟨L1, R1⟩⟩
    · rw [hpass] at hp
      refine ⟨s1, fun passes hlt => ?_, hp.reads, hp.ends rfl⟩
      obtain ⟨k, rfl⟩ := Nat.exists_eq_succ_of_ne_zero (show passes ≠ 0 by omega)
      rw [loop, hpass]
    · rw [hpass] at hp
      obtain ⟨hfound, l1, r1, hw1, hlt1⟩ := hp.goes L1 R1 rfl
      obtain ⟨s', hloop, hreads, hans⟩ := ih (s := s1) (by omega) hw1
      refine ⟨s', fun passes hlt => ?_, hp.reads.trans hreads, ?_⟩
      · obtain ⟨k, rfl⟩ := Nat.exists_eq_succ_of_ne_zero (show passes ≠ 0 by omega)
        rw [loop, hpass]
        exact hloop k (by omega)
      · rw [Answer, ← show s1.found = s.found from hfound]
        exact hans

end

/-- **A query is answered.** For every non-decreasing array of at least 32
elements in MRAM and every value, the loop ends, reads the array alone and at
most a block at a time, and sets `found` to an index of the value if there is
one, and leaves it as it is otherwise. -/
theorem query_finds {mram : Nat → Dword} {A_base : Word} {input_size x : Dword} (s : St)
    (hn : 32 ≤ input_size.toNat) (ha : A_base.toNat % 8 = 0) (hfits : A_base.toNat + 8 * input_size.toNat ≤ 2 ^ 26)
    (hsorted : ∀ i j, i ≤ j → j < input_size.toNat →
      (mram (A_base.toNat / 8 + i)).sle (mram (A_base.toNat / 8 + j)) = true) :
    ∃ s', (∀ passes, input_size.toNat < passes → query mram passes A_base input_size x s = some s') ∧
      ReadsIn A_base (arrayEnd A_base input_size) s s' ∧ Answer mram A_base input_size.toNat x s s' := by
  have hend : (arrayEnd A_base input_size).toNat = A_base.toNat + 8 * input_size.toNat := by
    have h8 : (8 : Dword).toNat = 8 := rfl
    rw [arrayEnd, BitVec.toNat_add, BitVec.toNat_setWidth, BitVec.toNat_mul, h8]
    omega
  have hs : Sorted mram A_base (arrayEnd A_base input_size) input_size.toNat := ⟨ha, hend, by omega, hsorted⟩
  have hw : Window mram A_base input_size.toNat x A_base (arrayEnd A_base input_size) 0 input_size.toNat :=
    ⟨rfl, hend, hn, le_rfl, fun i hi _ => ⟨Nat.zero_le i, hi⟩⟩
  have hb : BLOCK_SIZE.toNat = 256 := rfl
  have hlast : (arrayEnd A_base input_size - BLOCK_SIZE).toNat = A_base.toNat + 8 * (input_size.toNat - 32) := by
    rw [BitVec.toNat_sub, hend, hb]
    omega
  set s1 := s.prefetch A_base BLOCK_SIZE with hs1
  set s2 := s1.prefetch (arrayEnd A_base input_size - BLOCK_SIZE) BLOCK_SIZE with hs2
  have h1 : ReadsIn A_base (arrayEnd A_base input_size) s s1 :=
    .cons (i := 0) (k := 32) hs rfl rfl le_rfl (by omega) rfl
  have h2 : ReadsIn A_base (arrayEnd A_base input_size) s1 s2 :=
    .cons (i := input_size.toNat - 32) (k := 32) hs hlast rfl le_rfl (by omega) rfl
  obtain ⟨s', hloop, hreads, hans⟩ := loop_spec (s := s2) hs (d := input_size.toNat) (Nat.sub_le _ _) hw
  exact ⟨s', hloop, (h1.trans h2).trans hreads, hans⟩

/-- Every value twice. -/
def pairs : Nat → Dword := fun k => BitVec.ofNat 64 (k / 2)

def noneFound : St := ⟨fun _ => 0, -1, []⟩

theorem pairs_sorted : ∀ j < 70, ∀ i < j + 1, (pairs (1056 + i)).sle (pairs (1056 + j)) = true := by
  decide +kernel

/-- 70 elements, and a query for one of them. -/
theorem query_finds_seventy : ∃ s', (∀ passes, (70 : Dword).toNat < passes →
      query pairs passes 0x2100 70 540 noneFound = some s') ∧
    ReadsIn 0x2100 (arrayEnd 0x2100 70) noneFound s' ∧ Answer pairs 0x2100 (70 : Dword).toNat 540 noneFound s' :=
  query_finds noneFound (by decide) (by decide) (by decide) fun i j hij hj => pairs_sorted j hj i (Nat.lt_succ_of_le hij)

end Memclave.BinarySearch
