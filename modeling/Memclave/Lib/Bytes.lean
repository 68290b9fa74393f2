/-
Byte strings and rows of words, little-endian.

`wordsOf` fills the last word with zeros; for strings of whole words it and
`bytesOf` undo each other (`bytesOf_wordsOf`, `wordsOf_bytesOf`). A string in
a memory of words is one part after the other (`stored_append`).
-/
import Memclave.Lib.Words
import Memclave.Lib.Copy

namespace Words

abbrev Bytes := List Byte

def zeros (n : Nat) : Bytes := List.replicate n 0

/-- Byte `i` of a word, the lowest first. -/
def byteAt (w : Word) (i : Nat) : Byte := w.extractLsb' (8 * i) 8

/-- The word of the four bytes from `p` on. -/
def wordLE (b : Bytes) (p : Nat) : Word := b.getD (p + 3) 0 ++ b.getD (p + 2) 0 ++ b.getD (p + 1) 0 ++ b.getD p 0

def wordsOf (b : Bytes) : List Word := (List.range ((b.length + 3) / 4)).map fun i => wordLE b (4 * i)

def bytesOf (l : List Word) : Bytes := (List.range (4 * l.length)).map fun j => byteAt (l.getD (j / 4) 0) (j % 4)

variable {b b' : Bytes} {l : List Word} {i j p : Nat}

@[simp] theorem zeros_length (n : Nat) : (zeros n).length = n := List.length_replicate

@[simp] theorem wordsOf_length : (wordsOf b).length = (b.length + 3) / 4 := by simp [wordsOf]

@[simp] theorem bytesOf_length : (bytesOf l).length = 4 * l.length := by simp [bytesOf]

theorem wordsOf_getElem (h : i < (wordsOf b).length) : (wordsOf b)[i] = wordLE b (4 * i) := by simp [wordsOf]

theorem wordsOf_getD (h : i < (b.length + 3) / 4) : (wordsOf b).getD i 0 = wordLE b (4 * i) := by
  rw [List.getD_eq_getElem _ _ (by rwa [wordsOf_length]), wordsOf_getElem]

theorem bytesOf_getElem (h : j < (bytesOf l).length) : (bytesOf l)[j] = byteAt (l.getD (j / 4) 0) (j % 4) := by
  simp [bytesOf]

theorem bytesOf_getD (h : j < 4 * l.length) : (bytesOf l).getD j 0 = byteAt (l.getD (j / 4) 0) (j % 4) := by
  rw [List.getD_eq_getElem _ _ (by rwa [bytesOf_length]), bytesOf_getElem]

/-- A word is its four bytes. -/
theorem byteAt_ext {x y : Word} (h : ∀ i < 4, byteAt x i = byteAt y i) : x = y := by
  refine BitVec.eq_of_getLsbD_eq fun k hk => ?_
  have hbit := congrArg (·.getLsbD (k % 8)) (h (k / 8) (by omega))
  simpa [byteAt, Nat.div_add_mod, Nat.mod_lt k (show 8 > 0 by decide)] using hbit

theorem byteAt_wordLE (hi : i < 4) : byteAt (wordLE b p) i = b.getD (p + i) 0 := by
  refine BitVec.eq_of_getLsbD_eq fun k hk => ?_
  simp only [byteAt, wordLE, BitVec.getLsbD_extractLsb', BitVec.getLsbD_append, hk, decide_true, Bool.true_and]
  -- which of the four bytes the bit is in
  obtain rfl | rfl | rfl | rfl : i = 0 ∨ i = 1 ∨ i = 2 ∨ i = 3 := by omega
  all_goals
    repeat' split
    all_goals first | omega | (congr 1; omega)

theorem byteAt_wordsOf (h : j < 4 * ((b.length + 3) / 4)) : byteAt ((wordsOf b).getD (j / 4) 0) (j % 4) = b.getD j 0 := by
  rw [wordsOf_getD (by omega), byteAt_wordLE (Nat.mod_lt _ (by decide)), Nat.div_add_mod]

theorem bytesOf_wordsOf (h : b.length % 4 = 0) : bytesOf (wordsOf b) = b := by
  have hlen : 4 * ((b.length + 3) / 4) = b.length := by omega
  refine List.ext_getElem (by rw [bytesOf_length, wordsOf_length, hlen]) fun j h1 h2 => ?_
  rw [bytesOf_getElem, byteAt_wordsOf (by rwa [hlen]), List.getD_eq_getElem _ _ h2]

theorem wordsOf_bytesOf : wordsOf (bytesOf l) = l := by
  have hlen : (4 * l.length + 3) / 4 = l.length := by omega
  refine List.ext_getElem (by rw [wordsOf_length, bytesOf_length, hlen]) fun i h1 h2 => ?_
  rw [wordsOf_getElem]
  refine byteAt_ext fun k hk => ?_
  have hd : (4 * i + k) / 4 = i := by omega
  have hm : (4 * i + k) % 4 = k := by omega
  rw [byteAt_wordLE hk, bytesOf_getD (by omega), hd, hm, List.getD_eq_getElem _ _ h2]

theorem wordLE_append_left (h : j + 4 ≤ b.length) : wordLE (b ++ b') j = wordLE b j :=
  byteAt_ext fun i hi => by rw [byteAt_wordLE hi, byteAt_wordLE hi, List.getD_append _ _ _ _ (by omega)]

theorem wordLE_append_right (j : Nat) : wordLE (b ++ b') (b.length + j) = wordLE b' j :=
  byteAt_ext fun i hi => by
    rw [byteAt_wordLE hi, byteAt_wordLE hi, List.getD_append_right _ _ _ _ (by omega), Nat.add_assoc,
      Nat.add_sub_cancel_left]

theorem wordsOf_append (h : b.length % 4 = 0) : wordsOf (b ++ b') = wordsOf b ++ wordsOf b' := by
  have hlen : ((b ++ b').length + 3) / 4 = (b.length + 3) / 4 + (b'.length + 3) / 4 := by
    rw [List.length_append]
    omega
  refine List.ext_getElem (by rw [List.length_append, wordsOf_length, wordsOf_length, wordsOf_length, hlen]) fun i h1 h2 => ?_
  rw [wordsOf_getElem]
  by_cases hi : i < (wordsOf b).length
  · rw [List.getElem_append_left hi, wordsOf_getElem]
    rw [wordsOf_length] at hi
    exact wordLE_append_left (by omega)
  · rw [List.getElem_append_right (Nat.le_of_not_lt hi), wordsOf_getElem]
    rw [wordsOf_length] at hi ⊢
    rw [show 4 * i = b.length + 4 * (i - (b.length + 3) / 4) by omega, wordLE_append_right]

theorem bytesOf_append (l l' : List Word) : bytesOf (l ++ l') = bytesOf l ++ bytesOf l' := by
  have hlen : (bytesOf l ++ bytesOf l').length % 4 = 0 := by
    rw [List.length_append, bytesOf_length, bytesOf_length]
    omega
  rw [← bytesOf_wordsOf hlen, wordsOf_append (by rw [bytesOf_length]; omega), wordsOf_bytesOf, wordsOf_bytesOf]

/-! ## Strings in a memory of words -/

/-- The string, of whole words, is in `m` from word `p` on. -/
def Stored (m : Nat → Word) (p : Nat) (b : Bytes) : Prop := ∀ i < b.length / 4, m (p + i) = wordLE b (4 * i)

variable {m : Nat → Word}

theorem stored_append (h : b.length % 4 = 0) :
    Stored m p (b ++ b') ↔ Stored m p b ∧ Stored m (p + b.length / 4) b' := by
  have hright : ∀ i, wordLE (b ++ b') (4 * (b.length / 4 + i)) = wordLE b' (4 * i) := fun i => by
    rw [show 4 * (b.length / 4 + i) = b.length + 4 * i by omega, wordLE_append_right]
  constructor
  · intro hs
    refine ⟨fun i hi => ?_, fun i hi => ?_⟩
    · rw [hs i (by rw [List.length_append]; omega), wordLE_append_left (by omega)]
    · rw [Nat.add_assoc, hs (b.length / 4 + i) (by rw [List.length_append]; omega), hright]
  · rintro ⟨hl, hr⟩ i hi
    rw [List.length_append] at hi
    by_cases hlt : i < b.length / 4
    · rw [hl i hlt, wordLE_append_left (by omega)]
    · obtain ⟨k, rfl⟩ := Nat.exists_eq_add_of_le (Nat.le_of_not_lt hlt)
      rw [← Nat.add_assoc, hr k (by omega), hright]

theorem stored_iff_cells (h : b.length % 4 = 0) : Stored m p b ↔ Copy.cells m p (b.length / 4) = wordsOf b := by
  have hlen : (b.length + 3) / 4 = b.length / 4 := by omega
  constructor
  · intro hs
    refine List.ext_getElem (by rw [Copy.cells_length, wordsOf_length, hlen]) fun i h1 h2 => ?_
    rw [Copy.cells_length] at h1
    rw [Copy.cells_getElem, wordsOf_getElem, hs i h1]
  · intro hs i hi
    have h1 : i < (Copy.cells m p (b.length / 4)).length := by rwa [Copy.cells_length]
    have h2 : i < (wordsOf b).length := by rwa [wordsOf_length, hlen]
    rw [← Copy.cells_getElem h1, ← wordsOf_getElem h2]
    simp only [hs]

end Words
