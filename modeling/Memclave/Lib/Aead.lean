/-
The AEAD construction of RFC 8439, section 2.8, over any block function and
any MAC of 16-byte blocks, on texts of whole words.

Texts are rows of words. A word of the stream cipher depends on its place
alone (`crypt_getElem`), and encrypting twice is the identity
(`crypt_crypt`). The MAC's input of rows of whole blocks is one block after
the other (`blocks_append`).
-/
import Memclave.Lib.Words
import Memclave.Lib.Copy

namespace Aead

open Words Copy

structure Suite where
  /-- the block function, on a key, a counter and a nonce -/
  block : (Fin 8 → Word) → Word → (Fin 3 → Word) → Fin 16 → Word
  /-- the MAC of a list of blocks under a one-time key -/
  mac : (Fin 8 → Word) → List (Fin 4 → Word) → Fin 4 → Word

variable {S : Suite} {key : Fin 8 → Word} {iv : Fin 3 → Word}

/-! ## The stream cipher -/

/-- Word `j` of the key stream that begins with block `ctr`. -/
def Suite.stream (S : Suite) (key : Fin 8 → Word) (ctr : Nat) (iv : Fin 3 → Word) (j : Nat) : Word :=
  S.block key (BitVec.ofNat 32 (ctr + j / 16)) iv ⟨j % 16, mod_sixteen_lt j⟩

def Suite.crypt (S : Suite) (key : Fin 8 → Word) (ctr : Nat) (iv : Fin 3 → Word) (l : List Word) : List Word :=
  l.mapIdx fun j w => w ^^^ S.stream key ctr iv j

theorem crypt_length {ctr : Nat} {l : List Word} : (S.crypt key ctr iv l).length = l.length := List.length_mapIdx

theorem crypt_getElem {ctr j : Nat} {l : List Word} (hl : j < l.length) (h : j < (S.crypt key ctr iv l).length) :
    (S.crypt key ctr iv l)[j] = l[j] ^^^ S.stream key ctr iv j := List.getElem_mapIdx

theorem xor_xor (x y : Word) : x ^^^ y ^^^ y = x := by
  rw [BitVec.xor_assoc, BitVec.xor_self]
  exact BitVec.xor_zero

theorem crypt_crypt {ctr : Nat} {l : List Word} : S.crypt key ctr iv (S.crypt key ctr iv l) = l := by
  refine List.ext_getElem (by rw [crypt_length, crypt_length]) fun j h1 h2 => ?_
  have h3 : j < (S.crypt key ctr iv l).length := by rwa [crypt_length]
  rw [crypt_getElem h3, crypt_getElem h2, xor_xor]

/-- A text is not changed if and only if the key stream on it is zero. -/
theorem crypt_eq_self {ctr : Nat} {l : List Word} :
    S.crypt key ctr iv l = l ↔ ∀ j < l.length, S.stream key ctr iv j = 0 := by
  constructor
  · intro h j hj
    have hlen : j < (S.crypt key ctr iv l).length := by rwa [crypt_length]
    have hget : (S.crypt key ctr iv l)[j] = l[j] := by simp only [h]
    rw [crypt_getElem hj] at hget
    exact xor_eq_left.mp hget
  · intro h
    refine List.ext_getElem crypt_length fun j h1 h2 => ?_
    rw [crypt_getElem h2, h j h2]
    exact BitVec.xor_zero

/-! ## The MAC -/

/-- A row of words as 16-byte blocks, the last one padded with zeros. -/
def blocks (l : List Word) : List (Fin 4 → Word) :=
  (List.range ((l.length + 3) / 4)).map fun i j => l.getD (4 * i + j) 0

theorem blocks_append {l l' : List Word} (h : l.length % 4 = 0) : blocks (l ++ l') = blocks l ++ blocks l' := by
  have hlen : ((l ++ l').length + 3) / 4 = (l.length + 3) / 4 + (l'.length + 3) / 4 := by
    rw [List.length_append]
    omega
  rw [blocks, hlen, List.range_add, List.map_append, List.map_map]
  refine congrArg₂ (· ++ ·) (List.map_congr_left fun i hi => funext fun j => ?_)
    (List.map_congr_left fun i _ => funext fun j => ?_)
  · have := List.mem_range.mp hi
    have := j.isLt
    rw [List.getD_append _ _ _ _ (by omega)]
  · rw [Function.comp_apply, List.getD_append_right _ _ _ _ (by omega)]
    congr 1
    omega

/-- The blocks of a row of whole blocks that stands in a memory. -/
theorem blocks_cells {m : Nat → Word} {p n : Nat} :
    blocks (cells m p (4 * n)) = (List.range n).map fun i (j : Fin 4) => m (p + 4 * i + j) := by
  rw [blocks, cells_length, show (4 * n + 3) / 4 = n by omega]
  refine List.map_congr_left fun i hi => funext fun j => ?_
  have := List.mem_range.mp hi
  have hlt : 4 * i + j < (cells m p (4 * n)).length := by
    rw [cells_length]
    omega
  rw [List.getD_eq_getElem _ _ hlt, cells_getElem, Nat.add_assoc]

/-- Two lengths in bytes, as 8 bytes each. -/
def lengths (aad text : Nat) : Fin 4 → Word :=
  ![BitVec.ofNat 32 aad, BitVec.ofNat 32 (aad / 2 ^ 32), BitVec.ofNat 32 text, BitVec.ofNat 32 (text / 2 ^ 32)]

/-- The MAC's input: the additional data, the ciphertext and their lengths. -/
def macInput (aad ct : List Word) : List (Fin 4 → Word) :=
  blocks aad ++ blocks ct ++ [lengths (4 * aad.length) (4 * ct.length)]

/-- The one-time key: the first half of block 0. -/
def Suite.oneTimeKey (S : Suite) (key : Fin 8 → Word) (iv : Fin 3 → Word) : Fin 8 → Word :=
  fun i => S.block key 0 iv ⟨i, lt_sixteen i⟩

def Suite.tag (S : Suite) (key : Fin 8 → Word) (iv : Fin 3 → Word) (aad ct : List Word) : Fin 4 → Word :=
  S.mac (S.oneTimeKey key iv) (macInput aad ct)

/-! ## Both together -/

/-- Ciphertext and tag of a text with additional data. -/
def Suite.seal (S : Suite) (key : Fin 8 → Word) (iv : Fin 3 → Word) (aad text : List Word) :
    List Word × (Fin 4 → Word) :=
  (S.crypt key 1 iv text, S.tag key iv aad (S.crypt key 1 iv text))

/-- The text of a ciphertext that has the tag given. -/
def Suite.unseal (S : Suite) (key : Fin 8 → Word) (iv : Fin 3 → Word) (aad ct : List Word) (tag : Fin 4 → Word) :
    Option (List Word) :=
  if ∀ i, S.tag key iv aad ct i = tag i then some (S.crypt key 1 iv ct) else none

theorem unseal_seal {aad text : List Word} :
    S.unseal key iv aad (S.seal key iv aad text).1 (S.seal key iv aad text).2 = some text :=
  (if_pos fun _ => rfl).trans (congrArg some crypt_crypt)

theorem unseal_eq_some {aad ct text : List Word} {tag : Fin 4 → Word} :
    S.unseal key iv aad ct tag = some text ↔ S.tag key iv aad ct = tag ∧ S.crypt key 1 iv ct = text := by
  rw [Suite.unseal]
  constructor
  · intro h
    split at h
    next ht => exact ⟨funext ht, Option.some.inj h⟩
    · cases h
  · intro h
    rw [if_pos (congrFun h.1), h.2]

theorem unseal_eq_none {aad ct : List Word} {tag : Fin 4 → Word} :
    S.unseal key iv aad ct tag = none ↔ S.tag key iv aad ct ≠ tag := by
  rw [Option.eq_none_iff_forall_ne_some]
  constructor
  · intro h ht
    exact h _ (unseal_eq_some.mpr ⟨ht, rfl⟩)
  · intro h text ht
    exact h (unseal_eq_some.mp ht).1

end Aead
