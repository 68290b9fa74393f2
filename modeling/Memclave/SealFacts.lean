/-
What `ime_decrypt_verify` computes, as the AEAD of RFC 8439 over the core's own
block function and MAC: the tag it compares is the tag of the header and the
body (`macOf_tag`), and what it leaves is the decrypted text
(`decryptSk_cells`).
-/
import Memclave.SafeLoad
import Memclave.Lib.Aead

namespace Memclave.Loader

open Words Exec Copy Aead

/-- The block function and the MAC of the core. -/
def Crypto.suite (c : Crypto) : Suite where
  block := c.chachaBlk
  mac key bs := c.polyFinalize (bs.foldl c.polyFeedBlock (c.polyInit key))

/-- The additional data of a subkernel: its header without tag and iv, and the
part of the body that is only authenticated. -/
def aadOf (m : Nat → Word) (p : Nat) : List Word :=
  [0xA5A5A5A5, 0, 0, 0, 0, 0, 0, 0] ++ cells m (p + 8) ((headerAt m p).sizeAad.toNat / 4 - 8)

/-- The part that is encrypted. -/
def cipherOf (m : Nat → Word) (p : Nat) : List Word :=
  cells m (p + (headerAt m p).sizeAad.toNat / 4)
    ((headerAt m p).size.toNat / 4 - (headerAt m p).sizeAad.toNat / 4)

/-- Sizes of whole blocks, of a header and a body. -/
structure Sized (h : Header) : Prop where
  aad_mod : h.sizeAad.toNat % 64 = 0
  size_mod : h.size.toNat % 64 = 0
  aad_pos : 64 ≤ h.sizeAad.toNat
  aad_le : h.sizeAad.toNat ≤ h.size.toNat

variable {c : Crypto} {key : Fin 8 → Word} {m : Nat → Word} {p : Nat}

theorem chunksAt_blocks {a b : Nat} : chunksAt m p a b = blocks (cells m (p + 4 * a) (4 * (b - a))) := by
  rw [blocks_cells, chunksAt, List.range'_eq_map_range, List.map_map]
  refine List.map_congr_left fun i _ => funext fun j => ?_
  show m (p + 4 * (a + i) + j) = m (p + 4 * a + 4 * i + j)
  congr 1
  omega

/-- The blocks that are fed are the MAC's input of the RFC. -/
theorem macBlocks_input (h : Sized (headerAt m p)) : macBlocks m p = macInput (aadOf m p) (cipherOf m p) := by
  obtain ⟨ha, hs, h64, hle⟩ := h
  rw [macBlocks, macInput, aadOf, cipherOf]
  set h := headerAt m p
  have hfirst : blocks [0xA5A5A5A5, 0, 0, 0, 0, 0, 0, 0] = [![0xA5A5A5A5, 0, 0, 0], ![0, 0, 0, 0]] := by
    have h0 : ∀ j : Fin 4, [(0xA5A5A5A5 : Word), 0, 0, 0, 0, 0, 0, 0].getD (4 * 0 + j) 0 =
        ![0xA5A5A5A5, 0, 0, 0] j := by decide
    have h1 : ∀ j : Fin 4, [(0xA5A5A5A5 : Word), 0, 0, 0, 0, 0, 0, 0].getD (4 * 1 + j) 0 = ![0, 0, 0, 0] j := by decide
    exact congrArg₂ (fun a b => [a, b]) (funext h0) (funext h1)
  have hlen : lengths (4 * ([0xA5A5A5A5, 0, 0, 0, 0, 0, 0, 0] ++ cells m (p + 8) (h.sizeAad.toNat / 4 - 8)).length)
      (4 * (cells m (p + h.sizeAad.toNat / 4) (h.size.toNat / 4 - h.sizeAad.toNat / 4)).length) =
      ![h.sizeAad, 0, h.size - h.sizeAad, 0] := by
    have h1 := word_lt h.sizeAad
    have h2 := word_lt h.size
    rw [List.length_append, cells_length, cells_length, show [(0xA5A5A5A5 : Word), 0, 0, 0, 0, 0, 0, 0].length = 8 from rfl,
      show 4 * (8 + (h.sizeAad.toNat / 4 - 8)) = h.sizeAad.toNat by omega,
      show 4 * (h.size.toNat / 4 - h.sizeAad.toNat / 4) = h.size.toNat - h.sizeAad.toNat by omega, lengths,
      Nat.div_eq_of_lt h1, Nat.div_eq_of_lt (by omega), BitVec.ofNat_toNat, BitVec.setWidth_eq]
    have hsub : BitVec.ofNat 32 (h.size.toNat - h.sizeAad.toNat) = h.size - h.sizeAad :=
      BitVec.eq_of_toNat_eq (by rw [BitVec.toNat_ofNat, BitVec.toNat_sub]; omega)
    rw [hsub]
    rfl
  rw [hlen, blocks_append (by decide), hfirst, chunksAt_blocks, chunksAt_blocks,
    show 4 * (h.sizeAad.toNat / 16 - 2) = h.sizeAad.toNat / 4 - 8 by omega,
    show 4 * (h.sizeAad.toNat / 16) = h.sizeAad.toNat / 4 by omega,
    show 4 * (h.size.toNat / 16 - h.sizeAad.toNat / 16) = h.size.toNat / 4 - h.sizeAad.toNat / 4 by omega]
  simp only [List.cons_append, List.nil_append, List.append_assoc]

/-- **The tag that is compared is the RFC's.** -/
theorem macOf_tag (h : Sized (headerAt m p)) :
    macOf c key m p = c.suite.tag key (headerAt m p).iv (aadOf m p) (cipherOf m p) := by
  rw [macOf, macBlocks_input h]
  rfl

/-- **The text is decrypted as the RFC does.** -/
theorem decryptSk_cells (h : Sized (headerAt m p)) :
    cipherOf (decryptSk c key m p) p = c.suite.crypt key 1 (headerAt m p).iv (cipherOf m p) := by
  obtain ⟨ha, hs, h64, hle⟩ := h
  have hh : headerAt (decryptSk c key m p) p = headerAt m p := headerAt_congr fun k h1 h2 =>
    decrypted_out (by omega)
  rw [cipherOf, cipherOf, hh]
  set h := headerAt m p
  have hdec : decryptSk c key m p = decrypted c key h.iv m p (h.sizeAad.toNat / 64) (h.size.toNat / 64) := rfl
  refine List.ext_getElem (by rw [crypt_length, cells_length, cells_length]) fun j h1 h2 => ?_
  have hj : j < h.size.toNat / 4 - h.sizeAad.toNat / 4 := by rwa [cells_length] at h1
  have hlen : j < (cells m (p + h.sizeAad.toNat / 4) (h.size.toNat / 4 - h.sizeAad.toNat / 4)).length := by
    rwa [cells_length]
  rw [cells_getElem, crypt_getElem hlen, cells_getElem, hdec, decrypted, if_pos (by omega)]
  congr 1
  show c.chachaBlk key _ h.iv _ = c.chachaBlk key _ h.iv _
  have hd : (p + h.sizeAad.toNat / 4 + j - p) / 16 - h.sizeAad.toNat / 64 + 1 = 1 + j / 16 := by omega
  have hm : (p + h.sizeAad.toNat / 4 + j - p) % 16 = j % 16 := by omega
  rw [hd]
  exact congrArg _ (Fin.ext hm)

end Memclave.Loader
