/-
The AEAD construction of RFC 8439 on byte strings of any length, over the
block function and the MAC of a `Suite`.

A text opens to another exactly if that one was sealed (`unsealBytes_iff`).
On strings of whole words both are those of `Aead` on rows of words
(`cryptBytes_bytesOf`, `tagBytes_eq`).
-/
import Memclave.Lib.Aead
import Memclave.Lib.Bytes

namespace Aead

open Words

variable {S : Suite} {key nonce aad text ct tag : Bytes}

def keyWords (key : Bytes) (i : Fin 8) : Word := wordLE key (4 * i)

def nonceWords (nonce : Bytes) (i : Fin 3) : Word := wordLE nonce (4 * i)

/-- Byte `j` of the key stream that begins with block 1. -/
def Suite.streamByte (S : Suite) (key nonce : Bytes) (j : Nat) : Byte :=
  byteAt (S.stream (keyWords key) 1 (nonceWords nonce) (j / 4)) (j % 4)

def Suite.cryptBytes (S : Suite) (key nonce text : Bytes) : Bytes :=
  text.mapIdx fun j x => x ^^^ S.streamByte key nonce j

/-- Both parts are padded to whole blocks. -/
def Suite.tagBytes (S : Suite) (key nonce aad ct : Bytes) : Bytes :=
  bytesOf (List.ofFn (S.mac (S.oneTimeKey (keyWords key) (nonceWords nonce))
    (blocks (wordsOf aad) ++ blocks (wordsOf ct) ++ [lengths aad.length ct.length])))

def Suite.sealBytes (S : Suite) (key nonce aad text : Bytes) : Bytes × Bytes :=
  (S.cryptBytes key nonce text, S.tagBytes key nonce aad (S.cryptBytes key nonce text))

def Suite.unsealBytes (S : Suite) (key nonce aad ct tag : Bytes) : Option Bytes :=
  if S.tagBytes key nonce aad ct = tag then some (S.cryptBytes key nonce ct) else none

@[simp] theorem cryptBytes_length : (S.cryptBytes key nonce text).length = text.length := List.length_mapIdx

@[simp] theorem tagBytes_length : (S.tagBytes key nonce aad ct).length = 16 := by
  rw [Suite.tagBytes, bytesOf_length, List.length_ofFn]

theorem cryptBytes_cryptBytes : S.cryptBytes key nonce (S.cryptBytes key nonce text) = text := by
  refine List.ext_getElem (by simp) fun j h1 h2 => ?_
  simp only [Suite.cryptBytes, List.getElem_mapIdx]
  rw [BitVec.xor_assoc, BitVec.xor_self]
  exact BitVec.xor_zero

/-- **A ciphertext with its tag opens to the text that was sealed**, and to
no other. -/
theorem unsealBytes_iff :
    S.unsealBytes key nonce aad ct tag = some text ↔ S.sealBytes key nonce aad text = (ct, tag) := by
  rw [Suite.unsealBytes, Suite.sealBytes, Prod.mk.injEq]
  constructor
  · intro h
    split at h
    next ht =>
      obtain rfl := Option.some.inj h
      rw [cryptBytes_cryptBytes]
      exact ⟨rfl, ht⟩
    next => exact absurd h (by simp)
  · rintro ⟨rfl, rfl⟩
    rw [if_pos rfl, cryptBytes_cryptBytes]

/-! ## Strings of whole words -/

theorem byteAt_xor (x y : Word) (i : Nat) : byteAt (x ^^^ y) i = byteAt x i ^^^ byteAt y i := BitVec.extractLsb'_xor

theorem cryptBytes_bytesOf {l : List Word} :
    S.cryptBytes key nonce (bytesOf l) = bytesOf (S.crypt (keyWords key) 1 (nonceWords nonce) l) := by
  refine List.ext_getElem (by simp [crypt_length]) fun j h1 h2 => ?_
  have hj : j < 4 * l.length := by simpa using h1
  have hd : j / 4 < l.length := by omega
  simp only [Suite.cryptBytes, List.getElem_mapIdx]
  rw [bytesOf_getElem, bytesOf_getElem, List.getD_eq_getElem _ _ hd, List.getD_eq_getElem _ _ (by rwa [crypt_length]),
    crypt_getElem hd, byteAt_xor, Suite.streamByte]

theorem tagBytes_eq (ha : aad.length % 4 = 0) (hc : ct.length % 4 = 0) : S.tagBytes key nonce aad ct =
    bytesOf (List.ofFn (S.tag (keyWords key) (nonceWords nonce) (wordsOf aad) (wordsOf ct))) := by
  have h4 : ∀ b : Bytes, b.length % 4 = 0 → 4 * (wordsOf b).length = b.length := fun b hb => by
    rw [wordsOf_length]
    omega
  rw [Suite.tagBytes, Suite.tag, macInput, h4 aad ha, h4 ct hc]

/-- The tag's words. -/
theorem tagBytes_word (ha : aad.length % 4 = 0) (hc : ct.length % 4 = 0) (i : Fin 4) :
    wordLE (S.tagBytes key nonce aad ct) (4 * i) =
      S.tag (keyWords key) (nonceWords nonce) (wordsOf aad) (wordsOf ct) i := by
  have hget : (wordsOf (S.tagBytes key nonce aad ct)).getD i 0 = wordLE (S.tagBytes key nonce aad ct) (4 * i) :=
    wordsOf_getD (by rw [tagBytes_length]; omega)
  rw [← hget, tagBytes_eq ha hc, wordsOf_bytesOf, List.getD_eq_getElem _ _ (by rw [List.length_ofFn]; exact i.isLt),
    List.getElem_ofFn]

end Aead
