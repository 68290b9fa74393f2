/-
The cryptography the core is built with, and subkernels to load: a header and
a body of zeros at any place, with the tag that the loader computes put into
the header (`sealSk`), in the memory of a DPU that has just been started.
-/
import Memclave.SafeLoad
import Memclave.Poly
import Memclave.Lib.ChaCha20

namespace Memclave.Loader

open Words

/-- `chacha.S` and `poly.c`. -/
def core : Crypto where
  Ctx := Poly.Context
  chachaBlk := ChaCha20.block
  polyInit := Poly.polyInit
  polyFeedBlock := Poly.polyFeedBlock
  polyFinalize ctx := (Poly.polyFinalize ctx).1

/-- A subkernel at word `p`, the iv and the body zero. -/
def imageAt (p : Nat) (magic size_aad size text_size data_size : Word) : Nat → Word := fun k =>
  if k = p then magic
  else if k = p + 8 then size_aad
  else if k = p + 9 then size
  else if k = p + 10 then text_size
  else if k = p + 11 then data_size
  else 0

/-- The same memory with the tag of the subkernel at `p` in its header. -/
def sealSk (c : Crypto) (key : Fin 8 → Word) (m : Nat → Word) (p : Nat) : Nat → Word :=
  put m (p + 1) (macOf c key m p)

/-- A DPU after its start: nothing runs, the system key is zero. -/
def started (m : Nat → Word) : St where
  mram := m
  wram _ := 0
  iram _ := 0
  id := 0
  running _ := false
  sysKey _ := 0
  trace := []

def noFrames : Frames := ⟨fun _ => 0, 0⟩

variable {c : Crypto} {key : Fin 8 → Word} {m : Nat → Word} {p n : Nat}

theorem sealSk_out {k : Nat} (h : k < p + 1 ∨ p + 5 ≤ k) : sealSk c key m p k = m k := dif_neg (by omega)

theorem headerAt_seal :
    headerAt (sealSk c key m p) p = { headerAt m p with tag := macOf c key m p } := by
  have out : ∀ i, i = 0 ∨ 5 ≤ i → sealSk c key m p (p + i) = m (p + i) := fun i hi => sealSk_out (by omega)
  have hin : ∀ i : Fin 4, sealSk c key m p (p + (i + 1)) = macOf c key m p i := fun i => by
    rw [sealSk, put, dif_pos (by omega)]
    congr 1
    exact Fin.ext (by show p + (i + 1) - (p + 1) = i; omega)
  have hiv : ∀ i : Fin 3, m (p + (i + 5)) = (headerAt m p).iv i := fun i => by
    obtain rfl | rfl | rfl : i = 0 ∨ i = 1 ∨ i = 2 := by omega
    · rfl
    · rfl
    · rfl
  exact headerAt_eq (out 0 (by decide)) hin (fun i => (out _ (by omega)).trans (hiv i)) (out 8 (by decide))
    (out 9 (by decide)) (out 10 (by decide)) (out 11 (by decide))

theorem headerAt_image {magic size_aad size text_size data_size : Word} :
    headerAt (imageAt p magic size_aad size text_size data_size) p =
      ⟨magic, fun _ => 0, fun _ => 0, size_aad, size, text_size, data_size⟩ := by
  have zero : ∀ i, 0 < i → i < 8 → imageAt p magic size_aad size text_size data_size (p + i) = 0 := fun i h0 h8 => by
    simp only [imageAt, show p + i ≠ p by omega, show p + i ≠ p + 8 by omega, show p + i ≠ p + 9 by omega,
      show p + i ≠ p + 10 by omega, show p + i ≠ p + 11 by omega, if_false]
  have hlast : ∀ i, 8 ≤ i → imageAt p magic size_aad size text_size data_size (p + i) =
      if i = 8 then size_aad else if i = 9 then size else if i = 10 then text_size
      else if i = 11 then data_size else 0 := fun i h8 => by
    simp only [imageAt, show p + i ≠ p by omega, if_false, Nat.add_left_cancel_iff]
  exact headerAt_eq (if_pos rfl) (fun i => zero _ (by omega) (by omega)) (fun i => zero _ (by omega) (by omega))
    (hlast 8 le_rfl) (hlast 9 (by decide)) (hlast 10 (by decide)) (hlast 11 (by decide))

/-- The tag is not among what it is the tag of, unless the authenticated
part ends before word 8. -/
theorem macBlocks_seal (h : 32 ≤ (headerAt m p).sizeAad.toNat) : macBlocks (sealSk c key m p) p = macBlocks m p := by
  have hchunks : ∀ a b, 2 ≤ a → chunksAt (sealSk c key m p) p a b = chunksAt m p a b := fun a b ha => by
    refine List.map_congr_left fun i hi => funext fun j => sealSk_out ?_
    have := List.mem_range'_1.mp hi
    omega
  rw [macBlocks, macBlocks, headerAt_seal]
  dsimp only
  rw [hchunks 2 _ le_rfl, hchunks _ _ (by omega)]

theorem macOf_seal (h : 32 ≤ (headerAt m p).sizeAad.toNat) :
    macOf c key (sealSk c key m p) p = (headerAt (sealSk c key m p) p).tag := by
  rw [headerAt_seal]
  show macOf c key (sealSk c key m p) p = macOf c key m p
  rw [macOf, macOf, macBlocks_seal h, headerAt_seal]

/-! ## Loads of a sealed subkernel -/

theorem not_threadRuns_started : ¬ ThreadRuns (started m) := fun h => Bool.false_ne_true h

theorem wipeOk_zero : WipeOk 0 := .inl (by decide)

theorem chachaOk_started {sk : Word} (h : InMram sk 16) : ChachaOk (started m) sk 0 := by
  rw [ChachaOk, if_neg (not_not.mpr rfl)]
  exact ⟨rfl, rfl, inMram_le h (by decide)⟩

theorem loadKey_started {f : Frames} {sk wipe : Word} : loadKey f sk 0 wipe (started m) = fun _ => 0 := rfl

/-- A subkernel at `sk`, sealed, with a body of zeros. -/
def zeroImage (sk size_aad size text_size data_size : Word) : St :=
  started (sealSk core (fun _ => 0) (imageAt (mramAt sk) 0xA5A5A5A5 size_aad size text_size data_size) (mramAt sk))

variable {sk size_aad size text_size data_size : Word}

theorem zeroImage_header : headerAt (zeroImage sk size_aad size text_size data_size).mram (mramAt sk) =
    ⟨0xA5A5A5A5, macOf core (fun _ => 0)
      (imageAt (mramAt sk) 0xA5A5A5A5 size_aad size text_size data_size) (mramAt sk),
      fun _ => 0, size_aad, size, text_size, data_size⟩ := by
  show headerAt (sealSk core _ _ _) _ = _
  rw [headerAt_seal, headerAt_image]

theorem zeroImage_body {k : Nat} (h : mramAt sk + 16 ≤ k) :
    (zeroImage sk size_aad size text_size data_size).mram k = 0 := by
  show sealSk core _ _ _ _ = 0
  rw [sealSk_out (.inr (by omega)), imageAt, if_neg (by omega), if_neg (by omega), if_neg (by omega),
    if_neg (by omega), if_neg (by omega)]

/-- It is decrypted if the copy aside keeps it. -/
theorem zeroImage_reached (hk : Kept (zeroImage sk size_aad size text_size data_size).mram sk n)
    (h64 : 64 ≤ size_aad.toNat) (hfed : max size_aad.toNat size.toNat / 4 ≤ n) :
    Reached core noFrames sk 0 0 0 (zeroImage sk size_aad size text_size data_size) := by
  refine hk.reached not_threadRuns_started rfl wipeOk_zero (chachaOk_started hk.inHeader) ?_ ?_
  · rw [zeroImage_header, fedEnd]
    dsimp only
    omega
  · refine macOf_seal ?_
    rw [headerAt_image]
    exact le_trans (by decide) h64

/-- It gets through to the jump if its text is not encrypted and the pop finds
a size. -/
theorem zeroImage_loadOk (hk : Kept (zeroImage sk size_aad size text_size data_size).mram sk n)
    (h64 : 64 ≤ size_aad.toNat) (hfed : max size_aad.toNat size.toNat / 4 ≤ n) (ht : 0 < text_size.toNat)
    (hroom : text_size.toNat ≤ 12) (hd : data_size.toNat ≤ 32)
    (hn : 16 + 512 * (text_size.toNat + data_size.toNat) ≤ n)
    (htext : size.toNat ≤ size_aad.toNat ∨ 64 + 2048 * text_size.toNat ≤ size_aad.toNat)
    (hpop : SkCopyOk (plainMram core noFrames sk 0 0 (zeroImage sk size_aad size text_size data_size)) scratchA sk) :
    LoadOk core noFrames sk 0 0 0 (zeroImage sk size_aad size text_size data_size) := by
  refine hk.loadOk (zeroImage_reached hk h64 hfed) ?_ ?_ ?_ ?_ ?_ ?_ ?_ hpop
  case refine_7 =>
    -- the text is clear of what is decrypted, and all zero
    intro x hx
    rw [decryptSk, textLen, zeroImage_header] at hx
    dsimp only at hx
    obtain ⟨i, hi, rfl⟩ := List.mem_map.mp hx
    have hi := List.mem_range.mp hi
    rw [instAt, decrypted_out (by omega), decrypted_out (by omega), zeroImage_body (by omega),
      zeroImage_body (by omega)]
    decide
  all_goals
    rw [zeroImage_header]
    try dsimp only
  all_goals assumption

/-- With one section of text and no data. -/
def textImage (sk size_aad size : Word) : St := zeroImage sk size_aad size 1 0

end Memclave.Loader
