/-
A load that ends in a fault of the code's own, and the image it leaves.

Only the way through to the jump copies the image back. A fault before the
decryption leaves it as the copy aside left it, a fault after it leaves it
decrypted: `fault_keeps_image_iff` says when that is the image as it was.
-/
import Memclave.Coverage

namespace Memclave.Loader

open Words Exec Copy

/-- Word `j` of an image of `n` words at word `p`, after the copy aside. An image
above the slot that is longer than the way between the two is overwritten. -/
def pushedWord (m : Nat → Word) (p n j : Nat) : Word :=
  if slot ≤ p ∧ p + j < slot + n then m (p + j + (p - slot)) else m (p + j)

/-- The word of the key stream that `ime_decrypt_verify` puts on word `j`. -/
def appliedWord (c : Crypto) (key : Fin 8 → Word) (h : Header) (j : Nat) : Word :=
  if 16 * (h.sizeAad.toNat / 64) ≤ j ∧ j < 16 * (h.size.toNat / 64) then
    keystream c key h.iv (h.sizeAad.toNat / 64) j
  else 0

variable {c : Crypto} {f : Frames} {sk tag key wipe : Word} {s s' : St} {e : Fault}

/-- A copy that comes to its end has read the size from the header. -/
theorem push_sizeAt {m : Nat → Word} {r1 : Word} (h : SkCopyOk m sk r1) :
    sizeAt m sk = (headerAt m (mramAt sk)).size := by
  obtain ⟨-, hpos, hmod, hin, -⟩ := h
  have hw : mramWords = 2 ^ 24 := rfl
  have h32 : mramAt (sk + 0x20) = mramAt sk + 8 := mramAt_add (i := 4) (by
    unfold InMram at hin
    omega)
  rw [sizeAt, h32]
  rfl

/-- The copy aside, read back from where the image was. -/
theorem fwd_pushed {m : Nat → Word} {p q n l j : Nat} (hq : p + n ≤ q ∨ q + l ≤ p) (hl : 0 < l) (hj : j < n) :
    fwd m p q n (p + j) = if q ≤ p ∧ p + j < q + n then m (p + j + (p - q)) else m (p + j) := by
  cases hq with
  | inl hq => rw [fwd_out (.inl (by omega)), if_neg (by omega)]
  | inr hq =>
    rw [fwd_eq _ (.inl (by omega))]
    by_cases hc : p + j < q + n
    · rw [blit_in (by omega) hc, if_pos ⟨by omega, hc⟩]
      congr 1
      omega
    · rw [blit_out (.inr (by omega)), if_neg (by omega)]

theorem copySk_word (h : SkCopyOk s.mram sk scratchA)
    (hdisj : mramAt sk + (headerAt s.mram (mramAt sk)).size.toNat / 4 ≤ slot ∨ slot + 2 ^ 15 ≤ mramAt sk)
    {j : Nat} (hj : j < (headerAt s.mram (mramAt sk)).size.toNat / 4) :
    copySk s.mram sk scratchA (mramAt sk + j) =
      pushedWord s.mram (mramAt sk) ((headerAt s.mram (mramAt sk)).size.toNat / 4) j := by
  rw [copySk, push_sizeAt h, mramAt_scratchA]
  exact fwd_pushed hdisj (by decide) hj

theorem plainMram_word (j : Nat) :
    plainMram c f sk key wipe s (mramAt sk + j) =
      copySk s.mram sk scratchA (mramAt sk + j) ^^^
        appliedWord c (loadKey f sk key wipe s) (verifiedHeader sk s) j := by
  rw [plainMram, decryptSk, appliedWord, decrypted, Nat.add_sub_cancel_left]
  by_cases h : 16 * ((verifiedHeader sk s).sizeAad.toNat / 64) ≤ j ∧ j < 16 * ((verifiedHeader sk s).size.toNat / 64)
  · rw [if_pos h, if_pos (by unfold verifiedHeader at h; omega)]
    rfl
  · rw [if_neg h, if_neg (by unfold verifiedHeader at h; omega)]
    exact BitVec.xor_zero.symm

/-- When a load that ends in a fault leaves the image as it was: it stops at a
running thread, before all else; or it stops before the decryption, and the
copy aside did not change the image; or what the decryption did to it is
nothing. -/
def FaultKeeps (c : Crypto) (f : Frames) (sk tag key wipe : Word) (s : St) : Prop :=
  let n := (headerAt s.mram (mramAt sk)).size.toNat / 4
  ThreadRuns s ∨
    (¬ Reached c f sk tag key wipe s ∧
      ∀ j < n, pushedWord s.mram (mramAt sk) n j = s.mram (mramAt sk + j)) ∨
    (Reached c f sk tag key wipe s ∧ ∀ j < n, pushedWord s.mram (mramAt sk) n j ^^^
      appliedWord c (loadKey f sk key wipe s) (verifiedHeader sk s) j = s.mram (mramAt sk + j))

/-- **What a fault leaves of the image.** For an image that lies clear of the
slot, a load that ends in `ime_sec_fault` or `ime_sanity_fault` leaves all its
words as they were if and only if `FaultKeeps`. -/
theorem fault_keeps_image_iff (hrun : imeReplaceSk c f sk tag key wipe s = .error e s') (he : e ≠ .mem)
    (hdisj : mramAt sk + (headerAt s.mram (mramAt sk)).size.toNat / 4 ≤ slot ∨ slot + 2 ^ 15 ≤ mramAt sk) :
    (∀ j < (headerAt s.mram (mramAt sk)).size.toNat / 4, s'.mram (mramAt sk + j) = s.mram (mramAt sk + j)) ↔
      FaultKeeps c f sk tag key wipe s := by
  obtain ⟨-, hfault⟩ := (imeReplaceSk_spec c f sk tag key wipe s).error hrun
  rcases hfault with ⟨hmem, -⟩ | ⟨-, ⟨ht, hm⟩ | ⟨ht, hp, hn, hm⟩ | ⟨hr, hm⟩⟩
  · exact (he hmem).elim
  · exact iff_of_true (fun j _ => by rw [hm]) (.inl ht)
  · have hword : ∀ j < (headerAt s.mram (mramAt sk)).size.toNat / 4, s'.mram (mramAt sk + j) =
        pushedWord s.mram (mramAt sk) ((headerAt s.mram (mramAt sk)).size.toNat / 4) j := fun j hj => by
      rw [hm, copySk_word hp hdisj hj]
    constructor
    · exact fun h => .inr (.inl ⟨hn, fun j hj => by rw [← hword j hj, h j hj]⟩)
    · rintro (h | ⟨-, h⟩ | ⟨h, -⟩)
      exacts [(ht h).elim, fun j hj => by rw [hword j hj, h j hj], (hn h).elim]
  · have hword : ∀ j < (headerAt s.mram (mramAt sk)).size.toNat / 4, s'.mram (mramAt sk + j) =
        pushedWord s.mram (mramAt sk) ((headerAt s.mram (mramAt sk)).size.toNat / 4) j ^^^
          appliedWord c (loadKey f sk key wipe s) (verifiedHeader sk s) j := fun j hj => by
      rw [hm, plainMram_word, copySk_word hr.push hdisj hj]
    constructor
    · exact fun h => .inr (.inr ⟨hr, fun j hj => by rw [← hword j hj, h j hj]⟩)
    · rintro (h | ⟨h, -⟩ | ⟨-, h⟩)
      exacts [(hr.threads h).elim, (h hr).elim, fun j hj => by rw [hword j hj, h j hj]]

/-- Up to the size of the slot the copy aside changes nothing of the image: then
it is the decryption alone. -/
theorem faultKeeps_small
    (hdisj : mramAt sk + (headerAt s.mram (mramAt sk)).size.toNat / 4 ≤ slot ∨ slot + 2 ^ 15 ≤ mramAt sk)
    (hsize : (headerAt s.mram (mramAt sk)).size.toNat / 4 ≤ 2 ^ 15) :
    FaultKeeps c f sk tag key wipe s ↔ ThreadRuns s ∨ ¬ Reached c f sk tag key wipe s ∨
      ∀ j < (headerAt s.mram (mramAt sk)).size.toNat / 4,
        appliedWord c (loadKey f sk key wipe s) (verifiedHeader sk s) j = 0 := by
  have hp : ∀ j, pushedWord s.mram (mramAt sk) ((headerAt s.mram (mramAt sk)).size.toNat / 4) j =
      s.mram (mramAt sk + j) := fun j => if_neg (by omega)
  unfold FaultKeeps
  simp only [hp, xor_eq_left, implies_true, and_true]
  refine or_congr_right ⟨?_, ?_⟩
  · rintro (h | ⟨-, h⟩)
    exacts [.inl h, .inr h]
  · intro h
    cases h with
    | inl h => exact .inl h
    | inr h => exact (em (Reached c f sk tag key wipe s)).symm.imp id fun hr => ⟨hr, h⟩

/-! ## Loads that fail -/

/-- A subkernel at 0 with no text and one block encrypted. -/
def emptyImage : Nat → Word := imageAt 0 0xA5A5A5A5 64 128 0 0

/-- With the tag it takes to get past the verification. -/
def emptyText : St := started (sealSk core (fun _ => 0) emptyImage 0)

/-- A memory with this header at 0, whatever the tag. -/
structure EmptyAt (m : Nat → Word) : Prop where
  iv : (headerAt m (mramAt 0)).iv = fun _ => 0
  sizeAad : (headerAt m (mramAt 0)).sizeAad = 64
  size : (headerAt m (mramAt 0)).size = 128
  textSize : (headerAt m (mramAt 0)).textSize = 0
  dataSize : (headerAt m (mramAt 0)).dataSize = 0

theorem emptyAt_image : EmptyAt emptyImage := by
  constructor <;> rw [mramAt_zero, emptyImage, headerAt_image]

theorem emptyAt_text : EmptyAt emptyText.mram := by
  have h : headerAt emptyText.mram 0 = { headerAt emptyImage 0 with
      tag := macOf core (fun _ => 0) emptyImage 0 } := headerAt_seal
  constructor <;> rw [mramAt_zero, h, emptyImage, headerAt_image]

variable {m : Nat → Word}

theorem EmptyAt.apart (h : EmptyAt m) : Apart m 0 32 := by
  refine ⟨by decide, by decide, ?_, ?_, ?_, ?_, ?_⟩ <;> rw [h.size]
  · decide
  · decide
  · decide
  · rw [slot]
    decide
  · rw [slot, mramAt_zero]
    decide

theorem EmptyAt.below (h : EmptyAt m) : mramAt 0 + (headerAt m (mramAt 0)).size.toNat / 4 ≤ slot := by
  rw [h.size, slot, mramAt_zero]
  decide

theorem EmptyAt.fedEnd_le (h : EmptyAt m) : 4 * fedEnd (headerAt m (mramAt 0)) ≤ 32 := by
  rw [fedEnd, h.sizeAad, h.size]
  decide

/-- No section of text is a fault, and comes to light last. -/
theorem EmptyAt.faults (h : EmptyAt m) :
    ∃ e s', imeReplaceSk core noFrames 0 0 0 0 (started m) = .error e s' ∧ e ≠ .mem := by
  have hk : Kept (started m).mram 0 32 := h.apart.kept
  have hplain : headerAt (plainMram core noFrames 0 0 0 (started m)) (mramAt 0) = headerAt m (mramAt 0) :=
    hk.plainHeader (by
      show 64 ≤ (headerAt m (mramAt 0)).sizeAad.toNat
      rw [h.sizeAad]
      decide)
  have hrange : LoadRange core noFrames 0 0 0 0 (started m) := by
    refine ⟨wipeOk_zero, hk.push, hk.decryptRange (chachaOk_started (by decide)) h.fedEnd_le, ?_, ?_, ?_,
      h.apart.pop (s := started m) ?_⟩
    · rw [textLen, hplain, h.textSize]
      decide
    · rw [hplain, h.dataSize]
      exact fun h0 => absurd h0 (by decide)
    · rw [hplain, h.textSize]
      exact fun h0 => absurd h0 (by decide)
    · show 64 ≤ (headerAt m (mramAt 0)).size.toNat
      rw [h.size]
      decide
  cases hrun : imeReplaceSk core noFrames 0 0 0 0 (started m) with
  | ok a s' =>
    have hlo := ((imeReplaceSk_spec ..).ok hrun).1.iram.lo
    rw [hplain, h.textSize] at hlo
    exact absurd hlo (by decide)
  | error e s' =>
    refine ⟨e, s', rfl, fun he => ?_⟩
    rcases ((imeReplaceSk_spec ..).error hrun).2 with ⟨-, hn⟩ | ⟨hn, -⟩
    exacts [hn hrange, hn he]

/-- A block of key stream is left on the image. -/
theorem fault_leaves_plain : ∃ e s', imeReplaceSk core noFrames 0 0 0 0 emptyText = .error e s' ∧ e ≠ .mem ∧
    mramAt 0 + (headerAt emptyText.mram (mramAt 0)).size.toNat / 4 ≤ slot ∧
    ∃ j < (headerAt emptyText.mram (mramAt 0)).size.toNat / 4,
      s'.mram (mramAt 0 + j) ≠ emptyText.mram (mramAt 0 + j) := by
  have hk : Kept emptyText.mram 0 32 := emptyAt_text.apart.kept
  obtain ⟨e, s', hrun, he⟩ := emptyAt_text.faults
  have hr : Reached core noFrames 0 0 0 0 emptyText := by
    refine hk.reached not_threadRuns_started rfl wipeOk_zero (chachaOk_started (by decide))
      emptyAt_text.fedEnd_le ?_
    rw [mramAt_zero]
    refine macOf_seal ?_
    rw [emptyImage, headerAt_image]
    decide
  have hm : s'.mram = plainMram core noFrames 0 0 0 emptyText := by
    rcases ((imeReplaceSk_spec ..).error hrun).2 with ⟨hmem, -⟩ | ⟨-, ⟨hn, -⟩ | ⟨-, -, hn, -⟩ | ⟨-, hm⟩⟩
    exacts [(he hmem).elim, (not_threadRuns_started hn).elim, (hn hr).elim, hm]
  refine ⟨e, s', hrun, he, emptyAt_text.below, 16, ?_, ?_⟩
  · rw [emptyAt_text.size]
    decide
  · have hz : emptyText.mram (mramAt 0 + 16) = 0 := by
      rw [mramAt_zero]
      show sealSk core (fun _ => 0) emptyImage 0 16 = 0
      rw [sealSk_out (.inr (by decide))]
      rfl
    have hks : keystream core (fun _ => 0) (fun _ => 0) 1 16 ≠ 0 := by decide +kernel
    rw [hm, hk.plain (by omega) (by omega), decryptSk, emptyAt_text.sizeAad, emptyAt_text.size, emptyAt_text.iv,
      decrypted, if_pos (by decide), hz, Nat.add_sub_cancel_left]
    exact fun h => hks (BitVec.zero_xor.symm.trans h)

/-- Without its tag it does not get that far, and stays as it is. -/
theorem fault_keeps_untagged : ∃ e s', imeReplaceSk core noFrames 0 0 0 0 (started emptyImage) = .error e s' ∧
    ∀ j < (headerAt emptyImage (mramAt 0)).size.toNat / 4, s'.mram (mramAt 0 + j) = emptyImage (mramAt 0 + j) := by
  obtain ⟨e, s', hrun, he⟩ := emptyAt_image.faults
  have hk : Kept (started emptyImage).mram 0 32 := emptyAt_image.apart.kept
  have hmac : macOf core (fun _ => 0) emptyImage 0 ≠ (headerAt emptyImage 0).tag := fun h => by
    have h0 := congrFun h 0
    revert h0
    decide +kernel
  refine ⟨e, s', hrun, (fault_keeps_image_iff hrun he (.inl emptyAt_image.below)).mpr
    ((faultKeeps_small (.inl emptyAt_image.below) ?_).mpr (.inr (.inl fun hr => hmac ?_)))⟩
  · show (headerAt emptyImage (mramAt 0)).size.toNat / 4 ≤ 2 ^ 15
    rw [emptyAt_image.size]
    decide
  · have h := hr.decrypt.mac
    rw [← mramAt_zero]
    exact (hk.macOf emptyAt_image.fedEnd_le _).symm.trans (h.trans (congrArg Header.tag hk.pushedHeader))

end Memclave.Loader
