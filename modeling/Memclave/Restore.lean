/-
What a load leaves of the image, wherever it lies. The copy aside, the
decryption in place and the copy back undo one another for an image clear of
the slot (`restoreOk_clear`); over the slot they do only for images and key
streams that hide it: `restored_iff`.
-/
import Memclave.Coverage

namespace Memclave.Loader

open Words Exec Copy

/-! ## Decrypting between a copy and the copy back -/

/-- The words from `a` on of the `n` from `p` on, with a key stream on them. -/
def mixed (ks : Nat → Word) (m : Nat → Word) (p a n : Nat) : Nat → Word :=
  fun k => if p + a ≤ k ∧ k < p + n then m k ^^^ ks (k - p) else m k

section

variable {m ks : Nat → Word} {p q a n : Nat}

theorem mixed_in {k : Nat} (h : p + a ≤ k) (h' : k < p + n) : mixed ks m p a n k = m k ^^^ ks (k - p) := if_pos ⟨h, h'⟩

theorem mixed_out {k : Nat} (h : k < p + a ∨ p + n ≤ k) : mixed ks m p a n k = m k := if_neg (by omega)

/-- The word of the size in the copy, 9 words into it. -/
def sizeWord (m : Nat → Word) (q : Nat) : Nat := (m (q + 9)).toNat / 4

/-- Word 9 of the copy is that of the image. -/
theorem blit_size (hn : 16 ≤ n) : blit m q m p n (q + 9) = m (p + 9) := by
  rw [blit_in (by omega) (by omega), Nat.add_sub_cancel_left]

/-- Up to the slot. What the key stream puts on the part of the image over the
slot is copied back over the image. -/
theorem back_below (hpq : p ≤ q) (hn : 16 ≤ n) (hsize : (m (p + 9)).toNat / 4 = n)
    (hkeep : ∀ j < n, blit m q m p n (p + j) = m (p + j)) :
    fwd (mixed ks (blit m q m p n) p a n) q p (sizeWord (mixed ks (blit m q m p n) p a n) q) = blit m q m p n ↔
      ∀ j, a ≤ j → q - p ≤ j → j < n → ks j = 0 := by
  set B := blit m q m p n with hB
  set M := mixed ks B p a n with hM
  obtain ⟨g, rfl⟩ := Nat.exists_eq_add_of_le hpq
  have hcopy : ∀ j < n, B (p + g + j) = B (p + j) := fun j hj => by
    rw [hkeep j hj, hB, blit_in (by omega) (by omega), Nat.add_sub_cancel_left]
  have hword : B (p + g + 9) = m (p + 9) := blit_size hn
  have hback : ∀ l j, fwd M (p + g) p l (p + j) = if j < l then M (p + g + j) else M (p + j) := fun l j => by
    rw [fwd_eq _ (.inl (Nat.le_add_right p g))]
    by_cases hj : j < l
    · rw [blit_in (by omega) (by omega), if_pos hj, Nat.add_sub_cancel_left]
    · rw [blit_out (by omega), if_neg hj]
  rw [Nat.add_sub_cancel_left]
  constructor
  · intro h j haj hgj hjn
    -- what stands at a place of the image after the copy back is what stood there before
    have hat : ∀ j, (if j < sizeWord M (p + g) then M (p + g + j) else M (p + j)) = B (p + j) := fun j => by
      rw [← hback, h]
    have hl : sizeWord M (p + g) = n := by
      by_cases hin : a ≤ g + 9 ∧ g + 9 < n
      · have hM9 : M (p + g + 9) = B (p + g + 9) ^^^ ks (g + 9) := by
          rw [hM, mixed_in (by omega) (by omega), Nat.add_assoc p, Nat.add_sub_cancel_left]
        have hz : ks (g + 9) = 0 := by
          by_cases h9 : 9 < sizeWord M (p + g)
          · have := hat 9
            rw [if_pos h9, hM9, hcopy 9 (by omega)] at this
            exact xor_eq_left.mp this
          · have := hat (g + 9)
            rw [if_neg (by omega), ← Nat.add_assoc, hM9] at this
            exact xor_eq_left.mp this
        rw [sizeWord, hM9, xor_eq_left.mpr hz, hword, hsize]
      · rw [sizeWord, hM, mixed_out (by omega), hword, hsize]
    obtain ⟨i, rfl⟩ := Nat.exists_eq_add_of_le hgj
    have := hat i
    rw [hl, if_pos (by omega), hM, mixed_in (by omega) (by omega), hcopy i (by omega), Nat.add_assoc p,
      Nat.add_sub_cancel_left] at this
    exact xor_eq_left.mp this
  · intro hz
    have hslot : ∀ j, M (p + g + j) = B (p + g + j) := fun j => by
      by_cases hin : a ≤ g + j ∧ g + j < n
      · rw [hM, mixed_in (by omega) (by omega), Nat.add_assoc p, Nat.add_sub_cancel_left,
          xor_eq_left.mpr (hz _ hin.1 (by omega) hin.2)]
      · rw [hM, mixed_out (by omega)]
    have hl : sizeWord M (p + g) = n := by rw [sizeWord, hslot, hword, hsize]
    funext k
    by_cases hk : p ≤ k
    · obtain ⟨j, rfl⟩ := Nat.exists_eq_add_of_le hk
      rw [hback, hl]
      by_cases hj : j < n
      · rw [if_pos hj, hslot, hcopy j hj]
      · rw [if_neg hj, hM, mixed_out (by omega)]
    · rw [fwd_out (by omega), hM, mixed_out (by omega)]

/-- The number of words the copy back takes its size to be, above the slot. -/
def poppedSize (ks : Nat → Word) (m : Nat → Word) (p a g : Nat) : Nat :=
  if a + g ≤ 9 then (m (p + 9) ^^^ ks (9 - g)).toNat / 4 else (m (p + 9)).toNat / 4

/-- Above the slot. What lies between the slot and the image is repeated over
the image, as far as the size found in the slot says. -/
theorem back_above (hpq : q < p) (hn : 16 ≤ n) (hsize : (m (p + 9)).toNat / 4 = n)
    (hkeep : ∀ j < n, blit m q m p n (p + j) = m (p + j)) :
    fwd (mixed ks (blit m q m p n) p a n) q p (sizeWord (mixed ks (blit m q m p n) p a n) q) = blit m q m p n ↔
      (∀ j, a ≤ j → poppedSize ks m p a (p - q) ≤ j → j < n → ks j = 0) ∧
        ∀ j, n ≤ j → j < poppedSize ks m p a (p - q) → m (p + j % (p - q)) = m (p + j) := by
  have hrep := blit_keeps_iff.mp hkeep
  set B := blit m q m p n with hB
  set M := mixed ks B p a n with hM
  obtain ⟨g, rfl⟩ := Nat.exists_eq_add_of_le hpq.le
  have hg : 0 < g := by omega
  rw [gap, show q + g - q + (q - (q + g)) = g by omega] at hrep
  rw [show q + g - q = g by omega]
  have hword : B (q + 9) = m (q + g + 9) := blit_size hn
  have hl : sizeWord M q = poppedSize ks m (q + g) a g := by
    rw [sizeWord, poppedSize]
    by_cases h9 : a + g ≤ 9
    · rw [if_pos h9, hM, mixed_in (by omega) (by omega), hword, show q + 9 - (q + g) = 9 - g by omega]
    · rw [if_neg h9, hM, mixed_out (by omega), hword]
  rw [hl]
  set l := poppedSize ks m (q + g) a g with hldef
  -- past its own words the size can only be another one if the header is over the slot
  have hover : n < l → g < n := fun h => by
    by_contra hng
    rw [hldef, poppedSize, if_neg (by omega), hsize] at h
    omega
  have hsrc : ∀ j, j < l → M (q + j % g) = m (q + g + j % g) := fun j hj => by
    have hr : j % g < g := Nat.mod_lt _ hg
    have hrn : j % g < n := by
      by_cases hjn : j < n
      · exact (Nat.mod_le j g).trans_lt hjn
      · by_cases hln : n < l
        · exact hr.trans (hover hln)
        · omega
    rw [hM, mixed_out (by omega), hB, blit_in (by omega) (by omega), Nat.add_sub_cancel_left]
  have hback : ∀ j, fwd M q (q + g) l (q + g + j) = if j < l then m (q + g + j % g) else M (q + g + j) := fun j => by
    rw [fwd_repeat (by omega), show q + g - q = g by omega, show q + g + j - (q + g) = j by omega]
    by_cases hj : j < l
    · rw [if_pos (by omega), if_pos hj, hsrc j hj]
    · rw [if_neg (by omega), if_neg hj]
  have hout : ∀ j, n ≤ j → B (q + g + j) = m (q + g + j) := fun j hj => blit_out (by omega)
  constructor
  · intro h
    have hat : ∀ j, (if j < l then m (q + g + j % g) else M (q + g + j)) = B (q + g + j) := fun j => by
      rw [← hback, h]
    refine ⟨fun j haj hlj hjn => ?_, fun j hnj hjl => ?_⟩
    · have := hat j
      rw [if_neg (by omega), hM, mixed_in (by omega) (by omega), Nat.add_sub_cancel_left] at this
      exact xor_eq_left.mp this
    · have := hat j
      rwa [if_pos hjl, hout j hnj] at this
  · rintro ⟨hz, hrest⟩
    funext k
    by_cases hk : q + g ≤ k
    · obtain ⟨j, rfl⟩ := Nat.exists_eq_add_of_le hk
      rw [hback]
      by_cases hjl : j < l
      · rw [if_pos hjl]
        by_cases hjn : j < n
        · rw [hkeep j hjn, hrep.mod hg hjn]
        · rw [hrest j (by omega) hjl, hout j (by omega)]
      · rw [if_neg hjl]
        by_cases hin : a ≤ j ∧ j < n
        · rw [hM, mixed_in (by omega) (by omega), Nat.add_sub_cancel_left,
            xor_eq_left.mpr (hz j hin.1 (by omega) hin.2)]
        · rw [hM, mixed_out (by omega)]
    · rw [fwd_out (by omega), hM, mixed_out (by omega)]

end

/-! ## A load -/

variable {c : Crypto} {f : Frames} {sk tag key wipe : Word} {s s' : St}

/-- MRAM as a load should leave it: as before, with a copy of the image in the
slot, and the image as it was. -/
def Restored (sk : Word) (s : St) (m : Nat → Word) : Prop :=
  let n := (headerAt s.mram (mramAt sk)).size.toNat / 4
  m = blit s.mram slot s.mram (mramAt sk) n ∧ ∀ j < n, m (mramAt sk + j) = s.mram (mramAt sk + j)

/-- The key stream the load puts on word `j` of an image with this header. -/
def streamAt (c : Crypto) (f : Frames) (sk key wipe : Word) (s : St) : Nat → Word :=
  let h := headerAt s.mram (mramAt sk)
  keystream c (loadKey f sk key wipe s) h.iv (h.sizeAad.toNat / 64)

/-- When a load leaves MRAM so: an image over the slot has to repeat after the
distance, and the key stream has to be zero where what it does is not undone.
An image that begins above the slot, with its size word there, is copied back
by the size that stands there then. -/
structure RestoreOk (c : Crypto) (f : Frames) (sk key wipe : Word) (s : St) : Prop where
  repeats : Repeats s.mram (mramAt sk) ((headerAt s.mram (mramAt sk)).size.toNat / 4) (gap (mramAt sk) slot)
  below : mramAt sk ≤ slot → ∀ j, 16 * ((headerAt s.mram (mramAt sk)).sizeAad.toNat / 64) ≤ j →
    slot - mramAt sk ≤ j → j < (headerAt s.mram (mramAt sk)).size.toNat / 4 → streamAt c f sk key wipe s j = 0
  above : slot < mramAt sk →
    let popped := poppedSize (streamAt c f sk key wipe s) s.mram (mramAt sk)
      (16 * ((headerAt s.mram (mramAt sk)).sizeAad.toNat / 64)) (mramAt sk - slot)
    (∀ j, 16 * ((headerAt s.mram (mramAt sk)).sizeAad.toNat / 64) ≤ j → popped ≤ j →
      j < (headerAt s.mram (mramAt sk)).size.toNat / 4 → streamAt c f sk key wipe s j = 0) ∧
    ∀ j, (headerAt s.mram (mramAt sk)).size.toNat / 4 ≤ j → j < popped →
      s.mram (mramAt sk + j % (mramAt sk - slot)) = s.mram (mramAt sk + j)

/-- A load of an image clear of the slot. -/
theorem restoreOk_clear
    (hclear : mramAt sk + (headerAt s.mram (mramAt sk)).size.toNat / 4 ≤ slot ∨
      slot + (headerAt s.mram (mramAt sk)).size.toNat / 4 ≤ mramAt sk)
    (h64 : 64 ≤ (headerAt s.mram (mramAt sk)).size.toNat) : RestoreOk c f sk key wipe s := by
  refine ⟨fun i hi => ?_, fun hle j _ hj hjn => ?_, fun hlt => ?_⟩
  · rw [gap] at hi
    omega
  · omega
  · have hp : poppedSize (streamAt c f sk key wipe s) s.mram (mramAt sk)
        (16 * ((headerAt s.mram (mramAt sk)).sizeAad.toNat / 64)) (mramAt sk - slot) =
          (headerAt s.mram (mramAt sk)).size.toNat / 4 := if_neg (by omega)
    refine ⟨fun j _ hj hjn => ?_, fun j hj hjp => ?_⟩
    · rw [hp] at hj
      omega
    · rw [hp] at hjp
      omega

/-- **What a load leaves of MRAM.** A load that gets through to the jump,
of an image of whole blocks, leaves MRAM as before, with a copy of the image in
the slot and the image itself as it was, if and only if `RestoreOk`. -/
theorem restored_iff (hrun : imeReplaceSk c f sk tag key wipe s = .ok () s')
    (h64 : (headerAt s.mram (mramAt sk)).size.toNat % 64 = 0) :
    Restored sk s s'.mram ↔ RestoreOk c f sk key wipe s := by
  obtain ⟨hl, w, -, rfl⟩ := (imeReplaceSk_spec c f sk tag key wipe s).ok hrun
  have h16 : InMram sk 16 := fedOk_header hl.decrypt.fed
  have hsz := sizeAt_eq (m := s.mram) h16
  have hcopy : CopyOk sk scratchA (headerAt s.mram (mramAt sk)).size := hsz ▸ hl.push.2
  have hpos : 0 < (headerAt s.mram (mramAt sk)).size.toNat := hcopy.1
  have hin : InMram sk ((headerAt s.mram (mramAt sk)).size.toNat / 4) := hcopy.2.2.1
  set n := (headerAt s.mram (mramAt sk)).size.toNat / 4 with hn
  have hn16 : 16 ≤ n := by omega
  have hpushed : copySk s.mram sk scratchA = fwd s.mram (mramAt sk) slot n := by
    rw [copySk, hsz, mramAt_scratchA]
  -- of an image that repeats, the copy leaves it as it was, and so does all that reads it
  have hfinal : Repeats s.mram (mramAt sk) n (gap (mramAt sk) slot) →
      ((loaded c f sk key wipe w s).mram = blit s.mram slot s.mram (mramAt sk) n ↔
        fwd (mixed (streamAt c f sk key wipe s) (blit s.mram slot s.mram (mramAt sk) n) (mramAt sk)
            (16 * ((headerAt s.mram (mramAt sk)).sizeAad.toNat / 64)) n) slot (mramAt sk)
          (sizeWord (mixed (streamAt c f sk key wipe s) (blit s.mram slot s.mram (mramAt sk) n) (mramAt sk)
            (16 * ((headerAt s.mram (mramAt sk)).sizeAad.toNat / 64)) n) slot) =
          blit s.mram slot s.mram (mramAt sk) n) := fun hr => by
    have hb : copySk s.mram sk scratchA = blit s.mram slot s.mram (mramAt sk) n := by
      rw [hpushed, fwd_of_repeats hr]
    have hkeep := blit_keeps_iff.mpr hr
    have hk : Kept s.mram sk n := ⟨hn16, hin, le_rfl, hl.push, fun k h1 h2 => by
      obtain ⟨j, rfl⟩ := Nat.exists_eq_add_of_le h1
      rw [hb, hkeep j (by omega)]⟩
    have hplain : plainMram c f sk key wipe s = mixed (streamAt c f sk key wipe s)
        (blit s.mram slot s.mram (mramAt sk) n) (mramAt sk)
          (16 * ((headerAt s.mram (mramAt sk)).sizeAad.toNat / 64)) n := by
      rw [plainMram, decryptSk, hk.pushedHeader, hb]
      funext k
      rw [decrypted, mixed, show 16 * ((headerAt s.mram (mramAt sk)).size.toNat / 64) = n by omega]
      rfl
    have hat : mramAt (scratchA + 0x20) + 1 = slot + 9 := by
      unfold slot
      decide
    rw [loaded_mram, hplain, copySk, Loader.sizeAt, hat, mramAt_scratchA]
    rfl
  constructor
  · rintro ⟨hblit, hkeep⟩
    rw [← hn] at hblit hkeep
    rw [hblit] at hkeep
    have hr := blit_keeps_iff.mp hkeep
    have hback := (hfinal hr).mp hblit
    refine ⟨hr, fun hle => ?_, fun hlt => ?_⟩
    · exact (back_below hle hn16 rfl hkeep).mp hback
    · exact (back_above hlt hn16 rfl hkeep).mp hback
  · intro hok
    have hkeep := blit_keeps_iff.mpr hok.repeats
    have hblit : (loaded c f sk key wipe w s).mram = blit s.mram slot s.mram (mramAt sk) n := by
      refine (hfinal hok.repeats).mpr ?_
      by_cases hle : mramAt sk ≤ slot
      · exact (back_below hle hn16 rfl hkeep).mpr (hok.below hle)
      · exact (back_above (by omega) hn16 rfl hkeep).mpr (hok.above (by omega))
    exact ⟨hblit, fun j hj => by rw [hblit, hkeep j hj]⟩

/-- A section of text at 0 is loaded, and is as it was. -/
theorem restored_text : ∃ s', imeReplaceSk core noFrames 0 0 0 0 (textImage 0 2112 2112) = .ok () s' ∧
    Restored 0 (textImage 0 2112 2112) s'.mram := by
  have hap := @textImage_apart 2112 (by decide) (by decide) (by decide)
  obtain ⟨s', hrun⟩ := (@textImage_loads 2112 (by decide) (by decide) (by decide)).run
  refine ⟨s', hrun, (restored_iff hrun ?_).mpr (restoreOk_clear (.inl ?_) ?_)⟩ <;> rw [textImage, zeroImage_header]
  · decide
  · have hd := hap.disjoint
    rw [textImage, zeroImage_header] at hd
    cases hd with
    | inl hd => exact le_trans (by rw [mramAt_zero]; decide) hd
    | inr hd =>
      rw [mramAt_zero, slot] at hd
      exact absurd hd (by decide)
  · decide

/-! ## A load from the slot itself -/

/-- A section of text in the slot, and one block encrypted after it. -/
def slotImage : St := textImage scratchA 2112 2176

theorem slotImage_kept : Kept slotImage.mram scratchA 544 := by
  have h16 : InMram scratchA 16 := by decide
  have hsize : (headerAt slotImage.mram (mramAt scratchA)).size = 2176 := by rw [slotImage, textImage, zeroImage_header]
  have hcopy : copySk slotImage.mram scratchA scratchA = slotImage.mram := fwd_self _
  refine ⟨by decide, by decide, ?_, ?_, fun k _ _ => by rw [hcopy]⟩
  · rw [hsize]
    decide
  · refine pushOk h16 ?_ ?_ ?_ ?_ <;> rw [hsize]
    · decide
    · decide
    · decide
    · rw [slot]
      decide

theorem slotImage_plainHeader : headerAt (plainMram core noFrames scratchA 0 0 slotImage) (mramAt scratchA) =
    headerAt slotImage.mram (mramAt scratchA) :=
  slotImage_kept.plainHeader (by rw [slotImage, textImage, zeroImage_header]; decide)

theorem slotImage_loadOk : LoadOk core noFrames scratchA 0 0 0 slotImage := by
  refine zeroImage_loadOk slotImage_kept (by decide) (by decide) (by decide) (by decide) (by decide) (by decide)
    (.inr le_rfl) ⟨by decide, ?_⟩
  have hsize : Loader.sizeAt (plainMram core noFrames scratchA 0 0 slotImage) scratchA = 2176 := by
    rw [sizeAt_eq (by decide), slotImage_plainHeader, slotImage, textImage, zeroImage_header]
  show CopyOk scratchA scratchA (Loader.sizeAt (plainMram core noFrames scratchA 0 0 slotImage) scratchA)
  rw [hsize]
  exact ⟨by decide, by decide, by decide, by decide⟩

/-- It is loaded, and its last block is left decrypted. -/
theorem slotImage_left : ∃ s', imeReplaceSk core noFrames scratchA 0 0 0 slotImage = .ok () s' ∧
    (headerAt slotImage.mram (mramAt scratchA)).size.toNat % 64 = 0 ∧ ¬ Restored scratchA slotImage s'.mram := by
  obtain ⟨s', hrun⟩ := slotImage_loadOk.run
  obtain ⟨-, w, -, rfl⟩ := (imeReplaceSk_spec ..).ok hrun
  have hsize : (headerAt slotImage.mram (mramAt scratchA)).size = 2176 := by rw [slotImage, textImage, zeroImage_header]
  refine ⟨_, hrun, by rw [hsize]; decide, fun h => ?_⟩
  have hback := h.2 528 (by rw [hsize]; decide)
  have hks : keystream core (fun _ => 0) (fun _ => 0) 33 528 ≠ 0 := by decide +kernel
  have hplain : plainMram core noFrames scratchA 0 0 slotImage (mramAt scratchA + 528) =
      keystream core (fun _ => 0) (fun _ => 0) 33 528 := by
    rw [slotImage_kept.plain (by omega) (by omega), decryptSk, slotImage, textImage, zeroImage_header]
    dsimp only
    rw [decrypted, if_pos ⟨by simp, by simp⟩, zeroImage_body (by omega), Nat.add_sub_cancel_left]
    exact BitVec.zero_xor
  have hfinal : (loaded core noFrames scratchA 0 0 w slotImage).mram = plainMram core noFrames scratchA 0 0 slotImage := by
    rw [loaded_mram, copySk, fwd_self]
  have hbody : slotImage.mram (mramAt scratchA + 528) = 0 := zeroImage_body (by omega)
  rw [hfinal, hplain, hbody] at hback
  exact hks hback

end Memclave.Loader
