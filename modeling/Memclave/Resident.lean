/-
The subkernels of the system, which lie in MRAM under the system key and are
loaded from there again and again: what makes one loadable (`Resident`), that
its load gets through to the jump and leaves MRAM as it was but for the slot
(`Resident.loads`), and that nothing but a write to its place ends that
(`Resident.frame`).
-/
import Memclave.Handover

namespace Memclave.Loader

open Words Exec Copy

variable {c : Crypto} {f : Frames} {sk wipe : Word} {key : Fin 8 → Word} {m m' : Nat → Word} {n : Nat} {s s' : St}

/-- A header of a subkernel of at most `n` words, all of them authenticated and
none encrypted. -/
structure SystemHeader (h : Header) (n : Nat) : Prop where
  magic : h.magic = 0xA5A5A5A5
  auth : h.sizeAad = h.size
  size_ge : 64 ≤ h.size.toNat
  size_mod : h.size.toNat % 8 = 0
  size_le : h.size.toNat / 4 ≤ n
  text_pos : 0 < h.textSize.toNat
  text_le : h.textSize.toNat ≤ 12
  /-- one section less than WRAM, so that the data ends below the area that persists -/
  data_le : h.dataSize.toNat ≤ 31
  room : 16 + 512 * (h.textSize.toNat + h.dataSize.toNat) ≤ n

/-- Such a subkernel, in the first `n` words from `sk` on, with the tag it has
under `key`. -/
structure Resident (c : Crypto) (key : Fin 8 → Word) (m : Nat → Word) (sk : Word) (n : Nat) : Prop where
  below : mramAt sk + n ≤ slot
  /-- 128 KiB, as the linker has it -/
  place : n ≤ 32768
  header : SystemHeader (headerAt m (mramAt sk)) n
  mac : macOf c key m (mramAt sk) = (headerAt m (mramAt sk)).tag
  clean : ∀ x ∈ textAt m (mramAt sk) (textLen m (mramAt sk)), banned x = false

theorem Resident.le (h : Resident c key m sk n) : 16 ≤ n := by
  have := h.header.room
  omega

theorem Resident.apart (h : Resident c key m sk n) : Apart m sk n := by
  have hle := h.below
  have hsize := h.header.size_le
  have hplace := h.place
  have hpos := h.header.size_ge
  have hslot : slot + 131072 = mramWords := by
    unfold slot
    rfl
  exact ⟨h.le, by unfold InMram; omega, hsize, by omega, h.header.size_mod, by omega, .inl hle⟩

theorem Resident.fed_le (h : Resident c key m sk n) : 4 * fedEnd (headerAt m (mramAt sk)) ≤ n := by
  have := h.header.size_le
  rw [fedEnd, h.header.auth]
  omega

/-- It stays loadable as long as its place is not written. -/
theorem Resident.frame (h : Resident c key m sk n) (hm : ∀ k, mramAt sk ≤ k → k < mramAt sk + n → m' k = m k) :
    Resident c key m' sk n := by
  have h16 := h.le
  have hfed := h.fed_le
  have hh : headerAt m' (mramAt sk) = headerAt m (mramAt sk) := headerAt_congr fun k h1 h2 => hm k h1 (by omega)
  have htext : textAt m' (mramAt sk) (textLen m (mramAt sk)) = textAt m (mramAt sk) (textLen m (mramAt sk)) := by
    have hr := h.header.room
    refine textAt_congr fun k h1 h2 => hm k (by omega) ?_
    rw [textLen] at h2
    omega
  refine ⟨h.below, h.place, ?_, ?_, ?_⟩
  · rw [hh]
    exact h.header
  · rw [hh, macOf_congr fun k h1 h2 => hm k h1 (by omega)]
    exact h.mac
  · rw [textLen, hh]
    change ∀ x ∈ textAt m' (mramAt sk) (textLen m (mramAt sk)), banned x = false
    rw [htext]
    exact h.clean

/-- Nobody is in the way of a load. -/
structure Quiet (s : St) : Prop where
  threads : ¬ ThreadRuns s
  id : s.id = 0
  cipher : s.running 22 = false

/-! ## Its load -/

section

variable (h : Resident c s.sysKey s.mram sk n)

include h

/-- Nothing of it is encrypted. -/
theorem Resident.decryptSk_eq : decryptSk c key s.mram (mramAt sk) = s.mram := by
  rw [decryptSk, h.header.auth]
  exact decrypted_nil le_rfl

theorem Resident.plain_eq {k : Nat} (h1 : mramAt sk ≤ k) (h2 : k < mramAt sk + n) :
    plainMram c f sk 0 wipe s k = s.mram k := by
  rw [h.apart.kept.plain h1 h2, h.decryptSk_eq]

theorem Resident.loadOk (hq : Quiet s) (hw : WipeOk wipe) : LoadOk c f sk 0 0 wipe s := by
  have h64 := h.header.size_ge
  rw [← h.header.auth] at h64
  have hkey : loadKey f sk 0 wipe s = s.sysKey := rfl
  have hchacha : ChachaOk s sk 0 := by
    rw [ChachaOk, if_neg (not_not.mpr rfl)]
    exact ⟨hq.id, hq.cipher, inMram_le h.apart.inMram (le_trans (by decide) h.le)⟩
  have hr : Reached c f sk 0 0 wipe s := h.apart.kept.reached hq.threads hq.id hw hchacha h.fed_le (by rw [hkey]; exact h.mac)
  refine h.apart.kept.loadOk hr h64 h.header.magic h.header.text_pos h.header.text_le
    (le_trans h.header.data_le (by decide)) h.header.room ?_ (h.apart.pop h.header.size_ge)
  rw [h.decryptSk_eq]
  exact h.clean

/-- **A load of a subkernel of the system.** -/
theorem Resident.loads (hq : Quiet s) (hw : WipeOk wipe) (f : Frames) : ∃ s', imeReplaceSk c f sk 0 0 wipe s = .ok () s' ∧
    HandedOver f 0 wipe s.mram (mramAt sk) s s' ∧
    s'.mram = blit s.mram slot s.mram (mramAt sk) ((headerAt s.mram (mramAt sk)).size.toNat / 4) ∧
    s'.sysKey = s.sysKey ∧ Quiet s' := by
  obtain ⟨s', hrun⟩ := (h.loadOk (f := f) hq hw).run
  have hho := handed_over hrun
  obtain ⟨-, w, -, hs'⟩ := (imeReplaceSk_spec c f sk 0 0 wipe s).ok hrun
  have hroom := h.header.room
  have hhdr : headerAt (plainMram c f sk 0 wipe s) (mramAt sk) = headerAt s.mram (mramAt sk) := by
    have h16 := h.le
    exact headerAt_congr fun k h1 h2 => h.plain_eq h1 (by omega)
  refine ⟨s', hrun, ⟨fun k hk => ?_, fun k hk => ?_, fun k hk => ?_, fun h0 k hk => ?_, fun k h1 h2 h3 => ?_⟩, ?_, ?_, ?_⟩
  · rw [hho.text k (by rwa [hhdr]), h.plain_eq (by omega) (by omega)]
  · exact hho.core k (by rwa [hhdr])
  · rw [hho.data k (by rwa [hhdr]), hhdr, h.plain_eq (by omega) (by omega)]
  · have h16 := h.le
    rw [hho.header (by rwa [hhdr]) k hk, h.plain_eq (by omega) (by omega)]
  · exact hho.rest k h1 (by rwa [hhdr]) h3
  · rw [hs', loaded_mram]
    exact h.apart.restored h.header.size_ge
  · rw [hs']
    rfl
  · rw [hs']
    exact ⟨hq.threads, hq.id, hq.cipher⟩

end

end Memclave.Loader
