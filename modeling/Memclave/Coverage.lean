/-
Which of the bytes a load installs went into the MAC.

The verification reads the header's `size_aad` and `size`, the two copies
read `text_size` and `data_size`, and no check relates them:
`loaded_authentic_iff` says when what is loaded was verified.
-/
import Memclave.Image

namespace Memclave.Loader

open Words Exec Copy

/-- Word `k` of MRAM was copied to IRAM or WRAM with a section. -/
def Loaded (l : List Event) (k : Nat) : Prop :=
  ∃ d q, (Event.toIram d q ∈ l ∨ Event.toWram d q ∈ l) ∧ q ≤ k ∧ k < q + 512

/-- Word `k` of MRAM was in a chunk fed into the MAC. -/
def Fed (l : List Event) (k : Nat) : Prop := ∃ q, Event.fed q ∈ l ∧ q ≤ k ∧ k < q + 4

/-! ## The parts of the trace -/

theorem mem_fedTrace {p a b : Nat} {e : Event} :
    e ∈ fedTrace p a b ↔ ∃ i, a ≤ i ∧ i < b ∧ e = .fed (p + 4 * i) := by
  rw [fedTrace, List.mem_reverse, List.mem_map]
  constructor
  · rintro ⟨i, hi, rfl⟩
    have := List.mem_range'_1.mp hi
    exact ⟨i, by omega, by omega, rfl⟩
  · rintro ⟨i, h1, h2, rfl⟩
    exact ⟨i, List.mem_range'_1.mpr (by omega), rfl⟩

theorem mem_loadTrace {ev : Nat → Nat → Event} {d q n : Nat} {e : Event} :
    e ∈ loadTrace ev d q n ↔ ∃ i < n, e = ev (d + 512 * i) (q + 512 * i) := by
  induction n generalizing d q with
  | zero => simp [loadTrace]
  | succ n ih =>
    rw [loadTrace, List.mem_append, List.mem_singleton, ih]
    constructor
    · rintro (⟨i, hi, rfl⟩ | rfl)
      · refine ⟨i + 1, by omega, ?_⟩
        rw [show d + 512 + 512 * i = d + 512 * (i + 1) by omega, show q + 512 + 512 * i = q + 512 * (i + 1) by omega]
      · exact ⟨0, by omega, rfl⟩
    · rintro ⟨i, hi, rfl⟩
      cases i with
      | zero => exact .inr rfl
      | succ i =>
        refine .inl ⟨i, by omega, ?_⟩
        rw [show d + 512 + 512 * i = d + 512 * (i + 1) by omega, show q + 512 + 512 * i = q + 512 * (i + 1) by omega]

theorem mem_scanTrace {m : Nat → Word} {p n : Nat} {e : Event} (h : e ∈ scanTrace m p n) :
    ∃ x, e = .scanned x := by
  rw [scanTrace, List.mem_reverse, List.mem_map] at h
  obtain ⟨x, -, rfl⟩ := h
  exact ⟨x, rfl⟩

theorem mem_verifyTrace {m : Nat → Word} {p : Nat} {e : Event} (h : e ∈ verifyTrace m p) : ∃ q, e = .fed q := by
  rw [verifyTrace] at h
  rcases List.mem_append.mp h with h | h <;>
  · obtain ⟨i, -, -, rfl⟩ := mem_fedTrace.mp h
    exact ⟨_, rfl⟩

/-- The body is fed from its first word to where the longer of the two
authenticated parts ends. -/
theorem fed_verifyTrace {m : Nat → Word} {p k : Nat} (hk : p + 16 ≤ k) :
    Fed (verifyTrace m p) k ↔ k < p + 4 * fedEnd (headerAt m p) := by
  have hmem : ∀ q, Event.fed q ∈ verifyTrace m p ↔ ∃ i, q = p + 4 * i ∧
      (2 ≤ i ∧ i < (headerAt m p).sizeAad.toNat / 16 ∨
        (headerAt m p).sizeAad.toNat / 16 ≤ i ∧ i < (headerAt m p).size.toNat / 16) := fun q => by
    rw [verifyTrace]
    simp only [List.mem_append, mem_fedTrace, Event.fed.injEq]
    constructor
    · rintro (⟨i, h1, h2, rfl⟩ | ⟨i, h1, h2, rfl⟩)
      exacts [⟨i, rfl, .inr ⟨h1, h2⟩⟩, ⟨i, rfl, .inl ⟨h1, h2⟩⟩]
    · rintro ⟨i, rfl, ⟨h1, h2⟩ | ⟨h1, h2⟩⟩
      exacts [.inr ⟨i, h1, h2, rfl⟩, .inl ⟨i, h1, h2, rfl⟩]
  unfold Fed
  simp only [hmem, fedEnd]
  constructor
  · rintro ⟨q, ⟨i, rfl, hi⟩, h1, h2⟩
    omega
  · intro h
    exact ⟨p + 4 * ((k - p) / 4), ⟨_, rfl, by omega⟩, by omega, by omega⟩

/-! ## A load that gets through -/

variable {c : Crypto} {f : Frames} {sk tag key wipe : Word} {s s' : St}

/-- The header as it is verified, and as it is when the sections are loaded. -/
def verifiedHeader (sk : Word) (s : St) : Header := headerAt (copySk s.mram sk scratchA) (mramAt sk)

def loadedHeader (c : Crypto) (f : Frames) (sk key wipe : Word) (s : St) : Header :=
  headerAt (plainMram c f sk key wipe s) (mramAt sk)

/-- The words of all sections, those of the text and those of the data. -/
def sectionWords (h : Header) : Nat := 512 * (h.textSize.toNat + h.dataSize.toNat)

theorem loaded_trace (w : Nat → Word) (h0 : s.trace = []) :
    (loaded c f sk key wipe w s).trace =
      loadTrace .toIram (wramAt userStart) (mramAt sk + 16) (loadedHeader c f sk key wipe s).textSize.toNat ++
      (loadTrace .toWram 0 (mramAt (dataStart (plainMram c f sk key wipe s) sk))
          (loadedHeader c f sk key wipe s).dataSize.toNat ++
        (scanTrace (plainMram c f sk key wipe s) (mramAt sk) (textLen (plainMram c f sk key wipe s) (mramAt sk)) ++
          verifyTrace (copySk s.mram sk scratchA) (mramAt sk))) := by
  show _ ++ (_ ++ (_ ++ (_ ++ s.trace))) = _
  rw [h0, List.append_nil]
  rfl

theorem fed_loaded (w : Nat → Word) (h0 : s.trace = []) {k : Nat} (hk : mramAt sk + 16 ≤ k) :
    Fed (loaded c f sk key wipe w s).trace k ↔ k < mramAt sk + 4 * fedEnd (verifiedHeader sk s) := by
  have hfed : ∀ q, Event.fed q ∈ (loaded c f sk key wipe w s).trace ↔
      Event.fed q ∈ verifyTrace (copySk s.mram sk scratchA) (mramAt sk) := fun q => by
    rw [loaded_trace w h0]
    simp only [List.mem_append, mem_loadTrace, reduceCtorEq, and_false, exists_false, false_or, or_iff_right_iff_imp]
    intro h
    obtain ⟨x, hx⟩ := mem_scanTrace h
    cases hx
  rw [verifiedHeader, ← fed_verifyTrace hk]
  unfold Fed
  simp only [hfed]

/-- The sections loaded are the body from its first word on, one section
after the other. -/
theorem loaded_loaded (hl : LoadOk c f sk tag key wipe s) (w : Nat → Word) (h0 : s.trace = []) (k : Nat) :
    Loaded (loaded c f sk key wipe w s).trace k ↔
      mramAt sk + 16 ≤ k ∧ k < mramAt sk + 16 + sectionWords (loadedHeader c f sk key wipe s) := by
  have hat := mramAt_dataStart (fedOk_header hl.decrypt.fed) hl.iram.hi
  set t := (headerAt (plainMram c f sk key wipe s) (mramAt sk)).textSize.toNat with ht
  set n := (headerAt (plainMram c f sk key wipe s) (mramAt sk)).dataSize.toNat with hn
  have hrest : ∀ e ∈ scanTrace (plainMram c f sk key wipe s) (mramAt sk)
      (textLen (plainMram c f sk key wipe s) (mramAt sk)) ++ verifyTrace (copySk s.mram sk scratchA) (mramAt sk),
      (∃ x, e = .scanned x) ∨ ∃ q, e = .fed q := fun e he =>
    (List.mem_append.mp he).imp mem_scanTrace mem_verifyTrace
  have hiram : ∀ d q, Event.toIram d q ∈ (loaded c f sk key wipe w s).trace ↔
      ∃ i < t, Event.toIram d q = .toIram (wramAt userStart + 512 * i) (mramAt sk + 16 + 512 * i) := fun d q => by
    rw [loaded_trace w h0, List.mem_append, List.mem_append, mem_loadTrace, mem_loadTrace]
    refine or_iff_left (not_or.mpr ⟨?_, fun h => ?_⟩)
    · rintro ⟨i, -, hi⟩
      cases hi
    · rcases hrest _ h with ⟨x, hx⟩ | ⟨x, hx⟩ <;> cases hx
  have hwram : ∀ d q, Event.toWram d q ∈ (loaded c f sk key wipe w s).trace ↔
      ∃ i < n, Event.toWram d q = .toWram (0 + 512 * i) (mramAt sk + 16 + 512 * t + 512 * i) := fun d q => by
    rw [loaded_trace w h0, List.mem_append, List.mem_append, mem_loadTrace, mem_loadTrace, hat]
    refine (or_iff_right ?_).trans (or_iff_left fun h => ?_)
    · rintro ⟨i, -, hi⟩
      cases hi
    · rcases hrest _ h with ⟨x, hx⟩ | ⟨x, hx⟩ <;> cases hx
  unfold Loaded
  simp only [hiram, hwram, Event.toIram.injEq, Event.toWram.injEq, sectionWords, loadedHeader, ← ht, ← hn]
  constructor
  · rintro ⟨d, q, ⟨i, hi, -, rfl⟩ | ⟨i, hi, -, rfl⟩, h1, h2⟩ <;> omega
  · intro ⟨h1, h2⟩
    by_cases hk : k < mramAt sk + 16 + 512 * t
    · exact ⟨_, _, .inl ⟨(k - (mramAt sk + 16)) / 512, by omega, rfl, rfl⟩, by omega, by omega⟩
    · exact ⟨_, _, .inr ⟨(k - (mramAt sk + 16 + 512 * t)) / 512, by omega, rfl, rfl⟩, by omega, by omega⟩

/-- **When all that is loaded was verified.** A load that gets through loads
the body from its first byte on, as many bytes as its sections have, at least
one section of text. All of them were in a chunk fed into the MAC if and only if
the sections end within the longer of `size_aad` and `size`; if they end
within `size`, they lie in the image. -/
theorem loaded_authentic_iff (hrun : imeReplaceSk c f sk tag key wipe s = .ok () s') (h0 : s.trace = []) :
    (∀ k, Loaded s'.trace k ↔
      mramAt sk + 16 ≤ k ∧ k < mramAt sk + 16 + sectionWords (loadedHeader c f sk key wipe s)) ∧
    ((∀ k, Loaded s'.trace k → Fed s'.trace k) ↔
      64 + 4 * sectionWords (loadedHeader c f sk key wipe s) ≤
        max (verifiedHeader sk s).sizeAad.toNat (verifiedHeader sk s).size.toNat) ∧
    (64 + 4 * sectionWords (loadedHeader c f sk key wipe s) ≤ (verifiedHeader sk s).size.toNat →
      ∀ k, Loaded s'.trace k → Fed s'.trace k ∧ mramAt sk ≤ k ∧
        k < mramAt sk + (verifiedHeader sk s).size.toNat / 4) := by
  obtain ⟨hl, w, -, rfl⟩ := (imeReplaceSk_spec c f sk tag key wipe s).ok hrun
  have hall := loaded_loaded hl w h0
  have hpos : 0 < sectionWords (loadedHeader c f sk key wipe s) := by
    have h : 0 < (loadedHeader c f sk key wipe s).textSize.toNat := hl.iram.lo
    unfold sectionWords
    omega
  have hdvd : sectionWords (loadedHeader c f sk key wipe s) % 512 = 0 := Nat.mul_mod_right ..
  set n := sectionWords (loadedHeader c f sk key wipe s) with hn
  have hiff : (∀ k, Loaded (loaded c f sk key wipe w s).trace k → Fed (loaded c f sk key wipe w s).trace k) ↔
      64 + 4 * n ≤ max (verifiedHeader sk s).sizeAad.toNat (verifiedHeader sk s).size.toNat := by
    constructor
    · intro h
      -- the last word loaded
      have hk := (hall (mramAt sk + 16 + n - 1)).mpr ⟨by omega, by omega⟩
      have := (fed_loaded w h0 (by omega)).mp (h _ hk)
      unfold fedEnd at this
      omega
    · intro h k hk
      obtain ⟨h1, h2⟩ := (hall k).mp hk
      refine (fed_loaded w h0 h1).mpr ?_
      unfold fedEnd
      omega
  refine ⟨hall, hiff, fun h k hk => ⟨hiff.mpr (by omega) k hk, ?_⟩⟩
  obtain ⟨h1, h2⟩ := (hall k).mp hk
  omega

/-! ## Two loads -/

theorem textImage_apart {size : Word} (h1 : 64 ≤ size.toNat) (h2 : size.toNat ≤ 2112) (h3 : size.toNat % 8 = 0) :
    Apart (textImage 0 size size).mram 0 528 := by
  refine ⟨by decide, by decide, ?_, ?_, ?_, ?_, ?_⟩ <;> rw [textImage, zeroImage_header] <;> dsimp only
  · omega
  · omega
  · exact h3
  · rw [slot, mramWords]
    omega
  · rw [slot, mramAt_zero]
    omega

theorem textImage_loads {size : Word} (h1 : 64 ≤ size.toNat) (h2 : size.toNat ≤ 2112) (h3 : size.toNat % 8 = 0) :
    LoadOk core noFrames 0 0 0 0 (textImage 0 size size) := by
  have hap := textImage_apart h1 h2 h3
  refine zeroImage_loadOk hap.kept h1 (by omega) (by decide) (by decide) (by decide) (by decide) (.inl le_rfl)
    (hap.pop ?_)
  rw [textImage, zeroImage_header]
  exact h1

theorem textImage_verifiedHeader {size : Word} (h1 : 64 ≤ size.toNat) (h2 : size.toNat ≤ 2112)
    (h3 : size.toNat % 8 = 0) :
    (verifiedHeader 0 (textImage 0 size size)).sizeAad = size ∧ (verifiedHeader 0 (textImage 0 size size)).size = size := by
  rw [verifiedHeader, (textImage_apart h1 h2 h3).kept.pushedHeader, textImage, zeroImage_header]
  exact ⟨rfl, rfl⟩

theorem textImage_sectionWords {size : Word} (h1 : 64 ≤ size.toNat) (h2 : size.toNat ≤ 2112)
    (h3 : size.toNat % 8 = 0) : sectionWords (loadedHeader core noFrames 0 0 0 (textImage 0 size size)) = 512 := by
  have h64 : 64 ≤ (headerAt (textImage 0 size size).mram (mramAt 0)).sizeAad.toNat := by
    rw [textImage, zeroImage_header]
    exact h1
  rw [sectionWords, loadedHeader, (textImage_apart h1 h2 h3).kept.plainHeader h64, textImage, zeroImage_header]
  rfl

/-- A header that is verified as one of 64 bytes, with a section of text
behind it that nothing verifies: the section is loaded. -/
theorem loads_unverified : ∃ s', imeReplaceSk core noFrames 0 0 0 0 (textImage 0 64 64) = .ok () s' ∧
    ∃ k, Loaded s'.trace k ∧ ¬ Fed s'.trace k := by
  have hl := @textImage_loads 64 (by decide) (by decide) (by decide)
  obtain ⟨s', hrun⟩ := hl.run
  obtain ⟨-, w, -, rfl⟩ := (imeReplaceSk_spec ..).ok hrun
  refine ⟨_, hrun, mramAt 0 + 16, (loaded_loaded hl w rfl _).mpr ⟨le_rfl, ?_⟩, fun hf => ?_⟩
  · rw [textImage_sectionWords (by decide) (by decide) (by decide)]
    omega
  · have h := (fed_loaded w rfl le_rfl).mp hf
    obtain ⟨ha, hs⟩ := @textImage_verifiedHeader 64 (by decide) (by decide) (by decide)
    rw [fedEnd, ha, hs] at h
    exact absurd h (by decide)

/-- The same text, with the size that goes with it. -/
theorem loaded_authentic_text : ∃ s', imeReplaceSk core noFrames 0 0 0 0 (textImage 0 2112 2112) = .ok () s' ∧
    ∀ k, Loaded s'.trace k → Fed s'.trace k := by
  have hl := @textImage_loads 2112 (by decide) (by decide) (by decide)
  obtain ⟨s', hrun⟩ := hl.run
  refine ⟨s', hrun, (loaded_authentic_iff hrun rfl).2.1.mpr ?_⟩
  obtain ⟨ha, hs⟩ := @textImage_verifiedHeader 2112 (by decide) (by decide) (by decide)
  rw [textImage_sectionWords (by decide) (by decide) (by decide), ha, hs]
  decide

end Memclave.Loader
