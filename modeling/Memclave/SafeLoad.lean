/-
A load whose copy aside stays clear of the subkernel: the subkernel is
verified, scanned and loaded as it stood before the call (`Kept.loadOk`), and
at the jump MRAM is as before but for the copy (`Apart.restored`).
-/
import Memclave.LoadFacts

namespace Memclave.Loader

open Words Exec Copy

/-- The first word of the scratch slot. -/
@[irreducible]
def slot : Nat := 0xFE0000

theorem mramAt_scratchA : mramAt scratchA = slot := by
  unfold slot
  decide

/-! ## What the parts of a subkernel depend on -/

theorem headerAt_congr {m m' : Nat → Word} {p : Nat} (h : ∀ k, p ≤ k → k < p + 16 → m' k = m k) :
    headerAt m' p = headerAt m p := by
  unfold headerAt
  exact congrArg Header.ofWords (funext fun i => h _ (by omega) (by omega))

theorem chunksAt_congr {m m' : Nat → Word} {p a b : Nat} (h : ∀ k, p ≤ k → k < p + 4 * b → m' k = m k) :
    chunksAt m' p a b = chunksAt m p a b := by
  refine List.map_congr_left fun i hi => funext fun j => h _ (by omega) ?_
  have := List.mem_range'_1.mp hi
  omega

theorem macOf_congr {c : Crypto} {key : Fin 8 → Word} {m m' : Nat → Word} {p : Nat}
    (h : ∀ k, p ≤ k → k < p + max 16 (4 * fedEnd (headerAt m p)) → m' k = m k) :
    macOf c key m' p = macOf c key m p := by
  have hh : headerAt m' p = headerAt m p := headerAt_congr fun k h1 h2 => h k h1 (by omega)
  unfold macOf macBlocks
  unfold fedEnd at h
  dsimp only
  rw [hh, chunksAt_congr fun k h1 h2 => h k h1 (by omega), chunksAt_congr fun k h1 h2 => h k h1 (by omega)]

theorem textAt_congr {m m' : Nat → Word} {p n : Nat}
    (h : ∀ k, p + 16 ≤ k → k < p + 16 + 2 * n → m' k = m k) : textAt m' p n = textAt m p n := by
  refine List.map_congr_left fun i hi => ?_
  have := List.mem_range.mp hi
  rw [instAt, instAt, h _ (by omega) (by omega), h _ (by omega) (by omega)]

theorem sizeAt_eq {m : Nat → Word} {sk : Word} (h : InMram sk 16) :
    sizeAt m sk = (headerAt m (mramAt sk)).size := by
  have h32 : mramAt (sk + 0x20) = mramAt sk + 8 := mramAt_add_lt (i := 4) h (by decide)
  rw [sizeAt, h32]
  rfl

theorem decrypted_out {c : Crypto} {key : Fin 8 → Word} {iv : Fin 3 → Word} {m : Nat → Word} {p a b k : Nat}
    (h : k < p + 16 * a ∨ p + 16 * b ≤ k) : decrypted c key iv m p a b k = m k := if_neg (by omega)

theorem copySk_out {m : Nat → Word} {r0 r1 : Word} {k : Nat}
    (h : k < mramAt r1 ∨ mramAt r1 + (sizeAt m r0).toNat / 4 ≤ k) : copySk m r0 r1 k = m k := fwd_out h

/-- Where `ime_load_wram` finds the data of a subkernel with up to 15
sections of text. -/
theorem mramAt_dataStart {m : Nat → Word} {sk : Word} (h : InMram sk 16)
    (ht : (headerAt m (mramAt sk)).textSize.toNat < 16) :
    mramAt (dataStart m sk) = mramAt sk + 16 + 512 * (headerAt m (mramAt sk)).textSize.toNat := by
  set t := (headerAt m (mramAt sk)).textSize with htdef
  have he : dataStart m sk = sk + BitVec.ofNat 32 (8 * (8 + 256 * t.toNat)) := by
    apply BitVec.eq_of_toNat_eq
    rw [dataStart, ← htdef]
    simp only [BitVec.toNat_add, BitVec.toNat_shiftLeft, BitVec.toNat_ofNat, Nat.shiftLeft_eq,
      show (64 : Word).toNat = 64 from rfl]
    omega
  have hw : mramWords = 2 ^ 24 := rfl
  rw [he, mramAt_add]
  · omega
  · unfold InMram at h
    omega

/-! ## A subkernel that the push does not change -/

/-- The first `n` words from `sk` on are in MRAM, hold the subkernel, and are
the same after `ime_push_sk`. -/
structure Kept (m : Nat → Word) (sk : Word) (n : Nat) : Prop where
  header : 16 ≤ n
  inMram : InMram sk n
  size_le : (headerAt m (mramAt sk)).size.toNat / 4 ≤ n
  push : SkCopyOk m sk scratchA
  kept : ∀ k, mramAt sk ≤ k → k < mramAt sk + n → copySk m sk scratchA k = m k

variable {m : Nat → Word} {sk : Word} {n : Nat}

theorem inMram_le {n n' : Nat} (h : InMram sk n) (hn : n' ≤ n) : InMram sk n' :=
  (Nat.add_le_add_left hn _).trans h

theorem Kept.inHeader (h : Kept m sk n) : InMram sk 16 := inMram_le h.inMram h.header

theorem Kept.pushedHeader (h : Kept m sk n) :
    headerAt (copySk m sk scratchA) (mramAt sk) = headerAt m (mramAt sk) := by
  have := h.header
  exact headerAt_congr fun k h1 h2 => h.kept k h1 (by omega)

variable {c : Crypto} {f : Frames} {tag key wipe : Word} {s : St}

/-- The key the load uses. -/
def loadKey (f : Frames) (sk key wipe : Word) (s : St) : Fin 8 → Word := keyOf (atVerify f sk wipe s) key

theorem inMram_tag (h : InMram sk 16) : InMram (sk + 4) 4 := by
  have h4 : mramOff (sk + 4) = mramOff sk + 4 := mramOff_add (k := 4) (by
    unfold InMram mramAt mramWords at h
    omega)
  unfold InMram mramAt at *
  rw [h4]
  omega

/-- With no tag expected, the verification is in range if the chunks are. -/
theorem Kept.decryptRange (h : Kept s.mram sk n) (hkey : ChachaOk s sk key)
    (hfed : 4 * fedEnd (headerAt s.mram (mramAt sk)) ≤ n) : DecryptRange (atVerify f sk wipe s) sk 0 key := by
  have h16 := h.header
  refine ⟨inMram_tag h.inHeader, fun hn => (hn rfl).elim, ?_, (chachaOk_congr rfl rfl).mpr hkey⟩
  show InMram sk (max 16 (4 * fedEnd (headerAt (copySk s.mram sk scratchA) (mramAt sk))))
  rw [h.pushedHeader]
  exact inMram_le h.inMram (by omega)

theorem Kept.macOf (h : Kept s.mram sk n) (hfed : 4 * fedEnd (headerAt s.mram (mramAt sk)) ≤ n)
    (k : Fin 8 → Word) :
    Loader.macOf c k (copySk s.mram sk scratchA) (mramAt sk) = Loader.macOf c k s.mram (mramAt sk) := by
  have h16 := h.header
  exact macOf_congr fun k h1 h2 => h.kept k h1 (by omega)

/-- With no tag expected, the right MAC is all it takes to get to the
decryption. -/
theorem Kept.reached (h : Kept s.mram sk n) (hthreads : ¬ ThreadRuns s) (hid : s.id = 0) (hwipe : WipeOk wipe)
    (hkey : ChachaOk s sk key) (hfed : 4 * fedEnd (headerAt s.mram (mramAt sk)) ≤ n)
    (hmac : Loader.macOf c (loadKey f sk key wipe s) s.mram (mramAt sk) = (headerAt s.mram (mramAt sk)).tag) :
    Reached c f sk 0 key wipe s := by
  refine ⟨hthreads, hwipe, h.push, ⟨h.decryptRange hkey hfed, hid, fun hn => (hn rfl).elim, ?_⟩⟩
  show Loader.macOf c (loadKey f sk key wipe s) (copySk s.mram sk scratchA) (mramAt sk) =
    (headerAt (copySk s.mram sk scratchA) (mramAt sk)).tag
  rw [h.pushedHeader, h.macOf hfed, hmac]

/-- What the load makes of the subkernel. -/
theorem Kept.plain (h : Kept s.mram sk n) {k : Nat} (h1 : mramAt sk ≤ k) (h2 : k < mramAt sk + n) :
    plainMram c f sk key wipe s k = decryptSk c (loadKey f sk key wipe s) s.mram (mramAt sk) k := by
  rw [plainMram, decryptSk, decryptSk, h.pushedHeader, decrypted, decrypted, h.kept k h1 h2]
  rfl

/-- Outside the subkernel it changes nothing after the push. -/
theorem Kept.plain_out (h : Kept s.mram sk n) {k : Nat} (hk : k < mramAt sk ∨
    mramAt sk + (headerAt s.mram (mramAt sk)).size.toNat / 4 ≤ k) :
    plainMram c f sk key wipe s k = copySk s.mram sk scratchA k := by
  rw [plainMram, decryptSk, h.pushedHeader]
  exact decrypted_out (by omega)

/-- The header as loaded, if none of it is decrypted. -/
theorem Kept.plainHeader (h : Kept s.mram sk n) (h64 : 64 ≤ (headerAt s.mram (mramAt sk)).sizeAad.toNat) :
    headerAt (plainMram c f sk key wipe s) (mramAt sk) = headerAt s.mram (mramAt sk) := by
  have := h.header
  refine headerAt_congr fun k h1 h2 => ?_
  rw [h.plain h1 (by omega), decryptSk]
  exact decrypted_out (by omega)

/-- The rest of the load of such a subkernel, whose header is not encrypted. -/
theorem Kept.loadOk (h : Kept s.mram sk n) (hr : Reached c f sk tag key wipe s)
    (h64 : 64 ≤ (headerAt s.mram (mramAt sk)).sizeAad.toNat)
    (hmagic : (headerAt s.mram (mramAt sk)).magic = 0xA5A5A5A5)
    (ht : 0 < (headerAt s.mram (mramAt sk)).textSize.toNat)
    (hroom : (headerAt s.mram (mramAt sk)).textSize.toNat ≤ 12)
    (hd : (headerAt s.mram (mramAt sk)).dataSize.toNat ≤ 32)
    (hn : 16 + 512 * ((headerAt s.mram (mramAt sk)).textSize.toNat +
      (headerAt s.mram (mramAt sk)).dataSize.toNat) ≤ n)
    (hclean : ∀ x ∈ textAt (decryptSk c (loadKey f sk key wipe s) s.mram (mramAt sk)) (mramAt sk)
      (textLen s.mram (mramAt sk)), banned x = false)
    (hpop : SkCopyOk (plainMram c f sk key wipe s) scratchA sk) : LoadOk c f sk tag key wipe s := by
  have hin := h.inMram
  have hhdr : headerAt (plainMram c f sk key wipe s) (mramAt sk) = headerAt s.mram (mramAt sk) :=
    h.plainHeader h64
  have hlen : textLen (plainMram c f sk key wipe s) (mramAt sk) = textLen s.mram (mramAt sk) := by
    rw [textLen, hhdr, textLen]
  have h64at : mramAt (sk + 64) = mramAt sk + 16 := mramAt_add_lt (i := 8) h.inHeader (by decide)
  set t := (headerAt s.mram (mramAt sk)).textSize.toNat with htdef
  set d := (headerAt s.mram (mramAt sk)).dataSize.toNat with hddef
  refine ⟨hr, ⟨?_, ?_⟩, ⟨?_, ?_⟩, ⟨?_, ?_, ?_⟩, hpop⟩
  · rw [hlen, textLen]
    exact inMram_le hin (by omega)
  · rw [hlen, textAt_congr fun k h1 h2 => h.plain (by omega) ?_]
    · exact hclean
    · rw [textLen] at h2
      omega
  · rw [hhdr, hmagic]
  · rw [hhdr]
    intro _
    have hat := mramAt_dataStart (m := plainMram c f sk key wipe s) h.inHeader (by rw [hhdr]; omega)
    rw [hhdr] at hat
    have h0 : wramAt 0 = 0 := rfl
    have hW : wramWords = 2 ^ 14 := rfl
    refine ⟨?_, by rw [h0, hW, Nat.zero_add]; omega⟩
    unfold InMram at *
    rw [hat]
    omega
  · rw [hhdr]
    exact ht
  · rw [hhdr]
    exact lt_of_le_of_lt hroom (by decide)
  · rw [hhdr]
    intro _
    have hu : wramAt userStart = 2048 := by decide
    have hI : iramWords = 2 ^ 13 := rfl
    refine ⟨?_, by rw [hu, hI]; omega⟩
    unfold InMram at *
    rw [h64at]
    omega

/-! ## A subkernel apart from its copy -/

/-- The first `n` words from `sk` on are clear of the copy. -/
structure Apart (m : Nat → Word) (sk : Word) (n : Nat) : Prop where
  header : 16 ≤ n
  inMram : InMram sk n
  size_le : (headerAt m (mramAt sk)).size.toNat / 4 ≤ n
  size_pos : 0 < (headerAt m (mramAt sk)).size.toNat
  size_mod : (headerAt m (mramAt sk)).size.toNat % 8 = 0
  copy_le : slot + (headerAt m (mramAt sk)).size.toNat / 4 ≤ mramWords
  disjoint : mramAt sk + n ≤ slot ∨ slot + (headerAt m (mramAt sk)).size.toNat / 4 ≤ mramAt sk

theorem Apart.sizeAt (h : Apart m sk n) : Loader.sizeAt m sk = (headerAt m (mramAt sk)).size :=
  sizeAt_eq (inMram_le h.inMram h.header)

theorem pushOk (h16 : InMram sk 16) (hn : InMram sk ((headerAt m (mramAt sk)).size.toNat / 4))
    (hpos : 0 < (headerAt m (mramAt sk)).size.toNat) (hmod : (headerAt m (mramAt sk)).size.toNat % 8 = 0)
    (hcopy : slot + (headerAt m (mramAt sk)).size.toNat / 4 ≤ mramWords) : SkCopyOk m sk scratchA := by
  have h32 : mramAt (sk + 0x20) = mramAt sk + 8 := mramAt_add_lt (i := 4) h16 (by decide)
  refine ⟨?_, ?_⟩
  · unfold InMram at *
    omega
  · rw [sizeAt_eq h16]
    exact ⟨hpos, hmod, hn, by rwa [InMram, mramAt_scratchA]⟩

theorem Apart.kept (h : Apart m sk n) : Kept m sk n := by
  refine ⟨h.header, h.inMram, h.size_le, pushOk (inMram_le h.inMram h.header) (inMram_le h.inMram h.size_le)
    h.size_pos h.size_mod h.copy_le, fun k h1 h2 => copySk_out ?_⟩
  rw [h.sizeAt, mramAt_scratchA]
  have := h.disjoint
  omega

theorem Apart.pushed_slot (h : Apart m sk n) {i : Nat} (hi : i < (headerAt m (mramAt sk)).size.toNat / 4) :
    copySk m sk scratchA (slot + i) = m (mramAt sk + i) := by
  have := h.disjoint
  have := h.size_le
  rw [copySk, h.sizeAt, mramAt_scratchA, fwd_eq _ (by omega), blit_in (by omega) (by omega), Nat.add_sub_cancel_left]

/-- What the pop finds in the slot. -/
theorem Apart.plain_slot (h : Apart s.mram sk n) {i : Nat}
    (hi : i < (headerAt s.mram (mramAt sk)).size.toNat / 4) :
    plainMram c f sk key wipe s (slot + i) = s.mram (mramAt sk + i) := by
  have := h.disjoint
  have := h.size_le
  rw [h.kept.plain_out (by omega), h.pushed_slot hi]

theorem Apart.popSize (h : Apart s.mram sk n) (h64 : 64 ≤ (headerAt s.mram (mramAt sk)).size.toNat) :
    Loader.sizeAt (plainMram c f sk key wipe s) scratchA = (headerAt s.mram (mramAt sk)).size := by
  have hat : mramAt (scratchA + 0x20) + 1 = slot + 9 := by
    unfold slot
    decide
  rw [Loader.sizeAt, hat, h.plain_slot (by omega)]
  rfl

theorem Apart.pop (h : Apart s.mram sk n) (h64 : 64 ≤ (headerAt s.mram (mramAt sk)).size.toNat) :
    SkCopyOk (plainMram c f sk key wipe s) scratchA sk := by
  refine ⟨by decide, ?_⟩
  rw [h.popSize h64]
  have h1 := h.inMram
  have h2 := h.size_le
  refine ⟨h.size_pos, h.size_mod, by rw [InMram, mramAt_scratchA]; exact h.copy_le, ?_⟩
  unfold InMram at *
  omega

/-- **MRAM at the jump**: as before, with the copy in the slot. -/
theorem Apart.restored (h : Apart s.mram sk n) (h64 : 64 ≤ (headerAt s.mram (mramAt sk)).size.toNat) :
    copySk (plainMram c f sk key wipe s) scratchA sk =
      blit s.mram slot s.mram (mramAt sk) ((headerAt s.mram (mramAt sk)).size.toNat / 4) := by
  have hd := h.disjoint
  have hs := h.size_le
  funext k
  rw [copySk, h.popSize h64, mramAt_scratchA, fwd_eq _ (by omega)]
  by_cases h1 : mramAt sk ≤ k ∧ k < mramAt sk + (headerAt s.mram (mramAt sk)).size.toNat / 4
  · rw [blit_in h1.1 h1.2, h.plain_slot (by omega), blit_out (by omega)]
    congr 1
    omega
  · rw [blit_out (by omega)]
    by_cases h2 : slot ≤ k ∧ k < slot + (headerAt s.mram (mramAt sk)).size.toNat / 4
    · obtain ⟨i, rfl⟩ := Nat.exists_eq_add_of_le h2.1
      rw [h.plain_slot (by omega), blit_in h2.1 h2.2, Nat.add_sub_cancel_left]
    · rw [blit_out (by omega)]
      -- neither the push, nor the decryption, nor the pop comes here
      have hp : copySk s.mram sk scratchA k = s.mram k := copySk_out (by
        rw [h.sizeAt, mramAt_scratchA]
        omega)
      rw [h.kept.plain_out (by omega), hp]

end Memclave.Loader
