/-
What the scan can see of the upper 16 bits of a word, which are no part of
the instruction: `isLdmai` and `isThreadCtrl` see them, `isBannedReg` does
not. `scan_upper_bits_iff` says for which texts that makes no difference.
-/
import Memclave.LoadFacts

namespace Memclave.Loader

open Words Exec

/-! ## One word -/

/-- An instruction as the 8-byte word with nothing above it. -/
def wordOf (i : BitVec 48) : BitVec 64 := i.setWidth 64

theorem instr_wordOf (i : BitVec 48) : instr (wordOf i) = i := by
  unfold wordOf instr
  simp

theorem wordOf_instr_toNat (n : BitVec 64) : (wordOf (instr n)).toNat = n.toNat % 2 ^ 48 := by
  rw [wordOf, instr, BitVec.toNat_setWidth, BitVec.toNat_setWidth, Nat.mod_eq_of_lt (b := 2 ^ 64)]
  omega

theorem wordOf_instr {n : BitVec 64} (h : n.toNat < 2 ^ 48) : wordOf (instr n) = n :=
  BitVec.eq_of_toNat_eq (by rw [wordOf_instr_toNat, Nat.mod_eq_of_lt h])

theorem shift_lt {n c : BitVec 64} {k : Nat} (h : n >>> k = c) : n.toNat < 2 ^ k * (c.toNat + 1) := by
  rw [← h, BitVec.toNat_ushiftRight, Nat.shiftRight_eq_div_pow]
  exact Nat.lt_mul_div_succ n.toNat (Nat.two_pow_pos k)

/-- The comparison above bit 39 sees the upper bits: they are clear. -/
theorem isLdmai_lt {n : BitVec 64} (h : isLdmai n = true) : n.toNat < 2 ^ 48 := by
  unfold isLdmai at h
  split at h
  next => simp at h
  next h1 =>
    exact lt_of_lt_of_le (shift_lt (not_not.mp h1)) (by decide)

theorem isThreadCtrl_lt {n : BitVec 64} (h : isThreadCtrl n = true) : n.toNat < 2 ^ 48 := by
  unfold isThreadCtrl at h
  split at h
  next => simp at h
  next h1 =>
    exact lt_of_lt_of_le (shift_lt (not_not.mp h1)) (by decide)

/-- A masked field below bit 48 is one of the instruction. -/
theorem field_low (n m : BitVec 64) (k w : Nat) (hm : m.toNat = 2 ^ w - 1) (h : k + w ≤ 48) :
    wordOf (instr n) >>> k &&& m = n >>> k &&& m := by
  apply BitVec.eq_of_toNat_eq
  simp only [BitVec.toNat_and, BitVec.toNat_ushiftRight, Nat.shiftRight_eq_div_pow, hm,
    Nat.and_two_pow_sub_one_eq_mod, wordOf_instr_toNat]
  apply Nat.eq_of_testBit_eq
  intro i
  simp only [Nat.testBit_mod_two_pow, Nat.testBit_div_two_pow]
  by_cases hi : i < w
  · rw [decide_eq_true (show i + k < 48 by omega), Bool.true_and]
  · simp [hi]

theorem isBannedReg_low (n : BitVec 64) : isBannedReg (wordOf (instr n)) = isBannedReg n := by
  simp only [isBannedReg, field_low n 0x1F 39 5 rfl (by decide), field_low n 0x3 44 2 rfl (by decide),
    field_low n 0x7 39 3 rfl (by decide)]

/-- The instruction is one that the scan is there to keep out. -/
def BannedInstr (i : BitVec 48) : Prop := banned (wordOf i) = true

instance (i : BitVec 48) : Decidable (BannedInstr i) := inferInstanceAs (Decidable (_ = true))

/-- Neither `ldmai` nor thread control, whatever stands above the instruction. -/
def Plain (i : BitVec 48) : Prop := isLdmai (wordOf i) = false ∧ isThreadCtrl (wordOf i) = false

theorem Plain.of_not_banned {i : BitVec 48} (h : ¬ BannedInstr i) : Plain i := by
  rw [BannedInstr, banned, Bool.not_eq_true, Bool.or_eq_false_iff, Bool.or_eq_false_iff] at h
  exact h.1

/-- The three predicates see only the instruction in `n`. -/
def SeesInstr (n : BitVec 64) : Prop :=
  ∀ n', instr n' = instr n →
    isLdmai n' = isLdmai n ∧ isThreadCtrl n' = isThreadCtrl n ∧ isBannedReg n' = isBannedReg n

theorem Plain.isLdmai {n : BitVec 64} (h : Plain (instr n)) : Loader.isLdmai n = false := by
  refine eq_false_of_ne_true fun hn => ?_
  rw [← wordOf_instr (isLdmai_lt hn), h.1] at hn
  exact Bool.false_ne_true hn

theorem Plain.isThreadCtrl {n : BitVec 64} (h : Plain (instr n)) : Loader.isThreadCtrl n = false := by
  refine eq_false_of_ne_true fun hn => ?_
  rw [← wordOf_instr (isThreadCtrl_lt hn), h.2] at hn
  exact Bool.false_ne_true hn

/-- With bit 48 set the instruction is not recognised. -/
theorem lift_upper (i : BitVec 48) :
    ∃ n, instr n = i ∧ Loader.isLdmai n = false ∧ Loader.isThreadCtrl n = false := by
  have hn : (BitVec.ofNat 64 (i.toNat + 2 ^ 48)).toNat = i.toNat + 2 ^ 48 := by
    rw [BitVec.toNat_ofNat]
    omega
  refine ⟨BitVec.ofNat 64 (i.toNat + 2 ^ 48), ?_, ?_, ?_⟩
  · apply BitVec.eq_of_toNat_eq
    rw [instr, BitVec.toNat_setWidth, hn]
    omega
  · refine eq_false_of_ne_true fun h => ?_
    have := isLdmai_lt h
    omega
  · refine eq_false_of_ne_true fun h => ?_
    have := isThreadCtrl_lt h
    omega

theorem seesInstr_iff (n : BitVec 64) : SeesInstr n ↔ Plain (instr n) := by
  constructor
  · intro h
    obtain ⟨n', hn', h1, h2⟩ := lift_upper (instr n)
    obtain ⟨e1, e2, -⟩ := h n' hn'
    obtain ⟨e3, e4, -⟩ := h (wordOf (instr n)) (instr_wordOf _)
    exact ⟨by rw [e3, ← e1, h1], by rw [e4, ← e2, h2]⟩
  · intro h n' hn'
    have h' : Plain (instr n') := by rwa [hn']
    refine ⟨?_, ?_, ?_⟩
    · rw [h.isLdmai, h'.isLdmai]
    · rw [h.isThreadCtrl, h'.isThreadCtrl]
    · rw [← isBannedReg_low n', hn', isBannedReg_low]

theorem SeesInstr.banned {n : BitVec 64} (h : SeesInstr n) {n' : BitVec 64} (hn : instr n' = instr n) :
    Loader.banned n' = Loader.banned n := by
  obtain ⟨h1, h2, h3⟩ := h n' hn
  rw [Loader.banned, Loader.banned, h1, h2, h3]

/-- On such a word the scan decides as on its instruction. -/
theorem Plain.bannedInstr_iff {n : BitVec 64} (h : Plain (instr n)) : BannedInstr (instr n) ↔ Loader.banned n = true := by
  rw [BannedInstr, ((seesInstr_iff n).mpr h).banned (instr_wordOf _)]

/-! ## A text -/

/-- The scan lets the subkernel pass. -/
def Passes (f : Frames) (sk : Word) (s : St) : Prop := ∃ s', imeScanSk f sk s = .ok () s'

/-- The text that is scanned. -/
def skText (m : Nat → Word) (sk : Word) : List (BitVec 64) := textAt m (mramAt sk) (textLen m (mramAt sk))

theorem passes_iff (f : Frames) {sk : Word} {s : St} (hin : InMram sk (16 + 2 * textLen s.mram (mramAt sk)))
    (hid : s.id = 0) : Passes f sk s ↔ ∀ n ∈ skText s.mram sk, banned n = false := by
  have h16 : InMram sk 16 := by
    unfold InMram at *
    omega
  have hspec := imeScanSk_spec f h16 hid
  constructor
  · rintro ⟨s', hs'⟩
    exact (hspec.ok hs').1.clean
  · intro hclean
    have hno : wp (imeScanSk f sk) (fun _ _ => True) (fun _ _ => False) s :=
      hspec.mono (fun _ _ _ => trivial) fun _ _ h => ScanOk.not_fault ⟨hin, hclean⟩ h.2.2
    obtain ⟨_, s', hs', -⟩ := hno.total
    exact ⟨s', hs'⟩

/-- `m'` differs from `m` in the upper 16 bits of words of the text only. -/
structure SameInstrs (sk : Word) (m m' : Nat → Word) : Prop where
  outside : ∀ k, k < mramAt sk + 16 ∨ mramAt sk + 16 + 2 * textLen m (mramAt sk) ≤ k → m' k = m k
  inside : ∀ i < textLen m (mramAt sk), instr (instAt m' (mramAt sk) i) = instr (instAt m (mramAt sk) i)

theorem SameInstrs.textLen {sk : Word} {m m' : Nat → Word} (h : SameInstrs sk m m') :
    Loader.textLen m' (mramAt sk) = Loader.textLen m (mramAt sk) := by
  have h10 : m' (mramAt sk + 10) = m (mramAt sk + 10) := h.outside _ (.inl (by omega))
  change (m' (mramAt sk + 10)).toNat * 256 = (m (mramAt sk + 10)).toNat * 256
  rw [h10]

theorem SameInstrs.clean {sk : Word} {m m' : Nat → Word} (h : SameInstrs sk m m')
    (hsees : ∀ n ∈ skText m sk, SeesInstr n) :
    (∀ n ∈ skText m' sk, banned n = false) ↔ ∀ n ∈ skText m sk, banned n = false := by
  unfold skText textAt at *
  rw [h.textLen]
  simp only [List.mem_map, List.mem_range, forall_exists_index, and_imp, forall_apply_eq_imp_iff₂] at hsees ⊢
  refine forall₂_congr fun i hi => ?_
  rw [(hsees i hi).banned (h.inside i hi)]

/-- **What the upper 16 bits do to the scan.** For every text in MRAM: the
predicates see only its instructions, no change of the upper bits changes
whether it passes, and if it passes none of its instructions is a banned one,
if and only if none of its instructions is an `ldmai` or thread control. -/
theorem scan_upper_bits_iff (f : Frames) (sk : Word) (s : St)
    (hin : InMram sk (16 + 2 * textLen s.mram (mramAt sk))) (hid : s.id = 0) :
    ((∀ n ∈ skText s.mram sk, SeesInstr n) ∧
      (∀ m', SameInstrs sk s.mram m' → (Passes f sk { s with mram := m' } ↔ Passes f sk s)) ∧
      (Passes f sk s → ∀ n ∈ skText s.mram sk, ¬ BannedInstr (instr n))) ↔
    ∀ n ∈ skText s.mram sk, Plain (instr n) := by
  constructor
  · exact fun h n hn => (seesInstr_iff n).mp (h.1 n hn)
  · intro h
    have hsees : ∀ n ∈ skText s.mram sk, SeesInstr n := fun n hn => (seesInstr_iff n).mpr (h n hn)
    refine ⟨hsees, fun m' hm => ?_, fun hp n hn hb => ?_⟩
    · rw [passes_iff f hin hid, passes_iff f (s := { s with mram := m' }) (by rwa [hm.textLen]) hid]
      exact hm.clean hsees
    · have hclean := (passes_iff f hin hid).mp hp n hn
      rw [(h n hn).bannedInstr_iff, hclean] at hb
      exact Bool.false_ne_true hb

/-- A subkernel at 0 with one section of text, `n` and then zeros. -/
def textOf (n : BitVec 64) : St where
  mram k := if k = 10 then 1 else if k = 16 then n.setWidth 32 else if k = 17 then (n >>> 32).setWidth 32 else 0
  wram _ := 0
  iram _ := 0
  id := 0
  running _ := false
  sysKey _ := 0
  trace := []

theorem textLen_textOf (n : BitVec 64) : textLen (textOf n).mram (mramAt 0) = 256 := by
  show ((textOf n).mram (mramAt 0 + 10)).toNat * 256 = 256
  rw [mramAt_zero]
  simp [textOf]

theorem halves (n : BitVec 64) : (n >>> 32).setWidth 32 ++ n.setWidth 32 = n := by
  apply BitVec.eq_of_toNat_eq
  rw [BitVec.toNat_append, ← Nat.shiftLeft_add_eq_or_of_lt (BitVec.isLt _), Nat.shiftLeft_eq,
    BitVec.toNat_setWidth, BitVec.toNat_setWidth, BitVec.toNat_ushiftRight, Nat.shiftRight_eq_div_pow]
  omega

theorem instAt_textOf (n : BitVec 64) (i : Nat) :
    instAt (textOf n).mram (mramAt 0) i = if i = 0 then n else 0 := by
  rw [mramAt_zero, instAt]
  by_cases h : i = 0
  · subst h
    simp only [textOf]
    exact halves n
  · rw [if_neg h]
    simp only [textOf, show 0 + 16 + 2 * i + 1 ≠ 10 by omega, show 0 + 16 + 2 * i + 1 ≠ 16 by omega,
      show 0 + 16 + 2 * i + 1 ≠ 17 by omega, show 0 + 16 + 2 * i ≠ 10 by omega,
      show 0 + 16 + 2 * i ≠ 16 by omega, show 0 + 16 + 2 * i ≠ 17 by omega, if_false]
    decide

theorem mem_textOf {n x : BitVec 64} : x ∈ skText (textOf n).mram 0 ↔ x = n ∨ x = 0 := by
  rw [skText, textLen_textOf, textAt, List.mem_map]
  simp only [List.mem_range, instAt_textOf]
  constructor
  · rintro ⟨i, -, rfl⟩
    split
    exacts [.inl rfl, .inr rfl]
  · rintro (rfl | rfl)
    exacts [⟨0, by decide, if_pos rfl⟩, ⟨1, by decide, if_neg (by decide)⟩]

theorem inMram_textOf (n : BitVec 64) : InMram 0 (16 + 2 * textLen (textOf n).mram (mramAt 0)) := by
  rw [textLen_textOf]
  decide

/-- A text of zeros: nothing depends on the upper bits. -/
theorem scan_upper_bits_zero :
    (∀ n ∈ skText (textOf 0).mram 0, SeesInstr n) ∧
      (∀ m', SameInstrs 0 (textOf 0).mram m' →
        (Passes ⟨fun _ => 0, 0⟩ 0 { textOf 0 with mram := m' } ↔ Passes ⟨fun _ => 0, 0⟩ 0 (textOf 0))) ∧
      (Passes ⟨fun _ => 0, 0⟩ 0 (textOf 0) → ∀ n ∈ skText (textOf 0).mram 0, ¬ BannedInstr (instr n)) := by
  refine (scan_upper_bits_iff ⟨fun _ => 0, 0⟩ 0 (textOf 0) (inMram_textOf 0) rfl).mpr fun n hn => ?_
  unfold Plain
  rcases mem_textOf.mp hn with rfl | rfl <;> decide

/-- An `ldmai`, and the same instruction in a word with bit 48 set. -/
def ldmaiBare : BitVec 64 := 0x700000000001
def ldmaiHidden : BitVec 64 := 0x1700000000001

/-- The scan passes a text with an `ldmai` in it, and faults on the same
text once bit 48 is cleared. -/
theorem scan_upper_bits :
    ldmaiHidden ∈ skText (textOf ldmaiHidden).mram 0 ∧ BannedInstr (instr ldmaiHidden) ∧
      Passes ⟨fun _ => 0, 0⟩ 0 (textOf ldmaiHidden) ∧
      SameInstrs 0 (textOf ldmaiHidden).mram (textOf ldmaiBare).mram ∧
      ¬ Passes ⟨fun _ => 0, 0⟩ 0 (textOf ldmaiBare) := by
  refine ⟨mem_textOf.mpr (.inl rfl), by unfold BannedInstr; decide, ?_, ⟨fun k hk => ?_, fun i hi => ?_⟩, ?_⟩
  · rw [passes_iff _ (inMram_textOf _) rfl]
    intro n hn
    rcases mem_textOf.mp hn with rfl | rfl <;> decide
  · rw [textLen_textOf, mramAt_zero] at hk
    simp only [textOf, show k ≠ 16 by omega, show k ≠ 17 by omega, if_false]
  · rw [instAt_textOf, instAt_textOf]
    split
    exacts [by decide, rfl]
  · rw [passes_iff _ (inMram_textOf _) rfl]
    intro h
    exact absurd (h ldmaiBare (mem_textOf.mpr (.inl rfl))) (by decide)

end Memclave.Loader
