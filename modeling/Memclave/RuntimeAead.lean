/-
The AEAD of the runtime is that of RFC 8439 over the core's block function
and MAC, without additional data (`aead_round_trip`).

`ime_aead_enc` encrypts and then takes the tag of its own output;
`ime_aead_dec` takes the tag of its input first. What the cipher writes past
the end of a buffer (`crypt_frame` of `Footprint`) is no part of either.
-/
import Memclave.RuntimeFacts
import Memclave.Image

namespace Memclave.Runtime

open Words Copy Loader Aead

variable {c : Crypto} {key : Fin 8 → Word} {iv : Fin 3 → Word} {tag : Fin 4 → Word} {len buf out_buf : Word}
  {p_iv : Option (Fin 3 → Word)} {counter : Fin 4 → Word} {sp spb spo : Space} {wb wo : Nat} {s s' : St}

/-! ## The entry points -/

/-- `ime_aead_enc` or `ime_aead_enc_mram`. -/
def aeadEnc (c : Crypto) (key : Fin 8 → Word) (p_iv : Option (Fin 3 → Word)) (counter : Fin 4 → Word) :
    Space → Word → Word → Word → St → Option ((Fin 4 → Word) × (Fin 3 → Word) × St)
  | .wram => imeAeadEnc c key p_iv counter
  | .mram => imeAeadEncMram c key p_iv counter

/-- `ime_aead_dec` or `ime_aead_dec_mram`. -/
def aeadDec (c : Crypto) (key : Fin 8 → Word) (iv : Fin 3 → Word) (tag : Fin 4 → Word) :
    Space → Word → Word → Word → St → Option (Bool × St)
  | .wram => imeAeadDec c key iv tag
  | .mram => imeAeadDecMram c key iv tag

theorem aeadEnc_gen : aeadEnc c key p_iv counter sp len buf out_buf s =
    imeAeadEncGen c key p_iv counter len (ptr32 sp buf) (ptr32 sp out_buf) s := by
  cases sp <;> rfl

theorem aeadDec_gen : aeadDec c key iv tag sp len buf out_buf s =
    imeAeadDecGen c key iv tag len (ptr32 sp buf) (ptr32 sp out_buf) s := by
  cases sp <;> rfl

/-- A buffer in memory is short enough for the loop's bound. -/
theorem IsBuf.len_lt {ptr : Word} (h : IsBuf sp ptr (len.toNat / 4)) : len.toNat + 63 < 2 ^ 32 := by
  have hw : wramWords = 2 ^ 14 := rfl
  have hm : mramWords = 2 ^ 24 := rfl
  cases sp with
  | wram =>
    have := h.2
    omega
  | mram =>
    have := h.2.2
    omega

/-! ## Both directions -/

variable (c key p_iv counter s) in
/-- The reads of the MAC change no memory. -/
theorem enc_spec (hb : Points buf spb wb (len.toNat / 4)) (ho : Points out_buf spo wo (len.toNat / 4))
    (hlen : len.toNat + 63 < 2 ^ 32) (h16 : len.toNat % 16 = 0) :
    ∃ s1, Passed c key (ivOf p_iv counter) len.toNat spb wb spo wo s (List.range ((len.toNat + 63) / 64)) s1 ∧
      imeAeadEncGen c key p_iv counter len buf out_buf s =
        some (c.suite.tag key (ivOf p_iv counter) [] (cells (s1.mem spo) wo (len.toNat / 4)), ivOf p_iv counter,
          { s1 with
            reads := ((List.range (len.toNat / 16)).map fun i => ⟨.mac, spo, wo + 4 * i, 4⟩).reverse ++ s1.reads }) := by
  obtain ⟨s1, h1, hp⟩ := crypt_passed c key (ivOf p_iv counter) s hb ho hlen
  refine ⟨s1, hp, ?_⟩
  simp only [imeAeadEncGen, h1, Option.bind_eq_bind, Option.bind_some, imePolySimple_spec ho h16]
  rfl

theorem valid_iff {t t' : Fin 4 → Word} :
    (List.finRange 4).foldl (fun valid i => valid && t i == t' i) true = true ↔ t = t' := by
  have h4 : List.finRange 4 = [0, 1, 2, 3] := by decide
  rw [h4]
  simp only [List.foldl_cons, List.foldl_nil, Bool.true_and, Bool.and_eq_true, beq_iff_eq]
  constructor
  · rintro ⟨⟨⟨h0, h1⟩, h2⟩, h3⟩
    funext i
    match i with
    | 0 => exact h0
    | 1 => exact h1
    | 2 => exact h2
    | 3 => exact h3
  · rintro rfl
    exact ⟨⟨⟨rfl, rfl⟩, rfl⟩, rfl⟩

/-- The state once the tag has been computed. -/
def afterMac (sp : Space) (w len : Nat) (s : St) : St :=
  { s with reads := ((List.range (len / 16)).map fun i => ⟨.mac, sp, w + 4 * i, 4⟩).reverse ++ s.reads }

theorem mem_afterMac {w len : Nat} {sp' : Space} : (afterMac sp w len s).mem sp' = s.mem sp' := by
  cases sp' <;> rfl

/-- Another tag than the text's is refused before anything is written. -/
theorem dec_refused (hb : Points buf spb wb (len.toNat / 4)) (h16 : len.toNat % 16 = 0)
    (ht : c.suite.tag key iv [] (cells (s.mem spb) wb (len.toNat / 4)) ≠ tag) :
    imeAeadDecGen c key iv tag len buf out_buf s = some (false, afterMac spb wb len.toNat s) := by
  have hv := mt valid_iff.mp ht
  rw [Bool.not_eq_true] at hv
  simp only [imeAeadDecGen, imePolySimple_spec hb h16, hv]
  rfl

variable (c key iv s) in
theorem dec_spec (hb : Points buf spb wb (len.toNat / 4)) (ho : Points out_buf spo wo (len.toNat / 4))
    (hlen : len.toNat + 63 < 2 ^ 32) (h16 : len.toNat % 16 = 0)
    (ht : c.suite.tag key iv [] (cells (s.mem spb) wb (len.toNat / 4)) = tag) :
    ∃ s1, Passed c key iv len.toNat spb wb spo wo (afterMac spb wb len.toNat s) (List.range ((len.toNat + 63) / 64)) s1 ∧
      imeAeadDecGen c key iv tag len buf out_buf s = some (true, s1) := by
  obtain ⟨s1, h1, hp⟩ := crypt_passed c key iv (afterMac spb wb len.toNat s) hb ho hlen
  refine ⟨s1, hp, ?_⟩
  have hv := valid_iff.mpr ht
  rw [afterMac] at h1
  simp only [imeAeadDecGen, imePolySimple_spec hb h16, hv, h1, Bool.not_true, Bool.false_eq_true, if_false,
    Option.bind_eq_bind, Option.bind_some]
  rfl

/-- **The runtime's AEAD.** For every key, iv, text of whole 16-byte blocks,
in WRAM or MRAM, in place or apart: `ime_aead_enc` seals the text as RFC 8439
does, `ime_aead_dec` gives it back, and any other tag is refused with memory
unchanged. -/
theorem aead_round_trip (sp : Space) (p_iv : Option (Fin 3 → Word)) (counter : Fin 4 → Word) (s : St)
    (h16 : len.toNat % 16 = 0) (hb : IsBuf sp buf (len.toNat / 4)) (ho : IsBuf sp out_buf (len.toNat / 4))
    (hd : SameOrApart sp (ptrWord sp buf) sp (ptrWord sp out_buf) (len.toNat / 4)) :
    ∃ tag s1, aeadEnc c key p_iv counter sp len buf out_buf s = some (tag, ivOf p_iv counter, s1) ∧
      (cells (s1.mem sp) (ptrWord sp out_buf) (len.toNat / 4), tag) =
        c.suite.seal key (ivOf p_iv counter) [] (cells (s.mem sp) (ptrWord sp buf) (len.toNat / 4)) ∧
      (∀ out2, IsBuf sp out2 (len.toNat / 4) →
        SameOrApart sp (ptrWord sp out_buf) sp (ptrWord sp out2) (len.toNat / 4) →
        ∃ s2, aeadDec c key (ivOf p_iv counter) tag sp len out_buf out2 s1 = some (true, s2) ∧
          cells (s2.mem sp) (ptrWord sp out2) (len.toNat / 4) = cells (s.mem sp) (ptrWord sp buf) (len.toNat / 4)) ∧
      ∀ tag' out2, tag' ≠ tag → ∃ s2, aeadDec c key (ivOf p_iv counter) tag' sp len out_buf out2 s1 = some (false, s2) ∧
        s2.wram = s1.wram ∧ s2.mram = s1.mram := by
  have hlen := hb.len_lt
  obtain ⟨s0, hp, henc⟩ := enc_spec c key p_iv counter s hb.points ho.points hlen h16
  have hct := hp.cells_crypt hd
  set n := len.toNat / 4 with hn
  set iv := ivOf p_iv counter
  set s1 : St := afterMac sp (ptrWord sp out_buf) len.toNat s0 with hs1
  have hmem : s1.mem sp = s0.mem sp := mem_afterMac
  refine ⟨_, s1, aeadEnc_gen.trans henc, ?_, fun out2 ho2 hd2 => ?_, fun tag' out2 htag => ?_⟩
  · rw [hmem, hct]
    rfl
  · obtain ⟨s2, hp2, hdec⟩ := dec_spec c key iv s1 ho.points ho2.points hlen h16 rfl
    refine ⟨s2, ?_, ?_⟩
    · rw [aeadDec_gen, ← hmem]
      exact hdec
    · rw [hp2.cells_crypt hd2, mem_afterMac, hmem, hct, crypt_crypt]
  · refine ⟨_, aeadDec_gen.trans (dec_refused ho.points h16 ?_), rfl, rfl⟩
    rw [hmem]
    exact htag.symm

/-- 80 bytes in MRAM, in place, under the counter's iv. -/
theorem aead_round_trip_mram : ∃ tag s1,
    imeAeadEncMram core (fun _ => 0) none (fun _ => 1) 80 0x08000000 0x08000000 ⟨fun _ => 0, fun _ => 7, []⟩ =
      some (tag, fun _ => 1, s1) ∧
    (cells s1.mram 0 20, tag) = core.suite.seal (fun _ => 0) (fun _ => 1) [] (List.replicate 20 7) := by
  obtain ⟨tag, s1, h1, h2, -⟩ := @aead_round_trip core (fun _ => 0) 80 0x08000000 0x08000000 .mram none (fun _ => 1) ⟨fun _ => 0, fun _ => 7, []⟩ (by decide)
    ⟨by decide, by decide, by decide⟩ ⟨by decide, by decide, by decide⟩ (.inl ⟨rfl, rfl⟩)
  exact ⟨tag, s1, h1, h2⟩

end Memclave.Runtime
