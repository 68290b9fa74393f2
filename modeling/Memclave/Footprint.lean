/-
Which words a call of the runtime's ciphers reads and changes
(`crypt_frame`): those of its buffers, unless the length is above 64 and no
multiple of it. The last pass takes 64 bytes then, because the source
subtracts 16 bytes a block from the length, not 64.
-/
import Memclave.RuntimeAead

namespace Memclave.Runtime

open Words Copy Loader Aead

variable {c : Crypto} {key : Fin 8 → Word} {iv : Fin 3 → Word} {tag : Fin 4 → Word} {len buf out_buf : Word}
  {p_iv : Option (Fin 3 → Word)} {counter : Fin 4 → Word} {sp spb spo : Space} {wb wo wm : Nat} {s s' : St}

/-- `ime_chacha_enc`, or `ime_chacha_enc_mram` with a stride of 1. -/
def chachaEnc (c : Crypto) (key : Fin 8 → Word) (p_iv : Option (Fin 3 → Word)) (counter : Fin 4 → Word) :
    Space → Word → Word → Word → St → Option ((Fin 3 → Word) × St)
  | .wram => imeChachaEnc c key p_iv counter
  | .mram => imeChachaEncMram c key p_iv counter 1

/-- `ime_chacha_dec`, or `ime_chacha_dec_mram` with a stride of 1. -/
def chachaDec (c : Crypto) (key : Fin 8 → Word) (iv : Fin 3 → Word) : Space → Word → Word → Word → St → Option St
  | .wram => imeChachaDec c key iv
  | .mram => imeChachaDecMram c key iv 1

/-- `words` words at `w`, of which the access reads none outside. -/
def Access.Within (a : Access) (sp : Space) (w words : Nat) : Prop :=
  a.space = sp ∧ w ≤ a.start ∧ a.start + a.words ≤ w + words

/-- A call that reads, for the cipher, the `words` words at `wb` alone and,
for the MAC, those at `wm`, and changes those at `wo` alone. -/
structure Framed (sp : Space) (words wb wm wo : Nat) (s s' : St) : Prop where
  reads : ∃ l, s'.reads = l ++ s.reads ∧ ∀ a ∈ l, a.Within sp (if a.use = .cipher then wb else wm) words
  frame : ∀ sp' k, ¬ (sp' = sp ∧ wo ≤ k ∧ k < wo + words) → s'.mem sp' k = s.mem sp' k

/-- Lengths whose last chunk ends where the buffer does. -/
def LastFits (len : Word) : Prop := len.toNat % 64 = 0 ∨ len.toNat < 64

instance : Decidable (LastFits len) := inferInstanceAs (Decidable (_ ∨ _))

/-- In which case every chunk does. -/
theorem LastFits.chunk_le (h : LastFits len) {a : Nat} (ha : 64 * a < len.toNat) :
    16 * a + chunk len.toNat a ≤ len.toNat / 4 := by
  unfold chunk
  rcases h with h | h <;> omega

/-- And the last one does not otherwise. -/
theorem last_chunk (h16 : len.toNat % 16 = 0) (h : ¬ LastFits len) :
    len.toNat / 4 < 16 * (len.toNat / 64) + chunk len.toNat (len.toNat / 64) := by
  unfold LastFits at h
  unfold chunk
  omega

/-- The reads of the MAC are within its buffer. -/
theorem mac_within (len : Nat) (sp : Space) (w : Nat) :
    ∀ a ∈ ((List.range (len / 16)).map fun i => (⟨.mac, sp, w + 4 * i, 4⟩ : Access)).reverse,
      a.use = .mac ∧ a.Within sp w (len / 4) := by
  intro a ha
  rw [List.mem_reverse, List.mem_map] at ha
  obtain ⟨i, hi, rfl⟩ := ha
  have := List.mem_range.mp hi
  exact ⟨rfl, rfl, Nat.le_add_right _ _, by simp only; omega⟩

theorem none_read (s : St) : s.reads = [] ++ s.reads := rfl

theorem within_nil {n : Nat} : ∀ a ∈ ([] : List Access), a.use = .mac ∧ a.Within sp wm n := by simp

/-- The passes of the cipher keep to their buffers if and only if the last
chunk fits, whatever the MAC reads before and after them. -/
theorem framed_iff (h16 : len.toNat % 16 = 0) {s0 s1 s2 : St} {l1 l2 : List Access}
    (hp : Passed c key iv len.toNat sp wb sp wo s1 (List.range ((len.toNat + 63) / 64)) s2)
    (h1 : s1.reads = l1 ++ s0.reads) (h2 : s'.reads = l2 ++ s2.reads)
    (hl1 : ∀ a ∈ l1, a.use = .mac ∧ a.Within sp wm (len.toNat / 4))
    (hl2 : ∀ a ∈ l2, a.use = .mac ∧ a.Within sp wm (len.toNat / 4))
    (hm1 : ∀ sp, s1.mem sp = s0.mem sp) (hm2 : ∀ sp, s'.mem sp = s2.mem sp) :
    Framed sp (len.toNat / 4) wb wm wo s0 s' ↔ LastFits len := by
  have hreads : s'.reads = l2 ++ (((List.range ((len.toNat + 63) / 64)).map fun a =>
      (⟨.cipher, sp, wb + 16 * a, chunk len.toNat a⟩ : Access)).reverse ++ l1) ++ s0.reads := by
    rw [h2, hp.reads, h1, List.append_assoc, List.append_assoc]
  constructor
  · rintro ⟨⟨l, hl, hin⟩, -⟩
    by_contra hn
    have hlt : len.toNat / 64 < (len.toNat + 63) / 64 := by
      unfold LastFits at hn
      omega
    have hmem : (⟨.cipher, sp, wb + 16 * (len.toNat / 64), chunk len.toNat (len.toNat / 64)⟩ : Access) ∈ l := by
      rw [List.append_cancel_right (hl.symm.trans hreads)]
      refine List.mem_append_right _ (List.mem_append_left _ (List.mem_reverse.mpr (List.mem_map.mpr ?_)))
      exact ⟨_, List.mem_range.mpr hlt, rfl⟩
    have hend : wb + 16 * (len.toNat / 64) + chunk len.toNat (len.toNat / 64) ≤ wb + len.toNat / 4 := (hin _ hmem).2.2
    have := last_chunk h16 hn
    omega
  · intro hfit
    refine ⟨⟨_, hreads, fun a ha => ?_⟩, fun sp' k hk => ?_⟩
    · have hmac : a.use = .mac ∧ a.Within sp wm (len.toNat / 4) →
          a.Within sp (if a.use = .cipher then wb else wm) (len.toNat / 4) := by
        rintro ⟨hu, hw⟩
        rw [hu]
        exact hw
      cases List.mem_append.mp ha with
      | inl ha => exact hmac (hl2 a ha)
      | inr ha =>
        cases List.mem_append.mp ha with
        | inl ha =>
          rw [List.mem_reverse, List.mem_map] at ha
          obtain ⟨b, hb, rfl⟩ := ha
          have := List.mem_range.mp hb
          have := hfit.chunk_le (a := b) (by omega)
          exact ⟨rfl, Nat.le_add_right _ _, by simp only [if_true]; omega⟩
        | inr ha => exact hmac (hl1 a ha)
    · rw [hm2, ← hm1]
      refine hp.frame sp' k fun a ha hin => ?_
      have := List.mem_range.mp ha
      have := hfit.chunk_le (a := a) (by omega)
      exact hk ⟨hin.1, by omega, by omega⟩

/-- **When a call keeps to its buffers.** For every key, iv, memory content and
length of whole 16-byte blocks, a call of the ciphers, in WRAM or MRAM, reads
and changes no word outside the buffers if and only if the length is below
64 or a multiple of it; `ime_aead_dec` does so too where it refuses the tag. -/
theorem crypt_frame (sp : Space) (h16 : len.toNat % 16 = 0) (hb : IsBuf sp buf (len.toNat / 4))
    (ho : IsBuf sp out_buf (len.toNat / 4)) (s : St) :
    (∃ s', chachaEnc c key p_iv counter sp len buf out_buf s = some (ivOf p_iv counter, s') ∧
      (Framed sp (len.toNat / 4) (ptrWord sp buf) (ptrWord sp buf) (ptrWord sp out_buf) s s' ↔ LastFits len)) ∧
    (∃ s', chachaDec c key iv sp len buf out_buf s = some s' ∧
      (Framed sp (len.toNat / 4) (ptrWord sp buf) (ptrWord sp buf) (ptrWord sp out_buf) s s' ↔ LastFits len)) ∧
    (∃ tag s', aeadEnc c key p_iv counter sp len buf out_buf s = some (tag, ivOf p_iv counter, s') ∧
      (Framed sp (len.toNat / 4) (ptrWord sp buf) (ptrWord sp out_buf) (ptrWord sp out_buf) s s' ↔ LastFits len)) ∧
    ∃ valid s', aeadDec c key iv tag sp len buf out_buf s = some (valid, s') ∧
      (Framed sp (len.toNat / 4) (ptrWord sp buf) (ptrWord sp buf) (ptrWord sp out_buf) s s' ↔
        LastFits len ∨ c.suite.tag key iv [] (cells (s.mem sp) (ptrWord sp buf) (len.toNat / 4)) ≠ tag) := by
  have hlen := hb.len_lt
  refine ⟨?_, ?_, ?_, ?_⟩
  · obtain ⟨s', h, hp⟩ := crypt_passed c key (ivOf p_iv counter) s hb.points ho.points hlen
    refine ⟨s', ?_, framed_iff h16 hp (none_read _) (none_read _) within_nil within_nil (fun _ => rfl)
      fun _ => rfl⟩
    cases sp
    · show imeChachaEncGen c key p_iv counter 1 len _ _ s = _
      rw [imeChachaEncGen, h]
      rfl
    · show imeChachaEncGen c key p_iv counter 1 len _ _ s = _
      rw [imeChachaEncGen, h]
      rfl
  · obtain ⟨s', h, hp⟩ := crypt_passed c key iv s hb.points ho.points hlen
    refine ⟨s', ?_, framed_iff h16 hp (none_read _) (none_read _) within_nil within_nil (fun _ => rfl)
      fun _ => rfl⟩
    cases sp
    · exact h
    · exact h
  · obtain ⟨s1, hp, h⟩ := enc_spec c key p_iv counter s hb.points ho.points hlen h16
    refine ⟨_, _, aeadEnc_gen.trans h, framed_iff h16 hp (none_read _) rfl within_nil (mac_within _ _ _)
      (fun _ => rfl) fun sp' => ?_⟩
    cases sp' <;> rfl
  · by_cases ht : c.suite.tag key iv [] (cells (s.mem sp) (ptrWord sp buf) (len.toNat / 4)) = tag
    · obtain ⟨s1, hp, h⟩ := dec_spec c key iv s hb.points ho.points hlen h16 ht
      refine ⟨true, s1, aeadDec_gen.trans h, ?_⟩
      rw [framed_iff h16 hp rfl (none_read _) (mac_within _ _ _) within_nil (fun _ => mem_afterMac) fun _ => rfl]
      exact ⟨.inl, fun h => h.resolve_right (not_not.mpr ht)⟩
    · refine ⟨false, _, aeadDec_gen.trans (dec_refused hb.points h16 ht), iff_of_true ?_ (.inr ht)⟩
      refine ⟨⟨_, rfl, fun a ha => ?_⟩, fun sp' k _ => by rw [mem_afterMac]⟩
      obtain ⟨hu, hw⟩ := mac_within len.toNat sp (ptrWord sp buf) a ha
      rw [hu]
      exact hw

/-- 128 bytes of WRAM keep to their buffer. -/
theorem crypt_frame_wram : ∃ s', imeChachaDec core (fun _ => 0) (fun _ => 0) 128 0x1000 0x1000
      ⟨fun _ => 0, fun _ => 0, []⟩ = some s' ∧ Framed .wram 32 0x400 0x400 0x400 ⟨fun _ => 0, fun _ => 0, []⟩ s' := by
  obtain ⟨-, ⟨s', h, hf⟩, -⟩ := @crypt_frame core (fun _ => 0) (fun _ => 0) (fun _ => 0) 128 0x1000 0x1000
    none (fun _ => 0) .wram (by decide)
    ⟨by decide, by decide⟩ ⟨by decide, by decide⟩ ⟨fun _ => 0, fun _ => 0, []⟩
  exact ⟨s', h, hf.mpr (by decide)⟩

/-- 80 bytes do not: the second chunk reads 64 of the 16 bytes that are left,
and changes the word after the buffer. -/
theorem crypt_frame_overrun : ∃ s', imeChachaEnc core (fun _ => 0) (some fun _ => 0) (fun _ => 0) 80 0x1000 0x1000
      ⟨fun _ => 0, fun _ => 0, []⟩ = some (fun _ => 0, s') ∧
    ⟨.cipher, .wram, 0x410, 16⟩ ∈ s'.reads ∧ s'.wram 0x414 ≠ 0 ∧
    ¬ Framed .wram 20 0x400 0x400 0x400 ⟨fun _ => 0, fun _ => 0, []⟩ s' := by
  have hchanged : (passes core (fun _ => 0) (fun _ => 0) 80 0x1000 0x1000 ⟨fun _ => 0, fun _ => 0, []⟩
      (visited 1 2)).wram 0x414 ≠ 0 := by decide +kernel
  refine ⟨_, ?_, by decide, hchanged, fun h => hchanged (h.frame .wram 0x414 (by decide))⟩
  show imeChachaEncGen core (fun _ => 0) (some fun _ => 0) (fun _ => 0) 1 80 0x1000 0x1000 _ = _
  rw [imeChachaEncGen, imeChachaCrypt_eq (by decide) (by decide)]
  rfl

end Memclave.Runtime
