/-
What the routines of the loader do, one fact about each: how it ends, and
where it ends in a fault, what was missing. `CopyOk`, `WipeOk`, `ChachaOk` and
`InMram` say what a routine needs; a fault of the DPU's own (`mem`) is always
the lack of one of them.
-/
import Memclave.Loader

namespace Memclave.Loader

open Words Exec Copy

/-! ## `ime_copy_sk` -/

/-- What a copy of `r4` bytes needs to come to its end. -/
def CopyOk (r0 r1 r4 : Word) : Prop :=
  0 < r4.toNat ∧ r4.toNat % 8 = 0 ∧ InMram r0 (r4.toNat / 4) ∧ InMram r1 (r4.toNat / 4)

/-- One pass of the loop: what is left is to be copied from the next word on. -/
theorem copyOk_next {r0 r1 r4 : Word} (h0 : InMram r0 2) (h1 : InMram r1 2) (hr : r4 + (-8) ≠ 0) :
    CopyOk (r0 + 8) (r1 + 8) (r4 + (-8)) ↔ CopyOk r0 r1 r4 := by
  have e0 : mramAt (r0 + 8) = mramAt r0 + 2 := mramAt_add_lt (i := 1) h0 (by decide)
  have e1 : mramAt (r1 + 8) = mramAt r1 + 2 := mramAt_add_lt (i := 1) h1 (by decide)
  have hw : mramWords = 2 ^ 24 := rfl
  have h8 : (-8 : Word).toNat = 2 ^ 32 - 8 := by decide
  have hlt := word_lt r4
  have hne : r4.toNat ≠ 8 := fun he => hr (BitVec.eq_of_toNat_eq (by rw [BitVec.toNat_add, h8, he]; decide))
  unfold CopyOk
  simp only [InMram, e0, e1, hw] at h0 h1 ⊢
  rw [BitVec.toNat_add, h8]
  by_cases h : 8 ≤ r4.toNat
  · rw [show (r4.toNat + (2 ^ 32 - 8)) % 2 ^ 32 = r4.toNat - 8 by omega]
    omega
  · rw [show (r4.toNat + (2 ^ 32 - 8)) % 2 ^ 32 = r4.toNat + (2 ^ 32 - 8) by omega]
    omega

theorem toNat_sub_eight {r4 : Word} (h0 : 0 < r4.toNat) (h8 : r4.toNat % 8 = 0) :
    (r4 + (-8)).toNat = r4.toNat - 8 := by
  have h : (-8 : Word).toNat = 2 ^ 32 - 8 := by decide
  have := word_lt r4
  rw [BitVec.toNat_add, h]
  omega

theorem imeCopySkLoop_spec (r0 r1 r4 : Word) (s : St) :
    wp (imeCopySkLoop r0 r1 r4)
      (fun _ s' => CopyOk r0 r1 r4 ∧ (∀ k, 2 ≤ k → s'.wram k = s.wram k) ∧
        s' = { s with mram := fwd s.mram (mramAt r0) (mramAt r1) (r4.toNat / 4), wram := s'.wram })
      (fun e s' => (e = .mem ∧ ¬ CopyOk r0 r1 r4) ∧ s'.trace = s.trace) s := by
  induction hm : 2 ^ 27 - mramOff r0 using Nat.strong_induction_on generalizing r0 r1 r4 s with
  | _ m ih =>
  subst hm
  rw [imeCopySkLoop]
  split
  case isFalse h0 =>
    refine ⟨⟨rfl, fun hc => h0 ?_⟩, rfl⟩
    unfold CopyOk InMram at *
    omega
  case isTrue h0 =>
    have hw : InWram 0 (2 * 1) := by decide
    rw [wp_bind, wp_ldma]
    refine ⟨fun _ => ?_, fun hn => (hn ⟨h0, hw⟩).elim⟩
    rw [wp_bind, wp_sdma]
    refine ⟨fun h => ?_, fun hn => ⟨⟨rfl, fun hc => hn ⟨?_, hw⟩⟩, rfl⟩⟩
    · -- the first word is at its place
      have h1 : InMram r1 2 := h.1
      simp only [blit_through]
      have hne : mramAt r1 ≠ mramAt r0 + 1 := by
        have := mramAt_even r0
        have := mramAt_even r1
        omega
      have hfwd : blit s.mram (mramAt r1) s.mram (mramAt r0) (2 * 1) = fwd s.mram (mramAt r0) (mramAt r1) 2 :=
        (fwd_two 0 hne).symm
      have hwr : ∀ k, 2 ≤ k → blit s.wram (wramAt 0) s.mram (mramAt r0) (2 * 1) k = s.wram k :=
        fun k hk => blit_out (.inr (by rw [show wramAt 0 = 0 from rfl]; omega))
      rw [wp_ite]
      refine ⟨fun hz => ?_, fun hz => ?_⟩
      · have h8 : r4 = 8 := by
          have := congrArg (· + (8 : Word)) hz
          simpa [BitVec.add_assoc] using this
        subst h8
        exact ⟨⟨by decide, by decide, h0, h1⟩, hwr, by rw [hfwd]; rfl⟩
      · have hoff := mramOff_lt h0
        have h8 : mramOff (r0 + 8) = mramOff r0 + 8 := mramOff_add (by omega)
        refine (ih _ (by omega) _ _ _ _ rfl).mono (fun _ s' h => ?_) fun e s' h => ?_
        · obtain ⟨hc, hk, hs⟩ := h
          have hc' := (copyOk_next h0 h1 hz).mp hc
          have e0 : mramAt (r0 + 8) = mramAt r0 + 2 := mramAt_add_lt (i := 1) h0 (by decide)
          have e1 : mramAt (r1 + 8) = mramAt r1 + 2 := mramAt_add_lt (i := 1) h1 (by decide)
          refine ⟨hc', fun k hk2 => (hk k hk2).trans (hwr k hk2), ?_⟩
          rw [hs, hfwd, e0, e1, fwd_fwd, toNat_sub_eight hc'.1 hc'.2.1]
          have := hc'.1
          have := hc'.2.1
          have := hc.1
          rw [show 2 + (r4.toNat - 8) / 4 = r4.toNat / 4 by omega]
        · exact ⟨⟨h.1.1, fun hc => h.1.2 ((copyOk_next h0 h1 hz).mpr hc)⟩, h.2⟩
    · unfold CopyOk InMram at *
      omega

/-- The size that `ime_copy_sk` reads from the header at `r0`. -/
def sizeAt (m : Nat → Word) (r0 : Word) : Word := m (mramAt (r0 + 0x20) + 1)

def SkCopyOk (m : Nat → Word) (r0 r1 : Word) : Prop :=
  InMram (r0 + 0x20) 2 ∧ CopyOk r0 r1 (sizeAt m r0)

/-- Memory after `ime_copy_sk`. -/
def copySk (m : Nat → Word) (r0 r1 : Word) : Nat → Word :=
  fwd m (mramAt r0) (mramAt r1) ((sizeAt m r0).toNat / 4)

theorem update_two {w w' : Nat → Word} (h : ∀ k, 2 ≤ k → w' k = w k) :
    Function.update (Function.update w' 0 (w 0)) 1 (w 1) = w := by
  funext k
  by_cases h1 : k = 1
  · rw [h1, Function.update_self]
  · rw [Function.update_of_ne h1]
    by_cases h0 : k = 0
    · rw [h0, Function.update_self]
    · rw [Function.update_of_ne h0, h k (by omega)]

theorem imeCopySk_spec (r0 r1 : Word) (s : St) :
    wp (imeCopySk r0 r1)
      (fun _ s' => SkCopyOk s.mram r0 r1 ∧ s' = { s with mram := copySk s.mram r0 r1 })
      (fun e s' => (e = .mem ∧ ¬ SkCopyOk s.mram r0 r1) ∧ s'.trace = s.trace) s := by
  have hw0 : IsWord 0 := by decide
  have hw4 : IsWord 4 := by decide
  simp only [imeCopySk, wp_bind]
  refine wp_lw_of hw0 (wp_lw_of hw4 (wp_ldma.mpr
    ⟨fun h => wp_lw_of hw4 ?_, fun hn => ⟨⟨rfl, fun hc => hn ?_⟩, rfl⟩⟩))
  · have hsize : blit s.wram (wramAt 0) s.mram (mramAt (r0 + 0x20)) (2 * 1) ((4 : Word).toNat / 4) =
        sizeAt s.mram r0 := blit_in (by decide) (by decide)
    dsimp only
    rw [hsize]
    refine (imeCopySkLoop_spec r0 r1 (sizeAt s.mram r0) _).mono (fun _ s' hs => ?_) fun e s' he => ?_
    · obtain ⟨hc, hk, hs⟩ := hs
      refine wp_sw_of hw0 (wp_sw_of hw4 ⟨⟨h.1, hc⟩, ?_⟩)
      have hk' : ∀ k, 2 ≤ k → s'.wram k = s.wram k := fun k h2 => by
        rw [hk k h2]
        exact blit_out (.inr h2)
      have hu := update_two hk'
      rw [hs]
      show St.mk _ _ _ _ _ _ _ = _
      congr 1
    · exact ⟨⟨he.1.1, fun hc => he.1.2 hc.2⟩, he.2⟩
  · exact ⟨hc.1, by decide⟩

/-! ## `ime_check_system`, `ime_check_threads`, `ime_wipe_user` -/

theorem imeCheckSystem_spec (r21 : Word) (s : St) :
    wp (imeCheckSystem r21) (fun _ s' => InMram r21 2 ∧ s.id = 0 ∧ s' = s)
      (fun e s' => s'.mram = s.mram ∧ (e = .mem ∧ ¬ InMram r21 2 ∨ e = .sec ∧ s.id ≠ 0)) s := by
  have hw0 : IsWord 0 := by decide
  have hw4 : IsWord 4 := by decide
  simp only [imeCheckSystem, wp_bind]
  refine wp_lw_of hw0 (wp_lw_of hw4 (wp_ldma.mpr ⟨fun h => wp_sw_of hw0 (wp_sw_of hw4 ?_), fun hn => ?_⟩))
  · have hs : { s with wram := Function.update (Function.update
        (blit s.wram (wramAt 0) s.mram (mramAt r21) (2 * 1)) 0 (s.wram 0)) 1 (s.wram 1) } = s := by
      rw [update_two fun k hk => blit_out (.inr hk)]
    show wp _ _ _ { s with wram := Function.update (Function.update
        (blit s.wram (wramAt 0) s.mram (mramAt r21) (2 * 1)) 0 (s.wram 0)) 1 (s.wram 1) }
    rw [hs, wp_get, wp_ite]
    exact ⟨fun hid => ⟨rfl, .inr ⟨rfl, hid⟩⟩, fun hid => ⟨h.1, not_not.mp hid, rfl⟩⟩
  · exact ⟨rfl, .inl ⟨rfl, fun h => hn ⟨h, by decide⟩⟩⟩

/-- One of the other tasklets runs code of the user's. -/
def ThreadRuns (s : St) : Prop := (List.range' 1 15).any s.running = true

theorem imeCheckThreads_spec (s : St) :
    wp imeCheckThreads (fun _ s' => ¬ ThreadRuns s ∧ s' = s)
      (fun e s' => e = .sec ∧ ThreadRuns s ∧ s' = s) s := by
  rw [imeCheckThreads, wp_bind, wp_get, wp_ite]
  exact ⟨fun h => ⟨rfl, h, rfl⟩, fun h => ⟨h, rfl⟩⟩

theorem sub_four_msb (r : Word) : (r + (-4)).msb = true ↔ r.toNat < 4 ∨ 2 ^ 31 + 4 ≤ r.toNat := by
  have h4 : (-4 : Word).toNat = 2 ^ 32 - 4 := by decide
  have hlt := word_lt r
  rw [BitVec.msb_eq_decide, decide_eq_true_iff, BitVec.toNat_add, h4]
  omega

theorem toNat_sub_four {r : Word} (h : 4 ≤ r.toNat) : (r + (-4)).toNat = r.toNat - 4 := by
  have h4 : (-4 : Word).toNat = 2 ^ 32 - 4 := by decide
  have hlt := word_lt r
  rw [BitVec.toNat_add, h4]
  omega

theorem imeWipeLoop_spec (r0 : Word) (s : St) :
    wp (imeWipeLoop r0)
      (fun _ s' => IsWord r0 ∧ s' = { s with wram := fun k => if k ≤ r0.toNat / 4 then 0 else s.wram k })
      (fun e s' => e = .mem ∧ ¬ IsWord r0 ∧ s' = s) s := by
  induction hm : r0.toNat using Nat.strong_induction_on generalizing r0 s with
  | _ m ih =>
  subst hm
  rw [imeWipeLoop, wp_bind, wp_sw]
  refine ⟨fun h => ?_, fun h => ⟨rfl, h, rfl⟩⟩
  have hW : wramWords = 2 ^ 14 := rfl
  obtain ⟨h1, h2⟩ := h
  split
  next hneg =>
    have h0 : r0.toNat = 0 := by
      rcases (sub_four_msb r0).mp hneg with h | h <;> omega
    refine ⟨⟨h1, h2⟩, congrArg (fun w => { s with wram := w }) ?_⟩
    funext k
    by_cases hk : k = 0
    · rw [hk, h0, Function.update_self, if_pos (by omega)]
    · rw [Function.update_of_ne (by omega), if_neg (by omega)]
  next hneg =>
    have h4 : 4 ≤ r0.toNat := by
      by_contra hn
      exact hneg ((sub_four_msb r0).mpr (.inl (by omega)))
    have hsub := toNat_sub_four h4
    refine (ih _ (by omega) (r0 + (-4)) _ rfl).mono (fun _ s' hs => ⟨⟨h1, h2⟩, ?_⟩) fun e s' he => ?_
    · refine hs.2.trans (congrArg (fun w => { s with wram := w }) ?_)
      funext k
      dsimp only
      rw [hsub]
      by_cases hk : k = r0.toNat / 4
      · rw [if_neg (by omega), if_pos (by omega), hk, Function.update_self]
      · rw [Function.update_of_ne hk]
        by_cases hk' : k < r0.toNat / 4
        · rw [if_pos (by omega), if_pos (by omega)]
        · rw [if_neg (by omega), if_neg (by omega)]
    · exact (he.2.1 ⟨by rw [hsub]; omega, by rw [hsub]; omega⟩).elim

/-- How many words `ime_wipe_user` wipes. -/
def wiped (r17 : Word) : Nat := if (r17 + (-4)).msb then 0 else (r17 + (-4)).toNat / 4 + 1

def WipeOk (r17 : Word) : Prop := (r17 + (-4)).msb ∨ IsWord (r17 + (-4))

theorem imeWipeUser_spec (r17 : Word) (s : St) :
    wp (imeWipeUser r17)
      (fun _ s' => WipeOk r17 ∧ s' = { s with wram := fun k => if k < wiped r17 then 0 else s.wram k })
      (fun e s' => e = .mem ∧ ¬ WipeOk r17 ∧ s' = s) s := by
  rw [imeWipeUser, wp_ite]
  refine ⟨fun h => ⟨.inl h, ?_⟩, fun h => ?_⟩
  · rw [wiped, if_pos h]
    rfl
  refine (imeWipeLoop_spec (r17 + (-4)) s).mono (fun _ s' hs => ⟨.inr hs.1, ?_⟩) fun e s' he => ?_
  · rw [hs.2, wiped, if_neg h]
    simp only [Nat.lt_succ_iff]
  · exact ⟨he.1, by rintro (hn | hn); exacts [h hn, he.2.1 hn], he.2.2⟩

/-! ## `ime_chacha_blk` -/

/-- The key that `ime_chacha_blk` uses for a pointer. -/
def keyOf (s : St) (key : Word) : Fin 8 → Word :=
  if key ≠ 0 then fun i => s.wram (key.toNat / 4 + i) else s.sysKey

def ChachaOk (s : St) (r21 key : Word) : Prop :=
  if key ≠ 0 then key.toNat % 4 = 0 ∧ key.toNat / 4 + 8 ≤ wramWords
  else s.id = 0 ∧ s.running 22 = false ∧ InMram r21 2

/-- WRAM after a call: with a key of the user's as before, with the system
key as before below the thread-io area. -/
def WramKept (key : Word) (w w' : Nat → Word) : Prop := ∀ k, (key = 0 → k < 0x3FF0) → w' k = w k

theorem WramKept.refl (key : Word) (w : Nat → Word) : WramKept key w w := fun _ _ => rfl

theorem WramKept.trans {key : Word} {w w' w'' : Nat → Word} (h : WramKept key w w')
    (h' : WramKept key w' w'') : WramKept key w w'' := fun k hk => (h' k hk).trans (h k hk)

theorem keyOf_kept {s s' : St} {key : Word} (hs : s'.sysKey = s.sysKey) (hw : WramKept key s.wram s'.wram) :
    keyOf s' key = keyOf s key := by
  unfold keyOf
  split
  next h => exact funext fun i => hw _ fun h0 => (h h0).elim
  next => exact hs

/-- A store to the thread-io area. -/
theorem wp_sw_io {a v : Word} {s : St} {Q : Unit → St → Prop} {E : Fault → St → Prop} (ha : IsWord a)
    (hio : 0x3FF0 ≤ a.toNat / 4)
    (hQ : ∀ w, (∀ k < 0x3FF0, w k = s.wram k) → Q () { s with wram := w }) : wp (sw a v) Q E s :=
  wp_sw_of ha (hQ _ fun _ hk => Function.update_of_ne (by omega) _ _)

theorem imeChachaBlk_spec (c : Crypto) (f : Frames) (r21 key ctr : Word) (iv : Fin 3 → Word) (s : St) :
    wp (imeChachaBlk c f r21 key ctr iv)
      (fun out s' => ChachaOk s r21 key ∧ out = c.chachaBlk (keyOf s key) ctr iv ∧
        WramKept key s.wram s'.wram ∧ s' = { s with wram := s'.wram })
      (fun _ s' => s'.mram = s.mram ∧ ¬ ChachaOk s r21 key) s := by
  rw [imeChachaBlk, wp_ite]
  refine ⟨fun hk => ?_, fun hk => ?_⟩
  · rw [wp_bind, lwArray, wp_ite]
    simp only [ChachaOk, keyOf, if_pos hk]
    exact ⟨fun h => ⟨h, rfl, WramKept.refl key s.wram, rfl⟩, fun h => ⟨rfl, h⟩⟩
  · have hk0 : key = 0 := not_not.mp hk
    simp only [ChachaOk, keyOf, WramKept, hk0, forall_const]
    rw [wp_bind, wp_get, wp_ite]
    refine ⟨fun h => wp_bind.mpr ⟨rfl, fun hn => h hn.1⟩, fun hid => wp_bind.mpr ?_⟩
    refine wp_sw_io (by decide) (by decide) fun w0 h0 => wp_bind.mpr ?_
    refine wp_sw_io (by decide) (by decide) fun w1 h1 => wp_bind.mpr ?_
    refine wp_sw_io (by decide) (by decide) fun w2 h2 => wp_bind.mpr ?_
    refine wp_sw_io (by decide) (by decide) fun w3 h3 => wp_bind.mpr ?_
    refine wp_sw_io (by decide) (by decide) fun w4 h4 => wp_bind.mpr ?_
    refine wp_sw_io (by decide) (by decide) fun w5 h5 => wp_bind.mpr ?_
    refine wp_sw_io (by decide) (by decide) fun w6 h6 => ?_
    rw [wp_bind, wp_get, wp_ite]
    refine ⟨fun h => wp_bind.mpr ⟨rfl, fun hn => by simp [hn.2.1] at h⟩, fun hrun => wp_bind.mpr ?_⟩
    refine wp_lw_of (by decide) (wp_bind.mpr ?_)
    refine wp_sw_io (by decide) (by decide) fun w7 h7 => wp_bind.mpr ?_
    refine wp_sw_io (by decide) (by decide) fun w8 h8 => wp_bind.mpr ?_
    refine (imeCheckSystem_spec r21 _).mono (fun _ s' h => ?_) fun e s' h => ?_
    · obtain ⟨hin, -, rfl⟩ := h
      rw [wp_bind, wp_get, wp_pure]
      refine ⟨⟨not_not.mp hid, by simpa using hrun, hin⟩, rfl, fun k hk => ?_, rfl⟩
      exact (h8 k hk).trans <| (h7 k hk).trans <| (h6 k hk).trans <| (h5 k hk).trans <| (h4 k hk).trans <|
        (h3 k hk).trans <| (h2 k hk).trans <| (h1 k hk).trans (h0 k hk)
    · refine ⟨h.1, fun hn => ?_⟩
      rcases h.2 with ⟨-, h⟩ | ⟨-, h⟩
      exacts [h hn.2.2, h hn.1]

/-! ## `ime_decrypt_verify` -/

/-- The `i`-th chunk of 16 bytes from word `p` on. -/
def chunkAt (m : Nat → Word) (p i : Nat) : Fin 4 → Word := fun j => m (p + 4 * i + j)

/-- The chunks `a` to `b - 1`. -/
def chunksAt (m : Nat → Word) (p a b : Nat) : List (Fin 4 → Word) :=
  (List.range' a (b - a)).map (chunkAt m p)

/-- What the feeding of those chunks adds to the trace. -/
def fedTrace (p a b : Nat) : List Event := ((List.range' a (b - a)).map fun i => .fed (p + 4 * i)).reverse

theorem range'_next {a j : Nat} (h : a ≤ j) : List.range' a (j + 1 - a) = List.range' a (j - a) ++ [j] := by
  rw [show j + 1 - a = j - a + 1 by omega, List.range'_concat, show a + 1 * (j - a) = j by omega]

theorem chunksAt_next {m : Nat → Word} {p a j : Nat} (h : a ≤ j) :
    chunksAt m p a (j + 1) = chunksAt m p a j ++ [chunkAt m p j] := by
  rw [chunksAt, range'_next h, List.map_append, List.map_singleton, chunksAt]

theorem fedTrace_next {p a j : Nat} (h : a ≤ j) :
    fedTrace p a (j + 1) = .fed (p + 4 * j) :: fedTrace p a j := by
  rw [fedTrace, range'_next h, List.map_append, List.reverse_append, fedTrace]
  rfl

theorem chunksAt_nil {m : Nat → Word} {p a b : Nat} (h : b ≤ a) : chunksAt m p a b = [] := by
  rw [chunksAt, show b - a = 0 by omega]
  rfl

theorem fedTrace_nil {p a b : Nat} (h : b ≤ a) : fedTrace p a b = [] := by
  rw [fedTrace, show b - a = 0 by omega]
  rfl

/-- Where a block of `16 * i` bytes ends that lies in MRAM. -/
theorem mramAt_chunk {sk : Word} {i n : Nat} (h : InMram sk n) (hi : 4 * i ≤ n) :
    mramAt (sk + BitVec.ofNat 32 (16 * i)) = mramAt sk + 4 * i := by
  rw [show 16 * i = 8 * (2 * i) by omega, mramAt_add_lt h (by omega)]
  omega

/-- The two loops that feed the subkernel: the chunks from `a` on, if what
comes before them lies in MRAM. -/
theorem feed_spec (c : Crypto) {sk : Word} {a b : Nat} (ctx : c.Ctx) {s : St}
    (ha : InMram sk (max 16 (4 * a))) :
    wp (forRange a b ctx (feedSkChunk c sk))
      (fun ctx' s' => InMram sk (max 16 (4 * max a b)) ∧
        ctx' = (chunksAt s.mram (mramAt sk) a b).foldl c.polyFeedBlock ctx ∧
        s' = { s with trace := fedTrace (mramAt sk) a b ++ s.trace })
      (fun e s' => s'.mram = s.mram ∧ e = .mem ∧ ¬ InMram sk (max 16 (4 * max a b))) s := by
  refine (wp_forRange (fun j y t => a ≤ j ∧ InMram sk (max 16 (4 * j)) ∧
    y = (chunksAt s.mram (mramAt sk) a j).foldl c.polyFeedBlock ctx ∧
    t = { s with trace := fedTrace (mramAt sk) a j ++ s.trace }) ?_ fun j y t haj hjb h => ?_).mono
      (fun y t h => ?_) fun _ _ h => h
  · refine ⟨le_rfl, ha, ?_, ?_⟩
    · rw [chunksAt_nil le_rfl, List.foldl_nil]
    · rw [fedTrace_nil le_rfl, List.nil_append]
  · obtain ⟨-, hj, rfl, rfl⟩ := h
    have hat := mramAt_chunk (i := j) hj (by omega)
    rw [feedSkChunk, wp_bind, fetchSkChunk, wp_mramRead]
    refine ⟨fun h => ?_, fun h => ⟨rfl, rfl, fun hn => h ?_⟩⟩
    · rw [wp_bind, wp_log, wp_pure]
      refine ⟨by omega, ?_, ?_, ?_⟩
      · unfold InMram at *
        omega
      · rw [chunksAt_next haj, List.foldl_append, hat]
        rfl
      · rw [fedTrace_next haj, hat]
        rfl
    · unfold InMram at *
      omega
  · cases Nat.le_total a b with
    | inl hab =>
      rw [Nat.max_eq_right hab] at h ⊢
      exact h.2
    | inr hab =>
      rw [Nat.max_eq_left hab] at h ⊢
      obtain ⟨-, h1, h2, h3⟩ := h
      refine ⟨h1, ?_, ?_⟩
      · rw [h2, chunksAt_nil le_rfl, chunksAt_nil hab]
      · rw [h3, fedTrace_nil le_rfl, fedTrace_nil hab]

/-- The word of the key stream at word `j` of the image, when block `a` is the
first one encrypted. -/
def keystream (c : Crypto) (key : Fin 8 → Word) (iv : Fin 3 → Word) (a j : Nat) : Word :=
  c.chachaBlk key (BitVec.ofNat 32 (j / 16 - a + 1)) iv ⟨j % 16, mod_sixteen_lt j⟩

/-- Memory with the blocks `a` to `b - 1` from word `p` on decrypted. -/
def decrypted (c : Crypto) (key : Fin 8 → Word) (iv : Fin 3 → Word) (m : Nat → Word) (p a b : Nat) :
    Nat → Word :=
  fun k => if p + 16 * a ≤ k ∧ k < p + 16 * b then m k ^^^ keystream c key iv a (k - p) else m k

theorem decrypted_nil {c : Crypto} {key : Fin 8 → Word} {iv : Fin 3 → Word} {m : Nat → Word} {p a b : Nat}
    (h : b ≤ a) : decrypted c key iv m p a b = m :=
  funext fun _ => if_neg (by omega)

theorem decrypted_next {c : Crypto} {key : Fin 8 → Word} {iv : Fin 3 → Word} {m : Nat → Word} {p a j : Nat}
    (h : a ≤ j) :
    put (decrypted c key iv m p a j) (p + 16 * j) (fun i : Fin 16 =>
        decrypted c key iv m p a j (p + 16 * j + i) ^^^ c.chachaBlk key (BitVec.ofNat 32 (j - a + 1)) iv i) =
      decrypted c key iv m p a (j + 1) := by
  funext k
  unfold put
  split
  next hk =>
    -- the block at hand: not touched by the passes before
    have hold : decrypted c key iv m p a j k = m k := if_neg (by omega)
    have hj : (k - p) / 16 = j := by omega
    have hi : (k - p) % 16 = k - (p + 16 * j) := by omega
    simp only [show p + 16 * j + (k - (p + 16 * j)) = k by omega, hold]
    rw [decrypted, if_pos (by omega), keystream, hj]
    congr 2
    exact Fin.ext hi.symm
  next hk =>
    unfold decrypted
    by_cases h1 : p + 16 * a ≤ k ∧ k < p + 16 * j
    · rw [if_pos h1, if_pos (by omega)]
    · rw [if_neg h1, if_neg (by omega)]

theorem chachaOk_congr {s t : St} {r21 key : Word} (hid : t.id = s.id) (hr : t.running = s.running) :
    ChachaOk t r21 key ↔ ChachaOk s r21 key := by
  unfold ChachaOk
  rw [hid, hr]

/-- The body of the loop that decrypts. -/
theorem xorSkChunk_spec {sk : Word} {j n : Nat} (data : Fin 16 → Word) {s : St}
    (h : InMram sk (16 * n)) (hj : j < n) :
    wp (xorSkChunk sk j data)
      (fun _ s' => s' = { s with
        mram := put s.mram (mramAt sk + 16 * j) (fun i => s.mram (mramAt sk + 16 * j + i) ^^^ data i) })
      (fun _ _ => False) s := by
  have hat : mramAt (sk + BitVec.ofNat 32 (64 * j)) = mramAt sk + 16 * j := by
    rw [show 64 * j = 16 * (4 * j) by omega, mramAt_chunk h (by omega)]
    omega
  have hin : InMram (sk + BitVec.ofNat 32 (64 * j)) 16 := by
    unfold InMram at *
    omega
  rw [xorSkChunk, wp_bind, wp_mramRead, hat]
  refine ⟨fun _ => wp_mramWrite.mpr ⟨fun _ => ?_, fun hn => hn hin⟩, fun hn => hn hin⟩
  rw [hat]

theorem decrypt_spec (c : Crypto) (f : Frames) {sk : Word} (key : Word) (iv : Fin 3 → Word) {a b : Nat}
    {s : St} (hb : InMram sk (16 * b)) :
    wp (forRange a b () fun i _ => do
        let chacha_output ← imeChachaBlk c f sk key (BitVec.ofNat 32 (i - a + 1)) iv
        xorSkChunk sk i chacha_output)
      (fun _ s' => WramKept key s.wram s'.wram ∧
        s' = { s with mram := decrypted c (keyOf s key) iv s.mram (mramAt sk) a b, wram := s'.wram })
      (fun _ _ => ¬ ChachaOk s sk key) s := by
  refine (wp_forRange (fun j _ t => a ≤ j ∧ WramKept key s.wram t.wram ∧
    t = { s with mram := decrypted c (keyOf s key) iv s.mram (mramAt sk) a j, wram := t.wram })
      ?_ fun j _ t haj hjb h => ?_).mono (fun _ t h => ?_) fun _ _ h => h
  · exact ⟨le_rfl, WramKept.refl key s.wram, by rw [decrypted_nil le_rfl]⟩
  · obtain ⟨-, hw, ht⟩ := h
    have hkey : keyOf t key = keyOf s key := keyOf_kept (by rw [ht]) hw
    have hok : ChachaOk t sk key ↔ ChachaOk s sk key := chachaOk_congr (by rw [ht]) (by rw [ht])
    have hm : t.mram = decrypted c (keyOf s key) iv s.mram (mramAt sk) a j := by rw [ht]
    refine wp.bind (imeChachaBlk_spec c f sk key _ iv t) (fun out t1 h1 => ?_) fun _ _ h1 => ?_
    · obtain ⟨-, hout, hw1, ht1⟩ := h1
      refine (xorSkChunk_spec out hb hjb).mono (fun _ t2 h2 => ?_) fun _ _ h2 => h2.elim
      have hm1 : t1.mram = t.mram := by rw [ht1]
      rw [hm1, hm, hout, hkey, decrypted_next haj] at h2
      refine ⟨by omega, ?_, ?_⟩
      · rw [h2]
        exact hw.trans hw1
      · rw [h2, ht1, ht]
    · exact fun hs => h1.2 (hok.mpr hs)
  · cases Nat.le_total a b with
    | inl hab =>
      rw [Nat.max_eq_right hab] at h
      exact h.2
    | inr hab =>
      rw [Nat.max_eq_left hab, decrypted_nil le_rfl] at h
      rw [decrypted_nil hab]
      exact h.2

/-- The header of the subkernel at word `p`. -/
def headerAt (m : Nat → Word) (p : Nat) : Header := Header.ofWords fun i => m (p + i)

/-- A header by its words. -/
theorem headerAt_eq {m : Nat → Word} {p : Nat} {h : Header} (hmagic : m p = h.magic)
    (htag : ∀ i : Fin 4, m (p + (i + 1)) = h.tag i) (hiv : ∀ i : Fin 3, m (p + (i + 5)) = h.iv i)
    (haad : m (p + 8) = h.sizeAad) (hsize : m (p + 9) = h.size) (htext : m (p + 10) = h.textSize)
    (hdata : m (p + 11) = h.dataSize) : headerAt m p = h := by
  refine Header.ext hmagic (funext fun i => ?_) (funext fun i => ?_) haad hsize htext hdata
  · obtain rfl | rfl | rfl | rfl : i = 0 ∨ i = 1 ∨ i = 2 ∨ i = 3 := by omega
    · exact htag 0
    · exact htag 1
    · exact htag 2
    · exact htag 3
  · obtain rfl | rfl | rfl : i = 0 ∨ i = 1 ∨ i = 2 := by omega
    · exact hiv 0
    · exact hiv 1
    · exact hiv 2

/-- What `ime_decrypt_verify` feeds into the MAC. -/
def macBlocks (m : Nat → Word) (p : Nat) : List (Fin 4 → Word) :=
  let h := headerAt m p
  ![0xA5A5A5A5, 0, 0, 0] :: ![0, 0, 0, 0] ::
    (chunksAt m p 2 (h.sizeAad.toNat / 16) ++ chunksAt m p (h.sizeAad.toNat / 16) (h.size.toNat / 16) ++
      [![h.sizeAad, 0, h.size - h.sizeAad, 0]])

/-- The tag it compares with the header's. -/
def macOf (c : Crypto) (key : Fin 8 → Word) (m : Nat → Word) (p : Nat) : Fin 4 → Word :=
  c.polyFinalize ((macBlocks m p).foldl c.polyFeedBlock
    (c.polyInit (polyKey (c.chachaBlk key 0 (headerAt m p).iv))))

/-- How many chunks are read, if more than the header. -/
def fedEnd (h : Header) : Nat := max (h.sizeAad.toNat / 16) (h.size.toNat / 16)

def FedOk (m : Nat → Word) (sk : Word) : Prop :=
  InMram sk (max 16 (4 * fedEnd (headerAt m (mramAt sk))))

/-- Memory after `ime_decrypt_verify` of a subkernel with the right tag. -/
def decryptSk (c : Crypto) (key : Fin 8 → Word) (m : Nat → Word) (p : Nat) : Nat → Word :=
  let h := headerAt m p
  decrypted c key h.iv m p (h.sizeAad.toNat / 64) (h.size.toNat / 64)

/-- What `ime_decrypt_verify` adds to the trace. -/
def verifyTrace (m : Nat → Word) (p : Nat) : List Event :=
  let h := headerAt m p
  fedTrace p (h.sizeAad.toNat / 16) (h.size.toNat / 16) ++ fedTrace p 2 (h.sizeAad.toNat / 16)

theorem imeDecryptVerify_spec (c : Crypto) (f : Frames) (sk key : Word) (s : St) :
    wp (imeDecryptVerify c f sk key)
      (fun b s' => (FedOk s.mram sk ∧ ChachaOk s sk key) ∧
        (b = true ↔ macOf c (keyOf s key) s.mram (mramAt sk) = (headerAt s.mram (mramAt sk)).tag) ∧
        s'.mram = (if b then decryptSk c (keyOf s key) s.mram (mramAt sk) else s.mram) ∧
        WramKept key s.wram s'.wram ∧
        s' = { s with mram := s'.mram, wram := s'.wram, trace := verifyTrace s.mram (mramAt sk) ++ s.trace })
      (fun _ s' => s'.mram = s.mram ∧ ¬ (FedOk s.mram sk ∧ ChachaOk s sk key)) s := by
  rw [imeDecryptVerify, wp_bind, wp_mramRead]
  refine ⟨fun h0 => ?_, fun h0 => ⟨rfl, fun hn => h0 ?_⟩⟩
  swap
  · have := hn.1
    unfold FedOk InMram at *
    omega
  have hh : Header.ofWords (fun i : Fin 16 => s.mram (mramAt sk + i)) = headerAt s.mram (mramAt sk) := rfl
  simp only [hh]
  set p := mramAt sk with hp
  set h := headerAt s.mram p with hhdr
  refine wp.bind (imeChachaBlk_spec c f sk key 0 h.iv s) (fun out s1 h1 => ?_)
    fun _ _ h1 => ⟨h1.1, fun hn => h1.2 hn.2⟩
  obtain ⟨hok, rfl, hw1, hs1⟩ := h1
  have hm1 : s1.mram = s.mram := by rw [hs1]
  have h2 : InMram sk (max 16 (4 * 2)) := h0
  refine wp.bind (feed_spec c _ h2) (fun ctx1 s2 h2 => ?_) fun _ _ h2 => ⟨h2.1.trans hm1, fun hn => h2.2.2 ?_⟩
  swap
  · have hin : InMram sk (max 16 (4 * max (h.sizeAad.toNat / 16) (h.size.toNat / 16))) := hn.1
    unfold InMram at *
    omega
  obtain ⟨hin2, hctx1, hs2⟩ := h2
  have hm2 : s2.mram = s.mram := by rw [hs2, hm1]
  have h3 : InMram sk (max 16 (4 * (h.sizeAad.toNat / 16))) := by
    unfold InMram at *
    omega
  refine wp.bind (feed_spec c _ h3) (fun ctx2 s3 h3 => ?_) fun _ _ h3 => ⟨h3.1.trans hm2, fun hn => h3.2.2 ?_⟩
  swap
  · exact hn.1
  obtain ⟨hin3, hctx2, hs3⟩ := h3
  have hm3 : s3.mram = s.mram := by rw [hs3, hm2]
  have htag : c.polyFinalize (c.polyFeedBlock ctx2 ![h.sizeAad, 0, h.size - h.sizeAad, 0]) =
      macOf c (keyOf s key) s.mram p := by
    rw [hctx2, hctx1, hm1, hm2, macOf, macBlocks]
    simp only [List.foldl_cons, List.foldl_append, List.foldl_nil]
    rfl
  have hs3' : s3 = { s with wram := s3.wram, trace := verifyTrace s.mram p ++ s.trace } := by
    rw [hs3, hs2, hs1, verifyTrace, ← hhdr]
    simp only [List.append_assoc]
    rfl
  have hw3 : s3.wram = s1.wram := by rw [hs3, hs2]
  rw [htag, wp_ite]
  simp only [← funext_iff]
  refine ⟨fun heq => ?_, fun hne => wp_pure.mpr ?_⟩
  · rw [wp_bind]
    have hkey : keyOf s3 key = keyOf s key := keyOf_kept (by rw [hs3']) (by rw [hw3]; exact hw1)
    have h64 : InMram sk (16 * (h.size.toNat / 64)) := by
      unfold InMram at *
      omega
    refine (decrypt_spec c f key h.iv h64).mono (fun _ s4 h4 => wp_pure.mpr ?_) fun _ _ h4 => ?_
    · obtain ⟨hw4, hs4⟩ := h4
      refine ⟨⟨hin3, hok⟩, iff_of_true rfl heq, ?_, ?_, ?_⟩
      · rw [hs4, hm3, hkey]
        rfl
      · exact hw1.trans (hw3 ▸ hw4)
      · rw [hs4, hs3']
    · exact (h4 ((chachaOk_congr (by rw [hs3']) (by rw [hs3'])).mpr hok)).elim
  · refine ⟨⟨hin3, hok⟩, iff_of_false (by decide) hne, hm3, ?_, ?_⟩
    · rw [hw3]
      exact hw1
    · rw [hs3']

end Memclave.Loader
