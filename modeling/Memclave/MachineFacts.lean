/-
What each instruction of the machine does, as a rule for `wp`, and the
addresses of the words of a block in MRAM.
-/
import Memclave.Machine

namespace Memclave.Loader

open Words Exec Copy

variable {s : St} {E : Fault → St → Prop}

/-! ## Addresses -/

theorem mramOff_add {a : Word} {k : Nat} (h : mramOff a + k < 2 ^ 27) :
    mramOff (a + BitVec.ofNat 32 k) = mramOff a + k := by
  unfold mramOff at h ⊢
  rw [BitVec.toNat_add, BitVec.toNat_ofNat]
  omega

theorem mramOff_lt {a : Word} (h : InMram a 2) : mramOff a + 8 < 2 ^ 27 := by
  unfold InMram mramAt mramWords at h
  omega

theorem mramOff_eq {a : Word} : ∃ b < 8, mramOff a = 4 * mramAt a + b :=
  ⟨mramOff a % 8, Nat.mod_lt _ (by decide), by unfold mramAt; omega⟩

theorem mramAt_zero : mramAt 0 = 0 := by decide

theorem mramAt_even (a : Word) : mramAt a % 2 = 0 := by
  unfold mramAt
  omega

/-- `8 * i` bytes on, as long as that does not leave the DMA's 27 bits. -/
theorem mramAt_add {a : Word} {i : Nat} (h : mramAt a + 2 * i < 2 ^ 25) :
    mramAt (a + BitVec.ofNat 32 (8 * i)) = mramAt a + 2 * i := by
  obtain ⟨b, hb, he⟩ := @mramOff_eq a
  have := mramAt_even a
  rw [mramAt, mramOff_add (by omega), he]
  omega

/-- Short of the end of MRAM the same holds of every `i` the block still has. -/
theorem mramAt_add_lt {a : Word} {i n : Nat} (h : InMram a n) (hi : 2 * i ≤ n) :
    mramAt (a + BitVec.ofNat 32 (8 * i)) = mramAt a + 2 * i := by
  have hn : mramWords = 2 ^ 24 := rfl
  exact mramAt_add (by unfold InMram at h; omega)

/-! ## Loads, stores and DMA -/

/-- An aligned address of a word within WRAM. -/
abbrev IsWord (a : Word) : Prop := a.toNat % 4 = 0 ∧ a.toNat / 4 < wramWords

theorem wp_lw {a : Word} {Q : Word → St → Prop} :
    wp (lw a) Q E s ↔ (IsWord a → Q (s.wram (a.toNat / 4)) s) ∧ (¬ IsWord a → E .mem s) := by
  rw [lw, wp_ite]
  exact Iff.rfl

theorem wp_sw {a v : Word} {Q : Unit → St → Prop} :
    wp (sw a v) Q E s ↔
      (IsWord a → Q () { s with wram := Function.update s.wram (a.toNat / 4) v }) ∧
        (¬ IsWord a → E .mem s) := by
  rw [sw, wp_ite]
  exact Iff.rfl

theorem lw_ok {a : Word} (h : IsWord a) : lw a s = .ok (s.wram (a.toNat / 4)) s := by
  rw [lw, if_pos h]
  rfl

theorem sw_ok {a v : Word} (h : IsWord a) :
    sw a v s = .ok () { s with wram := Function.update s.wram (a.toNat / 4) v } := by
  rw [sw, if_pos h]
  rfl

/-- At an address known to be one of a word. -/
theorem wp_lw_of {a : Word} {Q : Word → St → Prop} (h : IsWord a) (hQ : Q (s.wram (a.toNat / 4)) s) :
    wp (lw a) Q E s :=
  wp_lw.mpr ⟨fun _ => hQ, fun hn => (hn h).elim⟩

/-- At a word whose value is known. -/
theorem wp_lw_eq {a v : Word} {Q : Word → St → Prop} (h : IsWord a) (hv : s.wram (a.toNat / 4) = v) (hQ : Q v s) :
    wp (lw a) Q E s :=
  wp_lw_of h (by rwa [hv])

theorem wp_sw_of {a v : Word} {Q : Unit → St → Prop} (h : IsWord a)
    (hQ : Q () { s with wram := Function.update s.wram (a.toNat / 4) v }) : wp (sw a v) Q E s :=
  wp_sw.mpr ⟨fun _ => hQ, fun hn => (hn h).elim⟩

theorem wp_ldma {w a : Word} {n : Nat} {Q : Unit → St → Prop} :
    wp (ldma w a n) Q E s ↔
      (InMram a (2 * n) ∧ InWram w (2 * n) →
        Q () { s with wram := blit s.wram (wramAt w) s.mram (mramAt a) (2 * n) }) ∧
        (¬ (InMram a (2 * n) ∧ InWram w (2 * n)) → E .mem s) := by
  rw [ldma, wp_ite]
  exact Iff.rfl

theorem ldma_ok {w a : Word} {n : Nat} (h : InMram a (2 * n) ∧ InWram w (2 * n)) :
    ldma w a n s = .ok () { s with wram := blit s.wram (wramAt w) s.mram (mramAt a) (2 * n) } := by
  rw [ldma, if_pos h]
  rfl

theorem ldma_fault {w a : Word} {n : Nat} (h : ¬ (InMram a (2 * n) ∧ InWram w (2 * n))) :
    ldma w a n s = .error .mem s := by
  rw [ldma, if_neg h]
  rfl

theorem wp_sdma {w a : Word} {n : Nat} {Q : Unit → St → Prop} :
    wp (sdma w a n) Q E s ↔
      (InMram a (2 * n) ∧ InWram w (2 * n) →
        Q () { s with mram := blit s.mram (mramAt a) s.wram (wramAt w) (2 * n) }) ∧
        (¬ (InMram a (2 * n) ∧ InWram w (2 * n)) → E .mem s) := by
  rw [sdma, wp_ite]
  exact Iff.rfl

theorem wp_ldmai {w a : Word} {n : Nat} {Q : Unit → St → Prop} :
    wp (ldmai w a n) Q E s ↔
      (InMram a (2 * n) ∧ InIram w (2 * n) →
        Q () { s with iram := blit s.iram (wramAt w) s.mram (mramAt a) (2 * n) }) ∧
        (¬ (InMram a (2 * n) ∧ InIram w (2 * n)) → E .mem s) := by
  rw [ldmai, wp_ite]
  exact Iff.rfl

theorem wp_mramRead {a : Word} {n : Nat} {Q : (Fin n → Word) → St → Prop} :
    wp (mramRead a n) Q E s ↔
      (InMram a n → Q (fun i => s.mram (mramAt a + i)) s) ∧ (¬ InMram a n → E .mem s) := by
  rw [mramRead, wp_ite]
  exact Iff.rfl

/-- A memory with a local array put into it. -/
def put {n : Nat} (m : Nat → Word) (d : Nat) (v : Fin n → Word) : Nat → Word :=
  fun k => if h : d ≤ k ∧ k < d + n then v ⟨k - d, by omega⟩ else m k

theorem wp_mramWrite {n : Nat} {v : Fin n → Word} {a : Word} {Q : Unit → St → Prop} :
    wp (mramWrite v a) Q E s ↔
      (InMram a n → Q () { s with mram := put s.mram (mramAt a) v }) ∧ (¬ InMram a n → E .mem s) := by
  rw [mramWrite, wp_ite]
  exact Iff.rfl

theorem wp_log {e : Event} {Q : Unit → St → Prop} :
    wp (log e) Q E s ↔ Q () { s with trace := e :: s.trace } := Iff.rfl

end Memclave.Loader
