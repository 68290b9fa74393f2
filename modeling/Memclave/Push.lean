/-
The copy that `ime_push_sk` makes of a subkernel nothing has verified yet. The
size in its header alone decides how many passes the loop makes:
`push_bounded_iff` says for which headers the copy ends in time and within
the slot.
-/
import Memclave.Coverage

namespace Memclave.Loader

open Words Exec Copy

/-! ## Counting the passes -/

/-- `imeCopySkLoop`, given up after `n` passes: whether it has come to its end. -/
def copyLoopFor : Nat → Word → Word → Word → Prog Bool
  | 0, _, _, _ => return false
  | n + 1, r0, r1, r4 => do
    ldma 0 r0 1
    sdma 0 r1 1
    if r4 + (-8) = 0 then return true
    else copyLoopFor n (r0 + 8) (r1 + 8) (r4 + (-8))

/-- `imePushSk` with that loop. -/
def pushFor (n : Nat) (r0 : Word) : Prog Bool := do
  let r2 ← lw 0
  let r3 ← lw 4
  ldma 0 (r0 + 0x20) 1
  let r4 ← lw 4
  let done ← copyLoopFor n r0 scratchA r4
  sw 0 r2
  sw 4 r3
  return done

/-- What both loops do in a pass. -/
def copyPass (r0 r1 : Word) : Prog Unit := do
  ldma 0 r0 1
  sdma 0 r1 1

variable {r0 r1 r4 sk : Word} {s s' t : St}

theorem copyPass_ok (h : copyPass r0 r1 s = .ok () t) : InMram r0 2 ∧ InMram r1 2 := by
  have hspec : wp (copyPass r0 r1) (fun _ _ => InMram r0 2 ∧ InMram r1 2) (fun _ _ => True) s := by
    rw [copyPass, wp_bind, wp_ldma]
    refine ⟨fun h0 => wp_sdma.mpr ⟨fun h1 => ⟨h0.1, h1.1⟩, fun _ => trivial⟩, fun _ => trivial⟩
  exact hspec.ok h

theorem loop_pass (r0 r1 r4 : Word) (s : St) : imeCopySkLoop r0 r1 r4 s =
    (copyPass r0 r1 >>= fun _ => if r4 + (-8) = 0 then pure ()
      else imeCopySkLoop (r0 + 8) (r1 + 8) (r4 + (-8))) s := by
  rw [imeCopySkLoop]
  split
  next => simp only [copyPass, bind_assoc]
  next h =>
    rw [copyPass, bind_assoc, bind_error (ldma_fault fun hn => h hn.1)]
    rfl

theorem copyLoopFor_pass (n : Nat) (r0 r1 r4 : Word) (s : St) : copyLoopFor (n + 1) r0 r1 r4 s =
    (copyPass r0 r1 >>= fun _ => if r4 + (-8) = 0 then pure true
      else copyLoopFor n (r0 + 8) (r1 + 8) (r4 + (-8))) s := by
  rw [copyLoopFor]
  simp only [copyPass, bind_assoc]

/-- The loop that is given up has come to its end if and only if the loop has
an end, and has not more than `n` passes. -/
theorem copyLoopFor_iff (n : Nat) (r0 r1 r4 : Word) (s s' : St) : copyLoopFor n r0 r1 r4 s = .ok true s' ↔
    imeCopySkLoop r0 r1 r4 s = .ok () s' ∧ r4.toNat ≤ 8 * n := by
  induction n generalizing r0 r1 r4 s with
  | zero =>
    refine ⟨fun h => ?_, fun ⟨h, hle⟩ => ?_⟩
    · cases h
    · have hpos := ((imeCopySkLoop_spec r0 r1 r4 s).ok h).1.1
      omega
  | succ n ih =>
    rw [loop_pass, copyLoopFor_pass]
    cases hp : copyPass r0 r1 s with
    | error e t =>
      rw [bind_error hp, bind_error hp]
      constructor
      · intro h
        cases h
      · rintro ⟨h, -⟩
        cases h
    | ok _ t =>
      obtain ⟨h0, h1⟩ := copyPass_ok hp
      rw [bind_ok hp, bind_ok hp]
      by_cases hz : r4 + (-8) = 0
      · rw [if_pos hz, if_pos hz]
        have h8 : r4 = 8 := by
          have := congrArg (· + (8 : Word)) hz
          simpa [BitVec.add_assoc] using this
        have hle : r4.toNat ≤ 8 * (n + 1) := by
          rw [h8, show (8 : Word).toNat = 8 from rfl]
          omega
        constructor
        · intro h
          cases h
          exact ⟨rfl, hle⟩
        · rintro ⟨h, -⟩
          cases h
          rfl
      · rw [if_neg hz, if_neg hz, ih]
        refine and_congr_right fun h => ?_
        have hc := (copyOk_next h0 h1 hz).mp ((imeCopySkLoop_spec _ _ _ t).ok h).1
        rw [toNat_sub_eight hc.1 hc.2.1]
        have := hc.1
        have := hc.2.1
        omega

/-- The same of the whole copy. -/
theorem pushFor_iff (n : Nat) (sk : Word) (s s' : St) : pushFor n sk s = .ok true s' ↔
    imePushSk sk s = .ok () s' ∧ (sizeAt s.mram sk).toNat ≤ 8 * n := by
  have hw0 : IsWord 0 := by decide
  have hw4 : IsWord 4 := by decide
  rw [pushFor, imePushSk, imeCopySk, bind_ok (lw_ok hw0), bind_ok (lw_ok hw0), bind_ok (lw_ok hw4),
    bind_ok (lw_ok hw4)]
  by_cases hin : InMram (sk + 0x20) (2 * 1) ∧ InWram 0 (2 * 1)
  · rw [bind_ok (ldma_ok hin), bind_ok (ldma_ok hin), bind_ok (lw_ok hw4), bind_ok (lw_ok hw4)]
    set s1 : St := { s with wram := blit s.wram (wramAt 0) s.mram (mramAt (sk + 0x20)) (2 * 1) } with hs1
    have hsize : s1.wram ((4 : Word).toNat / 4) = sizeAt s.mram sk := by
      show blit s.wram (wramAt 0) s.mram (mramAt (sk + 0x20)) (2 * 1) ((4 : Word).toNat / 4) = _
      exact blit_in (by decide) (by decide)
    rw [hsize]
    have hiff := copyLoopFor_iff n sk scratchA (sizeAt s.mram sk) s1
    constructor
    · intro h
      cases hl : copyLoopFor n sk scratchA (sizeAt s.mram sk) s1 with
      | error e t =>
        rw [bind_error hl] at h
        cases h
      | ok b t =>
        rw [bind_ok hl, bind_ok (sw_ok hw0), bind_ok (sw_ok hw4)] at h
        cases h
        obtain ⟨hloop, hle⟩ := (hiff t).mp hl
        refine ⟨?_, hle⟩
        rw [bind_ok hloop, bind_ok (sw_ok hw0), sw_ok hw4]
    · rintro ⟨h, hle⟩
      cases hl : imeCopySkLoop sk scratchA (sizeAt s.mram sk) s1 with
      | error e t =>
        rw [bind_error hl] at h
        cases h
      | ok _ t =>
        rw [bind_ok hl, bind_ok (sw_ok hw0), sw_ok hw4] at h
        cases h
        rw [bind_ok ((hiff t).mpr ⟨hl, hle⟩), bind_ok (sw_ok hw0), bind_ok (sw_ok hw4)]
        rfl
  · rw [bind_error (ldma_fault hin), bind_error (ldma_fault hin)]
    constructor
    · intro h
      cases h
    · rintro ⟨h, -⟩
      cases h

/-! ## When the copy is bounded -/

/-- The copy faults in the code's own way before it writes, or it ends after at
most 128 KiB / 8 passes; and it changes nothing outside the slot's 128 KiB. -/
def PushBounded (sk : Word) (s : St) : Prop :=
  (∃ e s', imePushSk sk s = .error e s' ∧ e ≠ .mem ∧ s'.mram = s.mram) ∨
    ∃ s', imePushSk sk s = .ok () s' ∧ pushFor (2 ^ 17 / 8) sk s = .ok true s' ∧
      ∀ k, s'.mram k ≠ s.mram k → slot ≤ k ∧ k < slot + 2 ^ 15

/-- **When the copy of an unverified header is bounded**: for a size that is
not zero, a multiple of 8 and not more than the slot has, of a subkernel that
lies in MRAM. -/
theorem push_bounded_iff (h16 : InMram sk 16) :
    PushBounded sk s ↔
      0 < (headerAt s.mram (mramAt sk)).size.toNat ∧ (headerAt s.mram (mramAt sk)).size.toNat % 8 = 0 ∧
        (headerAt s.mram (mramAt sk)).size.toNat ≤ 2 ^ 17 ∧
        InMram sk ((headerAt s.mram (mramAt sk)).size.toNat / 4) := by
  have hspec := imeCopySk_spec sk scratchA s
  have hsz := sizeAt_eq (m := s.mram) h16
  constructor
  · rintro (⟨e, s', hrun, he, -⟩ | ⟨s', hrun, hfor, -⟩)
    · exact (he (hspec.error hrun).1.1).elim
    · obtain ⟨-, hpos, hmod, hin, -⟩ := (hspec.ok hrun).1
      have hle := ((pushFor_iff _ sk s s').mp hfor).2
      rw [hsz] at hpos hmod hin hle
      exact ⟨hpos, hmod, hle, hin⟩
  · rintro ⟨hpos, hmod, hle, hin⟩
    have hcopy : slot + (headerAt s.mram (mramAt sk)).size.toNat / 4 ≤ mramWords := by
      rw [slot, mramWords]
      omega
    have hok : SkCopyOk s.mram sk scratchA := pushOk h16 hin hpos hmod hcopy
    have hno : wp (imePushSk sk) (fun _ s' => s' = { s with mram := copySk s.mram sk scratchA })
        (fun _ _ => False) s := hspec.mono (fun _ _ h => h.2) fun _ _ h => h.1.2 hok
    obtain ⟨_, s', hrun, hs'⟩ := hno.total
    refine .inr ⟨s', hrun, (pushFor_iff _ sk s s').mpr ⟨hrun, by rw [hsz]; exact hle⟩, fun k hk => ?_⟩
    by_contra hout
    refine hk ?_
    rw [hs']
    refine copySk_out ?_
    rw [hsz, mramAt_scratchA]
    omega

/-- A header that says 64 bytes. -/
theorem push_bounded_text : PushBounded 0 (textImage 0 64 64) := by
  refine (push_bounded_iff (by decide)).mpr ?_
  rw [textImage, zeroImage_header]
  exact ⟨by decide, by decide, by decide, by decide⟩

/-- A header that says 128 KiB and 8 bytes: the copy goes on past the slot. -/
theorem push_unbounded : InMram 0 16 ∧ ¬ PushBounded 0 (textImage 0 64 131080) := by
  refine ⟨by decide, fun h => ?_⟩
  have hsize : sizeAt (textImage 0 64 131080).mram 0 = 131080 := by
    rw [sizeAt_eq (by decide), textImage, zeroImage_header]
  rcases h with ⟨e, s', hrun, he, -⟩ | ⟨s', -, hfor, -⟩
  · exact he ((imeCopySk_spec 0 scratchA (textImage 0 64 131080)).error hrun).1.1
  · have hle := ((pushFor_iff _ _ _ _).mp hfor).2
    rw [hsize] at hle
    exact absurd hle (by decide)

end Memclave.Loader
