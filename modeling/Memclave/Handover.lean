/-
What one subkernel finds of another: the memories at the jump to
`__ime_user_start`, word by word (`handed_over`), and that they do not depend
on what the last subkernel left below the pointer in `r3` (`no_residue`).

WRAM is put together from above: the sections of data, the header where there
are none, the stack of the loader's C functions, its canary, zeros up to the
pointer, and from the pointer on what was there.
-/
import Memclave.Coverage

namespace Memclave.Loader

open Words Exec Copy

variable {c : Crypto} {f : Frames} {sk tag key wipe : Word} {s s' s1 s2 : St}

/-- What the loader leaves of WRAM where it loads nothing. -/
def underneath (f : Frames) (wipe : Word) (w : Nat → Word) (k : Nat) : Word :=
  if k < 1023 then f.stack k
  else if k = 1023 then canary
  else if k < wiped wipe then 0
  else w k

/-- The subkernel as it is loaded, from word `p` on. -/
structure HandedOver (f : Frames) (key wipe : Word) (plain : Nat → Word) (p : Nat) (s s' : St) : Prop where
  text : ∀ k < 512 * (headerAt plain p).textSize.toNat, s'.iram (2048 + k) = plain (p + 16 + k)
  core : ∀ k, k < 2048 ∨ 2048 + 512 * (headerAt plain p).textSize.toNat ≤ k → s'.iram k = s.iram k
  data : ∀ k < 512 * (headerAt plain p).dataSize.toNat,
    s'.wram k = plain (p + 16 + 512 * (headerAt plain p).textSize.toNat + k)
  header : (headerAt plain p).dataSize = 0 → ∀ k < 16, s'.wram k = plain (p + k)
  /-- a call with the system key also leaves its arguments in the thread-io area -/
  rest : ∀ k, 16 ≤ k → 512 * (headerAt plain p).dataSize.toNat ≤ k → (key = 0 → k < 0x3FF0) →
    s'.wram k = underneath f wipe s.wram k

theorem underneath_stackUsed {w : Nat → Word} {k : Nat} (h : (atVerify f sk wipe s).wram k = w k) :
    stackUsed f w k = underneath f wipe s.wram k := by
  unfold stackUsed underneath
  split
  next => rfl
  next hk =>
    rw [← h]
    show (if k < 1023 then f.stack k else Function.update (fun k => if k < wiped wipe then 0 else s.wram k) 1023 canary k) = _
    rw [if_neg hk]
    by_cases h1 : k = 1023
    · rw [h1, Function.update_self, if_pos rfl]
    · rw [Function.update_of_ne h1, if_neg h1]

/-- **The memories at the jump.** -/
theorem handed_over (hrun : imeReplaceSk c f sk tag key wipe s = .ok () s') :
    HandedOver f key wipe (plainMram c f sk key wipe s) (mramAt sk) s s' := by
  obtain ⟨hok, w, hw, rfl⟩ := (imeReplaceSk_spec c f sk tag key wipe s).ok hrun
  have h16 : InMram sk 16 := fedOk_header hok.decrypt.fed
  have hstart := mramAt_dataStart h16 hok.iram.hi
  set plain := plainMram c f sk key wipe s
  have hu : wramAt userStart = 2048 := by decide
  have hiram : (loaded c f sk key wipe w s).iram =
      blit s.iram 2048 plain (mramAt sk + 16) (512 * (headerAt plain (mramAt sk)).textSize.toNat) := by
    rw [← hu]
    rfl
  have hwram : (loaded c f sk key wipe w s).wram =
      blit (blit (stackUsed f w) 0 plain (mramAt sk) 16) 0 plain
        (mramAt sk + 16 + 512 * (headerAt plain (mramAt sk)).textSize.toNat)
        (512 * (headerAt plain (mramAt sk)).dataSize.toNat) := by
    rw [← hstart]
    rfl
  refine ⟨fun k hk => ?_, fun k hk => ?_, fun k hk => ?_, fun h0 k hk => ?_, fun k h16 hd hk => ?_⟩
  · rw [hiram, blit_in (by omega) (by omega), Nat.add_sub_cancel_left]
  · rw [hiram, blit_out (by omega)]
  · rw [hwram, blit_in (by omega) (by omega), Nat.sub_zero]
  · have hd : (headerAt plain (mramAt sk)).dataSize.toNat = 0 := by
      rw [h0]
      rfl
    rw [hwram, hd, blit_out (by omega), blit_in (by omega) (by omega), Nat.sub_zero]
  · rw [hwram, blit_out (by omega), blit_out (by omega)]
    exact underneath_stackUsed (hw k hk).symm

/-- **The area that persists.** What lies from the pointer on is handed over
as it was, if the data of the subkernel and the loader's stack end below. -/
theorem HandedOver.persists {plain : Nat → Word} {p k : Nat} (h : HandedOver f key wipe plain p s s')
    (hk : wiped wipe ≤ k) (hstack : 1024 ≤ k) (hdata : 512 * (headerAt plain p).dataSize.toNat ≤ k)
    (hio : k < 0x3FF0) : s'.wram k = s.wram k := by
  rw [h.rest k (by omega) hdata fun _ => hio, underneath, if_neg (by omega), if_neg (by omega), if_neg (by omega)]

/-- A section of text and no data: above the header, the stack of the loader. -/
theorem handed_over_text : ∃ s', imeReplaceSk core noFrames 0 0 0 0 (textImage 0 2112 2112) = .ok () s' ∧
    HandedOver noFrames 0 0 (plainMram core noFrames 0 0 0 (textImage 0 2112 2112)) (mramAt 0)
      (textImage 0 2112 2112) s' := by
  obtain ⟨s', hrun⟩ := (@textImage_loads 2112 (by decide) (by decide) (by decide)).run
  exact ⟨s', hrun, handed_over hrun⟩

/-! ## Nothing else is handed over -/

/-- Two DPUs that differ at most in the words of WRAM that are wiped. -/
def SameButWiped (wipe : Word) (s1 s2 : St) : Prop :=
  s2 = { s1 with wram := s2.wram } ∧ ∀ k, wiped wipe ≤ k → s2.wram k = s1.wram k

theorem SameButWiped.symm (h : SameButWiped wipe s1 s2) : SameButWiped wipe s2 s1 :=
  ⟨by rw [h.1], fun k hk => (h.2 k hk).symm⟩

/-- The load, once WRAM is wiped. -/
def loadRest (c : Crypto) (f : Frames) (sk tag user_key : Word) : Prog Unit := do
  imePushSk sk
  sw canaryAt canary
  imeDecryptSk c f sk tag user_key
  loadTail f sk

/-- The state once WRAM is wiped. -/
def wipedSt (wipe : Word) (s : St) : St := { s with wram := fun k => if k < wiped wipe then 0 else s.wram k }

theorem SameButWiped.wiped (h : SameButWiped wipe s1 s2) : wipedSt wipe s2 = wipedSt wipe s1 := by
  have hw : (fun k => if k < Loader.wiped wipe then 0 else s2.wram k) =
      fun k => if k < Loader.wiped wipe then (0 : Word) else s1.wram k := by
    funext k
    split
    · rfl
    next hk => exact h.2 k (Nat.le_of_not_lt hk)
  rw [wipedSt, wipedSt, hw, h.1]

/-- A load is a check of the threads and of the pointer, and then a run from
the state that is wiped. -/
theorem imeReplaceSk_wiped (ht : ¬ ThreadRuns s) (hw : WipeOk wipe) :
    imeReplaceSk c f sk tag key wipe s = loadRest c f sk tag key (wipedSt wipe s) := by
  have hthreads : imeCheckThreads s = .ok () s := by
    obtain ⟨_, s1, hx, -, rfl⟩ := ((imeCheckThreads_spec s).mono (fun _ _ h => h) fun _ _ h => ht h.2.1).total
    exact hx
  have hwipe : imeWipeUser wipe s = .ok () (wipedSt wipe s) := by
    obtain ⟨_, s1, hx, -, rfl⟩ := ((imeWipeUser_spec wipe s).mono (fun _ _ h => h) fun _ _ h => h.2.1 hw).total
    exact hx
  rw [imeReplaceSk, bind_ok hthreads, bind_ok hwipe]
  rfl

/-- A run that does not get as far ends in a fault, and in which one depends
only on whether a thread runs. -/
theorem imeReplaceSk_refused (h : ThreadRuns s ∨ ¬ WipeOk wipe) :
    ∃ e s', imeReplaceSk c f sk tag key wipe s = .error e s' ∧
      (e = .sec ∧ ThreadRuns s ∨ e = .mem ∧ ¬ ThreadRuns s) := by
  have hwp : wp (imeReplaceSk c f sk tag key wipe) (fun _ _ => False)
      (fun e _ => e = .sec ∧ ThreadRuns s ∨ e = .mem ∧ ¬ ThreadRuns s) s := by
    rw [imeReplaceSk]
    refine wp.bind (imeCheckThreads_spec s) (fun _ s1 h1 => ?_) fun e s1 h1 => .inl ⟨h1.1, h1.2.1⟩
    obtain ⟨ht, rfl⟩ := h1
    have hw : ¬ WipeOk wipe := h.resolve_left ht
    exact wp.bind (imeWipeUser_spec wipe s1) (fun _ _ h2 => absurd h2.1 hw) fun e s2 h2 => .inr ⟨h2.1, ht⟩
  cases hx : imeReplaceSk c f sk tag key wipe s with
  | ok a s' => exact (hwp.ok hx).elim
  | error e s' => exact ⟨e, s', rfl, hwp.error hx⟩

/-- **Nothing that is wiped is seen.** Whatever the last subkernel left below
the pointer, a load ends in the same way: at the jump with the same DPU, or in
the same fault. -/
theorem no_residue (h : SameButWiped wipe s1 s2) :
    (∀ s', imeReplaceSk c f sk tag key wipe s1 = .ok () s' ↔ imeReplaceSk c f sk tag key wipe s2 = .ok () s') ∧
      ∀ e, (∃ s', imeReplaceSk c f sk tag key wipe s1 = .error e s') ↔
        ∃ s', imeReplaceSk c f sk tag key wipe s2 = .error e s' := by
  have hthreads : ThreadRuns s2 ↔ ThreadRuns s1 := by rw [ThreadRuns, h.1, ThreadRuns]
  by_cases hr : ThreadRuns s1 ∨ ¬ WipeOk wipe
  · obtain ⟨e1, t1, h1, he1⟩ := @imeReplaceSk_refused c f sk tag key wipe s1 hr
    obtain ⟨e2, t2, h2, he2⟩ := @imeReplaceSk_refused c f sk tag key wipe s2 (hr.imp_left hthreads.mpr)
    have he : e2 = e1 := by
      rw [hthreads] at he2
      rcases he1 with ⟨rfl, ht⟩ | ⟨rfl, ht⟩
      · exact (he2.resolve_right fun h => h.2 ht).1
      · exact (he2.resolve_left fun h => ht h.2).1
    rw [h1, h2, he]
    simp
  · obtain ⟨ht, hw⟩ := not_or.mp hr
    rw [imeReplaceSk_wiped ht (not_not.mp hw), imeReplaceSk_wiped (mt hthreads.mp ht) (not_not.mp hw), h.wiped]
    exact ⟨fun _ => Iff.rfl, fun _ => Iff.rfl⟩

/-- The same DPU, with sevens up to the user's key. -/
def leftBehind : St := { textImage 0 2112 2112 with wram := fun k => if k < 0x3FE4 then 7 else 0 }

theorem no_residue_text : ∃ s', imeReplaceSk core noFrames 0 0 0 0xFF90 (textImage 0 2112 2112) = .ok () s' ∧
    imeReplaceSk core noFrames 0 0 0 0xFF90 leftBehind = .ok () s' := by
  have hsame : SameButWiped 0xFF90 (textImage 0 2112 2112) leftBehind := by
    have hwiped : wiped 0xFF90 = 0x3FE4 := by decide
    refine ⟨rfl, fun k hk => ?_⟩
    rw [hwiped] at hk
    exact if_neg (by omega)
  have hclear : ∀ wipe, wipedSt wipe (textImage 0 2112 2112) = textImage 0 2112 2112 := fun wipe =>
    congrArg (fun w => { textImage 0 2112 2112 with wram := w }) (funext fun _ => ite_self 0)
  have hthreads : ¬ ThreadRuns (textImage 0 2112 2112) := nofun
  obtain ⟨s', hrun⟩ := (@textImage_loads 2112 (by decide) (by decide) (by decide)).run
  rw [imeReplaceSk_wiped hthreads (.inl (by decide)), hclear, ← hclear 0xFF90,
    ← imeReplaceSk_wiped hthreads (.inr (by decide))] at hrun
  exact ⟨s', hrun, ((no_residue hsame).1 s').mp hrun⟩

end Memclave.Loader
