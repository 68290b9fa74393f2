/-
The system key's path of `chacha.S`, the part of thread 22: it keeps word 0
of WRAM, counts its rounds in run bits 24 to 27, uses word 0 for the first
word of the block and puts it back.

`script` is its run alone, instruction by instruction: where it is, what it
touches and what it leaves. Thread 0 goes over word 0 at the same time
(`ChachaPaths`).
-/
import Memclave.ChachaFacts

namespace Memclave.Chacha

open Words Isa Function Sys

variable {Y : Board chachaS} {r : Reg → Word} {m : Nat → Word} {b : Nat → Bool} {n : Nat} {visits : Label → Nat}

/-! ## Places -/

/-- The last word of the thread-io area, which thread 0 waits for. -/
def flagWord : Nat := 16383

/-- The words that thread 22 has to itself: neither the first two, which the
check goes over, nor the flag. -/
def Own (k : Nat) : Prop := 2 ≤ k ∧ k ≠ flagWord

/-- At an instruction of `N` that touches such words alone. -/
def Off (N : Label → Nat → Bool) (v : View Label) : Prop :=
  ∃ l i ins, v.pc = .at l i ∧ N l i = true ∧ (code l)[i]? = some ins ∧ ∀ k, ins.Touches 22 v.regs k → Own k

/-- Elsewhere than where thread 22 reads word 0 to keep it, or past the
rounds. -/
def rounds : Label → Nat → Bool
  | .chachaThread, i => i != 1
  | .loopLt8, i => i < 7
  | _, _ => true

/-- A row of the instructions after the rounds. -/
def exits (first last : Nat) : Label → Nat → Bool
  | .loopLt8, i => first ≤ i && i ≤ last
  | _, _ => false

/-- A part of thread 22's run. -/
abbrev SysRuns (Y : Board chachaS) (N : Label → Nat → Bool) : Nat → View Label → View Label → Prop :=
  Runs (Y.step 22) (Off N)

variable {N : Label → Nat → Bool} {l : Label} {i k : Nat} {v v' : View Label}

/-- An instruction that touches no word. -/
theorem sysRuns_one {ins : Instr Label} (hpc : v.pc = .at l i) (hN : N l i = true) (hc : (code l)[i]? = some ins)
    (hw : ∀ k, ¬ ins.Touches 22 v.regs k) (h : Y.step 22 v = v') : SysRuns Y N 1 v v' :=
  h ▸ Runs.one ⟨l, i, ins, hpc, hN, hc, fun k hk => absurd hk (hw k)⟩

theorem sysRuns_test {p q : Src} {c : Cond} {dst : Target Label} {pc : Pc Label} (hpc : v.pc = .at l i)
    (hN : N l i = true) (hc : (code l)[i]? = some (.test p q c dst))
    (h : chachaS.branch l i c (p.val 22 v.regs ^^^ q.val 22 v.regs) dst = pc) :
    SysRuns Y N 1 v { v with pc := pc, visits := visit l i v.visits } :=
  sysRuns_one hpc hN hc (fun _ h => h) (runs_test (R := Own) (B := fun _ _ _ => True) hpc hc h).ends

theorem sysRuns_seg {is : List (Instr Label)} (post : List (Instr Label)) {r' : Reg → Word} {m' : Nat → Word} {pc : Pc Label}
    (hpc : v.pc = .at l i) (hcode : (code l).drop i = is ++ post) (hn : is.length = k) (h0 : k ≠ 0)
    (hN : ∀ j < k, N l (i + j) = true) (hend : chachaS.succ l (i + k - 1) = pc) (h : Seg 22 Own is (v.regs, v.wram) (r', m')) :
    SysRuns Y N k v ⟨pc, r', m', v.bits, visit l i v.visits⟩ := by
  subst hn hend
  refine h.runs_file (fun hnil => h0 (congrArg List.length hnil)) hcode hpc rfl fun u j ins hu hj hc _ hw =>
    ⟨l, j, ins, hu, ?_, hc, hw⟩
  have := hN (j - i) (by omega)
  rwa [show i + (j - i) = j by omega] at this

/-! ## The run bits as a counter -/

/-- Run bits with given values at 24 to 27. -/
def setBits (b : Nat → Bool) (x0 x1 x2 x3 : Bool) : Nat → Bool
  | 24 => x0
  | 25 => x1
  | 26 => x2
  | 27 => x3
  | i => b i

section

variable {x0 x1 x2 x3 : Bool} (y : Bool)

@[simp] theorem update_bit24 : update (setBits b x0 x1 x2 x3) 24 y = setBits b y x1 x2 x3 := by
  funext i
  unfold setBits
  split <;> simp_all

@[simp] theorem update_bit25 : update (setBits b x0 x1 x2 x3) 25 y = setBits b x0 y x2 x3 := by
  funext i
  unfold setBits
  split <;> simp_all

@[simp] theorem update_bit26 : update (setBits b x0 x1 x2 x3) 26 y = setBits b x0 x1 y x3 := by
  funext i
  unfold setBits
  split <;> simp_all

@[simp] theorem update_bit27 : update (setBits b x0 x1 x2 x3) 27 y = setBits b x0 x1 x2 y := by
  funext i
  unfold setBits
  split <;> simp_all

end

/-- Run bits after some have been set and cleared. -/
def change (b : Nat → Bool) (l : List (Nat × Bool)) : Nat → Bool := l.foldl (fun b p => update b p.1 p.2) b

/-- `k` instructions on run bits that make the changes `l`. -/
theorem sysRuns_change {pc pc' : Pc Label} {y : Nat → Bool} {visits' : Label → Nat} (l : List (Nat × Bool))
    (h : (Y.step 22)^[k] ⟨pc, r, m, b, visits⟩ = ⟨pc', r, m, change b l, visits'⟩)
    (hk : ∀ j < k, Off N ((Y.step 22)^[j] ⟨pc, r, m, b, visits⟩)) (hy : change b l = y) :
    SysRuns Y N k ⟨pc, r, m, b, visits⟩ ⟨pc', r, m, y, visits'⟩ :=
  ⟨hy ▸ h, hk⟩

section

variable {x0 x1 x2 x3 : Bool}

theorem carry_none : SysRuns Y rounds 2 ⟨.at .chachaLoop 98, r, m, setBits b false x1 x2 false, visits⟩
    ⟨.at .chachaLoop 0, r, m, setBits b true x1 x2 false, visits⟩ :=
  sysRuns_change [(27, false), (24, true)] rfl
    (fun j hj => by interval_cases j <;> exact ⟨_, _, _, rfl, rfl, rfl, fun _ h => h.elim⟩) (by simp [change])

theorem carry_one : SysRuns Y rounds 4 ⟨.at .chachaLoop 98, r, m, setBits b true false x2 false, visits⟩
    ⟨.at .chachaLoop 0, r, m, setBits b false true x2 false, visits⟩ :=
  sysRuns_change [(27, false), (24, true), (24, false), (25, true)] rfl
    (fun j hj => by interval_cases j <;> exact ⟨_, _, _, rfl, rfl, rfl, fun _ h => h.elim⟩) (by simp [change])

theorem carry_two : SysRuns Y rounds 6 ⟨.at .chachaLoop 98, r, m, setBits b true true false false, visits⟩
    ⟨.at .chachaLoop 0, r, m, setBits b false false true false, visits⟩ :=
  sysRuns_change [(27, false), (24, true), (24, false), (25, true), (25, false), (26, true)] rfl
    (fun j hj => by interval_cases j <;> exact ⟨_, _, _, rfl, rfl, rfl, fun _ h => h.elim⟩) (by simp [change])

theorem carry_three : SysRuns Y rounds 8 ⟨.at .chachaLoop 98, r, m, setBits b true true true false, visits⟩
    ⟨.at .chachaLoop 0, r, m, setBits b false false false true, visits⟩ :=
  sysRuns_change [(27, false), (24, true), (24, false), (25, true), (25, false), (26, true), (26, false), (27, true)] rfl
    (fun j hj => by interval_cases j <;> exact ⟨_, _, _, rfl, rfl, rfl, fun _ h => h.elim⟩) (by simp [change])

/-- After eight rounds, by way of `chacha_loop_lt_8`. -/
theorem carry_eight : SysRuns Y rounds 3 ⟨.at .chachaLoop 98, r, m, setBits b false x1 x2 true, visits⟩
    ⟨.at .chachaLoop 0, r, m, setBits b true x1 x2 true, visit .loopLt8 0 visits⟩ :=
  sysRuns_change [(27, false), (27, true), (24, true)] rfl
    (fun j hj => by interval_cases j <;> exact ⟨_, _, _, rfl, rfl, rfl, fun _ h => h.elim⟩) (by simp [change])

/-- After nine rounds, the loop is left. -/
theorem loop_left : SysRuns Y rounds 3 ⟨.at .chachaLoop 98, r, m, setBits b true x1 x2 true, visits⟩
    ⟨.at .loopLt8 2, r, m, setBits b true x1 x2 true, visit .loopLt8 0 visits⟩ :=
  sysRuns_change [(27, false), (27, true), (24, true)] rfl
    (fun j hj => by interval_cases j <;> exact ⟨_, _, _, rfl, rfl, rfl, fun _ h => h.elim⟩) (by simp [change])

end

/-- Run bits 24 to 27 as the number `n`. -/
def counterBits (b : Nat → Bool) (n : Nat) : Nat → Bool :=
  setBits b (n.testBit 0) (n.testBit 1) (n.testBit 2) (n.testBit 3)

variable (Y) in
/-- From the end of a round to the next one. -/
theorem counter_next (hn : n < 9) : ∃ k, ∀ r m b visits, ∃ visits',
    SysRuns Y rounds k ⟨.at .chachaLoop 98, r, m, counterBits b n, visits⟩
      ⟨.at .chachaLoop 0, r, m, counterBits b (n + 1), visits'⟩ ∧ visits' .chachaLoop = visits .chachaLoop := by
  have hcases : n = 8 ∨ n = 7 ∨ n = 3 ∨ n = 1 ∨ n = 5 ∨ n = 0 ∨ n = 2 ∨ n = 4 ∨ n = 6 := by omega
  rcases hcases with rfl | rfl | rfl | rfl | rfl | rfl | rfl | rfl | rfl
  · exact ⟨_, fun _ _ _ _ => ⟨_, carry_eight, rfl⟩⟩
  · exact ⟨_, fun _ _ _ _ => ⟨_, carry_three, rfl⟩⟩
  · exact ⟨_, fun _ _ _ _ => ⟨_, carry_two, rfl⟩⟩
  · exact ⟨_, fun _ _ _ _ => ⟨_, carry_one, rfl⟩⟩
  · exact ⟨_, fun _ _ _ _ => ⟨_, carry_one, rfl⟩⟩
  all_goals exact ⟨_, fun _ _ _ _ => ⟨_, carry_none, rfl⟩⟩

/-! ## Up to the spill -/

theorem ptr_threadio : Ptr threadioStart 15 := ⟨by decide, by decide⟩

theorem threadio_own {i : Nat} (hi : i < 15) : Own (wordOf threadioStart + i) := by
  have hw : wordOf threadioStart = 16368 := by decide
  have hf : flagWord = 16383 := rfl
  unfold Own
  omega

/-- The state matrix of a call: the key in the registers of thread 22, the
counter and the iv in the thread-io area. -/
def sysMatrix (r : Reg → Word) (m : Nat → Word) : Fin 16 → Word :=
  ChaCha20.init (fun i => r (Fin.natAdd 16 i)) (m (wordOf threadioStart + 1))
    ![m (wordOf threadioStart + 2), m (wordOf threadioStart + 3), m (wordOf threadioStart + 4)]

/-- Word 0 is kept in the thread-io area. -/
def backedUp (m : Nat → Word) : Nat → Word := update m (wordOf threadioStart + 6) (m 0)

/-- Thread 22 as the boot finds it. -/
def booted (r : Reg → Word) (m : Nat → Word) (b : Nat → Bool) (visits : Label → Nat) : View Label :=
  ⟨.stopped, r, m, update b 22 true, visits⟩

/-- The labels on the way from the boot. -/
def woken (visits : Label → Nat) : Label → Nat :=
  visit .chachaThread 0 (visit .coreOnBoot 0 (visit .bootstrap 0 visits))

theorem booted_one : (Y.step 22)^[1] (booted r m b visits) = ⟨.at .bootstrap 0, r, m, update b 22 true, visits⟩ := by
  rw [iterate_one, booted, Board.step]
  simp only [update_self, if_true]
  rfl

theorem is_thread22 : Cond.z.holds (BitVec.ofNat 32 22 ^^^ 22) = true := by decide

/-- It touches nothing on the way to where it keeps word 0. -/
theorem booted_wakes : SysRuns Y rounds 4 ((Y.step 22)^[1] (booted r m b visits))
    ⟨.at .chachaThread 1, update r 0 threadioStart, m, update b 22 true, woken visits⟩ := by
  rw [booted_one]
  set b' := update b 22 true with hb
  set visits1 := visit .coreOnBoot 0 (visit .bootstrap 0 visits) with hvisits1
  have h1 : SysRuns Y rounds 1 ⟨.at .bootstrap 0, r, m, b', visits⟩
      ⟨.at .coreOnBoot 0, r, m, b', visit .bootstrap 0 visits⟩ :=
    sysRuns_one (l := .bootstrap) (i := 0) rfl rfl rfl (fun _ h => h) rfl
  have h2 : SysRuns Y rounds 1 ⟨.at .coreOnBoot 0, r, m, b', visit .bootstrap 0 visits⟩ ⟨.at .coreOnBoot 1, r, m, b', visits1⟩ :=
    sysRuns_test (l := .coreOnBoot) (i := 0) rfl rfl rfl
      (branch_next (show Cond.z.holds ((22 : Word) ^^^ 23) = false by decide))
  have h3 : SysRuns Y rounds 1 ⟨.at .coreOnBoot 1, r, m, b', visits1⟩ ⟨.at .chachaThread 0, r, m, b', visits1⟩ :=
    sysRuns_test (l := .coreOnBoot) (i := 1) rfl rfl rfl (branch_taken is_thread22)
  have h4 : SysRuns Y rounds 1 ⟨.at .chachaThread 0, r, m, b', visits1⟩
      ⟨.at .chachaThread 1, update r 0 threadioStart, m, b', woken visits⟩ :=
    sysRuns_one (l := .chachaThread) (i := 0) rfl rfl rfl (fun _ h => h) rfl
  exact ((h1.trans h2).trans h3).trans h4

/-- The thread that has kept word 0, after `n` rounds. -/
structure SysAt (r : Reg → Word) (m : Nat → Word) (b : Nat → Bool) (c n : Nat) (v : View Label) : Prop where
  pc : v.pc = .at .chachaLoop 0
  rows : v.regs ∘ row = (ChaCha20.doubleRound id)^[n] (sysMatrix r m)
  keys : ∀ x : Reg, 16 ≤ x.val → v.regs x = r x
  wram : v.wram = backedUp m
  bits : v.bits = counterBits b n
  visits : v.visits .chachaLoop = c + n

/-- The words of the counter and the iv and their registers. -/
def argRow : List (Nat × Reg) := [(4, 15), (3, 14), (2, 13), (1, 12)]

/-- The registers of thread 22 with word 0 in `r1`. -/
def withZero (r : Reg → Word) (m : Nat → Word) : Reg → Word := update (update r 0 threadioStart) 1 (m 0)

/-- Word 0 is kept, and the arguments and the key are loaded. -/
theorem sysThread_load : ∃ r', Seg 22 Own (((code .chachaThread).drop 2).take 13) (withZero r m, m) (r', backedUp m) ∧
    (∀ i : Fin 16, 4 ≤ i.val → r' (row i) = sysMatrix r m i) ∧ ∀ x : Reg, 16 ≤ x.val → r' x = r x := by
  have hs1 := Seg.store Label 22 Own (r := withZero r m) (m := m) (b := 0) 1 rfl ptr_threadio (i := 6) (by decide)
    (threadio_own (by decide))
  obtain ⟨r4, hs2, hargs, hr4⟩ := Seg.loads Label 22 Own (r := withZero r m) (m := backedUp m) (b := 0) rfl ptr_threadio
    argRow (by decide) (fun i hi => threadio_own hi) (by decide) (by decide)
  have hs3 := Seg.onRegs 22 Own [(.move 4 (.reg 16) : Instr Label), .move 5 (.reg 17), .move 6 (.reg 18),
    .move 7 (.reg 19), .move 8 (.reg 20), .move 9 (.reg 21), .move 10 (.reg 22), .move 11 (.reg 23)] rfl (r4, backedUp m)
  have hkey : ∀ x : Reg, 16 ≤ x.val → r4 x = r x := by
    have hne : ∀ x : Reg, 16 ≤ x.val → x ∉ argRow.map Prod.snd ∧ x ≠ 1 ∧ x ≠ 0 := by decide
    intro x hx
    obtain ⟨hrow, h1, h0⟩ := hne x hx
    rw [hr4 x hrow, withZero, update_of_ne h1, update_of_ne h0]
  refine ⟨_, (hs1.append hs2).append hs3, fun i hi => ?_, fun x hx => ?_⟩
  · have hkeep : ∀ j : Nat, 1 ≤ j → j < 5 → backedUp m (wordOf threadioStart + j) = m (wordOf threadioStart + j) :=
      fun j _ _ => update_of_ne (by omega) _ _
    by_cases h12 : i.val < 12
    · obtain ⟨j, rfl⟩ := ChaCha20.eq_keyPlace hi h12
      rw [sysMatrix, ChaCha20.init_key, ← hkey _ (by simp)]
      match j with
      | 0 | 1 | 2 | 3 | 4 | 5 | 6 | 7 => rfl
    · have hi : i = 12 ∨ i = 13 ∨ i = 14 ∨ i = 15 := by omega
      rcases hi with rfl | rfl | rfl | rfl
      · exact (hargs (1, 12) (by decide)).trans (hkeep 1 (by decide) (by decide))
      · exact (hargs (2, 13) (by decide)).trans (hkeep 2 (by decide) (by decide))
      · exact (hargs (3, 14) (by decide)).trans (hkeep 3 (by decide) (by decide))
      · exact (hargs (4, 15) (by decide)).trans (hkeep 4 (by decide) (by decide))
  · have hne : ∀ x : Reg, 16 ≤ x.val → x ≠ 4 ∧ x ≠ 5 ∧ x ≠ 6 ∧ x ≠ 7 ∧ x ≠ 8 ∧ x ≠ 9 ∧ x ≠ 10 ∧ x ≠ 11 := by decide
    obtain ⟨h4, h5, h6, h7, h8, h9, h10, h11⟩ := hne x hx
    simp only [Src.val, update_of_ne, ne_eq, h4, h5, h6, h7, h8, h9, h10, h11, not_false_eq_true, hkey x hx]

/-- From there to the first round. -/
theorem sysThread_start : ∃ v, SysRuns Y rounds 21 ⟨.at .chachaThread 2, withZero r m, m, b, visits⟩ v ∧
    SysAt r m b (visits .chachaLoop) 0 v := by
  obtain ⟨r', hseg, hrow, hkeys⟩ := sysThread_load (r := r) (m := m)
  have h1 : SysRuns Y rounds 13 ⟨.at .chachaThread 2, withZero r m, m, b, visits⟩
      ⟨.at .chachaThread 15, r', backedUp m, b, visits⟩ :=
    sysRuns_seg (l := .chachaThread) (i := 2) _ rfl rfl rfl (by decide) (by decide) rfl hseg
  have h2 : SysRuns Y rounds 4 ⟨.at .chachaThread 15, r', backedUp m, b, visits⟩
      ⟨.at .blockEntry 0, r', backedUp m, counterBits b 0, visits⟩ :=
    sysRuns_change [(24, false), (25, false), (26, false), (27, false)] rfl
      (fun j hj => by interval_cases j <;> exact ⟨_, _, _, rfl, rfl, rfl, fun _ h => h.elim⟩) (by
        funext i
        unfold counterBits setBits
        split <;> simp_all [change])
  have h3 : SysRuns Y rounds 4 ⟨.at .blockEntry 0, r', backedUp m, counterBits b 0, visits⟩
      ⟨.at .chachaLoop 0, entry r', backedUp m, counterBits b 0, visit .blockEntry 0 visits⟩ :=
    sysRuns_seg (l := .blockEntry) (i := 0) [] rfl rfl rfl (by decide) (by decide) rfl entry_seg
  exact ⟨_, (h1.trans h2).trans h3, rfl, entry_rows hrow,
    fun x hx => (entry_other (by omega)).trans (hkeys x hx), rfl, rfl, rfl⟩

/-- The rounds of `chacha_loop` themselves. -/
theorem SysAt.body {c : Nat} {v : View Label} (h : SysAt r m b c n v) :
    ∃ r' visits, SysRuns Y rounds 97 v ⟨.at .chachaLoop 98, r', backedUp m, counterBits b n, visits⟩ ∧
      r' ∘ row = (ChaCha20.doubleRound id)^[n + 1] (sysMatrix r m) ∧ (∀ x : Reg, 16 ≤ x.val → r' x = r x) ∧
      visits .chachaLoop = c + (n + 1) := by
  have hseg := Seg.onRegs 22 Own doubleRoundCode rfl (v.regs, v.wram)
  rw [doubleRound_effect, h.wram] at hseg
  set r' := ChaCha20.doubleRound row v.regs with hr
  have h1 : SysRuns Y rounds 96 v ⟨.at .chachaLoop 96, r', backedUp m, v.bits, visit .chachaLoop 0 v.visits⟩ :=
    sysRuns_seg (l := .chachaLoop) (i := 0) loopEnd h.pc rfl rfl (by decide) (by decide) rfl (h.wram ▸ hseg)
  have h2 : SysRuns Y rounds 1 ⟨.at .chachaLoop 96, r', backedUp m, v.bits, visit .chachaLoop 0 v.visits⟩
      ⟨.at .chachaLoop 98, r', backedUp m, v.bits, visit .chachaLoop 0 v.visits⟩ :=
    sysRuns_test (l := .chachaLoop) (i := 96) rfl rfl rfl (branch_taken is_thread22)
  rw [h.bits] at h1 h2
  refine ⟨r', _, h1.trans h2, ?_, fun x hx => ?_, ?_⟩
  · rw [iterate_succ_apply', ← h.rows]
    exact ChaCha20.doubleRound_comp row_injective v.regs
  · rw [hr, ChaCha20.doubleRound_other (row_ne hx), h.keys x hx]
  · show update v.visits .chachaLoop (v.visits .chachaLoop + 1) .chachaLoop = _
    rw [update_self, h.visits]
    rfl

variable (Y) in
/-- The ten rounds, up to where word 0 is used. They take as many
instructions whatever the data. -/
theorem sysThread_rounds : ∃ k, ∀ r m b visits, ∃ r' visits',
    SysRuns Y rounds k ⟨.at .chachaThread 2, withZero r m, m, b, visits⟩
      ⟨.at .loopLt8 7, addConstants r', backedUp m, counterBits b 9, visits'⟩ ∧
    r' ∘ row = (ChaCha20.doubleRound id)^[10] (sysMatrix r m) ∧ (∀ x : Reg, 16 ≤ x.val → r' x = r x) ∧
    visits' .chachaLoop = visits .chachaLoop + 10 := by
  have hround : ∀ n ≤ 9, ∃ k, ∀ r m b visits, ∃ v, SysRuns Y rounds k ⟨.at .chachaThread 2, withZero r m, m, b, visits⟩ v ∧
      SysAt r m b (visits .chachaLoop) n v := by
    intro n hn
    induction n with
    | zero => exact ⟨_, fun _ _ _ _ => sysThread_start⟩
    | succ n ih =>
      obtain ⟨k, hk⟩ := ih (by omega)
      obtain ⟨k', hk'⟩ := counter_next Y (show n < 9 by omega)
      refine ⟨k + 97 + k', fun r m b visits => ?_⟩
      obtain ⟨v, hkv, hv⟩ := hk r m b visits
      obtain ⟨r1, visits1, h1, hrow, hkeys, hvis⟩ := hv.body (Y := Y)
      obtain ⟨visits2, h2, hvis2⟩ := hk' r1 (backedUp m) b visits1
      exact ⟨_, (hkv.trans h1).trans h2, rfl, hrow, hkeys, rfl, rfl, hvis2.trans hvis⟩
  obtain ⟨k, hk⟩ := hround 9 le_rfl
  refine ⟨k + 97 + 3 + 4 + 1, fun r m b visits => ?_⟩
  obtain ⟨v, hkv, hv⟩ := hk r m b visits
  obtain ⟨r1, visits1, h1, hrow, hkeys, hvis⟩ := hv.body (Y := Y)
  have h2 : SysRuns Y rounds 4 ⟨.at .loopLt8 2, r1, backedUp m, counterBits b 9, visit .loopLt8 0 visits1⟩
      ⟨.at .loopLt8 6, addConstants r1, backedUp m, counterBits b 9, visit .loopLt8 0 visits1⟩ :=
    sysRuns_seg (l := .loopLt8) (i := 2) ((code .loopLt8).drop 6) rfl rfl rfl (by decide) (by decide) rfl
      addConstants_seg
  have h3 : SysRuns Y rounds 1 ⟨.at .loopLt8 6, addConstants r1, backedUp m, counterBits b 9, visit .loopLt8 0 visits1⟩
      ⟨.at .loopLt8 7, addConstants r1, backedUp m, counterBits b 9, visit .loopLt8 0 visits1⟩ :=
    sysRuns_test (l := .loopLt8) (i := 6) rfl rfl rfl
      (branch_next (show Cond.nz.holds ((22 : Word) ^^^ 22) = false by decide))
  exact ⟨r1, _, (((hkv.trans h1).trans loop_left).trans h2).trans h3, hrow, hkeys, hvis⟩

/-! ## The stores of thread 22 -/

/-- A buffer for the block, apart from the two words that the check goes over
and the thread-io area, as the array of `ime_decrypt_verify` is, whose frame
lies above that of `ime_decrypt_sk`. -/
structure SysOut (out : Word) : Prop where
  ptr : Ptr out 16
  pos : 2 ≤ wordOf out
  le : wordOf out + 16 ≤ wordOf threadioStart

def firstRow : List (Nat × Reg) := [(1, 1), (2, 2), (3, 3)]

def restRow : List (Nat × Reg) :=
  [(4, 4), (5, 5), (6, 6), (7, 7), (8, 8), (9, 9), (10, 10), (11, 11), (12, 12), (13, 13), (14, 14), (15, 15)]

/-- The key is added. -/
def addKey : List (Instr Label) := [.add 4 4 (.reg 16), .add 5 5 (.reg 17), .add 6 6 (.reg 18), .add 7 7 (.reg 19),
  .add 8 8 (.reg 20), .add 9 9 (.reg 21), .add 10 10 (.reg 22), .add 11 11 (.reg 23)]

theorem SysOut.own {out : Word} (ho : SysOut out) {i : Nat} (hi : i < 16) : Own (wordOf out + i) := by
  have := ho.le
  have := ho.pos
  have hw : wordOf threadioStart = 16368 := by decide
  have hf : flagWord = 16383 := rfl
  unfold Own
  omega

theorem backedUp_of_ne (hk : k ≠ wordOf threadioStart + 6) : backedUp m k = m k := update_of_ne hk _ _

/-- What memory holds while word 0 is the first word of the block. -/
def spilled (m : Nat → Word) (w : Word) : Nat → Word := update (backedUp m) 0 w

/-- Words 1 to 3 of the block. -/
theorem sysThread_first {out : Word} (r1 : Reg → Word) (ho : SysOut out) (hout : m (wordOf threadioStart + 5) = out) :
    ∃ r' m', Seg 22 Own ((threadExit.drop 1).take 5) (r1, spilled m (r1 0)) (r', m') ∧ r' 0 = out ∧
      (∀ x : Reg, 1 ≤ x.val → r' x = r1 x) ∧ (∀ i : Fin 16, 1 ≤ i.val → i.val < 4 → m' (wordOf out + i) = r1 (row i)) ∧
      ∀ k, (∀ i < 4, k ≠ wordOf out + i) → m' k = spilled m (r1 0) k := by
  obtain ⟨hptr, hpos, hle⟩ := id ho
  have hw : wordOf threadioStart = 16368 := by decide
  have hs1 := Seg.onRegs 22 Own [(.move 0 (.imm threadioStart) : Instr Label)] rfl (r1, spilled m (r1 0))
  have hs2 := Seg.load Label 22 Own (r := update r1 0 threadioStart) (m := spilled m (r1 0)) (b := 0) (p := threadioStart) 0
    rfl ptr_threadio (i := 5) (by decide) (threadio_own (by decide))
  have hbase : spilled m (r1 0) (wordOf threadioStart + 5) = out := by
    rw [spilled, update_of_ne (by omega), backedUp_of_ne (by omega), hout]
  rw [hbase] at hs2
  set r3 := update (update r1 0 threadioStart) 0 out with hr3
  obtain ⟨m', hs3, hm, hm'⟩ := Seg.stores Label 22 Own (r := r3) (m := spilled m (r1 0)) (b := 0) (update_self _ _ _) hptr
    firstRow (by decide) (fun i hi => ho.own hi) (by decide)
  have hr : ∀ x : Reg, 1 ≤ x.val → r3 x = r1 x := fun x hx => by
    have h0 : x ≠ 0 := by
      rintro rfl
      exact absurd hx (by decide)
    rw [hr3, update_of_ne h0, update_of_ne h0]
  have hlt : ∀ e ∈ firstRow, e.1 < 4 := by decide
  refine ⟨r3, m', (hs1.append hs2).append hs3, update_self _ _ _, hr, fun i h1 h4 => ?_, fun k hk => hm' k fun e he => hk _ (hlt e he)⟩
  have hmem : ∀ i : Fin 16, 1 ≤ i.val → i.val < 4 → (i.val, row i) ∈ firstRow := by decide
  rw [hm _ (hmem i h1 h4)]
  exact hr _ h1

/-- Word 0 of the block, and the word that was kept. -/
theorem sysThread_zeroth {out : Word} {r1 : Reg → Word} {w z : Word} (ho : SysOut out) (h0 : r1 0 = out) (h1 : r1 1 = w)
    (hz : m (wordOf threadioStart + 6) = z) :
    ∃ r', Seg 22 Own ((threadExit.drop 7).take 3) (r1, m) (r', update m (wordOf out) w) ∧ r' 0 = threadioStart ∧
      r' 1 = z ∧ ∀ x : Reg, 2 ≤ x.val → r' x = r1 x := by
  obtain ⟨hptr, hpos, hle⟩ := id ho
  have hw : wordOf threadioStart = 16368 := by decide
  have hs1 := Seg.store Label 22 Own (r := r1) (m := m) (b := 0) (p := out) 1 h0 hptr (i := 0) (by decide) (ho.own (by decide))
  rw [h1, Nat.add_zero] at hs1
  set m' := update m (wordOf out) w with hm'
  have hs2 := Seg.onRegs 22 Own [(.move 0 (.imm threadioStart) : Instr Label)] rfl (r1, m')
  have hs3 := Seg.load Label 22 Own (r := update r1 0 threadioStart) (m := m') (b := 0) (p := threadioStart) 1 rfl
    ptr_threadio (i := 6) (by decide) (threadio_own (by decide))
  rw [hm', update_of_ne (by omega), hz] at hs3
  refine ⟨_, (hs1.append hs2).append hs3, rfl, update_self _ _ _, fun x hx => ?_⟩
  have hne : ∀ x : Reg, 2 ≤ x.val → x ≠ 0 ∧ x ≠ 1 := by decide
  obtain ⟨n0, n1⟩ := hne x hx
  rw [update_of_ne n1, update_of_ne n0]

/-- The other twelve words, with the counter, the iv and the key added. -/
theorem sysThread_rest {out : Word} {r1 : Reg → Word} (ho : SysOut out) (h0 : r1 0 = threadioStart)
    (hout : m (wordOf threadioStart + 5) = out) :
    ∃ r' m', Seg 22 Own (threadExit.drop 11) (r1, m) (r', m') ∧ r' 0 = threadioStart ∧
      (∀ j : Fin 8, m' (wordOf out + (j + 4)) = r1 (row (ChaCha20.keyPlace j)) + r1 (Fin.natAdd 16 j)) ∧
      (∀ e ∈ ivRow, m' (wordOf out + e.2) = r1 e.2 + m (wordOf threadioStart + e.1)) ∧
      ∀ k, (∀ e ∈ restRow, k ≠ wordOf out + e.1) → m' k = m k := by
  obtain ⟨hptr, hpos, hle⟩ := id ho
  obtain ⟨r2, hs1, hiv, hr2⟩ := Seg.loadAdds Label 22 Own (r := r1) (m := m) (b := 0) 1 h0 ptr_threadio ivRow
    (by decide) (fun i hi => threadio_own hi) (by decide) (by decide) (by decide) (by decide)
  have hs2 := Seg.onRegs 22 Own addKey rfl (r2, m)
  set r3 : Reg → Word := update (update (update (update (update (update (update (update r2 4 (r2 4 + r2 16))
    5 (r2 5 + r2 17)) 6 (r2 6 + r2 18)) 7 (r2 7 + r2 19)) 8 (r2 8 + r2 20)) 9 (r2 9 + r2 21)) 10 (r2 10 + r2 22))
    11 (r2 11 + r2 23) with hr3
  have hs3 := Seg.load Label 22 Own (r := r3) (m := m) (b := 0) (p := threadioStart) 1
    ((hr2 0 (by decide) (by decide)).trans h0) ptr_threadio (i := 5) (by decide) (threadio_own (by decide))
  rw [hout] at hs3
  obtain ⟨m', hs4, hm', hk'⟩ := Seg.stores Label 22 Own (r := update r3 1 out) (m := m) (b := 1) (update_self _ _ _) hptr
    restRow (by decide) (fun i hi => ho.own hi) (by decide)
  refine ⟨_, m', ((hs1.append hs2).append hs3).append hs4, (hr2 0 (by decide) (by decide)).trans h0, fun j => ?_,
    fun e he => ?_, hk'⟩
  · have hmem : ∀ j : Fin 8, (j.val + 4, row (ChaCha20.keyPlace j)) ∈ restRow ∧ row (ChaCha20.keyPlace j) ≠ 1 ∧
        row (ChaCha20.keyPlace j) ∉ ivRow.map Prod.snd ∧ (Fin.natAdd 16 j : Reg) ∉ ivRow.map Prod.snd ∧
        (Fin.natAdd 16 j : Reg) ≠ 1 := by decide
    obtain ⟨hrow, h1, hiv1, hiv2, hn1⟩ := hmem j
    rw [hm' _ hrow, update_of_ne h1, ← hr2 _ hiv1 h1, ← hr2 _ hiv2 hn1]
    match j with
    | 0 | 1 | 2 | 3 | 4 | 5 | 6 | 7 => rfl
  · have hmem : ∀ e ∈ ivRow, (e.2.val, e.2) ∈ restRow ∧ e.2 ≠ 1 ∧ 12 ≤ e.2.val := by decide
    have hadd : ∀ x : Reg, 12 ≤ x.val → x ≠ 4 ∧ x ≠ 5 ∧ x ≠ 6 ∧ x ≠ 7 ∧ x ≠ 8 ∧ x ≠ 9 ∧ x ≠ 10 ∧ x ≠ 11 := by decide
    obtain ⟨hrow, h1, h12⟩ := hmem e he
    obtain ⟨n4, n5, n6, n7, n8, n9, n10, n11⟩ := hadd e.2 h12
    rw [hm' _ hrow, update_of_ne h1, hr3, update_of_ne n11, update_of_ne n10, update_of_ne n9, update_of_ne n8,
      update_of_ne n7, update_of_ne n6, update_of_ne n5, update_of_ne n4, hiv e he]

/-- The block of a call of the system key. -/
def sysBlock (r : Reg → Word) (m : Nat → Word) : Fin 16 → Word :=
  ChaCha20.block (fun i => r (Fin.natAdd 16 i)) (m (wordOf threadioStart + 1))
    ![m (wordOf threadioStart + 2), m (wordOf threadioStart + 3), m (wordOf threadioStart + 4)]

/-- Before the last stores: the first four words of the block are written, the
rounds' others in their registers. -/
structure SysStored (r : Reg → Word) (m : Nat → Word) (out : Word) (r' : Reg → Word) (m' : Nat → Word) : Prop where
  low : ∀ i : Fin 16, i.val < 4 → m' (wordOf out + i) = sysBlock r m i
  high : ∀ i : Fin 16, 4 ≤ i.val → r' (row i) = (ChaCha20.doubleRound id)^[10] (sysMatrix r m) i
  keys : ∀ x : Reg, 16 ≤ x.val → r' x = r x
  args : ∀ n, 1 ≤ n → n ≤ 5 → m' (wordOf threadioStart + n) = m (wordOf threadioStart + n)

/-- Words 4 to 15, with the key, the counter and the iv added. -/
theorem SysStored.block {out : Word} {r' : Reg → Word} {m' m2 : Nat → Word} (h : SysStored r m out r' m')
    (hkey : ∀ j : Fin 8, m2 (wordOf out + (j + 4)) = r' (row (ChaCha20.keyPlace j)) + r' (Fin.natAdd 16 j))
    (hiv : ∀ e ∈ ivRow, m2 (wordOf out + e.2) = r' e.2 + m' (wordOf threadioStart + e.1))
    (hm2 : ∀ k, (∀ e ∈ restRow, k ≠ wordOf out + e.1) → m2 k = m' k) (i : Fin 16) :
    m2 (wordOf out + i) = sysBlock r m i := by
  by_cases h4 : 4 ≤ i.val
  · show m2 _ = (ChaCha20.doubleRound id)^[10] (sysMatrix r m) i + sysMatrix r m i
    by_cases h12 : i.val < 12
    · obtain ⟨j, rfl⟩ := ChaCha20.eq_keyPlace h4 h12
      have h16 : 16 ≤ (Fin.natAdd 16 j : Reg).val := by simp
      refine (hkey j).trans ?_
      rw [h.high _ h4, h.keys _ h16, sysMatrix, ChaCha20.init_key]
    · have hi : i = 12 ∨ i = 13 ∨ i = 14 ∨ i = 15 := by omega
      rcases hi with rfl | rfl | rfl | rfl
      · exact (hiv (1, 12) (by decide)).trans (congrArg₂ (· + ·) (h.high 12 h4) (h.args 1 (by decide) (by decide)))
      · exact (hiv (2, 13) (by decide)).trans (congrArg₂ (· + ·) (h.high 13 h4) (h.args 2 (by decide) (by decide)))
      · exact (hiv (3, 14) (by decide)).trans (congrArg₂ (· + ·) (h.high 14 h4) (h.args 3 (by decide) (by decide)))
      · exact (hiv (4, 15) (by decide)).trans (congrArg₂ (· + ·) (h.high 15 h4) (h.args 4 (by decide) (by decide)))
  · have hlt : ∀ e ∈ restRow, 4 ≤ e.1 := by decide
    rw [hm2 _ fun e he => by have := hlt e he; omega]
    exact h.low i (by omega)

/-- What thread 22 has done when it lowers the flag. -/
structure SysDone (r : Reg → Word) (m : Nat → Word) (b : Nat → Bool) (c : Nat) (out : Word) (v : View Label) : Prop where
  pc : v.pc = .at .threadEnd 0
  flag : v.regs 0 = threadioStart
  rounds : v.visits .chachaLoop = c + 10
  block : ∀ i : Fin 16, v.wram (wordOf out + i) = sysBlock r m i
  bits : v.bits = counterBits b 9

/-! ## The script -/

/-- Thread 22 after `k` instructions of its own, alone. -/
def alone (Y : Board chachaS) (r : Reg → Word) (m : Nat → Word) (b : Nat → Bool) (visits : Label → Nat) (k : Nat) :
    View Label := (Y.step 22)^[k] (booted r m b visits)

/-- Its run alone: where it stands, and what it has of word 0. With its
instruction `n` it puts the first word of the block there. -/
structure Script (Y : Board chachaS) (r : Reg → Word) (m : Nat → Word) (b : Nat → Bool) (visits : Label → Nat) (out : Word)
    (n : Nat) : Prop where
  le : 6 ≤ n
  rounds : ∀ k, 0 < k → k < n → k ≠ 5 → Off rounds (alone Y r m b visits k)
  spill : (alone Y r m b visits n).pc = .at .loopLt8 7
  first : ∀ k, n < k → k < n + 6 → Off (exits 8 12) (alone Y r m b visits k)
  reload : (alone Y r m b visits (n + 6)).pc = .at .loopLt8 13
  zeroth : ∀ k, n + 6 < k → k < n + 10 → Off (exits 14 16) (alone Y r m b visits k)
  restore : (alone Y r m b visits (n + 10)).pc = .at .loopLt8 17
  rest : ∀ k, n + 10 < k → k < n + 40 → Off (exits 18 46) (alone Y r m b visits k)
  done : SysDone r m (update b 22 true) (visits .chachaLoop) out (alone Y r m b visits (n + 40))
  /-- what it reads back is what it put there -/
  own : (alone Y r m b visits (n + 6)).wram 0 = (alone Y r m b visits n).regs 0
  /-- what it puts back is what it kept -/
  kept : (alone Y r m b visits (n + 10)).regs 1 = m 0

/-- Where it keeps word 0. -/
theorem alone_five : alone Y r m b visits 5 =
    ⟨.at .chachaThread 1, update r 0 threadioStart, m, update b 22 true, woken visits⟩ :=
  (booted_wakes.later rfl).1

theorem alone_six : alone Y r m b visits 6 = ⟨.at .chachaThread 2, withZero r m, m, update b 22 true, woken visits⟩ := by
  have h : alone Y r m b visits 6 = Y.step 22 (alone Y r m b visits 5) := iterate_succ_apply' _ 5 _
  rw [h, alone_five]
  exact step_load_zero (Y := Y) (l := .chachaThread) (i := 1) (d := 1) rfl rfl

/-- Its instruction `n` puts the first word of the block in word 0, whatever
the data. -/
def Spills (Y : Board chachaS) (n : Nat) : Prop :=
  ∀ r m b visits out, SysOut out → m (wordOf threadioStart + 5) = out → Script Y r m b visits out n

variable (Y) in
/-- **Thread 22 alone.** From whatever run bits 24 to 27, it runs ten rounds,
writes the block, puts word 0 back and leaves the run bits settled. -/
theorem script : ∃ n, Spills Y n := by
  obtain ⟨kr, hkr⟩ := sysThread_rounds Y
  refine ⟨6 + kr, fun r m b visits out ho hout => ?_⟩
  obtain ⟨r1, visits1, hrounds, hrow, hkeys, hvis⟩ := hkr r m (update b 22 true) (woken visits)
  obtain ⟨hptr, hpos, hle⟩ := id ho
  have hw : wordOf threadioStart = 16368 := by decide
  set b' := counterBits (update b 22 true) 9 with hb'
  set r2 := addConstants r1 with hr2
  -- the four uses of word 0 part the run
  obtain ⟨h7, hoff7⟩ := hrounds.later (alone_six (Y := Y))
  obtain ⟨r3, m3, hs3, h30, hr3, hfirst, hm3⟩ := sysThread_first r2 ho hout
  have hT : (Y.step 22)^[6 + kr + 1] (booted r m b visits) = ⟨.at .loopLt8 8, r2, spilled m (r2 0), b', visits1⟩ := by
    rw [iterate_succ_apply', h7]
    exact step_store_zero (Y := Y) (l := .loopLt8) (i := 7) (s := 0) rfl rfl
  obtain ⟨h13, hoff13⟩ := (sysRuns_seg (Y := Y) (N := exits 8 12) (k := 5) (v := ⟨.at .loopLt8 8, r2, spilled m (r2 0), b', visits1⟩)
    (l := .loopLt8) (i := 8) (threadExit.drop 6) rfl rfl rfl (by decide) (by decide) rfl hs3).later hT
  have hzero3 : m3 0 = r2 0 := by
    rw [hm3 0 fun i hi => by omega]
    exact update_self _ _ _
  have hG : (Y.step 22)^[6 + kr + 1 + 5 + 1] (booted r m b visits) =
      ⟨.at .loopLt8 14, update r3 1 (m3 0), m3, b', visits1⟩ := by
    rw [iterate_succ_apply', h13]
    exact step_load_zero (Y := Y) (l := .loopLt8) (i := 13) (d := 1) rfl rfl
  have hkept3 : m3 (wordOf threadioStart + 6) = m 0 := by
    rw [hm3 _ fun i hi => by omega, spilled, update_of_ne (by omega)]
    exact update_self _ _ _
  obtain ⟨r4, hs4, h40, h41, hr4⟩ := sysThread_zeroth (m := m3) ho (show update r3 1 (m3 0) 0 = out from h30) (update_self _ _ _) hkept3
  obtain ⟨h17, hoff17⟩ := (sysRuns_seg (Y := Y) (N := exits 14 16) (k := 3)
    (v := ⟨.at .loopLt8 14, update r3 1 (m3 0), m3, b', visits1⟩) (l := .loopLt8) (i := 14) (threadExit.drop 10)
    rfl rfl rfl (by decide) (by decide) rfl hs4).later hG
  set m4 := update m3 (wordOf out) (m3 0) with hm4
  have hR : (Y.step 22)^[6 + kr + 1 + 5 + 1 + 3 + 1] (booted r m b visits) =
      ⟨.at .loopLt8 18, r4, update m4 0 (r4 1), b', visits1⟩ := by
    rw [iterate_succ_apply', h17]
    exact step_store_zero (Y := Y) (l := .loopLt8) (i := 17) (s := 1) rfl rfl
  have hm5 : ∀ k, k ≠ 0 → (∀ i < 4, k ≠ wordOf out + i) → update m4 0 (r4 1) k = backedUp m k := fun k hk0 hk => by
    have hkout : k ≠ wordOf out := hk 0 (by decide)
    rw [update_of_ne hk0, hm4, update_of_ne hkout, hm3 k hk, spilled, update_of_ne hk0]
  have hrow' : ∀ i : Fin 16, r1 (row i) = (ChaCha20.doubleRound id)^[10] (sysMatrix r m) i := congrFun hrow
  have hreg : ∀ x : Reg, 4 ≤ x.val → r4 x = r1 x := fun x hx => by
    have hne : x ≠ 1 := by
      rintro rfl
      exact absurd hx (by decide)
    rw [hr4 x (by omega), update_of_ne hne, hr3 x (by omega), hr2, addConstants_other hx]
  have hst : SysStored r m out r4 (update m4 0 (r4 1)) := by
    refine ⟨fun i h4 => ?_, fun i h4 => (hreg _ h4).trans (hrow' i), fun x hx => (hreg x (by omega)).trans (hkeys x hx),
      fun n _ _ => by rw [hm5 _ (by omega) fun i hi => by omega, backedUp_of_ne (by omega)]⟩
    have hstored : update m4 0 (r4 1) (wordOf out + i) = r2 (row i) := by
      rw [update_of_ne (by omega), hm4]
      by_cases h0 : i = 0
      · subst h0
        exact (update_self _ _ _).trans hzero3
      · have hpos : 1 ≤ i.val := Nat.pos_of_ne_zero fun h => h0 (Fin.ext h)
        rw [update_of_ne (by omega), hfirst i hpos h4]
    rw [hstored, hr2, addConstants_low h4, hrow']
    rfl
  obtain ⟨r6, m6, hs6, h60, hkey, hiv, hm6⟩ := sysThread_rest ho h40 ((hst.args 5 (by decide) (by decide)).trans hout)
  obtain ⟨hend, hoffend⟩ := (sysRuns_seg (Y := Y) (N := exits 18 46) (k := 29)
    (v := ⟨.at .loopLt8 18, r4, update m4 0 (r4 1), b', visits1⟩) (l := .loopLt8) (i := 18) []
    rfl rfl rfl (by decide) (by decide) rfl hs6).later hR
  refine ⟨by omega, fun k h0 hk h5 => ?_, congrArg View.pc h7, fun k h1 h2 => hoff13 k h1 h2, congrArg View.pc h13,
    fun k h1 h2 => hoff17 k h1 h2, congrArg View.pc h17, fun k h1 h2 => hoffend k h1 h2, ⟨congrArg View.pc hend, ?_, ?_, ?_, ?_⟩,
    ?_, ?_⟩
  · by_cases h6 : 6 ≤ k
    · exact hoff7 k h6 hk
    · exact (booted_wakes.later (j := 1) (show (Y.step 22)^[1] (booted r m b visits) = _ from rfl)).2 k h0 (by omega)
  · exact (congrFun (congrArg View.regs hend) 0).trans h60
  · exact (congrFun (congrArg View.visits hend) _).trans hvis
  · exact fun i => (congrFun (congrArg View.wram hend) _).trans (hst.block hkey hiv hm6 i)
  · exact congrArg View.bits hend
  · exact (congrFun (congrArg View.wram h13) 0).trans (hzero3.trans (congrFun (congrArg View.regs h7) 0).symm)
  · exact (congrFun (congrArg View.regs h17) 1).trans h41

theorem alone_succ : alone Y r m b visits (k + 1) = Y.step 22 (alone Y r m b visits k) := iterate_succ_apply' _ _ _

theorem step_stopped {t : Nat} (hpc : v.pc = .stopped) (hb : v.bits t = false) : Y.step t v = v := by
  rw [Board.step, hpc]
  simp [hb]

/-- The instruction that lowers the flag. -/
theorem SysDone.step {c : Nat} {out : Word} (h : SysDone r m b c out v) :
    Y.step 22 v = ⟨.at .threadEnd 1, v.regs, update v.wram flagWord 0, v.bits, visit .threadEnd 0 v.visits⟩ := by
  have hat : wordAt (v.regs 0) 60 = flagWord := by
    rw [h.flag]
    decide
  rw [step_eq (l := .threadEnd) (i := 0) h.pc (show (code .threadEnd)[0]? = some (.sw (.reg 0) 60 (.imm 0)) from rfl)]
  exact exec_straight rfl |>.trans (by simp only [Instr.effect, Src.val, hat]; rfl)

/-- What thread 22 leaves. -/
structure SysFinal (r : Reg → Word) (m : Nat → Word) (c : Nat) (out : Word) (v : View Label) : Prop where
  rounds : v.visits .chachaLoop = c + 10
  block : ∀ i : Fin 16, v.wram (wordOf out + i) = sysBlock r m i
  settled : Settled v.bits

variable {out : Word}

theorem SysDone.final {c : Nat} (ho : SysOut out) (h : SysDone r m b c out v) :
    SysFinal r m c out (Y.step 22 v) ∧ (Y.step 22 v).pc = .at .threadEnd 1 := by
  rw [h.step]
  have := ho.le
  have hw : wordOf threadioStart = 16368 := by decide
  have hf : flagWord = 16383 := rfl
  refine ⟨⟨h.rounds, fun i => ?_, ?_⟩, rfl⟩
  · exact (update_of_ne (by omega) _ _).trans (h.block i)
  · rw [h.bits]
    exact ⟨rfl, rfl, rfl, rfl⟩

theorem SysFinal.stop {c : Nat} (h : SysFinal r m c out v) (hpc : v.pc = .at .threadEnd 1) :
    SysFinal r m c out (Y.step 22 v) ∧ (Y.step 22 v).pc = .stopped ∧ (Y.step 22 v).bits 22 = false := by
  rw [step_eq (l := .threadEnd) (i := 1) hpc (show (code .threadEnd)[1]? = some .stop from rfl)]
  obtain ⟨h24, h25, h26, h27⟩ := h.settled
  exact ⟨⟨h.rounds, h.block, ⟨h24, h25, h26, h27⟩⟩, rfl, update_self (22 : Nat) _ v.bits⟩

/-- Its last instructions. -/
structure Ends (r : Reg → Word) (m : Nat → Word) (c : Nat) (out : Word) (v : View Label) : Prop where
  final : SysFinal r m c out v
  last : v.pc = .at .threadEnd 1 ∨ v.pc = .stopped ∧ v.bits 22 = false

theorem Ends.step {c : Nat} (h : Ends r m c out v) : Ends r m c out (Y.step 22 v) := by
  obtain ⟨hf, hpc | ⟨hpc, hb⟩⟩ := h
  · obtain ⟨hf', hstop⟩ := hf.stop (Y := Y) hpc
    exact ⟨hf', .inr hstop⟩
  · rw [step_stopped hpc hb]
    exact ⟨hf, .inr ⟨hpc, hb⟩⟩

theorem Script.ends (hs : Script Y r m b visits out n) (ho : SysOut out) :
    ∀ k, n + 40 < k → Ends r m (visits .chachaLoop) out (alone Y r m b visits k) := by
  intro k hk
  induction k, hk using Nat.le_induction with
  | base =>
    rw [alone_succ]
    obtain ⟨hf, hpc⟩ := hs.done.final (Y := Y) ho
    exact ⟨hf, .inl hpc⟩
  | succ k _ ih =>
    rw [alone_succ]
    exact ih.step

/-! ## In step with the script -/

/-- A view of thread 22 that agrees with the script on all words but the
first two. -/
abbrev Near (v w : View Label) : Prop := Same (2 ≤ ·) v w

variable {w : View Label}

/-- An instruction of thread 22 that leads to `w'`, with `z` in word 0. -/
structure Follows (Y : Board chachaS) (v w' : View Label) (z : Word) : Prop where
  near : Near (Y.step 22 v) w'
  zero : (Y.step 22 v).wram 0 = z
  flag : (Y.step 22 v).wram flagWord = v.wram flagWord

theorem Off.step (h : Off N w) (hv : Near v w) : Follows Y v (Y.step 22 w) (v.wram 0) := by
  obtain ⟨l, i, ins, hpc, -, hc, hw⟩ := h
  have hgood : Good chachaS 22 Own (fun _ _ _ => True) v :=
    ⟨l, i, ins, hv.pc.trans hpc, hc, hv.regs ▸ hw, fun _ => trivial⟩
  exact ⟨hv.step hpc hc fun k hk => (hw k hk).1, hgood.frame fun h => absurd h.1 (by decide), hgood.frame fun h => h.2 rfl⟩

/-- A load of word 0 that finds what the script has there. -/
theorem Near.load {d : Reg} (hv : Near v w) (hpc : w.pc = .at l i) (hc : (code l)[i]? = some (.lw d .zero 0x0))
    (h0 : v.wram 0 = w.wram 0) : Follows Y v (Y.step 22 w) (v.wram 0) := by
  have hall : Same (fun k => 2 ≤ k ∨ k = 0) v w := hv.mono fun k hk => hk.imp_right (by rintro rfl; exact h0)
  have hwram : (Y.step 22 v).wram = v.wram := by rw [step_load_zero (hv.pc.trans hpc) hc]
  refine ⟨(hall.step hpc hc fun k hk => .inr ?_).mono fun k hk => .inl (.inl hk), congrFun hwram 0, congrFun hwram _⟩
  obtain rfl : wordAt 0 0 = k := hk
  exact wordAt_zero

theorem Near.store {s : Reg} (hv : Near v w) (hpc : w.pc = .at l i) (hc : (code l)[i]? = some (.sw .zero 0x0 (.reg s))) :
    Follows Y v (Y.step 22 w) (w.regs s) := by
  obtain ⟨hnear, hwram⟩ := Same.store (Y := Y) hv hpc hc wordAt_zero
  exact ⟨hnear, (congrFun hwram 0).trans (update_self _ _ _), (congrFun hwram _).trans (update_of_ne (by decide) _ _)⟩

/-- **An instruction of thread 22 in step with the script.** It needs of word
0 what it kept there, when it keeps it, and what it put there, when it reads
it back. -/
theorem Script.step (hs : Script Y r m b visits out n) (hv : Near v (alone Y r m b visits k)) (hk : k < n + 40)
    (h5 : k = 5 → v.wram 0 = m 0) (hG : k = n + 6 → v.wram 0 = (alone Y r m b visits n).regs 0) :
    Follows Y v (alone Y r m b visits (k + 1))
      (if k = n then (alone Y r m b visits n).regs 0 else if k = n + 10 then m 0 else v.wram 0) := by
  have hle := hs.le
  rw [alone_succ]
  by_cases hn : k = n
  · subst hn
    rw [if_pos rfl]
    exact hv.store hs.spill rfl
  rw [if_neg hn]
  by_cases h10 : k = n + 10
  · subst h10
    rw [if_pos rfl, ← hs.kept]
    exact hv.store hs.restore rfl
  rw [if_neg h10]
  by_cases h0 : k = 0
  · subst h0
    have hwram : (Y.step 22 v).wram = v.wram := by
      rw [Board.step, hv.pc.trans (show (alone Y r m b visits 0).pc = .stopped from rfl)]
      simp only
      split
      · rfl
      · rfl
    exact ⟨hv.stopped rfl, congrFun hwram 0, congrFun hwram _⟩
  by_cases h5' : k = 5
  · subst h5'
    refine hv.load (l := .chachaThread) (i := 1) (d := 1) ?_ rfl ((h5 rfl).trans ?_)
    · rw [alone_five]
    · rw [alone_five]
  by_cases h6 : k = n + 6
  · subst h6
    exact hv.load (d := 1) hs.reload rfl ((hG rfl).trans hs.own.symm)
  -- the others touch their own words alone
  rcases Nat.lt_or_ge k n with h | h
  · exact (hs.rounds k (by omega) h h5').step hv
  rcases Nat.lt_or_ge k (n + 6) with h' | h'
  · exact (hs.first k (by omega) h').step hv
  rcases Nat.lt_or_ge k (n + 10) with h'' | h''
  · exact (hs.zeroth k (by omega) h'').step hv
  · exact (hs.rest k (by omega) hk).step hv

/-- The last ones lower the flag and stop. -/
theorem Script.step_ends (hs : Script Y r m b visits out n) (ho : SysOut out) (hv : Near v (alone Y r m b visits k))
    (hk : n + 40 ≤ k) : Near (Y.step 22 v) (alone Y r m b visits (k + 1)) ∧ (Y.step 22 v).wram 0 = v.wram 0 ∧
      (Y.step 22 v).wram flagWord = if k = n + 40 then 0 else v.wram flagWord := by
  rw [alone_succ]
  by_cases h40 : k = n + 40
  · subst h40
    have hat : wordAt ((alone Y r m b visits (n + 40)).regs 0) 60 = flagWord := by
      rw [hs.done.flag]
      decide
    obtain ⟨hnear, hwram⟩ := Same.store (Y := Y) hv hs.done.pc
      (show (code .threadEnd)[0]? = some (.sw (.reg 0) 60 (.imm 0)) from rfl) hat
    rw [if_pos rfl, hwram]
    exact ⟨hnear, update_of_ne (by decide) _ _, update_self _ _ _⟩
  · rw [if_neg h40]
    obtain ⟨-, hpc | ⟨hpc, hb⟩⟩ := hs.ends ho k (by omega)
    · have hwram : (Y.step 22 v).wram = v.wram := by
        rw [step_eq (l := .threadEnd) (i := 1) (hv.pc.trans hpc) (show (code .threadEnd)[1]? = some .stop from rfl)]
        rfl
      exact ⟨hv.step hpc (show (code .threadEnd)[1]? = some .stop from rfl) fun _ h => h.elim, congrFun hwram 0, congrFun hwram _⟩
    · have hstay : Y.step 22 v = v := step_stopped (hv.pc.trans hpc) (hv.bits ▸ hb)
      exact ⟨hv.stopped hpc, by rw [hstay], by rw [hstay]⟩

end Memclave.Chacha
