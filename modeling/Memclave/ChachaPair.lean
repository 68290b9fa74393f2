/-
A call of the system key by thread 0 and thread 22, in any order of their
instructions.

Thread 0 boots thread 22 and then calls `ime_check_system`, whose DMA goes
over word 0 of WRAM before it is written back; thread 22 keeps word 0, uses
it and puts it back. `Heeds` says of an instruction that it loses nothing
that either thread has there; as long as all do, thread 22 is in step with its
script and word 0 is as `Zero` says.
-/
import Memclave.ChachaSys

namespace Memclave.Chacha

open Words Isa Function Copy Loader Sys

variable {Y : Board chachaS} {r : Reg → Word} {m : Nat → Word} {b : Nat → Bool} {n : Nat} {visits : Label → Nat}

/-! ## Thread 0 up to the boot -/

/-- Thread 0 calls `ime_chacha_blk` without a key, in system mode, and
thread 22 is off. -/
structure SysCall (s : Mach Label) : Prop where
  pc : s.pc 0 = .at .chachaBlk 0
  null : s.regs 0 0 = 0
  out : SysOut (s.regs 0 5)
  /-- elsewhere the DMA of the check faults -/
  system : InMram (s.regs 0 21) 2
  stopped : s.pc 22 = .stopped
  off : s.bits 22 = false

/-- The words of the thread-io area that the arguments are laid in. -/
def callRow : List (Nat × Reg) := [(0, 0), (1, 1), (2, 2), (3, 3), (4, 4), (5, 5)]

/-- The caller's run up to the boot lays its arguments and raises the flag. -/
structure Lays (Y : Board chachaS) (s : Mach Label) (r : Reg → Word) (m : Nat → Word) : Prop where
  run : Runs (Y.step 0) (Good chachaS 0 (fun _ => True) fun _ _ _ => False) 11 (s.view 0)
    ⟨.at .sysKey 9, r, m, s.bits, visit .sysKey 0 (visit .chachaBlk 0 (s.visits 0))⟩
  base : r 6 = threadioStart
  mode : r 21 = s.regs 0 21
  args : ∀ e ∈ callRow, m (wordOf threadioStart + e.1) = s.regs 0 e.2
  raised : m flagWord = 0xFFFFFFFF
  zero : m 0 = s.wram 0

theorem SysCall.lays {s : Mach Label} (h : SysCall s) : ∃ r m, Lays Y s r m := by
  have hw : wordOf threadioStart = 16368 := by decide
  have hf : flagWord = 16383 := rfl
  have h1 : Runs (Y.step 0) (Good chachaS 0 (fun _ => True) fun _ _ _ => False) 1 (s.view 0)
      ⟨.at .chachaBlk 1, s.regs 0, s.wram, s.bits, visit .chachaBlk 0 (s.visits 0)⟩ :=
    runs_test (L := Label) (l := .chachaBlk) (i := 0) (v := s.view 0) h.pc rfl (branch_next (by
      show Cond.nz.holds (s.regs 0 0 ^^^ 0) = false
      rw [h.null]
      rfl))
  have h2 : Runs (Y.step 0) (Good chachaS 0 (fun _ => True) fun _ _ _ => False) 1
      ⟨.at .chachaBlk 1, s.regs 0, s.wram, s.bits, visit .chachaBlk 0 (s.visits 0)⟩
      ⟨.at .sysKey 0, s.regs 0, s.wram, s.bits, visit .chachaBlk 0 (s.visits 0)⟩ :=
    runs_test (L := Label) (l := .chachaBlk) (i := 1) rfl rfl
      (branch_next (show Cond.nz.holds ((0 : Word) ^^^ 0) = false by decide))
  have hs1 := Seg.onRegs 0 (fun _ => True) [(.move 6 (.imm threadioStart) : Instr Label), .move 7 .lneg] rfl (s.regs 0, s.wram)
  set r := update (update (s.regs 0) 6 threadioStart) 7 (0xFFFFFFFF : Word) with hr
  have hptr : Ptr threadioStart 16 := ⟨by decide, by decide⟩
  have hs2 := Seg.store Label 0 (fun _ => True) (r := r) (m := s.wram) (b := 6) (p := threadioStart) 7 rfl hptr (i := 15) (by decide)
    trivial
  set m1 := update s.wram (wordOf threadioStart + 15) (r 7) with hm1
  obtain ⟨m, hs3, hm, hk⟩ := Seg.stores Label 0 (fun _ => True) (r := r) (m := m1) (b := 6)
    (p := threadioStart) rfl hptr callRow (by decide) (fun _ _ => trivial) (by decide)
  have hlt : ∀ e ∈ callRow, e.1 < 6 ∧ r e.2 = s.regs 0 e.2 := by
    have hne : ∀ e ∈ callRow, e.1 < 6 ∧ e.2 ≠ 6 ∧ e.2 ≠ 7 := by decide
    intro e he
    obtain ⟨hlt, h6, h7⟩ := hne e he
    exact ⟨hlt, by rw [hr, update_of_ne h7, update_of_ne h6]⟩
  have h3 : Runs (Y.step 0) (Good chachaS 0 (fun _ => True) fun _ _ _ => False) 9
      ⟨.at .sysKey 0, s.regs 0, s.wram, s.bits, visit .chachaBlk 0 (s.visits 0)⟩
      ⟨.at .sysKey 9, r, m, s.bits, visit .sysKey 0 (visit .chachaBlk 0 (s.visits 0))⟩ :=
    Seg.runs (L := Label) (l := .sysKey) (i := 0) (n := 9) rfl ((code .sysKey).drop 9) rfl rfl (by decide) rfl
      ((hs1.append hs2).append hs3)
  refine ⟨r, m, (h1.trans h2).trans h3, rfl, rfl, fun e he => (hm e he).trans (hlt e he).2, ?_, ?_⟩
  · rw [hk _ fun e he => by have := (hlt e he).1; omega]
    exact update_self _ _ _
  · rw [hk _ fun e he => by omega, hm1, update_of_ne (by omega)]

variable {s0 : Mach Label} {k : Nat}

theorem Lays.sysOut (hl : Lays Y s0 r m) : m (wordOf threadioStart + 5) = s0.regs 0 5 :=
  hl.args (5, 5) (by decide)

theorem Lays.bits (hl : Lays Y s0 r m) (hk : k ≤ 11) : ((Y.step 0)^[k] (s0.view 0)).bits = s0.bits := by
  induction k with
  | zero => rfl
  | succ k ih => rw [iterate_succ_apply', (hl.run.good k (by omega)).bits, ih (by omega)]

/-- The boot. -/
theorem Lays.boot (hl : Lays Y s0 r m) (hoff : s0.bits 22 = false) :
    Y.step 0 ((Y.step 0)^[11] (s0.view 0)) = ⟨.at .sysKey 10, r, m, update s0.bits 22 true,
      visit .sysKey 0 (visit .chachaBlk 0 (s0.visits 0))⟩ := by
  rw [hl.run.ends, step_eq (l := .sysKey) (i := 9) rfl
    (show (code .sysKey)[9]? = some (.boot 22 .nz (.label .secFault)) from rfl)]
  have hnext : chachaS.branch .sysKey 9 .nz (bitWord (s0.bits 22)) (.label .secFault) = .at .sysKey 10 :=
    branch_next (by rw [hoff]; rfl)
  rw [Board.exec, hnext]
  rfl

/-! ## Thread 0 after the boot -/

/-- Thread 0 has read word 0, and is to write it back. -/
def holds : Pc Label → Bool
  | .at .checkSystem i => 1 ≤ i && i ≤ 3
  | _ => false

/-- Where the caller stands: before the check, in it, or waiting for the
flag, past which it comes only once the flag was lowered. -/
inductive Stands (Y : Board chachaS) (v : View Label) : Prop
  | call : v.pc = .at .sysKey 10 → Stands Y v
  | check {i} : i < 8 → v.pc = .at .checkSystem i → v.regs 0 = Y.link .sysKey 10 → (i = 6 → v.regs 1 = 0) → Stands Y v
  | poll : v.pc = .at .waitLoop 0 → Stands Y v
  | polled : v.pc = .at .waitLoop 1 → (v.regs 0 = 0 → v.wram flagWord = 0) → Stands Y v
  | lowered : v.pc = .at .waitLoop 2 → v.wram flagWord = 0 → Stands Y v
  | returned : v.pc = .returned → v.wram flagWord = 0 → Stands Y v

structure Caller (Y : Board chachaS) (r21 : Word) (v : View Label) : Prop where
  base : v.regs 6 = threadioStart
  mode : v.regs 21 = r21
  stands : Stands Y v

/-- What an instruction of the caller does to word 0 and `r1`. -/
inductive Uses (v v' : View Label) : Prop
  | read : v.pc = .at .checkSystem 0 → v'.pc = .at .checkSystem 1 → v'.regs 1 = v.wram 0 → v'.wram 0 = v.wram 0 → Uses v v'
  | pass : v.pc = .at .checkSystem 1 → v'.pc = .at .checkSystem 2 → v'.regs 1 = v.regs 1 → v'.wram 0 = v.wram 0 → Uses v v'
  | dma : v.pc = .at .checkSystem 2 → v'.pc = .at .checkSystem 3 → v'.regs 1 = v.regs 1 → Uses v v'
  | store : v.pc = .at .checkSystem 3 → v'.pc = .at .checkSystem 4 → v'.wram 0 = v.regs 1 → Uses v v'
  | other : holds v.pc = false → v.pc ≠ .at .checkSystem 0 → holds v'.pc = false → v'.wram 0 = v.wram 0 → Uses v v'

/-- How far the caller is from its return with the flag lowered, where `r0`
is what it has last read of the flag. -/
def left (r0 : Word) : Pc Label → Nat
  | .at .sysKey _ => 13
  | .at .checkSystem i => 12 - i
  | .at .waitLoop 0 => 3
  | .at .waitLoop 1 => if r0 = 0 then 2 else 4
  | .at .waitLoop _ => 1
  | _ => 0

/-- In the wait loop, or past it. -/
def waits : Pc Label → Bool
  | .at .waitLoop _ | .returned => true
  | _ => false

/-- An instruction of the caller. -/
structure CallerStep (Y : Board chachaS) (r21 : Word) (v v' : View Label) : Prop where
  caller : Caller Y r21 v'
  bits : v'.bits = v.bits
  wram : ∀ k, 2 ≤ k → v'.wram k = v.wram k
  uses : Uses v v'
  closer : v.pc ≠ .returned → (waits v.pc = true → v.wram flagWord = 0) → left (v'.regs 0) v'.pc < left (v.regs 0) v.pc

variable {r21 : Word} {v v' : View Label}

theorem wramAt_zero : wramAt 0 = 0 := by decide

theorem wordAt_four : wordAt 0 4 = 1 := by decide

/-- The call comes back to the wait loop. -/
theorem find_link : Y.find (Y.link .sysKey 10) = .at .waitLoop 0 := Y.find_addr .waitLoop 0 (by decide)

/-- The DMA of the check. -/
theorem step_dma (hpc : v.pc = .at .checkSystem 2) (hm : InMram (v.regs 21) 2) : Y.step 0 v =
    ⟨.at .checkSystem 3, v.regs, blit v.wram 0 Y.mram (mramAt (v.regs 21)) 2, v.bits, v.visits⟩ := by
  have h0 : wramAt (Src.zero.val 0 v.regs) = 0 := wramAt_zero
  have hin : InMram (v.regs 21) (2 * (0 + 1)) ∧ InWram (Src.zero.val 0 v.regs) (2 * (0 + 1)) := by
    refine ⟨hm, ?_⟩
    rw [InWram, h0]
    decide
  rw [step_eq hpc (show (code .checkSystem)[2]? = some (.ldma .zero 21 0) from rfl)]
  simp only [Board.exec]
  rw [if_pos hin, h0]
  rfl

/-- An instruction that neither reads nor writes word 0. -/
theorem CallerStep.plain {pc : Pc Label} (pc' : Pc Label) (hpc : v.pc = pc) (hpc' : v'.pc = pc') (hh : holds pc = false)
    (h0 : pc ≠ .at .checkSystem 0) (hh' : holds pc' = false) (hc : Caller Y r21 v') (hb : v'.bits = v.bits)
    (hw : ∀ k, k ≠ 1 → v'.wram k = v.wram k)
    (hleft : (waits pc = true → v.wram flagWord = 0) → left (v'.regs 0) pc' < left (v.regs 0) pc) : CallerStep Y r21 v v' := by
  subst hpc hpc'
  exact ⟨hc, hb, fun k hk => hw k (by omega), .other hh h0 hh' (hw 0 (by decide)), fun _ => hleft⟩

/-- The instructions of the check on word 0. -/
theorem Caller.step_zero {i : Nat} (h : Caller Y r21 v) (hm : InMram r21 2) (hi : i < 4) (hpc : v.pc = .at .checkSystem i)
    (hlink : v.regs 0 = Y.link .sysKey 10) : CallerStep Y r21 v (Y.step 0 v) := by
  obtain ⟨hbase, hmode, -⟩ := h
  have hnext : ∀ {v' : View Label}, v'.pc = .at .checkSystem (i + 1) → v'.regs 6 = v.regs 6 → v'.regs 21 = v.regs 21 →
      v'.regs 0 = v.regs 0 → v'.bits = v.bits → (∀ k, 2 ≤ k → v'.wram k = v.wram k) → Uses v v' → CallerStep Y r21 v v' := by
    intro v' hpc' h6 h21 h0 hb hw hu
    refine ⟨⟨h6.trans hbase, h21.trans hmode, .check (by omega) hpc' (h0.trans hlink) fun h => by omega⟩, hb, hw, hu,
      fun _ _ => ?_⟩
    rw [hpc, hpc']
    simp only [left]
    omega
  match i with
  | 0 =>
    rw [step_load_zero (d := 1) hpc rfl]
    exact hnext rfl rfl rfl rfl rfl (fun _ _ => rfl) (.read hpc rfl rfl rfl)
  | 1 =>
    rw [step_eq hpc (show (code .checkSystem)[1]? = some (.lw 2 .zero 4) from rfl)]
    exact hnext rfl rfl rfl rfl rfl (fun _ _ => rfl) (.pass hpc rfl rfl rfl)
  | 2 =>
    rw [step_dma hpc (hmode ▸ hm)]
    exact hnext rfl rfl rfl rfl rfl (fun k hk => blit_out (.inr hk)) (.dma hpc rfl rfl)
  | 3 =>
    rw [step_store_zero (s := 1) hpc rfl]
    exact hnext rfl rfl rfl rfl rfl (fun k hk => update_of_ne (by omega) _ _) (.store hpc rfl (update_self 0 _ v.wram))

/-- Its others. -/
theorem Caller.step_check {i : Nat} (h : Caller Y r21 v) (hi : 4 ≤ i ∧ i < 8) (hpc : v.pc = .at .checkSystem i)
    (hlink : v.regs 0 = Y.link .sysKey 10) (hid : i = 6 → v.regs 1 = 0) : CallerStep Y r21 v (Y.step 0 v) := by
  obtain ⟨hbase, hmode, -⟩ := h
  have hcases : i = 4 ∨ i = 5 ∨ i = 6 ∨ i = 7 := by omega
  rcases hcases with rfl | rfl | rfl | rfl
  · rw [step_eq hpc (show (code .checkSystem)[4]? = some (.sw .zero 4 (.reg 2)) from rfl)]
    have hat : wordAt (Src.zero.val 0 v.regs) 4 = 1 := wordAt_four
    exact .plain (.at .checkSystem 5) hpc rfl rfl (by simp) rfl
      ⟨hbase, hmode, .check (i := 5) (by decide) rfl hlink fun h => absurd h (by decide)⟩ rfl
      (fun k hk => update_of_ne (hat ▸ hk) _ _) fun _ => Nat.lt_succ_self 7
  · rw [step_eq hpc (show (code .checkSystem)[5]? = some (.move 1 .id) from rfl)]
    exact .plain (.at .checkSystem 6) hpc rfl rfl (by simp) rfl
      ⟨hbase, hmode, .check (i := 6) (by decide) rfl hlink fun _ => rfl⟩ rfl (fun _ _ => rfl) fun _ => Nat.lt_succ_self 6
  · have hnext : chachaS.branch .checkSystem 6 .nz ((0 : Word) + v.regs 1) (.label .secFault) = .at .checkSystem 7 :=
      branch_next (by rw [hid rfl]; rfl)
    rw [step_eq hpc (show (code .checkSystem)[6]? = some (.addTest .zero (.reg 1) .nz (.label .secFault)) from rfl)]
    exact .plain _ hpc hnext rfl (by simp) rfl
      ⟨hbase, hmode, .check (i := 7) (by decide) hnext hlink fun h => absurd h (by decide)⟩ rfl (fun _ _ => rfl)
      fun _ => Nat.lt_succ_self 5
  · have hback : Y.find (v.regs 0) = .at .waitLoop 0 := (congrArg Y.find hlink).trans find_link
    rw [step_eq hpc (show (code .checkSystem)[7]? = some (.jumpReg 0) from rfl)]
    exact .plain _ hpc hback rfl (by simp) rfl ⟨hbase, hmode, .poll hback⟩ rfl (fun _ _ => rfl)
      fun _ => show 3 < 5 by decide

/-- One instruction of a caller: it changes nothing that is shared but the
first two words. -/
theorem Caller.step (h : Caller Y r21 v) (hm : InMram r21 2) : CallerStep Y r21 v (Y.step 0 v) := by
  obtain ⟨hbase, hmode, hst⟩ := id h
  cases hst with
  | call hpc =>
    rw [step_eq hpc (show (code .sysKey)[10]? = some (.call 0 .checkSystem) from rfl)]
    exact .plain (.at .checkSystem 0) hpc rfl rfl (by simp) rfl
      ⟨hbase, hmode, .check (i := 0) (by decide) rfl (update_self 0 _ v.regs) fun h => absurd h (by decide)⟩ rfl
      (fun _ _ => rfl) fun _ => Nat.lt_succ_self 12
  | @check i hi hpc hlink hid =>
    rcases Nat.lt_or_ge i 4 with h4 | h4
    · exact h.step_zero hm h4 hpc hlink
    · exact h.step_check ⟨h4, hi⟩ hpc hlink hid
  | poll hpc =>
    have hat : wordAt (v.regs 6) 60 = flagWord := by
      rw [hbase]
      decide
    rw [step_eq hpc (show (code .waitLoop)[0]? = some (.lw 0 (.reg 6) 60) from rfl)]
    refine .plain (.at .waitLoop 1) hpc rfl rfl (by simp) rfl ⟨hbase, hmode, .polled rfl fun h0 => ?_⟩ rfl
      (fun _ _ => rfl) fun hflag => ?_
    · rw [← h0]
      exact congrArg v.wram hat.symm
    · show (if v.wram (wordAt (v.regs 6) 60) = 0 then 2 else 4) < 3
      rw [hat, if_pos (hflag rfl)]
      decide
  | polled hpc hflag =>
    rw [step_eq hpc (show (code .waitLoop)[1]? = some (.test (.reg 0) (.imm 0) .nz (.label .waitLoop)) from rfl)]
    by_cases h0 : v.regs 0 = 0
    · have hnext : chachaS.branch .waitLoop 1 .nz (v.regs 0 ^^^ 0) (.label .waitLoop) = .at .waitLoop 2 :=
        branch_next (by rw [h0]; rfl)
      refine .plain _ hpc hnext rfl (by simp) rfl ⟨hbase, hmode, .lowered hnext (hflag h0)⟩ rfl (fun _ _ => rfl) fun _ => ?_
      show 1 < if v.regs 0 = 0 then 2 else 4
      rw [if_pos h0]
      decide
    · have hback : chachaS.branch .waitLoop 1 .nz (v.regs 0 ^^^ 0) (.label .waitLoop) = .at .waitLoop 0 :=
        branch_taken (holds_nz h0)
      refine .plain _ hpc hback rfl (by simp) rfl ⟨hbase, hmode, .poll hback⟩ rfl (fun _ _ => rfl) fun _ => ?_
      show 3 < if v.regs 0 = 0 then 2 else 4
      rw [if_neg h0]
      decide
  | lowered hpc hflag =>
    rw [step_eq hpc (show (code .waitLoop)[2]? = some .ret from rfl)]
    exact .plain .returned hpc rfl rfl (by simp) rfl ⟨hbase, hmode, .returned rfl hflag⟩ rfl (fun _ _ => rfl)
      fun _ => Nat.zero_lt_one
  | returned hpc hflag =>
    have hstay : Y.step 0 v = v := by rw [Board.step, hpc]
    rw [hstay]
    exact ⟨h, rfl, fun _ _ => rfl, .other (hpc ▸ rfl) (by rw [hpc]; simp) (hpc ▸ rfl) rfl, fun hne => absurd hpc hne⟩

/-- Thread 22 has what it had of its own. -/
theorem CallerStep.near {s : Mach Label} {w : View Label} (h : CallerStep Y r21 (s.view 0) (Y.step 0 (s.view 0)))
    (hn : Near (s.view 22) w) : Near ((s.step Y 0).view 22) w := by
  obtain ⟨⟨hpc, hregs, hvisits, hw⟩, hb⟩ := hn
  have hview : (s.step Y 0).view 22 = _ := view_step_other (Y := Y) (show 22 ≠ 0 by decide) s
  rw [hview]
  exact ⟨⟨hpc, hregs, hvisits, fun j hj => (h.wram j hj).trans (hw j hj)⟩, h.bits.trans hb⟩

/-! ## Both threads -/

/-- What thread 22 is about to do with word 0, and what is in it. -/
inductive Stage where
  /-- it is about to keep the word -/
  | keep
  /-- the word is its own -/
  | own
  /-- it is about to read its own word back -/
  | reload
  | reloaded
  /-- it is about to put back what it kept -/
  | restore
  | elsewhere
deriving DecidableEq, Repr

def stage : Pc Label → Stage
  | .at .chachaThread 1 => .keep
  | .at .loopLt8 i =>
    if 8 ≤ i ∧ i ≤ 12 then .own else if i = 13 then .reload else if 14 ≤ i ∧ i ≤ 16 then .reloaded
    else if i = 17 then .restore else .elsewhere
  | _ => .elsewhere

/-- Thread 22 has yet to read its own word back. -/
def Stage.unread : Stage → Bool
  | .own | .reload => true
  | _ => false

/-- Thread 22 has yet to put back what it kept. -/
def Stage.spilled : Stage → Bool
  | .own | .reload | .reloaded | .restore => true
  | _ => false

/-- Both threads, and a history of word 0 that no instruction reads. -/
structure Pair where
  mach : Mach Label
  /-- when thread 0 last read it, it was thread 22's own -/
  foreign : Bool
  /-- what thread 22 kept of it, and has yet to put back, is what the DMA of
  thread 0 put there -/
  overlaid : Bool

/-- One instruction of thread `t`. -/
def Pair.next (Y : Board chachaS) (p : Pair) (t : Nat) : Pair where
  mach := p.mach.step Y t
  foreign :=
    if t = 0 ∧ p.mach.pc 0 = .at .checkSystem 0 then (stage (p.mach.pc 22)).spilled else p.foreign
  overlaid :=
    if t = 22 ∧ stage (p.mach.pc 22) = .keep then decide (p.mach.pc 0 = .at .checkSystem 3)
    else if t = 22 ∧ stage (p.mach.pc 22) = .restore then false
    else p.overlaid

/-- Thread `t` spoils neither what the other has in word 0 nor what it has
there itself. -/
structure Heeds (p : Pair) (t : Nat) : Prop where
  /-- thread 0 executes its `ldma`, and its `sw` to word 0, not while thread
  22 has yet to read its own word back, unless it has read that word too -/
  unread : t = 0 → p.mach.pc 0 = .at .checkSystem 2 ∨ p.mach.pc 0 = .at .checkSystem 3 →
    (stage (p.mach.pc 22)).unread = true → p.foreign = true
  /-- it executes that `sw` not while thread 22 has yet to put back what the
  DMA put there -/
  overlaid : t = 0 → p.mach.pc 0 = .at .checkSystem 3 → p.overlaid = false
  /-- thread 22 reads its own word back not between that `ldma` and that `sw`
  where thread 0 has read that word -/
  reload : t = 22 → stage (p.mach.pc 22) = .reload → p.mach.pc 0 = .at .checkSystem 3 → p.foreign = false
  /-- thread 22 puts back what it kept not while thread 0 has yet to write
  that word back -/
  restore : t = 22 → stage (p.mach.pc 22) = .restore → holds (p.mach.pc 0) = true → p.foreign = false

/-- An instruction of thread 0 or thread 22. -/
def SysStep (Y : Board chachaS) (s s' : Mach Label) : Prop := ∃ t ∈ [0, 22], s' = s.step Y t

def HeedingStep (Y : Board chachaS) (p p' : Pair) : Prop := ∃ t ∈ [0, 22], Heeds p t ∧ p' = p.next Y t

/-! ## Word 0 -/

/-- The script's instruction `k`, where `n` is the one that puts the first
word of the block in word 0. -/
def stageAt (n k : Nat) : Stage :=
  if k = 5 then .keep
  else if n < k ∧ k < n + 6 then .own
  else if k = n + 6 then .reload
  else if n + 6 < k ∧ k < n + 10 then .reloaded
  else if k = n + 10 then .restore
  else .elsewhere

theorem unread_stageAt (h : 6 ≤ n) : (stageAt n k).unread = true ↔ n < k ∧ k ≤ n + 6 := by
  unfold stageAt
  split_ifs <;> simp only [Stage.unread, Bool.false_eq_true, true_iff, false_iff] <;> omega

theorem spilled_stageAt (h : 6 ≤ n) : (stageAt n k).spilled = true ↔ n < k ∧ k ≤ n + 10 := by
  unfold stageAt
  split_ifs <;> simp only [Stage.spilled, Bool.false_eq_true, true_iff, false_iff] <;> omega

theorem stageAt_reload (h : 6 ≤ n) : stageAt n (n + 6) = .reload := by
  rw [stageAt, if_neg (by omega), if_neg (by omega), if_pos rfl]

theorem stageAt_restore (h : 6 ≤ n) : stageAt n k = .restore ↔ k = n + 10 := by
  unfold stageAt
  split_ifs <;> simp only [true_iff, false_iff] <;> omega

theorem stageAt_keep : stageAt n k = .keep ↔ k = 5 := by
  unfold stageAt
  split_ifs <;> simp only [true_iff, false_iff] <;> omega

/-- What is said of word 0 when thread 22 has made `k` of its instructions,
where `w0` was there at first and `own` is thread 22's own word, which keeps
`z`. -/
structure Zero (n k : Nat) (w0 own z : Word) (pc : Pc Label) (r1 x : Word) (foreign overlaid : Bool) : Prop where
  /-- thread 22 keeps the right word, or thread 0 has yet to write it -/
  keeps : overlaid = false → k ≤ n + 10 → z = w0
  lost : overlaid = true → 6 ≤ k ∧ k ≤ n + 10 ∧ pc = .at .checkSystem 3 ∧ foreign = false
  /-- so does thread 0 -/
  read : holds pc = true → foreign = false → r1 = w0
  borrowed : holds pc = true → foreign = true → n < k ∧ k ≤ n + 10 ∧ (k ≤ n + 6 → r1 = own)
  /-- word 0 is right unless someone is to write it before it is read -/
  word : x = (if n < k ∧ k ≤ n + 10 then own else w0) ∨ (n + 6 < k ∧ k ≤ n + 10) ∨
    (pc = .at .checkSystem 3 ∧ (n < k → k ≤ n + 6 → foreign = true))

section

variable {w0 own z r1 x r1' x' : Word} {pc pc' : Pc Label} {foreign overlaid : Bool}

/-- Thread 0 reads word 0. -/
theorem Zero.reads (h : Zero n k w0 own z (.at .checkSystem 0) r1 x foreign overlaid) {f : Bool}
    (hf : f = true ↔ n < k ∧ k ≤ n + 10) : Zero n k w0 own z (.at .checkSystem 1) x x f overlaid := by
  have hx : x = (if n < k ∧ k ≤ n + 10 then own else w0) ∨ (n + 6 < k ∧ k ≤ n + 10) := by
    rcases h.word with hx | hx | ⟨hpc, -⟩
    · exact .inl hx
    · exact .inr hx
    · exact absurd hpc (by decide)
  refine ⟨h.keeps, fun ho => absurd (h.lost ho).2.2.1 (by decide), fun _ hff => ?_, fun _ hff => ?_, hx.imp_right .inl⟩
  · have hnot : ¬ (n < k ∧ k ≤ n + 10) := fun hk => by simp [hf.mpr hk] at hff
    rcases hx with hx | hx
    · rwa [if_neg hnot] at hx
    · omega
  · obtain ⟨h1, h2⟩ := hf.mp hff
    refine ⟨h1, h2, fun h6 => ?_⟩
    rcases hx with hx | hx
    · rwa [if_pos ⟨h1, h2⟩] at hx
    · omega

/-- Thread 0 writes back what it read. -/
theorem Zero.stores (h : Zero n k w0 own z (.at .checkSystem 3) r1 x foreign overlaid)
    (hu : n < k → k ≤ n + 6 → foreign = true) (ho : overlaid = false) :
    Zero n k w0 own z (.at .checkSystem 4) r1' r1 foreign overlaid := by
  refine ⟨h.keeps, fun h' => by simp [ho] at h', (nomatch ·), (nomatch ·), ?_⟩
  by_cases hk : n < k ∧ k ≤ n + 10
  · rw [if_pos hk]
    by_cases h6 : k ≤ n + 6
    · exact .inl ((h.borrowed rfl (hu hk.1 h6)).2.2 h6)
    · exact .inr (.inl (by omega))
  · rw [if_neg hk]
    cases hf : foreign with
    | false => exact .inl (h.read rfl hf)
    | true =>
      have := h.borrowed rfl hf
      omega

/-- The other instructions of thread 0, and its DMA. -/
theorem Zero.passes (h : Zero n k w0 own z pc r1 x foreign overlaid) (hpc : holds pc' = true → holds pc = true ∧ r1' = r1)
    (hl : overlaid = true → pc' = .at .checkSystem 3)
    (hx : x' = x ∧ pc ≠ .at .checkSystem 3 ∨ pc' = .at .checkSystem 3 ∧ (n < k → k ≤ n + 6 → foreign = true)) :
    Zero n k w0 own z pc' r1' x' foreign overlaid := by
  refine ⟨h.keeps, fun ho => ⟨(h.lost ho).1, (h.lost ho).2.1, hl ho, (h.lost ho).2.2.2⟩, fun hh hf => ?_, fun hh hf => ?_, ?_⟩
  · obtain ⟨hh', rfl⟩ := hpc hh
    exact h.read hh' hf
  · obtain ⟨hh', rfl⟩ := hpc hh
    exact h.borrowed hh' hf
  · rcases hx with ⟨rfl, hne⟩ | hx
    · rcases h.word with hx | hx | ⟨h3, -⟩
      · exact .inl hx
      · exact .inr (.inl hx)
      · exact absurd h3 hne
    · exact .inr (.inr hx)

/-- Thread 22 keeps word 0, with its first instruction on it. -/
theorem Zero.keep (h : Zero n 5 w0 own z pc r1 x foreign overlaid) (hn : 6 ≤ n) (own' : Word) :
    Zero n 6 w0 own' x pc r1 x foreign (decide (pc = .at .checkSystem 3)) := by
  have hf : holds pc = true → foreign = false := fun hh => by
    by_contra hff
    have := h.borrowed hh (by simpa using hff)
    omega
  have hx : pc ≠ .at .checkSystem 3 → x = w0 := fun hne => by
    rcases h.word with hx | hx | ⟨h3, -⟩
    · rwa [if_neg (by omega)] at hx
    · omega
    · exact absurd h3 hne
  refine ⟨fun ho _ => hx (by simpa using ho), fun ho => ?_, fun hh hff => h.read hh hff,
    fun hh hff => by simp [hf hh] at hff, ?_⟩
  · have h3 : pc = .at .checkSystem 3 := by simpa using ho
    exact ⟨le_rfl, by omega, h3, hf (h3 ▸ rfl)⟩
  by_cases h3 : pc = .at .checkSystem 3
  · exact .inr (.inr ⟨h3, fun _ _ => by omega⟩)
  · rw [if_neg (by omega)]
    exact .inl (hx h3)

/-- Its other instructions. -/
theorem Zero.moves (h : Zero n k w0 own z pc r1 x foreign overlaid) (hr : k = n + 10 → holds pc = true → foreign = false) :
    Zero n (k + 1) w0 own z pc r1 (if k = n then own else if k = n + 10 then z else x) foreign
      (if k = n + 10 then false else overlaid) := by
  have hborrowed : holds pc = true → foreign = true → n < k + 1 ∧ k + 1 ≤ n + 10 ∧ (k + 1 ≤ n + 6 → r1 = own) :=
    fun hh hf => by
      obtain ⟨h1, h2, h3⟩ := h.borrowed hh hf
      have h10 : k ≠ n + 10 := fun h => by simp [hr h hh] at hf
      exact ⟨by omega, by omega, fun h6 => h3 (by omega)⟩
  by_cases h10 : k = n + 10
  · rw [if_neg (by omega), if_pos h10, if_pos h10]
    refine ⟨fun _ h => by omega, (nomatch ·), h.read, hborrowed, ?_⟩
    rw [if_neg (by omega)]
    cases ho : overlaid with
    | false => exact .inl (h.keeps ho (by omega))
    | true => exact .inr (.inr ⟨(h.lost ho).2.2.1, fun _ _ => by omega⟩)
  · rw [if_neg h10, if_neg h10]
    refine ⟨fun ho hle => h.keeps ho (by omega), fun ho => ?_, h.read, hborrowed, ?_⟩
    · obtain ⟨h1, h2, h3⟩ := h.lost ho
      exact ⟨by omega, by omega, h3⟩
    · by_cases hkn : k = n
      · rw [if_pos hkn, if_pos (by omega)]
        exact .inl rfl
      · rw [if_neg hkn]
        rcases h.word with hx | hx | ⟨h3, hu⟩
        · by_cases h6 : n + 6 < k + 1 ∧ k + 1 ≤ n + 10
          · exact .inr (.inl h6)
          · refine .inl (hx.trans (if_congr ?_ rfl rfl))
            omega
        · exact .inr (.inl (by omega))
        · exact .inr (.inr ⟨h3, fun h1 h2 => hu (by omega) (by omega)⟩)

end

/-! ## In step with the script -/

theorem Off.elsewhere {w : View Label} (h : Off rounds w) : stage w.pc = .elsewhere := by
  obtain ⟨l, i, ins, hpc, hN, -, -⟩ := h
  rw [hpc]
  cases l with
  | chachaThread =>
    have h1 : i ≠ 1 := by simpa [rounds] using hN
    unfold stage
    split <;> simp_all
  | loopLt8 =>
    have h7 : i < 7 := by simpa [rounds] using hN
    simp only [stage]
    rw [if_neg (by omega), if_neg (by omega), if_neg (by omega), if_neg (by omega)]
  | _ => rfl

theorem Off.exits {w : View Label} {i j : Nat} (h : Off (exits i j) w) : ∃ k, w.pc = .at .loopLt8 k ∧ i ≤ k ∧ k ≤ j := by
  obtain ⟨l, k, ins, hpc, hN, -, -⟩ := h
  cases l with
  | loopLt8 => exact ⟨k, hpc, by simpa [Chacha.exits] using hN⟩
  | _ => cases hN

variable {out : Word}

theorem Script.stage (hs : Script Y r m b visits out n) (ho : SysOut out) (k : Nat) :
    stage (alone Y r m b visits k).pc = stageAt n k := by
  have hle := hs.le
  unfold stageAt
  split_ifs with h5 hown h6 hre h10
  · rw [h5, alone_five]
    rfl
  · obtain ⟨i, hpc, h1, h2⟩ := (hs.first k hown.1 hown.2).exits
    rw [hpc]
    simp only [Chacha.stage]
    rw [if_pos (by omega)]
  · rw [h6, hs.reload]
    rfl
  · obtain ⟨i, hpc, h1, h2⟩ := (hs.zeroth k hre.1 hre.2).exits
    rw [hpc]
    simp only [Chacha.stage]
    rw [if_neg (by omega), if_neg (by omega), if_pos (by omega)]
  · rw [h10, hs.restore]
    rfl
  · by_cases h0 : k = 0
    · rw [h0]
      rfl
    rcases Nat.lt_trichotomy k n with h | h | h
    · exact (hs.rounds k (by omega) h h5).elsewhere
    · rw [h, hs.spill]
      rfl
    rcases Nat.lt_trichotomy k (n + 40) with h' | h' | h'
    · obtain ⟨i, hpc, h1, h2⟩ := (hs.rest k (by omega) h').exits
      rw [hpc]
      simp only [Chacha.stage]
      rw [if_neg (by omega), if_neg (by omega), if_neg (by omega), if_neg (by omega)]
    · rw [h', hs.done.pc]
      rfl
    · obtain ⟨-, hpc | ⟨hpc, -⟩⟩ := hs.ends ho k h'
      · rw [hpc]
        rfl
      · rw [hpc]
        rfl

/-! ## The invariant -/

/-- Before the boot, with thread 22 off. -/
structure Before (Y : Board chachaS) (s0 : Mach Label) (k : Nat) (p : Pair) : Prop where
  le : k ≤ 11
  caller : p.mach.view 0 = (Y.step 0)^[k] (s0.view 0)
  stopped : p.mach.pc 22 = .stopped
  regs : p.mach.regs 22 = s0.regs 22
  visits : p.mach.visits 22 = s0.visits 22
  foreign : p.foreign = false
  overlaid : p.overlaid = false

/-- The script of thread 22 in the call that began with `s0`, where it finds
`z` in word 0. -/
abbrev ran (Y : Board chachaS) (s0 : Mach Label) (m : Nat → Word) (z : Word) : Nat → View Label :=
  alone Y (s0.regs 22) (update m 0 z) s0.bits (s0.visits 22)

/-- After the boot, with the arguments laid in `m`: thread 22 has made `k`
instructions. -/
structure After (Y : Board chachaS) (s0 : Mach Label) (m : Nat → Word) (z : Word) (n k : Nat) (p : Pair) : Prop where
  script : Script Y (s0.regs 22) (update m 0 z) s0.bits (s0.visits 22) (s0.regs 0 5) n
  near : Near (p.mach.view 22) (ran Y s0 m z k)
  caller : Caller Y (s0.regs 0 21) (p.mach.view 0)
  zero : Zero n k (s0.wram 0) ((ran Y s0 m z n).regs 0) z (p.mach.pc 0) (p.mach.regs 0 1) (p.mach.wram 0) p.foreign p.overlaid
  flag : p.mach.wram flagWord = if k ≤ n + 40 then 0xFFFFFFFF else 0

variable {p p' : Pair} {z : Word}

theorem After.stage (h : After Y s0 m z n k p) (hc : SysCall s0) : Chacha.stage (p.mach.pc 22) = stageAt n k :=
  (congrArg Chacha.stage h.near.pc).trans (h.script.stage hc.out k)

theorem Lays.scripted (hl : Lays Y s0 r m) (hc : SysCall s0) (hn : Spills Y n) (z : Word) :
    Script Y (s0.regs 22) (update m 0 z) s0.bits (s0.visits 22) (s0.regs 0 5) n := by
  refine hn _ _ _ _ _ hc.out ?_
  rw [update_of_ne (by decide), hl.sysOut]

theorem Before.thread0 (h : Before Y s0 k p) (hk : k < 11) : Before Y s0 (k + 1) (p.next Y 0) := by
  have hv := view_step Y 0 p.mach
  rw [h.caller, ← iterate_succ_apply' (Y.step 0)] at hv
  refine ⟨hk, hv, h.stopped, h.regs, h.visits, ?_, h.overlaid⟩
  simp only [Pair.next, h.stopped, h.foreign]
  split <;> rfl

theorem Before.thread22 (h : Before Y s0 k p) (hc : SysCall s0) (hl : Lays Y s0 r m) : Before Y s0 k (p.next Y 22) := by
  have hbits : p.mach.bits = s0.bits := (congrArg View.bits h.caller).trans (hl.bits h.le)
  have hstay : Y.step 22 (p.mach.view 22) = p.mach.view 22 := step_stopped h.stopped (by
    show p.mach.bits 22 = false
    rw [hbits, hc.off])
  have hv := view_step Y 22 p.mach
  have hv0 := view_step_other (Y := Y) (show 0 ≠ 22 by decide) p.mach
  rw [hstay] at hv hv0
  refine ⟨h.le, hv0.trans h.caller, (congrArg View.pc hv).trans h.stopped, (congrArg View.regs hv).trans h.regs,
    (congrArg View.visits hv).trans h.visits, h.foreign, ?_⟩
  simp only [Pair.next, h.stopped, h.overlaid]
  rfl

theorem Before.boot (h : Before Y s0 11 p) (hc : SysCall s0) (hl : Lays Y s0 r m) (hn : Spills Y n) :
    After Y s0 m (s0.wram 0) n 0 (p.next Y 0) := by
  have hv := view_step Y 0 p.mach
  have hv22 := view_step_other (Y := Y) (show 22 ≠ 0 by decide) p.mach
  rw [h.caller, hl.boot hc.off] at hv hv22
  have hm : update m 0 (s0.wram 0) = m := by rw [← hl.zero, update_eq_self]
  have hpc : (p.next Y 0).mach.pc 0 = .at .sysKey 10 := congrArg View.pc hv
  have hwram : (p.next Y 0).mach.wram = m := congrArg View.wram hv
  have hf : (p.next Y 0).foreign = false := by
    simp only [Pair.next, h.stopped, h.foreign]
    split <;> rfl
  refine ⟨hl.scripted hc hn _, .of_eq (hv22.trans ?_), ?_,
    ⟨fun _ _ => rfl, fun ho => ?_, fun hh => ?_, fun hh => ?_, .inl ?_⟩, ?_⟩
  · simp only [Mach.view, h.stopped, h.regs, h.visits]
    show _ = booted (s0.regs 22) (update m 0 (s0.wram 0)) s0.bits (s0.visits 22)
    rw [hm]
    rfl
  · have hv0 : (p.next Y 0).mach.view 0 = _ := hv
    rw [hv0]
    exact ⟨hl.base, hl.mode, .call rfl⟩
  · exact absurd (h.overlaid.symm.trans ho) (by decide)
  · rw [hpc] at hh
    cases hh
  · rw [hpc] at hh
    cases hh
  · rw [if_neg (by omega), hwram, hl.zero]
  · rw [hwram, hl.raised, if_pos (Nat.zero_le _)]

theorem After.thread0 (h : After Y s0 m z n k p) (hc : SysCall s0) (hheeds : Heeds p 0) :
    After Y s0 m z n k (p.next Y 0) := by
  have hle := h.script.le
  have hstep := h.caller.step hc.system
  have hv : (p.next Y 0).mach.view 0 = Y.step 0 (p.mach.view 0) := view_step Y 0 p.mach
  have hunread : p.mach.pc 0 = .at .checkSystem 2 ∨ p.mach.pc 0 = .at .checkSystem 3 → n < k → k ≤ n + 6 → p.foreign = true :=
    fun hpc h1 h2 => hheeds.unread rfl hpc (h.stage hc ▸ (unread_stageAt hle).mpr ⟨h1, h2⟩)
  have hpc' : (p.next Y 0).mach.pc 0 = (Y.step 0 (p.mach.view 0)).pc := step_pc Y 0 p.mach
  have hr1 : (p.next Y 0).mach.regs 0 1 = (Y.step 0 (p.mach.view 0)).regs 1 := congrFun (step_regs Y 0 p.mach) 1
  have hx : (p.next Y 0).mach.wram 0 = (Y.step 0 (p.mach.view 0)).wram 0 := rfl
  refine ⟨h.script, hstep.near h.near, hv ▸ hstep.caller, ?_, ?_⟩
  · have hz := h.zero
    have hforeign : p.mach.pc 0 ≠ .at .checkSystem 0 → (p.next Y 0).foreign = p.foreign := fun hne =>
      if_neg fun h => hne h.2
    have hoverlaid : (p.next Y 0).overlaid = p.overlaid := rfl
    rw [hpc', hr1, hx, hoverlaid]
    cases hstep.uses with
    | read hpc hpcn hr hw =>
      have hpc : p.mach.pc 0 = .at .checkSystem 0 := hpc
      have hf : (p.next Y 0).foreign = (Chacha.stage (p.mach.pc 22)).spilled := if_pos ⟨rfl, hpc⟩
      rw [hpcn, hr, hw]
      rw [hpc] at hz
      exact hz.reads (by rw [hf, h.stage hc, spilled_stageAt hle])
    | pass hpc hpcn hr hw =>
      have hpc : p.mach.pc 0 = .at .checkSystem 1 := hpc
      rw [hforeign (by rw [hpc]; simp), hpcn, hr, hw]
      exact hz.passes (fun _ => ⟨by rw [hpc]; rfl, rfl⟩) (fun ho => absurd (hpc.symm.trans (hz.lost ho).2.2.1) (by simp))
        (.inl ⟨rfl, by rw [hpc]; simp⟩)
    | dma hpc hpcn hr =>
      have hpc : p.mach.pc 0 = .at .checkSystem 2 := hpc
      rw [hforeign (by rw [hpc]; simp), hpcn, hr]
      exact hz.passes (fun _ => ⟨by rw [hpc]; rfl, rfl⟩) (fun _ => rfl) (.inr ⟨rfl, hunread (.inl hpc)⟩)
    | store hpc hpcn hw =>
      have hpc : p.mach.pc 0 = .at .checkSystem 3 := hpc
      rw [hforeign (by rw [hpc]; simp), hpcn, hw]
      rw [hpc] at hz
      exact hz.stores (hunread (.inr hpc)) (hheeds.overlaid rfl hpc)
    | other hh h0 hh' hw =>
      have hh : holds (p.mach.pc 0) = false := hh
      have h3 : p.mach.pc 0 ≠ .at .checkSystem 3 := fun h3 => by
        rw [h3] at hh
        cases hh
      rw [hforeign h0, hw]
      exact hz.passes (fun h => by simp [hh'] at h) (fun ho => absurd (hz.lost ho).2.2.1 h3) (.inl ⟨rfl, h3⟩)
  · exact (hstep.wram flagWord (by decide)).trans h.flag

/-- A caller that another thread's instruction leaves where it is. -/
theorem Caller.keep (h : Caller Y r21 v) (hpc : v'.pc = v.pc) (hregs : v'.regs = v.regs)
    (hflag : v.wram flagWord = 0 → v'.wram flagWord = 0) : Caller Y r21 v' := by
  obtain ⟨hbase, hmode, hst⟩ := h
  rw [← hregs] at hbase hmode
  refine ⟨hbase, hmode, ?_⟩
  cases hst with
  | call h => exact .call (hpc.trans h)
  | check hi h h0 h1 => exact .check hi (hpc.trans h) (hregs ▸ h0) (hregs ▸ h1)
  | poll h => exact .poll (hpc.trans h)
  | polled h h0 => exact .polled (hpc.trans h) fun hr => hflag (h0 (hregs ▸ hr))
  | lowered h h0 => exact .lowered (hpc.trans h) (hflag h0)
  | returned h h0 => exact .returned (hpc.trans h) (hflag h0)

/-- Scripts that find another word 0 are one until they keep it. -/
theorem near_five (h : Near v (ran Y s0 m z 5)) (z' : Word) : Near v (ran Y s0 m z' 5) := by
  rw [ran, alone_five] at h ⊢
  obtain ⟨⟨hpc, hregs, hvisits, hw⟩, hb⟩ := h
  refine ⟨⟨hpc, hregs, hvisits, fun j hj => (hw j hj).trans ?_⟩, hb⟩
  have h0 : j ≠ 0 := Nat.ne_of_gt (Nat.lt_of_lt_of_le Nat.zero_lt_two hj)
  exact (update_of_ne h0 _ _).trans (update_of_ne h0 _ _).symm

/-- Thread 22 reads its own word back. -/
theorem After.reloads (h : After Y s0 m z n (n + 6) p) (hc : SysCall s0) (hheeds : Heeds p 22) :
    p.mach.wram 0 = (ran Y s0 m z n).regs 0 := by
  have hst : Chacha.stage (p.mach.pc 22) = .reload := (h.stage hc).trans (stageAt_reload h.script.le)
  rcases h.zero.word with hx | hx | ⟨h3, hf⟩
  · rwa [if_pos (by omega)] at hx
  · omega
  · have hforeign := hf (by omega) le_rfl
    rw [hheeds.reload rfl hst h3] at hforeign
    cases hforeign

theorem After.thread22 (h : After Y s0 m z n k p) (hc : SysCall s0) (hl : Lays Y s0 r m) (hn : Spills Y n) (hheeds : Heeds p 22) :
    ∃ z', After Y s0 m z' n (k + 1) (p.next Y 22) := by
  have hle := h.script.le
  have hv : (p.next Y 22).mach.view 22 = Y.step 22 (p.mach.view 22) := view_step Y 22 p.mach
  have hpc : (p.next Y 22).mach.pc 0 = p.mach.pc 0 := step_pc_other (by decide) p.mach
  have hregs : (p.next Y 22).mach.regs 0 = p.mach.regs 0 := step_regs_other (by decide) p.mach
  have hwram : (p.next Y 22).mach.wram = (Y.step 22 (p.mach.view 22)).wram := rfl
  have hforeign : (p.next Y 22).foreign = p.foreign := by simp [Pair.next]
  have hst := h.stage hc
  have hoverlaid : (p.next Y 22).overlaid =
      if k = 5 then decide (p.mach.pc 0 = .at .checkSystem 3) else if k = n + 10 then false else p.overlaid := by
    simp only [Pair.next, hst, stageAt_keep, stageAt_restore hle, true_and]
  have hcaller : ((Y.step 22 (p.mach.view 22)).wram flagWord = 0 ∨
      (Y.step 22 (p.mach.view 22)).wram flagWord = p.mach.wram flagWord) → Caller Y (s0.regs 0 21) ((p.next Y 22).mach.view 0) :=
    fun hf => h.caller.keep hpc hregs fun h0 => hf.elim id (·.trans h0)
  rcases Nat.lt_or_ge k (n + 40) with hk | hk
  · have hfl : ∀ {x : Word}, x = p.mach.wram flagWord → x = if k + 1 ≤ n + 40 then 0xFFFFFFFF else 0 := fun hx => by
      rw [hx, h.flag, if_pos (by omega), if_pos (by omega)]
    by_cases h5 : k = 5
    · -- what it finds in word 0 is what its script is to keep
      subst h5
      have hs' := hl.scripted hc hn (p.mach.wram 0)
      obtain ⟨hnear, hzero, hflag⟩ := hs'.step (v := p.mach.view 22) (k := 5) (near_five h.near _) (by omega)
        (fun _ => (update_self 0 _ m).symm) (by omega)
      rw [if_neg (by omega), if_neg (by omega)] at hzero
      rw [if_pos rfl] at hoverlaid
      refine ⟨p.mach.wram 0, hs', hv ▸ hnear, hcaller (.inr hflag), ?_, hfl hflag⟩
      rw [hpc, hregs, hforeign, hoverlaid, hwram, hzero]
      exact h.zero.keep hle _
    · obtain ⟨hnear, hzero, hflag⟩ := h.script.step h.near hk (fun h => absurd h h5) (by
        rintro rfl
        exact h.reloads hc hheeds)
      rw [if_neg h5] at hoverlaid
      refine ⟨z, h.script, hv ▸ hnear, hcaller (.inr hflag), ?_, hfl hflag⟩
      rw [hpc, hregs, hforeign, hoverlaid, hwram, hzero, update_self]
      exact h.zero.moves fun h10 hh => hheeds.restore rfl (hst.trans ((stageAt_restore hle).mpr h10)) hh
  · obtain ⟨hnear, hzero, hflag⟩ := h.script.step_ends hc.out h.near hk
    rw [if_neg (by omega), if_neg (by omega)] at hoverlaid
    have hmoves := h.zero.moves fun h10 => by omega
    rw [if_neg (by omega), if_neg (by omega), if_neg (by omega)] at hmoves
    have hzero0 : (Y.step 22 (p.mach.view 22)).wram flagWord = 0 := by
      rw [hflag]
      split
      · rfl
      · exact h.flag.trans (if_neg (by omega))
    refine ⟨z, h.script, hv ▸ hnear, hcaller (.inl hzero0), ?_, ?_⟩
    · rw [hpc, hregs, hforeign, hoverlaid, hwram, hzero]
      exact hmoves
    · rw [hwram, hzero0, if_neg (by omega)]

end Memclave.Chacha
