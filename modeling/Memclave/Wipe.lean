/-
`ime_wipe_user` of `core_mem.s`, instruction by instruction: what is below
the pointer in `r17` is zero when it returns, what is at or above it is as it
was (`wipes`).

The loader calls it as a routine (`Loader.imeWipeUser`). That the
instructions do what the routine does, faults included, is `refines`; the
ends of the range are those of the routine's own fact.
-/
import Memclave.LoaderFacts
import Memclave.Isa

namespace Memclave.Wipe

open Words Exec Loader Function

/-- The conditions on the sign of a result. -/
inductive Cond where
  | mi
  | pl
deriving DecidableEq, Repr

def Cond.holds : Cond → Word → Bool
  | .mi, w => w.msb
  | .pl, w => !w.msb

inductive Label where
  | imeWipeUser
  | imeWipeLoop
  | imeWipeDone
deriving DecidableEq, Repr

inductive Instr where
  /-- `add d, a, imm, c, l` -/
  | add (d a : Isa.Reg) (imm : Word) (c : Cond) (l : Label)
  /-- `sw a, off, imm` -/
  | sw (a : Isa.Reg) (off imm : Word)
  | jump (a : Isa.Reg)
deriving DecidableEq, Repr

def code : Label → List Instr
  | .imeWipeUser => [.add 0 17 (-4) .mi .imeWipeDone]
  | .imeWipeLoop => [.sw 0 0 0, .add 0 0 (-4) .pl .imeWipeLoop]
  | .imeWipeDone => [.jump 23]

/-- The label whose code follows; `ime_wipe_done` does not run on. -/
def next : Label → Label
  | .imeWipeUser => .imeWipeLoop
  | .imeWipeLoop => .imeWipeDone
  | .imeWipeDone => .imeWipeDone

inductive Pc where
  | at (l : Label) (i : Nat)
  /-- at an address of the caller's -/
  | left (a : Word)
  | faulted
deriving DecidableEq, Repr

structure Mach where
  pc : Pc
  regs : Isa.Reg → Word
  wram : Nat → Word

def succ (l : Label) (i : Nat) : Pc :=
  if i + 1 < (code l).length then .at l (i + 1) else .at (next l) 0

def exec (l : Label) (i : Nat) (ins : Instr) (m : Mach) : Mach :=
  match ins with
  | .add d a imm c l' =>
    let result := m.regs a + imm
    { m with regs := update m.regs d result, pc := if c.holds result then .at l' 0 else succ l i }
  | .sw a off imm =>
    let w := m.regs a + off
    if w.toNat % 4 = 0 ∧ w.toNat / 4 < wramWords then
      { m with wram := update m.wram (w.toNat / 4) imm, pc := succ l i }
    else { m with pc := .faulted }
  | .jump a => { m with pc := .left (m.regs a) }

def step (m : Mach) : Mach :=
  match m.pc with
  | .at l i =>
    match (code l)[i]? with
    | some ins => exec l i ins m
    | none => { m with pc := .faulted }
  | .left _ | .faulted => m

/-! ## The four instructions -/

variable {m : Mach}

theorem step_at {l : Label} {i : Nat} {ins : Instr} (h : m.pc = .at l i) (hi : (code l)[i]? = some ins) :
    step m = exec l i ins m := by
  simp only [step, h, hi]

theorem step_user (h : m.pc = .at .imeWipeUser 0) :
    step m = { m with
      regs := update m.regs 0 (m.regs 17 + (-4))
      pc := if (m.regs 17 + (-4)).msb then .at .imeWipeDone 0 else .at .imeWipeLoop 0 } :=
  step_at h rfl

theorem step_sw (h : m.pc = .at .imeWipeLoop 0) :
    step m = if IsWord (m.regs 0) then
        { m with wram := update m.wram ((m.regs 0).toNat / 4) 0, pc := .at .imeWipeLoop 1 }
      else { m with pc := .faulted } := by
  rw [step_at h rfl, exec, show m.regs 0 + 0 = m.regs 0 from BitVec.add_zero _]
  rfl

theorem step_add (h : m.pc = .at .imeWipeLoop 1) :
    step m = { m with
      regs := update m.regs 0 (m.regs 0 + (-4))
      pc := if (m.regs 0 + (-4)).msb then .at .imeWipeDone 0 else .at .imeWipeLoop 0 } := by
  rw [step_at h rfl, exec, Cond.holds]
  cases (m.regs 0 + (-4)).msb <;> rfl

theorem step_done (h : m.pc = .at .imeWipeDone 0) : step m = { m with pc := .left (m.regs 23) } :=
  step_at h rfl

/-! ## The instructions do what the routine does -/

/-- Some run of instructions ends at `pc` with `w` in WRAM; it has used no
register but `r0`. -/
def Reaches (m : Mach) (pc : Pc) (w : Nat → Word) : Prop :=
  ∃ n, (step^[n] m).pc = pc ∧ (step^[n] m).wram = w ∧ ∀ r ≠ 0, (step^[n] m).regs r = m.regs r

theorem Reaches.here {pc : Pc} (h : m.pc = pc) : Reaches m pc m.wram := ⟨0, h, rfl, fun _ _ => rfl⟩

theorem Reaches.head {m1 : Mach} {pc : Pc} {w : Nat → Word} (h1 : step m = m1)
    (hr : ∀ r ≠ 0, m1.regs r = m.regs r) (h : Reaches m1 pc w) : Reaches m pc w := by
  obtain ⟨n, hpc, hw, hregs⟩ := h
  subst h1
  exact ⟨n + 1, hpc, hw, fun r h0 => (hregs r h0).trans (hr r h0)⟩

theorem reaches_done (h : m.pc = .at .imeWipeDone 0) : Reaches m (.left (m.regs 23)) m.wram :=
  Reaches.head (step_done h) (fun _ _ => rfl) (Reaches.here rfl)

/-- One pass: the store and the subtraction. -/
theorem reaches_pass {pc : Pc} {w : Nat → Word} (h : m.pc = .at .imeWipeLoop 0) (hw : IsWord (m.regs 0))
    (hr : Reaches
      { regs := update m.regs 0 (m.regs 0 + (-4))
        wram := update m.wram ((m.regs 0).toNat / 4) 0
        pc := if (m.regs 0 + (-4)).msb then .at .imeWipeDone 0 else .at .imeWipeLoop 0 } pc w) :
    Reaches m pc w := by
  have hsw := step_sw h
  rw [if_pos hw] at hsw
  refine Reaches.head hsw (fun _ _ => rfl) (Reaches.head (step_add rfl) (fun r h0 => ?_) hr)
  exact update_of_ne h0 _ _

/-- The loop, by the recursion of the routine. -/
theorem loop_refines (r0 : Word) : ∀ (m : Mach) (s : St), m.pc = .at .imeWipeLoop 0 → m.regs 0 = r0 →
    m.wram = s.wram →
    wp (imeWipeLoop r0) (fun _ s' => Reaches m (.left (m.regs 23)) s'.wram)
      (fun e s' => e = .mem ∧ Reaches m .faulted s'.wram) s := by
  induction r0 using imeWipeLoop.induct with
  | case1 r0 ih =>
    intro m s hpc h0 hw
    subst h0
    rw [imeWipeLoop, wp_bind, wp_sw, ← hw]
    refine ⟨fun h => ?_, fun h => ⟨rfl, ?_⟩⟩
    · have hlink : update m.regs 0 (m.regs 0 + (-4)) 23 = m.regs 23 := update_of_ne (by decide) _ _
      have hself : update m.regs 0 (m.regs 0 + (-4)) 0 = m.regs 0 + (-4) := update_self _ _ _
      split
      next hneg =>
        refine reaches_pass hpc h ?_
        rw [if_pos hneg, ← hlink]
        exact reaches_done rfl
      next hneg =>
        refine (ih hneg ⟨.at .imeWipeLoop 0, update m.regs 0 (m.regs 0 + (-4)), _⟩ _ rfl hself rfl).mono
          (fun _ s' hs => ?_) fun e s' he => ⟨he.1, ?_⟩
        · refine reaches_pass hpc h ?_
          rw [if_neg hneg, ← hlink]
          exact hs
        · refine reaches_pass hpc h ?_
          rw [if_neg hneg]
          exact he.2
    · have hsw := step_sw hpc
      rw [if_neg h] at hsw
      exact Reaches.head hsw (fun _ _ => rfl) (Reaches.here rfl)

/-- **The instructions do what the loader's routine does.** They return where
it returns and fault where it faults, with the same WRAM. -/
theorem refines (s : St) (hpc : m.pc = .at .imeWipeUser 0) (hw : m.wram = s.wram) :
    wp (imeWipeUser (m.regs 17)) (fun _ s' => Reaches m (.left (m.regs 23)) s'.wram)
      (fun e s' => e = .mem ∧ Reaches m .faulted s'.wram) s := by
  have huser := step_user hpc
  have hregs : ∀ r ≠ 0, update m.regs 0 (m.regs 17 + (-4)) r = m.regs r := fun r h0 => update_of_ne h0 _ _
  have hlink := hregs 23 (by decide)
  rw [imeWipeUser, wp_ite]
  refine ⟨fun hneg => ?_, fun hneg => ?_⟩
  · rw [if_pos hneg] at huser
    refine Reaches.head huser hregs ?_
    rw [← hlink, ← hw]
    exact reaches_done rfl
  · rw [if_neg hneg] at huser
    have hself : update m.regs 0 (m.regs 17 + (-4)) 0 = m.regs 17 + (-4) := update_self _ _ _
    refine (loop_refines _ ⟨.at .imeWipeLoop 0, update m.regs 0 (m.regs 17 + (-4)), m.wram⟩ s rfl hself hw).mono
      (fun _ s' hs => ?_) fun e s' he => ⟨he.1, Reaches.head huser hregs he.2⟩
    refine Reaches.head huser hregs ?_
    rw [← hlink]
    exact hs

/-! ## What is wiped -/

/-- The end of `ime_wipe_user`: back at its caller, with zeros below the
pointer and what was there from it on. -/
structure Wiped (m m' : Mach) : Prop where
  returned : m'.pc = .left (m.regs 23)
  below : ∀ k, 4 * k < (m.regs 17).toNat → m'.wram k = 0
  above : ∀ k, (m.regs 17).toNat ≤ 4 * k → m'.wram k = m.wram k
  regs : ∀ r ≠ 0, m'.regs r = m.regs r

/-- How far the sign tests let the loop go: a pointer of at most the size of
WRAM is positive, so the only sum below 0 is that of the pointer 0. -/
theorem wiped_eq {r17 : Word} (h4 : r17.toNat % 4 = 0) (hle : r17.toNat ≤ 65536) : wiped r17 = r17.toNat / 4 := by
  rw [wiped]
  split
  next hneg =>
    cases (sub_four_msb r17).mp hneg with
    | inl h => rw [Nat.div_eq_of_lt h]
    | inr h => omega
  next hneg =>
    have h : ¬ r17.toNat < 4 := fun h => hneg ((sub_four_msb r17).mpr (.inl h))
    rw [toNat_sub_four (by omega)]
    omega

theorem wipeOk {r17 : Word} (h4 : r17.toNat % 4 = 0) (hle : r17.toNat ≤ 65536) : WipeOk r17 := by
  by_cases h : r17.toNat < 4
  · exact .inl ((sub_four_msb r17).mpr (.inl h))
  · have hsub := toNat_sub_four (Nat.le_of_not_lt h)
    have hW : wramWords = 2 ^ 14 := rfl
    exact .inr ⟨by omega, by omega⟩

theorem imeWipeUser_total {r17 : Word} (h4 : r17.toNat % 4 = 0) (hle : r17.toNat ≤ 65536) (s : St) :
    ∃ s', imeWipeUser r17 s = .ok () s' ∧ s'.wram = fun k => if k < r17.toNat / 4 then 0 else s.wram k := by
  obtain ⟨_, s', hx, _, hs⟩ := ((imeWipeUser_spec r17 s).mono (fun _ _ h => h)
    fun _ _ h => h.2.1 (wipeOk h4 hle)).total
  exact ⟨s', hx, by rw [hs, wiped_eq h4 hle]⟩

/-- **Every word below the pointer is zero, every word from it on is kept.**
From every content of WRAM and every pointer that is a multiple of 4 within
it, or its end. -/
theorem wipes (m : Mach) (hpc : m.pc = .at .imeWipeUser 0) (h4 : (m.regs 17).toNat % 4 = 0)
    (hle : (m.regs 17).toNat ≤ 65536) : ∃ n, Wiped m (step^[n] m) := by
  -- the routine reads only WRAM
  let s : St := ⟨fun _ => 0, m.wram, fun _ => 0, 0, fun _ => false, fun _ => 0, []⟩
  obtain ⟨s', hx, hw⟩ := imeWipeUser_total h4 hle s
  obtain ⟨n, hend, hwram, hregs⟩ := (refines s hpc rfl).ok hx
  rw [hw] at hwram
  refine ⟨n, hend, fun k hk => ?_, fun k hk => ?_, hregs⟩
  · exact (congrFun hwram k).trans (if_pos (by omega))
  · exact (congrFun hwram k).trans (if_neg (by omega))

/-- Two words at 0 and 4 go, the word at 8 stays. -/
theorem wipes_two : ∃ n, Wiped ⟨.at .imeWipeUser 0, fun r => if r = 17 then 8 else 0, fun k => BitVec.ofNat 32 k + 1⟩
    (step^[n] ⟨.at .imeWipeUser 0, fun r => if r = 17 then 8 else 0, fun k => BitVec.ofNat 32 k + 1⟩) :=
  wipes ⟨.at .imeWipeUser 0, fun r => if r = 17 then 8 else 0, fun k => BitVec.ofNat 32 k + 1⟩ rfl (by decide)
    (by decide)

end Memclave.Wipe
