/-
Thread 0 alone in the core, and what its instructions do beside the loader of
`Loader`: a rule for each instruction, by which the code of both is gone
through side by side (`CoreSim`).

Of the C functions `Loader` is the model here too. A thread that is booted
has stopped again after the instruction, unless it runs code of the user's.
-/
import Memclave.Core
import Memclave.History
import Memclave.Lib.Simulate

namespace Memclave.Core

open Words Copy Exec Function Loader
open Asm hiding Prog

/-- What stands around thread 0 while it loads. -/
structure Env where
  c : Crypto
  frames : Frames
  running : Nat → Bool
  sysKey : Fin 8 → Word
  /-- what a C function leaves in the registers it need not keep -/
  left : Cpu Label → Reg → Word

def Env.st (E : Env) (v : Cpu Label) : St := ⟨v.mram, v.wram, v.iram, 0, E.running, E.sysKey, []⟩

def codeOf : Fault → Code
  | .sec => .sec
  | .sanity => .sanity
  | .mem => .mem

/-- The end of a C function. -/
def Env.ends (E : Env) (Y : Layout core) (v : Cpu Label) : EStateM.Result Fault St Unit → Cpu Label
  | .ok _ s => { v with
      pc := .run (Y.place (v.regs 23))
      regs := fun r => if 14 ≤ r then v.regs r else E.left v r
      mram := s.mram
      wram := s.wram
      iram := s.iram }
  | .error e s => { v with pc := .faulted (codeOf e), mram := s.mram, wram := s.wram, iram := s.iram }

/-- A call of a C function; the loader calls two of them, with the subkernel's
address in `r21` too, where `ime_check_system` takes it from. -/
def Env.call (E : Env) (Y : Layout core) (v : Cpu Label) : Fn → Cpu Label
  | .imeDecryptSk =>
    if v.regs 21 = v.regs 0 then E.ends Y v (imeDecryptSk E.c E.frames (v.regs 0) (v.regs 1) (v.regs 2) (E.st v)) else v
  | .imeScanSk => if v.regs 21 = v.regs 0 then E.ends Y v (imeScanSk E.frames (v.regs 0) (E.st v)) else v
  | .polyInit | .polyFeedBlock | .polyFinalize => v

/-- What the other threads do after an instruction. -/
def Env.settle (E : Env) (ins : Instr Label) (v : Cpu Label) : Cpu Label :=
  match ins with
  | .boot .. => { v with bits := fun k => v.bits k && (decide (k = 0 ∨ 15 < k) || E.running k) }
  | _ => v

def Env.step (E : Env) (Y : Layout core) (v : Cpu Label) : Cpu Label :=
  match v.pc with
  | .run (.at (.fn f) 0) => E.call Y v f
  | .run (.at l i) =>
    match (code l)[i]? with
    | some ins => E.settle ins (Y.exec 0 l i ins v)
    | none => { v with pc := .faulted .mem }
  | _ => v

/-! ## The rules -/

/-- A thread with the memories of the loader's model. -/
def cpu (pc : Pc Label) (r : Reg → Word) (c : Bool) (b : Nat → Bool) (s : St) : Cpu Label :=
  ⟨pc, r, c, s.mram, s.wram, s.iram, b⟩

/-- It has faulted as the model has. -/
def Faulted (e : Fault) (s : St) (v : Cpu Label) : Prop :=
  v.pc = .faulted (codeOf e) ∧ v.mram = s.mram ∧ v.wram = s.wram ∧ v.iram = s.iram

/-- What the model has beside the memories. -/
def Env.Fits (E : Env) (s : St) : Prop := s.id = 0 ∧ s.running = E.running ∧ s.sysKey = E.sysKey

variable {E : Env} {Y : Layout core} {α β : Type}

/-- The instructions from `v` on do what `x` does. -/
structure CoreSim (E : Env) (Y : Layout core) (v : Cpu Label) (x : Prog α) (s : St) (K : α → St → Cpu Label → Prop) :
    Prop where
  run : E.Fits s → Sim (E.step Y) Faulted v x s fun a s' v' => E.Fits s' ∧ K a s' v'

section

variable {v : Cpu Label} {x : Prog α} {g : α → Prog β} {s : St} {K K' : α → St → Cpu Label → Prop}
  {J : β → St → Cpu Label → Prop}

theorem CoreSim.pure {a : α} (h : K a s v) : CoreSim E Y v (Pure.pure a) s K :=
  ⟨fun hs => Sim.pure ⟨hs, h⟩⟩

theorem CoreSim.bind (h : CoreSim E Y v x s K) (hg : ∀ a s' v', K a s' v' → CoreSim E Y v' (g a) s' J) :
    CoreSim E Y v (x >>= g) s J := ⟨fun hs => (h.run hs).bind fun a s' v' ha => (hg a s' v' ha.2).run ha.1⟩

theorem CoreSim.last (h : CoreSim E Y v (x >>= Pure.pure) s K) : CoreSim E Y v x s K :=
  ⟨fun hs => (h.run hs).last⟩

theorem CoreSim.mono (h : CoreSim E Y v x s K) (hK : ∀ a s' v', K a s' v' → K' a s' v') : CoreSim E Y v x s K' :=
  ⟨fun hs => (h.run hs).mono fun a s' v' ha => ⟨ha.1, hK a s' v' ha.2⟩⟩

end

/-- Every register but those in `used` is as it was. -/
def Off (used : List Reg) (r r' : Reg → Word) : Prop := ∀ d ∉ used, r' d = r d

section

variable {used : List Reg} {r r' r'' : Reg → Word} {d : Reg}

theorem Off.refl : Off [] r r := fun _ _ => rfl

theorem Off.mono {used' : List Reg} (h : Off used r r') (hu : used ⊆ used') : Off used' r r' :=
  fun d hd => h d fun hm => hd (hu hm)

theorem Off.trans {used' : List Reg} (h : Off used r r') (h' : Off used' r' r'') : Off (used ++ used') r r'' := by
  intro d hd
  have hd' := not_or.mp (List.mem_append.not.mp hd)
  exact (h' d hd'.2).trans (h d hd'.1)

theorem Off.set (h : Off used r r') (w : Word) : Off (d :: used) r (update r' d w) := by
  intro d' hd'
  have hd := not_or.mp (List.mem_cons.not.mp hd')
  rw [update_of_ne hd.1]
  exact h d' hd.2

theorem Off.put (hd : d ∈ used) (h : Off used r r') (w : Word) : Off used r (update r' d w) :=
  (h.set w).mono (List.cons_subset.mpr ⟨hd, List.Subset.refl _⟩)

end

/-! Where an instruction goes on to, by its condition. -/

section

variable {l : Label} {i : Nat} {dst : Isa.Target Label} {w : Word}

theorem branch_taken {k : Cond} (h : k.holds w = true) : core.branch l i (some (k, dst)) w = core.target l i dst := if_pos h

theorem branch_not {k : Cond} (h : k.holds w = false) : core.branch l i (some (k, dst)) w = core.succ l i :=
  if_neg (Bool.not_eq_true _ ▸ h)

theorem holds_z : Cond.z.holds w = true ↔ w = 0 := beq_iff_eq

theorem holds_mi : Cond.mi.holds w = w.msb := rfl

theorem holds_pl : Cond.pl.holds w = !w.msb := rfl

theorem holds_nz : Cond.nz.holds w = true ↔ w ≠ 0 := bne_iff_ne

end

variable {l l' : Label} {i : Nat} {r : Reg → Word} {c : Bool} {b : Nat → Bool} {s : St} {K : α → St → Cpu Label → Prop}
  {J : β → St → Cpu Label → Prop}

theorem step_cpu {ins : Instr Label} (hi : (code l)[i]? = some ins) (hc : ins ≠ .compiled) :
    E.step Y (cpu (.run (.at l i)) r c b s) = E.settle ins (Y.exec 0 l i ins (cpu (.run (.at l i)) r c b s)) := by
  cases l with
  | fn f =>
    cases i with
    | zero => exact absurd (Option.some.inj hi).symm hc
    | succ i => cases hi
  | _ => simp only [Env.step, cpu, hi]

section

variable {x : Prog α} {d : Reg} {p q : Isa.Src} {op : Op} {od : Option Reg} {j : Option (Cond × Isa.Target Label)}
  {e : Entry Label} {n : Nat}

theorem sim_get {v : Cpu Label} {g : St → Prog β} (h : E.Fits s → CoreSim E Y v (g s) s J) :
    CoreSim E Y v (get >>= g) s J := ⟨fun hs => (h hs).run hs⟩

/-- An instruction that the model has no part of. -/
theorem sim_regs {ins : Instr Label} {pc : Pc Label} {r' : Reg → Word} {c' : Bool} {b' : Nat → Bool}
    (hi : (code l)[i]? = some ins)
    (hx : E.settle ins (Y.exec 0 l i ins (cpu (.run (.at l i)) r c b s)) = cpu pc r' c' b' s)
    (h : CoreSim E Y (cpu pc r' c' b' s) x s K) (hc : ins ≠ .compiled) :
    CoreSim E Y (cpu (.run (.at l i)) r c b s) x s K := by
  refine ⟨fun hs => Sim.step ?_⟩
  rw [step_cpu hi hc, hx]
  exact h.run hs

theorem sim_move (hi : (code l)[i]? = some (.move d p))
    (h : CoreSim E Y (cpu (core.succ l i) (update r d (p.val 0 r)) c b s) x s K) :
    CoreSim E Y (cpu (.run (.at l i)) r c b s) x s K := sim_regs hi rfl h nofun

theorem sim_alu (w : Word) {pc : Pc Label} (hi : (code l)[i]? = some (.alu op od p q j))
    (hw : (op.eval c (p.val 0 r) (q.val 0 r)).1 = w) (hj : core.branch l i j w = pc)
    (h : ∀ c, CoreSim E Y (cpu pc (write r od w) c b s) x s K) :
    CoreSim E Y (cpu (.run (.at l i)) r c b s) x s K := by
  subst hw hj
  exact sim_regs hi rfl (h _) nofun

theorem sim_clear (hi : (code l)[i]? = some (.clear d))
    (h : CoreSim E Y (cpu (core.succ l i) (update (update r d 0) (d + 1) 0) c b s) x s K) :
    CoreSim E Y (cpu (.run (.at l i)) r c b s) x s K := sim_regs hi rfl h nofun

/-- A `boot` finds the bit as it was, and leaves those set whose threads run
code of the user's. -/
theorem sim_boot {pc : Pc Label} {b' : Nat → Bool} (hi : (code l)[i]? = some (.boot p n j))
    (hj : core.branch l i j (Isa.bitWord (b (p.val 0 r + BitVec.ofNat 32 n).toNat)) = pc)
    (hb : (fun k => update b (p.val 0 r + BitVec.ofNat 32 n).toNat true k && (decide (k = 0 ∨ 15 < k) || E.running k)) = b')
    (h : CoreSim E Y (cpu pc r c b' s) x s K) :
    CoreSim E Y (cpu (.run (.at l i)) r c b s) x s K := by
  subst hj hb
  exact sim_regs hi rfl h nofun

theorem sim_resume (hi : (code l)[i]? = some (.resume p n))
    (h : ∀ b, CoreSim E Y (cpu (core.succ l i) r c b s) x s K) :
    CoreSim E Y (cpu (.run (.at l i)) r c b s) x s K := sim_regs hi rfl (h _) nofun

theorem sim_call (hi : (code l)[i]? = some (.call d l'))
    (h : CoreSim E Y (cpu (.run (.at l' 0)) (update r d (Y.addr l + BitVec.ofNat 32 (i + 1))) c b s) x s K)
    : CoreSim E Y (cpu (.run (.at l i)) r c b s) x s K := sim_regs hi rfl h nofun

theorem sim_jump (hi : (code l)[i]? = some (.jump e)) (h : CoreSim E Y (cpu (.run (Y.entry e)) r c b s) x s K)
    : CoreSim E Y (cpu (.run (.at l i)) r c b s) x s K := sim_regs hi rfl h nofun

theorem sim_jumpReg (hi : (code l)[i]? = some (.jumpReg d)) (h : CoreSim E Y (cpu (.run (Y.place (r d))) r c b s) x s K)
    : CoreSim E Y (cpu (.run (.at l i)) r c b s) x s K := sim_regs hi rfl h nofun

theorem sim_jumpOff (hi : (code l)[i]? = some (.jumpOff d l'))
    (h : CoreSim E Y (cpu (.run (Y.place (r d + Y.addr l'))) r c b s) x s K) :
    CoreSim E Y (cpu (.run (.at l i)) r c b s) x s K := sim_regs hi rfl h nofun

theorem sim_nop (hi : (code l)[i]? = some .nop) (h : CoreSim E Y (cpu (core.succ l i) r c b s) x s K)
    : CoreSim E Y (cpu (.run (.at l i)) r c b s) x s K := sim_regs hi rfl h nofun

theorem sim_sec : CoreSim E Y (cpu (.run (.at .imeSecFault 0)) r c b s) (throw .sec : Prog α) s K :=
  ⟨fun _ => Sim.step (Sim.throw ⟨rfl, rfl, rfl, rfl⟩)⟩

theorem sim_sanity : CoreSim E Y (cpu (.run (.at .imeSanityFault 0)) r c b s) (throw .sanity : Prog α) s K :=
  ⟨fun _ => Sim.step (Sim.throw ⟨rfl, rfl, rfl, rfl⟩)⟩

end

/-- One that the DPU may fault for, beside the same of the model. -/
theorem sim_guarded {ins : Instr Label} {P : Prop} [Decidable P] {r' : Reg → Word} {y : Prog α} {g : α → Prog β} {a : α}
    (s' : St) (hi : (code l)[i]? = some ins)
    (hx : Y.exec 0 l i ins (cpu (.run (.at l i)) r c b s) =
      if P then cpu (core.succ l i) r' c b s' else cpu (.faulted .mem) r c b s)
    (hset : ∀ v, E.settle ins v = v)
    (hy : ∀ (Q : α → St → Prop) (F : Fault → St → Prop), wp y Q F s ↔ (P → Q a s') ∧ (¬ P → F .mem s))
    (hfit : E.Fits s → E.Fits s') (h : CoreSim E Y (cpu (core.succ l i) r' c b s') (g a) s' J) (hc : ins ≠ .compiled) :
    CoreSim E Y (cpu (.run (.at l i)) r c b s) (y >>= g) s J := by
  refine ⟨fun hs => Sim.step ?_⟩
  rw [step_cpu hi hc, hset, hx]
  refine wp_bind.mpr ((hy _ _).mpr ⟨fun hP => ?_, fun hP => ?_⟩)
  · rw [if_pos hP]
    exact h.run (hfit hs)
  · rw [if_neg hP]
    exact Goes.here ⟨rfl, rfl, rfl, rfl⟩

section

variable {d a : Reg} {n : Nat} {p q : Isa.Src} {off w z : Word} {f : Unit → Prog β} {g : Word → Prog β}

theorem sim_lw (hi : (code l)[i]? = some (.lw d p off)) (hw : p.val 0 r + off = w)
    (h : ∀ z, CoreSim E Y (cpu (core.succ l i) (update r d z) c b s) (g z) s J) :
    CoreSim E Y (cpu (.run (.at l i)) r c b s) (lw w >>= g) s J := by
  subst hw
  exact sim_guarded s hi rfl (fun _ => rfl) (fun _ _ => wp_lw) id (h _) nofun

theorem sim_sw (hi : (code l)[i]? = some (.sw p off q)) (hw : p.val 0 r + off = w) (hz : q.val 0 r = z)
    (h : ∀ s', CoreSim E Y (cpu (core.succ l i) r c b s') (f ()) s' J) :
    CoreSim E Y (cpu (.run (.at l i)) r c b s) (sw w z >>= f) s J := by
  subst hw hz
  exact sim_guarded { s with wram := _ } hi rfl (fun _ => rfl) (fun _ _ => wp_sw) id (h _) nofun

theorem sim_ldma (hi : (code l)[i]? = some (.ldma p a n)) (hw : p.val 0 r = w) (hz : r a = z)
    (h : ∀ s', CoreSim E Y (cpu (core.succ l i) r c b s') (f ()) s' J) :
    CoreSim E Y (cpu (.run (.at l i)) r c b s) (ldma w z (n + 1) >>= f) s J := by
  subst hw hz
  exact sim_guarded { s with wram := _ } hi rfl (fun _ => rfl) (fun _ _ => wp_ldma) id (h _) nofun

/-- The model has tested the address before. -/
theorem sim_ldma_fault (hi : (code l)[i]? = some (.ldma p a n)) (h : ¬ InMram (r a) (2 * (n + 1)))
    : CoreSim E Y (cpu (.run (.at l i)) r c b s) (throw .mem : Prog α) s K := by
  refine ⟨fun _ => Sim.step (Sim.throw ?_)⟩
  rw [step_cpu hi nofun]
  have hx : Y.exec 0 l i (.ldma p a n) (cpu (.run (.at l i)) r c b s) = cpu (.faulted .mem) r c b s :=
    if_neg fun hm => h hm.1
  rw [hx]
  exact ⟨rfl, rfl, rfl, rfl⟩

theorem sim_sdma (hi : (code l)[i]? = some (.sdma p a n)) (hw : p.val 0 r = w) (hz : r a = z)
    (h : ∀ s', CoreSim E Y (cpu (core.succ l i) r c b s') (f ()) s' J) :
    CoreSim E Y (cpu (.run (.at l i)) r c b s) (sdma w z (n + 1) >>= f) s J := by
  subst hw hz
  exact sim_guarded { s with mram := _ } hi rfl (fun _ => rfl) (fun _ _ => wp_sdma) id (h _) nofun

theorem sim_ldmai (hi : (code l)[i]? = some (.ldmai d a n)) (hw : r d = w) (hz : r a = z)
    (h : ∀ s', CoreSim E Y (cpu (core.succ l i) r c b s') (f ()) s' J) :
    CoreSim E Y (cpu (.run (.at l i)) r c b s) (ldmai w z (n + 1) >>= f) s J := by
  subst hw hz
  exact sim_guarded { s with iram := _ } hi rfl (fun _ => rfl) (fun _ _ => wp_ldmai) id (h _) nofun

/-- The history is the model's alone. -/
theorem sim_log {pc : Pc Label} {ev : Event} (h : ∀ s', CoreSim E Y (cpu pc r c b s') (f ()) s' J) :
    CoreSim E Y (cpu pc r c b s) (log ev >>= f) s J := by
  refine ⟨fun hs => wp_bind.mpr (wp_log.mpr ?_)⟩
  exact (h { s with trace := ev :: s.trace }).run hs

end

section

variable {x : Prog α} {p q : Isa.Src} {op : Op} {k : Cond} {P : Prop}

theorem sim_test {od : Option Reg} {w : Word} (hi : (code l)[i]? = some (.alu op od p q (some (k, .label l'))))
    (hw : (op.eval c (p.val 0 r) (q.val 0 r)).1 = w) (hP : k.holds w = true ↔ P)
    (ht : P → ∀ c, CoreSim E Y (cpu (.run (.at l' 0)) (write r od w) c b s) x s K)
    (hf : ¬ P → ∀ c, CoreSim E Y (cpu (core.succ l i) (write r od w) c b s) x s K) :
    CoreSim E Y (cpu (.run (.at l i)) r c b s) x s K := by
  by_cases h : P
  · exact sim_alu w hi hw (branch_taken (hP.mpr h)) (fun c => ht h c)
  · refine sim_alu w hi hw (branch_not ?_) (fun c => hf h c)
    rwa [← Bool.not_eq_true, hP]

/-- A test that faults. -/
theorem sim_check {od : Option Reg} {w : Word} [Decidable P] {e : Fault} {y : PUnit → Prog α}
    (hi : (code l)[i]? = some (.alu op od p q (some (k, .label l')))) (hw : (op.eval c (p.val 0 r) (q.val 0 r)).1 = w)
    (hP : k.holds w = true ↔ P)
    (ht : ∀ c, CoreSim E Y (cpu (.run (.at l' 0)) (write r od w) c b s) (MonadExcept.throw e : Prog α) s K)
    (hf : ¬ P → ∀ c, CoreSim E Y (cpu (core.succ l i) (write r od w) c b s) (y ⟨⟩) s K) :
    CoreSim E Y (cpu (.run (.at l i)) r c b s) (if P then MonadExcept.throw e >>= y else y ⟨⟩) s K := by
  refine sim_test hi hw hP (fun h c => ?_) fun h c => ?_
  · rw [if_pos h]
    exact ht c
  · rw [if_neg h]
    exact hf h c

end

theorem test_nz {w : Word} : Cond.nz.holds (w ^^^ 0) = true ↔ w ≠ 0 := by simp [holds_nz]

theorem test_z {w : Word} : Cond.z.holds (w ^^^ 0) = true ↔ w = 0 := by simp [holds_z]

/-! ## Counting down -/

/-- The counter of a loop that ends with its subtraction at zero. -/
theorem count_next {n : Nat} : BitVec.ofNat 32 (n + 1) - 1 = BitVec.ofNat 32 n := by
  rw [BitVec.ofNat_add]
  exact BitVec.add_sub_cancel _ _

theorem count_ne {n : Nat} (h0 : 0 < n) (hn : n < 2 ^ 32) : BitVec.ofNat 32 n ≠ 0 := by
  intro he
  have h : (BitVec.ofNat 32 n).toNat = 0 := by rw [he]; rfl
  rw [BitVec.toNat_ofNat] at h
  omega

/-- A loop that only counts. -/
theorem count_sim {x : Prog α} {r₀ : Reg → Word} {n : Nat} (hn : n < 2 ^ 32)
    (hi : (code l)[0]? = some (.alu .sub (some 0) (.reg 0) (.imm 1) (some (.nz, .label l))))
    (h : ∀ r c, Off [0] r₀ r → CoreSim E Y (cpu (core.succ l 0) r c b s) x s K) :
    ∀ r c, 0 < n → r 0 = BitVec.ofNat 32 n → Off [0] r₀ r → CoreSim E Y (cpu (.run (.at l 0)) r c b s) x s K := by
  induction n with
  | zero => exact fun _ _ h0 => absurd h0 (Nat.lt_irrefl 0)
  | succ n ih =>
    intro r c _ h0 hr
    have hw : r 0 - 1 = BitVec.ofNat 32 n := by rw [h0, count_next]
    cases n with
    | zero => exact sim_alu _ hi hw rfl fun c => h _ c (hr.put (by decide) _)
    | succ n =>
      have hne := count_ne (Nat.succ_pos n) (Nat.lt_of_succ_lt hn)
      refine sim_alu _ hi hw (branch_taken (holds_nz.mpr hne)) fun c => ?_
      exact ih (Nat.lt_of_succ_lt hn) _ c (Nat.succ_pos n) rfl (hr.put (by decide) _)

/-! ## Routines -/

/-- Back at the caller, with `used` for the registers that may have changed
and `R` for what stands in `r0`. -/
def Back (Y : Layout core) (r : Reg → Word) (used : List Reg) (R : α → Word → Prop) (a : α) (s : St)
    (v : Cpu Label) : Prop :=
  ∃ r' c b, v = cpu (.run (Y.place (r 23))) r' c b s ∧ Off used r r' ∧ R a (r' 0)

/-- `jump r23` -/
theorem sim_back {r₀ : Reg → Word} {used : List Reg} {a : α} {R : α → Word → Prop}
    (hi : (code l)[i]? = some (.jumpReg 23)) (hr : Off used r₀ r) (hu : 23 ∉ used) (ha : R a (r 0)) :
    CoreSim E Y (cpu (.run (.at l i)) r c b s) (pure a) s (Back Y r₀ used R) := by
  refine sim_jumpReg hi (CoreSim.pure ⟨r, c, b, ?_, hr, ha⟩)
  rw [hr 23 hu]

theorem st_cpu (hs : E.Fits s) {pc : Pc Label} : E.st (cpu pc r c b s) = { s with trace := [] } := by
  obtain ⟨h0, h1, h2⟩ := hs
  show (⟨s.mram, s.wram, s.iram, 0, E.running, E.sysKey, []⟩ : St) = _
  rw [← h0, ← h1, ← h2]

/-- The registers a C function may write. -/
def scratch : List Reg := [0, 1, 2, 3, 4, 5, 6, 7, 8, 9, 10, 11, 12, 13]

/-- A call of a C function. -/
theorem fn_sim {f : Fn} {x : Prog Unit} {v : Cpu Label} (hv : v = cpu (.run (.at (.fn f) 0)) r c b s)
    (hcall : E.call Y v f = E.ends Y v (x (E.st v))) (hx : Tame x) : CoreSim E Y v x s (Back Y r scratch fun _ _ => True) := by
  refine ⟨fun hs => Sim.step ?_⟩
  have hstep : E.step Y v = E.ends Y v (x (E.st v)) := by
    rw [← hcall, hv]
    rfl
  rw [hstep, hv, st_cpu hs]
  have hb := hx.same s []
  have hkept := hx.kept s
  unfold Sim wp
  unfold wp at hkept
  cases hx : x s with
  | ok a s' =>
    rw [hx] at hb hkept
    cases hx' : x { s with trace := [] } with
    | ok a2 s2 =>
      rw [hx'] at hb
      cases s'
      cases s2
      cases hb
      refine Goes.here ⟨⟨hkept.id.trans hs.1, hkept.running.trans hs.2.1, hkept.sysKey.trans hs.2.2⟩, _, c, b, rfl,
        fun d hd => ?_, trivial⟩
      have h14 : 14 ≤ d := by
        revert d
        decide
      exact if_pos h14
    | error e s2 =>
      rw [hx'] at hb
      cases hb
  | error e s' =>
    rw [hx] at hb
    cases hx' : x { s with trace := [] } with
    | ok a2 s2 =>
      rw [hx'] at hb
      cases hb
    | error e2 s2 =>
      rw [hx'] at hb
      cases s'
      cases s2
      cases hb
      exact Goes.here ⟨rfl, rfl, rfl, rfl⟩

end Memclave.Core
