/-
The instructions of a DPU that `chacha.S` is written in.

A program is a list of instructions for each label, which runs into that of
the label after it. A `Board` says where it lies and what MRAM holds, which
none of these instructions writes. `Board.step` is one instruction of one
thread on what the thread sees: its own registers, and the WRAM and run bits
it shares with the others. `Mach.step` is that of one thread among several.
How often a label was passed and how many instructions a thread has made is a
record of the run.
-/
import Memclave.Machine

namespace Memclave.Isa

open Words Function Copy Loader

abbrev Reg := Fin 24

instance (priority := 1100) Reg.neZero : NeZero 24 := ⟨by decide⟩

/-- An operand. -/
inductive Src where
  | reg (r : Reg)
  | imm (w : Word)
  | zero
  | lneg
  | id
deriving DecidableEq, Repr

/-- The condition of a result under which an instruction jumps. -/
inductive Cond where
  | t
  | z
  | nz
deriving DecidableEq, Repr

def Cond.holds : Cond → Word → Bool
  | .t, _ => true
  | .z, w => w == 0
  | .nz, w => w != 0

/-- Where to: a label, or `.+n`. -/
inductive Target (L : Type) where
  | label (l : L)
  | skip (n : Nat)
deriving DecidableEq, Repr

inductive Instr (L : Type) where
  | move (d : Reg) (s : Src)
  | add (d a : Reg) (b : Src)
  | xor (d a : Reg) (b : Src)
  | rol (d a : Reg) (n : Nat)
  | sub (d a : Reg) (b : Src) (c : Cond) (l : L)
  /-- `xor zero, a, b, c, dst` -/
  | test (a b : Src) (c : Cond) (dst : Target L)
  /-- `add zero, a, b, c, dst` -/
  | addTest (a b : Src) (c : Cond) (dst : Target L)
  | lw (d : Reg) (a : Src) (off : Nat)
  | sw (a : Src) (off : Nat) (s : Src)
  /-- of `n + 1` 8-byte words of MRAM -/
  | ldma (w : Src) (a : Reg) (n : Nat)
  /-- clears a run bit; its result is the bit as it was -/
  | clrRun (bit : Nat) (c : Cond) (dst : Target L)
  /-- sets a run bit; its result is the bit as it was -/
  | boot (bit : Nat) (c : Cond) (dst : Target L)
  | call (d : Reg) (l : L)
  | jump (l : L)
  | jumpReg (r : Reg)
  /-- `jump r23`, out of the program -/
  | ret
  | stop
  | fault
deriving DecidableEq, Repr

structure Prog (L : Type) where
  code : L → List (Instr L)
  /-- the label whose code follows -/
  next : L → L
  /-- where a thread begins whose run bit is set -/
  bootstrap : L

inductive Pc (L : Type) where
  | at (l : L) (i : Nat)
  | returned
  | stopped
  | faulted
deriving DecidableEq, Repr

/-- Where a program lies, and the words of MRAM. -/
structure Board {L : Type} (P : Prog L) where
  /-- the address of an instruction -/
  addr : L → Nat → Word
  /-- what is at an address -/
  find : Word → Pc L
  find_addr : ∀ l i, i < (P.code l).length → find (addr l i) = .at l i
  mram : Nat → Word

/-- What a thread sees. -/
structure View (L : Type) where
  pc : Pc L
  regs : Reg → Word
  wram : Nat → Word
  bits : Nat → Bool
  visits : L → Nat

variable {L : Type} [DecidableEq L]

def Src.val (id : Nat) (regs : Reg → Word) : Src → Word
  | .reg r => regs r
  | .imm w => w
  | .zero => 0
  | .lneg => 0xFFFFFFFF
  | .id => BitVec.ofNat 32 id

/-- The word of WRAM at `off` bytes from an address. -/
def wordAt (a : Word) (off : Nat) : Nat := (a + BitVec.ofNat 32 off).toNat / 4

def Prog.succ (P : Prog L) (l : L) (i : Nat) : Pc L :=
  if i + 1 < (P.code l).length then .at l (i + 1) else .at (P.next l) 0

/-- The address that a call leaves, of the instruction after it. -/
def Board.link {P : Prog L} (Y : Board P) (l : L) (i : Nat) : Word :=
  match P.succ l i with
  | .at l' j => Y.addr l' j
  | _ => 0

/-- `.+n` -/
def Prog.skip (P : Prog L) : Nat → Pc L → Pc L
  | n + 1, .at l i => P.skip n (P.succ l i)
  | _, pc => pc

def Prog.target (P : Prog L) (l : L) (i : Nat) : Target L → Pc L
  | .label l' => .at l' 0
  | .skip n => P.skip n (.at l i)

/-- After an instruction with a condition. -/
def Prog.branch (P : Prog L) (l : L) (i : Nat) (c : Cond) (result : Word) (dst : Target L) : Pc L :=
  if c.holds result then P.target l i dst else P.succ l i

/-- An instruction that has neither a condition nor a run bit, on registers
and WRAM. -/
def Instr.effect (id : Nat) : Instr L → (Reg → Word) × (Nat → Word) → (Reg → Word) × (Nat → Word)
  | .move d s, (r, m) => (update r d (s.val id r), m)
  | .add d a b, (r, m) => (update r d (r a + b.val id r), m)
  | .xor d a b, (r, m) => (update r d (r a ^^^ b.val id r), m)
  | .rol d a n, (r, m) => (update r d ((r a).rotateLeft n), m)
  | .lw d a off, (r, m) => (update r d (m (wordAt (a.val id r) off)), m)
  | .sw a off s, (r, m) => (r, update m (wordAt (a.val id r) off) (s.val id r))
  | _, x => x

def Instr.straight : Instr L → Bool
  | .move .. | .add .. | .xor .. | .rol .. | .lw .. | .sw .. => true
  | _ => false

/-- A run bit as a result. -/
def bitWord (b : Bool) : Word := if b then 1 else 0

/-- The instruction at `l`, `i` on all but the count of visits. -/
def Board.exec {P : Prog L} (Y : Board P) (id : Nat) (l : L) (i : Nat) (ins : Instr L) (v : View L) : View L :=
  match ins with
  | .sub d a b c l' =>
    let result := v.regs a - b.val id v.regs
    { v with regs := update v.regs d result, pc := P.branch l i c result (.label l') }
  | .test a b c dst => { v with pc := P.branch l i c (a.val id v.regs ^^^ b.val id v.regs) dst }
  | .addTest a b c dst => { v with pc := P.branch l i c (a.val id v.regs + b.val id v.regs) dst }
  | .clrRun bit c dst =>
    { v with bits := update v.bits bit false, pc := P.branch l i c (bitWord (v.bits bit)) dst }
  | .boot bit c dst =>
    { v with bits := update v.bits bit true, pc := P.branch l i c (bitWord (v.bits bit)) dst }
  | .ldma w a n =>
    let w := w.val id v.regs
    if InMram (v.regs a) (2 * (n + 1)) ∧ InWram w (2 * (n + 1)) then
      { v with wram := blit v.wram (wramAt w) Y.mram (mramAt (v.regs a)) (2 * (n + 1)), pc := P.succ l i }
    else { v with pc := .faulted }
  | .call d l' => { v with regs := update v.regs d (Y.link l i), pc := .at l' 0 }
  | .jump l' => { v with pc := .at l' 0 }
  | .jumpReg r => { v with pc := Y.find (v.regs r) }
  | .ret => { v with pc := .returned }
  | .stop => { v with bits := update v.bits id false, pc := .stopped }
  | .fault => { v with pc := .faulted }
  | ins =>
    let x := ins.effect id (v.regs, v.wram)
    { v with regs := x.1, wram := x.2, pc := P.succ l i }

/-- The first instruction of a label is a visit of it. -/
def visit (l : L) : Nat → (L → Nat) → L → Nat
  | 0, visits => update visits l (visits l + 1)
  | _ + 1, visits => visits

/-- One instruction of thread `id`. -/
def Board.step {P : Prog L} (Y : Board P) (id : Nat) (v : View L) : View L :=
  match v.pc with
  | .at l i =>
    match (P.code l)[i]? with
    | some ins => Y.exec id l i ins { v with visits := visit l i v.visits }
    | none => { v with pc := .faulted }
  | .stopped => if v.bits id then { v with pc := .at P.bootstrap 0 } else v
  | .returned | .faulted => v

/-! ## Several threads -/

structure Mach (L : Type) where
  wram : Nat → Word
  bits : Nat → Bool
  pc : Nat → Pc L
  regs : Nat → Reg → Word
  visits : Nat → L → Nat
  /-- how many instructions a thread has made -/
  made : Nat → Nat

def Mach.view (m : Mach L) (t : Nat) : View L := ⟨m.pc t, m.regs t, m.wram, m.bits, m.visits t⟩

def Mach.step {P : Prog L} (Y : Board P) (t : Nat) (m : Mach L) : Mach L :=
  let v := Y.step t (m.view t)
  { wram := v.wram
    bits := v.bits
    pc := update m.pc t v.pc
    regs := update m.regs t v.regs
    visits := update m.visits t v.visits
    made := update m.made t (m.made t + 1) }

end Memclave.Isa
