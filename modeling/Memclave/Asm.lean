/-
The instructions of a DPU that the assembly files of `src/core` are written
in, on registers, the three memories and the run bits.

`Isa` has those of `chacha.S`, for a thread that stays in it. Here code is
left and entered anywhere: a register may hold any address, and a `Layout`
says what stands there, an instruction of the program or code from elsewhere.
What an address outside a memory does is the DPU's own fault, as in
`Machine`.
-/
import Memclave.Isa
import Memclave.MachineFacts

namespace Memclave.Asm

open Words Copy Function Loader

abbrev Reg := Isa.Reg

abbrev Src := Isa.Src

inductive Op where
  | add
  | addc
  | sub
  | xor
  | and
  | lsl
  | rol
deriving DecidableEq, Repr

/-- The result, and the carry; no code reads one that is not an addition's. -/
def Op.eval : Op → Bool → Word → Word → Word × Bool
  | .add, _, a, b => (a + b, decide (2 ^ 32 ≤ a.toNat + b.toNat))
  | .addc, c, a, b => (a + b + Isa.bitWord c, decide (2 ^ 32 ≤ a.toNat + b.toNat + c.toNat))
  | .sub, c, a, b => (a - b, c)
  | .xor, c, a, b => (a ^^^ b, c)
  | .and, c, a, b => (a &&& b, c)
  | .lsl, c, a, b => (a <<< b.toNat, c)
  | .rol, c, a, b => (a.rotateLeft b.toNat, c)

/-- The condition of a result under which an instruction jumps. -/
inductive Cond where
  | t
  | z
  | nz
  | mi
  | pl
deriving DecidableEq, Repr

def Cond.holds : Cond → Word → Bool
  | .t, _ => true
  | .z, w => w == 0
  | .nz, w => w != 0
  | .mi, w => w.msb
  | .pl, w => !w.msb

/-- What a thread says when it faults. -/
inductive Code where
  /-- `0x101010`, which is resolved -/
  | signal
  /-- `0x101011` -/
  | sec
  /-- `0x101012` -/
  | sanity
  /-- the DPU's own -/
  | mem
deriving DecidableEq, Repr

/-- A place of the program, or an address. -/
inductive Entry (L : Type) where
  | label (l : L)
  | addr (w : Word)
deriving DecidableEq, Repr

inductive Instr (L : Type) where
  | move (d : Reg) (s : Src)
  /-- `op d, a, b`, or `op zero, a, b`, and a jump on the result -/
  | alu (op : Op) (d : Option Reg) (a b : Src) (j : Option (Cond × Isa.Target L))
  /-- `add.u d, zero, 0x0, z` on a pair of registers; that it clears both is
  assumed of the hardware -/
  | clear (d : Reg)
  | lw (d : Reg) (a : Src) (off : Word)
  | sw (a : Src) (off : Word) (s : Src)
  /-- of `n + 1` 8-byte words, as the others -/
  | ldma (w : Src) (a : Reg) (n : Nat)
  | sdma (w : Src) (a : Reg) (n : Nat)
  | ldmai (w a : Reg) (n : Nat)
  /-- sets the run bit `a + n`; its result is the bit as it was -/
  | boot (a : Src) (n : Nat) (j : Option (Cond × Isa.Target L))
  | resume (a : Src) (n : Nat)
  | clrRun (n : Nat) (j : Option (Cond × Isa.Target L))
  | call (d : Reg) (l : L)
  | jump (e : Entry L)
  | jumpReg (r : Reg)
  /-- `jump r, l` -/
  | jumpOff (r : Reg) (l : L)
  | stop (e : Entry L)
  | fault (c : Code)
  | nop
  /-- the body of a C function -/
  | compiled
deriving DecidableEq, Repr

structure Prog (L : Type) where
  code : L → List (Instr L)
  /-- the label whose code follows, if the code of this one runs on -/
  next : L → Option L

inductive Place (L : Type) where
  | at (l : L) (i : Nat)
  | outside (a : Word)
deriving DecidableEq, Repr

inductive Pc (L : Type) where
  | run (p : Place L)
  /-- until its run bit is set -/
  | stopped (p : Place L)
  | faulted (c : Code)
deriving DecidableEq, Repr

variable {L : Type}

/-- Where the linker puts a program. -/
structure Layout (P : Prog L) where
  addr : L → Word
  find : Word → Option (L × Nat)
  find_addr : ∀ l i, i < (P.code l).length → find (addr l + BitVec.ofNat 32 i) = some (l, i)
  addr_next : ∀ l l', P.next l = some l' → addr l' = addr l + BitVec.ofNat 32 (P.code l).length
  /-- the last 3072 instructions are the user's -/
  find_user : ∀ w, 1024 ≤ w.toNat → find w = none

def Layout.place {P : Prog L} (Y : Layout P) (w : Word) : Place L :=
  match Y.find w with
  | some (l, i) => .at l i
  | none => .outside w

def Layout.entry {P : Prog L} (Y : Layout P) : Entry L → Place L
  | .label l => .at l 0
  | .addr w => Y.place w

/-- What a thread sees. -/
structure Cpu (L : Type) where
  pc : Pc L
  regs : Reg → Word
  carry : Bool
  mram : Nat → Word
  wram : Nat → Word
  iram : Nat → Word
  bits : Nat → Bool

def Prog.succ (P : Prog L) (l : L) (i : Nat) : Pc L :=
  if i + 1 < (P.code l).length then .run (.at l (i + 1))
  else match P.next l with
    | some l' => .run (.at l' 0)
    | none => .faulted .mem

/-- `.+n` -/
def Prog.skip (P : Prog L) : Nat → Pc L → Pc L
  | n + 1, .run (.at l i) => P.skip n (P.succ l i)
  | _, pc => pc

def Prog.target (P : Prog L) (l : L) (i : Nat) : Isa.Target L → Pc L
  | .label l' => .run (.at l' 0)
  | .skip n => P.skip n (.run (.at l i))

/-- After an instruction with the result `w`. -/
def Prog.branch (P : Prog L) (l : L) (i : Nat) (j : Option (Cond × Isa.Target L)) (w : Word) : Pc L :=
  match j with
  | some (c, dst) => if c.holds w then P.target l i dst else P.succ l i
  | none => P.succ l i

def write (regs : Reg → Word) : Option Reg → Word → Reg → Word
  | some d, w => update regs d w
  | none, _ => regs

/-- The instruction at `l`, `i`. That of a C function is not one of the
program's own: the machine says what it does. -/
def Layout.exec {P : Prog L} (Y : Layout P) (id : Nat) (l : L) (i : Nat) (ins : Instr L) (v : Cpu L) : Cpu L :=
  match ins with
  | .move d s => { v with regs := update v.regs d (s.val id v.regs), pc := P.succ l i }
  | .alu op d a b j =>
    let r := op.eval v.carry (a.val id v.regs) (b.val id v.regs)
    { v with regs := write v.regs d r.1, carry := r.2, pc := P.branch l i j r.1 }
  | .clear d => { v with regs := update (update v.regs d 0) (d + 1) 0, pc := P.succ l i }
  | .lw d a off =>
    let w := a.val id v.regs + off
    if IsWord w then { v with regs := update v.regs d (v.wram (w.toNat / 4)), pc := P.succ l i }
    else { v with pc := .faulted .mem }
  | .sw a off s =>
    let w := a.val id v.regs + off
    if IsWord w then { v with wram := update v.wram (w.toNat / 4) (s.val id v.regs), pc := P.succ l i }
    else { v with pc := .faulted .mem }
  | .ldma w a n =>
    let w := w.val id v.regs
    if InMram (v.regs a) (2 * (n + 1)) ∧ InWram w (2 * (n + 1)) then
      { v with wram := blit v.wram (wramAt w) v.mram (mramAt (v.regs a)) (2 * (n + 1)), pc := P.succ l i }
    else { v with pc := .faulted .mem }
  | .sdma w a n =>
    let w := w.val id v.regs
    if InMram (v.regs a) (2 * (n + 1)) ∧ InWram w (2 * (n + 1)) then
      { v with mram := blit v.mram (mramAt (v.regs a)) v.wram (wramAt w) (2 * (n + 1)), pc := P.succ l i }
    else { v with pc := .faulted .mem }
  | .ldmai w a n =>
    if InMram (v.regs a) (2 * (n + 1)) ∧ InIram (v.regs w) (2 * (n + 1)) then
      { v with iram := blit v.iram (wramAt (v.regs w)) v.mram (mramAt (v.regs a)) (2 * (n + 1)), pc := P.succ l i }
    else { v with pc := .faulted .mem }
  | .boot a n j =>
    let k := (a.val id v.regs + BitVec.ofNat 32 n).toNat
    { v with bits := update v.bits k true, pc := P.branch l i j (Isa.bitWord (v.bits k)) }
  | .resume a n =>
    { v with bits := update v.bits (a.val id v.regs + BitVec.ofNat 32 n).toNat true, pc := P.succ l i }
  | .clrRun n j => { v with bits := update v.bits n false, pc := P.branch l i j (Isa.bitWord (v.bits n)) }
  | .call d l' => { v with regs := update v.regs d (Y.addr l + BitVec.ofNat 32 (i + 1)), pc := .run (.at l' 0) }
  | .jump e => { v with pc := .run (Y.entry e) }
  | .jumpReg r => { v with pc := .run (Y.place (v.regs r)) }
  | .jumpOff r l' => { v with pc := .run (Y.place (v.regs r + Y.addr l')) }
  | .stop e => { v with bits := update v.bits id false, pc := .stopped (Y.entry e) }
  | .fault c => { v with pc := .faulted c }
  | .nop => { v with pc := P.succ l i }
  | .compiled => v

/-! ## What an instruction may write -/

/-- The registers an instruction writes. -/
def Instr.writes : Instr L → List Reg
  | .move d _ | .alu _ (some d) _ _ _ | .lw d _ _ | .call d _ => [d]
  | .clear d => [d, d + 1]
  | _ => []

def Instr.isLdmai : Instr L → Bool
  | .ldmai .. => true
  | _ => false

variable {P : Prog L} {Y : Layout P} {id : Nat} {l : L} {i : Nat} {ins : Instr L} {v : Cpu L}

/-- Every other register is as it was. -/
theorem exec_regs {r : Reg} (h : r ∉ ins.writes) : (Y.exec id l i ins v).regs r = v.regs r := by
  cases ins with
  | move d s =>
    rw [Instr.writes, List.mem_singleton] at h
    exact update_of_ne h _ _
  | alu op d a b j =>
    cases d with
    | none => rfl
    | some d =>
      rw [Instr.writes, List.mem_singleton] at h
      exact update_of_ne h _ _
  | clear d =>
    simp only [Instr.writes, List.mem_cons, List.not_mem_nil, or_false, not_or] at h
    exact (update_of_ne h.2 _ _).trans (update_of_ne h.1 _ _)
  | lw d a off =>
    rw [Instr.writes, List.mem_singleton] at h
    simp only [Layout.exec]
    split
    · exact update_of_ne h _ _
    · rfl
  | call d l' =>
    rw [Instr.writes, List.mem_singleton] at h
    exact update_of_ne h _ _
  | sw | ldma | sdma | ldmai =>
    simp only [Layout.exec]
    split
    · rfl
    · rfl
  | _ => rfl

theorem place_addr (h : i < (P.code l).length) : Y.place (Y.addr l + BitVec.ofNat 32 i) = .at l i := by
  rw [Layout.place, Y.find_addr l i h]

theorem place_user {w : Word} (h : 1024 ≤ w.toNat) : Y.place w = .outside w := by
  rw [Layout.place, Y.find_user w h]

end Memclave.Asm
