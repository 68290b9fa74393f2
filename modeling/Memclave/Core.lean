/-
The assembly of `src/core`, label by label, and a DPU that runs it: every
thread takes its instructions one at a time, in any order between them, and
enters the core where it likes.

`Loader` has what the loader computes when nothing interferes. Here it is
the instructions themselves, so that an address that user code jumps to may
stand in the middle of them. The C functions are the compiler's: of a call
the calling convention and the checks in their source are known, of their
insides only what the toolchain promises for all C code, that it keeps out
of `r20` and `r21`.
-/
import Memclave.Asm
import Memclave.Chacha
import Memclave.Session

namespace Memclave.Core

open Words Function Loader Asm

inductive Fn where
  | imeDecryptSk
  | imeScanSk
  | polyInit
  | polyFeedBlock
  | polyFinalize
deriving DecidableEq, Repr

inductive Label where
  | bootstrap
  | coreOnBoot
  | coreContBoot
  | coreOnReplace
  | coreOnSignal
  | coreOnSigret
  | coreOnCounter
  | coreOnCounterLoop
  | coreOnCtrThread
  | imeCheckSystem
  | imeSecFault
  | imeSanityFault
  | imeCopySk
  | imeCopySkLoop
  | imePushSk
  | imePopSk
  | imeCheckThreads
  | loop1
  | loop2
  | loop3
  | loop4
  | imeWipeUser
  | imeWipeLoop
  | imeWipeDone
  | imeLoadWram
  | clwLoop
  | clwEnd
  | imeLoadIram
  /-- `cls_table_15` is the first -/
  | clsTable (k : Fin 15)
  | imeReplaceSk
  | resumeLoop
  | resumeEnd
  | chacha (l : Chacha.Label)
  | fn (f : Fn)
deriving DecidableEq, Repr

/-! ## `chacha.S`, as `Chacha` has it -/

def ofLabel : Chacha.Label → Label
  | .bootstrap => .bootstrap
  | .coreOnBoot => .coreOnBoot
  | .checkSystem => .imeCheckSystem
  | .secFault => .imeSecFault
  | .sanityFault => .imeSanityFault
  | l => .chacha l

def ofTarget : Isa.Target Chacha.Label → Isa.Target Label
  | .label l => .label (ofLabel l)
  | .skip n => .skip n

def ofCond : Isa.Cond → Asm.Cond
  | .t => .t
  | .z => .z
  | .nz => .nz

def ofInstr : Isa.Instr Chacha.Label → Asm.Instr Label
  | .move d s => .move d s
  | .add d a b => .alu .add (some d) (.reg a) b none
  | .xor d a b => .alu .xor (some d) (.reg a) b none
  | .rol d a n => .alu .rol (some d) (.reg a) (.imm (BitVec.ofNat 32 n)) none
  | .sub d a b c l => .alu .sub (some d) (.reg a) b (some (ofCond c, .label (ofLabel l)))
  | .test a b c dst => .alu .xor none a b (some (ofCond c, ofTarget dst))
  | .addTest a b c dst => .alu .add none a b (some (ofCond c, ofTarget dst))
  | .lw d a off => .lw d a (BitVec.ofNat 32 off)
  | .sw a off s => .sw a (BitVec.ofNat 32 off) s
  | .ldma w a n => .ldma w a n
  | .clrRun bit c dst => .clrRun bit (some (ofCond c, ofTarget dst))
  | .boot bit c dst => .boot .zero bit (some (ofCond c, ofTarget dst))
  | .call d l => .call d (ofLabel l)
  | .jump l => .jump (.label (ofLabel l))
  | .jumpReg r => .jumpReg r
  | .ret => .jumpReg 23
  | .stop => .stop (.label .bootstrap)
  | .fault => .fault .sec

/-! ## The other files -/

open Asm.Instr Isa.Src Asm.Op Asm.Cond Isa.Target

/-- `__ime_user_start`, as the index of an instruction. -/
def userStartAt : Word := 1024

/-- What user code finds in `r20`, past the end of IRAM, and in `r21`, past
that of MRAM. -/
def pastIram : Word := 4096 * 8
def pastMram : Word := 64 * 1024 * 1024

def startRegs : Reg → Word := fun d => if d = 20 then pastIram else if d = 21 then pastMram else 0

/-- `op zero, a, b, c, l` -/
def test (op : Op) (a b : Isa.Src) (c : Cond) (l : Label) : Instr Label := alu op none a b (some (c, label l))

/-- A row of the table of `core_iram.s`. -/
def clsEntry (last : Bool) : List (Instr Label) :=
  if last then [ldmai 20 21 255, nop, nop, nop, jumpReg 23]
  else [ldmai 20 21 255, alu add (some 20) (reg 20) (imm 2048) none, alu add (some 21) (reg 21) (imm 2048) none, nop]

def code : Label → List (Instr Label)
  -- core.s
  | .bootstrap => [
    jump (.label .coreOnBoot),
    jump (.label .coreOnReplace),
    jump (.label .coreOnSignal),
    jump (.label .coreOnCounter),
    jump (.label (.chacha .chachaBlk)),
    jump (.label (.fn .polyInit)),
    jump (.label (.fn .polyFeedBlock)),
    jump (.label (.fn .polyFinalize))]
  | .coreOnBoot => [
    test xor id (imm 23) z .coreOnCtrThread,
    test xor id (imm 22) z (.chacha .chachaThread),
    test xor lneg (reg 23) z .coreOnSigret,
    test xor id (imm 0) z .coreContBoot,
    move 20 (imm pastIram),
    move 21 (imm pastMram),
    stop (.addr userStartAt)]
  | .coreContBoot => [
    move 0 (imm 0x3f00000),
    move 1 (imm 0),
    move 2 (imm 0),
    move 3 (imm 0),
    jump (.label .imeReplaceSk)]
  | .coreOnReplace => [jump (.label .imeReplaceSk)]
  | .coreOnSignal => [
    alu add (some 22) (reg 22) (imm 8) none,
    sw (reg 22) (-8) (reg 23),
    move 23 lneg,
    fault .signal]
  | .coreOnSigret => [
    lw 23 (reg 22) (-8),
    alu add (some 22) (reg 22) (imm (-8)) none,
    jumpReg 23]
  | .coreOnCounter => [
    test xor id (imm 0) nz .imeSanityFault,
    move 1 (imm threadio),
    move 2 lneg,
    sw (reg 1) 60 (reg 2),
    boot zero 23 (some (nz, label .imeSecFault)),
    test xor id (imm 0) nz .imeSecFault]
  | .coreOnCounterLoop => [
    lw 2 (reg 1) 60,
    test xor (reg 2) (imm 0) nz .coreOnCounterLoop,
    lw 2 (reg 1) 0x0,
    sw (reg 0) 0x0 (reg 2),
    lw 2 (reg 1) 0x4,
    sw (reg 0) 0x4 (reg 2),
    lw 2 (reg 1) 0x8,
    sw (reg 0) 0x8 (reg 2),
    lw 2 (reg 1) 0xC,
    sw (reg 0) 0xC (reg 2),
    jumpReg 23]
  | .coreOnCtrThread => [
    alu add (some 0) (reg 0) (imm 0x10000) none,
    alu addc (some 1) (reg 1) (imm 0) none,
    alu addc (some 2) (reg 2) (imm 0) none,
    alu addc (some 3) (reg 3) (imm 0) none,
    test addc zero (imm 0) nz .imeSecFault,
    move 4 (imm threadio),
    sw (reg 4) 0x0 (reg 0),
    sw (reg 4) 0x4 (reg 1),
    sw (reg 4) 0x8 (reg 2),
    sw (reg 4) 0xC (reg 3),
    sw (reg 4) 60 (imm 0),
    stop (.label .bootstrap)]
  -- core_util.s
  | .imeCheckSystem => (Chacha.code .checkSystem).map ofInstr
  | .imeSecFault => [fault .sec]
  | .imeSanityFault => [fault .sanity]
  | .imeCopySk => [
    lw 2 zero 0x0,
    lw 3 zero 0x4,
    alu add (some 0) (reg 0) (imm 0x20) none,
    ldma zero 0 0,
    alu add (some 0) (reg 0) (imm (-0x20)) none,
    lw 4 zero 0x4]
  | .imeCopySkLoop => [
    ldma zero 0 0,
    sdma zero 1 0,
    alu add (some 0) (reg 0) (imm 0x8) none,
    alu add (some 1) (reg 1) (imm 0x8) none,
    alu add (some 4) (reg 4) (imm (-0x8)) (some (nz, label .imeCopySkLoop)),
    sw zero 0x0 (reg 2),
    sw zero 0x4 (reg 3),
    jumpReg 23]
  | .imePushSk => [
    move 1 (imm scratchA),
    jump (.label .imeCopySk)]
  | .imePopSk => [
    move 1 (reg 0),
    move 0 (imm scratchA),
    jump (.label .imeCopySk)]
  -- core_thrd.s
  | .imeCheckThreads => [move 0 (imm 15)]
  | .loop1 => [
    boot (reg 0) 0 none,
    alu sub (some 0) (reg 0) (imm 1) (some (nz, label .loop1)),
    move 0 (imm 10000)]
  | .loop2 => [
    alu sub (some 0) (reg 0) (imm 1) (some (nz, label .loop2)),
    move 0 (imm 15)]
  | .loop3 => [
    boot (reg 0) 0 (some (nz, label .imeSecFault)),
    alu sub (some 0) (reg 0) (imm 1) (some (nz, label .loop3)),
    move 0 (imm 10000)]
  | .loop4 => [
    alu sub (some 0) (reg 0) (imm 1) (some (nz, label .loop4)),
    jumpReg 23]
  -- core_mem.s
  | .imeWipeUser => [alu add (some 0) (reg 17) (imm (-4)) (some (mi, label .imeWipeDone))]
  | .imeWipeLoop => [
    sw (reg 0) 0x0 (imm 0),
    alu add (some 0) (reg 0) (imm (-4)) (some (pl, label .imeWipeLoop))]
  | .imeWipeDone => [jumpReg 23]
  -- core_wram.s
  | .imeLoadWram => [
    move 0 (imm 0),
    ldma (reg 0) 21 7,
    lw 1 (reg 0) 0x0,
    alu xor (some 1) (reg 1) (imm 0xA5A5A5A5) none,
    test xor (reg 1) (imm 0) nz .imeSanityFault,
    lw 1 (reg 0) 40,
    alu lsl (some 1) (reg 1) (imm 11) none,
    alu add (some 1) (reg 1) (imm 64) none,
    alu add (some 1) (reg 1) (reg 21) none,
    lw 2 (reg 0) 44,
    move 0 (imm 0),
    test xor (reg 2) (imm 0) z .clwEnd]
  | .clwLoop => [
    ldma (reg 0) 1 255,
    alu add (some 0) (reg 0) (imm 2048) none,
    alu add (some 1) (reg 1) (imm 2048) none,
    alu sub (some 2) (reg 2) (imm 1) (some (nz, label .clwLoop))]
  | .clwEnd => [jumpReg 23]
  -- core_iram.s
  | .imeLoadIram => [
    lw 0 zero 0,
    lw 1 zero 4,
    alu add (some 21) (reg 21) (imm 40) none,
    ldma zero 21 0,
    lw 2 zero 0,
    alu add (some 21) (reg 21) (imm 24) none,
    sw zero 0 (reg 0),
    sw zero 4 (reg 1),
    alu add (some 0) (reg 21) (imm (-64)) none,
    test xor (reg 2) (imm 0) z .imeSecFault,
    alu and (some 1) (reg 2) (imm 0xFFFFFFF0) none,
    test xor (reg 1) (imm 0) nz .imeSecFault,
    alu sub (some 2) (imm 15) (reg 2) none,
    alu lsl (some 2) (reg 2) (imm 2) none,
    jumpOff 2 (.clsTable 0)]
  | .clsTable k => clsEntry (k = 14)
  -- core_load.S
  | .imeReplaceSk => [
    move 20 (imm userStartAt),
    alu lsl (some 20) (reg 20) (imm 3) none,
    move 17 (reg 3),
    move 18 (reg 1),
    move 19 (reg 2),
    move 21 (reg 0),
    call 23 .imeCheckThreads,
    call 23 .imeWipeUser,
    move 0 (reg 21),
    call 23 .imePushSk,
    move 0 (imm canary),
    move 22 (imm 0),
    sw (reg 22) canaryAt (reg 0),
    move 0 (reg 21),
    move 1 (reg 18),
    move 2 (reg 19),
    call 23 (.fn .imeDecryptSk),
    move 0 (reg 21),
    move 22 (imm 0),
    call 23 (.fn .imeScanSk),
    move 22 (imm 0),
    lw 0 (reg 22) canaryAt,
    move 1 (imm canary),
    alu xor (some 0) (reg 0) (reg 1) (some (nz, label .imeSecFault)),
    call 23 .imeLoadWram,
    call 23 .imeLoadIram,
    call 23 .imePopSk,
    clear 0, clear 2, clear 4, clear 6, clear 8, clear 10, clear 12, clear 14, clear 16, clear 18, clear 22,
    move 0 (imm 16)]
  | .resumeLoop => [
    alu sub (some 0) (reg 0) (imm 1) (some (z, label .resumeEnd)),
    resume (reg 0) 0,
    jump (.label .resumeLoop)]
  | .resumeEnd => [
    move 19 (imm 0),
    move 20 (imm pastIram),
    move 21 (imm pastMram),
    jump (.addr userStartAt)]
  -- chacha.S
  | .chacha .bootstrap | .chacha .coreOnBoot | .chacha .checkSystem | .chacha .secFault | .chacha .sanityFault
  | .chacha .elsewhere => []
  | .chacha l => (Chacha.code l).map ofInstr
  | .fn _ => [compiled]

/-- The core, without the statistics (`IME_REPORT_STATS`). -/
def core : Asm.Prog Label where
  code := code
  next
    | .coreOnCounter => some .coreOnCounterLoop
    | .imeCopySk => some .imeCopySkLoop
    | .imeCheckThreads => some .loop1
    | .loop1 => some .loop2
    | .loop2 => some .loop3
    | .loop3 => some .loop4
    | .imeWipeUser => some .imeWipeLoop
    | .imeWipeLoop => some .imeWipeDone
    | .imeLoadWram => some .clwLoop
    | .clwLoop => some .clwEnd
    | .clsTable k => if h : k.val + 1 < 15 then some (.clsTable ⟨k + 1, h⟩) else none
    | .imeReplaceSk => some .resumeLoop
    | .resumeLoop => some .resumeEnd
    | .chacha .chachaBlk => some (.chacha .sysKey)
    | .chacha .sysKey => some (.chacha .waitLoop)
    | .chacha .waitLoop => some (.chacha .chachaThread)
    | .chacha .chachaThread => some (.chacha .blockEntry)
    | .chacha .blockEntry => some (.chacha .chachaLoop)
    | .chacha .chachaLoop => some (.chacha .loopLt8)
    | .chacha .loopLt8 => some (.chacha .threadEnd)
    | .chacha .threadEnd => some (.chacha .userKey)
    | .chacha .userKey => some (.chacha .userExit)
    | _ => none

/-! ### The table -/

section

variable {k : Fin 15}

theorem code_cls (hk : k ≠ 14) : code (.clsTable k) = clsEntry false := by
  show clsEntry (decide (k = 14)) = _
  rw [decide_eq_false hk]

theorem length_cls (hk : k ≠ 14) : (core.code (.clsTable k)).length = 4 := congrArg List.length (code_cls hk)

theorem succ_cls {n : Nat} (hk : k ≠ 14) (hn : n < 3) : core.succ (.clsTable k) n = .run (.at (.clsTable k) (n + 1)) := by
  rw [Prog.succ, length_cls hk, if_pos (by omega)]

theorem succ_cls_last (hk : k ≠ 14) (h : k.val + 1 < 15) :
    core.succ (.clsTable k) 3 = .run (.at (.clsTable ⟨k + 1, h⟩) 0) := by
  have hnext : core.next (.clsTable k) = some (.clsTable ⟨k + 1, h⟩) := dif_pos h
  rw [Prog.succ, length_cls hk, if_neg (by omega), hnext]

/-- The rows follow each other. -/
theorem addr_cls {Y : Layout core} {j : Nat} (hj : j < 15) :
    Y.addr (.clsTable ⟨j, hj⟩) = Y.addr (.clsTable 0) + BitVec.ofNat 32 (4 * j) := by
  induction j with
  | zero => exact (BitVec.add_zero _).symm
  | succ j ih =>
    have hne : (⟨j, Nat.lt_of_succ_lt hj⟩ : Fin 15) ≠ 14 := Fin.ne_of_val_ne (by show j ≠ 14; omega)
    have hnext : core.next (.clsTable ⟨j, Nat.lt_of_succ_lt hj⟩) = some (.clsTable ⟨j + 1, hj⟩) := dif_pos hj
    rw [Y.addr_next _ _ hnext, length_cls hne, ih, BitVec.add_assoc, ← BitVec.ofNat_add, Nat.mul_succ]

/-- `jump r2, cls_table_15` -/
theorem place_cls {Y : Layout core} {j : Nat} (hj : j < 15) :
    Y.place (BitVec.ofNat 32 (4 * j) + Y.addr (.clsTable 0)) = .at (.clsTable ⟨j, hj⟩) 0 := by
  have hpos : 0 < (core.code (.clsTable ⟨j, hj⟩)).length := by
    show 0 < (clsEntry (decide ((⟨j, hj⟩ : Fin 15) = 14))).length
    cases decide ((⟨j, hj⟩ : Fin 15) = 14) <;> decide
  rw [BitVec.add_comm, ← addr_cls hj]
  exact (congrArg Y.place (BitVec.add_zero _).symm).trans (place_addr hpos)

end

/-! ## The machine -/

/-- What a thread has behind it since it last began with `ime_replace_sk`. -/
inductive Passed where
  /-- it found the run bit of a thread clear, at `loop_3` -/
  | clear (t : Word)
  /-- `ime_wipe_user` returned, with its pointer -/
  | wiped (r17 : Word)
  | pushed (sk : Word)
  /-- `ime_decrypt_sk` returned, which it does for a tag that is right -/
  | decrypted (sk : Word)
  /-- `ime_scan_sk` returned -/
  | scanned (sk : Word)
deriving DecidableEq, Repr

structure Thread where
  pc : Pc Label
  regs : Reg → Word
  carry : Bool
  /-- the history, the latest first -/
  passed : List Passed

structure Mach where
  mram : Nat → Word
  wram : Nat → Word
  iram : Nat → Word
  bits : Nat → Bool
  thread : Nat → Thread

def Mach.view (m : Mach) (t : Nat) : Cpu Label :=
  ⟨(m.thread t).pc, (m.thread t).regs, (m.thread t).carry, m.mram, m.wram, m.iram, m.bits⟩

def Mach.put (m : Mach) (t : Nat) (v : Cpu Label) (passed : List Passed) : Mach where
  mram := v.mram
  wram := v.wram
  iram := v.iram
  bits := v.bits
  thread := update m.thread t ⟨v.pc, v.regs, v.carry, passed⟩

/-- What the instruction at `l`, `i` adds to the history. -/
def record (l : Label) (i : Nat) (v : Cpu Label) (p : List Passed) : List Passed :=
  match l, i with
  | .imeReplaceSk, 0 => []
  | .loop3, 0 => if v.bits (v.regs 0).toNat then p else .clear (v.regs 0) :: p
  | .imeWipeDone, 0 => .wiped (v.regs 17) :: p
  | .imePushSk, 0 => .pushed (v.regs 0) :: p
  | _, _ => p

def recordFn (f : Fn) (r0 : Word) (p : List Passed) : List Passed :=
  match f with
  | .imeDecryptSk => .decrypted r0 :: p
  | .imeScanSk => .scanned r0 :: p
  | _ => p

/-- `IME_CHECK_SYSTEM`, on the way to each return. -/
def Fn.checksSystem : Fn → Bool
  | .imeDecryptSk | .imeScanSk => true
  | _ => false

/-- The end of a C function, called from its beginning: it returns with the
registers that it has to keep, or it has faulted. -/
inductive Ends {P : Asm.Prog Label} (Y : Layout P) (f : Fn) (t : Nat) (th th' : Thread) : Prop
  | returned : th'.pc = .run (Y.place (th.regs 23)) → (∀ r, 14 ≤ r → th'.regs r = th.regs r) →
      th'.passed = recordFn f (th.regs 0) th.passed →
      (f.checksSystem = true → InMram (th.regs 21) 2 ∧ t = 0) → Ends Y f t th th'
  | faulted (c : Code) : c ≠ .signal → th'.pc = .faulted c → Ends Y f t th th'

/-- An instruction of the user's, or one inside a C function. None writes `r20`,
`r21` or IRAM: the scan is there to keep them out, and the compiler makes none. -/
inductive Outside (t : Nat) (m m' : Mach) : Prop
  | step (th : Thread) (mram wram : Nat → Word) (bits : Nat → Bool) : th.regs 20 = (m.thread t).regs 20 →
      th.regs 21 = (m.thread t).regs 21 → th.passed = (m.thread t).passed →
      m' = { m with mram := mram, wram := wram, bits := bits, thread := update m.thread t th } → Outside t m m'

/-- One step of a thread, or of the host. -/
inductive Step (Y : Layout core) (m m' : Mach) : Prop
  | asm (t : Nat) (l : Label) (i : Nat) (ins : Instr Label) : t < 24 → (m.thread t).pc = .run (.at l i) →
      (code l)[i]? = some ins → ins ≠ .compiled →
      m' = m.put t (Y.exec t l i ins (m.view t)) (record l i (m.view t) (m.thread t).passed) → Step Y m m'
  | fn (t : Nat) (f : Fn) (th : Thread) (mram wram : Nat → Word) (bits : Nat → Bool) : t < 24 →
      (m.thread t).pc = .run (.at (.fn f) 0) → Ends Y f t (m.thread t) th →
      m' = { m with mram := mram, wram := wram, bits := bits, thread := update m.thread t th } → Step Y m m'
  /-- With an instruction in the user's part of IRAM that the scan is there to
  keep out, it may do anything. -/
  | outside (t : Nat) (a : Word) : t < 24 → (m.thread t).pc = .run (.outside a) →
      (Session.Contained m.iram → Outside t m m') → Step Y m m'
  /-- A `resume` goes on where it stopped, a `boot` begins at 0. -/
  | wake (t : Nat) (p q : Place Label) : t < 24 → (m.thread t).pc = .stopped p → m.bits t = true →
      q = p ∨ q = .at .bootstrap 0 →
      m' = { m with thread := update m.thread t { m.thread t with pc := .run q } } → Step Y m m'
  /-- The fault of `core_on_signal` is resolved. -/
  | resolve (t : Nat) : t < 24 → (m.thread t).pc = .faulted .signal →
      m' = { m with thread := update m.thread t { m.thread t with pc := .run (.at .bootstrap 0) } } → Step Y m m'
  | host (mram : Nat → Word) : m' = { m with mram := mram } → Step Y m m'

/-- What comes into the user's part of IRAM is none of those instructions. -/
def Clean (m m' : Mach) : Prop := ∀ i, 1024 ≤ i → i < 4096 →
  Session.instrAt m'.iram i = Session.instrAt m.iram i ∨ ¬ BannedInstr (instr (Session.instrAt m'.iram i))

end Memclave.Core
