/-
The two histogram kernels: `HST-S/main.c` counts in a histogram of each
tasklet and adds these up, `HST-L/main.c` counts in one under a mutex.

MRAM is a function of the index of a 32-bit word; a transfer ignores the low
three bits of its address and is one action. The arrays lie in MRAM, so
addresses and sizes are numbers. `message j` is the histogram in WRAM that
`message[j]` points to. `added` is the history of what each tasklet has
counted in HST-L: no function reads it.
-/
import Memclave.Lib.Words
import Memclave.Lib.Copy
import Memclave.Lib.Tasklets
import Mathlib.Data.Nat.Count

namespace Memclave.Hst

open Words Tasklets

def NR_TASKLETS : Nat := 16

def BLOCK_SIZE : Nat := 1024

def DEPTH : Nat := 12

def A_OFFSET : Nat := 0x2100

structure DpuArguments where
  size : Word
  transfer_size : Word
  bins : Word

structure St where
  mram : Nat → Word
  message : Nat → Nat → Word
  holder : Option Nat
  added : Nat → Nat → Nat

/-- The first word of a transfer. -/
def line (addr : Nat) : Nat := addr / 8 * 2

def mramRead (addr : Nat) : Prog St (Nat → Word) := .read fun s i => s.mram (line addr + i)

/-- `mram_write(message[0] + off, addr, n * sizeof(uint32_t))` -/
def mramWrite (off addr n : Nat) : Prog St Unit :=
  .write fun s => { s with mram := Copy.blit s.mram (line addr) (s.message 0) off n }

/-- `message[j][i] = v` -/
def St.put (s : St) (j i : Nat) (v : Word) : St :=
  { s with message := Function.update s.message j (Function.update (s.message j) i v) }

variable (args : DpuArguments) (t : Nat)

/-- `(d * bins) >> DEPTH` -/
def index (d : Word) : Nat := ((d * args.bins) >>> DEPTH).toNat

def l_size_bytes (byte_index : Nat) : Nat :=
  if args.size.toNat ≤ byte_index + BLOCK_SIZE then args.size.toNat - byte_index else BLOCK_SIZE

/-- The blocks of a tasklet, each read into `cache_A`. -/
def blocks (histogram : (Nat → Word) → Nat → Prog St Unit) : Prog St Unit :=
  .loop (t * BLOCK_SIZE) args.size.toNat (BLOCK_SIZE * NR_TASKLETS) fun byte_index => do
    let cache_A ← mramRead (A_OFFSET + byte_index)
    histogram cache_A (l_size_bytes args byte_index / 4)

def mram_base_addr_histo : Nat := A_OFFSET + args.transfer_size.toNat

/-! ## HST-S -/

def histogramS (input : Nat → Word) (l_size : Nat) : Prog St Unit :=
  .loop 0 l_size 1 fun j => do
    let v ← Prog.read fun s => s.message t (index args (input j))
    Prog.write fun s => s.put t (index args (input j)) (v + 1)

/-- `histo_dpu[i]`, from the histograms of all tasklets. -/
def mergeS (i : Nat) : Prog St Unit := do
  let b ← Prog.forStep 0 NR_TASKLETS 1 (0 : Word) fun j b => do
    let v ← Prog.read fun s => s.message j i
    pure (b + v)
  Prog.write fun s => s.put 0 i b

def writeS : Prog St Unit :=
  if args.bins.toNat * 4 ≤ 2048 then mramWrite 0 (mram_base_addr_histo args) args.bins.toNat
  else .loop 0 (args.bins.toNat * 4 / 2048) 1 fun offset =>
    mramWrite (offset * 512) (mram_base_addr_histo args + offset * 2048) 512

def mainS : Prog St Unit := do
  Prog.loop 0 args.bins.toNat 1 fun i => Prog.write fun s => s.put t i 0
  blocks args t (histogramS args t)
  Prog.barrier
  Prog.loop t args.bins.toNat NR_TASKLETS mergeS
  Prog.barrier
  Prog.when (t = 0) (writeS args)

/-! ## HST-L -/

def mutexLock : Prog St Unit := .awaitWrite (fun s => s.holder == none) fun s => { s with holder := some t }

def mutexUnlock : Prog St Unit := .write fun s => { s with holder := none }

/-- `histo[d] = v`, and the history of it -/
def store (d : Nat) (v : Word) : Prog St Unit :=
  .write fun s => { s.put 0 d v with added := Function.update s.added t (Function.update (s.added t) d (s.added t d + 1)) }

def histogramL (input : Nat → Word) (l_elems : Nat) : Prog St Unit :=
  .loop 0 l_elems 1 fun j => do
    mutexLock t
    let v ← Prog.read fun s => s.message 0 (index args (input j))
    store t (index args (input j)) (v + 1)
    mutexUnlock

/-- `NR_HISTO` is 1. -/
def mergeL (b : Nat) : Prog St Unit := do
  let v ← Prog.read fun s => s.message 0 b
  Prog.write fun s => s.put 0 b (0 + v)

/-- Every chunk but the last one is of 2048 bytes. -/
def writeL : Prog St Unit :=
  .loop 0 (args.bins.toNat * 4) 2048 fun off =>
    let chunk := if 2048 < args.bins.toNat * 4 - off then 2048 else args.bins.toNat * 4 - off
    mramWrite (off / 4) (mram_base_addr_histo args + off) (chunk / 4)

def mainL : Prog St Unit := do
  Prog.barrier
  Prog.loop t args.bins.toNat NR_TASKLETS fun i => Prog.write fun s => s.put 0 i 0
  Prog.barrier
  blocks args t (histogramL args t)
  Prog.barrier
  Prog.loop t args.bins.toNat NR_TASKLETS mergeL
  Prog.barrier
  Prog.when (t = 0) (writeL args)

/-! ## What they are for -/

/-- Element `k` of the input. -/
def elem (m : Nat → Word) (k : Nat) : Word := m (A_OFFSET / 4 + k)

/-- Entry `b` of the histogram region. -/
def entry (m : Nat → Word) (b : Nat) : Word := m (mram_base_addr_histo args / 4 + b)

/-- The number of elements of bin `b`. -/
def binCount (m : Nat → Word) (b : Nat) : Nat :=
  Nat.count (fun k => (elem m k).toNat * args.bins.toNat / 2 ^ DEPTH = b) (args.size.toNat / 4)

/-- The inputs that both kernels count without an overflow. -/
structure Elements (m : Nat → Word) : Prop where
  size : 8 ∣ args.size.toNat
  transfer : 8 ∣ args.transfer_size.toNat
  even : 2 ∣ args.bins.toNat
  elems : ∀ k < args.size.toNat / 4, (elem m k).toNat < 2 ^ DEPTH
  bins : args.bins.toNat * 4095 < 2 ^ 32

/-- The stack that the bootstrap gives to a thread. -/
def STACK_SIZE : Nat := 1024

def WRAM_SIZE : Nat := 65536

/-- What each tasklet of HST-S allocates: `cache_A` and its own histogram. -/
def heapS : Nat := NR_TASKLETS * (BLOCK_SIZE + args.bins.toNat * 4)

/-- What the tasklets of HST-L allocate: a `cache_A` each, and one histogram. -/
def heapL : Nat := NR_TASKLETS * BLOCK_SIZE + args.bins.toNat * 4

/-- The inputs for which the allocations of both kernels fit in WRAM beside the stacks. -/
structure Input (m : Nat → Word) : Prop extends Elements args m where
  fitsS : heapS args + NR_TASKLETS * STACK_SIZE ≤ WRAM_SIZE
  fitsL : heapL args + NR_TASKLETS * STACK_SIZE ≤ WRAM_SIZE

/-- The bins that HST-S writes: whole pieces of 2048 bytes, if there is more
than one. -/
def writtenS : Nat := if args.bins.toNat * 4 ≤ 2048 then args.bins.toNat else args.bins.toNat * 4 / 2048 * 512

/-- Where the kernels start: anything in WRAM, the mutex free. -/
def Init (m : Nat → Word) (s : St) : Prop := s.mram = m ∧ s.holder = none ∧ s.added = fun _ _ => 0

end Memclave.Hst
