/-
`SCAN-SSA/main.c`, the first kernel: sixteen tasklets scan blocks of 256
elements, pass the counts of their blocks on through the mailboxes of
`mc_sync.h`, and add the running total, which the last tasklet updates.

MRAM is a function of the index of a 32-bit word; a transfer ignores the low
three bits of its address and is one action. The arrays lie in MRAM, so
addresses and sizes are numbers. `reads` and `updates` are the history of the
running total: no function reads them.
-/
import Memclave.Lib.Words
import Memclave.Lib.Copy
import Memclave.Lib.Mailboxes
import Memclave.Lib.Tasklets
import Mathlib.Algebra.BigOperators.Intervals
import Mathlib.Data.BitVec

namespace Memclave.ScanSsa

open Words Tasklets Mailboxes

def NR_TASKLETS : Nat := 16

def BLOCK_SIZE : Nat := 1024

def REGS : Nat := 256

def A_OFFSET : Nat := 0x2100

structure DpuArguments where
  size : Word
  t_count : Word

structure St where
  mram : Nat → Word
  messagePartialCount : Word
  gEpoch : Word
  /-- `mc_msg`: `val`, tagged with `epoch` -/
  mcMsg : Mail Word Word
  /-- what tasklet 0 logs for the host -/
  log : Dword
  /-- how often each tasklet has read `message_partial_count` to add it -/
  reads : Nat → Nat
  /-- how often it has been updated -/
  updates : Nat

/-- The first word of a transfer. -/
def line (addr : Nat) : Nat := addr / 8 * 2

def mramRead (addr : Nat) : Prog St (Nat → Word) := .read fun s i => s.mram (line addr + i)

/-- `mram_write(cache, addr, BLOCK_SIZE)` -/
def mramWrite (cache : Nat → Word) (addr : Nat) : Prog St Unit :=
  .write fun s => { s with mram := Copy.blit s.mram (line addr) cache 0 REGS }

/-- The `output` of `scan_regs`, which returns its last element. -/
def scanRegs (input : Nat → Word) : Nat → Word
  | 0 => input 0
  | j + 1 => scanRegs input j + input (j + 1)

def addRegs (io : Nat → Word) (p_count : Word) : Nat → Word := fun j => io j + p_count

/-- `handshake_init` -/
def handshakeInit (s : St) : St :=
  { s with gEpoch := 1, mcMsg := ⟨fun u => if u < NR_TASKLETS then 0 else s.mcMsg.val u, fun u => if u < NR_TASKLETS then 0 else s.mcMsg.tag u⟩ }

/-- `p_count` and `*next_partial_accum`, which starts as 0. -/
def handshakeSync (l_count : Word) (tasklet_id : Nat) : Prog St (Word × Word) := do
  let epoch ← Prog.read fun s => s.gEpoch
  let p_count ← (if tasklet_id ≠ 0 then do
      Prog.await fun s => s.mcMsg.tag tasklet_id == epoch
      Prog.read fun s => s.mcMsg.val tasklet_id
    else pure 0)
  if tasklet_id < NR_TASKLETS - 1 then do
    Prog.write fun s => { s with mcMsg := s.mcMsg.put (tasklet_id + 1) fun _ => p_count + l_count }
    Prog.write fun s => { s with mcMsg := s.mcMsg.mark (tasklet_id + 1) epoch }
    pure (p_count, 0)
  else pure (p_count, p_count + l_count)

/-- The running total, and the history of it -/
def partialCount (tasklet_id : Nat) : Prog St Word :=
  .readWrite (fun s => s.messagePartialCount) fun s =>
    { s with reads := Function.update s.reads tasklet_id (s.reads tasklet_id + 1) }

/-- `message_partial_count = message_partial_count + next_block_accum`, and the history of it -/
def updateCount (next_block_accum : Word) : Prog St Unit :=
  .write fun s => { s with messagePartialCount := s.messagePartialCount + next_block_accum, updates := s.updates + 1 }

variable (args : DpuArguments) (tasklet_id : Nat)

def B_base : Nat := A_OFFSET + args.size.toNat

/-- One pass of the loop. -/
def pass (byte_idx : Nat) : Prog St Unit := do
  Prog.when (tasklet_id = 0) (Prog.write fun s => { s with gEpoch := s.gEpoch + 1 })
  Prog.barrier
  let cache_A ← mramRead (A_OFFSET + byte_idx)
  let (p_count, next_block_accum) ← handshakeSync (scanRegs cache_A (REGS - 1)) tasklet_id
  Prog.barrier
  let count ← partialCount tasklet_id
  mramWrite (addRegs (scanRegs cache_A) (count + p_count)) (B_base args + byte_idx)
  Prog.when (tasklet_id = NR_TASKLETS - 1) (updateCount next_block_accum)
  Prog.barrier

def mainKernel1 : Prog St Unit := do
  Prog.when (tasklet_id = NR_TASKLETS - 1) (Prog.write fun s => { s with messagePartialCount := args.t_count })
  Prog.barrier
  Prog.loop (tasklet_id * BLOCK_SIZE) args.size.toNat (BLOCK_SIZE * NR_TASKLETS) (pass args tasklet_id)
  Prog.when (tasklet_id = 0) (Prog.write fun s => { s with log := s.messagePartialCount.setWidth 64 })

/-! ## What it is for -/

/-- Element `i` of the input. -/
def elem (m : Nat → Word) (i : Nat) : Word := m (A_OFFSET / 4 + i)

/-- Element `i` of the output. -/
def out (m : Nat → Word) (i : Nat) : Word := m (B_base args / 4 + i)

/-- `t_count` and the first `n` elements. -/
def total (m : Nat → Word) (n : Nat) : Word := args.t_count + ∑ k ∈ Finset.range n, elem m k

/-- Where the tasklets start: after `handshake_init`, with no history yet. -/
def Init (m : Nat → Word) (s : St) : Prop :=
  s.mram = m ∧ (∃ s0, s = handshakeInit s0) ∧ (∀ u, s.reads u = 0) ∧ s.updates = 0

/-- The running total is updated only after every other tasklet has read it
in this pass. -/
def timely (s s' : St) : Bool :=
  s'.updates == s.updates || (List.range (NR_TASKLETS - 1)).all fun u => s.reads u == s.updates + 1

end Memclave.ScanSsa
