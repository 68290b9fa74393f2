/-
`UNI/main.c`: sixteen tasklets reduce the runs in blocks of 128 elements,
tell each other how many elements they keep and drop and what the last one
is, and write what is left after what the rounds before have written.

MRAM is a function of the index of a 64-bit word; a transfer is one action.
The arrays lie in MRAM, so addresses and sizes are numbers; counts are 32-bit
words. The output of `unique` is the list of the elements it has put into the
cache. `reads` and `updates` are the history of the running count: no
function reads them.
-/
import Memclave.Lib.Words
import Memclave.Lib.Copy
import Memclave.Lib.Mailboxes
import Memclave.Lib.Runs
import Memclave.Lib.Tasklets

namespace Memclave.Uni

open Words Tasklets Mailboxes

def NR_TASKLETS : Nat := 16

def BLOCK_SIZE : Nat := 1024

def REGS : Nat := 128

def A_OFFSET : Nat := 0x2100

structure DpuArguments where
  size : Word

structure Uint3 where
  x : Word
  y : Word
  z : Word

/-- `msg_count`, `msg_last` and `msg_off` of one tasklet -/
structure Message where
  count : Word
  last : Dword
  off : Word

structure St where
  mram : Nat → Dword
  messagePartialCount : Word
  messageLastFromLast : Dword
  gEpoch : Word
  /-- the messages, tagged with `msg_epoch` -/
  msg : Mail Word Message
  /-- what tasklet 0 logs for the host -/
  log : Dword
  /-- how often each tasklet has read `message_partial_count` for a write, or
  has got past it with nothing to write -/
  reads : Nat → Nat
  /-- how often it has been updated -/
  updates : Nat

def mramRead (addr : Nat) : Prog St (Nat → Dword) := .read fun s i => s.mram (addr / 8 + i)

/-- `mram_write` of a part of a cache. -/
def mramWrite (cache : List Dword) (addr : Nat) : Prog St Unit :=
  .write fun s => { s with mram := Copy.lay s.mram (addr / 8) cache }

/-- The output of `unique` after `j` passes of its loop; its length is `pos`. -/
def uniqueTo (input : Nat → Dword) : Nat → List Dword
  | 0 => [input 0]
  | j + 1 => if input (j + 1) ≠ input j then uniqueTo input j ++ [input (j + 1)] else uniqueTo input j

def unique (input : Nat → Dword) : List Dword := uniqueTo input (REGS - 1)

/-- `c ? 1u : 0u` -/
def flag (c : Bool) : Word := if c then 1 else 0

/-- The writes and reads are of `volatile` variables, one action each. -/
def handshakeSyncUni (out : List Dword) (l_count : Word) (tasklet_id : Nat) : Prog St Uint3 := do
  let epoch ← Prog.read fun s => s.gEpoch
  let po ← (if tasklet_id ≠ 0 then do
      Prog.await fun s => s.msg.tag tasklet_id == epoch
      let p_count ← Prog.read fun s => (s.msg.val tasklet_id).count
      let last ← Prog.read fun s => (s.msg.val tasklet_id).last
      let o_count ← Prog.read fun s => (s.msg.val tasklet_id).off
      pure ⟨p_count, o_count, flag (last == out.getD 0 0)⟩
    else do
      let last ← Prog.read fun s => s.messageLastFromLast
      pure ⟨0, 0, flag (last == out.getD 0 0)⟩ : Prog St Uint3)
  Prog.when (tasklet_id < NR_TASKLETS - 1) do
    Prog.write fun s => { s with msg := s.msg.put (tasklet_id + 1) fun v => { v with count := po.x + l_count } }
    Prog.write fun s => { s with msg := s.msg.put (tasklet_id + 1) fun v => { v with last := out.getD (l_count.toNat - 1) 0 } }
    Prog.write fun s => { s with msg := s.msg.put (tasklet_id + 1) fun v => { v with off := po.y + po.z } }
    Prog.write fun s => { s with msg := s.msg.mark (tasklet_id + 1) epoch }
  pure po

/-- The history of the running count -/
def St.noteRead (s : St) (tasklet_id : Nat) : St :=
  { s with reads := Function.update s.reads tasklet_id (s.reads tasklet_id + 1) }

variable (args : DpuArguments) (tasklet_id : Nat)

def B_base : Nat := A_OFFSET + args.size.toNat

/-- One pass of the loop. -/
def pass (byte_index : Nat) : Prog St Unit := do
  Prog.when (tasklet_id = 0) (Prog.write fun s => { s with gEpoch := s.gEpoch + 1 })
  Prog.barrier
  let cache_A ← mramRead (A_OFFSET + byte_index)
  let cache_B := unique cache_A
  let l_count : Word := BitVec.ofNat 32 cache_B.length
  let po ← handshakeSyncUni cache_B l_count tasklet_id
  (if l_count > po.z then do
    let out_elems := l_count - po.z
    let count ← Prog.readWrite (fun s => s.messagePartialCount) fun s => s.noteRead tasklet_id
    mramWrite ((cache_B.drop po.z.toNat).take out_elems.toNat) (B_base args + ((count + po.x - po.y) * 8).toNat)
  else Prog.write fun s => s.noteRead tasklet_id)
  Prog.when (tasklet_id = NR_TASKLETS - 1) do
    Prog.write fun s => { s with messageLastFromLast := cache_B.getD (if l_count ≠ 0 then l_count.toNat - 1 else 0) 0 }
    Prog.write fun s =>
      { s with messagePartialCount := s.messagePartialCount + po.x + l_count - po.y - po.z, updates := s.updates + 1 }
  Prog.barrier

def main : Prog St Unit := do
  Prog.when (tasklet_id = 0) do
    -- `g_epoch` is set by `handshake_init`
    Prog.write fun s => { s with gEpoch := 1 }
    Prog.write fun s => { s with messagePartialCount := 0 }
    Prog.write fun s => { s with messageLastFromLast := -1 }
  Prog.barrier
  Prog.when (tasklet_id = NR_TASKLETS - 1) do
    Prog.write fun s => { s with messagePartialCount := 0 }
    Prog.write fun s => { s with messageLastFromLast := 0xFFFFFFFF }
  Prog.barrier
  Prog.loop (tasklet_id * BLOCK_SIZE) args.size.toNat (BLOCK_SIZE * NR_TASKLETS) (pass args tasklet_id)
  Prog.barrier
  Prog.when (tasklet_id = 0) (Prog.write fun s => { s with log := s.messagePartialCount.setWidth 64 })

/-! ## What it is for -/

/-- Element `i` of the input. -/
def elem (m : Nat → Dword) (i : Nat) : Dword := m (A_OFFSET / 8 + i)

/-- The input with each run of equal elements reduced to one. -/
def reduced (m : Nat → Dword) : List Dword := (Copy.cells m (A_OFFSET / 8) (args.size.toNat / 8)).destutter (· ≠ ·)

/-- Where the tasklets start: `msg_epoch` is static and so 0, and there is no
history yet. -/
def Init (m : Nat → Dword) (s : St) : Prop :=
  s.mram = m ∧ (∀ u < NR_TASKLETS, s.msg.tag u = 0) ∧ (∀ u, s.reads u = 0) ∧ s.updates = 0

/-- The running count is updated only after every other tasklet has read it
in this pass, if it has to. -/
def timely (s s' : St) : Bool :=
  s'.updates == s.updates || (List.range (NR_TASKLETS - 1)).all fun u => s.reads u == s.updates + 1

end Memclave.Uni
