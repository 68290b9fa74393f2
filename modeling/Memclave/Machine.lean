/-
The memories of a DPU as the loader of `src/core` sees them, and the
instructions it reaches them with.

Memories are functions of the index of a 32-bit word; byte addresses are
`Word`s, as registers hold them. A DMA moves 8-byte words: it ignores the low
three bits of both its addresses. Of an MRAM address it takes the low 27
bits, so that the linker's `0x08000000` and `0` are the same place and
`64 << 20` is none; outside a memory it faults.

The trace is a history of the run that no instruction reads: which chunks
went into the MAC, which instructions were scanned and which sections were
loaded.
-/
import Memclave.Lib.Words
import Memclave.Lib.Exec
import Memclave.Lib.Copy

namespace Memclave.Loader

open Words Exec Copy

inductive Fault where
  /-- `ime_sec_fault` -/
  | sec
  /-- `ime_sanity_fault` -/
  | sanity
  /-- a fault of the DPU's own, for an address outside a memory -/
  | mem
deriving DecidableEq, Repr

inductive Event where
  /-- the chunk at MRAM word `src` was fed into the MAC -/
  | fed (src : Nat)
  /-- the 8-byte word `inst` was scanned -/
  | scanned (inst : BitVec 64)
  /-- the section at MRAM word `src` was loaded to IRAM word `dst` -/
  | toIram (dst src : Nat)
  /-- the section at MRAM word `src` was loaded to WRAM word `dst` -/
  | toWram (dst src : Nat)
deriving DecidableEq

structure St where
  mram : Nat → Word
  wram : Nat → Word
  iram : Nat → Word
  /-- the thread the code runs on -/
  id : Nat
  /-- whether a thread runs code of the user's -/
  running : Nat → Bool
  /-- registers 16 to 23 of thread 22 -/
  sysKey : Fin 8 → Word
  /-- the history, the latest event first -/
  trace : List Event

abbrev Prog := EStateM Fault St

/-! ## The sizes of the memories, in words -/

def mramWords : Nat := 2 ^ 24
def wramWords : Nat := 2 ^ 14
def iramWords : Nat := 2 ^ 13

/-- The byte of MRAM an address means to a DMA. -/
def mramOff (a : Word) : Nat := a.toNat % 2 ^ 27

/-- The first word of the 8-byte word a DMA at `a` begins with. -/
def mramAt (a : Word) : Nat := mramOff a / 8 * 2

def wramAt (a : Word) : Nat := a.toNat / 8 * 2

/-- A DMA of `n` words at `a` stays within MRAM. -/
abbrev InMram (a : Word) (n : Nat) : Prop := mramAt a + n ≤ mramWords

abbrev InWram (a : Word) (n : Nat) : Prop := wramAt a + n ≤ wramWords

abbrev InIram (a : Word) (n : Nat) : Prop := wramAt a + n ≤ iramWords

/-! ## Loads and stores -/

def lw (a : Word) : Prog Word := do
  if a.toNat % 4 = 0 ∧ a.toNat / 4 < wramWords then
    return (← get).wram (a.toNat / 4)
  else throw .mem

def sw (a v : Word) : Prog Unit := do
  if a.toNat % 4 = 0 ∧ a.toNat / 4 < wramWords then
    modify fun s => { s with wram := Function.update s.wram (a.toNat / 4) v }
  else throw .mem

/-! ## DMA, with the length in 8-byte words -/

def ldma (w a : Word) (n : Nat) : Prog Unit := do
  if InMram a (2 * n) ∧ InWram w (2 * n) then
    modify fun s => { s with wram := blit s.wram (wramAt w) s.mram (mramAt a) (2 * n) }
  else throw .mem

def sdma (w a : Word) (n : Nat) : Prog Unit := do
  if InMram a (2 * n) ∧ InWram w (2 * n) then
    modify fun s => { s with mram := blit s.mram (mramAt a) s.wram (wramAt w) (2 * n) }
  else throw .mem

/-- To IRAM, whose addresses count an instruction as 8 bytes. -/
def ldmai (w a : Word) (n : Nat) : Prog Unit := do
  if InMram a (2 * n) ∧ InIram w (2 * n) then
    modify fun s => { s with iram := blit s.iram (wramAt w) s.mram (mramAt a) (2 * n) }
  else throw .mem

/-- `mram_read` of `n` words into a local array. -/
def mramRead (a : Word) (n : Nat) : Prog (Fin n → Word) := do
  if InMram a n then
    let s ← get
    return fun i => s.mram (mramAt a + i)
  else throw .mem

/-- `mram_write` of a local array. -/
def mramWrite {n : Nat} (v : Fin n → Word) (a : Word) : Prog Unit := do
  if InMram a n then
    modify fun s => { s with
      mram := fun k => if h : mramAt a ≤ k ∧ k < mramAt a + n then v ⟨k - mramAt a, by omega⟩ else s.mram k }
  else throw .mem

def log (e : Event) : Prog Unit := modify fun s => { s with trace := e :: s.trace }

/-! ## What the rest of the core does for the loader -/

/-- The cryptography of the core: `ime_chacha_blk` on a key, a counter and
an iv, and the functions of `poly.c`. -/
structure Crypto where
  Ctx : Type
  chachaBlk : (Fin 8 → Word) → Word → (Fin 3 → Word) → Fin 16 → Word
  polyInit : (Fin 8 → Word) → Ctx
  polyFeedBlock : Ctx → (Fin 4 → Word) → Ctx
  polyFinalize : Ctx → Fin 4 → Word

/-- What the compiler decides: the words its frames leave on the stack, and
where on it `chacha_output` lies. -/
structure Frames where
  stack : Nat → Word
  out : Word

end Memclave.Loader
