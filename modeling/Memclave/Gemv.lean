/-
The GEMV kernel: the row loop of `gemv/main.c`.

The barriers before and after the loop are left out: no tasklet reads what
another one writes in it, so a tasklet may start or end at any time.

MRAM is a function of the index of a 32-bit word. A transfer ignores the low
three bits of its address and is one action; a cache is what was last read
into it. A loop variable that counts up to a bound does not wrap, so loops
count in `Nat`, and so do the row numbers: there is a word of MRAM for each.
`n_size` is an `int32_t`.
-/
import Memclave.Lib.Words
import Memclave.Lib.Copy
import Memclave.Lib.Tasklets

namespace Memclave.Gemv

open Words Tasklets

def NR_TASKLETS : Nat := 16

def BLOCK_SIZE : Nat := 1024

/-- `BLOCK_SIZE / sizeof(T)` -/
def BLOCK_WORDS : Nat := 256

def element_per_cacheC : Nat := 2

def A_OFFSET : Word := 0x2100

structure DpuArguments where
  n_size : Word
  n_size_pad : Word
  nr_rows : Word
  max_rows : Word

abbrev Mram := Nat → Word

/-- The first word of a transfer. -/
def line (addr : Word) : Nat := addr.toNat / 8 * 2

def mramRead (addr : Word) : Prog Mram (Nat → Word) := .read fun m i => m (line addr + i)

/-- `mram_write(cache_C, addr, 8)` -/
def mramWrite8 (cache_C : Nat → Word) (addr : Word) : Prog Mram Unit := .write fun m => Copy.blit m (line addr) cache_C 0 2

def gemv (bufferC bufferA bufferB : Nat → Word) (pos : Nat) : Nat → Word :=
  (List.range BLOCK_WORDS).foldl (fun c i => Function.update c pos (c pos + bufferA i * bufferB i)) bufferC

variable (args : DpuArguments) (t : Nat)

/-! ## The rows of a tasklet -/

def dbl_chunks : Nat := args.nr_rows.toNat / (NR_TASKLETS * element_per_cacheC) * element_per_cacheC

def rest_rows : Nat := args.nr_rows.toNat % (NR_TASKLETS * element_per_cacheC)

def rows_per_tasklet : Nat :=
  if t * element_per_cacheC < rest_rows args then dbl_chunks args + element_per_cacheC else dbl_chunks args

def roundup (n m : Nat) : Nat := n / m * m + m

def start_row : Nat :=
  if 0 < rest_rows args then
    if rest_rows args ≤ t * element_per_cacheC then
      if rest_rows args % element_per_cacheC ≠ 0 then roundup (rest_rows args) element_per_cacheC + t * dbl_chunks args
      else rest_rows args + t * dbl_chunks args
    else t * (dbl_chunks args + element_per_cacheC)
  else t * dbl_chunks args

/-! ## The row loop -/

def mram_base_addr_B : Word := A_OFFSET + args.max_rows * args.n_size_pad * 4

/-- `mram_base_addr_C` of the first row -/
def mram_base_addr_C : Word := mram_base_addr_B args + args.n_size_pad * 4

/-- What a tasklet keeps from row to row. -/
structure Regs where
  mram_temp_addr_A : Word
  mram_temp_addr_B : Word
  cache_C : Nat → Word
  offset : Bool

/-- `cache_A`, where the row starts at an odd word: shifted by a word, and the
last one fetched. -/
def realign (r : Regs) (cache_A : Nat → Word) : Prog Mram (Nat → Word) := do
  if r.offset then
    let cache_A_aux ← mramRead (r.mram_temp_addr_A + BitVec.ofNat 32 BLOCK_SIZE)
    pure (Function.update (Copy.fwd cache_A 1 0 (BLOCK_WORDS - 1)) (BLOCK_WORDS - 1) (cache_A_aux 0))
  else pure cache_A

/-- A pass of the block loop. -/
def block (pos : Nat) (r : Regs) : Prog Mram Regs := do
  let cache_A ← mramRead r.mram_temp_addr_A
  let cache_B ← mramRead r.mram_temp_addr_B
  let cache_A ← realign r cache_A
  pure { r with
    cache_C := gemv r.cache_C cache_A cache_B pos
    mram_temp_addr_A := r.mram_temp_addr_A + BitVec.ofNat 32 BLOCK_SIZE
    mram_temp_addr_B := r.mram_temp_addr_B + BitVec.ofNat 32 BLOCK_SIZE }

/-- `(int32_t)(n_size - (BLOCK_SIZE / sizeof(T)))`, where it is not negative -/
def blockBound : Nat := (args.n_size - BitVec.ofNat 32 BLOCK_WORDS).toInt.toNat

/-- `n` after the block loop -/
def blockEnd : Nat := BLOCK_WORDS * Prog.passes 0 (blockBound args) BLOCK_WORDS

/-- `n_size - n` -/
def remain : Word := args.n_size - BitVec.ofNat 32 (blockEnd args)

/-- `for (j = 0; j < (int)(n_size - n); j++)` with its `break` -/
def gemvRest (bufferC bufferA bufferB : Nat → Word) (pos : Nat) : Nat → Word :=
  (List.range (min (remain args).toInt.toNat BLOCK_WORDS)).foldl
    (fun c j => Function.update c pos (c pos + bufferA j * bufferB j)) bufferC

/-- A pass of the loop over `pos`. -/
def row (pos : Nat) (r : Regs) : Prog Mram Regs := do
  let r ← Prog.forStep 0 (blockBound args) BLOCK_WORDS r fun _ r => block pos r
  let cache_A ← mramRead r.mram_temp_addr_A
  let cache_A ← realign r cache_A
  let cache_B ← mramRead r.mram_temp_addr_B
  let mram_temp_addr_A := r.mram_temp_addr_A +
    (BitVec.ofNat 32 BLOCK_SIZE - (BitVec.ofNat 32 BLOCK_WORDS - remain args) * 4)
  pure
    { mram_temp_addr_A
      mram_temp_addr_B := mram_base_addr_B args
      cache_C := gemvRest args r.cache_C cache_A cache_B pos
      offset := mram_temp_addr_A % 8 ≠ 0 }

/-- The rows of one `cache_C`, up to the `break`. -/
def rows (i : Nat) (r : Regs) : Prog Mram Regs := do
  if args.nr_rows ≤ BitVec.ofNat 32 i then pure r
  else
    let r ← row args 0 r
    if args.nr_rows ≤ BitVec.ofNat 32 (i + 1) then pure r else row args 1 r

/-- What a tasklet keeps from one pass of the row loop to the next. -/
structure Place where
  mram_base_addr_C : Word
  offset : Bool

/-- A pass of the row loop. -/
def pass (i : Nat) (q : Place) : Prog Mram Place := do
  let r ← rows args i
    { mram_temp_addr_A := A_OFFSET + BitVec.ofNat 32 i * args.n_size * 4
      mram_temp_addr_B := mram_base_addr_B args
      cache_C := fun _ => 0
      offset := q.offset }
  mramWrite8 r.cache_C q.mram_base_addr_C
  pure { mram_base_addr_C := q.mram_base_addr_C + 8, offset := r.offset }

/-- The loop over the rows in `main`. -/
def rowLoop : Prog Mram Unit := do
  let _ ← Prog.forStep (start_row args t) (start_row args t + rows_per_tasklet args t) element_per_cacheC
    { mram_base_addr_C := mram_base_addr_C args + BitVec.ofNat 32 (start_row args t) * 4, offset := false } (pass args)
  pure ()

/-! ## What it is for -/

/-- Element `j` of row `r` of the matrix. -/
def elemA (m : Mram) (r j : Nat) : Word := m (A_OFFSET.toNat / 4 + r * args.n_size.toNat + j)

def elemB (m : Mram) (j : Nat) : Word := m ((mram_base_addr_B args).toNat / 4 + j)

def elemC (m : Mram) (r : Nat) : Word := m ((mram_base_addr_C args).toNat / 4 + r)

/-- The arguments of a slice whose arrays are in the address space. -/
structure Slice : Prop where
  size : 1 ≤ args.n_size.toNat
  pad : args.n_size.toNat ≤ args.n_size_pad.toNat
  even : 2 ∣ args.n_size_pad.toNat
  rows : args.nr_rows.toNat ≤ args.max_rows.toNat
  fits : A_OFFSET.toNat + 4 * (args.max_rows.toNat * args.n_size_pad.toNat + args.n_size_pad.toNat +
    (args.nr_rows.toNat + args.nr_rows.toNat % 2)) < 2 ^ 32

end Memclave.Gemv
