/-
The Needleman-Wunsch kernel: `NW/main.c`.

`job` is what a tasklet does with the blocks of one job. MRAM is a function
of the index of a 32-bit word; a transfer ignores the low three bits of its
address and is one action. Loops and the indices of sub-blocks count in
`Nat`. The caches are a tasklet's own and keep what they hold.
-/
import Memclave.Lib.Words
import Memclave.Lib.Copy
import Memclave.Lib.Tasklets

namespace Memclave.Nw

open Words Tasklets

def NR_TASKLETS : Nat := 16

def HEAP_BASE : Word := 0x4100

def BL : Nat := 16

def BL_IN : Nat := 4

def REP : Nat := BL / BL_IN

def maximum (a b c : Word) : Word :=
  let k := if a.sle b then b else a
  if k.sle c then c else k

abbrev Mram := Nat → Word

structure Caches where
  cache_input : Nat → Word
  cache_ref : Nat → Word

/-- The first word of a transfer. -/
def line (addr : Word) : Nat := addr.toNat / 8 * 2

/-- `mram_read(addr, cache + off, n * sizeof(int32_t))` -/
def mramRead (addr : Word) (n : Nat) (cache : Nat → Word) (off : Nat) : Prog Mram (Nat → Word) :=
  .read fun m => Copy.blit cache off m (line addr) n

/-- `mram_write(cache + off, addr, n * sizeof(int32_t))` -/
def mramWrite (cache : Nat → Word) (off : Nat) (addr : Word) (n : Nat) : Prog Mram Unit :=
  .write fun m => Copy.blit m (line addr) cache off n

variable (penalty : Word)

/-- The computation of one cell of `cache_input`. -/
def cell (cache_ref : Nat → Word) (i : Nat) (c : Nat → Word) (j : Nat) : Nat → Word :=
  Function.update c (i * (BL_IN + 2) + j)
    (maximum (c ((i - 1) * (BL_IN + 2) + j - 1) + cache_ref ((i - 1) * BL_IN + j - 1))
      (c (i * (BL_IN + 2) + j - 1) - penalty)
      (c ((i - 1) * (BL_IN + 2) + j) - penalty))

def compute (cache_ref cache_input : Nat → Word) : Nat → Word :=
  (List.range' 1 BL_IN).foldl (fun c i => (List.range' 1 BL_IN).foldl (cell penalty cache_ref i) c) cache_input

/-- Where row `i` of a sub-block starts, in an array of rows of `w` words. -/
def rowAddr (base : Word) (w t_index_x t_index_y i : Nat) : Word :=
  base + BitVec.ofNat 32 (t_index_x * w * BL_IN * 4) + BitVec.ofNat 32 (t_index_y * BL_IN * 4) + BitVec.ofNat 32 (i * (w * 4))

/-- What is done for one sub-block. -/
def subBlock (base_itemsets base_ref : Word) (t_index_x t_index_y : Nat) (q : Caches) : Prog Mram Caches := do
  let addr_input := rowAddr base_itemsets (BL + 2) t_index_x t_index_y
  let addr_ref := rowAddr base_ref BL t_index_x t_index_y
  let cache_input ← mramRead (addr_input 0) (BL_IN + 2) q.cache_input 0
  let cache_input ← Prog.forStep 1 (BL_IN + 1) 1 cache_input fun i c => mramRead (addr_input i) 2 c (i * (BL_IN + 2))
  let cache_ref ← Prog.forStep 0 BL_IN 1 q.cache_ref fun i c => mramRead (addr_ref i) BL_IN c (i * BL_IN)
  let cache_input := compute penalty cache_ref cache_input
  Prog.loop 1 (BL_IN + 1) 1 fun i => mramWrite cache_input (i * (BL_IN + 2)) (addr_input i) (BL_IN + 2)
  pure { cache_input, cache_ref }

/-! ## The diagonals of a block -/

variable (t : Nat)

/-- `chunks`, of a diagonal with `n` sub-blocks -/
def chunks (n : Nat) : Nat := if t < n % NR_TASKLETS then n / NR_TASKLETS + 1 else n / NR_TASKLETS

def start (n : Nat) : Nat :=
  if 0 < n % NR_TASKLETS then
    if t < n % NR_TASKLETS then t * chunks t n else n % NR_TASKLETS * (chunks t n + 1) + (t - n % NR_TASKLETS) * chunks t n
  else t * chunks t n

/-- A tasklet's sub-blocks of the diagonal `x + y = d`, whose `n` sub-blocks
start at row `x0`. -/
def diagonal (base_itemsets base_ref : Word) (n x0 d : Nat) (q : Caches) : Prog Mram Caches := do
  let q ← Prog.forStep 0 (chunks t n) 1 q fun bl_indx q =>
    let t_index_x := x0 + start t n + bl_indx
    subBlock penalty base_itemsets base_ref t_index_x (d - t_index_x) q
  Prog.barrier
  pure q

def topLeft (base_itemsets base_ref : Word) (blk : Nat) (q : Caches) : Prog Mram Caches :=
  diagonal penalty t base_itemsets base_ref blk 0 (blk - 1) q

def bottomRight (base_itemsets base_ref : Word) (blk : Nat) (q : Caches) : Prog Mram Caches :=
  diagonal penalty t base_itemsets base_ref (REP - blk + 1) (blk - 1) (REP + blk - 2) q

structure DpuArguments where
  nblocks : Word
  active_blocks : Word
  penalty : Word

variable (args : DpuArguments)

/-- `mram_base_addr_ref` of the first block -/
def baseRef : Word :=
  if args.nblocks ≠ args.active_blocks then HEAP_BASE + args.active_blocks * BitVec.ofNat 32 ((BL + 1) * (BL + 2) * 4)
  else HEAP_BASE + args.nblocks * BitVec.ofNat 32 ((BL + 1) * (BL + 2) * 4)

/-- `mram_base_addr_input_itemsets` and `mram_base_addr_ref` of block `bl` -/
def itemsetsAddr (bl : Nat) : Word := HEAP_BASE + BitVec.ofNat 32 (bl * ((BL + 1) * (BL + 2) * 4))

def refAddr (bl : Nat) : Word := baseRef args + BitVec.ofNat 32 (bl * (BL * BL * 4))

def block (bl : Nat) (q : Caches) : Prog Mram Caches := do
  let q ← Prog.forStep 0 (REP + 1) 1 q fun blk q => topLeft args.penalty t (itemsetsAddr bl) (refAddr args bl) blk q
  let q ← Prog.forStep 2 (REP + 1) 1 q fun blk q => bottomRight args.penalty t (itemsetsAddr bl) (refAddr args bl) blk q
  pure q

/-- The caches hold anything at first. -/
def job (caches : Nat → Caches) : Prog Mram Unit := do
  let _ ← Prog.forStep 0 args.nblocks.toNat 1 (caches t) (block t args)
  pure ()

/-! ## The recurrence -/

/-- Needleman-Wunsch from the cells of row 0 and column 0. -/
def nw (border ref : Nat → Nat → Word) : Nat → Nat → Word
  | 0, j => border 0 j
  | i + 1, 0 => border (i + 1) 0
  | i + 1, j + 1 => maximum (nw border ref i j + ref i j) (nw border ref (i + 1) j - penalty) (nw border ref i (j + 1) - penalty)

/-- Cell `(i, j)` of the itemset block `bl`. -/
def itemset (m : Mram) (bl i j : Nat) : Word := m (HEAP_BASE.toNat / 4 + bl * ((BL + 1) * (BL + 2)) + i * (BL + 2) + j)

def refCell (m : Mram) (bl i j : Nat) : Word := m ((baseRef args).toNat / 4 + bl * (BL * BL) + i * BL + j)

/-- `DPU_CAPACITY` -/
def DPU_CAPACITY : Nat := 64 <<< 20

/-- The reference blocks are behind the itemset blocks, and in MRAM. -/
structure Fits : Prop where
  active : args.nblocks.toNat ≤ args.active_blocks.toNat
  mram : HEAP_BASE.toNat + args.active_blocks.toNat * ((BL + 1) * (BL + 2) * 4) + args.nblocks.toNat * (BL * BL * 4) ≤
    DPU_CAPACITY

end Memclave.Nw
