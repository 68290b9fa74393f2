/-
`main_kernel2` of `TRNS/main.c`: the tasklets move rows of `m` elements along
the cycles of the transposition of an `M_` by `n` array of them, in place,
with a flag a row.

MRAM is a function of the index of a 64-bit word. One step is one action of
one tasklet, and what it does with its own variables up to the next one: the
transfer of a row, or a call of `get_tile`, `get_done` or `get_and_set_done`,
which each hold a mutex. A transfer moves any number of words here, at most
256 on a DPU. `written` is a history that no step reads.
-/
import Memclave.Lib.Words
import Memclave.Lib.Copy
import Memclave.Lib.System

namespace Memclave.Trns

open Words Copy Function

/-- `dpu_arguments_t`, without `kernel`. -/
structure DpuArguments where
  m : Word
  n : Word
  M_ : Word

/-- `sizeof(T)` -/
def sizeofT : Word := 8

def A_OFFSET : Word := 0x2100

/-- Where a tasklet is: at its next action. -/
inductive Pc where
  | getTile
  /-- at `read_tile_step3` of the tile -/
  | readTile
  | getDone
  /-- at `read_tile_step3` in the inner loop -/
  | readNext
  | getAndSetDone
  | writeNext
  /-- past the loops -/
  | left
deriving DecidableEq, Repr

/-- The variables of a tasklet. -/
structure Locals where
  tile : Word
  nextInCycle : Word
  data : Nat → Dword
  backup : Nat → Dword

structure St where
  mram : Nat → Dword
  currTile : Word
  pc : Nat → Pc
  locals : Nat → Locals
  /-- how often `write_tile_step3` was called for a row -/
  written : Nat → Nat

def St.set (s : St) (t : Nat) (p : Pc) (l : Locals) : St :=
  { s with pc := update s.pc t p, locals := update s.locals t l }

section

variable (args : DpuArguments)

def tileMax : Word := args.M_ * args.n - 1

/-- The product is one of 64 bits. -/
def doneArray : Word :=
  A_OFFSET + (args.M_.setWidth 64 * args.m.setWidth 64 * args.n.setWidth 64 * 8).setWidth 32

/-- `(tile * M_) - tile_max * (tile / n)` -/
def nextInCycleOf (tile : Word) : Word := tile * args.M_ - tileMax args * (tile / args.n)

/-- The index of the 64-bit word that `A + offset * sizeof(T)` addresses, with
the offset of a tile. -/
def rowWord (tile : Word) : Nat := (A_OFFSET + tile * args.m * sizeofT).toNat / 8

/-- `read_tile_step3`, into a buffer. -/
def readTileStep3 (mram : Nat → Dword) (tile : Word) (buf : Nat → Dword) : Nat → Dword :=
  blit buf 0 mram (rowWord args tile) args.m.toNat

def writeTileStep3 (mram : Nat → Dword) (tile : Word) (buf : Nat → Dword) : Nat → Dword :=
  blit mram (rowWord args tile) buf 0 args.m.toNat

/-- The transfer ignores the low three bits of `done_array + address`. -/
def doneWord (address : Word) : Nat := (doneArray args + address).toNat / 8

/-- `0x01 << (address % sizeof(T))` -/
def doneBit (address : Word) : Dword := 1 <<< (address % sizeofT).toNat

def getDone (mram : Nat → Dword) (address : Word) : Bool := mram (doneWord args address) &&& doneBit address != 0

/-- What `get_and_set_done` leaves in MRAM; it returns what `get_done` does. -/
def setDone (mram : Nat → Dword) (address : Word) : Nat → Dword :=
  update mram (doneWord args address) (mram (doneWord args address) ||| doneBit address)

def step (s : St) (t : Nat) : St :=
  let l := s.locals t
  match s.pc t with
  | .getTile =>
    let tile := s.currTile
    let nextInCycle := nextInCycleOf args tile
    let s := { s with currTile := s.currTile + 1 }
    if tile < tileMax args then
      if nextInCycle = tile then s.set t .getTile { l with tile, nextInCycle }
      else s.set t .readTile { l with tile, nextInCycle }
    else s.set t .left { l with tile }
  | .readTile => s.set t .getDone { l with data := readTileStep3 args s.mram l.tile l.data }
  | .getDone => s.set t (if getDone args s.mram l.tile then .getTile else .readNext) l
  | .readNext => s.set t .getAndSetDone { l with backup := readTileStep3 args s.mram l.nextInCycle l.backup }
  | .getAndSetDone =>
    let done := getDone args s.mram l.nextInCycle
    let s := { s with mram := setDone args s.mram l.nextInCycle }
    /- the copy of `backup` is of no use any more when the loop ends here -/
    if done then
      s.set t .getTile { l with data := blit l.data 0 l.backup 0 args.m.toNat, nextInCycle := nextInCycleOf args l.nextInCycle }
    else s.set t .writeNext l
  | .writeNext =>
    let s := { s with
      mram := writeTileStep3 args s.mram l.nextInCycle l.data
      written := update s.written l.nextInCycle.toNat (s.written l.nextInCycle.toNat + 1) }
    s.set t .readNext { l with data := blit l.data 0 l.backup 0 args.m.toNat, nextInCycle := nextInCycleOf args l.nextInCycle }
  | .left => s

/-- One step of one of `NR_TASKLETS` tasklets. -/
def Step (NR_TASKLETS : Nat) (s s' : St) : Prop := ∃ t < NR_TASKLETS, s.pc t ≠ .left ∧ s' = step args s t

/-- All tasklets are past the barrier before the loops, and `curr_tile` is 0. -/
def Init (mram : Nat → Dword) (s : St) : Prop :=
  s.mram = mram ∧ s.currTile = 0 ∧ (∀ t, s.pc t = .getTile) ∧ ∀ i, s.written i = 0

/-- Row `i` of `m` elements. -/
def row (mram : Nat → Dword) (i : Nat) (j : Fin args.m.toNat) : Dword := mram (A_OFFSET.toNat / 8 + i * args.m.toNat + j)

/-- How many rows there are. -/
def DpuArguments.rows : Nat := args.M_.toNat * args.n.toNat

/-- The rows and the flags, one of a byte's width for each row, are in MRAM. -/
def Fits : Prop := A_OFFSET.toNat + args.rows * args.m.toNat * 8 + args.rows ≤ 2 ^ 26

end

end Memclave.Trns
