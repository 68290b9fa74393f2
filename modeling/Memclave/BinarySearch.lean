/-
The query loop of the BS kernel: `BS/main.c`.

MRAM is a function of the index of an 8-byte word. `reads` records the
address and the size of each `mram_read`: no function reads it. The loop
takes the number of passes it may make, and is `none` when these do not
suffice.
-/
import Memclave.Lib.Words

namespace Memclave.BinarySearch

open Words

def BLOCK_SIZE : Word := 256

def WORD_MASK : Word := 0xfffffff8

structure St where
  cacheA : Nat → Dword
  /-- `result->found` -/
  found : Dword
  /-- the history, the latest read first -/
  reads : List (Word × Word)

section

variable (mram : Nat → Dword)

/-- `mram_read` into `cache_A`. -/
def St.mramRead (addr size : Word) (s : St) : St :=
  { s with
    cacheA := fun i => if i < size.toNat / 8 then mram (addr.toNat / 8 + i) else s.cacheA i
    reads := (addr, size) :: s.reads }

/-- `mram_read` into one of the other two caches, which nothing reads. -/
def St.prefetch (addr size : Word) (s : St) : St := { s with reads := (addr, size) :: s.reads }

def search (bufferA : Nat → Dword) (searching_for : Dword) (search_size : Word) : Dword :=
  if (bufferA 0).sle searching_for then
    match (List.range (search_size.toNat / 8)).find? fun i => bufferA i == searching_for with
    | some i => BitVec.ofNat 64 i
    | none => -1
  else -2

/-- `f > -1` -/
def isIndex (f : Dword) : Bool := BitVec.slt (-1) f

/-- The index in the array of element `f` of the block at `addr`. -/
def indexAt (A_base addr : Word) (f : Dword) : Dword := f + ((addr - A_base) / 8).setWidth 64

/-- One pass of `while(1)`: the next bounds, or none after a `break`. -/
def pass (A_base : Word) (searching_for : Dword) (L R : Word) (s : St) : St × Option (Word × Word) :=
  let mid := ((L + R) / 2) &&& WORD_MASK
  if mid < L + BLOCK_SIZE then
    let s := s.mramRead mram L BLOCK_SIZE
    let f := search s.cacheA searching_for BLOCK_SIZE
    if isIndex f then ({ s with found := indexAt A_base L f }, none)
    else
      let start2 := L + BLOCK_SIZE
      let remain := (R - start2) &&& ~~~7
      if remain ≠ 0 then
        let s := s.mramRead mram start2 remain
        let f := search s.cacheA searching_for remain
        if isIndex f then ({ s with found := indexAt A_base start2 f }, none) else (s, none)
      else (s, none)
  else
    let s := s.mramRead mram mid BLOCK_SIZE
    let f := search s.cacheA searching_for BLOCK_SIZE
    if isIndex f then ({ s with found := indexAt A_base mid f }, none)
    else if f = -2 then (s, some (L, mid))
    else (s, some (mid, R))

def loop (A_base : Word) (searching_for : Dword) : Nat → Word → Word → St → Option St
  | 0, _, _, _ => none
  | passes + 1, L, R, s =>
    match pass mram A_base searching_for L R s with
    | (s, some (L, R)) => loop A_base searching_for passes L R s
    | (s, none) => some s

/-- `A_base + (uint32_t)(input_size * sizeof(DTYPE))` -/
def arrayEnd (A_base : Word) (input_size : Dword) : Word := A_base + (input_size * 8).setWidth 32

/-- What is done for one query. -/
def query (passes : Nat) (A_base : Word) (input_size searching_for : Dword) (s : St) : Option St :=
  let A_end := arrayEnd A_base input_size
  let s := s.prefetch A_base BLOCK_SIZE
  let s := s.prefetch (A_end - BLOCK_SIZE) BLOCK_SIZE
  loop mram A_base searching_for passes A_base A_end s

end

end Memclave.BinarySearch
