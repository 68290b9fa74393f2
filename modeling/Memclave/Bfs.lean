/-
The BFS kernel: `BFS/main.c`, `BFS/dpu-utils.h`.

`iteration` is the body of the outer loop of one tasklet, from the parameters
to the second barrier. MRAM is a function of the index of an 8-byte word; an
`mram_read` and an `mram_write` are one action each, `cache_w` is a tasklet's
own. A loop variable of type `uint32_t` that counts up to a bound does not
wrap, so loops count in `Nat`.
-/
import Memclave.Lib.Words
import Memclave.Lib.Tasklets

namespace Memclave.Bfs

open Words Tasklets

def NR_TASKLETS : Nat := 16

structure DPUParams where
  /-- The number of nodes assigned to this DPU -/
  dpuNumNodes : Word
  /-- Total number of nodes in the graph -/
  numNodes : Word
  /-- The index of the first node assigned to this DPU -/
  dpuStartNodeIdx : Word
  /-- Offset of the node pointers -/
  dpuNodePtrsOffset : Word
  /-- The current BFS level -/
  level : Word
  dpuNodePtrs_m : Word
  dpuNeighborIdxs_m : Word
  dpuNodeLevel_m : Word
  dpuVisited_m : Word
  dpuCurrentFrontier_m : Word
  dpuNextFrontier_m : Word

/-- What the tasklets share: MRAM, and who holds `nextFrontierMutex`. -/
structure St where
  mram : Nat → Dword
  holder : Option Nat

def setBit (val : Dword) (idx : Word) : Dword := val ||| (1#64 <<< idx.toNat)

def isSet (val : Dword) (idx : Word) : Bool := (val &&& (1#64 <<< idx.toNat)) != 0

/-- `cache_32_w[i]` -/
def half (d : Dword) (i : Nat) : Word := if i = 0 then d.setWidth 32 else (d >>> 32).setWidth 32

/-- `cache_32_w[i] = val` -/
def setHalf (d : Dword) (i : Nat) (val : Word) : Dword := if i = 0 then half d 1 ++ val else val ++ half d 0

def mramWrite (a : Nat) (val : Dword) : Prog St Unit := .write fun s => { s with mram := Function.update s.mram a val }

def load8B (ptr_m idx : Word) : Prog St Dword := .read fun s => s.mram ((ptr_m + idx * 8).toNat / 8)

def store8B (val : Dword) (ptr_m idx : Word) : Prog St Unit := mramWrite ((ptr_m + idx * 8).toNat / 8) val

def load4B (ptr_m idx : Word) : Prog St Word := do
  let ptr_idx_m := ptr_m + idx * 4
  let offset := ptr_idx_m % 8
  let ptr_block_m := ptr_idx_m - offset
  let cache_w ← Prog.read fun s => s.mram (ptr_block_m.toNat / 8)
  pure (half cache_w (offset / 4).toNat)

def store4B (val ptr_m idx : Word) : Prog St Unit := do
  let ptr_idx_m := ptr_m + idx * 4
  let offset := ptr_idx_m % 8
  let ptr_block_m := ptr_idx_m - offset
  let cache_w ← Prog.read fun s => s.mram (ptr_block_m.toNat / 8)
  mramWrite (ptr_block_m.toNat / 8) (setHalf cache_w (offset / 4).toNat val)

def mutexLock (t : Nat) : Prog St Unit := .awaitWrite (fun s => s.holder == none) fun s => { s with holder := some t }

def mutexUnlock : Prog St Unit := .write fun s => { s with holder := none }

variable (p : DPUParams)

def DPUParams.startTileIdx : Word := p.dpuStartNodeIdx / 64

def DPUParams.numTilesLocal : Word := p.dpuNumNodes / 64

def DPUParams.globalWords : Word := p.numNodes / 64

/-- Update node levels for nodes in this tile. -/
def setLevels (tile : Word) (nf : Dword) : Prog St Unit :=
  .loop (tile * 64).toNat ((tile + 1) * 64).toNat 1 fun node =>
    let node := BitVec.ofNat 32 node
    .when (isSet nf (node % 64)) (store4B p.level p.dpuNodeLevel_m (node - p.dpuStartNodeIdx))

def takeTile (tile : Word) : Prog St Unit := do
  let nf ← load8B p.dpuNextFrontier_m tile
  Prog.when (nf ≠ 0) do
    let vis ← load8B p.dpuVisited_m tile
    store8B (vis ||| nf) p.dpuVisited_m tile
    store8B 0 p.dpuNextFrontier_m tile
  Prog.when (p.startTileIdx ≤ tile ∧ tile < p.startTileIdx + p.numTilesLocal) do
    store8B nf p.dpuCurrentFrontier_m (tile - p.startTileIdx)
    Prog.when (nf ≠ 0) (setLevels p tile nf)

variable (t : Nat)

def pushNeighbor (nb : Word) : Prog St Unit := do
  let nbTile := nb / 64
  let vis ← load8B p.dpuVisited_m nbTile
  Prog.when (¬ isSet vis (nb % 64)) do
    mutexLock t
    let nft ← load8B p.dpuNextFrontier_m nbTile
    store8B (setBit nft (nb % 64)) p.dpuNextFrontier_m nbTile
    mutexUnlock

def visitNode (node : Word) : Prog St Unit := do
  let tile := node / 64
  let cf ← load8B p.dpuCurrentFrontier_m tile
  Prog.when (isSet cf (node % 64)) do
    let ptr ← load4B p.dpuNodePtrs_m node
    let nxt ← load4B p.dpuNodePtrs_m (node + 1)
    Prog.loop (ptr - p.dpuNodePtrsOffset).toNat (nxt - p.dpuNodePtrsOffset).toNat 1 fun i => do
      let nb ← load4B p.dpuNeighborIdxs_m (BitVec.ofNat 32 i)
      pushNeighbor p t nb

def numNodesPerTasklet : Word := (p.dpuNumNodes + BitVec.ofNat 32 NR_TASKLETS - 1) / BitVec.ofNat 32 NR_TASKLETS

def taskletNodesStart : Word := BitVec.ofNat 32 t * numNodesPerTasklet p

def taskletNumNodes : Word :=
  if p.dpuNumNodes ≤ taskletNodesStart p t then 0
  else if p.dpuNumNodes < taskletNodesStart p t + numNodesPerTasklet p then p.dpuNumNodes - taskletNodesStart p t
  else numNodesPerTasklet p

def iteration : Prog St Unit := do
  Prog.loop t p.globalWords.toNat NR_TASKLETS fun tile => takeTile p (BitVec.ofNat 32 tile)
  Prog.barrier
  Prog.when (0 < p.dpuNumNodes) do
    Prog.loop (taskletNodesStart p t).toNat (taskletNodesStart p t + taskletNumNodes p t).toNat 1 fun node =>
      visitNode p t (BitVec.ofNat 32 node)
  Prog.barrier

/-! ## What an iteration is for -/

inductive Buf
  | nodePtrs | neighborIdxs | nodeLevel | visited | currentFrontier | nextFrontier
deriving DecidableEq

/-- Where an array starts. -/
def Buf.base : Buf → Nat
  | .nodePtrs => p.dpuNodePtrs_m.toNat
  | .neighborIdxs => p.dpuNeighborIdxs_m.toNat
  | .nodeLevel => p.dpuNodeLevel_m.toNat
  | .visited => p.dpuVisited_m.toNat
  | .currentFrontier => p.dpuCurrentFrontier_m.toNat
  | .nextFrontier => p.dpuNextFrontier_m.toNat

/-- The bytes of an array, in a partition with a number of edges. -/
def Buf.bytes (edges : Nat) : Buf → Nat
  | .nodePtrs => 4 * (p.dpuNumNodes.toNat + 1)
  | .neighborIdxs => 4 * edges
  | .nodeLevel => 4 * p.dpuNumNodes.toNat
  | .visited => p.numNodes.toNat / 8
  | .currentFrontier => p.dpuNumNodes.toNat / 8
  | .nextFrontier => p.numNodes.toNat / 8

/-- The index of an 8-byte word of an array. -/
def Buf.cell (a : Buf) (i : Nat) : Nat := a.base p / 8 + i

/-- Element `i` of an array of 32-bit words. -/
def word (m : Nat → Dword) (a : Buf) (i : Nat) : Word := half (m (a.cell p (i / 2))) (i % 2)

/-- Node `x` is in a bitmap. -/
def bit (m : Nat → Dword) (a : Buf) (x : Nat) : Bool := (m (a.cell p (x / 64))).getLsbD (x % 64)

/-- The first index into `neighborIdxs` of a local node. -/
def row (m : Nat → Dword) (v : Nat) : Nat := (word p m .nodePtrs v - p.dpuNodePtrsOffset).toNat

/-- Node `x` is a neighbour of the local node `v`. -/
def Neighbor (m : Nat → Dword) (v x : Nat) : Prop :=
  ∃ i, row p m v ≤ i ∧ i < row p m (v + 1) ∧ (word p m .neighborIdxs i).toNat = x

/-- A partition of a graph as the host lays it out. -/
structure Partition (edges : Nat) (m : Nat → Dword) : Prop where
  nodes : 64 ∣ p.numNodes.toNat
  localNodes : 64 ∣ p.dpuNumNodes.toNat
  start : 64 ∣ p.dpuStartNodeIdx.toNat
  within : p.dpuStartNodeIdx.toNat + p.dpuNumNodes.toNat ≤ p.numNodes.toNat
  aligned : ∀ a : Buf, 8 ∣ a.base p
  fits : ∀ a : Buf, a.base p + a.bytes p edges ≤ 2 ^ 32
  disjoint : ∀ a b : Buf, a ≠ b → ∀ k, a.base p ≤ k → k < a.base p + a.bytes p edges →
    ¬ (b.base p ≤ k ∧ k < b.base p + b.bytes p edges)
  adjacency : ∀ v < p.dpuNumNodes.toNat, ∀ i, row p m v ≤ i → i < row p m (v + 1) →
    i < edges ∧ (word p m .neighborIdxs i).toNat < p.numNodes.toNat

/-- MRAM after an iteration from `m`. -/
structure Result (m m' : Nat → Dword) : Prop where
  visited : ∀ x < p.numNodes.toNat, bit p m' .visited x = (bit p m .visited x || bit p m .nextFrontier x)
  level : ∀ v < p.dpuNumNodes.toNat, word p m' .nodeLevel v =
    if bit p m .nextFrontier (p.dpuStartNodeIdx.toNat + v) then p.level else word p m .nodeLevel v
  next : ∀ x < p.numNodes.toNat, bit p m' .nextFrontier x = true ↔
    (∃ v < p.dpuNumNodes.toNat, bit p m .nextFrontier (p.dpuStartNodeIdx.toNat + v) = true ∧ Neighbor p m v x) ∧
      bit p m' .visited x = false

end Memclave.Bfs
