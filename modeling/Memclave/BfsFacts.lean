/-
An iteration of the BFS kernel, for every interleaving of the tasklets
(`iteration_correct`).

In the first phase a tasklet owns the cells of its tiles (`Of`), in every
array: what it finds there is what the iteration began with, and `TileAt`
says how far it is with one of them. In the second phase only the next
frontier changes, by whoever holds the mutex, and bits are only set in it
(`Fixed`, `Sound`): a neighbour once pushed stays (`Pushed`).
-/
import Memclave.Bfs

namespace Memclave.Bfs

open Words Tasklets

/-! ## Bits, halves, addresses -/

theorem isSet_eq (d : Dword) (i : Word) : isSet d i = d.getLsbD i.toNat := by
  rw [isSet, ← BitVec.twoPow_eq, BitVec.and_twoPow]
  cases h : d.getLsbD i.toNat with
  | false => simp
  | true =>
    have hi : i.toNat < 64 := BitVec.lt_of_getLsbD h
    simp only [if_true, bne_iff_ne, ne_eq]
    intro h0
    have := congrArg (fun x : Dword => x.getLsbD i.toNat) h0
    simp [hi] at this

theorem setBit_getLsbD {d : Dword} {i : Word} (hi : i.toNat < 64) (j : Nat) :
    (setBit d i).getLsbD j = (d.getLsbD j || decide (j = i.toNat)) := by
  rw [setBit, ← BitVec.twoPow_eq, BitVec.getLsbD_or, BitVec.getLsbD_twoPow]
  cases d.getLsbD j <;> simp [hi, eq_comm]

theorem half_append (hi lo : Word) (i : Nat) : half (hi ++ lo) i = if i = 0 then lo else hi := by
  have hv : (hi ++ lo).toNat = 2 ^ 32 * hi.toNat + lo.toNat := by
    rw [BitVec.toNat_append, ← Nat.shiftLeft_add_eq_or_of_lt lo.isLt, Nat.shiftLeft_eq, Nat.mul_comm]
  have hl := lo.isLt
  have hh := hi.isLt
  unfold half
  split
  next => exact word_ext (by rw [BitVec.toNat_setWidth, hv]; omega)
  next => exact word_ext (by rw [BitVec.toNat_setWidth, BitVec.toNat_ushiftRight, hv, Nat.shiftRight_eq_div_pow]; omega)

theorem half_setHalf {d : Dword} {v : Word} {i j : Nat} (hi : i < 2) (hj : j < 2) :
    half (setHalf d i v) j = if j = i then v else half d j := by
  unfold setHalf
  split
  next h0 =>
    rw [half_append, h0]
    split
    next => rfl
    next => rw [show j = 1 by omega]
  next h0 =>
    obtain rfl : i = 1 := by omega
    rw [half_append]
    by_cases h : j = 0
    · simp [h]
    · simp [show j = 1 by omega]

/-- Where `load8B` and `store8B` find a word. -/
theorem address8 {ptr idx : Word} (ha : 8 ∣ ptr.toNat) (hf : ptr.toNat + 8 * idx.toNat < 2 ^ 32) :
    (ptr + idx * 8).toNat / 8 = ptr.toNat / 8 + idx.toNat := by
  rw [BitVec.toNat_add, BitVec.toNat_mul, show (8 : Word).toNat = 8 from rfl]
  omega

/-- Where `load4B` and `store4B` find a word, and which half of it. -/
theorem address4 {ptr idx : Word} (ha : 8 ∣ ptr.toNat) (hf : ptr.toNat + 4 * idx.toNat < 2 ^ 32) :
    (ptr + idx * 4 - (ptr + idx * 4) % 8).toNat / 8 = ptr.toNat / 8 + idx.toNat / 2 ∧
      ((ptr + idx * 4) % 8 / 4).toNat = idx.toNat % 2 := by
  have he : (ptr + idx * 4).toNat = ptr.toNat + 4 * idx.toNat := by
    rw [BitVec.toNat_add, BitVec.toNat_mul, show (4 : Word).toNat = 4 from rfl]
    omega
  have ho : ((ptr + idx * 4) % 8).toNat = (ptr.toNat + 4 * idx.toNat) % 8 := by
    rw [BitVec.toNat_umod, he, show (8 : Word).toNat = 8 from rfl]
  refine ⟨?_, ?_⟩
  · rw [BitVec.toNat_sub, he, ho]
    omega
  · rw [BitVec.toNat_udiv, ho, show (4 : Word).toNat = 4 from rfl]
    omega

variable {p : DPUParams} {edges : Nat} {m0 : Nat → Dword}

/-! ## Tiles -/

/-- What the numbers of a partition come to. -/
structure Partition.Numbers (p : DPUParams) : Prop where
  nodes : p.numNodes.toNat = 64 * p.globalWords.toNat
  localNodes : p.dpuNumNodes.toNat = 64 * p.numTilesLocal.toNat
  start : p.dpuStartNodeIdx.toNat = 64 * p.startTileIdx.toNat
  within : p.startTileIdx.toNat + p.numTilesLocal.toNat ≤ p.globalWords.toNat
  small : p.globalWords.toNat < 2 ^ 26

theorem Partition.numbers (h : Partition p edges m0) : Partition.Numbers p := by
  have hn := h.nodes
  have hl := h.localNodes
  have hs := h.start
  have hw := h.within
  have hb := p.numNodes.isLt
  have h64 : (64 : Word).toNat = 64 := rfl
  constructor <;> simp only [DPUParams.globalWords, DPUParams.numTilesLocal, DPUParams.startTileIdx, BitVec.toNat_udiv, h64] <;>
    omega

/-- An array has a cell with this index. -/
def Buf.Has (p : DPUParams) (edges : Nat) (a : Buf) (i : Nat) : Prop := 8 * i < a.bytes p edges

/-- The arrays do not share a cell. -/
theorem Partition.cell_ne (h : Partition p edges m0) {a b : Buf} {i j : Nat} (hab : a ≠ b) (hi : a.Has p edges i)
    (hj : b.Has p edges j) : a.cell p i ≠ b.cell p j := by
  intro he
  have ha := h.aligned a
  have hb := h.aligned b
  unfold Buf.cell at he
  unfold Buf.Has at hi hj
  exact h.disjoint a b hab (a.base p + 8 * i) (by omega) (by omega) ⟨by omega, by omega⟩

theorem cell_inj {a : Buf} {i j : Nat} (h : a.cell p i = a.cell p j) : i = j := Nat.add_left_cancel h

section

variable (hp : Partition p edges m0) {c : Nat}

include hp

theorem has_visited (hc : c < p.globalWords.toNat) : Buf.visited.Has p edges c := by
  have := hp.numbers.nodes
  simp only [Buf.Has, Buf.bytes]
  omega

theorem has_next (hc : c < p.globalWords.toNat) : Buf.nextFrontier.Has p edges c := has_visited hp hc

theorem has_current {i : Nat} (hi : i < p.numTilesLocal.toNat) : Buf.currentFrontier.Has p edges i := by
  have := hp.numbers.localNodes
  simp only [Buf.Has, Buf.bytes]
  omega

theorem has_level {v : Nat} (hv : v < p.dpuNumNodes.toNat) : Buf.nodeLevel.Has p edges (v / 2) := by
  have := hp.numbers.localNodes
  simp only [Buf.Has, Buf.bytes]
  omega

theorem has_ptrs {v : Nat} (hv : v ≤ p.dpuNumNodes.toNat) : Buf.nodePtrs.Has p edges (v / 2) := by
  have := hp.numbers.localNodes
  simp only [Buf.Has, Buf.bytes]
  omega

omit hp in
theorem Buf.Has.inside (hp : Partition p edges m0) {a : Buf} {i : Nat} (h : a.Has p edges i) : a.base p + 8 * i + 8 ≤ 2 ^ 32 := by
  have ha := hp.aligned a
  have hf := hp.fits a
  unfold Buf.Has at h
  omega

theorem load8B_at (a : Buf) {ptr idx : Word} (ha : ptr.toNat = a.base p) (h : a.Has p edges idx.toNat) :
    load8B ptr idx = .read fun s => s.mram (a.cell p idx.toNat) := by
  have hin := h.inside hp
  have hal := hp.aligned a
  rw [load8B, address8 (by rwa [ha]) (by omega), ha, Buf.cell]

theorem store8B_at (a : Buf) {ptr idx : Word} (v : Dword) (ha : ptr.toNat = a.base p) (h : a.Has p edges idx.toNat) :
    store8B v ptr idx = mramWrite (a.cell p idx.toNat) v := by
  have hin := h.inside hp
  have hal := hp.aligned a
  rw [store8B, address8 (by rwa [ha]) (by omega), ha, Buf.cell]

theorem load4B_at (a : Buf) {ptr idx : Word} (ha : ptr.toNat = a.base p) (h : a.Has p edges (idx.toNat / 2)) :
    load4B ptr idx = (do
      let cache_w ← Prog.read fun s => s.mram (a.cell p (idx.toNat / 2))
      pure (half cache_w (idx.toNat % 2))) := by
  have hin := h.inside hp
  have hal := hp.aligned a
  obtain ⟨hblock, hoff⟩ := @address4 ptr idx (by rwa [ha]) (by omega)
  rw [load4B, hblock, hoff, ha, Buf.cell]

theorem store4B_at (a : Buf) {ptr idx : Word} (v : Word) (ha : ptr.toNat = a.base p) (h : a.Has p edges (idx.toNat / 2)) :
    store4B v ptr idx = (do
      let cache_w ← Prog.read fun s => s.mram (a.cell p (idx.toNat / 2))
      mramWrite (a.cell p (idx.toNat / 2)) (setHalf cache_w (idx.toNat % 2) v)) := by
  have hin := h.inside hp
  have hal := hp.aligned a
  obtain ⟨hblock, hoff⟩ := @address4 ptr idx (by rwa [ha]) (by omega)
  rw [store4B, hblock, hoff, ha, Buf.cell]

/-- A write to one array, seen from another one. -/
theorem update_cell {a b : Buf} {i j : Nat} (m : Nat → Dword) (v : Dword) (hab : a ≠ b) (hi : a.Has p edges i)
    (hj : b.Has p edges j) : Function.update m (a.cell p i) v (b.cell p j) = m (b.cell p j) :=
  Function.update_of_ne (hp.cell_ne hab hi hj).symm v m

end

/-- The tile that a cell of an array belongs to. -/
def tileOf (p : DPUParams) : Buf → Nat → Option Nat
  | .nodePtrs, _ => none
  | .neighborIdxs, _ => none
  | .nodeLevel, i => some (p.startTileIdx.toNat + i / 32)
  | .visited, i => some i
  | .currentFrontier, i => some (p.startTileIdx.toNat + i)
  | .nextFrontier, i => some i

/-- The cells of a tile. -/
def Of (p : DPUParams) (edges c k : Nat) : Prop :=
  ∃ (a : Buf) (i : Nat), a.Has p edges i ∧ tileOf p a i = some c ∧ k = a.cell p i

theorem Of.unique (h : Partition p edges m0) {c c' k : Nat} (hc : Of p edges c k) (hc' : Of p edges c' k) : c = c' := by
  obtain ⟨a, i, hi, ht, rfl⟩ := hc
  obtain ⟨b, j, hj, ht', he⟩ := hc'
  by_cases hab : a = b
  · subst hab
    rw [cell_inj he] at ht
    exact Option.some.inj (ht.symm.trans ht')
  · exact absurd he (h.cell_ne hab hi hj)

/-- How far tile `c` is: `stage` of its three bitmaps are written, and the
levels of its first `j` nodes. -/
structure TileAt (p : DPUParams) (m0 : Nat → Dword) (c stage j : Nat) (m : Nat → Dword) : Prop where
  visited : m (Buf.visited.cell p c) =
    if 1 ≤ stage then m0 (Buf.visited.cell p c) ||| m0 (Buf.nextFrontier.cell p c) else m0 (Buf.visited.cell p c)
  next : m (Buf.nextFrontier.cell p c) = if 2 ≤ stage then 0 else m0 (Buf.nextFrontier.cell p c)
  current : ∀ i < p.numTilesLocal.toNat, p.startTileIdx.toNat + i = c → m (Buf.currentFrontier.cell p i) =
    if 3 ≤ stage then m0 (Buf.nextFrontier.cell p c) else m0 (Buf.currentFrontier.cell p i)
  level : ∀ v < p.dpuNumNodes.toNat, p.startTileIdx.toNat + v / 64 = c → word p m .nodeLevel v =
    if (m0 (Buf.nextFrontier.cell p c)).getLsbD (v % 64) = true ∧ v % 64 < j then p.level else word p m0 .nodeLevel v

section

variable (hp : Partition p edges m0) {c : Nat} {m m' : Nat → Dword}

include hp

theorem Of.visited (hc : c < p.globalWords.toNat) : Of p edges c (Buf.visited.cell p c) :=
  ⟨.visited, c, has_visited hp hc, rfl, rfl⟩

theorem Of.next (hc : c < p.globalWords.toNat) : Of p edges c (Buf.nextFrontier.cell p c) :=
  ⟨.nextFrontier, c, has_next hp hc, rfl, rfl⟩

theorem Of.current {i : Nat} (hi : i < p.numTilesLocal.toNat) (hc : p.startTileIdx.toNat + i = c) :
    Of p edges c (Buf.currentFrontier.cell p i) := ⟨.currentFrontier, i, has_current hp hi, by rw [tileOf, hc], rfl⟩

theorem Of.level {v : Nat} (hv : v < p.dpuNumNodes.toNat) (hc : p.startTileIdx.toNat + v / 64 = c) :
    Of p edges c (Buf.nodeLevel.cell p (v / 2)) :=
  ⟨.nodeLevel, v / 2, has_level hp hv, by rw [tileOf, Nat.div_div_eq_div_mul, hc], rfl⟩

theorem TileAt.congr {stage j : Nat} (hc : c < p.globalWords.toNat) (h : ∀ k, Of p edges c k → m' k = m k)
    (ht : TileAt p m0 c stage j m) : TileAt p m0 c stage j m' where
  visited := by rw [h _ (Of.visited hp hc), ht.visited]
  next := by rw [h _ (Of.next hp hc), ht.next]
  current i hi hic := by rw [h _ (Of.current hp hi hic), ht.current i hi hic]
  level v hv hvc := by rw [word, h _ (Of.level hp hv hvc), ← word, ht.level v hv hvc]

theorem TileAt.init (hc : c < p.globalWords.toNat) (h : ∀ k, Of p edges c k → m k = m0 k) : TileAt p m0 c 0 0 m :=
  TileAt.congr hp hc h ⟨by simp, by simp, by simp, by simp⟩

omit hp in
/-- A tile with no node in the frontier is not written. -/
theorem TileAt.empty (h : TileAt p m0 c 0 0 m) (h0 : m0 (Buf.nextFrontier.cell p c) = 0) : TileAt p m0 c 2 0 m where
  visited := by rw [h.visited, h0]; simp
  next := by rw [h.next, h0]; simp
  current i hi hic := by rw [h.current i hi hic]; simp
  level := h.level

theorem TileAt.writeVisited (hc : c < p.globalWords.toNat) (h : TileAt p m0 c 0 0 m) :
    TileAt p m0 c 1 0 (Function.update m (Buf.visited.cell p c)
      (m0 (Buf.visited.cell p c) ||| m0 (Buf.nextFrontier.cell p c))) := by
  have hv := has_visited hp hc
  constructor
  · rw [Function.update_self]
    simp
  · rw [update_cell hp m _ (by simp) hv (has_next hp hc), h.next]
    simp
  · intro i hi hic
    rw [update_cell hp m _ (by simp) hv (has_current hp hi), h.current i hi hic]
    simp
  · intro v hvl hvc
    rw [word, update_cell hp m _ (by simp) hv (has_level hp hvl), ← word, h.level v hvl hvc]

theorem TileAt.writeNext (hc : c < p.globalWords.toNat) (h : TileAt p m0 c 1 0 m) :
    TileAt p m0 c 2 0 (Function.update m (Buf.nextFrontier.cell p c) 0) := by
  have hn := has_next hp hc
  constructor
  · rw [update_cell hp m _ (by simp) hn (has_visited hp hc), h.visited]
    simp
  · rw [Function.update_self]
    simp
  · intro i hi hic
    rw [update_cell hp m _ (by simp) hn (has_current hp hi), h.current i hi hic]
    simp
  · intro v hvl hvc
    rw [word, update_cell hp m _ (by simp) hn (has_level hp hvl), ← word, h.level v hvl hvc]

theorem TileAt.writeCurrent {i : Nat} (hi : i < p.numTilesLocal.toNat) (hic : p.startTileIdx.toNat + i = c)
    (h : TileAt p m0 c 2 0 m) :
    TileAt p m0 c 3 0 (Function.update m (Buf.currentFrontier.cell p i) (m0 (Buf.nextFrontier.cell p c))) := by
  have hc : c < p.globalWords.toNat := by
    have := hp.numbers.within
    omega
  have hcur := has_current hp hi
  constructor
  · rw [update_cell hp m _ (by simp) hcur (has_visited hp hc), h.visited]
    simp
  · rw [update_cell hp m _ (by simp) hcur (has_next hp hc), h.next]
    simp
  · intro j hj hjc
    rw [show j = i by omega, Function.update_self]
    simp
  · intro v hvl hvc
    rw [word, update_cell hp m _ (by simp) hcur (has_level hp hvl), ← word, h.level v hvl hvc]

/-- Another partition's tile. -/
theorem TileAt.foreign (hc : ¬ (p.startTileIdx.toNat ≤ c ∧ c < p.startTileIdx.toNat + p.numTilesLocal.toNat))
    (h : TileAt p m0 c 2 0 m) : TileAt p m0 c 3 64 m := by
  have hn := hp.numbers.localNodes
  exact ⟨h.visited, h.next, fun i hi hic => absurd hc (by omega), fun v hv hvc => absurd hc (by omega)⟩

omit hp in
/-- No node of the tile is in the frontier. -/
theorem TileAt.noLevels (h : TileAt p m0 c 3 0 m) (h0 : m0 (Buf.nextFrontier.cell p c) = 0) : TileAt p m0 c 3 64 m where
  visited := h.visited
  next := h.next
  current := h.current
  level v hv hvc := by rw [h.level v hv hvc, h0]; simp

omit hp in
theorem TileAt.skipLevel {j : Nat} (h : TileAt p m0 c 3 j m) (hb : (m0 (Buf.nextFrontier.cell p c)).getLsbD j = false) :
    TileAt p m0 c 3 (j + 1) m where
  visited := h.visited
  next := h.next
  current := h.current
  level v hv hvc := by
    rw [h.level v hv hvc]
    refine if_congr (and_congr_right fun hv' => ⟨fun hj => by omega, fun hj => ?_⟩) rfl rfl
    rcases Nat.lt_succ_iff_lt_or_eq.mp hj with hj | rfl
    · exact hj
    · rw [hb] at hv'
      cases hv'

theorem TileAt.writeLevel {i j : Nat} (hi : i < p.numTilesLocal.toNat) (hic : p.startTileIdx.toNat + i = c) (hj : j < 64)
    (h : TileAt p m0 c 3 j m) (hb : (m0 (Buf.nextFrontier.cell p c)).getLsbD j = true) :
    TileAt p m0 c 3 (j + 1) (Function.update m (Buf.nodeLevel.cell p ((64 * i + j) / 2))
      (setHalf (m (Buf.nodeLevel.cell p ((64 * i + j) / 2))) ((64 * i + j) % 2) p.level)) := by
  have hw := hp.numbers.within
  have hln := hp.numbers.localNodes
  have hc : c < p.globalWords.toNat := by omega
  have hl := has_level hp (show 64 * i + j < p.dpuNumNodes.toNat by omega)
  constructor
  · rw [update_cell hp m _ (by simp) hl (has_visited hp hc), h.visited]
  · rw [update_cell hp m _ (by simp) hl (has_next hp hc), h.next]
  · intro i' hi' hic'
    rw [update_cell hp m _ (by simp) hl (has_current hp hi'), h.current i' hi' hic']
  · intro v hv hvc
    have hv64 : v / 64 = i := by omega
    by_cases hvj : v = 64 * i + j
    · subst hvj
      rw [word, Function.update_self, half_setHalf (by omega) (by omega), if_pos rfl, if_pos]
      exact ⟨by rw [show (64 * i + j) % 64 = j by omega]; exact hb, by omega⟩
    · have hword : word p (Function.update m (Buf.nodeLevel.cell p ((64 * i + j) / 2))
          (setHalf (m (Buf.nodeLevel.cell p ((64 * i + j) / 2))) ((64 * i + j) % 2) p.level)) .nodeLevel v =
          word p m .nodeLevel v := by
        unfold word
        by_cases h2 : v / 2 = (64 * i + j) / 2
        · rw [h2, Function.update_self, half_setHalf (by omega) (by omega), if_neg (by omega)]
        · rw [Function.update_of_ne fun he => h2 (cell_inj he)]
      rw [hword, h.level v hv hvc]
      exact if_congr (and_congr_right fun _ => by omega) rfl rfl

end

/-! ## The protocol -/

section

variable (p : DPUParams) (edges : Nat) (m0 : Nat → Dword)

/-- In the first phase a tasklet changes the cells of its own tiles. -/
structure GuarTiles (t : Nat) (s s' : St) : Prop where
  cells : ∀ k, (∀ c < p.globalWords.toNat, Of p edges c k → c % 16 ≠ t) → s'.mram k = s.mram k
  holder : s'.holder = s.holder

structure BringsTiles (t : Nat) (s : St) : Prop where
  tiles : ∀ c < p.globalWords.toNat, c % 16 = t → TileAt p m0 c 3 64 s.mram
  rest : ∀ k, (∀ c < p.globalWords.toNat, ¬ Of p edges c k) → s.mram k = m0 k
  holder : s.holder = none

/-- Not in the visited nodes that the iteration ends with. -/
def Fresh (x : Nat) : Prop := bit p m0 .visited x = false ∧ bit p m0 .nextFrontier x = false

/-- A node for the next frontier. -/
def Target (x : Nat) : Prop :=
  (∃ v < p.dpuNumNodes.toNat, bit p m0 .nextFrontier (p.dpuStartNodeIdx.toNat + v) = true ∧ Neighbor p m0 v x) ∧ Fresh p m0 x

/-- In the second phase it sets bits of the next frontier, with the mutex. -/
structure GuarPush (t : Nat) (s s' : St) : Prop where
  rest : ∀ k, (∀ c < p.globalWords.toNat, k ≠ Buf.nextFrontier.cell p c) → s'.mram k = s.mram k
  grows : ∀ x, bit p s.mram .nextFrontier x = true → bit p s'.mram .nextFrontier x = true
  sound : ∀ x, bit p s'.mram .nextFrontier x = true → bit p s.mram .nextFrontier x = true ∨ Target p m0 x
  locked : s.holder ≠ some t → s'.mram = s.mram ∧ (s'.holder = s.holder ∨ s.holder = none)
  holder : s'.holder = s.holder ∨ s'.holder = none ∨ s'.holder = some t

/-- All but the next frontier is as the first phase left it. -/
def Fixed (m : Nat → Dword) : Prop :=
  ∃ m1, (∀ c < p.globalWords.toNat, TileAt p m0 c 3 64 m1) ∧
    (∀ k, (∀ c < p.globalWords.toNat, ¬ Of p edges c k) → m1 k = m0 k) ∧
    ∀ k, (∀ c < p.globalWords.toNat, k ≠ Buf.nextFrontier.cell p c) → m k = m1 k

/-- The second phase, after the pushes of the edges `D`. -/
structure Pushed (D : Nat → Prop) (m : Nat → Dword) : Prop where
  fixed : Fixed p edges m0 m
  sound : ∀ x < p.numNodes.toNat, bit p m .nextFrontier x = true → Target p m0 x
  pushed : ∀ i, D i → Fresh p m0 (word p m0 .neighborIdxs i).toNat →
    bit p m .nextFrontier (word p m0 .neighborIdxs i).toNat = true

/-- Tasklet `t` outside the mutex. -/
structure Outside (t : Nat) (D : Nat → Prop) (s : St) : Prop where
  mram : Pushed p edges m0 D s.mram
  holder : ∀ u, s.holder = some u → u < 16 ∧ u ≠ t

/-- Node `x`, bit `i` of its tile, in the next frontier. -/
def setNext (m : Nat → Dword) (x : Nat) (i : Word) : Nat → Dword :=
  Function.update m (Buf.nextFrontier.cell p (x / 64)) (setBit (m (Buf.nextFrontier.cell p (x / 64))) i)

/-- The edges of the local frontier nodes from `a` up to `b`. -/
def EdgesOf (a b i : Nat) : Prop :=
  ∃ v, a ≤ v ∧ v < b ∧ bit p m0 .nextFrontier (p.dpuStartNodeIdx.toNat + v) = true ∧ row p m0 v ≤ i ∧ i < row p m0 (v + 1)

def first (t : Nat) : Nat := (taskletNodesStart p t).toNat

def protocol : Protocol St where
  N := NR_TASKLETS
  ok := free
  guar n t s s' :=
    match n with
    | 0 => GuarTiles p edges t s s'
    | 1 => GuarPush p m0 t s s'
    | _ => False
  brings n t s :=
    match n with
    | 0 => BringsTiles p edges m0 t s
    | 1 => Outside p edges m0 t (EdgesOf p m0 (taskletNodesStart p t).toNat (taskletNodesStart p t + taskletNumNodes p t).toNat) s
    | _ => False
  busy t s := s.holder = some t

end

/-- A tasklet at its end. -/
structure Left (p : DPUParams) (m0 : Nat → Dword) (n t : Nat) (s : St) : Prop where
  phase : n = 2
  away : s.holder ≠ some t
  result : Result p m0 s.mram

/-! ## The first phase -/

/-- A cell that only tasklet `t` changes. -/
def Mine (p : DPUParams) (edges t k : Nat) : Prop := ∀ c < p.globalWords.toNat, Of p edges c k → c % 16 = t

/-- One tile on the way, and all else as before. -/
structure OnTile (p : DPUParams) (edges : Nat) (m0 m : Nat → Dword) (t c stage j : Nat) (s : St) : Prop where
  at_ : TileAt p m0 c stage j s.mram
  frame : ∀ k, Mine p edges t k → ¬ Of p edges c k → s.mram k = m k
  holder : s.holder = none

/-- Its tiles below `b` are done. -/
structure Tiling (p : DPUParams) (edges : Nat) (m0 : Nat → Dword) (t b : Nat) (s : St) : Prop where
  done : ∀ c < p.globalWords.toNat, c % 16 = t → c < b → TileAt p m0 c 3 64 s.mram
  toDo : ∀ c < p.globalWords.toNat, c % 16 = t → b ≤ c → TileAt p m0 c 0 0 s.mram
  rest : ∀ k, (∀ c < p.globalWords.toNat, ¬ Of p edges c k) → s.mram k = m0 k
  holder : s.holder = none

section

variable (hp : Partition p edges m0) {t c stage j : Nat} {m : Nat → Dword} {s : St}

include hp

theorem mine_of (ht : c % 16 = t) {k : Nat} (h : Of p edges c k) : Mine p edges t k :=
  fun c' _ h' => by rw [h'.unique hp h, ht]

omit hp in
theorem mine_stable {k : Nat} {d : Dword} (hk : Mine p edges t k) :
    (protocol p edges m0).Stable t 0 fun s => s.mram k = d := by
  intro s s' hs ⟨u, _, hu, hg⟩
  rw [← hs]
  refine GuarTiles.cells hg k fun c' hc' ho => ?_
  rw [hk c' hc' ho]
  exact Ne.symm hu

omit hp in
theorem holder_stable : (protocol p edges m0).Stable t 0 fun s => s.holder = none :=
  fun _ _ hs ⟨_, _, _, hg⟩ => (GuarTiles.holder hg).trans hs

theorem OnTile.stable (ht : c % 16 = t) (hc : c < p.globalWords.toNat) :
    (protocol p edges m0).Stable t 0 (OnTile p edges m0 m t c stage j) := by
  intro s s' h ho
  have hsame : ∀ k, Mine p edges t k → s'.mram k = s.mram k := fun k hk => mine_stable hk s s' rfl ho
  exact ⟨h.at_.congr hp hc fun k hk => hsame k (mine_of hp ht hk), fun k hk hn => by rw [hsame k hk, h.frame k hk hn],
    holder_stable s s' h.holder ho⟩

omit hp in
theorem OnTile.write (h : OnTile p edges m0 m t c stage j s) {k : Nat} {v : Dword} {stage' j' : Nat} (hk : Of p edges c k)
    (ht : TileAt p m0 c stage' j' (Function.update s.mram k v)) :
    OnTile p edges m0 m t c stage' j' { s with mram := Function.update s.mram k v } where
  at_ := ht
  frame k' hm hn := by
    rw [← h.frame k' hm hn]
    exact Function.update_of_ne (by rintro rfl; exact hn hk) _ _
  holder := h.holder

omit hp in
theorem guarTiles_write (hc : c < p.globalWords.toNat) (ht : c % 16 = t) {k : Nat} {v : Dword} (hk : Of p edges c k) :
    GuarTiles p edges t s { s with mram := Function.update s.mram k v } :=
  ⟨fun _ hk' => Function.update_of_ne (by rintro rfl; exact hk' c hc hk ht) _ _, rfl⟩

theorem setLevels_safe {tile : Word} (htile : tile.toNat < p.globalWords.toNat) (ht : tile.toNat % 16 = t)
    (hloc : p.startTileIdx.toNat ≤ tile.toNat ∧ tile.toNat < p.startTileIdx.toNat + p.numTilesLocal.toNat)
    (hs : OnTile p edges m0 m t tile.toNat 3 0 s) :
    (protocol p edges m0).Safe t (fun n' _ s => n' = 0 ∧ OnTile p edges m0 m t tile.toNat 3 64 s)
      (setLevels p tile (m0 (Buf.nextFrontier.cell p tile.toNat))) 0 s := by
  have hn := hp.numbers
  have hstart := hn.start
  have hsmall := hn.small
  have hlocal := hn.localNodes
  have hwithin := hn.within
  have hfrom : (tile * 64).toNat = 64 * tile.toNat := by
    rw [BitVec.toNat_mul, show (64 : Word).toNat = 64 from rfl]
    omega
  have hto : ((tile + 1) * 64).toNat = 64 * tile.toNat + 64 := by
    rw [BitVec.toNat_mul, BitVec.toNat_add, show (64 : Word).toNat = 64 from rfl, show (1 : Word).toNat = 1 from rfl]
    omega
  have hpasses : Prog.passes (tile * 64).toNat ((tile + 1) * 64).toNat 1 = 64 := by
    unfold Prog.passes
    omega
  have hst : ∀ j, (protocol p edges m0).Stable t 0 (OnTile p edges m0 m t tile.toNat 3 j) := fun j => OnTile.stable hp ht htile
  refine Protocol.Safe.last (Protocol.Safe.loop (fun j => OnTile p edges m0 m t tile.toNat 3 j) hst hs ?_ ?_)
  · intro j hj s hs
    rw [hpasses] at hj
    rw [hfrom, Nat.one_mul]
    have hnode : (BitVec.ofNat 32 (64 * tile.toNat + j)).toNat = 64 * tile.toNat + j := by
      rw [BitVec.toNat_ofNat]
      omega
    have hmod : (BitVec.ofNat 32 (64 * tile.toNat + j) % 64).toNat = j := by
      rw [BitVec.toNat_umod, hnode, show (64 : Word).toNat = 64 from rfl]
      omega
    have hidx : (BitVec.ofNat 32 (64 * tile.toNat + j) - p.dpuStartNodeIdx).toNat =
        64 * (tile.toNat - p.startTileIdx.toNat) + j := by
      rw [BitVec.toNat_sub, hnode]
      omega
    refine Protocol.Safe.last (Protocol.Safe.when (fun hset => ?_) fun hset => ?_)
    · rw [isSet_eq, hmod] at hset
      rw [store4B_at hp .nodeLevel p.level rfl (by rw [hidx]; exact has_level hp (by omega)), hidx]
      have hof := Of.level hp (c := tile.toNat) (v := 64 * (tile.toNat - p.startTileIdx.toNat) + j) (by omega) (by omega)
      refine Protocol.Safe.read _ (hst j) hs fun s hs => ?_
      have hst' := (hst j).and (mine_stable (d := s.mram (Buf.nodeLevel.cell p
        ((64 * (tile.toNat - p.startTileIdx.toNat) + j) / 2))) (mine_of hp ht hof))
      refine Protocol.Safe.last (Protocol.Safe.write _ hst' ⟨hs, rfl⟩ fun s' hs' _ => ?_)
      refine ⟨guarTiles_write htile ht hof, ?_⟩
      have hnext := hs'.1.write (v := setHalf _ _ _) hof (hs'.1.at_.writeLevel hp (i := tile.toNat - p.startTileIdx.toNat)
        (by omega) (by omega) (by omega) hset)
      rw [hs'.2] at hnext
      refine Protocol.Safe.ret _ (hst (j + 1)) hnext fun s hs => ?_
      exact Protocol.Safe.ret _ (hst (j + 1)) hs fun s hs => ⟨rfl, hs⟩
    · rw [isSet_eq, hmod, Bool.not_eq_true] at hset
      exact Protocol.Safe.ret _ (hst j) hs fun s hs => ⟨rfl, hs.at_.skipLevel hset, hs.frame, hs.holder⟩
  · intro s hs
    rw [hpasses] at hs
    exact Protocol.Safe.ret _ (hst 64) hs fun s hs => ⟨rfl, hs⟩

/-- A tile's node is local. -/
theorem local_tile (tile : Word) : (p.startTileIdx ≤ tile ∧ tile < p.startTileIdx + p.numTilesLocal) ↔
    p.startTileIdx.toNat ≤ tile.toNat ∧ tile.toNat < p.startTileIdx.toNat + p.numTilesLocal.toNat := by
  have hwithin := hp.numbers.within
  have hsmall := hp.numbers.small
  rw [BitVec.le_def, BitVec.lt_def, BitVec.toNat_add, Nat.mod_eq_of_lt (by omega)]

theorem takeTile_safe {tile : Word} (htile : tile.toNat < p.globalWords.toNat) (ht : tile.toNat % 16 = t)
    (hs : OnTile p edges m0 m t tile.toNat 0 0 s) :
    (protocol p edges m0).Safe t (fun n' _ s => n' = 0 ∧ OnTile p edges m0 m t tile.toNat 3 64 s) (takeTile p tile) 0 s := by
  have hst : ∀ stage j, (protocol p edges m0).Stable t 0 (OnTile p edges m0 m t tile.toNat stage j) :=
    fun stage j => OnTile.stable hp ht htile
  have hvis := has_visited hp htile
  have hnext := has_next hp htile
  rw [takeTile, load8B_at hp .nextFrontier rfl hnext]
  refine Protocol.Safe.read _ (hst 0 0) hs fun s hs => ?_
  have hnf := hs.at_.next
  rw [if_neg (by omega)] at hnf
  rw [hnf]
  -- from where the bitmaps of all nodes are written
  have hlocal : ∀ s, OnTile p edges m0 m t tile.toNat 2 0 s →
      (protocol p edges m0).Safe t (fun n' _ s => n' = 0 ∧ OnTile p edges m0 m t tile.toNat 3 64 s)
        (Prog.when (p.startTileIdx ≤ tile ∧ tile < p.startTileIdx + p.numTilesLocal) do
          store8B (m0 (Buf.nextFrontier.cell p tile.toNat)) p.dpuCurrentFrontier_m (tile - p.startTileIdx)
          Prog.when (m0 (Buf.nextFrontier.cell p tile.toNat) ≠ 0)
            (setLevels p tile (m0 (Buf.nextFrontier.cell p tile.toNat)))) 0 s := by
    intro s hs
    refine Protocol.Safe.last (Protocol.Safe.when (fun hloc => ?_) fun hloc => ?_)
    · rw [local_tile hp] at hloc
      have hidx : (tile - p.startTileIdx).toNat = tile.toNat - p.startTileIdx.toNat := by
        rw [BitVec.toNat_sub]
        have := tile.isLt
        omega
      have hi : tile.toNat - p.startTileIdx.toNat < p.numTilesLocal.toNat := by omega
      have hic : p.startTileIdx.toNat + (tile.toNat - p.startTileIdx.toNat) = tile.toNat := by omega
      rw [store8B_at hp .currentFrontier _ rfl (by rw [hidx]; exact has_current hp hi), hidx]
      refine Protocol.Safe.write _ (hst 2 0) hs fun s hs _ => ⟨guarTiles_write htile ht (Of.current hp hi hic), ?_⟩
      have hs := hs.write (Of.current hp hi hic) (hs.at_.writeCurrent hp hi hic)
      refine Protocol.Safe.last (Protocol.Safe.when (fun hne => ?_) fun hne => ?_)
      · refine (setLevels_safe hp htile ht hloc hs).mono fun n' _ s ⟨hn, hs⟩ => ?_
        rw [hn]
        refine Protocol.Safe.ret _ (hst 3 64) hs fun s hs => Protocol.Safe.ret _ (hst 3 64) hs fun s hs => ⟨rfl, hs⟩
      · have hs := (⟨hs.at_.noLevels (not_not.mp hne), hs.frame, hs.holder⟩ : OnTile p edges m0 m t tile.toNat 3 64 _)
        refine Protocol.Safe.ret _ (hst 3 64) hs fun s hs => Protocol.Safe.ret _ (hst 3 64) hs fun s hs => ⟨rfl, hs⟩
    · rw [local_tile hp] at hloc
      exact Protocol.Safe.ret _ (hst 2 0) hs fun s hs => ⟨rfl, hs.at_.foreign hp hloc, hs.frame, hs.holder⟩
  refine Protocol.Safe.when (fun hne => ?_) fun hne => hlocal s ⟨hs.at_.empty (not_not.mp hne), hs.frame, hs.holder⟩
  rw [load8B_at hp .visited rfl hvis]
  refine Protocol.Safe.read _ (hst 0 0) hs fun s hs => ?_
  have hv := hs.at_.visited
  rw [if_neg (by omega)] at hv
  rw [hv, store8B_at hp .visited _ rfl hvis]
  refine Protocol.Safe.write _ (hst 0 0) hs fun s hs _ => ⟨guarTiles_write htile ht (Of.visited hp htile), ?_⟩
  have hs := hs.write (Of.visited hp htile) (hs.at_.writeVisited hp htile)
  rw [store8B_at hp .nextFrontier _ rfl hnext]
  refine Protocol.Safe.last (Protocol.Safe.write _ (hst 1 0) hs fun s hs _ =>
    ⟨guarTiles_write htile ht (Of.next hp htile), ?_⟩)
  have hs := hs.write (Of.next hp htile) (hs.at_.writeNext hp htile)
  exact Protocol.Safe.ret _ (hst 2 0) hs fun s hs => hlocal s hs

theorem Tiling.stable (b : Nat) : (protocol p edges m0).Stable t 0 (Tiling p edges m0 t b) := by
  intro s s' h ho
  have hsame : ∀ k, Mine p edges t k → s'.mram k = s.mram k := fun _ hk => mine_stable hk s s' rfl ho
  exact ⟨fun c hc ht hcb => (h.done c hc ht hcb).congr hp hc fun k hk => hsame k (mine_of hp ht hk),
    fun c hc ht hcb => (h.toDo c hc ht hcb).congr hp hc fun k hk => hsame k (mine_of hp ht hk),
    fun k hk => by rw [hsame k fun c hc ho => absurd ho (hk c hc), h.rest k hk], holder_stable s s' h.holder ho⟩

/-- One more tile. -/
theorem Tiling.step {b : Nat} {s' : St} (h : Tiling p edges m0 t b s) (hb : b % 16 = t) (hbw : b < p.globalWords.toNat)
    (h' : OnTile p edges m0 s.mram t b 3 64 s') : Tiling p edges m0 t (b + 16) s' := by
  have hkeep : ∀ c, c % 16 = t → c ≠ b → ∀ k, Of p edges c k → s'.mram k = s.mram k := fun c ht hcb k hk =>
    h'.frame k (mine_of hp ht hk) fun ho => hcb (hk.unique hp ho)
  constructor
  · intro c hc ht hcb
    by_cases he : c = b
    · rw [he]
      exact h'.at_
    · exact (h.done c hc ht (by omega)).congr hp hc (hkeep c ht he)
  · intro c hc ht hcb
    exact (h.toDo c hc ht (by omega)).congr hp hc (hkeep c ht (by omega))
  · intro k hk
    rw [h'.frame k (fun c hc ho => absurd ho (hk c hc)) (hk b hbw), h.rest k hk]
  · exact h'.holder

/-- **The first phase.** -/
theorem tiles_safe {α : Type} {Q : Nat → α → St → Prop} {k : Unit → Prog St α} (ht : t < 16) (hs : s = ⟨m0, none⟩)
    (hk : ∀ s, Tiling p edges m0 t p.globalWords.toNat s → (protocol p edges m0).Safe t Q (k ()) 0 s) :
    (protocol p edges m0).Safe t Q
      (Prog.loop t p.globalWords.toNat NR_TASKLETS (fun tile => takeTile p (BitVec.ofNat 32 tile)) >>= k) 0 s := by
  have hsmall := hp.numbers.small
  have hpasses : ∀ j, j < Prog.passes t p.globalWords.toNat 16 ↔ t + 16 * j < p.globalWords.toNat := fun j => by
    unfold Prog.passes
    omega
  refine Protocol.Safe.loop (fun j => Tiling p edges m0 t (t + 16 * j)) (fun j => Tiling.stable hp _) ?_ ?_ ?_
  · refine ⟨fun c _ hct hcb => by omega, fun c hc _ _ => TileAt.init hp hc fun k _ => by rw [hs], fun k _ => by rw [hs],
      by rw [hs]⟩
  · intro j hj s hs
    have hc := (hpasses j).mp hj
    have htile : (BitVec.ofNat 32 (t + 16 * j)).toNat = t + 16 * j := by
      rw [BitVec.toNat_ofNat]
      omega
    have hct : (t + 16 * j) % 16 = t := by omega
    have hsafe := takeTile_safe hp (t := t) (m := s.mram) (s := s) (by rw [htile]; exact hc) (by rw [htile]; exact hct)
      ⟨by rw [htile]; exact hs.toDo _ hc hct (Nat.le_refl _), fun _ _ _ => rfl, hs.holder⟩
    rw [htile] at hsafe
    exact hsafe.mono fun n' _ s' h' => ⟨h'.1, hs.step hp hct hc h'.2⟩
  · intro s hs
    have hend := (not_congr (hpasses (Prog.passes t p.globalWords.toNat 16))).mp (by omega)
    exact hk s ⟨fun c hc hct _ => hs.done c hc hct (by simp only [NR_TASKLETS]; omega),
      fun c hc _ hcb => by omega, hs.rest, hs.holder⟩

end

/-! ## The second phase -/

section

variable (hp : Partition p edges m0) {t : Nat} {m : Nat → Dword} {s : St} {D : Nat → Prop}

include hp

theorem Fixed.visited (h : Fixed p edges m0 m) {x : Nat} (hx : x < p.numNodes.toNat) :
    bit p m .visited x = (bit p m0 .visited x || bit p m0 .nextFrontier x) := by
  obtain ⟨m1, htiles, -, hsame⟩ := h
  have hn := hp.numbers.nodes
  have hc : x / 64 < p.globalWords.toNat := by omega
  rw [bit, hsame _ fun c hc' => hp.cell_ne (by simp) (has_visited hp hc) (has_next hp hc'), (htiles _ hc).visited]
  simp [bit]

theorem Fixed.current (h : Fixed p edges m0 m) {v : Nat} (hv : v < p.dpuNumNodes.toNat) :
    bit p m .currentFrontier v = bit p m0 .nextFrontier (p.dpuStartNodeIdx.toNat + v) := by
  obtain ⟨m1, htiles, -, hsame⟩ := h
  obtain ⟨-, hln, hst, hw, -⟩ := hp.numbers
  have hi : v / 64 < p.numTilesLocal.toNat := by omega
  rw [bit, hsame _ fun c hc' => hp.cell_ne (by simp) (has_current hp hi) (has_next hp hc'),
    (htiles (p.startTileIdx.toNat + v / 64) (by omega)).current _ hi rfl, if_pos (by omega), bit, hst,
    show (64 * p.startTileIdx.toNat + v) / 64 = p.startTileIdx.toNat + v / 64 by omega,
    show (64 * p.startTileIdx.toNat + v) % 64 = v % 64 by omega]

theorem Fixed.level (h : Fixed p edges m0 m) {v : Nat} (hv : v < p.dpuNumNodes.toNat) : word p m .nodeLevel v =
    if bit p m0 .nextFrontier (p.dpuStartNodeIdx.toNat + v) then p.level else word p m0 .nodeLevel v := by
  obtain ⟨m1, htiles, -, hsame⟩ := h
  obtain ⟨-, hln, hst, hw, -⟩ := hp.numbers
  have hm : word p m .nodeLevel v = word p m1 .nodeLevel v := by
    rw [word, hsame _ fun c hc' => hp.cell_ne (by simp) (has_level hp hv) (has_next hp hc'), ← word]
  rw [hm, (htiles (p.startTileIdx.toNat + v / 64) (by omega)).level v hv rfl, bit, hst,
    show (64 * p.startTileIdx.toNat + v) / 64 = p.startTileIdx.toNat + v / 64 by omega,
    show (64 * p.startTileIdx.toNat + v) % 64 = v % 64 by omega]
  exact if_congr ⟨fun hb => hb.1, fun hb => ⟨hb, by omega⟩⟩ rfl rfl

/-- The graph itself is not written. -/
theorem Fixed.graph (h : Fixed p edges m0 m) {a : Buf} {i : Nat} (ha : a = .nodePtrs ∨ a = .neighborIdxs)
    (hi : a.Has p edges (i / 2)) : word p m a i = word p m0 a i := by
  obtain ⟨m1, -, hrest, hsame⟩ := h
  have hne : ∀ b : Buf, ∀ j, tileOf p b j ≠ none → a ≠ b := by
    rintro b j hb rfl
    rcases ha with rfl | rfl <;> exact hb rfl
  rw [word, hsame _ fun c hc => hp.cell_ne (hne .nextFrontier c (by simp [tileOf])) hi (has_next hp hc), hrest, ← word]
  rintro c - ⟨b, j, hj, htile, he⟩
  exact hp.cell_ne (hne b j (by simp [htile])) hi hj he

omit hp in
theorem Pushed.keep {s' : St} (h : Pushed p edges m0 D s.mram) (hg : GuarPush p m0 t s s') : Pushed p edges m0 D s'.mram where
  fixed := by
    obtain ⟨m1, htiles, hrest, hsame⟩ := h.fixed
    exact ⟨m1, htiles, hrest, fun k hk => by rw [hg.rest k hk, hsame k hk]⟩
  sound x hx hb := by
    cases hg.sound x hb with
    | inl hb => exact h.sound x hx hb
    | inr hb => exact hb
  pushed i hi hf := hg.grows _ (h.pushed i hi hf)

omit hp in
theorem Outside.mono {D' : Nat → Prop} (h : Outside p edges m0 t D s) (hD : ∀ e, D' e → D e) : Outside p edges m0 t D' s :=
  ⟨⟨h.mram.fixed, h.mram.sound, fun e he => h.mram.pushed e (hD e he)⟩, h.holder⟩

omit hp in
theorem Outside.stable : (protocol p edges m0).Stable t 1 (Outside p edges m0 t D) := by
  rintro s s' h ⟨u, hu, hut, hg⟩
  refine ⟨h.mram.keep hg, fun v hv => ?_⟩
  rcases GuarPush.holder hg with he | he | he
  · exact h.holder v (by rwa [← he])
  · rw [he] at hv
    cases hv
  · rw [he] at hv
    cases hv
    exact ⟨hu, hut⟩

omit hp in
/-- Whoever holds the mutex is the only one to write. -/
theorem held_stable : (protocol p edges m0).Stable t 1 fun s => s = ⟨m, some t⟩ := by
  rintro s s' rfl ⟨u, _, hu, hg⟩
  obtain ⟨hm, hhold⟩ := GuarPush.locked hg fun he => hu (Option.some.inj he).symm
  cases hhold with
  | inl hhold =>
    cases s'
    simp_all
  | inr hhold => cases hhold

omit hp in
/-- The mutex is taken and given back without a write. -/
theorem guarPush_holder {o : Option Nat} (h : s.holder = none ∨ s.holder = some t) (ho : o = none ∨ o = some t) :
    GuarPush p m0 t s { s with holder := o } where
  rest _ _ := rfl
  grows _ hb := hb
  sound _ hb := .inl hb
  locked hh := ⟨rfl, .inr (h.resolve_right hh)⟩
  holder := .inr ho

omit hp in
theorem bit_setNext {x y : Nat} {i : Word} (hi : i.toNat = x % 64) :
    bit p (setNext p m x i) .nextFrontier y = (bit p m .nextFrontier y || decide (y = x)) := by
  unfold bit setNext
  by_cases hc : y / 64 = x / 64
  · rw [hc, Function.update_self, setBit_getLsbD (by omega), hi]
    congr 1
    exact decide_eq_decide.mpr ⟨fun h => by omega, fun h => by rw [h]⟩
  · rw [Function.update_of_ne fun he => hc (cell_inj he), decide_eq_false (by rintro rfl; exact hc rfl), Bool.or_false]

theorem guarPush_setNext {x : Nat} (hx : x < p.numNodes.toNat) (ht : Target p m0 x) {i : Word} (hi : i.toNat = x % 64) :
    GuarPush p m0 t ⟨m, some t⟩ ⟨setNext p m x i, some t⟩ where
  rest k hk := Function.update_of_ne (hk _ (by have := hp.numbers.nodes; omega)) _ _
  grows y hy := by
    rw [bit_setNext hi, hy]
    rfl
  sound y hy := by
    rw [bit_setNext hi, Bool.or_eq_true, decide_eq_true_iff] at hy
    rcases hy with hy | rfl
    · exact .inl hy
    · exact .inr ht
  locked hne := absurd rfl hne
  holder := .inl rfl

/-- One more edge. -/
theorem Pushed.setNext {nb : Word} (h : Pushed p edges m0 D m) (hnb : nb.toNat < p.numNodes.toNat)
    (ht : Target p m0 nb.toNat) {i : Word} (hi : i.toNat = nb.toNat % 64) :
    Pushed p edges m0 (fun e => D e ∨ word p m0 .neighborIdxs e = nb) (setNext p m nb.toNat i) := by
  have hkeep := Pushed.keep (s := ⟨m, some 0⟩) h (guarPush_setNext hp hnb ht hi)
  refine ⟨hkeep.fixed, hkeep.sound, fun e he hf => ?_⟩
  cases he with
  | inl he => exact hkeep.pushed e he hf
  | inr he =>
    rw [he, bit_setNext hi]
    simp

theorem pushNeighbor_safe {nb : Word} (hnb : nb.toNat < p.numNodes.toNat) (hfresh : Fresh p m0 nb.toNat → Target p m0 nb.toNat)
    (hs : Outside p edges m0 t D s) :
    (protocol p edges m0).Safe t (fun n' _ s => n' = 1 ∧ Outside p edges m0 t (fun e => D e ∨ word p m0 .neighborIdxs e = nb) s)
      (pushNeighbor p t nb) 1 s := by
  have h64 : (64 : Word).toNat = 64 := rfl
  have htile : (nb / 64).toNat = nb.toNat / 64 := by rw [BitVec.toNat_udiv, h64]
  have hbit : (nb % 64).toNat = nb.toNat % 64 := by rw [BitVec.toNat_umod, h64]
  have hc : (nb / 64).toNat < p.globalWords.toNat := by
    have := hp.numbers.nodes
    omega
  rw [pushNeighbor, load8B_at hp .visited rfl (has_visited hp hc)]
  refine Protocol.Safe.read _ Outside.stable hs fun s hs => ?_
  have hvis : isSet (s.mram (Buf.visited.cell p (nb / 64).toNat)) (nb % 64) = bit p s.mram .visited nb.toNat := by
    rw [isSet_eq, hbit, htile, bit]
  rw [hvis, hs.mram.fixed.visited hp hnb]
  refine Protocol.Safe.last (Protocol.Safe.when (fun hnew => ?_) fun hold => ?_)
  · have hf : Fresh p m0 nb.toNat := by simpa [Fresh] using hnew
    refine Protocol.Safe.awaitWrite _ Outside.stable hs (fun s hs hheld => ?_) fun s hs hfree _ => ?_
    · -- the holder is another tasklet
      obtain ⟨u, hu⟩ := Option.isSome_iff_exists.mp (by simpa [Option.isSome_iff_ne_none] using hheld)
      exact ⟨u, (hs.holder u hu).1, hu, fun ht => absurd rfl (hs.holder t ht).2⟩
    refine ⟨guarPush_holder (.inl (by simpa using hfree)) (.inr rfl), ?_⟩
    -- nothing else happens until the mutex is given back
    rw [load8B_at hp .nextFrontier rfl (has_next hp hc), htile]
    refine Protocol.Safe.read _ held_stable rfl fun s' hs' => ?_
    rw [hs', store8B_at hp .nextFrontier _ rfl (has_next hp hc), htile]
    refine Protocol.Safe.write _ held_stable rfl fun s' hs' _ => ?_
    rw [hs']
    refine ⟨guarPush_setNext hp hnb (hfresh hf) hbit, ?_⟩
    have hs := hs.mram.setNext hp hnb (hfresh hf) hbit
    refine Protocol.Safe.last (Protocol.Safe.write _ held_stable rfl fun s' hs' _ => ?_)
    rw [hs']
    refine ⟨guarPush_holder (.inr rfl) (.inl rfl), ?_⟩
    refine Protocol.Safe.ret _ Outside.stable ⟨hs, fun _ hu => absurd hu (by simp)⟩ fun s hs => ?_
    exact Protocol.Safe.ret _ Outside.stable hs fun s hs => ⟨rfl, hs⟩
  · refine Protocol.Safe.ret _ Outside.stable hs fun s hs =>
      ⟨rfl, ⟨hs.mram.fixed, hs.mram.sound, fun e he hf => ?_⟩, hs.holder⟩
    cases he with
    | inl he => exact hs.mram.pushed e he hf
    | inr he =>
      rw [he] at hf
      obtain ⟨h1, h2⟩ := hf
      simp [h1, h2] at hold

theorem load4B_safe {α : Type} {Q : Nat → α → St → Prop} {k : Word → Prog St α} {a : Buf} {ptr idx : Word}
    (hptr : ptr.toNat = a.base p) (ha : a = .nodePtrs ∨ a = .neighborIdxs) (hi : a.Has p edges (idx.toNat / 2))
    (hs : Outside p edges m0 t D s)
    (hk : ∀ s, Outside p edges m0 t D s → (protocol p edges m0).Safe t Q (k (word p m0 a idx.toNat)) 1 s) :
    (protocol p edges m0).Safe t Q (load4B ptr idx >>= k) 1 s := by
  rw [load4B_at hp a hptr hi]
  refine Protocol.Safe.bind (Protocol.Safe.read _ Outside.stable hs fun s hs => ?_)
  refine Protocol.Safe.ret _ Outside.stable hs fun s' hs' => ?_
  have hw := hs.mram.fixed.graph hp ha hi
  rw [word] at hw
  rw [hw]
  exact hk s' hs'

/-- **A node pushes all its edges.** -/
theorem visitNode_safe {node : Word} (hv : node.toNat < p.dpuNumNodes.toNat) (hs : Outside p edges m0 t D s) :
    (protocol p edges m0).Safe t (fun n' _ s => n' = 1 ∧
      Outside p edges m0 t (fun e => D e ∨ EdgesOf p m0 node.toNat (node.toNat + 1) e) s) (visitNode p t node) 1 s := by
  have h64 : (64 : Word).toNat = 64 := rfl
  have hn := hp.numbers.localNodes
  have htile : (node / 64).toNat = node.toNat / 64 := by rw [BitVec.toNat_udiv, h64]
  have hbit : (node % 64).toNat = node.toNat % 64 := by rw [BitVec.toNat_umod, h64]
  have hsucc : (node + 1).toNat = node.toNat + 1 := by
    have := p.dpuNumNodes.isLt
    rw [BitVec.toNat_add, show (1 : Word).toNat = 1 from rfl, Nat.mod_eq_of_lt (by omega)]
  have hcur := has_current hp (i := (node / 64).toNat) (by omega)
  rw [visitNode, load8B_at hp .currentFrontier rfl hcur]
  refine Protocol.Safe.read _ Outside.stable hs fun s hs => ?_
  have hcf : isSet (s.mram (Buf.currentFrontier.cell p (node / 64).toNat)) (node % 64) =
      bit p s.mram .currentFrontier node.toNat := by
    rw [isSet_eq, hbit, htile, bit]
  rw [hcf, hs.mram.fixed.current hp hv]
  refine Protocol.Safe.last (Protocol.Safe.when (fun hfront => ?_) fun hfront => ?_)
  · refine load4B_safe hp (a := .nodePtrs) rfl (.inl rfl) (has_ptrs hp (by omega)) hs fun s hs => ?_
    refine load4B_safe hp (a := .nodePtrs) rfl (.inl rfl) (has_ptrs hp (by omega)) hs fun s hs => ?_
    rw [hsucc]
    change Protocol.Safe _ _ _ (Prog.loop (row p m0 node.toNat) (row p m0 (node.toNat + 1)) 1 _) _ _
    have hlt : row p m0 (node.toNat + 1) < 2 ^ 32 := BitVec.isLt _
    have hpasses : Prog.passes (row p m0 node.toNat) (row p m0 (node.toNat + 1)) 1 =
        row p m0 (node.toNat + 1) - row p m0 node.toNat := by
      unfold Prog.passes
      omega
    refine Protocol.Safe.last (Protocol.Safe.loop (fun j => Outside p edges m0 t fun e =>
      D e ∨ (row p m0 node.toNat ≤ e ∧ e < row p m0 node.toNat + j)) (fun _ => Outside.stable)
      (hs.mono fun e he => he.resolve_right (by omega)) ?_ ?_)
    · intro j hj s hs
      rw [hpasses] at hj
      rw [Nat.one_mul]
      have hi : (BitVec.ofNat 32 (row p m0 node.toNat + j)).toNat = row p m0 node.toNat + j := by
        rw [BitVec.toNat_ofNat, Nat.mod_eq_of_lt (by omega)]
      obtain ⟨hedge, hnb⟩ := hp.adjacency node.toNat hv (row p m0 node.toNat + j) (by omega) (by omega)
      refine load4B_safe hp (a := .neighborIdxs) rfl (.inr rfl) ?_ hs fun s hs => ?_
      · simp only [Buf.Has, Buf.bytes]
        omega
      · rw [hi]
        refine (pushNeighbor_safe hp hnb (fun hf => ⟨⟨node.toNat, hv, hfront, _, Nat.le_add_right _ _, by omega, rfl⟩, hf⟩)
          hs).mono fun n' _ s ⟨hn', hs⟩ => ⟨hn', hs.mono fun e he => ?_⟩
        cases he with
        | inl he => exact .inl (.inl he)
        | inr he =>
          by_cases hej : e = row p m0 node.toNat + j
          · exact .inr (by rw [hej])
          · exact .inl (.inr ⟨he.1, by omega⟩)
    · intro s hs
      rw [hpasses] at hs
      refine Protocol.Safe.ret _ Outside.stable hs fun s hs => Protocol.Safe.ret _ Outside.stable hs fun s hs =>
        ⟨rfl, hs.mono fun e he => ?_⟩
      rcases he with he | ⟨v, hv1, hv2, -, hr1, hr2⟩
      · exact .inl he
      · obtain rfl : v = node.toNat := by omega
        exact .inr ⟨hr1, by omega⟩
  · refine Protocol.Safe.ret _ Outside.stable hs fun s hs => ⟨rfl, hs.mono fun e he => he.resolve_right ?_⟩
    rintro ⟨v, hv1, hv2, hb, -⟩
    obtain rfl : v = node.toNat := by omega
    exact hfront hb

/-! ### The nodes of a tasklet -/

theorem range_eq (ht : t < 16) : (taskletNodesStart p t).toNat = t * (p.dpuNumNodes.toNat / 16) ∧
    (taskletNodesStart p t + taskletNumNodes p t).toNat = (t + 1) * (p.dpuNumNodes.toNat / 16) := by
  have hl := hp.localNodes
  have hlt := p.dpuNumNodes.isLt
  have h16 : (BitVec.ofNat 32 NR_TASKLETS : Word).toNat = 16 := rfl
  have hper : (numNodesPerTasklet p).toNat = p.dpuNumNodes.toNat / 16 := by
    rw [numNodesPerTasklet, BitVec.toNat_udiv, BitVec.toNat_sub, BitVec.toNat_add, h16, show (1 : Word).toNat = 1 from rfl]
    omega
  have htq : t * (p.dpuNumNodes.toNat / 16) ≤ 15 * (p.dpuNumNodes.toNat / 16) := Nat.mul_le_mul_right _ (by omega)
  have hstart : (taskletNodesStart p t).toNat = t * (p.dpuNumNodes.toNat / 16) := by
    rw [taskletNodesStart, BitVec.toNat_mul, hper, BitVec.toNat_ofNat, Nat.mod_eq_of_lt (show t < 2 ^ 32 by omega),
      Nat.mod_eq_of_lt (by omega)]
  have hsum : (taskletNodesStart p t + numNodesPerTasklet p).toNat = (t + 1) * (p.dpuNumNodes.toNat / 16) := by
    rw [BitVec.toNat_add, hstart, hper, Nat.succ_mul, Nat.mod_eq_of_lt (by omega)]
  refine ⟨hstart, ?_⟩
  unfold taskletNumNodes
  split
  next h =>
    rw [BitVec.le_def, hstart] at h
    rw [BitVec.toNat_add, hstart, Nat.succ_mul, show (0 : Word).toNat = 0 from rfl]
    omega
  next h =>
    rw [if_neg (by rw [BitVec.lt_def, hsum, Nat.succ_mul]; omega), hsum]

/-- **One tasklet.** -/
theorem iteration_safe (ht : t < 16) (hs : s = ⟨m0, none⟩) :
    (protocol p edges m0).Safe t (fun n _ s => Left p m0 n t s) (iteration p t) 0 s := by
  obtain ⟨hnodes, hlocal, -, -, -⟩ := hp.numbers
  obtain ⟨hfrom, hto⟩ := range_eq hp ht
  rw [iteration]
  refine tiles_safe hp ht hs fun s hs => ?_
  refine Protocol.Safe.barrier _ (Tiling.stable hp _) hs
    (fun s hs => (⟨fun c hc hct => hs.done c hc hct hc, hs.rest, hs.holder⟩ : BringsTiles p edges m0 t s)) fun s hall => ?_
  have hall : ∀ u < 16, BringsTiles p edges m0 u s := hall
  -- no node of the next frontier is there yet
  have hpushed : Outside p edges m0 t (fun _ => False) s := by
    refine ⟨⟨⟨s.mram, fun c hc => (hall (c % 16) (by omega)).tiles c hc rfl, (hall t ht).rest, fun _ _ => rfl⟩,
      fun x hx hb => ?_, fun _ h => h.elim⟩, fun u hu => ?_⟩
    swap
    · rw [(hall t ht).holder] at hu
      cases hu
    have hnext := ((hall (x / 64 % 16) (by omega)).tiles (x / 64) (by omega) rfl).next
    rw [if_pos (by omega)] at hnext
    rw [bit, hnext] at hb
    simp at hb
  have hend : ∀ s, Outside p edges m0 t (EdgesOf p m0 (taskletNodesStart p t).toNat
      (taskletNodesStart p t + taskletNumNodes p t).toNat) s →
      (protocol p edges m0).Safe t (fun n _ s => Left p m0 n t s) Prog.barrier 1 s := by
    intro s hs
    refine Protocol.Safe.last (Protocol.Safe.barrier _ Outside.stable hs (fun s hs => hs) fun s hall => ?_)
    refine Protocol.Safe.ret (fun s' => s' = s) (fun _ _ _ ⟨_, _, _, h⟩ => h.elim) rfl fun s' hs' => ?_
    rw [hs']
    have hall : ∀ u < 16, Outside p edges m0 u (EdgesOf p m0 (taskletNodesStart p u).toNat
      (taskletNodesStart p u + taskletNumNodes p u).toNat) s := hall
    have h0 := hall 0 (by omega)
    refine ⟨rfl, fun hh => absurd rfl ((hall t ht).holder t hh).2, ?_⟩
    refine ⟨fun x hx => h0.mram.fixed.visited hp hx, fun v hv => h0.mram.fixed.level hp hv, fun x hx => ?_⟩
    rw [h0.mram.fixed.visited hp hx, Bool.or_eq_false_iff]
    refine ⟨fun hb => h0.mram.sound x hx hb, fun ⟨⟨v, hv, hfront, e, he1, he2, hex⟩, hfresh⟩ => ?_⟩
    -- the tasklet that has the node
    have hu : v / (p.dpuNumNodes.toNat / 16) < 16 := by
      refine Nat.div_lt_of_lt_mul ?_
      omega
    obtain ⟨hu1, hu2⟩ := range_eq hp hu
    have hpush := (hall _ hu).mram.pushed e ⟨v, ?_, ?_, hfront, he1, he2⟩ (by rw [hex]; exact hfresh)
    · rwa [hex] at hpush
    · rw [hu1]
      exact Nat.div_mul_le_self _ _
    · rw [hu2, Nat.mul_comm]
      exact Nat.lt_mul_div_succ _ (by omega)
  refine Protocol.Safe.when (fun hpos => ?_) fun hzero => hend s (hpushed.mono fun e ⟨v, _, hv2, _⟩ => ?_)
  · refine Protocol.Safe.last (Protocol.Safe.loop (fun j => Outside p edges m0 t
      (EdgesOf p m0 (taskletNodesStart p t).toNat ((taskletNodesStart p t).toNat + j))) (fun _ => Outside.stable)
      (hpushed.mono fun e ⟨v, hv1, hv2, _⟩ => by omega) ?_ ?_)
    · intro j hj s hs
      have hj : j < p.dpuNumNodes.toNat / 16 := by
        rw [Prog.passes, hfrom, hto, Nat.succ_mul] at hj
        omega
      have hle : t * (p.dpuNumNodes.toNat / 16) ≤ 15 * (p.dpuNumNodes.toNat / 16) := Nat.mul_le_mul_right _ (by omega)
      have hnode : (BitVec.ofNat 32 ((taskletNodesStart p t).toNat + 1 * j)).toNat = (taskletNodesStart p t).toNat + j := by
        have := p.dpuNumNodes.isLt
        rw [BitVec.toNat_ofNat, Nat.one_mul, Nat.mod_eq_of_lt (by omega)]
      refine (visitNode_safe hp (by rw [hnode]; omega) hs).mono fun n' _ s ⟨hn', hs⟩ => ⟨hn', hs.mono fun e he => ?_⟩
      obtain ⟨v, hv1, hv2, he⟩ := he
      rw [hnode]
      by_cases hv : v < (taskletNodesStart p t).toNat + j
      · exact .inl ⟨v, hv1, hv, he⟩
      · exact .inr ⟨v, by omega, by omega, he⟩
    · intro s hs
      have hpasses : (taskletNodesStart p t).toNat + Prog.passes (taskletNodesStart p t).toNat
          (taskletNodesStart p t + taskletNumNodes p t).toNat 1 = (taskletNodesStart p t + taskletNumNodes p t).toNat := by
        rw [Prog.passes, hfrom, hto, Nat.succ_mul]
        omega
      rw [hpasses] at hs
      exact Protocol.Safe.ret _ Outside.stable hs fun s hs => hend s hs
  · rw [hto] at hv2
    have : p.dpuNumNodes.toNat = 0 := by
      rw [BitVec.lt_def] at hzero
      exact Nat.le_zero.mp (Nat.not_lt.mp hzero)
    simp [this] at hv2

end

/-- **An iteration of the kernel, for every interleaving of the tasklets.** -/
theorem iteration_correct {p : DPUParams} {edges : Nat} {m : Nat → Dword} (hp : Partition p edges m) :
    Ends NR_TASKLETS free (fun s => s = ⟨m, none⟩) (iteration p) fun s => Result p m s.mram := by
  refine (protocol p edges m).ends (show 0 < 16 by decide) (fun t ht s hs => iteration_safe hp ht hs) (e := 2)
    ⟨fun _ _ => rfl, fun n t s hb => ?_, fun n t s h => ⟨h.phase, h.away⟩⟩ fun n s h => (h 0 (show 0 < 16 by decide)).result
  match n, hb with
  | 0, hb => exact ⟨by decide, fun hh => absurd ((BringsTiles.holder hb).symm.trans hh) (by simp)⟩
  | 1, hb => exact ⟨by decide, fun hh => absurd rfl (Outside.holder hb t hh).2⟩

/-- A graph of 64 nodes whose one edge leads from node 0 to node 1. -/
def edge : DPUParams where
  dpuNumNodes := 64
  numNodes := 64
  dpuStartNodeIdx := 0
  dpuNodePtrsOffset := 0
  level := 1
  dpuNodePtrs_m := 0x1000
  dpuNeighborIdxs_m := 0x2000
  dpuNodeLevel_m := 0x7000
  dpuVisited_m := 0x4000
  dpuCurrentFrontier_m := 0x5000
  dpuNextFrontier_m := 0x6000

/-- Its arrays, with node 0 in the frontier. -/
def edgeMram (k : Nat) : Dword :=
  if k = 0x200 then 0x100000000
  else if 0x200 < k ∧ k ≤ 0x220 then 0x100000001
  else if k = 0x400 ∨ k = 0xc00 then 1
  else 0

theorem edge_partition : Partition edge 1 edgeMram := by
  have hrow : ∀ v < 64, row edge edgeMram (v + 1) ≤ 1 := by decide
  refine ⟨by decide, by decide, by decide, by decide, fun a => ?_, fun a => ?_, fun a b hab k => ?_, fun v hv i _ hi => ?_⟩
  · cases a <;> decide
  · cases a <;> decide
  · cases a <;> cases b <;> simp [Buf.base, Buf.bytes, edge] at hab ⊢ <;> omega
  · obtain rfl : i = 0 := by
      have := hrow v hv
      omega
    decide

theorem iteration_correct_edge : Ends 16 free (fun s => s = ⟨edgeMram, none⟩) (iteration edge) fun s =>
    bit edge s.mram .nextFrontier 1 = true := by
  refine (iteration_correct edge_partition).mono fun s hres => ?_
  refine (hres.next 1 (by decide)).mpr ⟨⟨0, by decide, by decide, 0, by decide, by decide, by decide⟩, ?_⟩
  rw [hres.visited 1 (by decide)]
  decide

end Memclave.Bfs
