/-
Facts about `main_kernel2` of `TRNS/main.c`. For every interleaving of the
tasklets the rows end at their transposed places, and each that moves is
written once (`transposes`).

A run is one of agents that move the rows along the cycles of `place`
(`Cycles`): `Sim` is the correspondence and `Sim.step` that a step keeps it.
The index arithmetic wraps, the index that comes out does not
(`nextInCycleOf_toNat`).
-/
import Memclave.Trns
import Memclave.Lib.Cycles
import Mathlib.Data.BitVec
import Mathlib.Tactic.LinearCombination

namespace Memclave.Trns

open Words Copy Function Cycles Sys

/-- Where row `i` belongs. -/
def place (args : DpuArguments) (i : Nat) : Nat := i % args.n.toNat * args.M_.toNat + i / args.n.toNat

/-! ## The place of a row -/

section

variable {args : DpuArguments} {i j : Nat}

theorem div_lt (hi : i < args.rows) : i / args.n.toNat < args.M_.toNat :=
   Nat.div_lt_of_lt_mul (hi.trans_eq (Nat.mul_comm _ _))

theorem n_pos (hi : i < args.rows) : 0 < args.n.toNat := by
  cases Nat.eq_zero_or_pos args.n.toNat with
  | inl h => simp [DpuArguments.rows, h] at hi
  | inr h => exact h

theorem place_lt (hi : i < args.rows) : place args i < args.rows := by
  have hq := div_lt hi
  have hr := Nat.mod_lt i (n_pos hi)
  calc place args i < i % args.n.toNat * args.M_.toNat + args.M_.toNat := Nat.add_lt_add_left hq _
    _ = (i % args.n.toNat + 1) * args.M_.toNat := by rw [Nat.succ_mul]
    _ ≤ args.n.toNat * args.M_.toNat := Nat.mul_le_mul_right _ hr
    _ = args.rows := Nat.mul_comm _ _

theorem place_inj (hi : i < args.rows) (hj : j < args.rows) (h : place args i = place args j) : i = j := by
  have hqi := div_lt hi
  have hqj := div_lt hj
  have hM : 0 < args.M_.toNat := Nat.zero_lt_of_lt hqi
  have hmod := congrArg (· % args.M_.toNat) h
  have hdiv := congrArg (· / args.M_.toNat) h
  simp only [place, Nat.mul_comm _ args.M_.toNat, Nat.mul_add_mod, Nat.mod_eq_of_lt hqi,
    Nat.mod_eq_of_lt hqj, Nat.mul_add_div hM, Nat.div_eq_of_lt hqi, Nat.div_eq_of_lt hqj, Nat.add_zero] at hmod hdiv
  rw [← Nat.div_add_mod i args.n.toNat, hmod, hdiv, Nat.div_add_mod]

/-- Row `r` of column `q`. -/
theorem place_mul_add {q r : Nat} (hr : r < args.n.toNat) : place args (q * args.n.toNat + r) = r * args.M_.toNat + q := by
  have hn : 0 < args.n.toNat := by omega
  rw [place, Nat.mul_comm q, Nat.mul_add_mod, Nat.mod_eq_of_lt hr, Nat.mul_add_div hn, Nat.div_eq_of_lt hr, Nat.add_zero]

/-- The last row stays. -/
theorem place_last (h : 0 < args.rows) : place args (args.rows - 1) = args.rows - 1 := by
  obtain ⟨b, hb⟩ := Nat.exists_eq_add_of_lt (n_pos h)
  obtain ⟨a, ha⟩ := Nat.exists_eq_add_of_lt (Nat.zero_lt_of_lt (div_lt h))
  have hrow : args.rows - 1 = a * args.n.toNat + b := by
    rw [DpuArguments.rows, ha, hb, Nat.sub_eq_of_eq_add]
    ring
  rw [hrow, place_mul_add (by omega), ha, hb]
  ring

/-! ## The index arithmetic -/

theorem Fits.rows (h : Fits args) : args.rows ≤ 2 ^ 26 := by
  unfold Fits at h
  omega

theorem Fits.elements (h : Fits args) : args.rows * args.m.toNat ≤ 2 ^ 23 := by
  unfold Fits at h
  omega

/-- A row ends before a later one begins. -/
theorem row_end (m : Nat) (h : i < j) : i * m + m ≤ j * m := by
  rw [← Nat.succ_mul]
  exact Nat.mul_le_mul_right _ h

theorem rows_toNat (h : Fits args) : (args.M_ * args.n).toNat = args.rows := by
  have hle := h.rows
  rw [BitVec.toNat_mul, ← DpuArguments.rows, Nat.mod_eq_of_lt (by omega)]

theorem tileMax_toNat (h : Fits args) (hpos : 0 < args.rows) : (tileMax args).toNat = args.rows - 1 := by
  have hle := h.rows
  have h1 : (1 : Word).toNat = 1 := rfl
  rw [tileMax, BitVec.toNat_sub, rows_toNat h, h1]
  omega

theorem toNat_succ {x y : Word} (h : x < y) : (x + 1).toNat = x.toNat + 1 := by
  have hlt := word_lt y
  rw [BitVec.lt_def] at h
  have h1 : (1 : Word).toNat = 1 := rfl
  rw [BitVec.toNat_add, h1]
  omega

/-- The multiples of the number of rows cancel. -/
theorem nextInCycleOf_eq (tile : Word) : nextInCycleOf args tile = tile % args.n * args.M_ + tile / args.n := by
  have hdiv : tile = args.n * (tile / args.n) + tile % args.n := by
    apply word_ext
    have hmul := Nat.mod_eq_of_lt ((Nat.mul_div_le tile.toNat args.n.toNat).trans_lt (word_lt tile))
    rw [BitVec.toNat_add, BitVec.toNat_mul, BitVec.toNat_udiv, BitVec.toNat_umod, hmul, Nat.div_add_mod,
      Nat.mod_eq_of_lt (word_lt tile)]
  rw [nextInCycleOf, tileMax]
  linear_combination args.M_ * hdiv

/-- **The index of the place of a row**, although the product and the
subtraction may wrap. -/
theorem nextInCycleOf_toNat (h : Fits args) {tile : Word} (ht : tile.toNat < args.rows) :
    (nextInCycleOf args tile).toNat = place args tile.toNat := by
  have hplace : place args tile.toNat < 2 ^ 32 := (place_lt ht).trans_le (h.rows.trans (by decide))
  have hmul := Nat.mod_eq_of_lt ((Nat.le_add_right _ _).trans_lt hplace)
  rw [nextInCycleOf_eq, BitVec.toNat_add, BitVec.toNat_mul, BitVec.toNat_umod, BitVec.toNat_udiv, hmul]
  exact Nat.mod_eq_of_lt hplace

theorem rowWord_eq (h : Fits args) {tile : Word} (ht : tile.toNat < args.rows) :
    rowWord args tile = A_OFFSET.toNat / 8 + tile.toNat * args.m.toNat := by
  have hle := h.elements
  have hel := row_end args.m.toNat ht
  have h8 : sizeofT.toNat = 8 := rfl
  have hA : A_OFFSET.toNat = 0x2100 := rfl
  rw [rowWord, BitVec.toNat_add, BitVec.toNat_mul, BitVec.toNat_mul, h8, hA,
    Nat.mod_eq_of_lt (a := tile.toNat * args.m.toNat) (by omega)]
  omega

theorem doneArray_toNat (h : Fits args) : (doneArray args).toNat = A_OFFSET.toNat + args.rows * args.m.toNat * 8 := by
  have hle := h.elements
  have hr := h.rows
  have hA : A_OFFSET.toNat = 0x2100 := rfl
  have hsize : (args.M_.setWidth 64 * args.m.setWidth 64 * args.n.setWidth 64 * 8).setWidth 32 =
      args.M_ * args.n * args.m * 8 := by
    have hid : ∀ x : Word, (x.setWidth 64).setWidth 32 = x := fun x => by simp
    have h8 : (8 : Dword).setWidth 32 = (8 : Word) := rfl
    rw [BitVec.setWidth_mul _ _ (by decide), BitVec.setWidth_mul _ _ (by decide), BitVec.setWidth_mul _ _ (by decide),
      hid, hid, hid, h8]
    ring
  have h8 : (8 : Word).toNat = 8 := rfl
  rw [doneArray, hsize, BitVec.toNat_add, BitVec.toNat_mul, BitVec.toNat_mul, rows_toNat h, hA, h8,
    Nat.mod_eq_of_lt (a := args.rows * args.m.toNat) (by omega)]
  omega

theorem doneWord_eq (h : Fits args) {address : Word} (ht : address.toNat < args.rows) :
    doneWord args address = A_OFFSET.toNat / 8 + args.rows * args.m.toNat + address.toNat / 8 := by
  have hle := h.elements
  have hr := h.rows
  have hA : A_OFFSET.toNat = 0x2100 := rfl
  rw [doneWord, BitVec.toNat_add, doneArray_toNat h, hA]
  omega

/-! ## Rows and flags -/

/-- The flag of row `i`: a bit of the 64-bit word that the byte `i` is in. -/
def flag (args : DpuArguments) (mram : Nat → Dword) (i : Nat) : Bool :=
  (mram (A_OFFSET.toNat / 8 + args.rows * args.m.toNat + i / 8)).getLsbD (i % 8)

theorem doneBit_eq (address : Word) : doneBit address = BitVec.twoPow 64 (address.toNat % 8) := by
  rw [doneBit, BitVec.twoPow_eq, BitVec.toNat_umod]
  rfl

section

variable (h : Fits args) {tile : Word} (ht : tile.toNat < args.rows) {mram : Nat → Dword}

include h ht

theorem getDone_eq : getDone args mram tile = flag args mram tile.toNat := by
  have hne : BitVec.twoPow 64 (tile.toNat % 8) ≠ 0#64 := fun h0 => by
    have hbit := congrArg (·.getLsbD (tile.toNat % 8)) h0
    simp only [BitVec.getLsbD_twoPow] at hbit
    simp at hbit
    omega
  rw [getDone, doneBit_eq, doneWord_eq h ht, BitVec.and_twoPow, flag]
  split
  next hb => simp [hb, hne]
  next hb => simp [hb]

theorem flag_setDone : flag args (setDone args mram tile) i = update (flag args mram) tile.toNat true i := by
  rw [setDone, doneWord_eq h ht, doneBit_eq, flag]
  by_cases hi : i = tile.toNat
  · subst hi
    rw [update_self, update_self, BitVec.getLsbD_or, BitVec.getLsbD_twoPow]
    simp
    omega
  · rw [update_of_ne hi, flag]
    by_cases hword : i / 8 = tile.toNat / 8
    · rw [hword, update_self, BitVec.getLsbD_or, BitVec.getLsbD_twoPow]
      have hbit : ¬ tile.toNat % 8 = i % 8 := by omega
      simp [hbit]
    · rw [update_of_ne (by omega)]

theorem row_setDone (hi : i < args.rows) : row args (setDone args mram tile) i = row args mram i := by
  funext j
  have hel := row_end args.m.toNat hi
  rw [row, setDone, doneWord_eq h ht, update_of_ne (by omega), row]

theorem flag_write {buf : Nat → Dword} : flag args (writeTileStep3 args mram tile buf) i = flag args mram i := by
  have hel := row_end args.m.toNat ht
  rw [flag, writeTileStep3, rowWord_eq h ht, blit_out (by omega), flag]

/-- What a buffer has of a row. -/
def entry (args : DpuArguments) (buf : Nat → Dword) (j : Fin args.m.toNat) : Dword := buf j

theorem row_write {buf : Nat → Dword} (hi : i < args.rows) :
    row args (writeTileStep3 args mram tile buf) i = update (row args mram) tile.toNat (entry args buf) i := by
  funext j
  rw [row, writeTileStep3, rowWord_eq h ht]
  by_cases he : i = tile.toNat
  · subst he
    rw [update_self, blit_in (by omega) (by omega), entry]
    congr 1
    omega
  · rw [update_of_ne he, row]
    cases Nat.lt_or_gt_of_ne he with
    | inl hlt =>
      have hend := row_end args.m.toNat hlt
      rw [blit_out (.inl (by omega))]
    | inr hlt =>
      have hend := row_end args.m.toNat hlt
      rw [blit_out (.inr (by omega))]

theorem entry_read {buf : Nat → Dword} : entry args (readTileStep3 args mram tile buf) = row args mram tile.toNat := by
  funext j
  rw [entry, readTileStep3, rowWord_eq h ht, blit_in (Nat.zero_le _) (by omega), row, Nat.sub_zero]

end

theorem entry_copy (args : DpuArguments) (data backup : Nat → Dword) :
    entry args (blit data 0 backup 0 args.m.toNat) = entry args backup := by
  funext j
  rw [entry, blit_in (Nat.zero_le _) (by omega), entry]
  congr 1
  omega

end

/-! ## The tasklets as agents -/

/-- What a tasklet is as an agent. -/
def phaseOf (args : DpuArguments) (p : Pc) (l : Locals) : Phase Nat (Fin args.m.toNat → Dword) :=
  match p with
  | .getTile | .left => .idle
  | .readTile => .start l.tile.toNat
  | .getDone => .check l.tile.toNat (entry args l.data)
  | .readNext => .carry l.nextInCycle.toNat (entry args l.data)
  | .getAndSetDone => .mark l.nextInCycle.toNat (entry args l.data) (entry args l.backup)
  | .writeNext => .put l.nextInCycle.toNat (entry args l.data) (entry args l.backup)

/-- Where the tasklets are, and that each tile below `curr_tile` was handed
out; `curr_tile` may wrap only after one of them has left. -/
structure Control (args : DpuArguments) (N : Nat) (c : State Nat (Fin args.m.toNat → Dword)) (pc : Nat → Pc)
    (locals : Nat → Locals) (currTile : Word) : Prop where
  phase : ∀ t, c.phase t = phaseOf args (pc t) (locals t)
  others : ∀ t, N ≤ t → pc t = .getTile
  next : ∀ t, pc t = .readTile ∨ pc t = .getDone → (locals t).nextInCycle = nextInCycleOf args (locals t).tile
  chosen : ∀ i < args.rows - 1, place args i ≠ i → (i < currTile.toNat ∨ ∃ t < N, pc t = .left) → i ∈ c.chosen

structure Sim (args : DpuArguments) (N : Nat) (mram : Nat → Dword) (s : St) (c : State Nat (Fin args.m.toNat → Dword)) :
    Prop where
  inv : Inv (place args) (Finset.range args.rows) (row args mram) c
  rows : ∀ i < args.rows, c.rows i = row args s.mram i
  done : ∀ i < args.rows, c.done i = flag args s.mram i
  puts : ∀ i, c.puts i = s.written i
  control : Control args N c s.pc s.locals s.currTile

section

variable {args : DpuArguments} {N t : Nat} {mram : Nat → Dword} {s : St} {c c' : State Nat (Fin args.m.toNat → Dword)}
  {pc : Nat → Pc} {locals : Nat → Locals} {currTile : Word} {p : Pc} {l : Locals}

theorem place_mem : ∀ x ∈ Finset.range args.rows, place args x ∈ Finset.range args.rows :=
  fun _ hx => Finset.mem_range.mpr (place_lt (Finset.mem_range.mp hx))

theorem place_injOn : Set.InjOn (place args) (Finset.range args.rows) :=
  fun _ hx _ hy h => place_inj (Finset.mem_range.mp hx) (Finset.mem_range.mp hy) h

theorem phase_set (h : ∀ t, c.phase t = phaseOf args (pc t) (locals t)) (u : Nat) :
    update c.phase t (phaseOf args p l) u = phaseOf args (update pc t p u) (update locals t l u) := by
  by_cases hu : u = t
  · subst hu
    rw [update_self, update_self, update_self]
  · rw [update_of_ne hu, update_of_ne hu, update_of_ne hu, h u]

theorem others_set (ht : t < N) (h : ∀ u, N ≤ u → pc u = .getTile) (u : Nat) (hu : N ≤ u) : update pc t p u = .getTile := by
  rw [update_of_ne (by omega), h u hu]

theorem next_set (h : ∀ t, pc t = .readTile ∨ pc t = .getDone → (locals t).nextInCycle = nextInCycleOf args (locals t).tile)
    (hl : p = .readTile ∨ p = .getDone → l.nextInCycle = nextInCycleOf args l.tile) (u : Nat) :
    update pc t p u = .readTile ∨ update pc t p u = .getDone →
      (update locals t l u).nextInCycle = nextInCycleOf args (update locals t l u).tile := by
  by_cases hu : u = t
  · subst hu
    rw [update_self, update_self]
    exact hl
  · rw [update_of_ne hu, update_of_ne hu]
    exact h u

/-- Who has left has not come back. -/
theorem left_set (hp : p ≠ .left) : (∃ u < N, update pc t p u = .left) → ∃ u < N, pc u = .left := by
  rintro ⟨u, hu, hleft⟩
  by_cases hut : u = t
  · subst hut
    rw [update_self] at hleft
    exact absurd hleft hp
  · exact ⟨u, hu, by rwa [update_of_ne hut] at hleft⟩

theorem update_congr {β : Type} {f g : Nat → β} {a i : Nat} {v : β} (h : f i = g i) : update f a v i = update g a v i := by
  rw [update_apply, update_apply, h]

/-- A tasklet goes on, past `get_tile`. -/
theorem Control.set (h : Control args N c pc locals currTile) (ht : t < N) (hp : p ≠ .left)
    (hl : p = .readTile ∨ p = .getDone → l.nextInCycle = nextInCycleOf args l.tile)
    (hphase : c'.phase = update c.phase t (phaseOf args p l)) (hchosen : c'.chosen = c.chosen) :
    Control args N c' (update pc t p) (update locals t l) currTile where
  phase u := by
    rw [hphase]
    exact phase_set h.phase u
  others := others_set ht h.others
  next := next_set h.next hl
  chosen i hi hne hor := by
    rw [hchosen]
    exact h.chosen i hi hne (hor.imp_right (left_set hp))

/-- **An action in the loops is one of the agent.** -/
theorem Sim.next (hfits : Fits args) (h : Sim args N mram s c) (ht : t < N) (htile : s.pc t ≠ .getTile) (hleft : s.pc t ≠ .left) :
    Sim args N mram (step args s t) (c.next (place args) t) := by
  have hinv := h.inv.next place_mem place_injOn t
  have hok := h.inv.phase t
  have hphase := h.control.phase t
  cases hpc : s.pc t with
  | getTile => exact absurd hpc htile
  | left => exact absurd hpc hleft
  | readTile =>
    have hnext := h.control.next t (.inl hpc)
    rw [hpc] at hphase
    rw [hphase] at hok
    have hx := Finset.mem_range.mp hok.1
    have hc : c.next (place args) t = c.goto t (.check (s.locals t).tile.toNat (c.rows (s.locals t).tile.toNat)) := by
      rw [State.next, hphase]
      rfl
    rw [step, hpc]
    rw [hc] at hinv ⊢
    refine ⟨hinv, h.rows, h.done, h.puts, h.control.set ht (by simp) (fun _ => hnext) ?_ rfl⟩
    rw [phaseOf, entry_read hfits hx, h.rows _ hx]
    rfl
  | getDone =>
    have hnext := h.control.next t (.inr hpc)
    rw [hpc] at hphase
    rw [hphase] at hok
    have hx := Finset.mem_range.mp hok.1
    have hc : c.next (place args) t = c.goto t (if c.done (s.locals t).tile.toNat then .idle
        else .carry (place args (s.locals t).tile.toNat) (entry args (s.locals t).data)) := by
      rw [State.next, hphase]
      rfl
    rw [step, hpc]
    rw [hc] at hinv ⊢
    refine ⟨hinv, h.rows, h.done, h.puts, h.control.set ht ?_ (fun _ => hnext) ?_ rfl⟩
    · split <;> simp
    · rw [getDone_eq hfits hx, h.done _ hx]
      split
      · rfl
      · rw [phaseOf, hnext, nextInCycleOf_toNat hfits hx]
        rfl
  | readNext =>
    rw [hpc] at hphase
    rw [hphase] at hok
    have hx := Finset.mem_range.mp (hok.mem place_mem)
    have hc : c.next (place args) t = c.goto t (.mark (s.locals t).nextInCycle.toNat (entry args (s.locals t).data)
        (c.rows (s.locals t).nextInCycle.toNat)) := by
      rw [State.next, hphase]
      rfl
    rw [step, hpc]
    rw [hc] at hinv ⊢
    refine ⟨hinv, h.rows, h.done, h.puts, h.control.set ht (by simp) (by simp) ?_ rfl⟩
    rw [phaseOf, entry_read hfits hx, h.rows _ hx]
    rfl
  | getAndSetDone =>
    rw [hpc] at hphase
    rw [hphase] at hok
    have hx := Finset.mem_range.mp (hok.1.mem place_mem)
    have hc : c.next (place args) t =
        { c with done := update c.done (s.locals t).nextInCycle.toNat true }.goto t
          (if c.done (s.locals t).nextInCycle.toNat then .idle
          else .put (s.locals t).nextInCycle.toNat (entry args (s.locals t).data) (entry args (s.locals t).backup)) := by
      rw [State.next, hphase]
      rfl
    have hrows : ∀ i < args.rows, c.rows i = row args (setDone args s.mram (s.locals t).nextInCycle) i :=
      fun i hi => (h.rows i hi).trans (row_setDone hfits hx hi).symm
    have hflags : ∀ i < args.rows, update c.done (s.locals t).nextInCycle.toNat true i =
        flag args (setDone args s.mram (s.locals t).nextInCycle) i := fun i hi => by
      rw [flag_setDone hfits hx]
      exact update_congr (h.done i hi)
    rw [h.done _ hx, ← getDone_eq hfits hx] at hc
    rw [step, hpc]
    rw [hc] at hinv ⊢
    dsimp only
    split
    next hd =>
      rw [if_pos hd] at hinv
      exact ⟨hinv, hrows, hflags, h.puts, h.control.set ht (by simp) (by simp) rfl rfl⟩
    next hd =>
      rw [if_neg hd] at hinv
      exact ⟨hinv, hrows, hflags, h.puts, h.control.set ht (by simp) (by simp) rfl rfl⟩
  | writeNext =>
    rw [hpc] at hphase
    rw [hphase] at hok
    have hx := Finset.mem_range.mp (hok.1.mem place_mem)
    have hc : c.next (place args) t =
        { c with
          rows := update c.rows (s.locals t).nextInCycle.toNat (entry args (s.locals t).data)
          puts := update c.puts (s.locals t).nextInCycle.toNat (c.puts (s.locals t).nextInCycle.toNat + 1) }.goto t
          (.carry (place args (s.locals t).nextInCycle.toNat) (entry args (s.locals t).backup)) := by
      rw [State.next, hphase]
      rfl
    rw [step, hpc]
    rw [hc] at hinv ⊢
    refine ⟨hinv, fun i hi => ?_, fun i hi => ?_, fun i => ?_, h.control.set ht (by simp) (by simp) ?_ rfl⟩
    · exact (update_congr (h.rows i hi)).trans (row_write hfits hx hi).symm
    · exact (h.done i hi).trans (flag_write hfits hx).symm
    · show update c.puts _ _ i = update s.written _ _ i
      rw [h.puts]
      exact update_congr (h.puts i)
    · rw [phaseOf, entry_copy, nextInCycleOf_toNat hfits hx]
      rfl

/-- A tile was handed out. -/
theorem Control.take (h : Control args N c pc locals currTile) (ht : t < N) (hlt : currTile < tileMax args) (hp : p ≠ .left)
    (hl : p = .readTile ∨ p = .getDone → l.nextInCycle = nextInCycleOf args l.tile)
    (hphase : c'.phase = update c.phase t (phaseOf args p l)) (hchosen : c.chosen ⊆ c'.chosen)
    (htile : place args currTile.toNat ≠ currTile.toNat → currTile.toNat ∈ c'.chosen) :
    Control args N c' (update pc t p) (update locals t l) (currTile + 1) where
  phase u := by
    rw [hphase]
    exact phase_set h.phase u
  others := others_set ht h.others
  next := next_set h.next hl
  chosen i hi hne hor := by
    cases hor with
    | inl hi' =>
      rw [toNat_succ hlt, Nat.lt_succ_iff_lt_or_eq] at hi'
      rcases hi' with hi' | rfl
      · exact hchosen (h.chosen i hi hne (.inl hi'))
      · exact htile hne
    | inr hleft => exact hchosen (h.chosen i hi hne (.inr (left_set hp hleft)))

/-! ## How long the loops take -/

/-- How many tasklets are in the loops. -/
def active (N : Nat) (pc : Nat → Pc) : Nat := ∑ t ∈ Finset.range N, if pc t = .left then 0 else 1

/-- A bound on the steps to come: each tile that is handed out makes at most
six, but for those that the first to mark a row makes. After a tasklet has
left, `curr_tile` may begin anew. -/
def rank (args : DpuArguments) (N : Nat) (s : St) (c : State Nat (Fin args.m.toNat → Dword)) : Nat :=
  (6 * 2 ^ 32 + 1) * active N s.pc + 6 * ((tileMax args).toNat - s.currTile.toNat) +
    c.work (Finset.range args.rows) N

theorem active_stays (ht : t < N) (hp : p ≠ .left) (hpc : pc t ≠ .left) : active N (update pc t p) = active N pc := by
  have h := sum_update (Finset.mem_range.mpr ht) (fun p => if p = Pc.left then 0 else 1) pc p
  rw [if_neg hp, if_neg hpc] at h
  exact Nat.add_right_cancel h

theorem active_leaves (ht : t < N) (hpc : pc t ≠ .left) : active N (update pc t .left) + 1 = active N pc := by
  have h := sum_update (Finset.mem_range.mpr ht) (fun p => if p = Pc.left then 0 else 1) pc .left
  rwa [if_neg hpc] at h

/-- **A call of `get_tile` is a choice**, unless the row stays where it is or
there is none left. -/
theorem Sim.getTile (hfits : Fits args) (hpos : 0 < args.rows) (h : Sim args N mram s c) (ht : t < N)
    (htile : s.pc t = .getTile) :
    ∃ c', Sim args N mram (step args s t) c' ∧ rank args N (step args s t) c' < rank args N s c := by
  have hphase := h.control.phase t
  rw [htile] at hphase
  have hidle : update c.phase t .idle = c.phase := by rw [← show c.phase t = .idle from hphase, update_eq_self]
  have hne : s.pc t ≠ .left := by rw [htile]; simp
  have hmax := tileMax_toNat hfits hpos
  rw [step, htile]
  dsimp only
  split
  next hlt =>
    have hlt' := BitVec.lt_def.mp hlt
    have hrows : s.currTile.toNat < args.rows := by omega
    have hnext := nextInCycleOf_toNat hfits hrows
    have hcurr := toNat_succ hlt
    split
    next hfix =>
      rw [hfix] at hnext
      refine ⟨c, ⟨h.inv, h.rows, h.done, h.puts, h.control.take ht hlt (by simp) (by simp) hidle.symm (fun _ hi => hi)
        fun hplace => absurd hnext.symm hplace⟩, ?_⟩
      have hstays := active_stays ht (p := .getTile) (by simp) hne
      simp only [rank, St.set, hstays, hcurr]
      omega
    next hmove =>
      have hplace : place args s.currTile.toNat ≠ s.currTile.toNat := fun he => hmove (word_ext (hnext.trans he))
      refine ⟨c.take t s.currTile.toNat, ⟨h.inv.take hphase (Finset.mem_range.mpr hrows) hplace, h.rows, h.done, h.puts,
        h.control.take ht hlt (by simp) (fun _ => rfl) rfl (Set.subset_insert _ _) fun _ => Set.mem_insert _ _⟩, ?_⟩
      have hstays := active_stays ht (p := .readTile) (by simp) hne
      have hwork := @work_take _ _ (Finset.range args.rows) _ _ s.currTile.toNat _ ht hphase
      simp only [rank, St.set, hstays, hcurr, hwork]
      omega
  next hge =>
    have hge' : (tileMax args).toNat ≤ s.currTile.toNat := Nat.not_lt.mp fun hlt => hge (BitVec.lt_def.mpr hlt)
    have hleft : update c.phase t (phaseOf args .left { s.locals t with tile := s.currTile }) = c.phase := hidle
    refine ⟨c, ⟨h.inv, h.rows, h.done, h.puts, fun u => ?_, others_set ht h.control.others,
      next_set h.control.next (by simp), fun i hi hplace _ => ?_⟩, ?_⟩
    · exact (congrFun hleft u).symm.trans (phase_set h.control.phase u)
    · exact h.control.chosen i hi hplace (.inl (by omega))
    · have hleaves := active_leaves ht hne
      have hlt := word_lt (tileMax args)
      simp only [rank, St.set]
      omega

theorem step_stays (args : DpuArguments) (htile : s.pc t ≠ .getTile) (hleft : s.pc t ≠ .left) :
    (step args s t).currTile = s.currTile ∧ ∃ p ≠ Pc.left, (step args s t).pc = update s.pc t p := by
  cases hpc : s.pc t with
  | getTile => exact absurd hpc htile
  | left => exact absurd hpc hleft
  | readTile | readNext | writeNext =>
    rw [step, hpc]
    exact ⟨rfl, _, by simp, rfl⟩
  | getDone =>
    rw [step, hpc]
    refine ⟨rfl, _, ?_, rfl⟩
    split <;> simp
  | getAndSetDone =>
    rw [step, hpc]
    dsimp only
    split <;> exact ⟨rfl, _, by simp, rfl⟩

/-- **A step is one of the agents', and one less to make.** -/
theorem Sim.step (hfits : Fits args) (hpos : 0 < args.rows) (h : Sim args N mram s c) (ht : t < N) (hleft : s.pc t ≠ .left) :
    ∃ c', Sim args N mram (step args s t) c' ∧ rank args N (step args s t) c' < rank args N s c := by
  by_cases htile : s.pc t = .getTile
  · exact h.getTile hfits hpos ht htile
  · refine ⟨_, h.next hfits ht htile hleft, ?_⟩
    obtain ⟨hcurr, p, hp, hpc⟩ := step_stays args htile hleft
    have hstays := active_stays ht hp hleft
    have hidle : c.phase t ≠ .idle := by
      rw [h.control.phase]
      cases hpc : s.pc t <;> simp_all [phaseOf]
    have hwork := next_work ht place_mem h.inv hidle
    rw [rank, rank, hcurr, hpc, hstays]
    omega

end

/-! ## The result -/

/-- Every run ends; and when all tasklets are past the loops, row
`r * M_ + q` has what row `q * n + r` had at first, and each row that gets
another's content was written once, the others not at all. -/
structure Transposes (args : DpuArguments) (N : Nat) (mram : Nat → Dword) : Prop where
  finite : ∀ s, Reachable (Init mram) (Step args N) s → Acc (fun s' s => Step args N s s') s
  goesOn : ∀ s, ¬ (∀ t < N, s.pc t = .left) → ∃ s', Step args N s s'
  rows : ∀ s, Reachable (Init mram) (Step args N) s → (∀ t < N, s.pc t = .left) → ∀ q < args.M_.toNat,
    ∀ r < args.n.toNat, row args s.mram (r * args.M_.toNat + q) = row args mram (q * args.n.toNat + r)
  once : ∀ s, Reachable (Init mram) (Step args N) s → (∀ t < N, s.pc t = .left) → ∀ i < args.rows,
    s.written (place args i) = if place args i = i then 0 else 1

section

variable {args : DpuArguments} {N : Nat} {mram : Nat → Dword} {s : St} {c : State Nat (Fin args.m.toNat → Dword)}

theorem Sim.start (hclear : ∀ i < args.rows, flag args mram i = false) (h : Init mram s) : ∃ c, Sim args N mram s c := by
  obtain ⟨rfl, hcurr, hpc, hwritten⟩ := h
  refine ⟨⟨row args s.mram, flag args s.mram, fun _ => .idle, ∅, fun _ => 0⟩, ?_, fun _ _ => rfl, fun _ _ => rfl,
    fun i => (hwritten i).symm, fun t => ?_, fun t _ => hpc t, fun t ht => ?_, fun i _ _ hor => ?_⟩
  · exact Inv.start (fun x hx => hclear x (Finset.mem_range.mp hx)) rfl (fun _ => rfl) rfl (fun _ => rfl) place_mem
  · rw [hpc]
    rfl
  · rw [hpc] at ht
    simp at ht
  · rcases hor with hlt | ⟨t, _, hleft⟩
    · rw [hcurr] at hlt
      exact absurd hlt (Nat.not_lt_zero i)
    · rw [hpc] at hleft
      exact absurd hleft (by simp)

theorem Sim.acc (hfits : Fits args) (hpos : 0 < args.rows) (h : Sim args N mram s c) :
    Acc (fun s' s => Step args N s s') s := by
  induction hk : rank args N s c using Nat.strong_induction_on generalizing s c with
  | _ k ih =>
  subst hk
  refine ⟨s, fun s' ⟨t, ht, hleft, hs'⟩ => ?_⟩
  obtain ⟨c', h', hlt⟩ := h.step hfits hpos ht hleft
  rw [hs']
  exact ih _ hlt h' rfl

theorem Sim.settled (hpos : 0 < args.rows) (hN : 0 < N) (h : Sim args N mram s c) (hall : ∀ t < N, s.pc t = .left) {i : Nat}
    (hi : i < args.rows) :
    row args s.mram (place args i) = row args mram i ∧ s.written (place args i) = if place args i = i then 0 else 1 := by
  rw [← h.rows _ (place_lt hi), ← h.puts]
  split
  next hfix =>
    rw [hfix]
    exact h.inv.fixed (Finset.mem_range.mpr hi) hfix
  next hmove =>
    have hidle : ∀ t, c.phase t = .idle := fun t => by
      rw [h.control.phase]
      by_cases ht : t < N
      · rw [hall t ht]
        rfl
      · rw [h.control.others t (Nat.le_of_not_lt ht)]
        rfl
    have hlast : i ≠ args.rows - 1 := fun he => hmove (by rw [he]; exact place_last hpos)
    exact h.inv.settled hidle (h.control.chosen i (by omega) hmove (.inr ⟨0, hN, hall 0 hN⟩))

end

/-- **The rows are transposed, whatever the order of the tasklets' steps.**
The flags are clear at first, and there is a tasklet. -/
theorem transposes (args : DpuArguments) (hM : 1 ≤ args.M_.toNat) (hn : 1 ≤ args.n.toNat)
    (hfits : Fits args) (N : Nat) (hN : 0 < N) (mram : Nat → Dword) (hclear : ∀ i < args.rows, flag args mram i = false) :
    Transposes args N mram := by
  have hpos : 0 < args.rows := Nat.mul_pos hM hn
  have hsim : ∀ s, Reachable (Init mram) (Step args N) s → ∃ c, Sim args N mram s c := fun s hs => by
    refine hs.invariant _ (fun s h => Sim.start hclear h) fun s s' ⟨c, h⟩ ⟨t, ht, hleft, hs'⟩ => ?_
    obtain ⟨c', h', -⟩ := h.step hfits hpos ht hleft
    exact ⟨c', hs' ▸ h'⟩
  refine ⟨fun s hs => ?_, fun s hall => ?_, fun s hs hall q hq r hr => ?_, fun s hs hall i hi => ?_⟩
  · obtain ⟨c, h⟩ := hsim s hs
    exact h.acc hfits hpos
  · simp only [not_forall] at hall
    obtain ⟨t, ht, hleft⟩ := hall
    exact ⟨_, t, ht, hleft, rfl⟩
  · obtain ⟨c, h⟩ := hsim s hs
    have hi : q * args.n.toNat + r < args.rows := by
      have := row_end args.n.toNat hq
      rw [DpuArguments.rows]
      omega
    rw [← place_mul_add hr]
    exact (h.settled hpos hN hall hi).1
  · obtain ⟨c, h⟩ := hsim s hs
    exact (h.settled hpos hN hall hi).2

/-- Two columns of three rows, each of one element. -/
theorem transposes_three : Transposes ⟨1, 3, 2⟩ 2 fun k => if k < 0x426 then BitVec.ofNat 64 k else 0 :=
  transposes ⟨1, 3, 2⟩ (by decide) (by decide) (by unfold Fits; decide) 2 (by decide) _ (by decide)

end Memclave.Trns
