/-
Memories as functions of a cell, and copying between and within them.

`blit` moves a block between two memories, as one transfer does. `fwd`
copies within one memory, a cell at a time from the lowest on: it is the
block that was there (`fwd_eq`) unless the source starts below the
destination and reaches into it; then the first cells repeat (`fwd_repeat`),
which a block that repeats anyway does not show (`fwd_of_repeats`).
-/
import Mathlib.Logic.Function.Basic

namespace Copy

variable {α : Type}

/-- `n` cells of `src` from `s` on, put into `m` from `d` on. -/
def blit (m : Nat → α) (d : Nat) (src : Nat → α) (s n : Nat) : Nat → α :=
  fun k => if d ≤ k ∧ k < d + n then src (s + (k - d)) else m k

theorem blit_in {m : Nat → α} {d : Nat} {src : Nat → α} {s n k : Nat} (h : d ≤ k) (h' : k < d + n) :
    blit m d src s n k = src (s + (k - d)) := if_pos ⟨h, h'⟩

theorem blit_out {m : Nat → α} {d : Nat} {src : Nat → α} {s n k : Nat} (h : k < d ∨ d + n ≤ k) :
    blit m d src s n k = m k := if_neg (by omega)

/-- Two transfers that follow one another are one. -/
theorem blit_blit {m : Nat → α} {d : Nat} {src : Nat → α} {s n n' : Nat} :
    blit (blit m d src s n) (d + n) src (s + n) n' = blit m d src s (n + n') := by
  funext k
  by_cases h1 : d ≤ k ∧ k < d + n
  · rw [blit_out (by omega), blit_in h1.1 h1.2, blit_in h1.1 (by omega)]
  · by_cases h2 : d + n ≤ k ∧ k < d + n + n'
    · rw [blit_in h2.1 h2.2, blit_in (by omega) (by omega)]
      congr 1
      omega
    · rw [blit_out (by omega), blit_out (by omega), blit_out (by omega)]

/-- By way of a buffer in another memory. -/
theorem blit_through {m w src : Nat → α} {d b s n : Nat} :
    blit m d (blit w b src s n) b n = blit m d src s n := by
  funext k
  by_cases h : d ≤ k ∧ k < d + n
  · rw [blit_in h.1 h.2, blit_in h.1 h.2, blit_in (by omega) (by omega)]
    congr 1
    omega
  · rw [blit_out (by omega), blit_out (by omega)]

theorem blit_self {m : Nat → α} {s n : Nat} : blit m s m s n = m := by
  funext k
  by_cases h : s ≤ k ∧ k < s + n
  · rw [blit_in h.1 h.2]
    congr 1
    omega
  · rw [blit_out (by omega)]

/-! ## A block as a list -/

/-- The `n` cells from `p` on. -/
def cells (m : Nat → α) (p n : Nat) : List α := (List.range n).map fun i => m (p + i)

theorem cells_length {m : Nat → α} {p n : Nat} : (cells m p n).length = n := by
  rw [cells, List.length_map, List.length_range]

theorem cells_getElem {m : Nat → α} {p n i : Nat} (h : i < (cells m p n).length) : (cells m p n)[i] = m (p + i) := by
  simp only [cells, List.getElem_map, List.getElem_range]

theorem cells_congr {m m' : Nat → α} {p n : Nat} (h : ∀ k, p ≤ k → k < p + n → m' k = m k) :
    cells m' p n = cells m p n := by
  refine List.map_congr_left fun i hi => h _ (by omega) ?_
  have := List.mem_range.mp hi
  omega

theorem cells_add {m : Nat → α} {p n n' : Nat} : cells m p (n + n') = cells m p n ++ cells m (p + n) n' := by
  rw [cells, List.range_add, List.map_append, List.map_map]
  refine congrArg (cells m p n ++ ·) (List.map_congr_left fun i _ => ?_)
  rw [Function.comp_apply, Nat.add_assoc]

/-- A list, put into `m` from `d` on. -/
def lay (m : Nat → α) (d : Nat) (l : List α) : Nat → α :=
  fun k => if h : d ≤ k ∧ k < d + l.length then l[k - d] else m k

theorem lay_in {m : Nat → α} {d i : Nat} {l : List α} (h : i < l.length) : lay m d l (d + i) = l[i] := by
  rw [lay, dif_pos (by omega)]
  simp only [Nat.add_sub_cancel_left]

theorem lay_out {m : Nat → α} {d k : Nat} {l : List α} (h : k < d ∨ d + l.length ≤ k) : lay m d l k = m k :=
  dif_neg (by omega)

/-! ## A block and its copy that overlap -/

/-- How far the two are apart. -/
def gap (s d : Nat) : Nat := s - d + (d - s)

/-- The `n` cells from `s` on repeat after `g` cells. -/
def Repeats (m : Nat → α) (s n g : Nat) : Prop := ∀ i, i + g < n → m (s + i) = m (s + i + g)

theorem Repeats.mod {m : Nat → α} {s n g : Nat} (h : Repeats m s n g) (hg : 0 < g) {i : Nat} (hi : i < n) :
    m (s + i % g) = m (s + i) := by
  induction i using Nat.strongRecOn with
  | ind i ih =>
    by_cases hlt : i < g
    · rw [Nat.mod_eq_of_lt hlt]
    · have hm := h (i - g) (by omega)
      rw [Nat.mod_eq_sub_mod (by omega), ih (i - g) (by omega) (by omega), hm]
      congr 1
      omega

/-- The copy leaves the block as it was if and only if the block repeats
after the distance. -/
theorem blit_keeps_iff {m : Nat → α} {s d n : Nat} :
    (∀ j < n, blit m d m s n (s + j) = m (s + j)) ↔ Repeats m s n (gap s d) := by
  unfold Repeats gap
  cases Nat.le_total s d with
  | inl h =>
    rw [show s - d + (d - s) = d - s by omega]
    constructor
    · intro hk i hi
      have hj := hk (i + (d - s)) hi
      rw [blit_in (by omega) (by omega)] at hj
      rw [Nat.add_assoc, ← hj]
      congr 1
      omega
    · intro hr j hj
      by_cases hd : d ≤ s + j
      · rw [blit_in hd (by omega), show s + (s + j - d) = s + (j - (d - s)) by omega, hr _ (by omega)]
        congr 1
        omega
      · rw [blit_out (by omega)]
  | inr h =>
    rw [show s - d + (d - s) = s - d by omega]
    constructor
    · intro hk i hi
      have hj := hk i (by omega)
      rw [blit_in (by omega) (by omega)] at hj
      rw [← hj]
      congr 1
      omega
    · intro hr j hj
      by_cases hd : s + j < d + n
      · rw [blit_in (by omega) hd, hr j (by omega)]
        congr 1
        omega
      · rw [blit_out (by omega)]

/-! ## Copying within one memory -/

def fwd (m : Nat → α) (s d : Nat) : Nat → Nat → α
  | 0 => m
  | n + 1 => Function.update (fwd m s d n) (d + n) (fwd m s d n (s + n))

variable {m : Nat → α} {s d : Nat}

theorem fwd_out {n k : Nat} (h : k < d ∨ d + n ≤ k) : fwd m s d n k = m k := by
  induction n with
  | zero => rfl
  | succ n ih => rw [fwd, Function.update_of_ne (by omega), ih (by omega)]

theorem fwd_eq (n : Nat) (h : d ≤ s ∨ s + n ≤ d) : fwd m s d n = blit m d m s n := by
  induction n with
  | zero =>
    funext k
    rw [blit_out (by omega), fwd]
  | succ n ih =>
    have ih := ih (by omega)
    -- the cell to be read has not been written yet
    have hr : fwd m s d n (s + n) = m (s + n) := fwd_out (by omega)
    funext k
    rw [fwd, hr]
    by_cases hk : k = d + n
    · subst hk
      rw [Function.update_self, blit_in (by omega) (by omega)]
      congr 1
      omega
    · rw [Function.update_of_ne hk, ih]
      by_cases h1 : d ≤ k ∧ k < d + n
      · rw [blit_in h1.1 h1.2, blit_in h1.1 (by omega)]
      · rw [blit_out (by omega), blit_out (by omega)]

/-- The source below the destination: what lies between the two is repeated. -/
theorem fwd_repeat (hsd : s < d) (n k : Nat) :
    fwd m s d n k = if d ≤ k ∧ k < d + n then m (s + (k - d) % (d - s)) else m k := by
  induction n generalizing k with
  | zero => rw [fwd, if_neg (by omega)]
  | succ n ih =>
    rw [fwd]
    by_cases hk : k = d + n
    · subst hk
      rw [Function.update_self, if_pos (by omega), ih, show d + n - d = n by omega]
      by_cases hn : n < d - s
      · rw [if_neg (by omega), Nat.mod_eq_of_lt hn]
      · rw [if_pos (by omega), show s + n - d = n - (d - s) by omega,
          Nat.mod_eq_sub_mod (show n ≥ d - s by omega)]
    · rw [Function.update_of_ne hk, ih]
      by_cases h1 : d ≤ k ∧ k < d + n
      · rw [if_pos h1, if_pos (by omega)]
      · rw [if_neg h1, if_neg (by omega)]

theorem fwd_self (n : Nat) : fwd m s s n = m := by rw [fwd_eq n (.inl (Nat.le_refl s)), blit_self]

/-- A block that repeats after the distance is copied whole, in either
direction. -/
theorem fwd_of_repeats {n : Nat} (h : Repeats m s n (gap s d)) : fwd m s d n = blit m d m s n := by
  by_cases hsd : s < d
  · rw [gap, show s - d + (d - s) = d - s by omega] at h
    funext k
    rw [fwd_repeat hsd]
    by_cases hk : d ≤ k ∧ k < d + n
    · rw [if_pos hk, h.mod (by omega) (by omega), blit_in hk.1 hk.2]
    · rw [if_neg hk, blit_out (by omega)]
  · exact fwd_eq n (.inl (by omega))

/-- Two cells at once are two cells in turn, unless the second is the first
one written. -/
theorem fwd_two (n : Nat) (h : d ≠ s + 1) :
    fwd m s d (n + 2) = blit (fwd m s d n) (d + n) (fwd m s d n) (s + n) 2 := by
  funext k
  rw [fwd, fwd]
  by_cases h1 : k = d + (n + 1)
  · subst h1
    rw [Function.update_self, Function.update_of_ne (by omega), blit_in (by omega) (by omega)]
    congr 1
    omega
  · rw [Function.update_of_ne h1]
    by_cases h0 : k = d + n
    · subst h0
      rw [Function.update_self, blit_in (by omega) (by omega)]
      congr 1
      omega
    · rw [Function.update_of_ne h0, blit_out (by omega)]

/-- A copy, and the next one from where it ended. -/
theorem fwd_fwd (n n' : Nat) : fwd (fwd m s d n) (s + n) (d + n) n' = fwd m s d (n + n') := by
  induction n' with
  | zero => rfl
  | succ n' ih => rw [fwd, ih, ← Nat.add_assoc n, fwd, Nat.add_assoc d, Nat.add_assoc s]

end Copy
