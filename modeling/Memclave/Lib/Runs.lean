/-
Runs of equal elements: the heads of the runs of a sequence, and how many
there are. `heads_eq` : they are Mathlib's `destutter` of it.
-/
import Mathlib.Data.List.Destutter
import Mathlib.Data.Nat.Count
import Mathlib.Tactic.Common

namespace Runs

variable {α : Type} [DecidableEq α] (f : Nat → α)

/-- A run starts at `k`. -/
def Head (k : Nat) : Prop := k = 0 ∨ f k ≠ f (k - 1)

instance : DecidablePred (Head f) := fun _ => inferInstanceAs (Decidable (_ ∨ _))

/-- The number of runs that start below `n`. -/
def count (n : Nat) : Nat := Nat.count (Head f) n

/-- Their heads, in order. -/
def heads : Nat → List α
  | 0 => []
  | n + 1 => if Head f n then heads n ++ [f n] else heads n

variable {f} {n n' : Nat}

theorem heads_head (h : Head f n) : heads f (n + 1) = heads f n ++ [f n] := if_pos h

theorem heads_not (h : ¬ Head f n) : heads f (n + 1) = heads f n := if_neg h

theorem heads_length (n : Nat) : (heads f n).length = count f n := by
  induction n with
  | zero => simp [heads, count]
  | succ n ih =>
    unfold count at ih ⊢
    by_cases h : Head f n
    · simp [heads_head h, Nat.count_succ, h, ih]
    · simp [heads_not h, Nat.count_succ, h, ih]

theorem count_mono (h : n ≤ n') : count f n ≤ count f n' := Nat.count_monotone _ h

theorem count_le (n : Nat) : count f n ≤ n := Nat.count_le _

theorem count_succ (n : Nat) : count f (n + 1) = count f n + if Head f n then 1 else 0 := Nat.count_succ _ _

theorem heads_prefix (h : n ≤ n') : heads f n <+: heads f n' := by
  induction n', h using Nat.le_induction with
  | base => exact List.prefix_rfl
  | succ m _ ih =>
    refine ih.trans ?_
    by_cases hm : Head f m
    · rw [heads_head hm]
      exact List.prefix_append _ _
    · rw [heads_not hm]

theorem heads_getElem? {i : Nat} (h : n ≤ n') (hi : i < count f n) : (heads f n')[i]? = (heads f n)[i]? := by
  obtain ⟨l, hl⟩ := heads_prefix (f := f) h
  rw [← hl, List.getElem?_append_left (by rwa [heads_length])]

/-- A sequence that is one run. -/
theorem heads_const {x : α} (h : ∀ i ≤ n, f i = x) : heads f (n + 1) = [x] := by
  induction n with
  | zero => simp [heads, Head, h 0 (Nat.le_refl 0)]
  | succ n ih =>
    have hnot : ¬ Head f (n + 1) := by
      simp [Head, h (n + 1) (Nat.le_refl _), h n (Nat.le_succ n)]
    rw [heads_not hnot, ih fun i hi => h i (Nat.le_succ_of_le hi)]

/-! ## As `destutter` -/

theorem destutter'_concat (a b : α) (l : List α) : (l ++ [b]).destutter' (· ≠ ·) a =
    if (a :: l).getLast (List.cons_ne_nil a l) ≠ b then l.destutter' (· ≠ ·) a ++ [b] else l.destutter' (· ≠ ·) a := by
  induction l generalizing a with
  | nil => by_cases h : a = b <;> simp [List.destutter', h]
  | cons c l ih =>
    by_cases hac : a = c
    · subst hac
      simp [List.destutter', ih]
    · simp only [List.cons_append, List.destutter', ne_eq, hac, not_false_eq_true, if_true, ih]
      split <;> simp_all

/-- **The heads are the sequence with each run reduced to one element.** -/
theorem heads_eq (n : Nat) : heads f n = ((List.range n).map f).destutter (· ≠ ·) := by
  induction n with
  | zero => rfl
  | succ n ih =>
    rw [List.range_succ, List.map_append, List.map_singleton]
    cases n with
    | zero => simp [heads, Head]
    | succ n =>
      have hlast : ((List.range (n + 1)).map f).getLast (by simp) = f n := by simp [List.range_succ]
      rw [heads, ih]
      cases hl : (List.range (n + 1)).map f with
      | nil => simp at hl
      | cons a l =>
        simp only [hl] at hlast
        rw [List.cons_append, List.destutter_cons', List.destutter_cons', destutter'_concat, hlast]
        exact if_congr ⟨fun h => (h.resolve_left (Nat.succ_ne_zero n)).symm, fun h => .inr h.symm⟩ rfl rfl

/-! ## Blocks -/

variable (f) in
/-- The heads of the runs of a block of `j + 1` elements from `b` on. -/
def block (b : Nat) : Nat → List α
  | 0 => [f b]
  | j + 1 => if f (b + (j + 1)) ≠ f (b + j) then block b j ++ [f (b + (j + 1))] else block b j

theorem block_ne_nil (b j : Nat) : block f b j ≠ [] := by
  induction j with
  | zero => simp [block]
  | succ j ih =>
    unfold block
    split
    · simp
    · exact ih

theorem block_length_le (b j : Nat) : (block f b j).length ≤ j + 1 := by
  induction j with
  | zero => rfl
  | succ j ih =>
    unfold block
    split
    · rw [List.length_append]
      exact Nat.succ_le_succ ih
    · exact Nat.le_succ_of_le ih

theorem block_head (b j : Nat) : (block f b j)[0]? = some (f b) := by
  induction j with
  | zero => rfl
  | succ j ih =>
    unfold block
    split
    · rw [List.getElem?_append_left (List.length_pos_iff.mpr (block_ne_nil b j)), ih]
    · exact ih

theorem block_last (b j : Nat) : (block f b j).getLast (block_ne_nil b j) = f (b + j) := by
  induction j with
  | zero => rfl
  | succ j ih =>
    unfold block
    split
    next => simp
    next h => exact ih.trans (not_not.mp h).symm

/-- **A block after the heads so far**: its first element counts only if a run
starts there. -/
theorem heads_block (b j : Nat) : heads f (b + j + 1) = heads f b ++ (block f b j).drop (if Head f b then 0 else 1) := by
  induction j with
  | zero => by_cases h : Head f b <;> simp [heads, block, h]
  | succ j ih =>
    have hhead : Head f (b + (j + 1)) ↔ f (b + (j + 1)) ≠ f (b + j) := by
      simp [Head, ← Nat.add_assoc]
    have hlen : (if Head f b then 0 else 1) ≤ (block f b j).length := by
      have := List.length_pos_iff.mpr (block_ne_nil (f := f) b j)
      split <;> omega
    rw [heads, ← Nat.add_assoc, ih, block]
    by_cases h : f (b + (j + 1)) = f (b + j)
    · rw [if_neg (by rw [← Nat.add_assoc] at hhead; rw [hhead]; exact not_not.mpr h), if_neg (not_not.mpr h)]
    · rw [if_pos (by rw [← Nat.add_assoc] at hhead; rw [hhead]; exact h), if_pos h, List.drop_append_of_le_length hlen,
        ← List.append_assoc]
      rfl

end Runs
