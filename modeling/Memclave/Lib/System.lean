/-
Transition systems: the states a step relation reaches, the one induction
every invariant is proved with, and the one that leads a run to a goal. A
step that is a function has one run from each state (`Runs`).
-/
import Mathlib.Algebra.BigOperators.Group.Finset.Basic
import Mathlib.Data.Nat.Basic
import Mathlib.Logic.Relation

namespace Sys

variable {σ : Type*}

/-- The states reached from an initial one by any number of steps. -/
inductive Reachable (init : σ → Prop) (step : σ → σ → Prop) : σ → Prop
  | init {s} : init s → Reachable init step s
  | step {s s'} : Reachable init step s → step s s' → Reachable init step s'

variable {init : σ → Prop} {step : σ → σ → Prop}

/-- What holds at first and is kept by every step holds in every reachable
state. -/
theorem Reachable.invariant (I : σ → Prop) (h0 : ∀ s, init s → I s)
    (hs : ∀ s s', I s → step s s' → I s') {s : σ} (h : Reachable init step s) : I s := by
  induction h with
  | init h => exact h0 _ h
  | step _ h ih => exact hs _ _ ih h

theorem Reachable.mono {step' : σ → σ → Prop} {s : σ} (h : Reachable init step s)
    (hs : ∀ s s', step s s' → step' s s') : Reachable init step' s := by
  induction h with
  | init h => exact .init h
  | step _ h1 ih => exact .step ih (hs _ _ h1)

theorem Reachable.star {s s' : σ} (h : Reachable init step s) (hs : Relation.ReflTransGen step s s') :
    Reachable init step s' := by
  induction hs with
  | refl => exact h
  | tail _ h1 ih => exact .step ih h1

/-- Where every state short of the goal has a step that lowers `m`, some
run reaches the goal. -/
theorem leads_to (step : σ → σ → Prop) (I goal : σ → Prop) (m : σ → Nat)
    (h : ∀ s, I s → ¬ goal s → ∃ s', step s s' ∧ I s' ∧ m s' < m s) {s : σ} (hi : I s) :
    ∃ s', Relation.ReflTransGen step s s' ∧ I s' ∧ goal s' := by
  by_cases hg : goal s
  · exact ⟨s, .refl, hi, hg⟩
  · obtain ⟨s1, h1, hi1, hm⟩ := h s hi hg
    obtain ⟨s2, h2, hg2⟩ := leads_to step I goal m h hi1
    exact ⟨s2, .head h1 h2, hg2⟩
termination_by m s

/-- The same where the invariant counts something that is not in the state. -/
theorem leads_to_at {α : Type*} (step : σ → σ → Prop) (I : α → σ → Prop) (goal : α → σ → Prop) (m : α → σ → Nat)
    (h : ∀ a s, I a s → ¬ goal a s → ∃ a' s', step s s' ∧ I a' s' ∧ m a' s' < m a s) {a : α} {s : σ} (hi : I a s) :
    ∃ a' s', Relation.ReflTransGen step s s' ∧ I a' s' ∧ goal a' s' := by
  obtain ⟨x, hrun, hx, hg⟩ := leads_to (fun x x' : α × σ => step x.2 x'.2) (fun x => I x.1 x.2) (fun x => goal x.1 x.2)
    (fun x => m x.1 x.2) (fun x hx hg => by
      obtain ⟨a', s', h1, hi', hm⟩ := h x.1 x.2 hx hg
      exact ⟨(a', s'), h1, hi', hm⟩) (s := (a, s)) hi
  exact ⟨x.1, x.2, hrun.lift Prod.snd fun _ _ h => h, hx, hg⟩

/-- A sum over the threads, after one of them has moved. -/
theorem sum_update {ι α : Type*} [DecidableEq ι] {ids : Finset ι} {i : ι} (hi : i ∈ ids) (g : α → Nat)
    (pc : ι → α) (p : α) :
    (∑ j ∈ ids, g (Function.update pc i p j)) + g (pc i) = (∑ j ∈ ids, g (pc j)) + g p := by
  rw [← Finset.add_sum_erase ids _ hi, ← Finset.add_sum_erase ids (fun j => g (pc j)) hi]
  have h : ∑ j ∈ ids.erase i, g (Function.update pc i p j) = ∑ j ∈ ids.erase i, g (pc j) := by
    refine Finset.sum_congr rfl fun j hj => ?_
    rw [Function.update_of_ne (Finset.ne_of_mem_erase hj)]
  rw [h, Function.update_self]
  omega

/-! ## Runs of a function -/

variable {f : σ → σ} {G : σ → Prop} {n n' : Nat} {s s1 s2 : σ}

/-- `n` steps of `f` lead from `s` to `s1`, through states that all have `G`. -/
structure Runs (f : σ → σ) (G : σ → Prop) (n : Nat) (s s1 : σ) : Prop where
  ends : f^[n] s = s1
  good : ∀ k < n, G (f^[k] s)

theorem Runs.one (h : G s) : Runs f G 1 s (f s) :=
  ⟨rfl, fun k hk => by rwa [Nat.lt_one_iff.mp hk]⟩

theorem Runs.trans (h : Runs f G n s s1) (h' : Runs f G n' s1 s2) : Runs f G (n + n') s s2 := by
  refine ⟨?_, fun k hk => ?_⟩
  · rw [Nat.add_comm, Function.iterate_add_apply, h.ends, h'.ends]
  · cases Nat.lt_or_ge k n with
    | inl hkn => exact h.good k hkn
    | inr hkn =>
      obtain ⟨j, rfl⟩ := Nat.exists_eq_add_of_le hkn
      rw [Nat.add_comm, Function.iterate_add_apply, h.ends]
      exact h'.good j (by omega)

theorem Runs.mono {G' : σ → Prop} (h : Runs f G n s s1) (hG : ∀ s, G s → G' s) : Runs f G' n s s1 :=
  ⟨h.ends, fun k hk => hG _ (h.good k hk)⟩

/-- As a part of a longer run. -/
theorem Runs.later {s0 : σ} {j : Nat} (h : Runs f G n s s1) (hs : f^[j] s0 = s) :
    f^[j + n] s0 = s1 ∧ ∀ k, j ≤ k → k < j + n → G (f^[k] s0) := by
  refine ⟨by rw [Nat.add_comm, Function.iterate_add_apply, hs, h.ends], fun k hj hk => ?_⟩
  obtain ⟨i, rfl⟩ := Nat.exists_eq_add_of_le hj
  rw [Nat.add_comm, Function.iterate_add_apply, hs]
  exact h.good i (by omega)

/-- A round of `c` steps, `n` times over. -/
theorem Runs.rounds {c : Nat} {I : Nat → σ → Prop}
    (h : ∀ i < n, ∀ s, I i s → ∃ s', Runs f G c s s' ∧ I (i + 1) s') :
    ∀ i ≤ n, ∀ s, I 0 s → ∃ s', Runs f G (c * i) s s' ∧ I i s' := by
  intro i hi s h0
  induction i with
  | zero => exact ⟨s, ⟨rfl, fun k hk => absurd hk (Nat.not_lt_zero k)⟩, h0⟩
  | succ i ih =>
    obtain ⟨s1, hr1, h1⟩ := ih (by omega)
    obtain ⟨s2, hr2, h2⟩ := h i (by omega) s1 h1
    exact ⟨s2, hr1.trans hr2, h2⟩

end Sys
