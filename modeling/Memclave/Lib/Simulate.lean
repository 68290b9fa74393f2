/-
A program with a state and faults, and a machine that does what it does: from
some state of the machine a run of it ends as the program ends.

`Sim f F v x s K` says so of the machine `f` in the state `v` and of `x` from
`s`: where `x` returns `a` in `s'`, some run from `v` ends in `K a s'`, and
where it faults with `e`, in `F e s'`. The rules go through both codes side
by side.
-/
import Memclave.Lib.Exec
import Mathlib.Logic.Function.Iterate

namespace Exec

variable {ν ε σ α β : Type} {f : ν → ν} {F : ε → σ → ν → Prop} {v v' : ν} {s : σ}

/-- Some run ends in a state with `Q`. -/
def Goes (f : ν → ν) (v : ν) (Q : ν → Prop) : Prop := ∃ n, Q (f^[n] v)

variable {Q R : ν → Prop}

theorem Goes.here (h : Q v) : Goes f v Q := ⟨0, h⟩

theorem Goes.step (h : Goes f (f v) Q) : Goes f v Q := by
  obtain ⟨n, hn⟩ := h
  exact ⟨n + 1, hn⟩

theorem Goes.after {n : Nat} (h : Goes f (f^[n] v) Q) : Goes f v Q := by
  obtain ⟨k, hk⟩ := h
  refine ⟨k + n, ?_⟩
  rwa [Function.iterate_add_apply]

theorem Goes.mono (h : Goes f v Q) (hQ : ∀ v', Q v' → R v') : Goes f v R := by
  obtain ⟨n, hn⟩ := h
  exact ⟨n, hQ _ hn⟩

def Sim (f : ν → ν) (F : ε → σ → ν → Prop) (v : ν) (x : EStateM ε σ α) (s : σ) (K : α → σ → ν → Prop) : Prop :=
  wp x (fun a s' => Goes f v (K a s')) (fun e s' => Goes f v (F e s')) s

variable {x : EStateM ε σ α} {g : α → EStateM ε σ β} {K K' : α → σ → ν → Prop} {J : β → σ → ν → Prop}

/-- The machine goes on by itself. -/
theorem Sim.step (h : Sim f F (f v) x s K) : Sim f F v x s K :=
  wp.mono h (fun _ _ h => h.step) fun _ _ h => h.step

theorem Sim.goes (h : Goes f v Q) (hQ : ∀ v', Q v' → Sim f F v' x s K) : Sim f F v x s K := by
  obtain ⟨n, hn⟩ := h
  exact wp.mono (hQ _ hn) (fun _ _ h => h.after) fun _ _ h => h.after

theorem Sim.pure {a : α} (h : K a s v) : Sim f F v (Pure.pure a) s K := Goes.here h

theorem Sim.throw {e : ε} (h : F e s v) : Sim f F v (MonadExcept.throw e : EStateM ε σ α) s K := Goes.here h

/-- A program that goes through a second one. -/
theorem Sim.bind (h : Sim f F v x s K) (hg : ∀ a s' v', K a s' v' → Sim f F v' (g a) s' J) : Sim f F v (x >>= g) s J := by
  refine wp.bind h (fun a s' ha => ?_) fun _ _ he => he
  obtain ⟨n, hn⟩ := ha
  exact Sim.goes ⟨n, rfl⟩ fun v' hv => hg a s' v' (hv ▸ hn)

/-- At the end of a program. -/
theorem Sim.last (h : Sim f F v (x >>= Pure.pure) s K) : Sim f F v x s K := by
  unfold Sim at h
  rw [wp_bind] at h
  exact h

theorem Sim.mono (h : Sim f F v x s K) (hK : ∀ a s' v', K a s' v' → K' a s' v') : Sim f F v x s K' :=
  wp.mono h (fun a s' h => h.mono (hK a s')) fun _ _ h => h

end Exec
