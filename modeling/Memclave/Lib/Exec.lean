/-
Programs with a state and faults, and the rules for what a run of one does.

`wp x Q E s` says that `x` run from `s` returns a value and a state in `Q`,
or ends in a fault with a state in `E`. One fact of this form about a
function serves for both of its ends: `wp.ok` and `wp.error` read it back
from a run, `wp.total` gives a run where the fault is excluded.
-/
import Mathlib.Tactic.Common

namespace Exec

variable {ε σ α β : Type} {Q Q' : α → σ → Prop} {E E' : ε → σ → Prop}

def wp (x : EStateM ε σ α) (Q : α → σ → Prop) (E : ε → σ → Prop) (s : σ) : Prop :=
  match x s with
  | .ok a s' => Q a s'
  | .error e s' => E e s'

/-! ## Reading a run -/

theorem wp.ok {x : EStateM ε σ α} {s s' : σ} {a : α} (h : wp x Q E s) (hx : x s = .ok a s') : Q a s' := by
  unfold wp at h
  rwa [hx] at h

theorem wp.error {x : EStateM ε σ α} {s s' : σ} {e : ε} (h : wp x Q E s) (hx : x s = .error e s') :
    E e s' := by
  unfold wp at h
  rwa [hx] at h

theorem wp.total {x : EStateM ε σ α} {s : σ} (h : wp x Q (fun _ _ => False) s) :
    ∃ a s', x s = .ok a s' ∧ Q a s' := by
  unfold wp at h
  split at h
  next a s' hx => exact ⟨a, s', hx, h⟩
  next => exact h.elim

theorem wp.mono {x : EStateM ε σ α} {s : σ} (h : wp x Q E s) (hQ : ∀ a s', Q a s' → Q' a s')
    (hE : ∀ e s', E e s' → E' e s') : wp x Q' E' s := by
  unfold wp at h ⊢
  split at h
  next => exact hQ _ _ h
  next => exact hE _ _ h

theorem bind_ok {x : EStateM ε σ α} {f : α → EStateM ε σ β} {s s' : σ} {a : α} (h : x s = .ok a s') :
    (x >>= f) s = f a s' := by
  show EStateM.bind x f s = _
  rw [EStateM.bind, h]

theorem bind_error {x : EStateM ε σ α} {f : α → EStateM ε σ β} {s s' : σ} {e : ε} (h : x s = .error e s') :
    (x >>= f) s = .error e s' := by
  show EStateM.bind x f s = _
  rw [EStateM.bind, h]

/-- What holds of every end of a run and what holds of none do not go
together. -/
theorem wp.absurd {x : EStateM ε σ α} {s : σ} (h : wp x Q E s)
    (h' : wp x (fun a s' => ¬ Q a s') (fun e s' => ¬ E e s') s) : False := by
  unfold wp at h h'
  split at h <;> rename_i hx <;> rw [hx] at h' <;> exact h' h

/-! ## The constructs -/

@[simp] theorem wp_pure {a : α} {s : σ} : wp (pure a : EStateM ε σ α) Q E s ↔ Q a s := Iff.rfl

@[simp] theorem wp_throw {e : ε} {s : σ} : wp (throw e : EStateM ε σ α) Q E s ↔ E e s := Iff.rfl

@[simp] theorem wp_get {Q : σ → σ → Prop} {s : σ} : wp (get : EStateM ε σ σ) Q E s ↔ Q s s := Iff.rfl

@[simp] theorem wp_set {Q : PUnit → σ → Prop} {s t : σ} :
    wp (set t : EStateM ε σ PUnit) Q E s ↔ Q ⟨⟩ t := Iff.rfl

@[simp] theorem wp_modify {Q : PUnit → σ → Prop} {s : σ} {f : σ → σ} :
    wp (modify f : EStateM ε σ PUnit) Q E s ↔ Q ⟨⟩ (f s) := Iff.rfl

@[simp] theorem wp_bind {x : EStateM ε σ α} {f : α → EStateM ε σ β} {Q : β → σ → Prop} {s : σ} :
    wp (x >>= f) Q E s ↔ wp x (fun a s' => wp (f a) Q E s') E s := by
  change wp (EStateM.bind x f) Q E s ↔ _
  simp only [wp, EStateM.bind]
  cases x s <;> exact Iff.rfl

theorem wp_ite {c : Prop} [Decidable c] {x y : EStateM ε σ α} {s : σ} :
    wp (if c then x else y) Q E s ↔ (c → wp x Q E s) ∧ (¬ c → wp y Q E s) := by
  by_cases h : c <;> simp [h]

/-- A function by its own fact, and then the rest. -/
theorem wp.bind {x : EStateM ε σ α} {f : α → EStateM ε σ β} {R : β → σ → Prop} {s : σ}
    (h : wp x Q E s) (hf : ∀ a s', Q a s' → wp (f a) R E' s') (hE : ∀ e s', E e s' → E' e s') :
    wp (x >>= f) R E' s :=
  wp_bind.mpr (h.mono hf hE)

/-! ## Counting loops -/

/-- `n` passes of `f`, from `i` on. -/
def forLoop (f : Nat → α → EStateM ε σ α) : Nat → Nat → α → EStateM ε σ α
  | 0, _, x => pure x
  | n + 1, i, x => f i x >>= forLoop f n (i + 1)

/-- `for (i = a; i < b; ++i)`. -/
def forRange (a b : Nat) (x : α) (f : Nat → α → EStateM ε σ α) : EStateM ε σ α := forLoop f (b - a) a x

theorem wp_forLoop {f : Nat → α → EStateM ε σ α} (I : Nat → α → σ → Prop) {n : Nat} :
    ∀ {i : Nat} {x : α} {s : σ}, I i x s →
      (∀ j y t, i ≤ j → j < i + n → I j y t → wp (f j y) (I (j + 1)) E t) →
      wp (forLoop f n i x) (I (i + n)) E s := by
  induction n with
  | zero => exact fun h _ => h
  | succ n ih =>
    intro i x s h hf
    refine wp.bind (hf i x s (Nat.le_refl i) (by omega) h) (fun y t ht => ?_) fun _ _ he => he
    rw [show i + (n + 1) = i + 1 + n by omega]
    exact ih ht fun j y t hj hj' => hf j y t (by omega) (by omega)

/-- The loop rule: `I` holds before each pass, and at the bound after the last. -/
theorem wp_forRange {f : Nat → α → EStateM ε σ α} (I : Nat → α → σ → Prop) {a b : Nat} {x : α} {s : σ}
    (h : I a x s) (hf : ∀ j y t, a ≤ j → j < b → I j y t → wp (f j y) (I (j + 1)) E t) :
    wp (forRange a b x f) (I (max a b)) E s := by
  rw [show max a b = a + (b - a) by omega]
  exact wp_forLoop I h fun j y t hj hj' => hf j y t hj (by omega)

end Exec
