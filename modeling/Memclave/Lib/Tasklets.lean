/-
Tasklets that share a state and meet at barriers.

`Prog` is the program of one tasklet: a tree of single actions on the shared
state. A state of all of them is `Conf`; one step is one action of one of
them, or the release of a barrier that all of them have reached.

A `Protocol` says for each phase, between two barriers, what a tasklet may do
to the shared state (`guar`) and what it brings to the barrier (`brings`).
`Safe` is the assertion that a tasklet keeps to it whatever the others do
within it. `Protocol.sound`: where every tasklet is `Safe`, what each ends
with holds once all have ended. A run cannot go on for ever (`Step.wf`), and
where whoever waits for another one waits for one that can act, it goes on
until all have ended (`Protocol.progress`): `Protocol.ends` is both.
-/
import Memclave.Lib.System
import Mathlib.Data.DFinsupp.WellFounded
import Mathlib.Logic.Function.Basic
import Mathlib.Tactic.Common

namespace Tasklets

open Function Sys

/-! ## Programs -/

/-- A program ends with a value, acts in one step, for which it may have to
wait (`none`), or waits at a barrier. -/
inductive Prog (σ α : Type) : Type 1
  | ret (a : α)
  | act {β : Type} (f : σ → Option (β × σ)) (k : β → Prog σ α)
  | wait (k : Prog σ α)

variable {σ α β : Type}

def Prog.bind : Prog σ α → (α → Prog σ β) → Prog σ β
  | .ret a, q => q a
  | .act f k, q => .act f fun b => (k b).bind q
  | .wait k, q => .wait (k.bind q)

instance : Monad (Prog σ) where
  pure := .ret
  bind := .bind

namespace Prog

/-- A value of the shared state. -/
def read (f : σ → β) : Prog σ β := .act (fun s => some (f s, s)) .ret

def write (f : σ → σ) : Prog σ Unit := .act (fun s => some ((), f s)) .ret

/-- A value of the shared state, and what is noted of reading it. -/
def readWrite (f : σ → β) (g : σ → σ) : Prog σ β := .act (fun s => some (f s, g s)) .ret

/-- A loop that waits for a condition. -/
def await (c : σ → Bool) : Prog σ Unit := .act (fun s => if c s then some ((), s) else none) .ret

/-- Waiting for a condition, and an action that no other comes between. -/
def awaitWrite (c : σ → Bool) (f : σ → σ) : Prog σ Unit := .act (fun s => if c s then some ((), f s) else none) .ret

def barrier : Prog σ Unit := .wait (.ret ())

/-- `if (c) p;` -/
def when (c : Prop) [Decidable c] (p : Prog σ Unit) : Prog σ Unit := if c then p else .ret ()

/-- `n` passes of `f`, from `i` on. -/
def times (f : Nat → α → Prog σ α) : Nat → Nat → α → Prog σ α
  | 0, _, x => .ret x
  | n + 1, i, x => (f i x).bind (times f n (i + 1))

/-- The passes of `for (i = a; i < b; i += c)`. -/
def passes (a b c : Nat) : Nat := (b - a + (c - 1)) / c

/-- `for (i = a; i < b; i += c)`, with a variable that the passes change. -/
def forStep (a b c : Nat) (x : α) (f : Nat → α → Prog σ α) : Prog σ α := times (fun i => f (a + c * i)) (passes a b c) 0 x

/-- The same without a variable. -/
def loop (a b c : Nat) (f : Nat → Prog σ Unit) : Prog σ Unit := forStep a b c () fun i _ => f i

def atBarrier : Prog σ α → Bool
  | .wait _ => true
  | _ => false

def ended : Prog σ α → Bool
  | .ret _ => true
  | _ => false

/-- Past the barrier. -/
def pass : Prog σ α → Prog σ α
  | .wait k => k
  | p => p

end Prog

/-! ## Runs -/

/-- The shared state and what each tasklet has still to do. -/
structure Conf (σ : Type) where
  state : σ
  progs : Nat → Prog σ Unit

/-- One action of tasklet `t`. -/
def Conf.act (c : Conf σ) (t : Nat) : Option (Conf σ) :=
  match c.progs t with
  | .act f k => (f c.state).map fun (b, s) => ⟨s, update c.progs t (k b)⟩
  | _ => none

section

variable (N : Nat)

/-- All `N` tasklets pass the barrier that they wait at. -/
def Conf.release (c : Conf σ) : Option (Conf σ) :=
  if (List.range N).all fun t => (c.progs t).atBarrier then some { c with progs := fun t => (c.progs t).pass } else none

/-- One step; an action only if `ok` allows what it does. -/
inductive Step (ok : σ → σ → Bool) (c c' : Conf σ) : Prop
  | act {t} : t < N → c.act t = some c' → ok c.state c'.state = true → Step ok c c'
  | release : c.release N = some c' → Step ok c c'

/-- Every action is allowed. -/
def free : σ → σ → Bool := fun _ _ => true

def Starts (init : σ → Prop) (main : Nat → Prog σ Unit) (c : Conf σ) : Prop := init c.state ∧ c.progs = main

def Conf.Finished (c : Conf σ) : Prop := ∀ t < N, (c.progs t).ended = true

end

theorem Step.mono {N : Nat} {ok ok' : σ → σ → Bool} {c c' : Conf σ} (h : ∀ s s', ok s s' = true → ok' s s' = true)
    (hs : Step N ok c c') : Step N ok' c c' := by
  cases hs with
  | act ht ha hok => exact .act ht ha (h _ _ hok)
  | release hr => exact .release hr

theorem Conf.act_some {c c' : Conf σ} {t : Nat} (h : c.act t = some c') : ∃ (β : Type) (f : σ → Option (β × σ)) (k : β → Prog σ Unit)
    (b : β), c.progs t = .act f k ∧ f c.state = some (b, c'.state) ∧ c'.progs = update c.progs t (k b) := by
  unfold Conf.act at h
  split at h
  next f k hp =>
    obtain ⟨⟨b, s⟩, hf, rfl⟩ := Option.map_eq_some_iff.mp h
    exact ⟨_, f, k, b, hp, hf, rfl⟩
  next => exact absurd h (by simp)

theorem Conf.release_some {N : Nat} {c c' : Conf σ} (h : c.release N = some c') :
    c'.state = c.state ∧ ∀ t < N, ∃ k, c.progs t = .wait k ∧ c'.progs t = k := by
  unfold Conf.release at h
  split at h
  next hall =>
    obtain rfl := Option.some.inj h
    refine ⟨rfl, fun t ht => ?_⟩
    have hat := List.all_eq_true.mp hall t (List.mem_range.mpr ht)
    cases hp : c.progs t with
    | wait k => exact ⟨k, rfl, by simp [hp, Prog.pass]⟩
    | ret a => simp [hp, Prog.atBarrier] at hat
    | act f k => simp [hp, Prog.atBarrier] at hat
  next => exact absurd h (by simp)

/-! ### A run ends -/

/-- What is left of a program. -/
inductive Prog.Rest : Prog σ α → Prog σ α → Prop
  | act {β : Type} {f : σ → Option (β × σ)} {k : β → Prog σ α} {b : β} : Rest (k b) (.act f k)
  | wait {k : Prog σ α} : Rest k (.wait k)

theorem Prog.rest_wf : WellFounded (Prog.Rest (σ := σ) (α := α)) := by
  refine ⟨fun p => ?_⟩
  induction p with
  | ret a => exact ⟨_, fun p' h => nomatch h⟩
  | act f k ih =>
    refine ⟨_, fun p' h => ?_⟩
    cases h with
    | act => exact ih _
  | wait k ih =>
    refine ⟨_, fun p' h => ?_⟩
    cases h with
    | wait => exact ih

/-- **No run goes on for ever.** -/
theorem Step.wf {N : Nat} (hN : 0 < N) (ok : σ → σ → Bool) : WellFounded fun c' c : Conf σ => Step N ok c c' := by
  have hlex : WellFounded (Pi.Lex (fun i j : Fin N => i < j) fun {_} => Prog.Rest (σ := σ) (α := Unit)) :=
    Pi.Lex.wellFounded _ fun _ => Prog.rest_wf
  refine Subrelation.wf (fun {c' c} h => ?_) (InvImage.wf (fun (c : Conf σ) (i : Fin N) => c.progs i) hlex)
  cases h with
  | @act t ht ha _ =>
    obtain ⟨β, f, k, b, hp, -, hprogs⟩ := Conf.act_some ha
    refine ⟨⟨t, ht⟩, fun j hj => ?_, ?_⟩
    · have hne : (j : Nat) ≠ t := Nat.ne_of_lt hj
      change c'.progs j = c.progs j
      rw [hprogs, update_of_ne hne]
    · change Prog.Rest (c'.progs t) (c.progs t)
      rw [hprogs, hp, update_self]
      exact .act
  | release hr =>
    obtain ⟨k, hk, hk'⟩ := (Conf.release_some hr).2 0 hN
    refine ⟨⟨0, hN⟩, fun j hj => absurd hj (Nat.not_lt_zero _), ?_⟩
    change Prog.Rest (c'.progs 0) (c.progs 0)
    rw [hk, hk']
    exact .wait

/-- **Every run ends, with all tasklets at their end and `Q`.** -/
structure Ends (N : Nat) (ok : σ → σ → Bool) (init : σ → Prop) (main : Nat → Prog σ Unit) (Q : σ → Prop) : Prop where
  finite : WellFounded fun c' c : Conf σ => Step N ok c c'
  goesOn : ∀ c, Reachable (Starts init main) (Step N ok) c → ¬ c.Finished N → ∃ c', Step N ok c c'
  result : ∀ c, Reachable (Starts init main) (Step N ok) c → c.Finished N → Q c.state

theorem Ends.mono {N : Nat} {ok : σ → σ → Bool} {init : σ → Prop} {main : Nat → Prog σ Unit} {Q Q' : σ → Prop}
    (h : Ends N ok init main Q) (hQ : ∀ s, Q s → Q' s) : Ends N ok init main Q' :=
  ⟨h.finite, h.goesOn, fun c hr hfin => hQ _ (h.result c hr hfin)⟩

/-- From every start there is a run to the end. -/
theorem Ends.finished {N : Nat} {ok : σ → σ → Bool} {init : σ → Prop} {main : Nat → Prog σ Unit} {Q : σ → Prop} {s : σ}
    (h : Ends N ok init main Q) (hs : init s) : ∃ c, Reachable (Starts init main) (Step N ok) c ∧ c.Finished N := by
  have hrun : ∀ c, Reachable (Starts init main) (Step N ok) c →
      ∃ c', Reachable (Starts init main) (Step N ok) c' ∧ c'.Finished N := fun c => by
    induction c using h.finite.induction with
    | h c ih =>
      intro hr
      by_cases hfin : c.Finished N
      · exact ⟨c, hr, hfin⟩
      · obtain ⟨c', hstep⟩ := h.goesOn c hr hfin
        exact ih c' hstep (.step hr hstep)
  exact hrun ⟨s, main⟩ (.init ⟨hs, rfl⟩)

/-! ## One tasklet among the others -/

/-- What `N` tasklets keep to: what a tasklet may do to the shared state in a
phase, what it brings to the barrier at its end, and that it is one that
others may wait for. -/
structure Protocol (σ : Type) where
  N : Nat
  ok : σ → σ → Bool
  guar : Nat → Nat → σ → σ → Prop
  brings : Nat → Nat → σ → Prop
  busy : Nat → σ → Prop

variable (P : Protocol σ) (t n : Nat)

/-- An action of another tasklet. -/
def Protocol.Other (s s' : σ) : Prop := ∃ u < P.N, u ≠ t ∧ P.guar n u s s'

/-- Tasklet `t` may have to wait: for a busy one, which does not wait for it. -/
def Protocol.Waits (s : σ) : Prop := ∃ u < P.N, P.busy u s ∧ (P.busy t s → u < t)

/-- No action of another tasklet changes that `A` holds. -/
def Protocol.Stable (A : σ → Prop) : Prop := ∀ s s', A s → P.Other t n s s' → A s'

/-- From `s` and in phase `n` the program keeps to the protocol, and `Q`
holds when it ends. -/
def Protocol.Safe (Q : Nat → α → σ → Prop) : Prog σ α → Nat → σ → Prop
  | .ret a, n, s => ∀ s', Relation.ReflTransGen (P.Other t n) s s' → Q n a s'
  | .act f k, n, s => ∀ s', Relation.ReflTransGen (P.Other t n) s s' → (f s' = none → P.Waits t s') ∧
    ∀ b s'', f s' = some (b, s'') → P.ok s' s'' = true → (s'' = s' ∨ P.guar n t s' s'') ∧ Protocol.Safe Q (k b) n s''
  | .wait k, n, s => (∀ s', Relation.ReflTransGen (P.Other t n) s s' → P.brings n t s') ∧
    ∀ s', (∀ u < P.N, P.brings n u s') → Protocol.Safe Q k (n + 1) s'

variable {P t n} {Q Q' : Nat → α → σ → Prop} {p : Prog σ α} {s s' : σ} {A : σ → Prop}

theorem Protocol.Stable.star (h : P.Stable t n A) (hs : Relation.ReflTransGen (P.Other t n) s s') (ha : A s) : A s' := by
  induction hs with
  | refl => exact ha
  | tail _ h1 ih => exact h _ _ ih h1

theorem Protocol.Stable.and {B : σ → Prop} (h : P.Stable t n A) (h' : P.Stable t n B) : P.Stable t n fun s => A s ∧ B s :=
  fun s s' hs ho => ⟨h s s' hs.1 ho, h' s s' hs.2 ho⟩

namespace Protocol.Safe

/-- The others may act before it. -/
theorem others (h : P.Safe t Q p n s) (hs : Relation.ReflTransGen (P.Other t n) s s') : P.Safe t Q p n s' := by
  cases p with
  | ret a => exact fun s1 h1 => h s1 (hs.trans h1)
  | act f k => exact fun s1 h1 => h s1 (hs.trans h1)
  | wait k => exact ⟨fun s1 h1 => h.1 s1 (hs.trans h1), h.2⟩

theorem mono (h : P.Safe t Q p n s) (hQ : ∀ n a s, Q n a s → Q' n a s) : P.Safe t Q' p n s := by
  induction p generalizing n s with
  | ret a => exact fun s1 h1 => hQ n a s1 (h s1 h1)
  | act f k ih =>
    intro s1 h1
    refine ⟨(h s1 h1).1, fun b s2 hf hok => ?_⟩
    obtain ⟨hg, hk⟩ := (h s1 h1).2 b s2 hf hok
    exact ⟨hg, ih b hk⟩
  | wait k ih => exact ⟨h.1, fun s1 hall => ih (h.2 s1 hall)⟩

/-- One program after the other. -/
theorem bind {q : α → Prog σ β} {Q : Nat → β → σ → Prop} (h : P.Safe t (fun n a s => P.Safe t Q (q a) n s) p n s) :
    P.Safe t Q (p >>= q) n s := by
  show P.Safe t Q (p.bind q) n s
  induction p generalizing n s with
  | ret a => exact h s .refl
  | act f k ih =>
    intro s1 h1
    refine ⟨(h s1 h1).1, fun b s2 hf hok => ?_⟩
    obtain ⟨hg, hk⟩ := (h s1 h1).2 b s2 hf hok
    exact ⟨hg, ih b hk⟩
  | wait k ih => exact ⟨h.1, fun s1 hall => ih (h.2 s1 hall)⟩

/-! ### The rules

Each takes what holds before the action, which has to be stable. -/

section

variable (A : σ → Prop) (hst : P.Stable t n A) (hs : A s)

include hst hs

theorem ret {a : α} (h : ∀ s, A s → Q n a s) : P.Safe t Q (Pure.pure a) n s :=
  fun s' h' => h s' (hst.star h' hs)

theorem read {f : σ → β} {k : β → Prog σ α} (h : ∀ s, A s → P.Safe t Q (k (f s)) n s) :
    P.Safe t Q (Prog.read f >>= k) n s := by
  refine fun s' h' => ⟨fun hf => absurd hf (by simp), fun b s'' hf _ => ?_⟩
  obtain ⟨rfl, rfl⟩ := Prod.mk.inj (Option.some.inj hf)
  exact ⟨.inl rfl, h _ (hst.star h' hs)⟩

theorem write {f : σ → σ} {k : Unit → Prog σ α}
    (h : ∀ s, A s → P.ok s (f s) = true → P.guar n t s (f s) ∧ P.Safe t Q (k ()) n (f s)) :
    P.Safe t Q (Prog.write f >>= k) n s := by
  refine fun s' h' => ⟨fun hf => absurd hf (by simp), fun b s'' hf hok => ?_⟩
  obtain ⟨rfl, rfl⟩ := Prod.mk.inj (Option.some.inj hf)
  obtain ⟨hg, hk⟩ := h _ (hst.star h' hs) hok
  exact ⟨.inr hg, hk⟩

theorem readWrite {f : σ → β} {g : σ → σ} {k : β → Prog σ α}
    (h : ∀ s, A s → P.ok s (g s) = true → P.guar n t s (g s) ∧ P.Safe t Q (k (f s)) n (g s)) :
    P.Safe t Q (Prog.readWrite f g >>= k) n s := by
  refine fun s' h' => ⟨fun hf => absurd hf (by simp), fun b s'' hf hok => ?_⟩
  obtain ⟨rfl, rfl⟩ := Prod.mk.inj (Option.some.inj hf)
  obtain ⟨hg, hk⟩ := h _ (hst.star h' hs) hok
  exact ⟨.inr hg, hk⟩

theorem await {c : σ → Bool} {k : Unit → Prog σ α} (hw : ∀ s, A s → c s = false → P.Waits t s) (h : ∀ s, A s → c s = true → P.Safe t Q (k ()) n s) :
    P.Safe t Q (Prog.await c >>= k) n s := by
  refine fun s' h' => ⟨fun hf => hw s' (hst.star h' hs) ?_, fun b s'' hf _ => ?_⟩
  · cases hc : c s' with
    | false => rfl
    | true => simp [hc] at hf
  change (if c s' then some ((), s') else none) = some (b, s'') at hf
  split at hf
  next hc =>
    obtain ⟨rfl, rfl⟩ := Prod.mk.inj (Option.some.inj hf)
    exact ⟨.inl rfl, h _ (hst.star h' hs) hc⟩
  next => exact absurd hf (by simp)

theorem awaitWrite {c : σ → Bool} {f : σ → σ} {k : Unit → Prog σ α} (hw : ∀ s, A s → c s = false → P.Waits t s)
    (h : ∀ s, A s → c s = true → P.ok s (f s) = true → P.guar n t s (f s) ∧ P.Safe t Q (k ()) n (f s)) :
    P.Safe t Q (Prog.awaitWrite c f >>= k) n s := by
  refine fun s' h' => ⟨fun hf => hw s' (hst.star h' hs) ?_, fun b s'' hf hok => ?_⟩
  · cases hc : c s' with
    | false => rfl
    | true => simp [hc] at hf
  change (if c s' then some ((), f s') else none) = some (b, s'') at hf
  split at hf
  next hc =>
    obtain ⟨rfl, rfl⟩ := Prod.mk.inj (Option.some.inj hf)
    obtain ⟨hg, hk⟩ := h _ (hst.star h' hs) hc hok
    exact ⟨.inr hg, hk⟩
  next => exact absurd hf (by simp)

theorem barrier {k : Unit → Prog σ α} (hb : ∀ s, A s → P.brings n t s)
    (h : ∀ s, (∀ u < P.N, P.brings n u s) → P.Safe t Q (k ()) (n + 1) s) : P.Safe t Q (Prog.barrier >>= k) n s :=
  ⟨fun s' h' => hb s' (hst.star h' hs), h⟩

end

/-- The last program of a block. -/
theorem last (h : P.Safe t Q (p >>= Pure.pure) n s) : P.Safe t Q p n s := by
  change P.Safe t Q (p.bind .ret) n s at h
  induction p generalizing n s with
  | ret a => exact h
  | act f k ih =>
    intro s1 h1
    refine ⟨(h s1 h1).1, fun b s2 hf hok => ?_⟩
    obtain ⟨hg, hk⟩ := (h s1 h1).2 b s2 hf hok
    exact ⟨hg, ih b hk⟩
  | wait k ih => exact ⟨h.1, fun s1 hall => ih (h.2 s1 hall)⟩

theorem when {c : Prop} [Decidable c] {p : Prog σ Unit} {k : Unit → Prog σ α}
    (h : c → P.Safe t (fun n _ s => P.Safe t Q (k ()) n s) p n s) (h' : ¬ c → P.Safe t Q (k ()) n s) :
    P.Safe t Q (Prog.when c p >>= k) n s := by
  by_cases hc : c
  · rw [Prog.when, if_pos hc]
    exact (h hc).bind
  · rw [Prog.when, if_neg hc]
    exact h' hc

/-- A counted loop, by what holds before each pass. -/
theorem times {f : Nat → α → Prog σ α} (I : Nat → α → Nat → σ → Prop) (hst : ∀ j x n, P.Stable t n (I j x n)) {m : Nat} :
    ∀ {i : Nat} {x : α} {n : Nat} {s : σ}, I i x n s →
      (∀ j x n s, i ≤ j → j < i + m → I j x n s → P.Safe t (fun n x s => I (j + 1) x n s) (f j x) n s) →
      P.Safe t (fun n x s => I (i + m) x n s) (Prog.times f m i x) n s := by
  induction m with
  | zero =>
    intro i x n s h _
    exact Safe.ret (I i x n) (hst i x n) h fun _ hs => hs
  | succ m ih =>
    intro i x n s h hf
    refine Safe.bind ((hf i x n s le_rfl (by omega) h).mono fun n x s hi => ?_)
    have := ih hi fun j y n s hj hj' => hf j y n s (by omega) (by omega)
    rwa [Nat.add_right_comm, Nat.add_assoc] at this

/-- The same for a loop with barriers. -/
theorem forPhases {a b c : Nat} {x : α} {f : Nat → α → Prog σ α} {k : α → Prog σ β} {Q : Nat → β → σ → Prop}
    (I : Nat → α → Nat → σ → Prop) (hst : ∀ j x n, P.Stable t n (I j x n)) (h0 : I 0 x n s)
    (h : ∀ j < Prog.passes a b c, ∀ x n s, I j x n s → P.Safe t (fun n x s => I (j + 1) x n s) (f (a + c * j) x) n s)
    (hk : ∀ x n s, I (Prog.passes a b c) x n s → P.Safe t Q (k x) n s) : P.Safe t Q (Prog.forStep a b c x f >>= k) n s := by
  have hloop := times I hst (f := fun i => f (a + c * i)) (m := Prog.passes a b c) h0 fun j x n s _ hj => h j (by omega) x n s
  refine (hloop.mono fun n x s hI => ?_).bind
  exact hk x n s (by rw [← Nat.zero_add (Prog.passes a b c)]; exact hI)

/-- A loop within one phase, by what holds before each pass. -/
theorem forStep {a b c : Nat} {x : α} {f : Nat → α → Prog σ α} {k : α → Prog σ β} {Q : Nat → β → σ → Prop}
    (I : Nat → α → σ → Prop) (hst : ∀ j x, P.Stable t n (I j x)) (h0 : I 0 x s)
    (h : ∀ j < Prog.passes a b c, ∀ x s, I j x s → P.Safe t (fun n' x s => n' = n ∧ I (j + 1) x s) (f (a + c * j) x) n s)
    (hk : ∀ x s, I (Prog.passes a b c) x s → P.Safe t Q (k x) n s) : P.Safe t Q (Prog.forStep a b c x f >>= k) n s := by
  refine forPhases (fun j x n' s => n' = n ∧ I j x s) (fun j x n' s s' hs ho => ⟨hs.1, hst j x s s' hs.2 (by rwa [hs.1] at ho)⟩)
    ⟨rfl, h0⟩ (fun j hj x n' s hI => ?_) fun x n' s hI => ?_
  · rw [hI.1]
    exact h j hj x s hI.2
  · rw [hI.1]
    exact hk x s hI.2

theorem loop {a b c : Nat} {f : Nat → Prog σ Unit} {k : Unit → Prog σ α} (I : Nat → σ → Prop)
    (hst : ∀ j, P.Stable t n (I j)) (h0 : I 0 s)
    (h : ∀ j < Prog.passes a b c, ∀ s, I j s → P.Safe t (fun n' _ s => n' = n ∧ I (j + 1) s) (f (a + c * j)) n s)
    (hk : ∀ s, I (Prog.passes a b c) s → P.Safe t Q (k ()) n s) : P.Safe t Q (Prog.loop a b c f >>= k) n s :=
  forStep (fun j _ => I j) (fun j _ => hst j) h0 (fun j hj _ => h j hj) fun _ => hk

end Protocol.Safe

/-- Every tasklet is safe, in one phase. -/
def Protocol.Safely (P : Protocol σ) (Q : Nat → Nat → σ → Prop) (c : Conf σ) : Prop :=
  ∃ n, ∀ t < P.N, P.Safe t (fun n _ => Q n t) (c.progs t) n c.state

theorem Protocol.Safely.step {Q : Nat → Nat → σ → Prop} {c c' : Conf σ} (h : P.Safely Q c) (hs : Step P.N P.ok c c') : P.Safely Q c' := by
  obtain ⟨n, hsafe⟩ := h
  cases hs with
  | @act t ht ha hok =>
    obtain ⟨β, f, k, b, hp, hf, hprogs⟩ := Conf.act_some ha
    have hsafet := hsafe t ht
    rw [hp] at hsafet
    obtain ⟨hg, hk⟩ := (hsafet c.state .refl).2 b c'.state hf hok
    refine ⟨n, fun u hu => ?_⟩
    rw [hprogs]
    by_cases hut : u = t
    · subst hut
      rw [update_self]
      exact hk
    · rw [update_of_ne hut]
      cases hg with
      | inl hsame =>
        rw [hsame]
        exact hsafe u hu
      | inr hg => exact (hsafe u hu).others (.single ⟨t, ht, Ne.symm hut, hg⟩)
  | release hr =>
    obtain ⟨hstate, hall⟩ := Conf.release_some hr
    have hwait : ∀ t < P.N, P.brings n t c.state ∧
        ∀ s', (∀ u < P.N, P.brings n u s') → P.Safe t (fun n _ => Q n t) (c'.progs t) (n + 1) s' := fun t ht => by
      obtain ⟨k, hk, hk'⟩ := hall t ht
      have hsafet := hsafe t ht
      rw [hk] at hsafet
      rw [hk']
      exact ⟨hsafet.1 c.state .refl, hsafet.2⟩
    refine ⟨n + 1, fun t ht => (hwait t ht).2 c'.state fun u hu => ?_⟩
    rw [hstate]
    exact (hwait u hu).1

theorem Protocol.safely {Q : Nat → Nat → σ → Prop} {init : σ → Prop} {main : Nat → Prog σ Unit}
    (h : ∀ t < P.N, ∀ s, init s → P.Safe t (fun n _ => Q n t) (main t) 0 s) {c : Conf σ}
    (hr : Reachable (Starts init main) (Step P.N P.ok) c) : P.Safely Q c := by
  refine hr.invariant (P.Safely Q) (fun c ⟨hi, hm⟩ => ⟨0, fun t ht => ?_⟩) fun c c' hs hstep => hs.step hstep
  rw [hm]
  exact h t ht c.state hi

/-- **What each tasklet ends with holds at the end.** -/
theorem Protocol.sound {Q : Nat → Nat → σ → Prop} {init : σ → Prop} {main : Nat → Prog σ Unit}
    (h : ∀ t < P.N, ∀ s, init s → P.Safe t (fun n _ => Q n t) (main t) 0 s) {c : Conf σ}
    (hr : Reachable (Starts init main) (Step P.N P.ok) c) (hfin : c.Finished P.N) : ∃ n, ∀ t < P.N, Q n t c.state := by
  obtain ⟨n, hsafe⟩ := Protocol.safely h hr
  refine ⟨n, fun t ht => ?_⟩
  have hsafet := hsafe t ht
  have hend := hfin t ht
  cases hp : c.progs t with
  | ret a =>
    rw [hp] at hsafet
    exact hsafet c.state .refl
  | act f k => simp [hp, Prog.ended] at hend
  | wait k => simp [hp, Prog.ended] at hend

/-- No tasklet is busy at a barrier or at its end, and all come to their end
in phase `e`. -/
structure Protocol.Leaves (P : Protocol σ) (Q : Nat → Nat → σ → Prop) (e : Nat) : Prop where
  all : ∀ s s', P.ok s s' = true
  barrier : ∀ n t s, P.brings n t s → n < e ∧ ¬ P.busy t s
  ended : ∀ n t s, Q n t s → n = e ∧ ¬ P.busy t s

/-- **A run goes on until all tasklets have ended.** -/
theorem Protocol.progress {Q : Nat → Nat → σ → Prop} {e : Nat} {c : Conf σ} (hl : P.Leaves Q e) (h : P.Safely Q c)
    (hfin : ¬ c.Finished P.N) : ∃ c', Step P.N P.ok c c' := by
  obtain ⟨n, hsafe⟩ := h
  by_contra hstuck
  -- an action that could be done would be a step
  have hblocked : ∀ t < P.N, ∀ (β : Type) (f : σ → Option (β × σ)) k, c.progs t = .act f k → P.Waits t c.state := by
    intro t ht β f k hp
    have hsafet := hsafe t ht
    rw [hp] at hsafet
    refine (hsafet c.state .refl).1 ?_
    cases hf : f c.state with
    | none => rfl
    | some b => exact absurd ⟨_, .act ht (by simp [Conf.act, hp, hf]; rfl) (hl.all _ _)⟩ hstuck
  have hidle : ∀ u < P.N, ¬ P.busy u c.state := by
    intro u
    induction u using Nat.strongRecOn with
    | ind u ih =>
      intro hu hb
      have hsafeu := hsafe u hu
      cases hp : c.progs u with
      | ret a =>
        rw [hp] at hsafeu
        exact (hl.ended _ _ _ (hsafeu c.state .refl)).2 hb
      | wait k =>
        rw [hp] at hsafeu
        exact (hl.barrier _ _ _ (hsafeu.1 c.state .refl)).2 hb
      | act f k =>
        obtain ⟨v, hv, hbv, hlt⟩ := hblocked u hu _ f k hp
        exact ih v (hlt hb) hv hbv
  have hplace : ∀ t < P.N, ((c.progs t).atBarrier = true ∧ n < e) ∨ ((c.progs t).ended = true ∧ n = e) := by
    intro t ht
    have hsafet := hsafe t ht
    cases hp : c.progs t with
    | ret a =>
      rw [hp] at hsafet
      exact .inr ⟨rfl, (hl.ended _ _ _ (hsafet c.state .refl)).1⟩
    | wait k =>
      rw [hp] at hsafet
      exact .inl ⟨rfl, (hl.barrier _ _ _ (hsafet.1 c.state .refl)).1⟩
    | act f k =>
      obtain ⟨v, hv, hbv, -⟩ := hblocked t ht _ f k hp
      exact absurd hbv (hidle v hv)
  by_cases hn : n < e
  · have hall : ((List.range P.N).all fun t => (c.progs t).atBarrier) = true :=
      List.all_eq_true.mpr fun t ht => ((hplace t (List.mem_range.mp ht)).resolve_right (by omega)).1
    exact hstuck ⟨_, .release (by rw [Conf.release, if_pos hall])⟩
  · exact hfin fun t ht => ((hplace t ht).resolve_left (by omega)).1

/-- **Every run ends, with what the tasklets end with.** -/
theorem Protocol.ends {Q : Nat → Nat → σ → Prop} {e : Nat} {R : σ → Prop} {init : σ → Prop} {main : Nat → Prog σ Unit}
    (hN : 0 < P.N) (h : ∀ t < P.N, ∀ s, init s → P.Safe t (fun n _ => Q n t) (main t) 0 s) (hl : P.Leaves Q e)
    (hR : ∀ n s, (∀ t < P.N, Q n t s) → R s) : Ends P.N P.ok init main R where
  finite := Step.wf hN P.ok
  goesOn _ hr := Protocol.progress hl (Protocol.safely h hr)
  result c hr hfin := by
    obtain ⟨n, hQ⟩ := Protocol.sound h hr hfin
    exact hR n c.state hQ

/-! ## Runs by a schedule -/

section

variable (N : Nat) (ok : σ → σ → Bool)

/-- At most `fuel` actions of tasklet `t` alone. -/
def Conf.solo (t : Nat) : Nat → Conf σ → Conf σ
  | 0, c => c
  | fuel + 1, c =>
    match c.act t with
    | some c' => if ok c.state c'.state then Conf.solo t fuel c' else c
    | none => c

/-- One tasklet after the other, each with at most a number of actions, and
then the barrier. -/
def Conf.phase (order : List (Nat × Nat)) (c : Conf σ) : Conf σ :=
  let c := order.foldl (fun c (t, fuel) => c.solo ok t fuel) c
  (c.release N).getD c

def Conf.run (orders : List (List (Nat × Nat))) (c : Conf σ) : Conf σ :=
  orders.foldl (fun c order => c.phase N ok order) c

/-- All in order, as far as each gets. -/
def inOrder (fuel : Nat) : List (Nat × Nat) := (List.range N).map fun t => (t, fuel)

def Conf.finished (c : Conf σ) : Bool := (List.range N).all fun t => (c.progs t).ended

end

variable {N : Nat} {ok : σ → σ → Bool} {I : Conf σ → Prop} {c : Conf σ}

theorem Conf.solo_reachable {t : Nat} (ht : t < N) {fuel : Nat} (h : Reachable I (Step N ok) c) :
    Reachable I (Step N ok) (c.solo ok t fuel) := by
  induction fuel generalizing c with
  | zero => exact h
  | succ fuel ih =>
    unfold Conf.solo
    split
    next c' ha =>
      split
      next hok => exact ih (.step h (.act ht ha hok))
      next => exact h
    next => exact h

theorem Conf.phase_reachable {order : List (Nat × Nat)} (ho : ∀ e ∈ order, e.1 < N) (h : Reachable I (Step N ok) c) :
    Reachable I (Step N ok) (c.phase N ok order) := by
  have hsolo : Reachable I (Step N ok) (order.foldl (fun c (t, fuel) => c.solo ok t fuel) c) := by
    induction order generalizing c with
    | nil => exact h
    | cons e order ih =>
      exact ih (fun e' h' => ho e' (List.mem_cons_of_mem _ h')) (Conf.solo_reachable (ho e List.mem_cons_self) h)
  unfold Conf.phase
  dsimp only
  generalize order.foldl (fun c (t, fuel) => c.solo ok t fuel) c = c1 at hsolo ⊢
  cases hr : c1.release N with
  | some c' => exact .step hsolo (.release hr)
  | none => exact hsolo

/-- A run by a schedule is a run. -/
theorem Conf.run_reachable {orders : List (List (Nat × Nat))} (ho : ∀ o ∈ orders, ∀ e ∈ o, e.1 < N)
    (h : Reachable I (Step N ok) c) : Reachable I (Step N ok) (c.run N ok orders) := by
  induction orders generalizing c with
  | nil => exact h
  | cons o orders ih =>
    exact ih (fun o' h' => ho o' (List.mem_cons_of_mem _ h')) (Conf.phase_reachable (ho o List.mem_cons_self) h)

theorem Conf.finished_of (h : c.finished N = true) : c.Finished N :=
  fun t ht => List.all_eq_true.mp h t (List.mem_range.mpr ht)

end Tasklets
