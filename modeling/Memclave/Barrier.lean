/-
The barrier of `ime-rt/barrier.c`.

Each section between a `mutex_lock` and its `mutex_unlock` is one step of
the tasklet that runs it; the sections of the tasklets interleave in any
order. The calls are numbered in the order `ime_enter_barrier` counts them,
and a tasklet carries the number of its call: the numbers, the list of calls
and the values returned are a record of the run, which no section reads.
-/
import Memclave.Lib.System

namespace Memclave.Barrier

/-- `ime_barrier`; all fields but the mutex, 16 bits each. -/
structure ImeBarrier where
  init : Nat
  count : Nat
  done : Nat
  leader : Nat
deriving DecidableEq, Repr

/-- `IME_BARRIER_INIT` -/
def imeBarrierInit (c : Nat) : ImeBarrier := ⟨c, 0, 0, 0xFFFF⟩

/-- Where a tasklet is; the number is the number of its call. -/
inductive Pc where
  | outside
  /-- in the loop of `ime_enter_barrier` -/
  | entering
  /-- in the loop of `ime_wait_barrier` -/
  | waiting (k : Nat)
  /-- past that loop, `done` still to be raised -/
  | passing (k : Nat)
  /-- in `ime_leave_barrier`, `leader` still to be read -/
  | leaving (k : Nat)
  /-- in the loop of `ime_leave_barrier` -/
  | leading (k : Nat)
  /-- past that loop, the fields still to be reset -/
  | resetting (k : Nat)
deriving DecidableEq, Repr

structure State where
  bar : ImeBarrier
  pc : Nat → Pc
  /-- the ids of the calls, in the order they were counted -/
  calls : List Nat
  /-- how often a leader has reset the fields -/
  resets : Nat
  /-- the calls that have returned, and what -/
  returned : List (Nat × Bool)

/-- What `ime_enter_barrier` does to the fields where it does not spin. -/
def imeEnterBarrier (bar : ImeBarrier) (id : Nat) : ImeBarrier :=
  { bar with
    leader := if id < bar.leader then id else bar.leader
    count := (bar.count + 1) % 2 ^ 16 }

/-- The next section of tasklet `i`. -/
def State.step (s : State) (i : Nat) : State :=
  let goto (p : Pc) : Nat → Pc := Function.update s.pc i p
  match s.pc i with
  | .outside => { s with pc := goto .entering }
  | .entering =>
    if s.bar.count = s.bar.init then s
    else { s with
      bar := imeEnterBarrier s.bar i
      pc := goto (.waiting s.calls.length)
      calls := s.calls ++ [i] }
  | .waiting k => if s.bar.count = s.bar.init then { s with pc := goto (.passing k) } else s
  | .passing k =>
    { s with bar := { s.bar with done := (s.bar.done + 1) % 2 ^ 16 }, pc := goto (.leaving k) }
  | .leaving k =>
    if s.bar.leader = i then { s with pc := goto (.leading k) }
    else { s with pc := goto .outside, returned := (k, false) :: s.returned }
  | .leading k => if s.bar.done = s.bar.init then { s with pc := goto (.resetting k) } else s
  | .resetting k =>
    { s with
      bar := { s.bar with count := 0, done := 0, leader := 0xFFFF }
      pc := goto .outside
      resets := s.resets + 1
      returned := (k, true) :: s.returned }

/-- A step of one of the tasklets `ids`. -/
def Step (ids : Finset Nat) (s s' : State) : Prop := ∃ i ∈ ids, s' = s.step i

/-- A barrier for `c` tasklets, none of them in a call. -/
def start (c : Nat) : State := ⟨imeBarrierInit c, fun _ => .outside, [], 0, []⟩

def Init (c : Nat) (s : State) : Prop := s = start c

/-- The sections of a list of tasklets, one after the other. -/
def State.run (s : State) (is : List Nat) : State := is.foldl State.step s

/-! ## Rounds -/

/-- What the barrier promises: call `k` is one of round `k / c`. -/
structure RoundsOk (c : Nat) (s : State) : Prop where
  /-- a call is counted only once every earlier round has been reset -/
  reset : ∀ k < s.calls.length, k / c ≤ s.resets
  /-- a call that has returned is one of a round whose calls have all entered -/
  entered : ∀ k b, (k, b) ∈ s.returned → ∀ j, j / c = k / c → j < s.calls.length
  /-- a call returns once -/
  once : (s.returned.map Prod.fst).Nodup
  /-- no id is in a round twice -/
  distinct : ∀ j k, j / c = k / c → ∀ i, s.calls[j]? = some i → s.calls[k]? = some i → j = k
  /-- the call of the smallest id is the one that returns true -/
  smallest : ∀ k b, (k, b) ∈ s.returned → ∃ i, s.calls[k]? = some i ∧
    (b = true ↔ ∀ j i', j / c = k / c → s.calls[j]? = some i' → i ≤ i')
  /-- of a round whose calls have all entered, one returns true and no other -/
  leader : ∀ r, (∀ j, j / c = r → j < s.calls.length) →
    ∃ k, k / c = r ∧ ∀ j b, j / c = r → (j, b) ∈ s.returned → (b = true ↔ j = k)

end Memclave.Barrier
