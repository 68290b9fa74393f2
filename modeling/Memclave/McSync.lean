/-
The sense-reversing barrier of `support/mc_sync.h`, as the kernels start it:
tasklet 0 calls `mybarrier_init` and then `mybarrier_wait`, the others call
`mybarrier_wait` at once.

One step is one read or one write of `mc_barrier` by one tasklet; the calls
each has begun and ended are counted in a record of the run.
-/
import Memclave.Lib.Words
import Memclave.Lib.System

namespace Memclave.McSync

open Words

/-- `!sense` -/
def lnot (sense : Word) : Word := if sense = 0 then 1 else 0

/-- Where a tasklet is. -/
inductive Pc where
  /-- in `mybarrier_init`, `sense` still to be cleared -/
  | init
  /-- in the loop of `mybarrier_init`, `arrive[i]` still to be set -/
  | initArrive (i : Nat)
  /-- in the loop that waits for a `sense` of 0 -/
  | initWait
  | outside
  /-- in `mybarrier_wait`, `sense` still to be read -/
  | entered
  /-- the tasklet's own `arrive` still to be written -/
  | arriving (nextS : Word)
  /-- tasklet 0: waiting for `arrive[i]` -/
  | scanning (nextS : Word) (i : Nat)
  /-- tasklet 0: `sense` still to be written -/
  | flipping (nextS : Word)
  /-- another tasklet: waiting for `sense` -/
  | spinning (nextS : Word)
deriving DecidableEq, Repr

structure State where
  /-- `mc_barrier.arrive[i].v` -/
  arrive : Nat → Word
  /-- `mc_barrier.sense` -/
  sense : Word
  pc : Nat → Pc
  /-- the calls of `mybarrier_wait` begun -/
  entered : Nat → Nat
  /-- and ended -/
  returned : Nat → Nat

def State.goto (s : State) (tid : Nat) (p : Pc) : State := { s with pc := Function.update s.pc tid p }

/-- `mybarrier_wait` ends. -/
def State.ret (s : State) (tid : Nat) : State :=
  { s with returned := Function.update s.returned tid (s.returned tid + 1) }.goto tid .outside

section

variable (NR_TASKLETS rounds : Nat)

/-- The next read or write of tasklet `tid`, each of them calling
`mybarrier_wait` `rounds` times. -/
def State.step (s : State) (tid : Nat) : State :=
  match s.pc tid with
  | .init => { s with sense := 0 }.goto tid (.initArrive 0)
  | .initArrive i =>
    { s with arrive := Function.update s.arrive i 1 }.goto tid
      (if i + 1 < NR_TASKLETS then .initArrive (i + 1) else .initWait)
  | .initWait => if s.sense ≠ 0 then s else s.goto tid .outside
  | .outside =>
    if s.returned tid < rounds then
      { s with entered := Function.update s.entered tid (s.entered tid + 1) }.goto tid .entered
    else s
  | .entered => s.goto tid (.arriving (lnot s.sense))
  | .arriving nextS =>
    { s with arrive := Function.update s.arrive tid nextS }.goto tid
      (if tid = 0 then .scanning nextS 0 else .spinning nextS)
  | .scanning nextS i =>
    if s.arrive i ≠ nextS then s
    else s.goto tid (if i + 1 < NR_TASKLETS then .scanning nextS (i + 1) else .flipping nextS)
  | .flipping nextS => { s with sense := nextS }.ret tid
  | .spinning nextS => if s.sense ≠ nextS then s else s.ret tid

def Step (s s' : State) : Prop := ∃ tid < NR_TASKLETS, s' = s.step NR_TASKLETS rounds tid

/-- The shared state is zero, and tasklet 0 is at `mybarrier_init`. -/
def start : State :=
  ⟨fun _ => 0, 0, fun tid => if tid = 0 then .init else .outside, fun _ => 0, fun _ => 0⟩

def Init (s : State) : Prop := s = start

/-! ## What the barrier is for -/

/-- Nobody has ended a call that somebody has yet to begin. -/
def Safe (s : State) : Prop :=
  ∀ t < NR_TASKLETS, ∀ u < NR_TASKLETS, s.returned t ≤ s.entered u

/-- One tasklet is done, and another one will never leave the call it is in. -/
def Stuck (s : State) : Prop :=
  ∃ t < NR_TASKLETS, ∃ u < NR_TASKLETS, s.returned t = rounds ∧ s.returned u < s.entered u ∧
    ∀ s', Relation.ReflTransGen (Step NR_TASKLETS rounds) s s' → s'.returned u = s.returned u

/-- A tasklet has read `sense` in its first `mybarrier_wait`. -/
def HasRead (s : State) (tid : Nat) : Prop :=
  s.returned tid ≠ 0 ∨ ∃ nextS, s.pc tid = .arriving nextS ∨ s.pc tid = .spinning nextS

/-- A step that is not tasklet 0's first write of `nextS` to `sense` before
all the others have read `sense`. -/
def Timely (s : State) (tid : Nat) : Prop :=
  ∀ nextS, s.pc tid = .flipping nextS → s.returned tid = 0 → ∀ u < NR_TASKLETS, u ≠ 0 → HasRead s u

def TimelyStep (s s' : State) : Prop :=
  ∃ tid < NR_TASKLETS, Timely NR_TASKLETS s tid ∧ s' = s.step NR_TASKLETS rounds tid

end

/-- The state after a list of steps. -/
def State.run (NR_TASKLETS rounds : Nat) (s : State) (tids : List Nat) : State :=
  tids.foldl (State.step NR_TASKLETS rounds) s

end Memclave.McSync
