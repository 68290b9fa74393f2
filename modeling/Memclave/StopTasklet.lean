/-
The end of a subkernel: `__ime_stop_tasklet` of `ime-rt/ime.c` under the
`__bootstrap` of `ime-rt/boot.s`.

One step is one instruction that touches what the tasklets share: the
hardware mutexes and `__ime_tasklet_count`. `main` is any program that takes
and gives mutexes other than `__ime_tasklet_lock`. Who holds a mutex and how
often a tasklet has lowered the count is a record of the run.
-/
import Memclave.Lib.Words
import Memclave.Lib.System

namespace Memclave.StopTasklet

open Words

/-- The hardware threads of a DPU. -/
def threads : Nat := 24

/-- `sub zero, NR_TASKLETS-1, id, mi, stop_unused_tasklet` does not jump. -/
def counted (NR_TASKLETS : Word) (id : Nat) : Bool := !(NR_TASKLETS - 1 - BitVec.ofNat 32 id).msb

/-- Where a tasklet is. -/
inductive Pc where
  | bootstrap
  /-- in `stop_unused_tasklet` -/
  | unused
  | main
  /-- in `mutex_lock(__ime_tasklet_lock)` -/
  | lock
  /-- tasklet 0: the lock held, the count still to be read -/
  | read
  /-- tasklet 0: in `mutex_unlock`, with what it has read -/
  | unlock (count : Word)
  /-- tasklet 0: at the end of the loop's body -/
  | test (count : Word)
  /-- tasklet 0: in `reset_atomic_loop`, at mutex `r0` -/
  | reset (r0 : Nat)
  /-- tasklet 0: past `reset_atomic` -/
  | done
  /-- another tasklet: the lock held, the count still to be read -/
  | load
  /-- another tasklet: what it has read still to be lowered and written -/
  | store (count : Word)
  /-- another tasklet: in `mutex_unlock` -/
  | release
  /-- another tasklet: at `stop t, __bootstrap` -/
  | stop
  | stopped
deriving DecidableEq, Repr

structure State where
  pc : Nat → Pc
  /-- `__ime_tasklet_count` -/
  count : Word
  /-- who holds a mutex, if anybody does -/
  held : Nat → Option Nat
  /-- how often a tasklet has lowered the count -/
  lowered : Nat → Nat

inductive Action where
  /-- the next instruction of a tasklet; in `main`, the return from it -/
  | next (id : Nat)
  /-- `main` takes a mutex -/
  | take (id m : Nat)
  /-- `main` gives a mutex back -/
  | give (id m : Nat)
deriving DecidableEq, Repr

def State.goto (s : State) (id : Nat) (p : Pc) : State := { s with pc := Function.update s.pc id p }

def State.hold (s : State) (m : Nat) (h : Option Nat) : State := { s with held := Function.update s.held m h }

section

variable (NR_TASKLETS : Word) (__ime_tasklet_lock : Nat)

/-- The next instruction of tasklet `id`. -/
def State.next (s : State) (id : Nat) : State :=
  match s.pc id with
  | .bootstrap => if counted NR_TASKLETS id then s.goto id .main else s.goto id .unused
  | .main => s.goto id .lock
  | .lock =>
    if s.held __ime_tasklet_lock = none then
      (s.hold __ime_tasklet_lock (some id)).goto id (if id = 0 then .read else .load)
    else s
  | .read => s.goto id (.unlock s.count)
  | .unlock count => (s.hold __ime_tasklet_lock none).goto id (.test count)
  | .test count => if count ≠ 1 then s.goto id .lock else s.goto id (.reset 255)
  /- `release r0, 0x0, nz, .+1` and `add r0, r0, -1, pl, reset_atomic_loop` -/
  | .reset 0 => (s.hold 0 none).goto id .done
  | .reset (r0 + 1) => (s.hold (r0 + 1) none).goto id (.reset r0)
  | .load => s.goto id (.store s.count)
  | .store count =>
    { s with count := count - 1, lowered := Function.update s.lowered id (s.lowered id + 1) }.goto id .release
  | .release => (s.hold __ime_tasklet_lock none).goto id .stop
  | .stop => s.goto id .stopped
  | .unused | .stopped | .done => s

def State.step (s : State) : Action → Option State
  | .next id => if id < threads then some (s.next NR_TASKLETS __ime_tasklet_lock id) else none
  | .take id m =>
    if s.pc id = .main ∧ m ≠ __ime_tasklet_lock ∧ s.held m = none then some (s.hold m (some id)) else none
  | .give id m => if s.pc id = .main ∧ m ≠ __ime_tasklet_lock then some (s.hold m none) else none

def Step (s s' : State) : Prop := ∃ a, s.step NR_TASKLETS __ime_tasklet_lock a = some s'

/-- An action that is no return from `main` with a mutex held. -/
def Tidy (s : State) : Action → Prop
  | .next id => s.pc id = .main → ∀ m, s.held m ≠ some id
  | _ => True

def TidyStep (s s' : State) : Prop :=
  ∃ a, Tidy s a ∧ s.step NR_TASKLETS __ime_tasklet_lock a = some s'

/-- A subkernel as it starts: `user.ld` has put `NR_TASKLETS` into the count. -/
def Init (s : State) : Prop :=
  s = ⟨fun _ => .bootstrap, NR_TASKLETS, fun _ => none, fun _ => 0⟩

end

/-- Tasklet 0 has returned from `__ime_stop_tasklet`. -/
def Returned (s : State) : Prop := s.pc 0 = .done ∨ ∃ r0, s.pc 0 = .reset r0

/-- A tasklet takes, holds or gives no mutex from here on. -/
def Pc.isGone : Pc → Bool
  | .stop | .stopped | .unused => true
  | _ => false

/-- A tasklet takes, holds or gives a mutex here, or may do so later. -/
def Pc.uses : Pc → Bool
  | .main | .lock | .read | .unlock _ | .test _ | .reset _ | .load | .store _ | .release => true
  | .bootstrap | .unused | .done | .stop | .stopped => false

end Memclave.StopTasklet
