/-
The global counter of `core.s`: thread 23 keeps a 128-bit counter in its
registers, and `core_on_counter` on thread 0 boots it for the next value.

The two threads meet in the thread-io area: four words for the value, and
the word at offset 60, which thread 0 sets and thread 23 clears. `Dpu.step`
is one action of one thread, cut where the threads touch what they share;
the actions of the two interleave in any order.
-/
import Memclave.Lib.Words
import Memclave.Lib.System

namespace Memclave.Counter

open Words

/-! ## The first-stage loader -/

/-- What `main` of the first-stage loader makes of `dpu_index`. -/
def packIndex (dpu_index : Word) : Word := ((dpu_index <<< 1) &&& 0xFFFE) ||| 1

/-- `on_thread_23`: the counter's first value. -/
def onThread23 (dpu_index : Word) : Fin 4 → Word := ![dpu_index, 0, 0, 0]

/-! ## `core.s` -/

/-- The addition of `core_on_ctr_thread` and its carry out. -/
def ctrAdd (r : Fin 4 → Word) : (Fin 4 → Word) × Bool :=
  let r0 := addc (r 0) 0x10000 false
  let r1 := addc (r 1) 0x0 r0.2
  let r2 := addc (r 2) 0x0 r1.2
  let r3 := addc (r 3) 0x0 r2.2
  (![r0.1, r1.1, r2.1, r3.1], r3.2)

/-- Where thread 0 is. -/
inductive Caller where
  | idle
  /-- in `core_on_counter`, the word at 60 set, thread 23 not yet booted -/
  | armed
  /-- in `core_on_counter_loop` -/
  | polling
  /-- past the loop -/
  | copying
  /-- in `ime_sec_fault`, because thread 23 was running already -/
  | bootFault
deriving DecidableEq, Repr

/-- Where thread 23 is. -/
inductive CtrThread where
  | stopped
  | booted
  | added
  | stored
  /-- the word at 60 cleared, the `stop` still to come -/
  | cleared
  /-- in `ime_sec_fault`, raised by the carry check -/
  | carryFault
deriving DecidableEq, Repr

structure Dpu where
  /-- registers 0 to 3 of thread 23 -/
  regs : Fin 4 → Word
  /-- the first four words of the thread-io area -/
  io : Fin 4 → Word
  /-- the word at offset 60 of the thread-io area -/
  flag : Word
  caller : Caller
  ctr : CtrThread
  /-- the values handed out so far, the latest first -/
  handed : List (Fin 4 → Word)
  /-- how often `core_on_counter` was called -/
  calls : Nat

inductive Action where
  | call
  | boot
  | poll
  | copy
  | add
  | store
  | clear
  | stop
deriving DecidableEq, Repr

def Dpu.step (s : Dpu) : Action → Option Dpu
  | .call =>
    if s.caller = .idle then some { s with flag := 0xFFFFFFFF, caller := .armed, calls := s.calls + 1 }
    else none
  /- `boot` reports the run bit as it was: a thread 23 that still runs is a fault. -/
  | .boot =>
    if s.caller = .armed then
      if s.ctr = .stopped then some { s with caller := .polling, ctr := .booted }
      else some { s with caller := .bootFault }
    else none
  | .poll =>
    if s.caller = .polling then
      if s.flag = 0 then some { s with caller := .copying } else some s
    else none
  | .copy =>
    if s.caller = .copying then some { s with handed := s.io :: s.handed, caller := .idle } else none
  | .add =>
    if s.ctr = .booted then
      /- `addc zero, zero, 0x0, nz, ime_sec_fault` -/
      if (ctrAdd s.regs).2 then some { s with regs := (ctrAdd s.regs).1, ctr := .carryFault }
      else some { s with regs := (ctrAdd s.regs).1, ctr := .added }
    else none
  | .store => if s.ctr = .added then some { s with io := s.regs, ctr := .stored } else none
  | .clear => if s.ctr = .stored then some { s with flag := 0, ctr := .cleared } else none
  | .stop => if s.ctr = .cleared then some { s with ctr := .stopped } else none

def Step (s s' : Dpu) : Prop := ∃ a, s.step a = some s'

/-- The actions of a list, one after the other. -/
def Dpu.run : Dpu → List Action → Option Dpu
  | s, [] => some s
  | s, a :: as => (s.step a).bind fun s => s.run as

/-- A DPU as the first-stage loader leaves it: thread 23 has its index, and
whatever is in the thread-io area is of no account. -/
def Init (dpu_index : Word) (s : Dpu) : Prop :=
  s.regs = onThread23 (packIndex dpu_index) ∧ s.caller = .idle ∧ s.ctr = .stopped ∧ s.handed = [] ∧
    s.calls = 0

/-- The iv `ime_aead_enc_gen` and `ime_chacha_enc_gen` use: the one given,
or the first three words of the counter. -/
def usedIv (p_iv : Option (Fin 3 → Word)) (iv_buf : Fin 4 → Word) : Fin 3 → Word :=
  match p_iv with
  | some iv => iv
  | none => ![iv_buf 0, iv_buf 1, iv_buf 2]

end Memclave.Counter
