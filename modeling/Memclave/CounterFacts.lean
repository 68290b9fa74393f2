/-
What the global counter hands out: `reachable_inv`, the invariant of one
DPU, and `counter_ivs_distinct`, the ivs of any set of DPUs.

The value after `n` additions is `packIndex + n * 2^16` (`Inv.regs`); the
other conditions say, for each place the two threads can be in, how many
additions have been done and whether the words in the thread-io area are the
new ones.
-/
import Memclave.Counter

namespace Memclave.Counter

open Words Sys

/-! ## The values -/

/-- The number of the counter's first value. -/
def base (dpu_index : Word) : Nat := (packIndex dpu_index).toNat

theorem base_eq {d : Word} (h : d.toNat < 2 ^ 15) : base d = 2 * d.toNat + 1 := by
  have h1 : ((d <<< 1) &&& 0xFFFE).toNat = 2 * d.toNat := by
    rw [BitVec.toNat_and, BitVec.toNat_shiftLeft, Nat.shiftLeft_eq]
    have hm : (0xFFFE : Word).toNat = 2 * (2 ^ 15 - 1) := by decide
    rw [hm, Nat.mod_eq_of_lt (by omega)]
    rw [show 2 * (2 ^ 15 - 1) = 2 ^ 1 * (2 ^ 15 - 1) from rfl, and_high (by omega)]
    omega
  rw [base, packIndex, BitVec.toNat_or, h1]
  have h3 : (1 : Word).toNat = 1 := by decide
  rw [h3, ← Nat.two_pow_add_eq_or_of_lt (i := 1) (by decide) d.toNat]

theorem arrVal_onThread23 (d : Word) : arrVal (onThread23 d) = d.toNat := by
  rw [arrVal_four]
  simp [onThread23]

/-- Below `2^128` the addition does not carry out. -/
theorem ctrAdd_val {r : Fin 4 → Word} (h : arrVal r + 2 ^ 16 < 2 ^ 128) :
    arrVal (ctrAdd r).1 = arrVal r + 2 ^ 16 ∧ (ctrAdd r).2 = false := by
  have h0 := addc_val (r 0) 0x10000 false
  have h1 := addc_val (r 1) 0x0 (addc (r 0) 0x10000 false).2
  have h2 := addc_val (r 2) 0x0 (addc (r 1) 0x0 (addc (r 0) 0x10000 false).2).2
  have h3 := addc_val (r 3) 0x0 (addc (r 2) 0x0 (addc (r 1) 0x0 (addc (r 0) 0x10000 false).2).2).2
  have k : (0x10000 : Word).toNat = 2 ^ 16 := by decide
  have k0 : (0x0 : Word).toNat = 0 := by decide
  have hlt := arrVal_lt (ctrAdd r).1
  rw [arrVal_four] at h hlt
  rw [arrVal_four, arrVal_four r]
  simp only [Bool.toNat_false, k, k0] at h0 h1 h2 h3
  simp only [ctrAdd, Matrix.cons_val] at hlt ⊢
  generalize addc (r 3) 0x0 (addc (r 2) 0x0 (addc (r 1) 0x0 (addc (r 0) 0x10000 false).2).2).2 = x3 at *
  rcases x3 with ⟨w, c⟩
  cases c
  · refine ⟨?_, rfl⟩
    simp only [Bool.toNat_false] at h3 ⊢
    omega
  · simp only [Bool.toNat_true] at h3
    omega

/-! ## One DPU -/

/-- With `m` values handed out and `n` additions done: what the places of the
two threads say about `m`, `n` and the shared words. -/
def PhaseOk (m n : Nat) (s : Dpu) : Prop :=
  match s.caller, s.ctr with
  | .idle, .cleared | .idle, .stopped => s.calls = m ∧ n = m
  | .armed, .cleared | .armed, .stopped => s.calls = m + 1 ∧ n = m ∧ s.flag ≠ 0
  | .bootFault, .cleared | .bootFault, .stopped => s.calls = m + 1 ∧ n = m
  | .polling, .booted => s.calls = m + 1 ∧ n = m ∧ s.flag ≠ 0
  | .polling, .added => s.calls = m + 1 ∧ n = m + 1 ∧ s.flag ≠ 0
  | .polling, .stored => s.calls = m + 1 ∧ n = m + 1 ∧ s.flag ≠ 0 ∧ s.io = s.regs
  | .polling, .cleared | .polling, .stopped | .copying, .cleared | .copying, .stopped =>
    s.calls = m + 1 ∧ n = m + 1 ∧ s.io = s.regs
  | _, _ => False

/-- What holds of a DPU after fewer than `2^80` calls. -/
structure Inv (d : Word) (n : Nat) (s : Dpu) : Prop where
  regs : arrVal s.regs = base d + 2 ^ 16 * n
  phase : PhaseOk s.handed.length n s
  /-- the values handed out are the 1st, 2nd, ... after the first one -/
  handed : ∀ j v, s.handed[j]? = some v → arrVal v + 2 ^ 16 * j = base d + 2 ^ 16 * s.handed.length

theorem init_inv {d : Word} {s : Dpu} (h : Init d s) : Inv d 0 s := by
  obtain ⟨hr, hc, ht, hh, hn⟩ := h
  refine ⟨?_, ?_, ?_⟩
  · rw [hr, arrVal_onThread23, base]
    omega
  · simp [PhaseOk, hc, ht, hh, hn]
  · simp [hh]

/-- No action takes a call back. -/
theorem step_calls {s s' : Dpu} {a : Action} (h : s.step a = some s') : s.calls ≤ s'.calls := by
  cases a <;> simp only [Dpu.step] at h <;> (repeat' split at h) <;>
    simp only [Option.some.injEq, reduceCtorEq] at h <;> subst h <;> simp

theorem PhaseOk.le {m n : Nat} {s : Dpu} (h : PhaseOk m n s) : n ≤ s.calls := by
  unfold PhaseOk at h
  split at h <;> first | omega | exact h.elim

/-- An action of thread 0 on its place and on the flag. -/
theorem caller_inv {d : Word} {n : Nat} {s s' : Dpu} (hi : Inv d n s) (hr : s'.regs = s.regs)
    (hh : s'.handed = s.handed) (hp : PhaseOk s.handed.length n s → PhaseOk s.handed.length n s') :
    Inv d n s' :=
  ⟨by rw [hr]; exact hi.regs, by rw [hh]; exact hp hi.phase, by rw [hh]; exact hi.handed⟩

theorem step_inv {d : Word} {n : Nat} {s s' : Dpu} {a : Action} (hd : d.toNat < 2 ^ 15)
    (hi : Inv d n s) (h : s.step a = some s') (hc : s'.calls < 2 ^ 80) : ∃ n', Inv d n' s' := by
  have hp := hi.phase
  have hle := hp.le
  have hcc := step_calls h
  have hb := base_eq hd
  cases a <;> simp only [Dpu.step] at h
  case call =>
    split at h <;> simp only [Option.some.injEq, reduceCtorEq] at h
    next hg =>
    subst h
    refine ⟨n, caller_inv hi rfl rfl fun hp => ?_⟩
    simp only [PhaseOk, hg] at hp ⊢
    split at hp <;> simp_all
  case boot =>
    split at h
    next hg =>
      split at h <;> simp only [Option.some.injEq] at h <;> subst h <;>
        refine ⟨n, caller_inv hi rfl rfl fun hp => ?_⟩
      next hs =>
        simp only [PhaseOk, hg, hs] at hp ⊢
        exact hp
      next hs =>
        simp only [PhaseOk, hg] at hp ⊢
        split at hp <;> simp_all
    next => simp at h
  case poll =>
    split at h
    next hg =>
      split at h <;> simp only [Option.some.injEq] at h <;> subst h
      next hf =>
        refine ⟨n, caller_inv hi rfl rfl fun hp => ?_⟩
        simp only [PhaseOk, hg] at hp ⊢
        split at hp <;> simp_all
      next => exact ⟨n, hi⟩
    next => simp at h
  case copy =>
    split at h <;> simp only [Option.some.injEq, reduceCtorEq] at h
    next hg =>
    subst h
    -- thread 23 is past its stores: the words copied are its registers
    have hio : n = s.handed.length + 1 ∧ s.io = s.regs ∧ s.calls = s.handed.length + 1 ∧
        (s.ctr = .cleared ∨ s.ctr = .stopped) := by
      simp only [PhaseOk, hg] at hp
      split at hp <;> simp_all
    obtain ⟨hn, hio, hcalls, hctr⟩ := hio
    refine ⟨n, hi.regs, ?_, fun j v hv => ?_⟩
    · rcases hctr with hctr | hctr <;> simp [PhaseOk, hctr, hn, hcalls]
    · rw [List.length_cons]
      cases j with
      | zero =>
        simp only [List.getElem?_cons_zero, Option.some.injEq] at hv
        rw [← hv, hio, hi.regs, hn]
        omega
      | succ j =>
        have := hi.handed j v (by simpa using hv)
        omega
  case add =>
    obtain ⟨hval, hcarry⟩ := ctrAdd_val (r := s.regs) (by rw [hi.regs]; omega)
    rw [hcarry] at h
    split at h <;> simp only [Option.some.injEq, reduceCtorEq, Bool.false_eq_true, if_false] at h
    next hg =>
    subst h
    refine ⟨n + 1, ?_, ?_, hi.handed⟩
    · show arrVal (ctrAdd s.regs).1 = _
      rw [hval, hi.regs]
      ring
    · simp only [PhaseOk, hg] at hp ⊢
      split at hp <;> simp_all
  case store =>
    split at h <;> simp only [Option.some.injEq, reduceCtorEq] at h
    next hg =>
    subst h
    refine ⟨n, caller_inv hi rfl rfl fun hp => ?_⟩
    simp only [PhaseOk, hg] at hp ⊢
    split at hp <;> simp_all
  case clear =>
    split at h <;> simp only [Option.some.injEq, reduceCtorEq] at h
    next hg =>
    subst h
    refine ⟨n, caller_inv hi rfl rfl fun hp => ?_⟩
    simp only [PhaseOk, hg] at hp ⊢
    split at hp <;> simp_all
  case stop =>
    split at h <;> simp only [Option.some.injEq, reduceCtorEq] at h
    next hg =>
    subst h
    refine ⟨n, caller_inv hi rfl rfl fun hp => ?_⟩
    simp only [PhaseOk, hg] at hp ⊢
    split at hp <;> simp_all

/-- **The invariant of a run** of fewer than `2^80` calls. -/
theorem reachable_inv {d : Word} {s : Dpu} (hd : d.toNat < 2 ^ 15) (h : Reachable (Init d) Step s)
    (hc : s.calls < 2 ^ 80) : ∃ n, Inv d n s := by
  refine Reachable.invariant (fun s => s.calls < 2 ^ 80 → ∃ n, Inv d n s) ?_ ?_ h hc
  · exact fun s h0 _ => ⟨0, init_inv h0⟩
  · rintro s s' ih ⟨a, ha⟩ hc'
    obtain ⟨n, hi⟩ := ih (lt_of_le_of_lt (step_calls ha) hc')
    exact step_inv hd hi ha hc'

/-! ## The ivs -/

/-- The number of the three words of an iv. -/
theorem arrVal_iv (v : Fin 4 → Word) : arrVal (usedIv none v) = arrVal v % 2 ^ 96 := by
  have h0 := word_lt (v 0)
  have h1 := word_lt (v 1)
  have h2 := word_lt (v 2)
  have h3 := word_lt (v 3)
  rw [arrVal_four]
  simp only [arrVal, usedIv, rowVal, List.ofFn_succ, List.ofFn_zero, Matrix.cons_val_zero, Matrix.cons_val_succ]
  omega

/-- The `j`-th iv back from the latest of `m`: below `2^96`, so nothing of it
is lost in the three words. -/
theorem Inv.iv {d : Word} {n : Nat} {s : Dpu} (hd : d.toNat < 2 ^ 15) (hi : Inv d n s)
    (hc : s.calls < 2 ^ 80) {j : Nat} {v : Fin 4 → Word} (hv : s.handed[j]? = some v) :
    j < s.handed.length ∧
      arrVal (usedIv none v) = 2 * d.toNat + 1 + 2 ^ 16 * (s.handed.length - j) := by
  obtain ⟨hj, -⟩ := List.getElem?_eq_some_iff.mp hv
  have hval := hi.handed j v hv
  have hlen : s.handed.length ≤ s.calls := by
    have := hi.phase
    unfold PhaseOk at this
    split at this <;> first | omega | exact this.elim
  rw [base_eq hd] at hval
  refine ⟨hj, ?_⟩
  rw [arrVal_iv, Nat.mod_eq_of_lt (by omega)]
  omega

/-- **The ivs of any set of DPUs.** With distinct indices below `2^15` and
fewer than `2^80` calls on each DPU, in any order of the steps of each: no two
ivs handed out are the same, on one DPU or on two; each has its lowest bit
set, so it is none of those with the bit clear; and the carry check raises no
fault. -/
theorem counter_ivs_distinct {ι : Type} (dpu_index : ι → Word) (hinj : Function.Injective dpu_index)
    (hlt : ∀ i, (dpu_index i).toNat < 2 ^ 15) (s : ι → Dpu)
    (hs : ∀ i, Reachable (Init (dpu_index i)) Step (s i)) (hc : ∀ i, (s i).calls < 2 ^ 80) :
    (∀ i j (a b : Nat) v w, (s i).handed[a]? = some v → (s j).handed[b]? = some w →
        usedIv none v = usedIv none w → i = j ∧ a = b) ∧
      (∀ i, ∀ v ∈ (s i).handed, (usedIv none v 0).toNat % 2 = 1 ∧
        ∀ g : Fin 3 → Word, (g 0).toNat % 2 = 0 → usedIv none v ≠ g) ∧
      ∀ i, (s i).ctr ≠ .carryFault := by
  refine ⟨fun i j a b v w hv hw heq => ?_, fun i v hv => ?_, fun i => ?_⟩
  · obtain ⟨n, hi⟩ := reachable_inv (hlt i) (hs i) (hc i)
    obtain ⟨m, hj⟩ := reachable_inv (hlt j) (hs j) (hc j)
    obtain ⟨ha, h1⟩ := hi.iv (hlt i) (hc i) hv
    obtain ⟨hb, h2⟩ := hj.iv (hlt j) (hc j) hw
    have hli := hlt i
    have hlj := hlt j
    rw [heq, h2] at h1
    have hij : i = j := hinj (word_ext (by omega))
    subst hij
    exact ⟨rfl, by omega⟩
  · obtain ⟨n, hi⟩ := reachable_inv (hlt i) (hs i) (hc i)
    obtain ⟨a, hva⟩ := List.mem_iff_getElem?.mp hv
    obtain ⟨-, h1⟩ := hi.iv (hlt i) (hc i) hva
    have hodd : (usedIv none v 0).toNat % 2 = 1 := by
      simp only [arrVal, List.ofFn_succ, rowVal] at h1
      omega
    refine ⟨hodd, fun g hg he => ?_⟩
    rw [he, hg] at hodd
    omega
  · obtain ⟨n, hi⟩ := reachable_inv (hlt i) (hs i) (hc i)
    intro hf
    have hp := hi.phase
    simp only [PhaseOk, hf] at hp
    split at hp <;> simp_all

/-! ## A run -/

theorem reachable_run {init : Dpu → Prop} : ∀ {as : List Action} {s s' : Dpu}, Reachable init Step s →
    s.run as = some s' → Reachable init Step s'
  | [], s, s', h, hr => by
    simp only [Dpu.run, Option.some.injEq] at hr
    rwa [← hr]
  | a :: as, s, s', h, hr => by
    simp only [Dpu.run, Option.bind_eq_some_iff] at hr
    obtain ⟨t, ht, hr⟩ := hr
    exact reachable_run (.step h ⟨a, ht⟩) hr

/-- A DPU before its first call, with the counter at `r`, and after the call,
with the counter at `v`. -/
def fresh (r : Fin 4 → Word) : Dpu := ⟨r, fun _ => 0, 0, .idle, .stopped, [], 0⟩

def called (v : Fin 4 → Word) : Dpu := ⟨v, v, 0, .idle, .stopped, [v], 1⟩

theorem run_cons {s t : Dpu} {a : Action} {as : List Action} (h : s.step a = some t) :
    s.run (a :: as) = t.run as := by
  rw [Dpu.run, h, Option.bind_some]

theorem run_called {r v : Fin 4 → Word} (h : ctrAdd r = (v, false)) :
    (fresh r).run [.call, .boot, .poll, .add, .store, .clear, .stop, .poll, .copy] = some (called v) := by
  have call : (fresh r).step .call = some ⟨r, fun _ => 0, 0xFFFFFFFF, .armed, .stopped, [], 1⟩ := by
    simp [Dpu.step, fresh]
  have boot : (Dpu.mk r (fun _ => 0) 0xFFFFFFFF .armed .stopped [] 1).step .boot =
      some ⟨r, fun _ => 0, 0xFFFFFFFF, .polling, .booted, [], 1⟩ := by
    simp [Dpu.step]
  -- the counter is not there yet: once more round the loop
  have loop : (Dpu.mk r (fun _ => 0) 0xFFFFFFFF .polling .booted [] 1).step .poll =
      some ⟨r, fun _ => 0, 0xFFFFFFFF, .polling, .booted, [], 1⟩ := by
    simp [Dpu.step]
  have add : (Dpu.mk r (fun _ => 0) 0xFFFFFFFF .polling .booted [] 1).step .add =
      some ⟨v, fun _ => 0, 0xFFFFFFFF, .polling, .added, [], 1⟩ := by
    simp [Dpu.step, h]
  have store : (Dpu.mk v (fun _ => 0) 0xFFFFFFFF .polling .added [] 1).step .store =
      some ⟨v, v, 0xFFFFFFFF, .polling, .stored, [], 1⟩ := by
    simp [Dpu.step]
  rw [run_cons call, run_cons boot, run_cons loop, run_cons add, run_cons store]
  simp [Dpu.run, Dpu.step, called]

theorem reachable_called {d : Word} (hd : d.toNat < 2 ^ 15) {v : Fin 4 → Word}
    (hv : (ctrAdd (onThread23 (packIndex d))).1 = v) : Reachable (Init d) Step (called v) := by
  have hc : (ctrAdd (onThread23 (packIndex d))).2 = false := by
    have := base_eq hd
    refine (ctrAdd_val ?_).2
    rw [arrVal_onThread23]
    unfold base at this
    omega
  exact reachable_run (.init ⟨rfl, rfl, rfl, rfl, rfl⟩) (run_called (Prod.ext hv hc))

/-- The two first values of indices 0 and 1. -/
def firstTwo : Fin 2 → Fin 4 → Word := ![![0x10001, 0, 0, 0], ![0x10003, 0, 0, 0]]

/-- Two DPUs, indices 0 and 1, one call on each. -/
theorem counter_ivs_distinct_two : usedIv none (firstTwo 0) ≠ usedIv none (firstTwo 1) := by
  have hlt : ∀ i, ((![0, 1] : Fin 2 → Word) i).toNat < 2 ^ 15 := by decide
  have hinj : ∀ i j, (![0, 1] : Fin 2 → Word) i = ![0, 1] j → i = j := by decide
  have hv : ∀ i : Fin 2, (ctrAdd (onThread23 (packIndex (![0, 1] i)))).1 = firstTwo i := fun i => by
    funext k
    revert i k
    decide
  have h := (counter_ivs_distinct ![0, 1] (fun _ _ => hinj _ _) hlt (fun i => called (firstTwo i))
    (fun i => reachable_called (hlt i) (hv i)) (fun i => by simp [called])).1 0 1 0 0
  intro he
  exact absurd (h (firstTwo 0) (firstTwo 1) rfl rfl he).1 (by decide)

end Memclave.Counter
