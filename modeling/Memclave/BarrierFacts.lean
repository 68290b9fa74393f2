/-
The barrier keeps its rounds (`barrier_rounds`): in every reachable state
`RoundsOk` holds, and some run lets every call of a full round return.

`Inv` counts the calls of the current round twice: `count` of them have been
counted, and `done` of those have left `ime_wait_barrier`, so that a leader
which reads `done = init` knows that nobody is in there. A tasklet may be
in `ime_leave_barrier` long after its round: it is not the leader of any
round that follows, because its id is in none of them.
-/
import Mathlib.Order.WellFounded
import Memclave.Barrier

namespace Memclave.Barrier

open Sys

variable {ids : Finset Nat} {c : Nat} {s s' : State} {i : Nat}

/-- The call a tasklet is in. -/
def Pc.call : Pc → Option Nat
  | .outside | .entering => none
  | .waiting k | .passing k | .leaving k | .leading k | .resetting k => some k

/-- 1 for a tasklet in `ime_wait_barrier`. -/
def Pc.waits : Pc → Nat
  | .waiting _ | .passing _ => 1
  | _ => 0

/-- What a tasklet's place says about the fields and its call. -/
def PcOk (c : Nat) (s : State) (i : Nat) : Pc → Prop
  | .outside | .entering => True
  | .waiting k => s.resets * c ≤ k
  | .passing k => s.resets * c ≤ k ∧ s.bar.count = c
  | .leaving k => (s.resets * c ≤ k ∧ s.bar.count = c) ∨
    (k < s.resets * c ∧ ∃ j i', j / c = k / c ∧ s.calls[j]? = some i' ∧ i' < i)
  | .leading k => s.resets * c ≤ k ∧ s.bar.count = c ∧ s.bar.leader = i
  | .resetting k => s.resets * c ≤ k ∧ s.bar.count = c ∧ s.bar.leader = i ∧ s.bar.done = c

/-- What a call's value says about its round. -/
def RetOk (c : Nat) (s : State) (k : Nat) (b : Bool) : Prop :=
  (∀ j, j / c = k / c → j < s.calls.length) ∧ ∃ i, s.calls[k]? = some i ∧
    (b = true ↔ ∀ j i', j / c = k / c → s.calls[j]? = some i' → i ≤ i')

structure Inv (ids : Finset Nat) (c : Nat) (s : State) : Prop where
  init : s.bar.init = c
  idle : ∀ i, i ∉ ids → s.pc i = .outside
  count : s.calls.length = s.resets * c + s.bar.count
  count_le : s.bar.count ≤ c
  done : (∑ i ∈ ids, (s.pc i).waits) + s.bar.done = s.bar.count
  id_lt : ∀ (k i : Nat), s.calls[k]? = some i → i < 0xFFFF
  /-- `leader` is the smallest id of the current round, -/
  leader_le : ∀ (k i : Nat), s.resets * c ≤ k → s.calls[k]? = some i → s.bar.leader ≤ i
  leader_mem : (s.bar.count = 0 ∧ s.bar.leader = 0xFFFF) ∨
    ∃ k, s.resets * c ≤ k ∧ s.calls[k]? = some s.bar.leader
  /-- a tasklet in a call is the one whose call it is, -/
  mine : ∀ i k, (s.pc i).call = some k → s.calls[k]? = some i ∧ (∀ b, (k, b) ∉ s.returned) ∧
    ∀ k' : Nat, s.calls[k']? = some i → k' ≤ k
  /-- and a call that has not returned is one that a tasklet is in -/
  held : ∀ (k i : Nat), s.calls[k]? = some i → (∃ b, (k, b) ∈ s.returned) ∨ (s.pc i).call = some k
  ok : ∀ i, PcOk c s i (s.pc i)
  distinct : ∀ j k, j / c = k / c → ∀ i, s.calls[j]? = some i → s.calls[k]? = some i → j = k
  once : (s.returned.map Prod.fst).Nodup
  ret : ∀ k b, (k, b) ∈ s.returned → RetOk c s k b

/-! ## Rounds of `c` calls -/

/-- The calls from `r * c` on, `c` of them, are those of round `r`. -/
theorem round_iff (hc : 1 ≤ c) {r k : Nat} : k / c = r ↔ r * c ≤ k ∧ k < r * c + c := by
  rw [Nat.div_eq_iff (by omega)]
  constructor
  · rintro ⟨h1, h2⟩
    omega
  · rintro ⟨h1, h2⟩
    omega

theorem Inv.lt_length (hi : Inv ids c s) {k : Nat} (h : s.calls[k]? = some i) :
    k < s.resets * c + s.bar.count := by
  have := (List.getElem?_eq_some_iff.mp h).1
  have := hi.count
  omega

/-- A call from `resets * c` on is one of the current round. -/
theorem Inv.current (hi : Inv ids c s) (hc : 1 ≤ c) {k : Nat} (h : s.calls[k]? = some i)
    (hk : s.resets * c ≤ k) : k / c = s.resets := by
  have := hi.lt_length h
  have := hi.count_le
  exact (round_iff hc).mpr ⟨hk, by omega⟩

/-- With `count` at `c`, the calls of the current round have all entered. -/
theorem Inv.full (hi : Inv ids c s) (hc : 1 ≤ c) (h : s.bar.count = c) {j : Nat}
    (hj : j / c = s.resets) : j < s.calls.length := by
  have := (round_iff hc).mp hj
  have := hi.count
  omega

/-- Nobody is in `ime_wait_barrier` once `done` is at `c`. -/
theorem Inv.nobody_waits (hi : Inv ids c s) (h : s.bar.done = c) (j : Nat) : (s.pc j).waits = 0 := by
  have hd := hi.done
  have hl := hi.count_le
  have h0 : ∑ i ∈ ids, (s.pc i).waits = 0 := by omega
  by_cases hj : j ∈ ids
  · exact Finset.sum_eq_zero_iff.mp h0 j hj
  · rw [hi.idle j hj]
    rfl

theorem Inv.member (hi : Inv ids c s) (h : s.pc i ≠ .outside) : i ∈ ids := by
  by_contra hn
  exact h (hi.idle i hn)

/-! ## The sections -/

/-- A section that moves its tasklet, within its call, and may raise `done`. -/
theorem Inv.goto (hi : Inv ids c s) {p : Pc} {d : Nat} (hm : i ∈ ids) (hcall : p.call = (s.pc i).call)
    (hd : p.waits + d = (s.pc i).waits + s.bar.done)
    (hr : ∀ j k, s.pc j = .resetting k → d = s.bar.done)
    (hp : PcOk c { s with bar := { s.bar with done := d } } i p) :
    Inv ids c { s with bar := { s.bar with done := d }, pc := Function.update s.pc i p } := by
  have hcalls : ∀ j, (Function.update s.pc i p j).call = (s.pc j).call := by
    intro j
    by_cases hj : j = i
    · subst hj; rw [Function.update_self, hcall]
    · rw [Function.update_of_ne hj]
  refine { hi with idle := ?_, done := ?_, mine := ?_, held := ?_, ok := ?_ }
  · intro j hj
    have hne : j ≠ i := fun h => hj (h ▸ hm)
    show Function.update s.pc i p j = .outside
    rw [Function.update_of_ne hne, hi.idle j hj]
  · have := sum_update hm Pc.waits s.pc p
    have := hi.done
    show (∑ j ∈ ids, (Function.update s.pc i p j).waits) + d = s.bar.count
    omega
  · intro j k hk
    exact hi.mine j k ((hcalls j).symm.trans hk)
  · intro k j hk
    rw [hcalls]
    exact hi.held k j hk
  · intro j
    show PcOk c _ j (Function.update s.pc i p j)
    by_cases hj : j = i
    · subst hj
      rw [Function.update_self]
      cases p <;> exact hp
    · rw [Function.update_of_ne hj]
      have := hi.ok j
      cases h : s.pc j <;> rw [h] at this
      case resetting k => exact ⟨this.1, this.2.1, this.2.2.1, (hr j k h).trans this.2.2.2⟩
      all_goals exact this

theorem calls_concat {l : List Nat} {k j : Nat} :
    (l ++ [i])[k]? = some j ↔ l[k]? = some j ∨ (k = l.length ∧ j = i) := by
  rw [List.getElem?_append]
  split
  next h =>
    have : k ≠ l.length := by omega
    simp [this]
  next h =>
    have hn : l[k]? = none := List.getElem?_eq_none (by omega)
    by_cases hk : k = l.length
    · subst hk
      simp [eq_comm]
    · have : [i][k - l.length]? = none := List.getElem?_eq_none (by simp; omega)
      simp [hn, hk, this]

/-- A call that is counted changes nothing about the rounds that are full. -/
theorem RetOk.concat {k : Nat} {b : Bool} (h : RetOk c s k b) (hs : s'.calls = s.calls ++ [i]) :
    RetOk c s' k b := by
  obtain ⟨hf, i0, hk, hb⟩ := h
  have hold : ∀ j i', j / c = k / c → (s'.calls[j]? = some i' ↔ s.calls[j]? = some i') := by
    intro j i' hj
    have := hf j hj
    rw [hs, calls_concat]
    simp only [show j ≠ s.calls.length by omega, false_and, or_false]
  refine ⟨fun j hj => ?_, i0, (hold k i0 rfl).mpr hk, hb.trans ⟨fun h j i' hj hc => ?_, fun h j i' hj hc => ?_⟩⟩
  · have := hf j hj
    rw [hs, List.length_append]
    omega
  · exact h j i' hj ((hold j i' hj).mp hc)
  · exact h j i' hj ((hold j i' hj).mpr hc)

/-- `ime_enter_barrier`, where `count` is not at its maximum. -/
theorem Inv.enter (hi : Inv ids c s) (hc : 1 ≤ c) (hc16 : c < 2 ^ 16) (hm : i ∈ ids) (hlt : i < 0xFFFF)
    (hp : s.pc i = .entering) (hn : s.bar.count ≠ c) :
    Inv ids c { s with
      bar := imeEnterBarrier s.bar i
      pc := Function.update s.pc i (.waiting s.calls.length)
      calls := s.calls ++ [i] } := by
  have hle := hi.count_le
  have hlen := hi.count
  have hmod : (s.bar.count + 1) % 2 ^ 16 = s.bar.count + 1 := Nat.mod_eq_of_lt (by omega)
  have hround : s.calls.length / c = s.resets := (round_iff hc).mpr ⟨by omega, by omega⟩
  have hcall : (s.pc i).call = none := by rw [hp]; rfl
  refine ⟨hi.init, ?_, ?_, ?_, ?_, ?_, ?_, ?_, ?_, ?_, ?_, ?_, hi.once, ?_⟩
  · intro j hj
    have hne : j ≠ i := fun h => hj (h ▸ hm)
    show Function.update s.pc i _ j = .outside
    rw [Function.update_of_ne hne, hi.idle j hj]
  · simp only [imeEnterBarrier, List.length_append, List.length_cons, List.length_nil, hmod]
    omega
  · simp only [imeEnterBarrier, hmod]
    omega
  · have hsum := sum_update hm Pc.waits s.pc (.waiting s.calls.length)
    have hdone := hi.done
    rw [hp] at hsum
    simp only [Pc.waits] at hsum hdone
    simp only [imeEnterBarrier, hmod, Pc.waits]
    omega
  · intro k j hk
    rcases calls_concat.mp hk with h | ⟨-, rfl⟩
    · exact hi.id_lt k j h
    · exact hlt
  · intro k j hk hj
    simp only [imeEnterBarrier]
    rcases calls_concat.mp hj with h | ⟨-, rfl⟩
    · have := hi.leader_le k j hk h
      split <;> omega
    · split <;> omega
  · refine .inr ?_
    simp only [imeEnterBarrier]
    split
    · exact ⟨s.calls.length, by omega, calls_concat.mpr (.inr ⟨rfl, rfl⟩)⟩
    · rcases hi.leader_mem with ⟨-, h⟩ | ⟨k, hk, h⟩
      · omega
      · exact ⟨k, hk, calls_concat.mpr (.inl h)⟩
  · intro j k hk
    by_cases hj : j = i
    · subst hj
      simp only [Function.update_self, Pc.call, Option.some.injEq] at hk
      subst hk
      refine ⟨calls_concat.mpr (.inr ⟨rfl, rfl⟩), fun b hb => ?_, fun k' hk' => ?_⟩
      · have := (hi.ret _ _ hb).1 s.calls.length rfl
        omega
      · rcases calls_concat.mp hk' with h | ⟨rfl, -⟩
        · exact (List.getElem?_eq_some_iff.mp h).1.le
        · exact le_rfl
    · simp only [Function.update_of_ne hj] at hk
      obtain ⟨h1, h2, h3⟩ := hi.mine j k hk
      refine ⟨calls_concat.mpr (.inl h1), h2, fun k' hk' => ?_⟩
      rcases calls_concat.mp hk' with h | ⟨-, rfl⟩
      · exact h3 k' h
      · exact absurd rfl hj
  · intro k j hk
    rcases calls_concat.mp hk with h | ⟨rfl, rfl⟩
    · cases hi.held k j h with
      | inl hr => exact .inl hr
      | inr hr =>
        have hj : j ≠ i := by
          rintro rfl
          rw [hcall] at hr
          simp at hr
        refine .inr ?_
        simp only [Function.update_of_ne hj]
        exact hr
    · refine .inr ?_
      simp [Pc.call]
  · intro j
    by_cases hj : j = i
    · subst hj
      simp only [Function.update_self, PcOk]
      omega
    · simp only [Function.update_of_ne hj]
      have hok := hi.ok j
      cases h : s.pc j <;> rw [h] at hok
      case outside | entering => trivial
      case waiting k => exact hok
      case passing k => exact absurd hok.2 hn
      case leaving k =>
        rcases hok with ⟨-, h⟩ | ⟨hk, j', i', hj', hc', hlt'⟩
        · exact absurd h hn
        · exact .inr ⟨hk, j', i', hj', calls_concat.mpr (.inl hc'), hlt'⟩
      case leading k => exact absurd hok.2.1 hn
      case resetting k => exact absurd hok.2.1 hn
  · -- `i` is not in the current round yet: its calls before are of full rounds
    have hnew : ∀ j : Nat, j / c = s.calls.length / c → s.calls[j]? ≠ some i := by
      intro j hj hi'
      rcases hi.held j i hi' with ⟨b, hb⟩ | h
      · have := (hi.ret j b hb).1 s.calls.length hj.symm
        omega
      · rw [hcall] at h
        simp at h
    intro j k hjk i' hj hk
    rcases calls_concat.mp hj with h1 | ⟨rfl, rfl⟩ <;> rcases calls_concat.mp hk with h2 | ⟨rfl, h2⟩
    · exact hi.distinct j k hjk i' h1 h2
    · subst h2
      exact absurd h1 (hnew j hjk)
    · exact absurd h2 (hnew k hjk.symm)
    · rfl
  · intro k b hb
    exact (hi.ret k b hb).concat rfl

/-- `done += 1`, by one who leaves `ime_wait_barrier`. -/
theorem Inv.pass (hi : Inv ids c s) (hc16 : c < 2 ^ 16) {k : Nat} (hp : s.pc i = .passing k) :
    Inv ids c { s with
      bar := { s.bar with done := (s.bar.done + 1) % 2 ^ 16 }
      pc := Function.update s.pc i (.leaving k) } := by
  have hm : i ∈ ids := hi.member (by simp [hp])
  have hok := hi.ok i
  rw [hp] at hok
  have hle := hi.count_le
  have hpos := Finset.add_sum_erase ids (fun j => (s.pc j).waits) hm
  have hw : (s.pc i).waits = 1 := by rw [hp]; rfl
  have hdone := hi.done
  have hmod : (s.bar.done + 1) % 2 ^ 16 = s.bar.done + 1 := Nat.mod_eq_of_lt (by omega)
  refine hi.goto hm (by rw [hp]; rfl) ?_ ?_ (.inl hok)
  · rw [hmod, hw]
    simp only [Pc.waits]
    omega
  · intro j k' hj
    have hokj := hi.ok j
    rw [hj] at hokj
    have := hi.nobody_waits hokj.2.2.2 i
    omega

/-! ## Returning -/

/-- The record of the calls, when tasklet `i` returns from call `k`. -/
theorem Inv.leave (hi : Inv ids c s) {k : Nat} (hk : (s.pc i).call = some k) (b : Bool) :
    (∀ j k', (Function.update s.pc i Pc.outside j).call = some k' →
      s.calls[k']? = some j ∧ (∀ b', (k', b') ∉ (k, b) :: s.returned) ∧
        ∀ k'' : Nat, s.calls[k'']? = some j → k'' ≤ k') ∧
    (∀ (k' j : Nat), s.calls[k']? = some j →
      (∃ b', (k', b') ∈ (k, b) :: s.returned) ∨ (Function.update s.pc i Pc.outside j).call = some k') ∧
    (((k, b) :: s.returned).map Prod.fst).Nodup := by
  obtain ⟨hki, hkr, -⟩ := hi.mine i k hk
  refine ⟨fun j k' hj => ?_, fun k' j hj => ?_, ?_⟩
  · by_cases hji : j = i
    · subst hji
      simp [Pc.call] at hj
    · rw [Function.update_of_ne hji] at hj
      obtain ⟨h1, h2, h3⟩ := hi.mine j k' hj
      refine ⟨h1, fun b' hb' => ?_, h3⟩
      cases List.mem_cons.mp hb' with
      | inl h =>
        obtain ⟨rfl, -⟩ := Prod.mk.inj h
        exact hji (Option.some.inj (h1.symm.trans hki))
      | inr h => exact h2 b' h
  · rcases hi.held k' j hj with ⟨b', h⟩ | h
    · exact .inl ⟨b', List.mem_cons_of_mem _ h⟩
    · by_cases hji : j = i
      · subst hji
        obtain rfl : k = k' := Option.some.inj (hk.symm.trans h)
        exact .inl ⟨b, List.mem_cons_self⟩
      · exact .inr (by rw [Function.update_of_ne hji]; exact h)
  · rw [List.map_cons, List.nodup_cons]
    refine ⟨fun h => ?_, hi.once⟩
    obtain ⟨⟨k', b'⟩, hm, rfl⟩ := List.mem_map.mp h
    exact hkr b' hm

/-- One who is not the leader: it is not the smallest of its round, whether
that is the current one or a round long reset. -/
theorem Inv.leaving_false (hi : Inv ids c s) (hc : 1 ≤ c) {k : Nat} (hp : s.pc i = .leaving k)
    (hne : s.bar.leader ≠ i) : RetOk c s k false := by
  have hok := hi.ok i
  rw [hp] at hok
  obtain ⟨hki, -, -⟩ := hi.mine i k (by rw [hp]; rfl)
  have hle := hi.count_le
  have hlen := hi.count
  obtain ⟨j, i', hj, hcj, hlt⟩ : ∃ j i', j / c = k / c ∧ s.calls[j]? = some i' ∧ i' < i := by
    rcases hok with ⟨hk, hf⟩ | ⟨-, h⟩
    · rcases hi.leader_mem with ⟨h0, -⟩ | ⟨j, hj, hcj⟩
      · omega
      · have := hi.leader_le k i hk hki
        exact ⟨j, _, (hi.current hc hcj hj).trans (hi.current hc hki hk).symm, hcj, by omega⟩
    · exact h
  refine ⟨fun j' hj' => ?_, i, hki, ?_⟩
  · rcases hok with ⟨hk, hf⟩ | ⟨hk, -⟩
    · exact hi.full hc hf (hj'.trans (hi.current hc hki hk))
    · have hdiv : k / c < s.resets := Nat.div_lt_of_lt_mul (by rw [Nat.mul_comm]; exact hk)
      have := Nat.mul_le_mul_right c (show k / c + 1 ≤ s.resets by omega)
      have := (round_iff hc).mp hj'
      rw [Nat.add_mul] at *
      omega
  · simp only [Bool.false_eq_true, false_iff, not_forall]
    exact ⟨j, i', hj, hcj, by omega⟩

/-- The leader of a round is in none of the next ones. -/
theorem Inv.leading (hi : Inv ids c s) {k : Nat} (hp : s.pc i = .leaving k)
    (hl : s.bar.leader = i) : s.resets * c ≤ k ∧ s.bar.count = c := by
  have hok := hi.ok i
  rw [hp] at hok
  obtain ⟨hki, -, hlast⟩ := hi.mine i k (by rw [hp]; rfl)
  rcases hok with h | ⟨hk, -⟩
  · exact h
  · rcases hi.leader_mem with ⟨-, h⟩ | ⟨j, hj, hcj⟩
    · have := hi.id_lt k i hki
      omega
    · rw [hl] at hcj
      have := hlast j hcj
      omega

theorem Inv.ret_false (hi : Inv ids c s) (hc : 1 ≤ c) {k : Nat} (hp : s.pc i = .leaving k)
    (hne : s.bar.leader ≠ i) :
    Inv ids c { s with pc := Function.update s.pc i .outside, returned := (k, false) :: s.returned } := by
  have hm : i ∈ ids := hi.member (by simp [hp])
  have hcall : (s.pc i).call = some k := by rw [hp]; rfl
  obtain ⟨hmine, hheld, honce⟩ := hi.leave hcall false
  have hsum := sum_update hm Pc.waits s.pc .outside
  have hw : (s.pc i).waits = 0 := by rw [hp]; rfl
  refine { hi with idle := ?_, done := ?_, mine := hmine, held := hheld, ok := ?_, once := honce, ret := ?_ }
  · intro j hj
    have hne : j ≠ i := fun h => hj (h ▸ hm)
    show Function.update s.pc i _ j = .outside
    rw [Function.update_of_ne hne, hi.idle j hj]
  · have := hi.done
    rw [hw] at hsum
    simp only [Pc.waits] at hsum this ⊢
    omega
  · intro j
    show PcOk c _ j (Function.update s.pc i .outside j)
    by_cases hj : j = i
    · subst hj
      rw [Function.update_self]
      trivial
    · rw [Function.update_of_ne hj]
      have := hi.ok j
      cases h : s.pc j <;> rw [h] at this <;> exact this
  · intro k' b' hb'
    cases List.mem_cons.mp hb' with
    | inl h =>
      obtain ⟨rfl, rfl⟩ := Prod.mk.inj h
      exact hi.leaving_false hc hp hne
    | inr h => exact hi.ret k' b' h

/-- The leader resets the fields: nobody is in `ime_wait_barrier`, and those
still in `ime_leave_barrier` have a larger id. -/
theorem Inv.reset (hi : Inv ids c s) (hc : 1 ≤ c) {k : Nat} (hp : s.pc i = .resetting k) :
    Inv ids c { s with
      bar := { s.bar with count := 0, done := 0, leader := 0xFFFF }
      pc := Function.update s.pc i .outside
      resets := s.resets + 1
      returned := (k, true) :: s.returned } := by
  have hm : i ∈ ids := hi.member (by simp [hp])
  have hcall : (s.pc i).call = some k := by rw [hp]; rfl
  obtain ⟨hki, hkr, hlast⟩ := hi.mine i k hcall
  obtain ⟨hk, hf, hl, hd⟩ : PcOk c s i (.resetting k) := by
    have := hi.ok i
    rwa [hp] at this
  obtain ⟨hmine, hheld, honce⟩ := hi.leave hcall true
  have hlen := hi.count
  have hsucc : (s.resets + 1) * c = s.resets * c + c := by rw [Nat.add_mul, Nat.one_mul]
  refine ⟨hi.init, ?_, ?_, Nat.zero_le _, ?_, hi.id_lt, ?_, .inl ⟨rfl, rfl⟩, hmine, hheld, ?_,
    hi.distinct, honce, ?_⟩
  · intro j hj
    have hne : j ≠ i := fun h => hj (h ▸ hm)
    show Function.update s.pc i _ j = .outside
    rw [Function.update_of_ne hne, hi.idle j hj]
  · show s.calls.length = (s.resets + 1) * c + 0
    omega
  · refine Nat.add_eq_zero_iff.mpr ⟨Finset.sum_eq_zero fun j _ => ?_, rfl⟩
    show (Function.update s.pc i Pc.outside j).waits = 0
    by_cases hj : j = i
    · subst hj
      rw [Function.update_self]
      rfl
    · rw [Function.update_of_ne hj]
      exact hi.nobody_waits hd j
  · intro k' j hk' hj
    have := hi.lt_length hj
    simp only at hk'
    omega
  · intro j
    show PcOk c _ j (Function.update s.pc i .outside j)
    by_cases hj : j = i
    · subst hj
      rw [Function.update_self]
      trivial
    · rw [Function.update_of_ne hj]
      have hok := hi.ok j
      have hw := hi.nobody_waits hd j
      cases h : s.pc j <;> rw [h] at hok hw
      case outside | entering => trivial
      case waiting | passing => simp [Pc.waits] at hw
      case leading k' => exact absurd (hok.2.2.symm.trans hl) hj
      case resetting k' => exact absurd (hok.2.2.1.symm.trans hl) hj
      case leaving k' =>
        obtain ⟨hk'j, -, -⟩ := hi.mine j k' (by rw [h]; rfl)
        have hlt := hi.lt_length hk'j
        refine .inr ⟨by simp only; omega, ?_⟩
        rcases hok with ⟨hk', -⟩ | ⟨-, h⟩
        · have := hi.leader_le k' j hk' hk'j
          exact ⟨k, i, (hi.current hc hki hk).trans (hi.current hc hk'j hk').symm, hki, by omega⟩
        · exact h
  · intro k' b' hb'
    cases List.mem_cons.mp hb' with
    | inl h =>
      obtain ⟨rfl, rfl⟩ := Prod.mk.inj h
      have hr := hi.current hc hki hk
      refine ⟨fun j hj => hi.full hc hf (hj.trans hr), i, hki, ?_⟩
      simp only [true_iff]
      intro j i' hj hcj
      have := (round_iff hc).mp (hj.trans hr)
      have := hi.leader_le j i' this.1 hcj
      omega
    | inr h => exact hi.ret k' b' h

/-! ## Runs -/

theorem step_inv (hc : 1 ≤ c) (hc16 : c < 2 ^ 16) (hids : ∀ i ∈ ids, i < 0xFFFF) (hi : Inv ids c s)
    (h : Step ids s s') : Inv ids c s' := by
  obtain ⟨i, hm, rfl⟩ := h
  have hinit := hi.init
  have hok := hi.ok i
  cases hp : s.pc i <;> simp only [State.step, hp]
  case outside => exact hi.goto hm (by rw [hp]; rfl) (by rw [hp]; rfl) (fun _ _ _ => rfl) trivial
  case entering =>
    split
    · exact hi
    · exact hi.enter hc hc16 hm (hids i hm) hp (by omega)
  case waiting k =>
    rw [hp] at hok
    split
    next hcount => exact hi.goto hm (by rw [hp]; rfl) (by rw [hp]; rfl) (fun _ _ _ => rfl) ⟨hok, hcount.trans hinit⟩
    next => exact hi
  case passing k => exact hi.pass hc16 hp
  case leaving k =>
    split
    next hl =>
      obtain ⟨hk, hf⟩ := hi.leading hp hl
      exact hi.goto hm (by rw [hp]; rfl) (by rw [hp]; rfl) (fun _ _ _ => rfl) ⟨hk, hf, hl⟩
    next hl => exact hi.ret_false hc hp hl
  case leading k =>
    rw [hp] at hok
    split
    next hd =>
      exact hi.goto hm (by rw [hp]; rfl) (by rw [hp]; rfl) (fun _ _ _ => rfl)
        ⟨hok.1, hok.2.1, hok.2.2, hd.trans hinit⟩
    next => exact hi
  case resetting k => exact hi.reset hc hp

theorem start_inv : Inv ids c (start c) := by
  refine ⟨rfl, fun _ _ => rfl, by simp [start, imeBarrierInit], Nat.zero_le _, ?_, ?_, ?_, .inl ⟨rfl, rfl⟩, ?_, ?_,
    fun _ => trivial, ?_, List.nodup_nil, ?_⟩ <;> simp [start, imeBarrierInit, Pc.waits, Pc.call]

theorem reachable_inv (hc : 1 ≤ c) (hc16 : c < 2 ^ 16) (hids : ∀ i ∈ ids, i < 0xFFFF)
    (h : Reachable (Init c) (Step ids) s) : Inv ids c s := by
  refine h.invariant (Inv ids c) ?_ fun s s' hi hs => step_inv hc hc16 hids hi hs
  rintro s rfl
  exact start_inv

theorem Inv.roundsOk (hi : Inv ids c s) (hc : 1 ≤ c) : RoundsOk c s := by
  refine ⟨fun k hk => ?_, fun k b hb => (hi.ret k b hb).1, hi.once, hi.distinct,
    fun k b hb => (hi.ret k b hb).2, fun r hr => ?_⟩
  · have := hi.count
    have := hi.count_le
    have hdiv : k / c < s.resets + 1 := by
      refine Nat.div_lt_of_lt_mul ?_
      rw [Nat.mul_comm, Nat.add_mul]
      omega
    omega
  · let id (k : Nat) : Nat := s.calls[k]?.getD 0
    let calls : Set Nat := {k | k / c = r}
    have hne : calls.Nonempty := ⟨r * c, (round_iff hc).mpr ⟨le_rfl, by omega⟩⟩
    let k := Function.argminOn id calls hne
    have hk : k / c = r := Function.argminOn_mem id calls hne
    have hmin : ∀ j, j / c = r → id k ≤ id j := fun j hj => Function.argminOn_le id calls hj
    have hid : ∀ j i, s.calls[j]? = some i → id j = i := fun j i h => by simp [id, h]
    have hck : s.calls[k]? = some (id k) := by
      rw [List.getElem?_eq_getElem (hr k hk)]
      exact congrArg some (hid k _ (List.getElem?_eq_getElem (hr k hk))).symm
    refine ⟨k, hk, fun j b hj hb => ?_⟩
    obtain ⟨i, hij, hb⟩ := (hi.ret j b hb).2
    rw [hb]
    constructor
    · intro h
      have h1 := h k (id k) (hk.trans hj.symm) hck
      have h2 := hmin j hj
      rw [hid j i hij] at h2
      exact hi.distinct j k (hj.trans hk.symm) i hij (by rw [hck, le_antisymm h2 h1])
    · rintro rfl
      intro j' i' hj' hi'
      have := hmin j' (hj'.trans hj)
      rw [hid k i hij, hid j' i' hi'] at this
      exact this

/-! ## Progress -/

/-- The sections a tasklet has before it, in its call. -/
def Pc.left : Pc → Nat
  | .outside | .entering => 0
  | .waiting _ => 5
  | .passing _ => 4
  | .leaving _ => 3
  | .leading _ => 2
  | .resetting _ => 1

/-- A tasklet that does not spin at its place. -/
def Moves (c : Nat) (s : State) (i : Nat) : Prop :=
  match s.pc i with
  | .outside | .entering => False
  | .waiting _ => s.bar.count = c
  | .leading _ => s.bar.done = c
  | .passing _ | .leaving _ | .resetting _ => True

theorem Moves.left_lt (hi : Inv ids c s) (h : Moves c s i) :
    ∑ j ∈ ids, ((s.step i).pc j).left < ∑ j ∈ ids, (s.pc j).left := by
  have hinit := hi.init
  obtain ⟨p, hpc, hp⟩ : ∃ p, (s.step i).pc = Function.update s.pc i p ∧ p.left < (s.pc i).left := by
    cases hp : s.pc i <;> simp only [Moves, hp] at h <;> simp only [State.step, hp]
    case waiting k => exact ⟨.passing k, by rw [if_pos (h.trans hinit.symm)], by simp [Pc.left]⟩
    case passing k => exact ⟨.leaving k, rfl, by simp [Pc.left]⟩
    case leaving k =>
      split
      · exact ⟨.leading k, rfl, by simp [Pc.left]⟩
      · exact ⟨.outside, rfl, by simp [Pc.left]⟩
    case leading k => exact ⟨.resetting k, by rw [if_pos (h.trans hinit.symm)], by simp [Pc.left]⟩
    case resetting k => exact ⟨.outside, rfl, by simp [Pc.left]⟩
  have hm : i ∈ ids := by
    refine hi.member fun hout => ?_
    rw [hout] at hp
    simp [Pc.left] at hp
  have := sum_update hm Pc.left s.pc p
  rw [hpc]
  omega

theorem step_calls_le (s : State) (i : Nat) : s.calls.length ≤ (s.step i).calls.length := by
  cases hp : s.pc i <;> simp only [State.step, hp]
  case entering => split <;> simp
  case waiting | leaving | leading => split <;> exact le_rfl
  all_goals exact le_rfl

/-- While a call of a full round has not returned, some tasklet moves. -/
theorem Inv.moves (hi : Inv ids c s) (hc : 1 ≤ c) {r j : Nat} (hr : ∀ j, j / c = r → j < s.calls.length)
    (hj : j / c = r) (hn : ∀ b, (j, b) ∉ s.returned) : ∃ i ∈ ids, Moves c s i := by
  obtain ⟨i, hij⟩ : ∃ i, s.calls[j]? = some i := ⟨_, List.getElem?_eq_getElem (hr j hj)⟩
  have hcall : (s.pc i).call = some j := by
    rcases hi.held j i hij with ⟨b, hb⟩ | h
    · exact absurd hb (hn b)
    · exact h
  have hm : i ∈ ids := hi.member fun h => by rw [h] at hcall; simp [Pc.call] at hcall
  have hok := hi.ok i
  have hle := hi.count_le
  cases hp : s.pc i <;> rw [hp] at hok hcall <;> simp only [Pc.call, reduceCtorEq, Option.some.injEq] at hcall
  case waiting k =>
    subst hcall
    have hcur : r = s.resets := hj.symm.trans (hi.current hc hij hok)
    have := hr (r * c + (c - 1)) ((round_iff hc).mpr ⟨by omega, by omega⟩)
    have := hi.count
    subst hcur
    exact ⟨i, hm, by simp only [Moves, hp]; omega⟩
  case leading k =>
    by_cases hd : s.bar.done = c
    · exact ⟨i, hm, by simpa only [Moves, hp] using hd⟩
    · have hdone := hi.done
      obtain ⟨-, hcount, -⟩ := hok
      obtain ⟨i', hm', hw⟩ : ∃ i' ∈ ids, (s.pc i').waits ≠ 0 := by
        by_contra hnone
        simp only [not_exists, not_and, not_not] at hnone
        rw [Finset.sum_eq_zero hnone] at hdone
        omega
      refine ⟨i', hm', ?_⟩
      cases hp' : s.pc i' <;> simp only [Moves, hp'] <;> simp [Pc.waits, hp'] at hw
      exact hcount
  all_goals exact ⟨i, hm, by simp only [Moves, hp]⟩

/-- From wherever the calls of round `r` have all entered, some steps let
them all return. -/
theorem Inv.progress (hi : Inv ids c s) (hc : 1 ≤ c) (hc16 : c < 2 ^ 16) (hids : ∀ i ∈ ids, i < 0xFFFF)
    {r : Nat} (hr : ∀ j, j / c = r → j < s.calls.length) :
    ∃ s', Relation.ReflTransGen (Step ids) s s' ∧ ∀ j, j / c = r → ∃ b, (j, b) ∈ s'.returned := by
  obtain ⟨s', hs', -, hg⟩ := leads_to (Step ids)
    (fun s => Inv ids c s ∧ ∀ j, j / c = r → j < s.calls.length)
    (fun s => ∀ j, j / c = r → ∃ b, (j, b) ∈ s.returned) (fun s => ∑ j ∈ ids, (s.pc j).left)
    (fun s ⟨hi, hr⟩ hg => by
      simp only [not_forall, not_exists] at hg
      obtain ⟨j, hj, hn⟩ := hg
      obtain ⟨i, hm, hmv⟩ := hi.moves hc hr hj hn
      refine ⟨s.step i, ⟨i, hm, rfl⟩, ⟨step_inv hc hc16 hids hi ⟨i, hm, rfl⟩, fun j hj => ?_⟩, hmv.left_lt hi⟩
      have := hr j hj
      have := step_calls_le s i
      omega) ⟨hi, hr⟩
  exact ⟨s', hs', hg⟩

/-- **The barrier keeps its rounds.** For any tasklets with ids below
`0xFFFF`, however often each calls `ime_barrier_wait` and in whatever order
their sections run, call `k` is one of round `k / init`, every round keeps
`RoundsOk`, and a round whose calls have all entered can return. -/
theorem barrier_rounds (hc : 1 ≤ c) (hc16 : c < 2 ^ 16) (hids : ∀ i ∈ ids, i < 0xFFFF)
    (h : Reachable (Init c) (Step ids) s) :
    RoundsOk c s ∧ ∀ r, (∀ j, j / c = r → j < s.calls.length) →
      ∃ s', Relation.ReflTransGen (Step ids) s s' ∧ ∀ j, j / c = r → ∃ b, (j, b) ∈ s'.returned := by
  have hi := reachable_inv hc hc16 hids h
  exact ⟨hi.roundsOk hc, fun r hr => hi.progress hc hc16 hids hr⟩

theorem Reachable.run {is : List Nat} (h : Reachable (Init c) (Step ids) s) (hm : ∀ i ∈ is, i ∈ ids) :
    Reachable (Init c) (Step ids) (s.run is) := by
  induction is generalizing s with
  | nil => exact h
  | cons i is ih =>
    exact ih (.step h ⟨i, hm i List.mem_cons_self, rfl⟩) fun j hj => hm j (List.mem_cons_of_mem _ hj)

/-- Three tasklets and a barrier for two: tasklet 7 enters the second round
while tasklet 5 has yet to read `leader` for the first. -/
theorem barrier_rounds_three :
    let s := (start 2).run [5, 2, 5, 2, 5, 2, 5, 2, 2, 2, 2, 7, 7, 5]
    s.returned = [(0, false), (1, true)] ∧ s.calls = [5, 2, 7] ∧ RoundsOk 2 s := by
  refine ⟨by decide, by decide, (@barrier_rounds {2, 5, 7} _ _ (by decide) (by decide) (by decide) ?_).1⟩
  exact Reachable.run (.init rfl) (by decide)

end Memclave.Barrier
