/-
What the barrier of `support/mc_sync.h` keeps, and when (`timely_safe`).

After `f` flips `sense` is `f` modulo 2, and every tasklet that has read it
in its `k`-th call has arrived with `k` modulo 2. `mybarrier_init` sets
`arrive` to 1, as if all had arrived for the first call already: tasklet 0
does not wait there, and a tasklet that reads `sense` after the first flip
is one call behind for good (`early_flip`).
-/
import Mathlib.Algebra.Order.BigOperators.Group.Finset
import Memclave.McSync

namespace Memclave.McSync

open Words Sys

variable {NR_TASKLETS rounds : Nat} {s s' : State} {tid : Nat}

/-- The value of `sense` after `k` flips. -/
def par (k : Nat) : Word := if k % 2 = 1 then 1 else 0

theorem lnot_par (k : Nat) : lnot (par k) = par (k + 1) := by
  have : k % 2 = 0 ∨ k % 2 = 1 := by omega
  cases this with
  | inl h => simp [lnot, par, h, Nat.add_mod]
  | inr h => simp [lnot, par, h, Nat.add_mod]

theorem par_inj {j k : Nat} (h : par j = par k) : j % 2 = k % 2 := by
  unfold par at h
  split at h <;> split at h <;> simp at h <;> omega

/-- 1 for a tasklet in a call, `sense` still to be read. -/
def Pc.unread : Pc → Nat
  | .entered => 1
  | .init | .initArrive _ | .initWait | .outside | .arriving _ | .scanning _ _ | .flipping _ | .spinning _ => 0

/-- 1 for a tasklet in a call that has not arrived. -/
def Pc.unstored : Pc → Nat
  | .entered | .arriving _ => 1
  | .init | .initArrive _ | .initWait | .outside | .scanning _ _ | .flipping _ | .spinning _ => 0

/-- The calls a tasklet has arrived for, or 1, which `mybarrier_init` has
written for all. -/
def arrived (s : State) (tid : Nat) : Nat := max (s.entered tid - (s.pc tid).unstored) 1

/-- `mybarrier_init` is past `arrive[i]`. -/
def Pc.ready (i : Nat) : Pc → Prop
  | .init => False
  | .initArrive j => i < j
  | .initWait | .outside | .entered | .arriving _ | .scanning _ _ | .flipping _ | .spinning _ => True

/-- Tasklet 0 has seen `arrive[i]` in its call. -/
def Pc.seen (i : Nat) : Pc → Prop
  | .scanning _ j => i < j
  | .flipping _ => True
  | .init | .initArrive _ | .initWait | .outside | .entered | .arriving _ | .spinning _ => False

/-- What a tasklet's place says about its calls. -/
def PcOk (NR_TASKLETS entered returned tid : Nat) : Pc → Prop
  | .init | .initWait => tid = 0 ∧ entered = 0 ∧ returned = 0
  | .initArrive i => tid = 0 ∧ i < NR_TASKLETS ∧ entered = 0 ∧ returned = 0
  | .outside => entered = returned
  | .entered => entered = returned + 1
  | .arriving nextS => entered = returned + 1 ∧ nextS = par entered
  | .scanning nextS i => tid = 0 ∧ i < NR_TASKLETS ∧ entered = returned + 1 ∧ nextS = par entered
  | .flipping nextS => tid = 0 ∧ entered = returned + 1 ∧ nextS = par entered
  | .spinning nextS => tid ≠ 0 ∧ entered = returned + 1 ∧ nextS = par entered

/-- `returned 0` is the number of flips. -/
structure Inv (NR_TASKLETS rounds : Nat) (s : State) : Prop where
  sense : s.sense = par (s.returned 0)
  ok : ∀ t, PcOk NR_TASKLETS (s.entered t) (s.returned t) t (s.pc t)
  le : ∀ t, s.entered t ≤ rounds
  returned : ∀ u, u ≠ 0 → s.returned u ≤ s.returned 0
  read : ∀ u < NR_TASKLETS, s.returned 0 + (s.pc u).unread ≤ s.entered u
  flipped : ∀ u < NR_TASKLETS, s.returned 0 ≤ arrived s u
  arrive : ∀ u < NR_TASKLETS, (s.pc 0).ready u → s.arrive u = par (arrived s u)
  seen : ∀ u < NR_TASKLETS, (s.pc 0).seen u → s.entered 0 ≤ arrived s u

theorem start_inv : Inv NR_TASKLETS rounds start := by
  refine ⟨rfl, fun t => ?_, fun _ => Nat.zero_le _, fun _ _ => le_rfl, fun u _ => ?_, fun _ _ => Nat.zero_le _, ?_, ?_⟩
  · by_cases h : t = 0 <;> simp [start, h, PcOk]
  · by_cases h : u = 0 <;> simp [start, h, Pc.unread]
  · simp [start, Pc.ready]
  · simp [start, Pc.seen]

/-- A step that ends no call: what has to hold of the tasklet that makes it,
and of `arrive`. -/
theorem Inv.move (hi : Inv NR_TASKLETS rounds s) {p : Pc} {e : Nat} (hpc : s'.pc = Function.update s.pc tid p)
    (hent : s'.entered = Function.update s.entered tid e) (hret : s'.returned = s.returned)
    (hsense : s'.sense = s.sense) (hok : PcOk NR_TASKLETS e (s.returned tid) tid p) (he : e ≤ rounds)
    (hread : s.returned 0 + p.unread ≤ e) (hmono : arrived s tid ≤ max (e - p.unstored) 1)
    (har : ∀ u < NR_TASKLETS, (s'.pc 0).ready u →
      s'.arrive u = par (if u = tid then max (e - p.unstored) 1 else arrived s u))
    (hseen : tid = 0 → ∀ u < NR_TASKLETS, p.seen u → e ≤ arrived s u) :
    Inv NR_TASKLETS rounds s' := by
  have hpc' : ∀ u, s'.pc u = if u = tid then p else s.pc u := fun u => by rw [hpc, Function.update_apply]
  have hent' : ∀ u, s'.entered u = if u = tid then e else s.entered u := fun u => by
    rw [hent, Function.update_apply]
  have harr : ∀ u, arrived s' u = if u = tid then max (e - p.unstored) 1 else arrived s u := by
    intro u
    rw [arrived, hpc', hent']
    split <;> rfl
  have hle : ∀ u, arrived s u ≤ arrived s' u := by
    intro u
    rw [harr]
    split
    next h => rw [h]; exact hmono
    next => exact le_rfl
  refine ⟨by rw [hsense, hret]; exact hi.sense, fun u => ?_, fun u => ?_, fun u hu => ?_, fun u hu => ?_,
    fun u hu => ?_, fun u hu h => ?_, fun u hu h => ?_⟩
  · rw [hpc', hent', hret]
    split
    next h => rw [h]; exact hok
    next => exact hi.ok u
  · rw [hent']
    split
    · exact he
    · exact hi.le u
  · rw [hret]
    exact hi.returned u hu
  · rw [hpc', hent', hret]
    split
    · exact hread
    · exact hi.read u hu
  · rw [hret]
    exact (hi.flipped u hu).trans (hle u)
  · rw [har u hu h, harr]
  · rw [hent']
    rw [hpc'] at h
    refine le_trans ?_ (hle u)
    split
    next h0 =>
      rw [if_pos h0] at h
      exact hseen h0.symm u hu h
    next h0 =>
      rw [if_neg h0] at h
      exact hi.seen u hu h

/-- As `Inv.move`, where `arrive` is left alone. -/
theorem Inv.goto (hi : Inv NR_TASKLETS rounds s) {p : Pc} {e : Nat} (hpc : s'.pc = Function.update s.pc tid p)
    (hent : s'.entered = Function.update s.entered tid e) (hret : s'.returned = s.returned)
    (hsense : s'.sense = s.sense) (harrive : s'.arrive = s.arrive)
    (hok : PcOk NR_TASKLETS e (s.returned tid) tid p) (he : e ≤ rounds)
    (hread : s.returned 0 + p.unread ≤ e)
    (hstored : e - p.unstored = s.entered tid - (s.pc tid).unstored)
    (hready : tid = 0 → ∀ u, (s.pc 0).ready u)
    (hseen : tid = 0 → ∀ u < NR_TASKLETS, p.seen u → e ≤ arrived s u) :
    Inv NR_TASKLETS rounds s' := by
  have hsame : max (e - p.unstored) 1 = arrived s tid := by rw [hstored]; rfl
  refine hi.move hpc hent hret hsense hok he hread hsame.ge (fun u hu h => ?_) hseen
  rw [harrive, hsame]
  have hr : (s.pc 0).ready u := by
    by_cases h0 : tid = 0
    · exact hready h0 u
    · rwa [hpc, Function.update_of_ne (Ne.symm h0)] at h
  rw [hi.arrive u hu hr]
  split
  next h => rw [h]
  next => rfl

/-! ## Ending a call -/

/-- Another tasklet ends its call: its `nextS` is `sense`. -/
theorem Inv.leave (hi : Inv NR_TASKLETS rounds s) (ht : tid < NR_TASKLETS) {nextS : Word}
    (hp : s.pc tid = .spinning nextS) (hs : s.sense = nextS) : Inv NR_TASKLETS rounds (s.ret tid) := by
  obtain ⟨h0, he, hn⟩ : PcOk NR_TASKLETS (s.entered tid) (s.returned tid) tid (.spinning nextS) := by
    rw [← hp]
    exact hi.ok tid
  have hread := hi.read tid ht
  have hle := hi.returned tid h0
  have hpar : s.returned 0 % 2 = s.entered tid % 2 := par_inj (by rw [← hi.sense, hs, hn])
  have hr0 : (s.ret tid).returned 0 = s.returned 0 := Function.update_of_ne (Ne.symm h0) _ _
  have hpc : ∀ u, (s.ret tid).pc u = if u = tid then .outside else s.pc u := fun u => Function.update_apply ..
  have harr : ∀ u, arrived (s.ret tid) u = arrived s u := by
    intro u
    rw [arrived, hpc]
    split
    next h => rw [h, arrived, hp]; rfl
    next => rfl
  have hpc0 : (s.ret tid).pc 0 = s.pc 0 := Function.update_of_ne (Ne.symm h0) _ _
  refine ⟨by rw [hr0]; exact hi.sense, fun u => ?_, hi.le, fun u hu => ?_, fun u hu => ?_, fun u hu => ?_,
    fun u hu h => ?_, fun u hu h => ?_⟩
  · rw [hpc]
    show PcOk NR_TASKLETS (s.entered u) (Function.update s.returned tid (s.returned tid + 1) u) u _
    rw [Function.update_apply]
    split
    next h => rw [h]; exact he
    next => exact hi.ok u
  · rw [hr0]
    show Function.update s.returned tid (s.returned tid + 1) u ≤ s.returned 0
    rw [Function.update_apply]
    split
    next h =>
      -- `sense` has been flipped for this call
      omega
    next => exact hi.returned u hu
  · rw [hr0, hpc]
    show _ ≤ s.entered u
    split
    next h => rw [h]; simp only [Pc.unread]; omega
    next => exact hi.read u hu
  · rw [hr0, harr]
    exact hi.flipped u hu
  · rw [hpc0] at h
    rw [harr]
    exact hi.arrive u hu h
  · rw [hpc0] at h
    rw [harr]
    exact hi.seen u hu h

/-- Tasklet 0 flips `sense` and ends its call: all have arrived for it. -/
theorem Inv.flip (hi : Inv NR_TASKLETS rounds s) {nextS : Word} (hp : s.pc 0 = .flipping nextS)
    (htl : Timely NR_TASKLETS s 0) : Inv NR_TASKLETS rounds ({ s with sense := nextS }.ret 0) := by
  obtain ⟨-, he, hn⟩ : PcOk NR_TASKLETS (s.entered 0) (s.returned 0) 0 (.flipping nextS) := by
    rw [← hp]
    exact hi.ok 0
  have hseen : ∀ u < NR_TASKLETS, s.entered 0 ≤ arrived s u := fun u hu => hi.seen u hu (by rw [hp]; trivial)
  let s' : State := { s with sense := nextS }.ret 0
  have hr : ∀ u, s'.returned u = if u = 0 then s.returned 0 + 1 else s.returned u := fun u => Function.update_apply ..
  have hpc : ∀ u, s'.pc u = if u = 0 then .outside else s.pc u := fun u => Function.update_apply ..
  have harr : ∀ u, arrived s' u = arrived s u := by
    intro u
    rw [arrived, hpc]
    split
    next h => rw [h, arrived, hp]; rfl
    next => rfl
  have hread : ∀ u < NR_TASKLETS, u ≠ 0 → s.returned 0 + 1 + (s.pc u).unread ≤ s.entered u := by
    intro u hu h0
    have hok := hi.ok u
    have hmax := hseen u hu
    have hle := hi.returned u h0
    by_cases hf : s.returned 0 = 0
    · -- the first flip: `u` has read `sense` and is in its first call
      rcases htl nextS hp hf u hu h0 with h | ⟨x, h | h⟩
      · omega
      · rw [h] at hok ⊢
        simp only [PcOk, Pc.unread] at hok ⊢
        omega
      · rw [h] at hok ⊢
        simp only [PcOk, Pc.unread] at hok ⊢
        omega
    · have hst : (s.pc u).unread ≤ (s.pc u).unstored := by cases s.pc u <;> simp [Pc.unread, Pc.unstored]
      rw [arrived] at hmax
      omega
  refine ⟨?_, fun u => ?_, hi.le, fun u hu => ?_, fun u hu => ?_, fun u hu => ?_, fun u hu _ => ?_, fun u _ h => ?_⟩
  · show nextS = par (s'.returned 0)
    rw [hr, if_pos rfl, hn, he]
  · show PcOk NR_TASKLETS (s.entered u) (s'.returned u) u (s'.pc u)
    rw [hr, hpc]
    split
    next h => rw [h]; exact he
    next => exact hi.ok u
  · show s'.returned u ≤ s'.returned 0
    have := hi.returned u hu
    rw [hr, hr, if_neg hu, if_pos rfl]
    omega
  · show s'.returned 0 + (s'.pc u).unread ≤ s.entered u
    rw [hr, hpc, if_pos rfl]
    split
    next h => rw [h]; simp only [Pc.unread]; omega
    next h => exact hread u hu h
  · show s'.returned 0 ≤ arrived s' u
    have := hseen u hu
    rw [hr, harr, if_pos rfl]
    omega
  · show s.arrive u = par (arrived s' u)
    rw [harr]
    exact hi.arrive u hu (by rw [hp]; trivial)
  · have h0 : ({ s with sense := nextS }.ret 0).pc 0 = .outside := (hpc 0).trans (if_pos rfl)
    rw [h0] at h
    exact h.elim

/-! ## Runs -/

theorem step_inv (hi : Inv NR_TASKLETS rounds s) (ht : tid < NR_TASKLETS) (htl : Timely NR_TASKLETS s tid) :
    Inv NR_TASKLETS rounds (s.step NR_TASKLETS rounds tid) := by
  have hN : 0 < NR_TASKLETS := by omega
  have hok := hi.ok tid
  have hle := hi.le tid
  have hread := hi.read tid ht
  have hsame : s.entered = Function.update s.entered tid (s.entered tid) := (Function.update_eq_self _ _).symm
  cases hp : s.pc tid <;> rw [hp] at hok hread <;> simp only [State.step, hp]
  case init =>
    obtain ⟨rfl, he, hr⟩ := hok
    have hs : s.sense = 0 := by rw [hi.sense, hr]; rfl
    refine hi.move rfl hsame rfl hs.symm ⟨rfl, hN, he, hr⟩ hle hread ?_ (fun u hu h => ?_) fun _ _ _ h => h.elim
    · rw [arrived, hp]
      exact le_rfl
    · simp [State.goto, Pc.ready] at h
  case initArrive i =>
    obtain ⟨rfl, hlt, he, hr⟩ := hok
    -- the value written is that of an arrival for the first call
    have hone : ∀ u < NR_TASKLETS, arrived s u = 1 := by
      intro u hu
      by_cases h0 : u = 0
      · subst h0
        simp [arrived, he]
      · have hr0 : s.returned u = 0 := by have := hi.returned u h0; omega
        have := hi.ok u
        rw [arrived]
        cases hu : s.pc u <;> rw [hu] at this <;> simp only [PcOk, Pc.unstored] at this ⊢ <;> omega
    have hmax : ∀ p : Pc, max (s.entered 0 - p.unstored) 1 = 1 := fun p => by rw [he]; simp
    refine hi.move rfl hsame rfl rfl ?_ hle ?_ ?_ (fun u hu h => ?_) fun _ u hu h => ?_
    · split
      next h => exact ⟨rfl, h, he, hr⟩
      next => exact ⟨rfl, he, hr⟩
    · split <;> exact hread
    · rw [hone 0 hN, hmax]
    · have hu' : s.arrive u = 1 ∨ u = i := by
        by_cases hui : u = i
        · exact .inr hui
        · refine .inl ?_
          rw [hi.arrive u hu, hone u hu]
          · rfl
          · rw [hp]
            simp only [State.goto, Function.update_self] at h
            split at h
            next => simp only [Pc.ready] at h ⊢; omega
            next => simp only [Pc.ready]; omega
      have hpar : par (if u = 0 then max (s.entered 0 - (if i + 1 < NR_TASKLETS then Pc.initArrive (i + 1)
          else .initWait).unstored) 1 else arrived s u) = 1 := by
        rw [hmax, hone u hu, ite_self]
        rfl
      rw [hpar]
      show Function.update s.arrive i 1 u = 1
      rw [Function.update_apply]
      split
      next => rfl
      next hne => exact hu'.resolve_right hne
    · split at h <;> exact h.elim
  case initWait =>
    obtain ⟨rfl, he, hr⟩ := hok
    split
    · exact hi
    · exact hi.goto rfl hsame rfl rfl rfl (he.trans hr.symm) hle hread (by rw [hp]; rfl)
        (fun _ u => by rw [hp]; trivial) fun _ _ _ h => h.elim
  case outside =>
    split
    next hlt =>
      simp only [PcOk, Pc.unread] at hok hread
      refine hi.goto (p := .entered) (e := s.entered tid + 1) rfl rfl rfl rfl rfl ?_ ?_ ?_ ?_ ?_ ?_
      · simp only [PcOk, hok]
      · omega
      · simp only [Pc.unread]
        omega
      · rw [hp]
        simp [Pc.unstored]
      · rintro rfl u
        rw [hp]
        trivial
      · exact fun _ _ _ h => h.elim
    next => exact hi
  case entered =>
    simp only [PcOk, Pc.unread] at hok hread
    have hr0 : s.returned tid = s.returned 0 := by
      by_cases h0 : tid = 0
      · rw [h0]
      · have := hi.returned tid h0
        omega
    refine hi.goto rfl hsame rfl rfl rfl ⟨hok, ?_⟩ hle ?_ (by rw [hp]; rfl) ?_ fun _ _ _ h => h.elim
    · rw [hi.sense, lnot_par, hok, hr0]
    · simp only [Pc.unread]
      omega
    · rintro rfl u
      rw [hp]
      trivial
  case arriving nextS =>
    obtain ⟨he, hn⟩ := hok
    simp only [Pc.unread] at hread
    have hun : ∀ p : Pc, p = (if tid = 0 then .scanning nextS 0 else .spinning nextS) → p.unstored = 0 ∧
        p.unread = 0 := by
      rintro p rfl
      split <;> exact ⟨rfl, rfl⟩
    obtain ⟨hun, hur⟩ := hun _ rfl
    have hmax : max (s.entered tid - 0) 1 = s.entered tid := by omega
    refine hi.move rfl hsame rfl rfl ?_ hle ?_ ?_ (fun u hu h => ?_) fun h0 u hu h => ?_
    · split
      next h => exact ⟨h, hN, he, hn⟩
      next h => exact ⟨h, he, hn⟩
    · rw [hur]
      exact hread
    · rw [hun, hmax, arrived, hp]
      simp only [Pc.unstored]
      omega
    · rw [hun, hmax]
      show Function.update s.arrive tid nextS u = _
      rw [Function.update_apply]
      split
      next => exact hn
      next =>
        refine hi.arrive u hu ?_
        simp only [State.goto, Function.update_apply] at h
        split at h
        next h0 => rw [h0, hp]; trivial
        next => exact h
    · rw [if_pos h0] at h
      simp [Pc.seen] at h
  case scanning nextS i =>
    obtain ⟨rfl, hlt, he, hn⟩ := hok
    split
    · exact hi
    next ha =>
      rw [not_not] at ha
      have hseen : ∀ u < NR_TASKLETS, u < i + 1 → s.entered 0 ≤ arrived s u := by
        intro u hu hui
        by_cases hu' : u < i
        · exact hi.seen u hu (by rw [hp]; exact hu')
        · obtain rfl : u = i := by omega
          -- `u` has arrived for this call or the one before
          have hpar := par_inj ((hi.arrive u hu (by rw [hp]; trivial)).symm.trans (ha.trans hn))
          have := hi.flipped u hu
          omega
      refine hi.goto rfl hsame rfl rfl rfl ?_ hle ?_ ?_ (fun _ u => by rw [hp]; trivial) fun _ u hu h => ?_
      · split
        next h => exact ⟨rfl, h, he, hn⟩
        next => exact ⟨rfl, he, hn⟩
      · split <;> exact hread
      · rw [hp]
        split <;> rfl
      · split at h
        · exact hseen u hu h
        · exact hseen u hu (by omega)
  case flipping nextS =>
    obtain rfl := hok.1
    exact hi.flip hp htl
  case spinning nextS =>
    split
    · exact hi
    next hs => exact hi.leave ht hp (not_not.mp hs)

theorem timely_inv (h : Reachable Init (TimelyStep NR_TASKLETS rounds) s) : Inv NR_TASKLETS rounds s := by
  refine h.invariant (Inv NR_TASKLETS rounds) ?_ ?_
  · rintro s rfl
    exact start_inv
  · rintro s s' hi ⟨t, ht, htl, rfl⟩
    exact step_inv hi ht htl

/-- Whoever has returned, `sense` was flipped for it; and for every flip all
have entered. -/
theorem Inv.safe (hi : Inv NR_TASKLETS rounds s) : Safe NR_TASKLETS s := by
  intro t _ u hu
  have hread := hi.read u hu
  have hle : s.returned t ≤ s.returned 0 := by
    by_cases h0 : t = 0
    · rw [h0]
    · exact hi.returned t h0
  omega

/-! ## Progress -/

/-- The steps a tasklet has before it until it is outside again. -/
def Pc.left (NR_TASKLETS : Nat) : Pc → Nat
  | .init => 2 * NR_TASKLETS + 12
  | .initArrive i => NR_TASKLETS + 10 + (NR_TASKLETS - i)
  | .initWait => NR_TASKLETS + 9
  | .outside => NR_TASKLETS + 6
  | .entered => NR_TASKLETS + 5
  | .arriving _ => NR_TASKLETS + 4
  | .scanning _ i => 3 + (NR_TASKLETS - i)
  | .flipping _ | .spinning _ => 2

/-- And in all its calls. -/
def State.work (NR_TASKLETS rounds : Nat) (s : State) (tid : Nat) : Nat :=
  (rounds - s.returned tid) * (NR_TASKLETS + 8) + (s.pc tid).left NR_TASKLETS

/-- A tasklet that has a step to make and does not spin. -/
def Moves (rounds : Nat) (s : State) (tid : Nat) : Prop :=
  match s.pc tid with
  | .init | .initArrive _ | .entered | .arriving _ | .flipping _ => True
  | .initWait => s.sense = 0
  | .outside => s.returned tid < rounds
  | .scanning nextS i => s.arrive i = nextS
  | .spinning nextS => s.sense = nextS

theorem step_other {u : Nat} (h : u ≠ tid) : (s.step NR_TASKLETS rounds tid).pc u = s.pc u ∧
    (s.step NR_TASKLETS rounds tid).returned u = s.returned u ∧
    (s.step NR_TASKLETS rounds tid).entered u = s.entered u := by
  cases hp : s.pc tid <;> simp only [State.step, hp] <;> (try split) <;>
    simp [State.goto, State.ret, Function.update_of_ne h]

theorem step_entered_le (u : Nat) : s.entered u ≤ (s.step NR_TASKLETS rounds tid).entered u := by
  by_cases h : u = tid
  · subst h
    cases hp : s.pc u <;> simp only [State.step, hp] <;> (try split) <;> simp [State.goto, State.ret]
  · rw [(step_other h).2.2]

theorem Inv.work_lt (hi : Inv NR_TASKLETS rounds s) (hm : Moves rounds s tid) :
    (s.step NR_TASKLETS rounds tid).work NR_TASKLETS rounds tid < s.work NR_TASKLETS rounds tid := by
  have hok := hi.ok tid
  have hle := hi.le tid
  -- a call that ends has one call fewer before it
  have hret : s.returned tid + 1 ≤ rounds → (rounds - (s.returned tid + 1)) * (NR_TASKLETS + 8) +
      (NR_TASKLETS + 6) < (rounds - s.returned tid) * (NR_TASKLETS + 8) + 2 := by
    intro h
    have hone : rounds - s.returned tid = rounds - (s.returned tid + 1) + 1 := by omega
    rw [hone, Nat.add_mul]
    omega
  cases hp : s.pc tid <;> rw [hp] at hok <;> simp only [Moves, hp] at hm <;>
    simp only [State.work, State.step, hp]
  case init => simp [State.goto, Pc.left]; omega
  case initArrive i =>
    split <;> simp [State.goto, Pc.left] <;> omega
  case initWait =>
    rw [if_neg (not_not.mpr hm)]
    simp [State.goto, Pc.left]
  case outside =>
    rw [if_pos hm]
    simp [State.goto, Pc.left]
  case entered => simp [State.goto, Pc.left]
  case arriving nextS =>
    split <;> simp [State.goto, Pc.left]
    omega
  case scanning nextS i =>
    obtain ⟨-, hlt, -⟩ := hok
    rw [if_neg (not_not.mpr hm)]
    split <;> simp [State.goto, Pc.left] <;> omega
  case flipping nextS =>
    obtain ⟨-, he, -⟩ := hok
    simpa [State.goto, State.ret, Pc.left] using hret (by omega)
  case spinning nextS =>
    obtain ⟨-, he, -⟩ := hok
    rw [if_neg (not_not.mpr hm)]
    simpa [State.goto, State.ret, Pc.left] using hret (by omega)

theorem Inv.sum_work_lt (hi : Inv NR_TASKLETS rounds s) (ht : tid < NR_TASKLETS) (hm : Moves rounds s tid) :
    ∑ t ∈ Finset.range NR_TASKLETS, (s.step NR_TASKLETS rounds tid).work NR_TASKLETS rounds t <
      ∑ t ∈ Finset.range NR_TASKLETS, s.work NR_TASKLETS rounds t := by
  refine Finset.sum_lt_sum (fun u _ => ?_) ⟨tid, Finset.mem_range.mpr ht, hi.work_lt hm⟩
  by_cases h : u = tid
  · rw [h]
    exact (hi.work_lt hm).le
  · obtain ⟨h1, h2, -⟩ := @step_other NR_TASKLETS rounds s _ _ h
    rw [State.work, State.work, h1, h2]

/-- Where nobody can move, tasklets other than 0 are done or wait for
`sense`. -/
theorem Inv.blocked (hi : Inv NR_TASKLETS rounds s) {u : Nat} (h0 : u ≠ 0) (hm : ¬ Moves rounds s u) :
    (s.pc u = .outside ∧ s.returned u = rounds) ∨
      (s.pc u = .spinning (par (s.entered u)) ∧ s.sense ≠ par (s.entered u) ∧ s.entered u = s.returned u + 1) := by
  have hok := hi.ok u
  have hle := hi.le u
  cases hp : s.pc u <;> rw [hp] at hok <;> simp only [Moves, hp, not_true_eq_false] at hm
  case outside =>
    simp only [PcOk] at hok
    exact .inl ⟨rfl, by omega⟩
  case spinning nextS =>
    obtain ⟨-, he, rfl⟩ := hok
    exact .inr ⟨rfl, hm, he⟩
  all_goals exact absurd hok.1 h0

/-- While somebody is in a call, somebody moves. -/
theorem Inv.moves (hi : Inv NR_TASKLETS rounds s) {u : Nat} (hu : u < NR_TASKLETS)
    (hin : s.returned u < s.entered u) : ∃ t < NR_TASKLETS, Moves rounds s t ∧ Timely NR_TASKLETS s t := by
  by_contra hnone
  have htimely : ∀ t, (∀ x, s.pc t ≠ .flipping x) → Timely NR_TASKLETS s t := fun t h x hx => absurd hx (h x)
  have hpos : 0 < rounds := by
    have := hi.le u
    omega
  have hblocked : ∀ t < NR_TASKLETS, t ≠ 0 → (s.pc t = .outside ∧ s.returned t = rounds) ∨
      (s.pc t = .spinning (par (s.entered t)) ∧ s.sense ≠ par (s.entered t) ∧
        s.entered t = s.returned t + 1) := by
    refine fun t ht h0 => hi.blocked h0 fun hm => hnone ⟨t, ht, hm, htimely t fun x hx => ?_⟩
    have := hi.ok t
    rw [hx] at this
    exact h0 this.1
  have h0 : 0 < NR_TASKLETS := by omega
  have hmoves : (∀ x, s.pc 0 ≠ .flipping x) → ¬ Moves rounds s 0 := fun h hm => hnone ⟨0, h0, hm, htimely 0 h⟩
  have hok := hi.ok 0
  have hle0 := hi.le 0
  cases hp : s.pc 0 <;> rw [hp] at hok
  case init | initArrive | entered | arriving => exact hmoves (by simp [hp]) (by simp only [Moves, hp])
  case initWait => exact hmoves (by simp [hp]) (by simp only [Moves, hp]; rw [hi.sense, hok.2.2]; rfl)
  case spinning => exact hok.1 rfl
  case flipping nextS =>
    refine hnone ⟨0, h0, by simp only [Moves, hp], fun x _ _ t ht htn => ?_⟩
    rcases hblocked t ht htn with ⟨-, h⟩ | ⟨h, -, -⟩
    · exact .inl (by omega)
    · exact .inr ⟨_, .inr h⟩
  case outside =>
    have hr : ¬ s.returned 0 < rounds := by
      have := hmoves (by simp [hp])
      simpa only [Moves, hp] using this
    have hu0 : u ≠ 0 := by
      rintro rfl
      simp only [PcOk] at hok
      omega
    have hread := hi.read u hu
    have hle := hi.le u
    rcases hblocked u hu hu0 with ⟨-, h⟩ | ⟨-, hne, -⟩
    · omega
    · refine hne ?_
      rw [hi.sense, show s.returned 0 = s.entered u by omega]
  case scanning nextS i =>
    obtain ⟨-, hlt, he, rfl⟩ := hok
    have hne : s.arrive i ≠ par (s.entered 0) := by
      have := hmoves (by simp [hp])
      simpa only [Moves, hp] using this
    rw [hi.arrive i hlt (by rw [hp]; trivial)] at hne
    by_cases hi0 : i = 0
    · refine hne ?_
      rw [hi0, arrived, hp]
      simp only [Pc.unstored, Nat.sub_zero]
      rw [Nat.max_eq_left (by omega)]
    · have hri := hi.returned i hi0
      have hread := hi.read i hlt
      rcases hblocked i hlt hi0 with ⟨-, h⟩ | ⟨hpi, hs, hei⟩
      · omega
      · rw [hi.sense] at hs
        have hei' : s.entered i = s.entered 0 := by
          by_contra hn
          exact hs (congrArg par (by omega))
        refine hne ?_
        rw [arrived, hpi]
        simp only [Pc.unstored, Nat.sub_zero]
        rw [Nat.max_eq_left (by omega), hei']

theorem Inv.leaves (hi : Inv NR_TASKLETS rounds s) {u : Nat} (hu : u < NR_TASKLETS)
    (hin : s.returned u < s.entered u) :
    ∃ s', Relation.ReflTransGen (TimelyStep NR_TASKLETS rounds) s s' ∧ s.returned u < s'.returned u := by
  obtain ⟨s', hs', -, hg⟩ := leads_to (TimelyStep NR_TASKLETS rounds)
    (fun s1 => Inv NR_TASKLETS rounds s1 ∧ s.entered u ≤ s1.entered u)
    (fun s1 => s.returned u < s1.returned u) (fun s1 => ∑ t ∈ Finset.range NR_TASKLETS, s1.work NR_TASKLETS rounds t)
    (fun s1 ⟨hi1, he⟩ hg => by
      obtain ⟨t, ht, hm, htl⟩ := hi1.moves hu (by omega)
      exact ⟨_, ⟨t, ht, htl, rfl⟩, ⟨step_inv hi1 ht htl, he.trans (step_entered_le u)⟩, hi1.sum_work_lt ht hm⟩)
    ⟨hi, le_rfl⟩
  exact ⟨s', hs', hg⟩

theorem TimelyStep.step (h : TimelyStep NR_TASKLETS rounds s s') : Step NR_TASKLETS rounds s s' := by
  obtain ⟨t, ht, -, hs⟩ := h
  exact ⟨t, ht, hs⟩

/-- **When the barrier holds.** In every run in which tasklet 0 flips
`sense` for the first time only after all the others have read it, nobody
ends a call that somebody has yet to begin, and nobody is left in a call by
those that are done. -/
theorem timely_safe (h : Reachable Init (TimelyStep NR_TASKLETS rounds) s) :
    Safe NR_TASKLETS s ∧ ¬ Stuck NR_TASKLETS rounds s := by
  have hi := timely_inv h
  refine ⟨hi.safe, ?_⟩
  rintro ⟨t, ht, u, hu, -, hin, hstuck⟩
  obtain ⟨s', hs', hlt⟩ := hi.leaves hu hin
  have := hstuck s' (hs'.lift id fun _ _ h => h.step)
  omega

instance (s : State) (tid : Nat) : Decidable (HasRead s tid) :=
  match h : s.pc tid with
  | .arriving x | .spinning x => isTrue (.inr ⟨x, by simp [h]⟩)
  | .init | .initArrive _ | .initWait | .outside | .entered | .scanning _ _ | .flipping _ =>
    decidable_of_iff (s.returned tid ≠ 0) (by simp [HasRead, h])

instance (s : State) (tid : Nat) : Decidable (Timely NR_TASKLETS s tid) :=
  match h : s.pc tid with
  | .flipping _ =>
    decidable_of_iff (s.returned tid = 0 → ∀ u < NR_TASKLETS, u ≠ 0 → HasRead s u) (by simp [Timely, h])
  | .init | .initArrive _ | .initWait | .outside | .entered | .arriving _ | .scanning _ _ | .spinning _ =>
    isTrue (by simp [Timely, h])

/-- The steps of a list are those of tasklets, and timely. -/
def TimelyRun (NR_TASKLETS rounds : Nat) (s : State) : List Nat → Prop
  | [] => True
  | t :: ts => t < NR_TASKLETS ∧ Timely NR_TASKLETS s t ∧
    TimelyRun NR_TASKLETS rounds (s.step NR_TASKLETS rounds t) ts

instance TimelyRun.decidable (s : State) (ts : List Nat) : Decidable (TimelyRun NR_TASKLETS rounds s ts) :=
  match ts with
  | [] => isTrue trivial
  | _ :: ts => @instDecidableAnd _ _ _ (@instDecidableAnd _ _ _ (TimelyRun.decidable _ ts))

theorem TimelyRun.reachable {ts : List Nat} (h : Reachable Init (TimelyStep NR_TASKLETS rounds) s)
    (ht : TimelyRun NR_TASKLETS rounds s ts) :
    Reachable Init (TimelyStep NR_TASKLETS rounds) (s.run NR_TASKLETS rounds ts) := by
  induction ts generalizing s with
  | nil => exact h
  | cons t ts ih => exact ih (.step h ⟨t, ht.1, ht.2.1, rfl⟩) ht.2.2

/-- Two tasklets, one call each, tasklet 1 first. -/
theorem timely_safe_two :
    let s := start.run 2 1 [1, 1, 1, 0, 0, 0, 0, 0, 0, 0, 0, 0, 0, 1]
    s.returned 0 = 1 ∧ s.returned 1 = 1 ∧ Safe 2 s ∧ ¬ Stuck 2 1 s :=
  ⟨by decide, by decide, timely_safe (TimelyRun.reachable (.init rfl) (by decide))⟩

/-! ## Tasklet 0 first -/

theorem run_reachable {ts : List Nat} (h : Reachable Init (Step NR_TASKLETS rounds) s)
    (ht : ∀ t ∈ ts, t < NR_TASKLETS) : Reachable Init (Step NR_TASKLETS rounds) (s.run NR_TASKLETS rounds ts) := by
  induction ts generalizing s with
  | nil => exact h
  | cons t ts ih =>
    exact ih (.step h ⟨t, ht t List.mem_cons_self, rfl⟩) fun u hu => ht u (List.mem_cons_of_mem _ hu)

/-- A state that no step changes. -/
theorem star_eq (h : ∀ t < NR_TASKLETS, s.step NR_TASKLETS rounds t = s)
    (hs : Relation.ReflTransGen (Step NR_TASKLETS rounds) s s') : s' = s := by
  induction hs with
  | refl => rfl
  | tail _ h1 ih =>
    obtain ⟨t, ht, h1⟩ := h1
    rw [h1, ih, h t ht]

/-- **Tasklet 0 does not wait in its first call.** Of two tasklets with one
call each, tasklet 0 ends its call before tasklet 1 has begun; and tasklet 1,
which then reads a `sense` of 1, waits for a 0 that nobody will write. -/
theorem early_flip :
    (∃ s, Reachable Init (Step 2 1) s ∧ ¬ Safe 2 s) ∧ ∃ s, Reachable Init (Step 2 1) s ∧ Stuck 2 1 s := by
  refine ⟨⟨start.run 2 1 (List.replicate 10 0), run_reachable (.init rfl) (by decide), fun h => ?_⟩,
    start.run 2 1 (List.replicate 10 0 ++ [1, 1, 1]), run_reachable (.init rfl) (by decide),
    0, by decide, 1, by decide, by decide, by decide, fun s' hs' => ?_⟩
  · have := h 0 (by decide) 1 (by decide)
    exact absurd this (by decide)
  · have hstay : ∀ t < 2, (start.run 2 1 (List.replicate 10 0 ++ [1, 1, 1])).step 2 1 t =
        start.run 2 1 (List.replicate 10 0 ++ [1, 1, 1]) := by
      intro t ht
      obtain rfl | rfl : t = 0 ∨ t = 1 := by omega
      · rfl
      · rfl
    rw [star_eq hstay hs']

end Memclave.McSync
