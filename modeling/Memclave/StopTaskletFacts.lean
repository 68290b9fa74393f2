/-
The rendezvous at the end of a subkernel (`rendezvous`): tasklet 0 leaves
`__ime_stop_tasklet` last, and `reset_atomic` finds every mutex free.

The count is `NR_TASKLETS` less the tasklets that have lowered it
(`Inv.count`). Only tasklets other than 0 do, so it stays above 0; and when
tasklet 0 reads 1 it holds the lock, so that nobody else is in between.
-/
import Mathlib.Algebra.Order.BigOperators.Group.Finset
import Memclave.StopTasklet

namespace Memclave.StopTasklet

open Words Sys

variable {NR_TASKLETS : Word} {lock : Nat} {s s' : State} {id : Nat}

/-- Between `mutex_lock` and `mutex_unlock` of `__ime_tasklet_lock`. -/
def Pc.locked : Pc → Bool
  | .read | .unlock _ | .load | .store _ | .release => true
  | .bootstrap | .unused | .main | .lock | .test _ | .reset _ | .done | .stop | .stopped => false

/-- 1 once a tasklet has lowered the count. -/
def Pc.lowered : Pc → Nat
  | .release | .stop | .stopped => 1
  | _ => 0

/-- Who gets where. -/
def RoleOk (NR_TASKLETS : Word) (id : Nat) : Pc → Prop
  | .bootstrap => True
  | .unused => counted NR_TASKLETS id = false
  | .main | .lock => counted NR_TASKLETS id = true ∧ id < threads
  | .read | .unlock _ | .test _ | .reset _ | .done => counted NR_TASKLETS id = true ∧ id < threads ∧ id = 0
  | .load | .store _ | .release | .stop | .stopped => counted NR_TASKLETS id = true ∧ id < threads ∧ id ≠ 0

/-- The counted tasklets but for tasklet 0. -/
def others (NR_TASKLETS : Word) : Finset Nat :=
  (Finset.range threads).filter fun id => id ≠ 0 ∧ counted NR_TASKLETS id = true

theorem mem_others : id ∈ others NR_TASKLETS ↔ id < threads ∧ id ≠ 0 ∧ counted NR_TASKLETS id = true := by
  simp [others]

/-- Tasklet 0 is one of the counted, or none of them is needed. -/
theorem card_others (hn : 1 ≤ NR_TASKLETS.toNat) : (others NR_TASKLETS).card < NR_TASKLETS.toNat := by
  by_cases hbig : threads ≤ NR_TASKLETS.toNat
  · have hsub : others NR_TASKLETS ⊆ (Finset.range threads).erase 0 := by
      intro id hid
      rw [mem_others] at hid
      simp [hid]
    have := Finset.card_le_card hsub
    have hcard : ((Finset.range threads).erase 0).card = 23 := rfl
    have : threads = 24 := rfl
    omega
  · have hsub : others NR_TASKLETS ⊆ (Finset.range NR_TASKLETS.toNat).erase 0 := by
      intro id hid
      obtain ⟨hlt, h0, hc⟩ := mem_others.mp hid
      have ht : threads = 24 := rfl
      rw [counted, Bool.not_eq_true', BitVec.msb_eq_false_iff_two_mul_lt] at hc
      have h1 : (NR_TASKLETS - 1).toNat = NR_TASKLETS.toNat - 1 := by
        rw [BitVec.toNat_sub_of_le (by rw [BitVec.le_def]; exact hn)]
        rfl
      have hid : (BitVec.ofNat 32 id).toNat = id := by
        rw [BitVec.toNat_ofNat]
        omega
      rw [BitVec.toNat_sub, h1, hid] at hc
      rw [Finset.mem_erase, Finset.mem_range]
      refine ⟨h0, ?_⟩
      omega
    have := Finset.card_le_card hsub
    rw [Finset.card_erase_of_mem (by simp; omega), Finset.card_range] at this
    omega

/-- Tasklet 0 has read a count of 1. -/
def SeenOne (s : State) : Prop := s.pc 0 = .unlock 1 ∨ s.pc 0 = .test 1 ∨ Returned s

structure Inv (NR_TASKLETS : Word) (lock : Nat) (s : State) : Prop where
  role : ∀ id, RoleOk NR_TASKLETS id (s.pc id)
  holder : ∀ id, s.held lock = some id ↔ (s.pc id).locked = true
  count : s.count.toNat + ∑ id ∈ others NR_TASKLETS, (s.pc id).lowered = NR_TASKLETS.toNat
  store : ∀ id count, s.pc id = .store count → count = s.count
  lowered : ∀ id, s.lowered id = (s.pc id).lowered
  gone : SeenOne s → ∀ id ∈ others NR_TASKLETS, (s.pc id).isGone = true

/-- What the tasklets have lowered is less than `NR_TASKLETS`. -/
theorem Inv.pos (hi : Inv NR_TASKLETS lock s) (hn : 1 ≤ NR_TASKLETS.toNat) : 1 ≤ s.count.toNat := by
  have hle : ∑ id ∈ others NR_TASKLETS, (s.pc id).lowered ≤ ∑ _id ∈ others NR_TASKLETS, 1 :=
    Finset.sum_le_sum fun id _ => by cases s.pc id <;> simp [Pc.lowered]
  rw [Finset.sum_const, Nat.nsmul_eq_mul, Nat.mul_one] at hle
  have := card_others hn
  have := hi.count
  omega

/-- The mutex lets one tasklet in. -/
theorem Inv.alone (hi : Inv NR_TASKLETS lock s) {j : Nat} (h : (s.pc id).locked = true)
    (hj : (s.pc j).locked = true) : j = id :=
  Option.some.inj (((hi.holder j).mpr hj).symm.trans ((hi.holder id).mpr h))

/-- What `RoleOk` says of those that are gone. -/
theorem Inv.stopped (hi : Inv NR_TASKLETS lock s) (hid : id ∈ others NR_TASKLETS)
    (hg : (s.pc id).isGone = true) : s.pc id = .stop ∨ s.pc id = .stopped := by
  obtain ⟨-, -, hc⟩ := mem_others.mp hid
  have hr := hi.role id
  cases h : s.pc id <;> rw [h] at hr hg <;> simp [Pc.isGone] at hg ⊢
  exact absurd hc (by rw [show counted NR_TASKLETS id = false from hr]; simp)

/-! ## The instructions -/

/-- An instruction that moves its tasklet and leaves the count alone. -/
theorem Inv.move (hi : Inv NR_TASKLETS lock s) {p : Pc} (hpc : s'.pc = Function.update s.pc id p)
    (hcount : s'.count = s.count) (hlow : s'.lowered = s.lowered)
    (hheld : ∀ j, s'.held lock = some j ↔ (s'.pc j).locked = true)
    (hr : RoleOk NR_TASKLETS id p) (hlw : p.lowered = (s.pc id).lowered)
    (hst : ∀ count, p = .store count → count = s.count)
    (hg : id ≠ 0 → (s.pc id).isGone = true → p.isGone = true)
    (hone : id = 0 → SeenOne s' → ∀ id ∈ others NR_TASKLETS, (s.pc id).isGone = true) :
    Inv NR_TASKLETS lock s' := by
  have hpc : ∀ j, s'.pc j = if j = id then p else s.pc j := fun j => by rw [hpc, Function.update_apply]
  refine ⟨fun j => ?_, hheld, ?_, fun j count hj => ?_, fun j => ?_, fun h j hj => ?_⟩
  · have := hi.role j
    grind
  · rw [← hi.count, hcount]
    refine congrArg _ (Finset.sum_congr rfl fun j _ => ?_)
    grind
  · have := hi.store j count
    grind
  · have := hi.lowered j
    grind
  · have hj0 := (mem_others.mp hj).2.1
    have hold : (s.pc j).isGone = true := by
      by_cases h0 : id = 0
      · exact hone h0 h j hj
      · refine hi.gone ?_ j hj
        have : s'.pc 0 = s.pc 0 := by rw [hpc, if_neg (Ne.symm h0)]
        simpa [SeenOne, Returned, this] using h
    grind

/-- As `Inv.move`, where the mutexes are left alone too. -/
theorem Inv.goto (hi : Inv NR_TASKLETS lock s) {p : Pc} (hlk : p.locked = (s.pc id).locked)
    (hr : RoleOk NR_TASKLETS id p) (hlw : p.lowered = (s.pc id).lowered)
    (hst : ∀ count, p = .store count → count = s.count)
    (hg : id ≠ 0 → (s.pc id).isGone = true → p.isGone = true)
    (hone : id = 0 → SeenOne (s.goto id p) → ∀ id ∈ others NR_TASKLETS, (s.pc id).isGone = true) :
    Inv NR_TASKLETS lock (s.goto id p) := by
  refine hi.move rfl rfl rfl (fun j => ?_) hr hlw hst hg hone
  have := hi.holder j
  show s.held lock = some j ↔ (Function.update s.pc id p j).locked = true
  rw [Function.update_apply]
  grind

/-- `mutex_lock(__ime_tasklet_lock)`, where it is free. -/
theorem Inv.acquire (hi : Inv NR_TASKLETS lock s) (hp : s.pc id = .lock) (hfree : s.held lock = none) :
    Inv NR_TASKLETS lock ((s.hold lock (some id)).goto id (if id = 0 then .read else .load)) := by
  have hrole := hi.role id
  rw [hp] at hrole
  refine hi.move rfl rfl rfl (fun j => ?_) ?_ ?_ ?_ ?_ ?_
  · have := hi.holder j
    show Function.update s.held lock (some id) lock = some j ↔ (Function.update s.pc id _ j).locked = true
    rw [Function.update_self, Function.update_apply]
    by_cases hj : j = id
    · rw [if_pos hj, hj]
      split <;> exact ⟨fun _ => rfl, fun _ => rfl⟩
    · rw [hfree] at this
      rw [if_neg hj, ← this]
      simp [Ne.symm hj]
  · split
    next h0 => exact ⟨hrole.1, hrole.2, h0⟩
    next h0 => exact ⟨hrole.1, hrole.2, h0⟩
  · split <;> simp [Pc.lowered, hp]
  · split <;> simp
  · rw [hp]
    simp [Pc.isGone]
  · rintro rfl h
    simp [SeenOne, Returned, State.goto] at h

/-- `mutex_unlock(__ime_tasklet_lock)`. -/
theorem Inv.unlocked (hi : Inv NR_TASKLETS lock s) {p : Pc} (hp : (s.pc id).locked = true)
    (hlk : p.locked = false) (j : Nat) :
    ((s.hold lock none).goto id p).held lock = some j ↔
      (((s.hold lock none).goto id p).pc j).locked = true := by
  show Function.update s.held lock none lock = some j ↔ (Function.update s.pc id p j).locked = true
  rw [Function.update_self, Function.update_apply]
  split
  next => simp [hlk]
  next hj =>
    simp only [reduceCtorEq, false_iff]
    intro h
    exact hj (hi.alone hp h)

/-- `__ime_tasklet_count -= 1` is written under the lock. -/
theorem Inv.write (hi : Inv NR_TASKLETS lock s) (hn : 1 ≤ NR_TASKLETS.toNat) {count : Word}
    (hp : s.pc id = .store count) :
    Inv NR_TASKLETS lock ({ s with
      count := count - 1
      lowered := Function.update s.lowered id (s.lowered id + 1) }.goto id .release) := by
  have hrole := hi.role id
  rw [hp] at hrole
  have hmem : id ∈ others NR_TASKLETS := mem_others.mpr ⟨hrole.2.1, hrole.2.2, hrole.1⟩
  have hlocked : (s.pc id).locked = true := by rw [hp]; rfl
  have hpos := hi.pos hn
  have hsub : (s.count - 1).toNat = s.count.toNat - 1 := by
    rw [BitVec.toNat_sub_of_le (by rw [BitVec.le_def]; exact hpos)]
    rfl
  obtain rfl := hi.store id count hp
  refine ⟨fun j => ?_, fun j => ?_, ?_, fun j count hj => ?_, fun j => ?_, fun h j hj => ?_⟩
  · have := hi.role j
    simp only [State.goto, Function.update_apply]
    split
    next h => subst h; exact hrole
    next => exact this
  · show s.held lock = some j ↔ (Function.update s.pc id .release j).locked = true
    rw [Function.update_apply, hi.holder j]
    split
    next h => rw [h, hp]; rfl
    next => rfl
  · have hsum := sum_update hmem Pc.lowered s.pc .release
    have := hi.count
    rw [hp] at hsum
    simp only [Pc.lowered] at hsum this
    simp only [State.goto, Pc.lowered, hsub]
    omega
  · -- nobody else has read the count
    simp only [State.goto, Function.update_apply] at hj
    split at hj
    next => simp at hj
    next hne => exact absurd (hi.alone hlocked (by rw [hj]; rfl)) hne
  · have := hi.lowered j
    simp only [State.goto, Function.update_apply]
    split
    next h => rw [hi.lowered id, hp]; rfl
    next => exact this
  · have h0 : 0 ≠ id := Ne.symm hrole.2.2
    have hone : SeenOne s := by simpa [SeenOne, Returned, State.goto, Function.update_apply, h0] using h
    have := hi.gone hone id hmem
    simp [hp, Pc.isGone] at this

/-- With the lock in tasklet 0's hands and the count at 1, all the others
are done. -/
theorem Inv.one (hi : Inv NR_TASKLETS lock s) (h0 : (s.pc 0).locked = true) (hc : s.count = 1) :
    ∀ id ∈ others NR_TASKLETS, (s.pc id).isGone = true := by
  have hn : 1 ≤ NR_TASKLETS.toNat := by
    have := hi.count
    rw [hc, show (1 : Word).toNat = 1 from rfl] at this
    omega
  have hone : ∀ id ∈ others NR_TASKLETS, (s.pc id).lowered ≤ 1 := fun id _ => by
    cases s.pc id <;> simp [Pc.lowered]
  have hsum : ∑ id ∈ others NR_TASKLETS, (s.pc id).lowered = ∑ _id ∈ others NR_TASKLETS, 1 := by
    have hle := Finset.sum_le_sum hone
    have := card_others hn
    have := hi.count
    rw [hc, show (1 : Word).toNat = 1 from rfl] at this
    rw [Finset.sum_const, Nat.nsmul_eq_mul, Nat.mul_one] at hle ⊢
    omega
  intro id hid
  have hl := (Finset.sum_eq_sum_iff_of_le hone).mp hsum id hid
  have hne : id ≠ 0 := (mem_others.mp hid).2.1
  cases hp : s.pc id <;> simp [hp, Pc.lowered] at hl
  case release => exact absurd (hi.alone h0 (by rw [hp]; rfl)) hne
  all_goals rfl

/-- Nobody holds the lock once tasklet 0 has returned. -/
theorem Inv.lock_free (hi : Inv NR_TASKLETS lock s) (h : Returned s) : s.held lock = none := by
  rw [Option.eq_none_iff_forall_ne_some]
  intro id hid
  have hl := (hi.holder id).mp hid
  by_cases h0 : id = 0
  · subst h0
    rcases h with h | ⟨r0, h⟩ <;> simp [h, Pc.locked] at hl
  · have hmem : id ∈ others NR_TASKLETS := by
      have hr := hi.role id
      cases hp : s.pc id <;> rw [hp] at hr hl <;> simp [Pc.locked] at hl
      case read | unlock => exact absurd hr.2.2 h0
      all_goals exact mem_others.mpr ⟨hr.2.1, h0, hr.1⟩
    rcases hi.stopped hmem (hi.gone (.inr (.inr h)) id hmem) with hp | hp <;> simp [hp, Pc.locked] at hl

theorem Inv.hold (hi : Inv NR_TASKLETS lock s) {m : Nat} {h : Option Nat} (hm : m = lock → h = s.held lock) :
    Inv NR_TASKLETS lock (s.hold m h) := by
  have hl : (s.hold m h).held lock = s.held lock := by
    show Function.update s.held m h lock = s.held lock
    rw [Function.update_apply]
    split
    next heq => exact hm heq.symm
    next => rfl
  exact { hi with holder := fun id => by rw [hl]; exact hi.holder id }

/-- One turn of `reset_atomic_loop`. -/
theorem Inv.resetMutex (hi : Inv NR_TASKLETS lock s) {r0 : Nat} {p : Pc} (hp : s.pc id = .reset r0)
    (hr : RoleOk NR_TASKLETS id p) (hlk : p.locked = false) (hlw : p.lowered = 0)
    (hst : ∀ count, p ≠ .store count) : Inv NR_TASKLETS lock ((s.hold r0 none).goto id p) := by
  have h0 : id = 0 := by
    have := hi.role id
    rw [hp] at this
    exact this.2.2
  have hret : Returned s := .inr ⟨r0, h0 ▸ hp⟩
  have hh : Inv NR_TASKLETS lock (s.hold r0 none) := hi.hold fun _ => (hi.lock_free hret).symm
  refine hh.goto ?_ hr ?_ (fun count h => absurd h (hst count)) (fun h => absurd h0 h) fun _ _ => ?_
  · show p.locked = (s.pc id).locked
    rw [hlk, hp]
    rfl
  · show p.lowered = (s.pc id).lowered
    rw [hlw, hp]
    rfl
  · exact hi.gone (.inr (.inr hret))

theorem step_inv (hn : 1 ≤ NR_TASKLETS.toNat) (hi : Inv NR_TASKLETS lock s) {a : Action}
    (h : s.step NR_TASKLETS lock a = some s') : Inv NR_TASKLETS lock s' := by
  cases a with
  | take id m =>
    simp only [State.step] at h
    split at h <;> simp only [Option.some.injEq, reduceCtorEq] at h
    next hg =>
    subst h
    exact hi.hold fun hm => absurd hm hg.2.1
  | give id m =>
    simp only [State.step] at h
    split at h <;> simp only [Option.some.injEq, reduceCtorEq] at h
    next hg =>
    subst h
    exact hi.hold fun hm => absurd hm hg.2
  | next id =>
    simp only [State.step] at h
    split at h <;> simp only [Option.some.injEq, reduceCtorEq] at h
    next hlt =>
    subst h
    have hrole := hi.role id
    cases hp : s.pc id <;> rw [hp] at hrole <;> simp only [State.next, hp]
    case bootstrap =>
      split
      next hc =>
        refine hi.goto (by rw [hp]; rfl) ⟨hc, hlt⟩ (by rw [hp]; rfl) nofun (by simp [hp, Pc.isGone]) ?_
        rintro rfl h
        simp [SeenOne, Returned, State.goto] at h
      next hc =>
        refine hi.goto (by rw [hp]; rfl) (by simpa [RoleOk] using hc) (by rw [hp]; rfl) nofun
          (by simp [hp, Pc.isGone]) ?_
        rintro rfl h
        simp [SeenOne, Returned, State.goto] at h
    case main =>
      refine hi.goto (by rw [hp]; rfl) hrole (by rw [hp]; rfl) nofun (by simp [hp, Pc.isGone]) ?_
      rintro rfl h
      simp [SeenOne, Returned, State.goto] at h
    case lock =>
      split
      next hf => exact hi.acquire hp hf
      next => exact hi
    case read =>
      refine hi.goto (by rw [hp]; rfl) hrole (by rw [hp]; rfl) nofun (by simp [hp, Pc.isGone]) ?_
      rintro rfl h
      simp only [SeenOne, Returned, State.goto, Function.update_self, Pc.unlock.injEq, reduceCtorEq, exists_false,
        or_false] at h
      exact hi.one (by rw [hp]; rfl) h
    case unlock count =>
      refine hi.move rfl rfl rfl (hi.unlocked (by rw [hp]; rfl) rfl) hrole (by rw [hp]; rfl) nofun
        (by simp [hp, Pc.isGone]) ?_
      rintro rfl h
      simp only [SeenOne, Returned, State.goto, Function.update_self, Pc.test.injEq, reduceCtorEq, exists_false,
        or_false, false_or] at h
      subst h
      exact hi.gone (.inl hp)
    case test count =>
      split
      next =>
        refine hi.goto (by rw [hp]; rfl) ⟨hrole.1, hrole.2.1⟩ (by rw [hp]; rfl) nofun (by simp [hp, Pc.isGone]) ?_
        rintro rfl h
        simp [SeenOne, Returned, State.goto] at h
      next hc =>
        refine hi.goto (by rw [hp]; rfl) hrole (by rw [hp]; rfl) nofun (by simp [hp, Pc.isGone]) ?_
        rintro rfl -
        rw [not_not] at hc
        subst hc
        exact hi.gone (.inr (.inl hp))
    case reset r0 =>
      cases r0 with
      | zero => exact hi.resetMutex hp hrole rfl rfl nofun
      | succ r0 => exact hi.resetMutex hp hrole rfl rfl nofun
    case load =>
      refine hi.goto (by rw [hp]; rfl) hrole (by rw [hp]; rfl) (fun count h => (Pc.store.inj h).symm)
        (by simp [hp, Pc.isGone]) fun h0 => absurd h0 hrole.2.2
    case store count => exact hi.write hn hp
    case release =>
      refine hi.move rfl rfl rfl (hi.unlocked (by rw [hp]; rfl) rfl) hrole (by rw [hp]; rfl) nofun
        (by simp [hp, Pc.isGone]) fun h0 => absurd h0 hrole.2.2
    case stop =>
      refine hi.goto (by rw [hp]; rfl) hrole (by rw [hp]; rfl) nofun (fun _ _ => rfl) fun h0 => absurd h0 hrole.2.2
    case unused | stopped | done => exact hi

theorem reachable_inv (hn : 1 ≤ NR_TASKLETS.toNat)
    (h : Reachable (Init NR_TASKLETS) (Step NR_TASKLETS lock) s) : Inv NR_TASKLETS lock s := by
  refine h.invariant (Inv NR_TASKLETS lock) ?_ fun s s' hi ⟨a, ha⟩ => step_inv hn hi ha
  rintro s rfl
  refine ⟨fun _ => trivial, ?_, ?_, nofun, fun _ => rfl, ?_⟩ <;> simp [Pc.locked, Pc.lowered, SeenOne, Returned]

/-! ## The reset -/

/-- `main` has given back what it holds wherever it returns. -/
def HeldInMain (lock : Nat) (s : State) : Prop := ∀ id m, m ≠ lock → s.held m = some id → s.pc id = .main

theorem next_held {m : Nat} (hm : m ≠ lock) {j : Nat}
    (h : (s.next NR_TASKLETS lock id).held m = some j) : s.held m = some j := by
  have hold : ∀ {m' : Nat} {h' : Option Nat}, (m' = lock ∨ h' = none) →
      (s.hold m' h').held m = some j → s.held m = some j := by
    intro m' h' hor h
    simp only [State.hold, Function.update_apply] at h
    split at h
    next heq =>
      cases hor with
      | inl h1 => exact absurd (heq.trans h1) hm
      | inr h1 => simp [h1] at h
    next => exact h
  cases hp : s.pc id <;> simp only [State.next, hp] at h
  case bootstrap | test => split at h <;> exact h
  case lock =>
    split at h
    · exact hold (.inl rfl) h
    · exact h
  case unlock | release => exact hold (.inl rfl) h
  case reset r0 => cases r0 <;> exact hold (.inr rfl) h
  all_goals exact h

theorem next_pc {j : Nat} (hj : j ≠ id) : (s.next NR_TASKLETS lock id).pc j = s.pc j := by
  have hgoto : ∀ (s : State) p, (s.goto id p).pc j = s.pc j := fun s p => Function.update_of_ne hj _ _
  cases hp : s.pc id <;> simp only [State.next, hp]
  case bootstrap | test => split <;> exact hgoto _ _
  case lock =>
    split
    · exact hgoto _ _
    · rfl
  case reset r0 => cases r0 <;> exact hgoto _ _
  all_goals exact hgoto _ _

theorem tidy_heldInMain (h : Reachable (Init NR_TASKLETS) (TidyStep NR_TASKLETS lock) s) : HeldInMain lock s := by
  refine h.invariant (HeldInMain lock) (by rintro s rfl; simp [HeldInMain]) ?_
  rintro s s' hi ⟨a, ht, ha⟩
  cases a with
  | next id =>
    simp only [State.step] at ha
    split at ha <;> simp only [Option.some.injEq, reduceCtorEq] at ha
    subst ha
    intro j m hm hj
    have hold := next_held hm hj
    have hmain := hi j m hm hold
    have hne : j ≠ id := by
      rintro rfl
      exact ht hmain m hold
    rw [next_pc hne, hmain]
  | take id m =>
    simp only [State.step] at ha
    split at ha <;> simp only [Option.some.injEq, reduceCtorEq] at ha
    next hg =>
    subst ha
    intro j m' hm hj
    simp only [State.hold, Function.update_apply] at hj ⊢
    split at hj
    next => rw [← Option.some.inj hj, hg.1]
    next => exact hi j m' hm hj
  | give id m =>
    simp only [State.step] at ha
    split at ha <;> simp only [Option.some.injEq, reduceCtorEq] at ha
    subst ha
    intro j m' hm hj
    simp only [State.hold, Function.update_apply] at hj ⊢
    split at hj
    next => simp at hj
    next => exact hi j m' hm hj

/-- What `reset_atomic` has begun goes on. -/
theorem returned_step (h : Returned s) (hs : Step NR_TASKLETS lock s s') : Returned s' := by
  obtain ⟨a, ha⟩ := hs
  cases a with
  | next id =>
    simp only [State.step] at ha
    split at ha <;> simp only [Option.some.injEq, reduceCtorEq] at ha
    subst ha
    by_cases h0 : 0 = id
    · subst h0
      rcases h with h | ⟨r0, h⟩
      · simp [Returned, State.next, h]
      · cases r0 <;> simp [Returned, State.next, State.goto, h]
    · simpa only [Returned, next_pc h0] using h
  | take id m | give id m =>
    simp only [State.step] at ha
    split at ha <;> simp only [Option.some.injEq, reduceCtorEq] at ha
    subst ha
    exact h

/-- After tasklet 0 has returned the others have no use of a mutex. -/
theorem Inv.unused (hi : Inv NR_TASKLETS lock s) (h : Returned s) (h0 : id ≠ 0) : (s.pc id).uses = false := by
  have hr := hi.role id
  by_cases hmem : id ∈ others NR_TASKLETS
  · rcases hi.stopped hmem (hi.gone (.inr (.inr h)) id hmem) with hp | hp <;> simp [hp, Pc.uses]
  · have hn : ¬ (counted NR_TASKLETS id = true ∧ id < threads) := fun hc => hmem (mem_others.mpr ⟨hc.2, h0, hc.1⟩)
    cases hp : s.pc id <;> rw [hp] at hr <;> first
      | rfl
      | exact absurd hr hn
      | exact absurd ⟨hr.1, hr.2.1⟩ hn

theorem TidyStep.step (h : TidyStep NR_TASKLETS lock s s') : Step NR_TASKLETS lock s s' := by
  obtain ⟨a, -, ha⟩ := h
  exact ⟨a, ha⟩

theorem tidy_reachable (h : Reachable (Init NR_TASKLETS) (TidyStep NR_TASKLETS lock) s) :
    Reachable (Init NR_TASKLETS) (Step NR_TASKLETS lock) s := by
  induction h with
  | init h => exact .init h
  | step _ h ih => exact .step ih h.step

/-- **The rendezvous at the end of a subkernel.** In every run the count
stays above 0, and tasklet 0 leaves `__ime_stop_tasklet` only when every
other counted tasklet has lowered the count once and given the lock back.
In a run in which no tasklet leaves `main` with a mutex, `reset_atomic`
resets mutexes that nobody holds, and none of the other tasklets uses one
from then on. -/
theorem rendezvous (hn : 1 ≤ NR_TASKLETS.toNat)
    (h : Reachable (Init NR_TASKLETS) (Step NR_TASKLETS lock) s) :
    1 ≤ s.count.toNat ∧
    (Returned s → ∀ id < threads, id ≠ 0 → counted NR_TASKLETS id = true →
      (s.pc id = .stop ∨ s.pc id = .stopped) ∧ s.lowered id = 1 ∧ s.held lock ≠ some id) ∧
    (Reachable (Init NR_TASKLETS) (TidyStep NR_TASKLETS lock) s → ∀ r0, s.pc 0 = .reset r0 →
      s.held r0 = none ∧ ∀ s', Relation.ReflTransGen (TidyStep NR_TASKLETS lock) s s' →
        ∀ id ≠ 0, (s'.pc id).uses = false ∧ ∀ m, s'.held m ≠ some id) := by
  have hi := reachable_inv hn h
  refine ⟨hi.pos hn, fun hret id hlt h0 hc => ?_, fun ht r0 hr0 => ?_⟩
  · have hmem := mem_others.mpr ⟨hlt, h0, hc⟩
    have hp := hi.stopped hmem (hi.gone (.inr (.inr hret)) id hmem)
    refine ⟨hp, ?_, ?_⟩
    · rw [hi.lowered id]
      rcases hp with hp | hp <;> rw [hp] <;> rfl
    · rw [hi.lock_free hret]
      simp
  · have hret : Returned s := .inr ⟨r0, hr0⟩
    have hnone : ∀ {s : State}, Reachable (Init NR_TASKLETS) (TidyStep NR_TASKLETS lock) s → Returned s →
        ∀ id, s.pc id ≠ .main → ∀ m, s.held m ≠ some id := by
      intro s ht hret id hne m hm
      by_cases hl : m = lock
      · rw [hl, (reachable_inv hn (tidy_reachable ht)).lock_free hret] at hm
        simp at hm
      · exact hne (tidy_heldInMain ht id m hl hm)
    have huses : ∀ {s : State}, Reachable (Init NR_TASKLETS) (TidyStep NR_TASKLETS lock) s → Returned s →
        ∀ id ≠ 0, (s.pc id).uses = false ∧ ∀ m, s.held m ≠ some id := by
      intro s ht hret id h0
      have hu := (reachable_inv hn (tidy_reachable ht)).unused hret h0
      refine ⟨hu, hnone ht hret id fun hp => ?_⟩
      rw [hp] at hu
      simp [Pc.uses] at hu
    refine ⟨?_, fun s' hs' => ?_⟩
    · rw [Option.eq_none_iff_forall_ne_some]
      intro id
      by_cases h0 : id = 0
      · exact hnone ht hret id (by rw [h0, hr0]; simp) r0
      · exact (huses ht hret id h0).2 r0
    · have hret' : Returned s' := by
        clear ht
        induction hs' with
        | refl => exact hret
        | tail _ h1 ih => exact returned_step ih h1.step
      exact huses (ht.star hs') hret'

/-- The state after a list of actions. -/
def State.run (NR_TASKLETS : Word) (lock : Nat) (s : State) : List Action → State
  | [] => s
  | a :: as => ((s.step NR_TASKLETS lock a).getD s).run NR_TASKLETS lock as

/-- None of the actions returns from `main` with a mutex held. -/
def TidyRun (NR_TASKLETS : Word) (lock : Nat) (s : State) : List Action → Prop
  | [] => True
  | a :: as => Tidy s a ∧ TidyRun NR_TASKLETS lock ((s.step NR_TASKLETS lock a).getD s) as

theorem TidyRun.reachable {as : List Action} (h : Reachable (Init NR_TASKLETS) (TidyStep NR_TASKLETS lock) s)
    (ht : TidyRun NR_TASKLETS lock s as) :
    Reachable (Init NR_TASKLETS) (TidyStep NR_TASKLETS lock) (s.run NR_TASKLETS lock as) := by
  induction as generalizing s with
  | nil => exact h
  | cons a as ih =>
    refine ih ?_ ht.2
    cases ha : s.step NR_TASKLETS lock a with
    | none => exact h
    | some s' => exact .step h ⟨a, ht.1, ha⟩

/-- Two tasklets; the other one is at its `stop` when tasklet 0 begins to
reset the mutexes. -/
theorem rendezvous_two :
    ∃ s : State, s.pc 0 = .reset 255 ∧ s.pc 1 = .stop ∧ 1 ≤ s.count.toNat ∧ s.lowered 1 = 1 ∧ s.held 255 = none := by
  let start : State := ⟨fun _ => .bootstrap, 2, fun _ => none, fun _ => 0⟩
  let acts : List Action := [.next 0, .next 1, .next 0, .next 1, .next 1, .next 1, .next 1, .next 1, .next 0,
    .next 0, .next 0, .next 0]
  have ht : Reachable (Init 2) (TidyStep 2 0) (start.run 2 0 acts) := by
    refine TidyRun.reachable (.init rfl) ?_
    simp [TidyRun, Tidy, acts, start, State.step, State.next, State.goto, State.hold, threads, counted]
  obtain ⟨h1, h2, h3⟩ := rendezvous (by decide) (tidy_reachable ht)
  have hp : (start.run 2 0 acts).pc 0 = .reset 255 := by decide
  exact ⟨_, hp, by decide, h1, (h2 (.inr ⟨255, hp⟩) 1 (by decide) (by decide) (by decide)).2.1, (h3 ht 255 hp).1⟩

end Memclave.StopTasklet
