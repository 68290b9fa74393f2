/-
Tasklets that call `ime_chacha_blk` with keys of their own at the same time.

Each call is the call alone (`ChachaFacts`) as long as no tasklet clears run
bit 27 while another call stands between its own `clr_run zero, 27` and
`boot zero, 27` (`calls_right`). Otherwise the second call does not find the
bit set and runs more rounds (`eleven_rounds`).
-/
import Memclave.ChachaFacts
import Mathlib.Algebra.Order.BigOperators.Group.Finset

namespace Memclave.Chacha

open Words Isa Function Sys

/-! ## Runs of the tasklets -/

/-- The tasklets, and what each one's last call began with. -/
structure Calls where
  mach : Mach Label
  call : Nat → Option (View Label)

/-- The run bits as a call of the system key leaves them. -/
def settledBits : Nat → Bool := fun i => i == 24 || i == 27

/-- Before the first call. -/
structure Start (s : Calls) : Prop where
  settled : Settled s.mach.bits
  outside : ∀ t, s.mach.pc t = .returned
  call : ∀ t, s.call t = none

/-- Tasklet `t`, which is in no call, begins one: it has laid its arguments
in its own registers and buffers. The run bits of `v` are those that it would
find alone. -/
structure Begins (ids : Finset Nat) (t : Nat) (v : View Label) (s : Calls) : Prop where
  outside : s.mach.pc t = .returned
  call : UserCall t v
  bits : v.bits = settledBits
  wram : ∀ k, ¬ Region v.regs k → v.wram k = s.mach.wram k
  apart : ∀ u ∈ ids, u ≠ t → ∀ v', s.call u = some v' → ∀ k, Region v.regs k → ¬ Region v'.regs k

def Calls.begin (s : Calls) (t : Nat) (v : View Label) : Calls where
  mach := {
    wram := v.wram
    bits := s.mach.bits
    pc := update s.mach.pc t v.pc
    regs := update s.mach.regs t v.regs
    visits := update s.mach.visits t v.visits
    made := update s.mach.made t 0 }
  call := update s.call t (some v)

/-- One instruction of a tasklet. -/
def Calls.exec (Y : Board chachaS) (s : Calls) (t : Nat) : Calls := { s with mach := s.mach.step Y t }

/-- A tasklet executes an instruction or begins a call. -/
inductive Step (Y : Board chachaS) (ids : Finset Nat) : Calls → Calls → Prop
  | exec {s t} : t ∈ ids → Step Y ids s (s.exec Y t)
  | begin {s t v} : t ∈ ids → Begins ids t v s → Step Y ids s (s.begin t v)

/-- Tasklet `t` does not clear run bit 27 while another call has yet to set it
again. -/
def Timely (ids : Finset Nat) (s : Calls) (t : Nat) : Prop :=
  s.mach.pc t = .at .chachaLoop 98 → ∀ u ∈ ids, s.mach.pc u ≠ .at .loopLt8 0

/-- An instruction of a tasklet at such a time. -/
def Executes (Y : Board chachaS) (ids : Finset Nat) (s s' : Calls) : Prop := ∃ t ∈ ids, Timely ids s t ∧ s' = s.exec Y t

inductive TimelyStep (Y : Board chachaS) (ids : Finset Nat) : Calls → Calls → Prop
  | exec {s s'} : Executes Y ids s s' → TimelyStep Y ids s s'
  | begin {s t v} : t ∈ ids → Begins ids t v s → TimelyStep Y ids s (s.begin t v)

theorem TimelyStep.step {Y : Board chachaS} {ids : Finset Nat} {s s' : Calls} (h : TimelyStep Y ids s s') : Step Y ids s s' := by
  cases h with
  | exec he =>
    obtain ⟨t, ht, -, rfl⟩ := he
    exact .exec ht
  | begin ht hb => exact .begin ht hb

/-! ## The invariant -/

variable {Y : Board chachaS} {ids : Finset Nat} {s s' : Calls} {t u : Nat} {v v0 : View Label}

theorem settled_bits : Settled settledBits := ⟨rfl, rfl, rfl, rfl⟩

/-- Each call is where it would be alone. -/
structure Inv (Y : Board chachaS) (ids : Finset Nat) (s : Calls) : Prop where
  bits : s.mach.bits 24 = true ∧ s.mach.bits 25 = false ∧ s.mach.bits 26 = false
  cleared : s.mach.bits 27 = false → ∃ t ∈ ids, s.mach.pc t = .at .loopLt8 0
  idle : ∀ t ∈ ids, s.call t = none → s.mach.pc t = .returned
  calls : ∀ t ∈ ids, ∀ v, s.call t = some v → UserCall t v ∧ v.bits = settledBits ∧
    Agree (Region v.regs) (s.mach.view t) ((Y.step t)^[s.mach.made t] v)
  apart : ∀ t ∈ ids, ∀ u ∈ ids, u ≠ t → ∀ v v', s.call t = some v → s.call u = some v' →
    ∀ k, Region v.regs k → ¬ Region v'.regs k

/-- Alone, a call either is at an instruction on its own words or has
returned. -/
theorem UserCall.alone (hc : UserCall t v) (hb : v.bits = settledBits) (n : Nat) :
    Good chachaS t (Region v.regs) UserBits ((Y.step t)^[n] v) ∧ n < 1062 ∨
      UserDone v ((Y.step t)^[n] v) ∧ 1062 ≤ n := by
  obtain ⟨v', hrun, hd⟩ := hc.runs (hb ▸ settled_bits)
  cases Nat.lt_or_ge n 1062 with
  | inl hn => exact .inl ⟨hrun.good n hn, hn⟩
  | inr hn =>
    obtain ⟨j, rfl⟩ := Nat.exists_eq_add_of_le hn
    have hstay : Y.step t v' = v' := by rw [Board.step, hd.pc]
    rw [Nat.add_comm, iterate_add_apply, hrun.ends, iterate_fixed hstay]
    exact .inr ⟨hd, by omega⟩

theorem step_returned (h : v.pc = .returned) : Y.step t v = v := by rw [Board.step, h]

/-- What an instruction of a call does to what it shares. -/
structure Moves (Y : Board chachaS) (ids : Finset Nat) (v0 : View Label) (s : Calls) (t : Nat) : Prop where
  agree : Agree (Region v0.regs) (Y.step t (s.mach.view t)) ((Y.step t)^[s.mach.made t + 1] v0)
  wram : ∀ k, ¬ Region v0.regs k → (Y.step t (s.mach.view t)).wram k = s.mach.wram k
  bits : ∀ i, i ≠ 27 → (Y.step t (s.mach.view t)).bits i = s.mach.bits i
  bit27 : (Y.step t (s.mach.view t)).bits 27 = s.mach.bits 27 ∧ s.mach.pc t ≠ .at .loopLt8 0 ∨
    (Y.step t (s.mach.view t)).bits 27 = true ∨ (Y.step t (s.mach.view t)).pc = .at .loopLt8 0

theorem Inv.moves (hi : Inv Y ids s) (ht : t ∈ ids) (htl : Timely ids s t) (hcall : s.call t = some v0) :
    Moves Y ids v0 s t := by
  obtain ⟨hc, hb, ha⟩ := hi.calls t ht v0 hcall
  set w := (Y.step t)^[s.mach.made t] v0 with hw
  have hnext : (Y.step t)^[s.mach.made t + 1] v0 = Y.step t w := iterate_succ_apply' _ _ _
  rcases hc.alone hb (s.mach.made t) with ⟨hg, -⟩ | ⟨hd, -⟩
  · obtain ⟨l, i, ins, hpc, hcode, hword, hbits⟩ := hg
    cases hsh : ins.shared with
    | false =>
      have hgood : Good chachaS t (Region v0.regs) (fun _ _ _ => False) (s.mach.view t) :=
        ⟨l, i, ins, ha.pc.trans hpc, hcode, ha.regs ▸ hword, fun h => absurd (hsh.symm.trans h) Bool.false_ne_true⟩
      have hbit : (Y.step t (s.mach.view t)).bits = s.mach.bits := hgood.bits
      refine ⟨hnext ▸ ha.step hpc hcode hsh hword, fun k hk => hgood.frame hk, fun i _ => congrFun hbit i,
        .inl ⟨congrFun hbit 27, fun h8 => ?_⟩⟩
      obtain ⟨rfl, rfl⟩ := Pc.at.inj ((ha.pc.trans hpc).symm.trans h8)
      obtain rfl : Instr.boot 27 .t (.skip 1) = ins := Option.some.inj hcode
      exact absurd hsh (by simp [Instr.shared])
    | true =>
      have hpc' : s.mach.pc t = .at l i := ha.pc.trans hpc
      rcases hbits hsh with ⟨rfl, rfl, hb27⟩ | ⟨rfl, rfl⟩ | ⟨rfl, rfl, hb24⟩
      · have hset : s.mach.bits 27 = true := by
          by_contra hclear
          obtain ⟨u, hu, hpcu⟩ := hi.cleared (Bool.not_eq_true _ ▸ hclear)
          exact htl hpc' u hu hpcu
        obtain ⟨hagree, hbits', hwram⟩ := ha.clrRun (Y := Y) t hpc
          (show (code .chachaLoop)[98]? = some (.clrRun 27 .nz (.label .loopLt8)) from rfl)
          (by rw [hb27]; exact congrArg _ (congrArg bitWord hset))
        refine ⟨hnext ▸ hagree, fun k _ => congrFun hwram k, fun i hi27 => ?_, .inr (.inr ?_)⟩
        · rw [hbits']
          exact update_of_ne hi27 _ _
        · rw [step_eq (v := s.mach.view t) hpc' (show (code .chachaLoop)[98]? = some (.clrRun 27 .nz (.label .loopLt8)) from rfl)]
          exact branch_taken (by rw [show (s.mach.view t).bits 27 = true from hset]; rfl)
      · obtain ⟨hagree, hbits', hwram⟩ := ha.boot (Y := Y) t hpc
          (show (code .loopLt8)[0]? = some (.boot 27 .t (.skip 1)) from rfl) rfl
        refine ⟨hnext ▸ hagree, fun k _ => congrFun hwram k, fun i hi27 => ?_, .inr (.inl ?_)⟩
        · rw [hbits']
          exact update_of_ne hi27 _ _
        · rw [hbits']
          exact update_self _ _ _
      · have hset : s.mach.bits 24 = true := hi.bits.1
        obtain ⟨hagree, hbits', hwram⟩ := ha.boot (Y := Y) t hpc
          (show (code .loopLt8)[1]? = some (.boot 24 .z (.label .chachaLoop)) from rfl)
          (by rw [hb24]; exact congrArg _ (congrArg bitWord hset))
        have hsame : (Y.step t (s.mach.view t)).bits = s.mach.bits := by
          rw [hbits', ← hset]
          exact update_eq_self _ _
        refine ⟨hnext ▸ hagree, fun k _ => congrFun hwram k, fun i _ => congrFun hsame i,
          .inl ⟨congrFun hsame 27, fun h8 => ?_⟩⟩
        exact absurd (hpc'.symm.trans h8) (by simp)
  · have hstay : Y.step t (s.mach.view t) = s.mach.view t := step_returned (ha.pc.trans hd.pc)
    refine ⟨?_, fun k _ => by rw [hstay]; rfl, fun i _ => by rw [hstay]; rfl, .inl ⟨by rw [hstay]; rfl, ?_⟩⟩
    · rw [hnext, hstay, step_returned hd.pc]
      exact ha
    · intro h8
      have hret : s.mach.pc t = .returned := ha.pc.trans hd.pc
      exact absurd (h8.symm.trans hret) (by simp)

theorem exec_pc (s : Calls) (t : Nat) : (s.exec Y t).mach.pc t = (Y.step t (s.mach.view t)).pc := update_self _ _ _

theorem exec_pc_other (h : u ≠ t) : (s.exec Y t).mach.pc u = s.mach.pc u := update_of_ne h _ _

theorem exec_view (s : Calls) (t : Nat) : (s.exec Y t).mach.view t = Y.step t (s.mach.view t) := view_step _ _ _

/-- Another tasklet's view, where the words of its call are left alone. -/
theorem exec_agree_other {R : Nat → Prop} {w : View Label} (h : u ≠ t) (ha : Agree R (s.mach.view u) w)
    (hR : ∀ k, R k → (Y.step t (s.mach.view t)).wram k = s.mach.wram k) : Agree R ((s.exec Y t).mach.view u) w := by
  have hv : (s.exec Y t).mach.view u = _ := view_step_other h s.mach
  rw [hv]
  exact ⟨ha.pc, ha.regs, ha.visits, fun k hk => (hR k hk).trans (ha.wram k hk)⟩

theorem exec_made_other (h : u ≠ t) : (s.exec Y t).mach.made u = s.mach.made u := update_of_ne h _ _

theorem exec_made : (s.exec Y t).mach.made t = s.mach.made t + 1 := update_self _ _ _

theorem Inv.exec (hi : Inv Y ids s) (ht : t ∈ ids) (htl : Timely ids s t) : Inv Y ids (s.exec Y t) := by
  cases hcall : s.call t with
  | none =>
    have hstay : Y.step t (s.mach.view t) = s.mach.view t := step_returned (hi.idle t ht hcall)
    have hpc : ∀ u, (s.exec Y t).mach.pc u = s.mach.pc u := fun u => by
      by_cases hu : u = t
      · rw [hu, exec_pc, hstay]
        rfl
      · exact exec_pc_other hu
    have hbits : (s.exec Y t).mach.bits = s.mach.bits := congrArg View.bits hstay
    refine ⟨hbits ▸ hi.bits, fun h27 => ?_, fun u hu hn => (hpc u).trans (hi.idle u hu hn), fun u hu v hv => ?_, hi.apart⟩
    · obtain ⟨u, hu, hpcu⟩ := hi.cleared (hbits ▸ h27)
      exact ⟨u, hu, (hpc u).trans hpcu⟩
    · have hne : u ≠ t := fun h => by
        subst h
        exact absurd (hcall.symm.trans hv) (by simp)
      obtain ⟨hc, hb, ha⟩ := hi.calls u hu v hv
      rw [exec_made_other hne]
      exact ⟨hc, hb, exec_agree_other hne ha fun k _ => by rw [hstay]; rfl⟩
  | some v0 =>
    have hm := hi.moves ht htl hcall
    refine ⟨⟨?_, ?_, ?_⟩, fun h27 => ?_, fun u hu hn => ?_, fun u hu v hv => ?_, hi.apart⟩
    · exact (hm.bits 24 (by decide)).trans hi.bits.1
    · exact (hm.bits 25 (by decide)).trans hi.bits.2.1
    · exact (hm.bits 26 (by decide)).trans hi.bits.2.2
    · rcases hm.bit27 with ⟨hsame, hpc⟩ | hset | hpc
      · obtain ⟨u, hu, hpcu⟩ := hi.cleared (hsame.symm.trans h27)
        have hne : u ≠ t := fun h => hpc (h ▸ hpcu)
        exact ⟨u, hu, (exec_pc_other hne).trans hpcu⟩
      · exact absurd (h27.symm.trans hset) Bool.false_ne_true
      · exact ⟨t, ht, (exec_pc s t).trans hpc⟩
    · have hne : u ≠ t := fun h => by
        subst h
        exact absurd (hcall.symm.trans hn) (by simp)
      exact (exec_pc_other hne).trans (hi.idle u hu hn)
    · obtain ⟨hc, hb, ha⟩ := hi.calls u hu v hv
      by_cases hut : u = t
      · subst hut
        obtain rfl : v0 = v := Option.some.inj (hcall.symm.trans hv)
        rw [exec_view, exec_made]
        exact ⟨hc, hb, hm.agree⟩
      · rw [exec_made_other hut]
        exact ⟨hc, hb, exec_agree_other hut ha fun k hk => hm.wram k (hi.apart u hu t ht (Ne.symm hut) v v0 hv hcall k hk)⟩

theorem begin_pc_other (h : u ≠ t) : (s.begin t v).mach.pc u = s.mach.pc u := update_of_ne h _ _

theorem begin_call_other (h : u ≠ t) : (s.begin t v).call u = s.call u := update_of_ne h _ _

theorem begin_call : (s.begin t v).call t = some v := update_self _ _ _

theorem Inv.begin (hi : Inv Y ids s) (ht : t ∈ ids) (hb : Begins ids t v s) : Inv Y ids (s.begin t v) := by
  have happ : ∀ u ∈ ids, u ≠ t → ∀ v', s.call u = some v' → ∀ k, Region v'.regs k → ¬ Region v.regs k :=
    fun u hu hne v' hv k hk h => hb.apart u hu hne v' hv k h hk
  refine ⟨hi.bits, fun h27 => ?_, fun u hu hn => ?_, fun u hu v' hv => ?_, fun a ha b hb' hab v1 v2 h1 h2 k hk => ?_⟩
  · obtain ⟨u, hu, hpcu⟩ := hi.cleared h27
    have hne : u ≠ t := fun h => by
      subst h
      exact absurd (hb.outside.symm.trans hpcu) (by simp)
    exact ⟨u, hu, (begin_pc_other hne).trans hpcu⟩
  · have hne : u ≠ t := fun h => by
      subst h
      exact absurd (begin_call.symm.trans hn) (by simp)
    rw [begin_pc_other hne]
    exact hi.idle u hu ((begin_call_other hne).symm.trans hn)
  · by_cases hut : u = t
    · subst hut
      obtain rfl : v = v' := Option.some.inj (begin_call.symm.trans hv)
      have hmade : (s.begin u v).mach.made u = 0 := update_self _ _ _
      rw [hmade]
      exact ⟨hb.call, hb.bits, update_self _ _ _, update_self _ _ _, update_self _ _ _, fun k _ => rfl⟩
    · rw [begin_call_other hut] at hv
      obtain ⟨hc, hbits, hagree⟩ := hi.calls u hu v' hv
      have hmade : (s.begin t v).mach.made u = s.mach.made u := update_of_ne hut _ _
      rw [hmade]
      exact ⟨hc, hbits, (update_of_ne hut _ _).trans hagree.pc, (update_of_ne hut _ _).trans hagree.regs,
        (update_of_ne hut _ _).trans hagree.visits,
        fun k hk => (hb.wram k (happ u hu hut v' hv k hk)).trans (hagree.wram k hk)⟩
  · by_cases hat : a = t
    · subst hat
      obtain rfl : v = v1 := Option.some.inj (begin_call.symm.trans h1)
      exact hb.apart b hb' hab v2 ((begin_call_other hab).symm.trans h2) k hk
    · rw [begin_call_other hat] at h1
      by_cases hbt : b = t
      · subst hbt
        obtain rfl : v = v2 := Option.some.inj (begin_call.symm.trans h2)
        exact happ a ha hat v1 h1 k hk
      · rw [begin_call_other hbt] at h2
        exact hi.apart a ha b hb' hab v1 v2 h1 h2 k hk

theorem start_inv (h : Start s) : Inv Y ids s := by
  obtain ⟨⟨h24, h25, h26, h27⟩, hout, hcall⟩ := h
  refine ⟨⟨h24, h25, h26⟩, fun hc => ?_, fun t _ _ => hout t, fun t _ v hv => ?_, fun t _ u _ _ v v' hv => ?_⟩
  · exact absurd (h27.symm.trans hc) (by simp)
  · exact absurd ((hcall t).symm.trans hv) (by simp)
  · exact absurd ((hcall t).symm.trans hv) (by simp)

theorem reachable_inv (h : Reachable Start (TimelyStep Y ids) s) : Inv Y ids s := by
  refine h.invariant (Inv Y ids) (fun s => start_inv) fun s s' hi hs => ?_
  cases hs with
  | exec he =>
    obtain ⟨t, ht, htl, rfl⟩ := he
    exact hi.exec ht htl
  | begin ht hb => exact hi.begin ht hb

/-! ## Every call ends -/

/-- Somebody in a call can execute an instruction. -/
theorem moving (h : ∃ t ∈ ids, s.mach.pc t ≠ .returned) :
    ∃ t ∈ ids, s.mach.pc t ≠ .returned ∧ Timely ids s t := by
  by_cases h8 : ∃ u ∈ ids, s.mach.pc u = .at .loopLt8 0
  · obtain ⟨u, hu, hpc⟩ := h8
    exact ⟨u, hu, by rw [hpc]; simp, fun h => absurd (hpc.symm.trans h) (by simp)⟩
  · obtain ⟨t, ht, hpc⟩ := h
    exact ⟨t, ht, hpc, fun _ u hu hpcu => h8 ⟨u, hu, hpcu⟩⟩

/-- The instructions that tasklet `t` has left. -/
def Calls.left (s : Calls) (t : Nat) : Nat := 1062 - s.mach.made t

/-- A call that has not returned has instructions left. -/
theorem Inv.left_pos (hi : Inv Y ids s) (ht : t ∈ ids) (hpc : s.mach.pc t ≠ .returned) : 0 < s.left t := by
  cases hcall : s.call t with
  | none => exact absurd (hi.idle t ht hcall) hpc
  | some v =>
    obtain ⟨hc, hb, ha⟩ := hi.calls t ht v hcall
    rcases hc.alone hb (s.mach.made t) with ⟨-, hlt⟩ | ⟨hd, -⟩
    · exact Nat.sub_pos_of_lt hlt
    · exact absurd (ha.pc.trans hd.pc) hpc

theorem Inv.ends (hi : Inv Y ids s) : ∃ s', Relation.ReflTransGen (Executes Y ids) s s' ∧ s'.call = s.call ∧
    ∀ t ∈ ids, s'.mach.pc t = .returned := by
  obtain ⟨s', hs', ⟨-, hcall⟩, hg⟩ := leads_to (Executes Y ids) (fun s1 => Inv Y ids s1 ∧ s1.call = s.call)
    (fun s => ∀ t ∈ ids, s.mach.pc t = .returned) (fun s => ∑ t ∈ ids, s.left t) (fun s ⟨hi, hcall⟩ hg => by
      simp only [not_forall] at hg
      obtain ⟨t0, ht0, hpc0⟩ := hg
      obtain ⟨t, ht, hpc, htl⟩ := moving ⟨t0, ht0, hpc0⟩
      refine ⟨s.exec Y t, ⟨t, ht, htl, rfl⟩, ⟨hi.exec ht htl, hcall⟩, Finset.sum_lt_sum (fun u _ => ?_) ⟨t, ht, ?_⟩⟩
      · by_cases hu : u = t
        · rw [hu, Calls.left, Calls.left, exec_made]
          omega
        · rw [Calls.left, Calls.left, exec_made_other hu]
      · have := hi.left_pos ht hpc
        unfold Calls.left at this ⊢
        rw [exec_made]
        omega) ⟨hi, rfl⟩
  exact ⟨s', hs', hcall, hg⟩

/-- **When every call is right.** For any tasklets, however often each calls
`ime_chacha_blk` with a key, a stack and an output of its own, and for every
order of their instructions in which nobody clears run bit 27 while another
call has yet to set it again: a call that has returned ran ten rounds and
wrote the block of RFC 8439 of its key, counter and iv, and every call that
has begun can return. -/
theorem calls_right (h : Reachable Start (TimelyStep Y ids) s) :
    (∀ t ∈ ids, ∀ v, s.call t = some v → s.mach.pc t = .returned →
      s.mach.visits t .chachaLoop = v.visits .chachaLoop + 10 ∧
      ∀ i : Fin 16, s.mach.wram (wordOf (v.regs 5) + i) = userBlock v i) ∧
    ∃ s', Relation.ReflTransGen (Executes Y ids) s s' ∧ s'.call = s.call ∧ ∀ t ∈ ids, s'.mach.pc t = .returned := by
  have hi := reachable_inv h
  refine ⟨fun t ht v hv hpc => ?_, hi.ends⟩
  obtain ⟨hc, hb, ha⟩ := hi.calls t ht v hv
  rcases hc.alone hb (s.mach.made t) with ⟨hg, -⟩ | ⟨hd, -⟩
  · obtain ⟨l, i, -, hat, -⟩ := hg
    exact absurd ((ha.pc.trans hat).symm.trans hpc) (by simp)
  · exact ⟨(congrFun ha.visits _).trans hd.rounds, fun i => (ha.wram _ (region_out i.isLt)).trans (hd.block i)⟩

/-! ## Two tasklets -/

/-- Tasklet `t` with a key, an output and a stack in a page of its own. -/
def tasklet (t : Nat) : View Label where
  pc := .at .chachaBlk 0
  regs
    | 0 => BitVec.ofNat 32 (0x1000 * (t + 1))
    | 5 => BitVec.ofNat 32 (0x1000 * (t + 1) + 0x100)
    | 22 => BitVec.ofNat 32 (0x1000 * (t + 1) + 0x200)
    | _ => 0
  wram _ := 0
  bits := settledBits
  visits _ := 0

def idle : Calls where
  mach := ⟨fun _ => 0, settledBits, fun _ => .returned, fun _ _ => 0, fun _ _ => 0, fun _ => 0⟩
  call _ := none

/-- Their calls read nothing of MRAM. -/
def still : Board chachaS := board fun _ => 0

def bothBegun : Calls := (idle.begin 0 (tasklet 0)).begin 1 (tasklet 1)

theorem tasklet_call : ∀ t < 2, UserCall t (tasklet t) := by
  intro t ht
  have h : t = 0 ∨ t = 1 := by omega
  rcases h with rfl | rfl
  · exact ⟨rfl, by decide, by decide, ⟨by decide, by decide⟩, ⟨by decide, by decide⟩, ⟨by decide, by decide⟩,
      .inl (by decide), .inl (by decide), .inl (by decide)⟩
  · exact ⟨rfl, by decide, by decide, ⟨by decide, by decide⟩, ⟨by decide, by decide⟩, ⟨by decide, by decide⟩,
      .inl (by decide), .inl (by decide), .inl (by decide)⟩

theorem tasklets_apart (k : Nat) (h1 : Region (tasklet 1).regs k) : ¬ Region (tasklet 0).regs k := by
  have h0 : wordOf ((tasklet 0).regs 0) = 0x400 ∧ wordOf ((tasklet 0).regs 5) = 0x440 ∧
      wordOf ((tasklet 0).regs 22) = 0x480 := by decide
  have h1' : wordOf ((tasklet 1).regs 0) = 0x800 ∧ wordOf ((tasklet 1).regs 5) = 0x840 ∧
      wordOf ((tasklet 1).regs 22) = 0x880 := by decide
  unfold Region at h1 ⊢
  omega

theorem bothBegun_reachable : Reachable Start (TimelyStep Y {0, 1}) bothBegun := by
  have h0 : Reachable Start (TimelyStep Y {0, 1}) idle := .init ⟨settled_bits, fun _ => rfl, fun _ => rfl⟩
  refine .step (.step h0 (.begin (t := 0) (v := tasklet 0) (by decide) ?_)) (.begin (t := 1) (v := tasklet 1) (by decide) ?_)
  · exact ⟨rfl, tasklet_call 0 (by decide), rfl, fun _ _ => rfl, fun _ _ _ v' hv => nomatch hv⟩
  · refine ⟨rfl, tasklet_call 1 (by decide), rfl, fun _ _ => rfl, fun u hu hne v' hv k hk => ?_⟩
    obtain rfl : u = 0 := by simpa [hne] using hu
    obtain rfl : tasklet 0 = v' := Option.some.inj hv
    exact tasklets_apart k hk

/-- Both calls can return, and then both blocks are there. -/
theorem calls_right_two : ∃ s, Reachable Start (TimelyStep still {0, 1}) s ∧
    (s.mach.visits 0 .chachaLoop = 10 ∧ ∀ i : Fin 16, s.mach.wram (0x440 + i) = userBlock (tasklet 0) i) ∧
    (s.mach.visits 1 .chachaLoop = 10 ∧ ∀ i : Fin 16, s.mach.wram (0x840 + i) = userBlock (tasklet 1) i) := by
  obtain ⟨-, s, hs, hcall, hpc⟩ := calls_right bothBegun_reachable
  have hs' : Relation.ReflTransGen (TimelyStep still {0, 1}) bothBegun s :=
    Relation.ReflTransGen.mono (fun _ _ h => TimelyStep.exec h) _ _ hs
  have hr : Reachable Start (TimelyStep still {0, 1}) s := bothBegun_reachable.star hs'
  obtain ⟨hright, -⟩ := calls_right hr
  exact ⟨s, hr, hright 0 (by decide) (tasklet 0) (by rw [hcall]; rfl) (hpc 0 (by decide)),
    hright 1 (by decide) (tasklet 1) (by rw [hcall]; rfl) (hpc 1 (by decide))⟩

/-! ## One round too many -/

/-- Instructions whatever they share. -/
abbrev Anyhow (Y : Board chachaS) (t : Nat) : Nat → View Label → View Label → Prop :=
  Runs (Y.step t) (Good chachaS t (fun _ => True) fun _ _ _ => True)

/-- A tasklet alone executes `n` instructions while all the others are
elsewhere than at `chacha_loop_lt_8`. -/
theorem run_alone (ht : t ∈ ids) (h8 : ∀ u ∈ ids, u ≠ t → s.mach.pc u ≠ .at .loopLt8 0)
    (h : Reachable Start (TimelyStep Y ids) s) : ∀ n, ∃ s', Reachable Start (TimelyStep Y ids) s' ∧ s'.call = s.call ∧
      s'.mach.made t = s.mach.made t + n ∧ ∀ u, u ≠ t → s'.mach.pc u = s.mach.pc u ∧ s'.mach.made u = s.mach.made u
  | 0 => ⟨s, h, rfl, rfl, fun _ _ => ⟨rfl, rfl⟩⟩
  | n + 1 => by
    obtain ⟨s', hr, hcall, hmade, hother⟩ := run_alone ht h8 h n
    refine ⟨s'.exec Y t, .step hr (.exec ⟨t, ht, fun h98 u hu hpc => ?_, rfl⟩), hcall, ?_, fun u hu => ?_⟩
    · by_cases hut : u = t
      · subst hut
        exact absurd (h98.symm.trans hpc) (by simp)
      · exact h8 u hu hut ((hother u hut).1.symm.trans hpc)
    · rw [exec_made, hmade, Nat.add_assoc]
    · rw [exec_pc_other hu, exec_made_other hu]
      exact hother u hu

/-- A view at the end of the tenth round whose run bit 27 is clear begins an
eleventh. -/
theorem eleventh (hpc : v.pc = .at .chachaLoop 98) (h24 : v.bits 24 = true) (h25 : v.bits 25 = false)
    (h27 : v.bits 27 = false) : ((Y.step t)^[5] v).visits .chachaLoop = v.visits .chachaLoop + 1 := by
  have h1 : Anyhow Y t 1 v ⟨.at .chachaLoop 99, v.regs, v.wram, update v.bits 27 false, v.visits⟩ :=
    runs_clrRun (l := .chachaLoop) (i := 98) hpc rfl (branch_next (by rw [h27]; rfl)) trivial
  set b1 := update v.bits 27 false with hb1
  have hb24 : b1 24 = true := (update_of_ne (by decide) _ _).trans h24
  have hz24 : Cond.z.holds (bitWord (b1 24)) = false := by rw [hb24]; rfl
  have hb25 : update (update b1 24 true) 24 false 25 = false := by
    rw [update_of_ne (by decide), update_of_ne (by decide), hb1, update_of_ne (by decide), h25]
  have h2 : Anyhow Y t 1 ⟨.at .chachaLoop 99, v.regs, v.wram, b1, v.visits⟩
      ⟨.at .chachaLoop 100, v.regs, v.wram, update b1 24 true, v.visits⟩ :=
    runs_boot (l := .chachaLoop) (i := 99) rfl rfl (branch_next hz24) trivial
  have h3 : Anyhow Y t 1 ⟨.at .chachaLoop 100, v.regs, v.wram, update b1 24 true, v.visits⟩
      ⟨.at .chachaLoop 101, v.regs, v.wram, update (update b1 24 true) 24 false, v.visits⟩ :=
    runs_clrRun (l := .chachaLoop) (i := 100) rfl rfl (branch_taken rfl) trivial
  set b3 := update (update b1 24 true) 24 false with hb3
  have hz25 : Cond.z.holds (bitWord (b3 25)) = true := by rw [hb25]; rfl
  have h4 : Anyhow Y t 1 ⟨.at .chachaLoop 101, v.regs, v.wram, b3, v.visits⟩
      ⟨.at .chachaLoop 0, v.regs, v.wram, update b3 25 true, v.visits⟩ :=
    runs_boot (l := .chachaLoop) (i := 101) rfl rfl (branch_taken hz25) trivial
  have hround : Y.step t ⟨.at .chachaLoop 0, v.regs, v.wram, update b3 25 true, v.visits⟩ =
      Y.exec t .chachaLoop 0 (.add 0 0 (.reg 4))
        ⟨.at .chachaLoop 0, v.regs, v.wram, update b3 25 true, visit .chachaLoop 0 v.visits⟩ :=
    step_eq (L := Label) rfl rfl
  have hfour : (Y.step t)^[4] v = ⟨.at .chachaLoop 0, v.regs, v.wram, update b3 25 true, v.visits⟩ :=
    (((h1.trans h2).trans h3).trans h4).ends
  rw [iterate_succ_apply' _ 4, hfour, hround]
  exact update_self Label.chachaLoop _ v.visits

/-- After 1008 instructions of its own a call stands at the end of its tenth
round. -/
theorem Inv.tenth (hi : Inv Y ids s) (ht : t ∈ ids) (hcall : s.call t = some v0) (hmade : s.mach.made t = 1008) :
    s.mach.pc t = .at .chachaLoop 98 ∧ s.mach.visits t .chachaLoop = v0.visits .chachaLoop + 10 := by
  obtain ⟨hc, -, ha⟩ := hi.calls t ht v0 hcall
  obtain ⟨v, hr, hat⟩ := hc.rounds
  rw [hmade, hr.ends] at ha
  exact ⟨ha.pc.trans hat.pc, (congrFun ha.visits _).trans hat.visits⟩

theorem exec_iterate (s : Calls) (t n : Nat) :
    ((·.exec Y t)^[n] s).mach = (Mach.step Y t)^[n] s.mach ∧ ((·.exec Y t)^[n] s).call = s.call := by
  induction n with
  | zero => exact ⟨rfl, rfl⟩
  | succ n ih =>
    rw [iterate_succ_apply', iterate_succ_apply', ← ih.1]
    exact ⟨rfl, ih.2⟩

theorem exec_reachable (h : Reachable Start (Step Y ids) s) (ht : t ∈ ids) :
    ∀ n, Reachable Start (Step Y ids) ((·.exec Y t)^[n] s)
  | 0 => h
  | n + 1 => by
    rw [iterate_succ_apply']
    exact .step (exec_reachable h ht n) (.exec ht)

/-- Tasklet 1 executes its `clr_run zero, 27` between tasklet 0's
`clr_run zero, 27` and `boot zero, 27`, and begins an eleventh round. -/
theorem eleven_rounds : ∃ s v, Reachable Start (Step still {0, 1}) s ∧ s.call 1 = some v ∧
    v.visits .chachaLoop + 10 < s.mach.visits 1 .chachaLoop := by
  obtain ⟨s0, hr0, hcall0, hmade0, hother0⟩ := run_alone (t := 0) (by decide) (fun u hu hne => by
    obtain rfl : u = 1 := by simpa [hne] using hu
    exact fun h => absurd h (by decide)) (bothBegun_reachable (Y := still)) 1008
  have hmade1 := (hother0 1 (by decide)).2
  have hi0 := reachable_inv hr0
  have hcall : s0.call 0 = some (tasklet 0) := congrFun hcall0 0
  have hpc0 := (hi0.tenth (by decide) hcall hmade0).1
  obtain ⟨s1, hr1, hcall1, hmade, hother1⟩ := run_alone (t := 1) (by decide) (fun u hu hne => by
    obtain rfl : u = 0 := by simpa [hne] using hu
    rw [hpc0]
    simp) hr0 1008
  have hi1 := reachable_inv hr1
  have hcall' : s1.call 1 = some (tasklet 1) := congrFun (hcall1.trans hcall0) 1
  obtain ⟨hpc, hvisits⟩ := hi1.tenth (by decide) hcall' (by rw [hmade, hmade1]; rfl)
  have hpc0' : s1.mach.pc 0 = .at .chachaLoop 98 := (hother1 0 (by decide)).1.trans hpc0
  have hstep : still.step 0 (s1.mach.view 0) = still.exec 0 .chachaLoop 98 (.clrRun 27 .nz (.label .loopLt8))
      { s1.mach.view 0 with visits := visit .chachaLoop 98 (s1.mach.view 0).visits } := step_eq hpc0' rfl
  have hview := view_step_other (Y := still) (show (1 : Nat) ≠ 0 by decide) s1.mach
  set w := (s1.exec still 0).mach.view 1 with hw
  have hbits : w.bits = update s1.mach.bits 27 false := congrArg View.bits hstep
  have hw24 : w.bits 24 = true := by
    rw [hbits, update_of_ne (by decide)]
    exact hi1.bits.1
  have hw25 : w.bits 25 = false := by
    rw [hbits, update_of_ne (by decide)]
    exact hi1.bits.2.1
  have hw27 : w.bits 27 = false := by
    rw [hbits, update_self]
  have hwpc : w.pc = .at .chachaLoop 98 := (congrArg View.pc hview).trans hpc
  have hwv : w.visits .chachaLoop = s1.mach.visits 1 .chachaLoop := congrFun (congrArg View.visits hview) _
  have hround := eleventh (Y := still) (t := 1) hwpc hw24 hw25 hw27
  have hreach : Reachable Start (Step still {0, 1}) s1 := hr1.mono fun _ _ => TimelyStep.step
  obtain ⟨hmach, hc⟩ := exec_iterate (s1.exec still 0) 1 5
  refine ⟨_, tasklet 1, exec_reachable (.step hreach (.exec (t := 0) (by decide))) (t := 1) (by decide) 5, ?_, ?_⟩
  · rw [hc]
    exact hcall'
  · have hlast : ((·.exec still 1)^[5] (s1.exec still 0)).mach.visits 1 = ((still.step 1)^[5] w).visits := by
      rw [hmach, hw, ← view_iterate]
      rfl
    rw [hlast, hround, hwv, hvisits]
    exact Nat.lt_succ_self _

end Memclave.Chacha
