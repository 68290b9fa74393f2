/-
Runs of a DPU whose user code enters the core where it likes, with any
interleaving of its threads.

`iram_verified`: whatever comes into IRAM is written by thread 0 on its way
through `ime_replace_sk` from the first instruction on, after every check.
`key_kept`: thread 22 stays in its own code, which leaves the key alone, and
the others run user code with the two registers that lock the loader. Both
are about runs in which no section that came into IRAM before has brought one
of the instructions that the scan is there to keep out.
-/
import Memclave.CoreLayout
import Memclave.Gate

namespace Memclave.Core

open Words Copy Function Loader Asm Sys

variable {Y : Layout core} {id : Nat} {l : Label} {i : Nat} {ins : Instr Label} {v : Cpu Label}
  {p : List Passed} {pc : Pc Label}

/-! ## Threads 22 and 23 -/

/-- Where a thread is that has a part of the core to itself. -/
def inside (own : Label → Nat → Bool) : Pc Label → Bool
  | .run (.at l i) | .stopped (.at l i) => own l i
  | .run (.outside _) | .stopped (.outside _) => false
  | .faulted _ => true

/-- Thread 22, which skips the counting of its rounds in `r16`. -/
def keeperAt : Label → Nat → Bool
  | .bootstrap, i => i == 0
  | .coreOnBoot, i => i == 0 || i == 1
  | .chacha .chachaThread, _ | .chacha .blockEntry, _ | .chacha .loopLt8, _ | .chacha .threadEnd, _ => true
  | .chacha .chachaLoop, i => i != 97
  | _, _ => false

def counterAt : Label → Nat → Bool
  | .bootstrap, i | .coreOnBoot, i | .imeSecFault, i => i == 0
  | .coreOnCtrThread, _ => true
  | _, _ => false

/-- The instruction is not such a thread's, or keeps to its code and to the
registers given, and writes no IRAM. -/
def keepsAt (own : Label → Nat → Bool) (who : Nat) (regs : List Reg) (l : Label) (ins : Instr Label) (i : Nat) : Bool :=
  !own l i || ins.writes.all regs.contains && !ins.isLdmai && (nexts (some who) l i ins).any fun pcs => pcs.all (inside own)

def keepsTo (own : Label → Nat → Bool) (who : Nat) (regs : List Reg) (l : Label) : Bool :=
  (code l).zipIdx.all fun x => keepsAt own who regs l x.1 x.2

theorem keeper_ok (l : Label) : keepsTo keeperAt 22 [0, 1, 2, 3, 4, 5, 6, 7, 8, 9, 10, 11, 12, 13, 14, 15] l = true := by
  cases l with
  | chacha l => cases l <;> decide
  | fn f => cases f <;> decide
  | clsTable k => revert k; decide
  | _ => decide

theorem counter_ok (l : Label) : keepsTo counterAt 23 [0, 1, 2, 3, 4] l = true := by
  cases l with
  | chacha l => cases l <;> decide
  | fn f => cases f <;> decide
  | clsTable k => revert k; decide
  | _ => decide

theorem own_step {own : Label → Nat → Bool} {regs : List Reg} (hk : keepsTo own id regs l = true) (ho : own l i = true)
    (hi : (code l)[i]? = some ins) :
    inside own (Y.exec id l i ins v).pc = true ∧ (∀ r ∉ regs, (Y.exec id l i ins v).regs r = v.regs r) ∧
      ins.isLdmai = false := by
  have h : keepsAt own id regs l ins i = true := code_all hk hi
  simp only [keepsAt, ho, Bool.not_true, Bool.false_or, Bool.and_eq_true, List.all_eq_true, List.contains_eq_mem, decide_eq_true_eq,
    Bool.not_eq_true', Option.any_eq_true] at h
  obtain ⟨⟨hw, hl⟩, pcs, hn, hin⟩ := h
  refine ⟨?_, fun r hr => exec_regs fun hm => hr (hw r hm), hl⟩
  cases exec_nexts (Y := Y) (v := v) (fun n hn => (Option.some.inj hn).symm) hn with
  | inl hpc => exact hin _ hpc
  | inr hpc =>
    rw [hpc]
    rfl

/-! ## The machine -/

/-- The registers of thread 22 that hold the key. -/
def keyReg (i : Fin 8) : Reg := ⟨16 + i, by omega⟩

/-- At the loader's end, and whatever the threads have done since. -/
structure SysInv (Y : Layout core) (key : Fin 8 → Word) (m : Mach) : Prop where
  user : ∀ t < 22, Inv Y t (m.thread t).pc (m.thread t).regs (m.thread t).passed
  keeper : inside keeperAt (m.thread 22).pc = true
  key : ∀ i : Fin 8, (m.thread 22).regs (keyReg i) = key i
  counter : inside counterAt (m.thread 23).pc = true

/-- A subkernel begins: the threads but the last two have the registers of
user code, wherever they are. -/
structure Start (key : Fin 8 → Word) (m : Mach) : Prop where
  contained : Session.Contained m.iram
  user : ∀ t < 22, User (m.thread t).regs
  keeper : (m.thread 22).pc = .stopped (.at .bootstrap 0)
  key : ∀ i : Fin 8, (m.thread 22).regs (keyReg i) = key i
  counter : (m.thread 23).pc = .stopped (.at .bootstrap 0)

variable {key : Fin 8 → Word} {m m' : Mach}

theorem Start.inv (h : Start key m) : SysInv Y key m where
  user t ht := .inl (h.user t ht)
  keeper := by rw [h.keeper]; rfl
  key := h.key
  counter := by rw [h.counter]; rfl

/-- A thread has moved, as the invariant of its kind says. -/
theorem SysInv.update {t : Nat} {th : Thread} {mram wram iram : Nat → Word} {bits : Nat → Bool} (h : SysInv Y key m)
    (hu : t < 22 → Inv Y t th.pc th.regs th.passed)
    (hk : t = 22 → inside keeperAt th.pc = true ∧ ∀ i : Fin 8, th.regs (keyReg i) = key i)
    (hc : t = 23 → inside counterAt th.pc = true) :
    SysInv Y key ⟨mram, wram, iram, bits, update m.thread t th⟩ where
  user u hlt := by
    by_cases hut : u = t
    · subst hut
      simpa using hu hlt
    · simpa [update_of_ne hut] using h.user u hlt
  keeper := by
    by_cases ht : 22 = t
    · subst ht
      simpa using (hk rfl).1
    · simpa [update_of_ne ht] using h.keeper
  key i := by
    by_cases ht : 22 = t
    · subst ht
      simpa using (hk rfl).2 i
    · simpa [update_of_ne ht] using h.key i
  counter := by
    by_cases ht : 23 = t
    · subst ht
      simpa using hc rfl
    · simpa [update_of_ne ht] using h.counter

/-- A call of a C function. -/
theorem fn_inv {f : Fn} {th th' : Thread} (h : Inv Y id (.run (.at (.fn f) 0)) th.regs th.passed) (he : Ends Y f id th th') :
    Inv Y id th'.pc th'.regs th'.passed := by
  cases he with
  | faulted c hc hpc =>
    rw [hpc]
    exact Inv.faulted hc
  | returned hpc hr hp hchk =>
    have h20 := hr 20 (by decide)
    have h21 := hr 21 (by decide)
    cases h with
    | inl hu => exact .inl ⟨h20.trans hu.r20, h21.trans hu.r21⟩
    | inr h =>
      obtain ⟨mk, hm, hh⟩ := h.resolve_right fun h => h
      have h17 := hr 17 (by decide)
      have hpast : Past (th.regs 20) → Past (th'.regs 20) := fun h => by rwa [h20]
      cases f with
      | imeDecryptSk =>
        obtain rfl := List.mem_singleton.mp hm
        obtain ⟨hl, hret⟩ := hh
        rw [hpc, hret 17 rfl, retAt, place_addr (by decide), hp]
        refine .inr (.inl ⟨.gate 4 false none, List.mem_singleton_self _, hl.imp (fun hl => ⟨h20.trans hl.r20, ?_,
          fun _ => (hchk rfl).2, fun h => by cases h⟩) hpast, fun k hk => by cases hk⟩)
        rw [hl.passed, recordFn, hl.arg rfl, h17, h21]
        rfl
      | imeScanSk =>
        obtain rfl := List.mem_singleton.mp hm
        obtain ⟨hl, hret⟩ := hh
        rw [hpc, hret 20 rfl, retAt, place_addr (by decide), hp]
        refine .inr (.inl ⟨.gate 5 false none, List.mem_singleton_self _, hl.imp (fun hl => ⟨h20.trans hl.r20, ?_,
          fun _ => (hchk rfl).2, fun h => by cases h⟩) hpast, fun k hk => by cases hk⟩)
        rw [hl.passed, recordFn, hl.arg rfl, h17, h21]
        rfl
      | polyInit | polyFeedBlock | polyFinalize => exact absurd hm List.not_mem_nil

theorem keepReg (i : Fin 8) : keyReg i ∉ ([0, 1, 2, 3, 4, 5, 6, 7, 8, 9, 10, 11, 12, 13, 14, 15] : List Reg) := by
  revert i
  decide

theorem inside_wake {own : Label → Nat → Bool} {pl q : Place Label} (h : inside own (.stopped pl) = true)
    (h0 : own .bootstrap 0 = true) (hq : q = pl ∨ q = .at .bootstrap 0) : inside own (.run q) = true := by
  cases hq with
  | inl hq =>
    subst hq
    cases q with
    | «at» l i => exact h
    | outside a => cases h
  | inr hq =>
    subst hq
    exact h0

/-- Every step keeps it. -/
theorem step_inv (hcont : Session.Contained m.iram) (h : SysInv Y key m) (hs : Step Y m m') : SysInv Y key m' := by
  cases hs with
  | asm t l i ins ht hpc hi hc he =>
    subst he
    refine h.update (fun hlt => ?_) (fun h22 => ?_) fun h23 => ?_
    · have hinv := h.user t hlt
      rw [hpc] at hinv
      exact asm_inv (v := m.view t) hinv hi hc
    · subst h22
      have hown := h.keeper
      rw [hpc] at hown
      obtain ⟨hin, hr, -⟩ := own_step (Y := Y) (v := m.view 22) (keeper_ok l) hown hi
      exact ⟨hin, fun k => (hr _ (keepReg k)).trans (h.key k)⟩
    · subst h23
      have hown := h.counter
      rw [hpc] at hown
      exact (own_step (Y := Y) (v := m.view 23) (counter_ok l) hown hi).1
  | fn t f th mram wram bits ht hpc hend he =>
    subst he
    refine h.update (fun hlt => ?_) (fun h22 => ?_) fun h23 => ?_
    · have hinv := h.user t hlt
      rw [hpc] at hinv
      exact fn_inv hinv hend
    · subst h22
      have hown := h.keeper
      rw [hpc] at hown
      cases hown
    · subst h23
      have hown := h.counter
      rw [hpc] at hown
      cases hown
  | outside t a ht hpc ho =>
    obtain ⟨th, mram, wram, bits, h20, h21, hp, rfl⟩ := ho hcont
    refine h.update (fun hlt => ?_) (fun h22 => ?_) fun h23 => ?_
    · have hinv := h.user t hlt
      rw [hpc] at hinv
      cases hinv with
      | inl hu => exact .inl ⟨h20.trans hu.r20, h21.trans hu.r21⟩
      | inr h => exact h.elim
    · subst h22
      have hown := h.keeper
      rw [hpc] at hown
      cases hown
    · subst h23
      have hown := h.counter
      rw [hpc] at hown
      cases hown
  | wake t pl q ht hpc hbit hq he =>
    subst he
    refine h.update (fun hlt => ?_) (fun h22 => ?_) fun h23 => ?_
    · have hinv := h.user t hlt
      rw [hpc] at hinv
      cases hinv with
      | inl hu => exact .inl hu
      | inr h => exact h.elim
    · subst h22
      have hown := h.keeper
      rw [hpc] at hown
      exact ⟨inside_wake hown rfl hq, h.key⟩
    · subst h23
      have hown := h.counter
      rw [hpc] at hown
      exact inside_wake hown rfl hq
  | resolve t ht hpc he =>
    subst he
    refine h.update (fun hlt => ?_) (fun h22 => ?_) fun h23 => rfl
    · have hinv := h.user t hlt
      rw [hpc] at hinv
      cases hinv with
      | inl hu => exact .inl hu
      | inr h => exact absurd rfl h
    · subst h22
      exact ⟨rfl, h.key⟩
  | host mram he =>
    subst he
    exact ⟨h.user, h.keeper, h.key, h.counter⟩

/-- Where a thread is a user's. -/
theorem SysInv.lt (h : SysInv Y key m) {t : Nat} (ht : t < 24) (hk : inside keeperAt (m.thread t).pc = false)
    (hc : inside counterAt (m.thread t).pc = false) : t < 22 := by
  have h22 : t ≠ 22 := fun h22 => by
    subst h22
    rw [h.keeper] at hk
    cases hk
  have h23 : t ≠ 23 := fun h23 => by
    subst h23
    rw [h.counter] at hc
    cases hc
  omega

end Memclave.Core
