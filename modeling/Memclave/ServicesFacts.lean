/-
What one subkernel of the system makes of the memories until the next one runs
(`leave_system`), stage by stage for the exchange, and for `msg`.
-/
import Memclave.Services
import Memclave.Image
import Memclave.RuntimeAead
import Memclave.Lib.DiffieHellman

namespace Memclave.Services

open Words Copy Loader

variable {c : Crypto} {x : External} {f : Frames} {s s' : St} {left : Nat → Word} {m m' : Nat → Word} {key : Fin 8 → Word}
  {persist sk : Word} {n : Nat}

/-! ## Arrays and single words -/

theorem put_at {d : Nat} {v : Fin n → Word} (i : Fin n) : put m d v (d + i) = v i := by
  rw [put, dif_pos ⟨Nat.le_add_right .., by omega⟩]
  congr 1
  exact Fin.ext (Nat.add_sub_cancel_left ..)

theorem put_out {d k : Nat} {v : Fin n → Word} (h : k < d ∨ d + n ≤ k) : put m d v k = m k := dif_neg (by omega)

/-- An array read back. -/
theorem cells_put {d : Nat} {v : Fin n → Word} : cells (put m d v) d n = List.ofFn v := by
  refine List.ext_getElem (by rw [cells_length, List.length_ofFn]) fun i h1 h2 => ?_
  rw [cells_length] at h1
  rw [cells_getElem, List.getElem_ofFn]
  exact put_at ⟨i, h1⟩

theorem wipeKeyLoop_eq {r0 k : Nat} {w : Nat → Word} :
    wipeKeyLoop r0 w n k = if r0 ≤ k ∧ k < r0 + n then 0 else w k := by
  induction n generalizing r0 w with
  | zero => rw [wipeKeyLoop, if_neg (by omega)]
  | succ n ih =>
    rw [wipeKeyLoop, ih]
    by_cases h : k = r0
    · rw [h, if_neg (by omega), if_pos (by omega), Function.update_self]
    · rw [Function.update_of_ne h]
      exact if_congr (by omega) rfl rfl

/-! ## The places of the system -/

/-- The words of the four subkernels. -/
def systemStart : Nat := mramAt imeMsgSk

/-- The four subkernels lie where the linker has them. -/
def SystemImages (c : Crypto) (key : Fin 8 → Word) (m : Nat → Word) : Prop :=
  ∀ sk ∈ [imeMsgSk, imeXchgSk1, imeXchgSk2, imeXchgSk3], Resident c key m sk 32768

/-- They lie in the part of MRAM that is the system's. -/
theorem system_place (h : sk ∈ [imeMsgSk, imeXchgSk1, imeXchgSk2, imeXchgSk3]) : systemStart ≤ mramAt sk := by
  simp only [List.mem_cons, List.not_mem_nil, or_false] at h
  rcases h with rfl | rfl | rfl | rfl <;> decide

theorem SystemImages.frame (h : SystemImages c key m) (hm : ∀ k, systemStart ≤ k → k < slot → m' k = m k) :
    SystemImages c key m' := fun sk hsk => by
  have hp := system_place hsk
  have hb := (h sk hsk).below
  exact (h sk hsk).frame fun k h1 h2 => hm k (by omega) (by omega)

/-- The subkernels are there, and nobody is in the way of a load. -/
structure Ready (c : Crypto) (s : St) : Prop where
  images : SystemImages c s.sysKey s.mram
  quiet : Quiet s

/-- Nothing but a write to the system's place changes that. -/
theorem Ready.write {w : Nat → Word} (h : Ready c s) (hm : ∀ k, systemStart ≤ k → k < slot → m k = s.mram k) :
    Ready c { s with mram := m, wram := w } :=
  ⟨h.images.frame hm, h.quiet.threads, h.quiet.id, h.quiet.cipher⟩

theorem Ready.wipeKeys (h : Ready c s) : Ready c (wipeKeys s) := h.write fun _ _ _ => rfl

/-! ## The way to the next subkernel -/

/-- `__ime_persist_start`, of `msg` or of the stages. -/
def IsPersist (persist : Word) : Prop := persist = msgPersist ∨ persist = xchgPersist

theorem IsPersist.wiped (h : IsPersist persist) : WipeOk persist ∧ wiped persist = persist.toNat / 4 ∧
    15872 ≤ persist.toNat / 4 := by
  cases h with
  | inl h =>
    rw [h]
    exact ⟨.inr (by decide), by decide, by decide⟩
  | inr h =>
    rw [h]
    exact ⟨.inr (by decide), by decide, by decide⟩

/-- What the next subkernel finds: MRAM as it was but for the slot, and of
WRAM the area that persists. -/
structure Next (persist : Word) (s s' : St) : Prop where
  mram : ∀ k, k < slot ∨ slot + 32768 ≤ k → s'.mram k = s.mram k
  kept : ∀ k, persist.toNat / 4 ≤ k → k < 0x3FF0 → s'.wram k = s.wram k
  sysKey : s'.sysKey = s.sysKey
  quiet : Quiet s'

theorem Next.ready (h : Next persist s s') (hr : Ready c s) : Ready c s' := by
  refine ⟨?_, h.quiet⟩
  rw [h.sysKey]
  exact hr.images.frame fun k _ hk => h.mram k (.inl hk)

/-- **The load of a subkernel of the system.** -/
theorem leave_system (f : Frames) (left : Nat → Word) (hsk : sk ∈ [imeMsgSk, imeXchgSk1, imeXchgSk2, imeXchgSk3])
    (hr : Ready c s) (hp : IsPersist persist) :
    ∃ s', leave c f persist left (.replace s sk 0 0) = some s' ∧ Next persist s s' := by
  obtain ⟨hw, hwiped, hp⟩ := hp.wiped
  have himg : Resident c (dirty persist left s).sysKey (dirty persist left s).mram sk 32768 := hr.images sk hsk
  obtain ⟨s', hrun, hho, hm, hk, hq⟩ := himg.loads ⟨hr.quiet.threads, hr.quiet.id, hr.quiet.cipher⟩ hw f
  have hsize := himg.header.size_le
  have hdata := himg.header.data_le
  refine ⟨s', by rw [leave, hrun, jumped], fun k hout => ?_, fun k h1 h2 => ?_, hk, hq⟩
  · rw [hm, blit_out (by omega)]
    rfl
  · rw [hho.persists (by omega) (by omega) (by omega) h2]
    exact if_neg (by omega)

/-- **The return from `main`.** -/
theorem leave_ret (f : Frames) (left : Nat → Word) (hr : Ready c s) (hp : IsPersist persist) :
    ∃ s', leave c f persist left (.ret s) = some s' ∧ Next persist (wipeKeys s) s' :=
  leave_system f left List.mem_cons_self hr.wipeKeys hp

theorem wipeKeys_wram {k : Nat} : (wipeKeys s).wram k = if loadPropTag ≤ k ∧ k < loadPropTag + 12 then 0 else s.wram k :=
  wipeKeyLoop_eq

/-- Which leaves nothing in `g_load_prop`. -/
theorem Next.prop_zero (h : Next persist (wipeKeys s) s') (hp : IsPersist persist) {k : Nat} (h1 : loadPropTag ≤ k)
    (h2 : k < loadPropTag + 12) : s'.wram k = 0 := by
  have hle : persist.toNat / 4 ≤ loadPropTag := by
    cases hp with
    | inl hp => rw [hp]; decide
    | inr hp => rw [hp]; decide
  have hend : loadPropTag + 12 = 0x3FF0 := rfl
  rw [h.kept k (by omega) (by omega), wipeKeys_wram]
  exact if_pos ⟨h1, h2⟩

/-- And so no key. -/
theorem Next.key_zero (h : Next persist (wipeKeys s) s') (hp : IsPersist persist) :
    cells s'.wram loadPropKey 8 = List.replicate 8 0 := by
  have hat : loadPropKey = loadPropTag + 4 := rfl
  rw [cells_congr (m := fun _ => 0) fun k h1 h2 => h.prop_zero hp (by omega) (by omega)]
  rfl

/-! ## A system to start from -/

theorem resident_zeroImage (sk : Word) (hsk : mramAt sk + 32768 ≤ slot) :
    Resident core (fun _ => 0) (zeroImage sk 2112 2112 1 0).mram sk 32768 := by
  have hh := @zeroImage_header sk 2112 2112 1 0
  refine ⟨hsk, le_rfl, ?_, ?_, fun y hy => ?_⟩
  · rw [hh]
    constructor <;> dsimp only <;> decide
  · refine macOf_seal ?_
    rw [headerAt_image]
    decide
  · obtain ⟨i, -, rfl⟩ := List.mem_map.mp hy
    rw [instAt, zeroImage_body (by omega), zeroImage_body (by omega)]
    decide

/-- MRAM with an empty subkernel in each of the four places. -/
def systemMram (k : Nat) : Word :=
  if k < mramAt imeXchgSk1 then (zeroImage imeMsgSk 2112 2112 1 0).mram k
  else if k < mramAt imeXchgSk2 then (zeroImage imeXchgSk1 2112 2112 1 0).mram k
  else if k < mramAt imeXchgSk3 then (zeroImage imeXchgSk2 2112 2112 1 0).mram k
  else (zeroImage imeXchgSk3 2112 2112 1 0).mram k

/-- The places are apart. -/
theorem systemMram_at (hsk : sk ∈ [imeMsgSk, imeXchgSk1, imeXchgSk2, imeXchgSk3]) {k : Nat} (h1 : mramAt sk ≤ k)
    (h2 : k < mramAt sk + 32768) : systemMram k = (zeroImage sk 2112 2112 1 0).mram k := by
  have h12 : mramAt imeXchgSk1 ≤ mramAt imeXchgSk2 := by decide
  have h23 : mramAt imeXchgSk2 ≤ mramAt imeXchgSk3 := by decide
  simp only [List.mem_cons, List.not_mem_nil, or_false] at hsk
  obtain rfl | rfl | rfl | rfl := hsk
  · exact if_pos h2
  · rw [systemMram, if_neg (Nat.not_lt.mpr h1), if_pos (show k < mramAt imeXchgSk2 from h2)]
  · rw [systemMram, if_neg (Nat.not_lt.mpr (h12.trans h1)), if_neg (Nat.not_lt.mpr h1),
      if_pos (show k < mramAt imeXchgSk3 from h2)]
  · rw [systemMram, if_neg (Nat.not_lt.mpr ((h12.trans h23).trans h1)), if_neg (Nat.not_lt.mpr (h23.trans h1)),
      if_neg (Nat.not_lt.mpr h1)]

theorem system_below (hsk : sk ∈ [imeMsgSk, imeXchgSk1, imeXchgSk2, imeXchgSk3]) : mramAt sk + 32768 ≤ slot := by
  have hslot : slot = mramAt imeXchgSk3 + 32768 := by
    unfold slot
    decide
  simp only [List.mem_cons, List.not_mem_nil, or_false] at hsk
  rw [hslot]
  obtain rfl | rfl | rfl | rfl := hsk <;> decide

theorem systemMram_images : SystemImages core (fun _ => 0) systemMram := fun sk hsk =>
  (resident_zeroImage sk (system_below hsk)).frame fun _ h1 h2 => systemMram_at hsk h1 h2

theorem systemMram_ready : Ready core (started systemMram) :=
  ⟨systemMram_images, not_threadRuns_started, rfl, rfl⟩

end Memclave.Services
