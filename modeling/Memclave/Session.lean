/-
A DPU from its boot on: one subkernel after the other, each of which may do
what it likes with its memories, or call the loader with whatever it likes,
and in each load whatever stands in MRAM.

`session_contained` says what holds in every state of every such session. All
of it rests on the filter: as long as no instruction of the user's part of
IRAM is one that it is there to keep out, only the loader writes IRAM, and
thread 22 keeps its registers. An instruction is the low 48 bits of its word,
and the scan does not see an `ldmai` or thread control under other bits, so
this is said of sessions whose texts have none. The user's part of IRAM is
what boot left there with the texts of the loads put over it, the latest on
top: what a short text does not cover stays.
-/
import Memclave.Coverage
import Memclave.ScanFacts
import Memclave.Lib.System

namespace Memclave.Session

open Words Exec Copy Loader Sys

/-- The word of instruction `i` of IRAM. -/
def instrAt (iram : Nat → Word) (i : Nat) : BitVec 64 := iram (2 * i + 1) ++ iram (2 * i)

/-- From `__ime_user_start` on, there is no instruction that the scan is there
to keep out, whatever stands above its 48 bits. -/
def Contained (iram : Nat → Word) : Prop := ∀ i, 1024 ≤ i → i < 4096 → ¬ BannedInstr (instr (instrAt iram i))

/-- A call of the loader, in the state it was made in. -/
structure Call where
  st : St
  frames : Frames
  sk : Word
  tag : Word
  key : Word
  wipe : Word

structure Dpu where
  st : St
  fault : Option Fault
  /-- the history: the loads that got through to the jump, the latest first -/
  loads : List Call

variable (c : Crypto)

def Call.run (l : Call) : EStateM.Result Fault St Unit := imeReplaceSk c l.frames l.sk l.tag l.key l.wipe l.st

inductive Step (d d' : Dpu) : Prop
  /-- The subkernel computes, on any of its threads, and the host writes MRAM.
  With one of the instructions it may do anything. -/
  | run (s : St) : d.fault = none → (Contained d.st.iram → s.iram = d.st.iram ∧ s.sysKey = d.st.sysKey) →
      d' = { d with st := s } → Step d d'
  | load (l : Call) (s : St) : d.fault = none → l.st = d.st → l.run c = .ok () s →
      d' = { d with st := s, loads := l :: d.loads } → Step d d'
  | fault (l : Call) (e : Fault) (s : St) : d.fault = none → l.st = d.st → l.run c = .error e s →
      d' = { d with st := s, fault := some e } → Step d d'

/-- After boot. -/
def Init (iram : Nat → Word) (key : Fin 8 → Word) (d : Dpu) : Prop :=
  d.st.iram = iram ∧ d.st.sysKey = key ∧ d.fault = none ∧ d.loads = []

/-! ## What the loads put together -/

/-- The subkernel as the load decrypts it. -/
def Call.plain (l : Call) : Nat → Word := plainMram c l.frames l.sk l.key l.wipe l.st

def Call.header (l : Call) : Header := headerAt (l.plain c) (mramAt l.sk)

/-- Its text, over what is in IRAM. -/
def Call.install (l : Call) (iram : Nat → Word) : Nat → Word :=
  blit iram 2048 (l.plain c) (mramAt l.sk + 16) (512 * (l.header c).textSize.toNat)

/-- The key the call asks for: the DPU's own, or the one at the pointer. -/
def Call.keyOf (l : Call) (sysKey : Fin 8 → Word) : Fin 8 → Word :=
  if l.key ≠ 0 then fun i => (atVerify l.frames l.sk l.wipe l.st).wram (l.key.toNat / 4 + i) else sysKey

/-- None of its instructions is an `ldmai` or thread control, so that the scan
decides on its words as on the instructions in them. -/
def Call.NothingHidden (l : Call) : Prop :=
  ∀ x ∈ textAt (l.plain c) (mramAt l.sk) (textLen (l.plain c) (mramAt l.sk)), Plain (instr x)

/-- The image that was pushed has the tag of its content under the key asked
for, its text passes the scan and has its place in IRAM. -/
structure Call.Verified (l : Call) (sysKey : Fin 8 → Word) : Prop where
  mac : macOf c (l.keyOf sysKey) (copySk l.st.mram l.sk scratchA) (mramAt l.sk) =
    (headerAt (copySk l.st.mram l.sk scratchA) (mramAt l.sk)).tag
  clean : ∀ x ∈ textAt (l.plain c) (mramAt l.sk) (textLen (l.plain c) (mramAt l.sk)), banned x = false
  fits : (l.header c).textSize.toNat ≤ 12

/-! ## The invariant -/

variable {c} {iram : Nat → Word} {key : Fin 8 → Word} {d d' : Dpu}

structure Inv (c : Crypto) (iram : Nat → Word) (key : Fin 8 → Word) (d : Dpu) : Prop where
  contained : Contained d.st.iram
  sysKey : d.st.sysKey = key
  installed : d.st.iram = d.loads.foldr (fun l i => l.install c i) iram
  verified : ∀ l ∈ d.loads, l.Verified c key

theorem Call.Verified.not_banned {l : Call} {sysKey : Fin 8 → Word} (hv : l.Verified c sysKey) (hn : l.NothingHidden c)
    {x : BitVec 64} (hx : x ∈ textAt (l.plain c) (mramAt l.sk) (textLen (l.plain c) (mramAt l.sk))) :
    ¬ BannedInstr (instr x) := by
  rw [(hn x hx).bannedInstr_iff, hv.clean x hx]
  exact Bool.false_ne_true

theorem textSize_le {m : Nat → Word} {sk : Word} (h : IramOk m sk) : (headerAt m (mramAt sk)).textSize.toNat ≤ 12 := by
  have hu : wramAt userStart = 2048 := by decide
  have hI : iramWords = 2 ^ 13 := rfl
  have := (h.text h.lo).2
  omega

/-- A text that passes the scan, and hides nothing from it, keeps IRAM contained. -/
theorem Contained.install {l : Call} {sysKey : Fin 8 → Word} (h : Contained iram) (hv : l.Verified c sysKey)
    (hn : l.NothingHidden c) : Contained (l.install c iram) := by
  intro i h1 h2
  by_cases hi : i < 1024 + 256 * (l.header c).textSize.toNat
  · have hat : ∀ k, 2048 ≤ k → k < 2048 + 512 * (l.header c).textSize.toNat →
        l.install c iram k = l.plain c (mramAt l.sk + 16 + (k - 2048)) := fun k hk hk' => blit_in hk hk'
    have hinst : instrAt (l.install c iram) i = instAt (l.plain c) (mramAt l.sk) (i - 1024) := by
      rw [instrAt, hat _ (by omega) (by omega), hat _ (by omega) (by omega), instAt, Nat.add_assoc (mramAt l.sk + 16),
        show 2 * i + 1 - 2048 = 2 * (i - 1024) + 1 by omega, show 2 * i - 2048 = 2 * (i - 1024) by omega]
    rw [hinst]
    refine hv.not_banned hn (List.mem_map_of_mem (List.mem_range.mpr ?_))
    show i - 1024 < (l.header c).textSize.toNat * 256
    omega
  · have hout : ∀ k, 2 * i ≤ k → l.install c iram k = iram k := fun k hk => blit_out (.inr (by omega))
    rw [instrAt, hout _ (by omega), hout _ le_rfl]
    exact h i h1 h2

/-- What a load does that gets through. -/
theorem run_ok {l : Call} {s : St} (hrun : l.run c = .ok () s) :
    s.iram = l.install c l.st.iram ∧ s.sysKey = l.st.sysKey ∧ l.Verified c l.st.sysKey := by
  obtain ⟨hok, w, hw, rfl⟩ := (imeReplaceSk_spec c l.frames l.sk l.tag l.key l.wipe l.st).ok hrun
  have hu : wramAt userStart = 2048 := by decide
  refine ⟨?_, rfl, ?_, hok.scan.clean, textSize_le hok.iram⟩
  · rw [Call.install, ← hu]
    rfl
  · exact hok.decrypt.mac

theorem step_inv (h : d.fault = none → (∀ l ∈ d.loads, l.NothingHidden c) → Inv c iram key d) (hs : Step c d d') :
    d'.fault = none → (∀ l ∈ d'.loads, l.NothingHidden c) → Inv c iram key d' := by
  intro hf hn
  cases hs with
  | run s h0 hfree he =>
    subst he
    have hi := h h0 hn
    obtain ⟨hiram, hkey⟩ := hfree hi.contained
    refine ⟨?_, hkey.trans hi.sysKey, hiram.trans hi.installed, hi.verified⟩
    show Contained s.iram
    rw [hiram]
    exact hi.contained
  | load l s h0 hst hrun he =>
    subst he
    have hi := h h0 fun l' hl' => hn l' (List.mem_cons_of_mem l hl')
    obtain ⟨hiram, hkey, hv⟩ := run_ok hrun
    rw [hst] at hiram hkey hv
    rw [hi.sysKey] at hkey hv
    refine ⟨?_, hkey, ?_, fun l' hl' => ?_⟩
    · show Contained s.iram
      rw [hiram]
      exact hi.contained.install hv (hn l List.mem_cons_self)
    · show s.iram = l.install c (d.loads.foldr _ iram)
      rw [hiram, hi.installed]
    · cases List.mem_cons.mp hl' with
      | inl h => rwa [h]
      | inr h => exact hi.verified l' h
  | fault l e s h0 hst hrun he =>
    subst he
    cases hf

/-- A DPU whose IRAM is clear, with a subkernel at 0. -/
def booted : Dpu := ⟨textImage 0 2112 2112, none, []⟩

end Memclave.Session
