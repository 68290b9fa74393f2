/-
A call of the system key by thread 0 and thread 22, in any order of their
instructions, and a user's call.

As long as neither thread loses what it has in word 0 (`Heeds`), the caller
returns to the block of RFC 8439 and to word 0 as it was (`paths_agree`).
Otherwise it may not (`overlaid_lost`).
-/
import Memclave.ChachaPair

namespace Memclave.Chacha

open Words Isa Function Copy Loader Sys

variable {Y : Board chachaS} {r : Reg → Word} {m : Nat → Word} {s0 : Mach Label} {p p' : Pair} {z r21 : Word} {n k : Nat}

/-! ## Runs -/

/-- What the two threads come to in a run that heeds. -/
inductive Called (Y : Board chachaS) (s0 : Mach Label) (m : Nat → Word) (n : Nat) (p : Pair) : Prop
  | before {k : Nat} : Before Y s0 k p → Called Y s0 m n p
  | after {z : Word} {k : Nat} : After Y s0 m z n k p → Called Y s0 m n p

theorem Called.step (h : Called Y s0 m n p) (hc : SysCall s0) (hl : Lays Y s0 r m) (hn : Spills Y n)
    (hs : HeedingStep Y p p') : Called Y s0 m n p' := by
  obtain ⟨t, ht, hheeds, rfl⟩ := hs
  obtain rfl | rfl : t = 0 ∨ t = 22 := by simpa using ht
  · cases h with
    | @before k h =>
      rcases Nat.lt_or_ge k 11 with hk | hk
      · exact .before (h.thread0 hk)
      · obtain rfl : k = 11 := Nat.le_antisymm h.le hk
        exact .after (h.boot hc hl hn)
    | after h => exact .after (h.thread0 hc hheeds)
  · cases h with
    | before h => exact .before (h.thread22 hc hl)
    | after h =>
      obtain ⟨z', h'⟩ := h.thread22 hc hl hn hheeds
      exact .after h'

theorem SysCall.called (hc : SysCall s0) (hl : Lays Y s0 r m) (hn : Spills Y n)
    (hs : Relation.ReflTransGen (HeedingStep Y) ⟨s0, false, false⟩ p) : Called Y s0 m n p := by
  induction hs with
  | refl => exact .before (k := 0) ⟨by omega, rfl, hc.stopped, rfl, rfl, rfl, rfl⟩
  | tail _ h ih => exact ih.step hc hl hn h

/-! ## The return -/

theorem sysBlock_zero (r : Reg → Word) (m : Nat → Word) (z : Word) : sysBlock r (update m 0 z) = sysBlock r m := by
  have hw : wordOf threadioStart = 16368 := by decide
  simp only [sysBlock]
  rw [update_of_ne (by omega), update_of_ne (by omega), update_of_ne (by omega), update_of_ne (by omega)]

/-- A caller that has returned finds what thread 22 leaves, and word 0. -/
theorem After.returned (h : After Y s0 m z n k p) (hc : SysCall s0) (hpc : p.mach.pc 0 = .returned) :
    SysFinal (s0.regs 22) m (s0.visits 22 .chachaLoop) (s0.regs 0 5) (p.mach.view 22) ∧ p.mach.wram 0 = s0.wram 0 := by
  have hlowered : p.mach.wram flagWord = 0 := by
    have hview : (p.mach.view 0).pc = .returned := hpc
    cases h.caller.stands with
    | returned _ hflag => exact hflag
    | call h | check _ h | poll h | polled h | lowered h => rw [hview] at h; cases h
  have hk : n + 40 < k := by
    by_contra hle
    have hflag := h.flag
    rw [if_pos (by omega), hlowered] at hflag
    exact absurd hflag (by decide)
  obtain ⟨hrounds, hblock, hsettled⟩ := (h.script.ends hc.out k hk).final
  obtain ⟨⟨-, -, hvisits, hwram⟩, hbits⟩ := h.near
  refine ⟨⟨(congrFun hvisits _).trans hrounds, fun i => ?_, hbits ▸ hsettled⟩, ?_⟩
  · have hpos := hc.out.pos
    rw [hwram _ (by omega), hblock, sysBlock_zero]
  · rcases h.zero.word with hx | hx | ⟨h3, -⟩
    · rwa [if_neg (by omega)] at hx
    · omega
    · rw [hpc] at h3
      cases h3

theorem Called.returned (h : Called Y s0 m n p) (hc : SysCall s0) (hl : Lays Y s0 r m) (hpc : p.mach.pc 0 = .returned) :
    SysFinal (s0.regs 22) m (s0.visits 22 .chachaLoop) (s0.regs 0 5) (p.mach.view 22) ∧ p.mach.wram 0 = s0.wram 0 := by
  cases h with
  | @before k h =>
    -- the caller is still on its way to the boot
    have hcaller : ((Y.step 0)^[k] (s0.view 0)).pc = .returned := (congrArg View.pc h.caller).symm.trans hpc
    rcases Nat.lt_or_ge k 11 with hk | hk
    · obtain ⟨l, i, ins, hgood, -⟩ := hl.run.good k hk
      rw [hgood] at hcaller
      cases hcaller
    · obtain rfl : k = 11 := Nat.le_antisymm h.le hk
      rw [hl.run.ends] at hcaller
      cases hcaller
  | after h => exact h.returned hc hpc

/-! ## A way to the return -/

theorem holds_waits {pc : Pc Label} (h : holds pc = true) : waits pc = false := by
  cases pc with
  | «at» l i => cases l <;> first | rfl | cases h
  | _ => cases h

/-- Some instruction heeds and leads nearer to the return: thread 22's, but
where thread 0 holds a word of its. -/
theorem After.nearer (h : After Y s0 m z n k p) (hc : SysCall s0) (hl : Lays Y s0 r m) (hn : Spills Y n)
    (hpc : p.mach.pc 0 ≠ .returned) : ∃ p' z' k', HeedingStep Y p p' ∧ After Y s0 m z' n k' p' ∧
      left (p'.mach.regs 0 0) (p'.mach.pc 0) + (n + 41 - k') < left (p.mach.regs 0 0) (p.mach.pc 0) + (n + 41 - k) := by
  have hle := h.script.le
  have hst := h.stage hc
  by_cases h22 : k ≤ n + 40 ∧ (holds (p.mach.pc 0) = true → p.foreign = false)
  · obtain ⟨hk, hf⟩ := h22
    have hheeds : Heeds p 22 := ⟨(nomatch ·), (nomatch ·), fun _ _ h3 => hf (h3 ▸ rfl), fun _ _ hh => hf hh⟩
    obtain ⟨z', h'⟩ := h.thread22 hc hl hn hheeds
    have hpc' : (p.next Y 22).mach.pc 0 = p.mach.pc 0 := step_pc_other (by decide) p.mach
    have hregs : (p.next Y 22).mach.regs 0 = p.mach.regs 0 := step_regs_other (by decide) p.mach
    refine ⟨_, z', k + 1, ⟨22, by simp, hheeds, rfl⟩, h', ?_⟩
    rw [hpc', hregs]
    omega
  · have hheld : k ≤ n + 40 → holds (p.mach.pc 0) = true ∧ p.foreign = true := fun hk => by simpa [hk] using h22
    have hheeds : Heeds p 0 := by
      refine ⟨fun _ _ hu => ?_, fun _ _ => ?_, (nomatch ·), (nomatch ·)⟩
      · rw [hst, unread_stageAt hle] at hu
        exact (hheld (by omega)).2
      · by_contra ho
        obtain ⟨-, hk, -, hf⟩ := h.zero.lost (by simpa using ho)
        rw [(hheld (by omega)).2] at hf
        cases hf
    have hpc' : (p.next Y 0).mach.pc 0 = (Y.step 0 (p.mach.view 0)).pc := step_pc Y 0 p.mach
    have hregs : (p.next Y 0).mach.regs 0 = (Y.step 0 (p.mach.view 0)).regs := step_regs Y 0 p.mach
    refine ⟨_, z, k, ⟨0, by simp, hheeds, rfl⟩, h.thread0 hc hheeds, Nat.add_lt_add_right ?_ _⟩
    rw [hpc', hregs]
    refine (h.caller.step hc.system).closer hpc fun hw => h.flag.trans (if_neg fun hk => ?_)
    exact absurd ((holds_waits (hheld hk).1).symm.trans hw) (by decide)

theorem After.finishes (h : After Y s0 m z n k p) (hc : SysCall s0) (hl : Lays Y s0 r m) (hn : Spills Y n) :
    ∃ p', Relation.ReflTransGen (HeedingStep Y) p p' ∧ p'.mach.pc 0 = .returned := by
  obtain ⟨-, p', hrun, -, hpc⟩ := leads_to_at (HeedingStep Y) (fun k p => ∃ z, After Y s0 m z n k p)
    (fun _ p => p.mach.pc 0 = .returned) (fun k p => left (p.mach.regs 0 0) (p.mach.pc 0) + (n + 41 - k))
    (fun k p ha hpc => by
      obtain ⟨z, ha⟩ := ha
      obtain ⟨p', z', k', hs, h', hlt⟩ := ha.nearer hc hl hn hpc
      exact ⟨k', p', hs, ⟨z', h'⟩, hlt⟩) ⟨z, h⟩
  exact ⟨p', hrun, hpc⟩

theorem Before.to_boot (h : Before Y s0 k p) (hc : SysCall s0) (hl : Lays Y s0 r m) (hn : Spills Y n) :
    ∃ p', Relation.ReflTransGen (HeedingStep Y) p p' ∧ After Y s0 m (s0.wram 0) n 0 p' := by
  have hheeds : ∀ {k p}, Before Y s0 k p → HeedingStep Y p (p.next Y 0) := fun h => by
    refine ⟨0, by simp, ⟨fun _ _ hu => ?_, fun _ _ => h.overlaid, (nomatch ·), (nomatch ·)⟩, rfl⟩
    rw [h.stopped] at hu
    cases hu
  obtain ⟨_, p', hrun, hb, rfl⟩ := leads_to_at (HeedingStep Y) (Before Y s0) (fun k _ => k = 11) (fun k _ => 11 - k)
    (fun k p hb hk => by
      have hlt : k < 11 := Nat.lt_of_le_of_ne hb.le hk
      exact ⟨k + 1, p.next Y 0, hheeds hb, hb.thread0 hlt, by omega⟩) h
  exact ⟨_, hrun.tail (hheeds hb), hb.boot hc hl hn⟩

theorem Called.finishes (h : Called Y s0 m n p) (hc : SysCall s0) (hl : Lays Y s0 r m) (hn : Spills Y n) :
    ∃ p', Relation.ReflTransGen (HeedingStep Y) p p' ∧ p'.mach.pc 0 = .returned := by
  cases h with
  | before h =>
    obtain ⟨p1, hrun, h1⟩ := h.to_boot hc hl hn
    obtain ⟨p2, hrun', hpc⟩ := h1.finishes hc hl hn
    exact ⟨p2, hrun.trans hrun', hpc⟩
  | after h => exact h.finishes hc hl hn

/-! ## Without heed -/

/-- The caller's run to its `sw` in the check, with what the DMA put in word
0. -/
theorem Lays.dma (hl : Lays Y s0 r m) (hc : SysCall s0) : ∃ m', ((∀ j, 2 ≤ j → m' j = m j) ∧
      m' 0 = Y.mram (mramAt (s0.regs 0 21))) ∧
    (Y.step 0)^[16] (s0.view 0) = ⟨.at .checkSystem 3, update (update (update r 0 (Y.link .sysKey 10)) 1 (m 0)) 2 (m 1), m',
      update s0.bits 22 true, visit .checkSystem 0 (visit .sysKey 0 (visit .chachaBlk 0 (s0.visits 0)))⟩ := by
  have h3 : (Y.step 0)^[3] ((Y.step 0)^[12] (s0.view 0)) = ⟨.at .checkSystem 2,
      update (update (update r 0 (Y.link .sysKey 10)) 1 (m (wordAt 0 0))) 2 (m (wordAt 0 4)), m, update s0.bits 22 true,
      visit .checkSystem 0 (visit .sysKey 0 (visit .chachaBlk 0 (s0.visits 0)))⟩ := by
    rw [iterate_succ_apply' (Y.step 0) 11, hl.boot hc.off]
    rfl
  rw [wordAt_zero, wordAt_four, ← iterate_add_apply] at h3
  refine ⟨blit m 0 Y.mram (mramAt (r 21)) 2, ⟨fun j hj => blit_out (.inr hj), ?_⟩, ?_⟩
  · rw [blit_in (by omega) (by omega), hl.mode]
    rfl
  · have hm : InMram (r 21) 2 := hl.mode ▸ hc.system
    rw [iterate_succ_apply' (Y.step 0) 15, h3, step_dma rfl hm]
    rfl

/-- Thread 22 after `k` instructions of its own, the last ones alone, while
the caller waits. It has kept what `m` has in word 0. -/
structure Undisturbed (Y : Board chachaS) (s0 : Mach Label) (m : Nat → Word) (n k : Nat) (s : Mach Label) : Prop where
  near : Near (s.view 22) (alone Y (s0.regs 22) m s0.bits (s0.visits 22) k)
  own : n < k → k ≤ n + 10 → s.wram 0 = (alone Y (s0.regs 22) m s0.bits (s0.visits 22) n).regs 0
  kept : n + 10 < k → s.wram 0 = m 0
  lowered : n + 40 < k → s.wram flagWord = 0
  caller : Caller Y (s0.regs 0 21) (s.view 0)
  waits : waits (s.pc 0) = true

variable {s : Mach Label} {out : Word}

theorem Undisturbed.step (h : Undisturbed Y s0 m n k s) (hs : Script Y (s0.regs 22) m s0.bits (s0.visits 22) out n)
    (ho : SysOut out) (h6 : 6 ≤ k) (hk : k ≤ n + 40) : Undisturbed Y s0 m n (k + 1) (s.step Y 22) := by
  have hle := hs.le
  have hv : (s.step Y 22).view 22 = Y.step 22 (s.view 22) := view_step Y 22 s
  have hpc : (s.step Y 22).pc 0 = s.pc 0 := step_pc_other (by decide) s
  have hregs : (s.step Y 22).regs 0 = s.regs 0 := step_regs_other (by decide) s
  have hwram : (s.step Y 22).wram = (Y.step 22 (s.view 22)).wram := rfl
  have hcaller : (s.wram flagWord = 0 → (Y.step 22 (s.view 22)).wram flagWord = 0) →
      Caller Y (s0.regs 0 21) ((s.step Y 22).view 0) := fun hf => h.caller.keep hpc hregs hf
  rcases Nat.lt_or_eq_of_le hk with hk | rfl
  · obtain ⟨hnear, hzero, hflag⟩ := hs.step h.near hk (by omega) fun h6 => h.own (by omega) (by omega)
    refine ⟨hv ▸ hnear, fun h1 h2 => ?_, fun h1 => ?_, fun h1 => by omega, hcaller hflag.trans, hpc ▸ h.waits⟩
    · rw [hwram, hzero]
      split
      · rfl
      · rw [if_neg (by omega)]
        exact h.own (by omega) (by omega)
    · rw [hwram, hzero, if_neg (by omega)]
      split
      · rfl
      · exact h.kept (by omega)
  · obtain ⟨hnear, hzero, hflag⟩ := hs.step_ends ho h.near le_rfl
    rw [if_pos rfl] at hflag
    refine ⟨hv ▸ hnear, fun h1 h2 => by omega, fun h1 => ?_, fun _ => ?_, hcaller fun _ => hflag, hpc ▸ h.waits⟩
    · rw [hwram, hzero]
      exact h.kept (by omega)
    · rw [hwram, hflag]

theorem Undisturbed.runs (h : Undisturbed Y s0 m n 6 s) (hs : Script Y (s0.regs 22) m s0.bits (s0.visits 22) out n)
    (ho : SysOut out) : ∃ s', Relation.ReflTransGen (SysStep Y) s s' ∧ Undisturbed Y s0 m n (n + 41) s' := by
  obtain ⟨_, s', hrun, ⟨-, -, h'⟩, rfl⟩ := leads_to_at (SysStep Y)
    (fun k s => 6 ≤ k ∧ k ≤ n + 41 ∧ Undisturbed Y s0 m n k s) (fun k _ => k = n + 41) (fun k _ => n + 41 - k)
    (fun k s hu hk => by
      obtain ⟨h6, hle, hu⟩ := hu
      exact ⟨k + 1, s.step Y 22, ⟨22, by simp, rfl⟩, ⟨by omega, by omega, hu.step hs ho h6 (by omega)⟩, by omega⟩)
    ⟨le_rfl, by omega, h⟩
  exact ⟨s', hrun, h'⟩

/-- The caller goes on to the wait loop, while thread 22 stands. -/
theorem Caller.comes {w : View Label} (h : Caller Y r21 (s.view 0)) (hm : InMram r21 2) (hn : Near (s.view 22) w) :
    ∃ s', Relation.ReflTransGen (SysStep Y) s s' ∧ (Caller Y r21 (s'.view 0) ∧ Near (s'.view 22) w) ∧
      waits (s'.pc 0) = true := by
  refine leads_to (SysStep Y) (fun s => Caller Y r21 (s.view 0) ∧ Near (s.view 22) w) (fun s => waits (s.pc 0) = true)
    (fun s => left (s.regs 0 0) (s.pc 0)) (fun s hs hwaits => ?_) ⟨h, hn⟩
  obtain ⟨hcaller, hn⟩ := hs
  have hstep := hcaller.step hm
  refine ⟨s.step Y 0, ⟨0, by simp, rfl⟩, ⟨view_step Y 0 s ▸ hstep.caller, hstep.near hn⟩, ?_⟩
  rw [step_pc, step_regs]
  refine hstep.closer (fun hpc => hwaits ?_) fun hw => absurd hw hwaits
  rw [show s.pc 0 = _ from hpc]
  rfl

theorem left_waits {r0 : Word} {pc : Pc Label} (h : waits pc = true) : left r0 pc ≤ 4 := by
  match pc with
  | .at .waitLoop 0 => exact Nat.le_succ 3
  | .at .waitLoop 1 =>
    simp only [left]
    split <;> omega
  | .at .waitLoop (_ + 2) => exact Nat.le_add_left 1 3
  | .returned => exact Nat.zero_le 4

/-- Once the flag is lowered it returns, with word 0 left as it is. -/
theorem Caller.returns (h : Caller Y r21 (s.view 0)) (hm : InMram r21 2) (hwaits : waits (s.pc 0) = true)
    (hflag : s.wram flagWord = 0) :
    ∃ s', Relation.ReflTransGen (SysStep Y) s s' ∧ s'.wram 0 = s.wram 0 ∧ s'.pc 0 = .returned := by
  obtain ⟨s', hrun, ⟨-, -, -, hzero⟩, hpc⟩ := leads_to (SysStep Y) (fun s1 => Caller Y r21 (s1.view 0) ∧
      s1.wram flagWord = 0 ∧ left (s1.regs 0 0) (s1.pc 0) ≤ 4 ∧ s1.wram 0 = s.wram 0) (fun s => s.pc 0 = .returned)
    (fun s => left (s.regs 0 0) (s.pc 0)) (fun s1 hs1 hpc => by
      obtain ⟨hcaller, hflag, hleft, hzero⟩ := hs1
      have hstep := hcaller.step hm
      have hlt := hstep.closer hpc fun _ => hflag
      have hbelow : left ((s1.view 0).regs 0) (s1.view 0).pc ≤ 4 := hleft
      have hcheck : ∀ {i : Nat}, (s1.view 0).pc = .at .checkSystem i → 8 ≤ i := fun h => by
        rw [h] at hbelow
        simp only [left] at hbelow
        omega
      refine ⟨s1.step Y 0, ⟨0, by simp, rfl⟩, ⟨view_step Y 0 s1 ▸ hstep.caller, ?_, ?_, ?_⟩, ?_⟩
      · exact (hstep.wram flagWord (by decide)).trans hflag
      · rw [step_pc, step_regs]
        exact hlt.le.trans hleft
      · rw [← hzero]
        cases hstep.uses with
        | read h | pass h | dma h | store h => exact absurd (hcheck h) (by decide)
        | other _ _ _ h => exact h
      · rw [step_pc, step_regs]
        exact hlt) ⟨h, hflag, left_waits hwaits, rfl⟩
  exact ⟨s', hrun, hzero, hpc⟩

theorem sysStep_iterate {t : Nat} (ht : t ∈ [0, 22]) (k : Nat) (s : Mach Label) :
    Relation.ReflTransGen (SysStep Y) s ((Mach.step Y t)^[k] s) := by
  induction k with
  | zero => exact .refl
  | succ k ih =>
    rw [iterate_succ_apply']
    exact ih.tail ⟨t, ht, rfl⟩

variable (Y) in
/-- Thread 22 keeps what the DMA of the check put in word 0, and puts that
back after the check. -/
theorem SysCall.overlaid (hc : SysCall s0) :
    ∃ s, Relation.ReflTransGen (SysStep Y) s0 s ∧ s.pc 0 = .returned ∧ s.wram 0 = Y.mram (mramAt (s0.regs 0 21)) := by
  obtain ⟨r, m, hl⟩ := hc.lays (Y := Y)
  obtain ⟨n, hn⟩ := script Y
  obtain ⟨m', ⟨hsame, hdma⟩, h16⟩ := hl.dma hc
  have hs : Script Y (s0.regs 22) m' s0.bits (s0.visits 22) (s0.regs 0 5) n :=
    hn _ _ _ _ _ hc.out ((hsame _ (by decide)).trans hl.sysOut)
  -- thread 0 up to the DMA
  obtain ⟨s1, hs1⟩ : ∃ s1, (Mach.step Y 0)^[16] s0 = s1 := ⟨_, rfl⟩
  have hrun1 : Relation.ReflTransGen (SysStep Y) s0 s1 := hs1 ▸ sysStep_iterate (by decide) 16 s0
  have hv1 := view_iterate Y 0 16 s0
  rw [hs1, h16] at hv1
  have hb1 : s1.view 22 = booted (s0.regs 22) m' s0.bits (s0.visits 22) := by
    have h := view_iterate_other (Y := Y) (show 22 ≠ 0 by decide) 16 s0
    rw [hs1] at h
    rw [h, show s1.wram = _ from congrArg View.wram hv1, show s1.bits = _ from congrArg View.bits hv1]
    simp only [Mach.view, hc.stopped]
    rfl
  -- thread 22 keeps what is there
  obtain ⟨s2, hs2⟩ : ∃ s2, (Mach.step Y 22)^[6] s1 = s2 := ⟨_, rfl⟩
  have hrun2 : Relation.ReflTransGen (SysStep Y) s1 s2 := hs2 ▸ sysStep_iterate (by decide) 6 s1
  have hv2 : s2.view 22 = alone Y (s0.regs 22) m' s0.bits (s0.visits 22) 6 := by
    rw [← hs2, view_iterate, hb1]
    rfl
  have hcaller2 : Caller Y (s0.regs 0 21) (s2.view 0) := by
    have h := view_iterate_other (Y := Y) (show 0 ≠ 22 by decide) 6 s1
    rw [hs2, hv1] at h
    rw [h]
    exact ⟨hl.base, hl.mode, .check (i := 3) (by decide) rfl rfl fun h => absurd h (by decide)⟩
  obtain ⟨s3, hrun3, ⟨hcaller3, hnear3⟩, hwaits3⟩ := hcaller2.comes hc.system (.of_eq hv2)
  have hle := hs.le
  have hu : Undisturbed Y s0 m' n 6 s3 :=
    ⟨hnear3, fun h => by omega, fun h => by omega, fun h => by omega, hcaller3, hwaits3⟩
  obtain ⟨s4, hrun4, hu4⟩ := hu.runs hs hc.out
  obtain ⟨s5, hrun5, hzero, hpc⟩ := hu4.caller.returns hc.system hu4.waits (hu4.lowered (by omega))
  exact ⟨s5, (((hrun1.trans hrun2).trans hrun3).trans hrun4).trans hrun5, hpc,
    (hzero.trans (hu4.kept (by omega))).trans hdma⟩

/-! ## The two paths -/

/-- The arguments of a user's call. -/
structure UserArgs (key : Fin 8 → Word) (counter : Word) (iv : Fin 3 → Word) (v : View Label) : Prop where
  key : ∀ i : Fin 8, v.wram (wordOf (v.regs 0) + i) = key i
  counter : v.regs 1 = counter
  iv : ∀ i : Fin 3, v.regs (Fin.ofNat 24 (i + 2)) = iv i

/-- Those of a call of the system key, which is in the registers of
thread 22. -/
structure SysArgs (key : Fin 8 → Word) (counter : Word) (iv : Fin 3 → Word) (s : Mach Label) : Prop where
  key : ∀ i : Fin 8, s.regs 22 (Fin.natAdd 16 i) = key i
  counter : s.regs 0 1 = counter
  iv : ∀ i : Fin 3, s.regs 0 (Fin.ofNat 24 (i + 2)) = iv i

variable {key : Fin 8 → Word} {counter : Word} {iv : Fin 3 → Word} {t : Nat} {u0 : Mach Label}

theorem UserArgs.block {v : View Label} (h : UserArgs key counter iv v) : userBlock v = ChaCha20.block key counter iv := by
  have hiv : ![v.regs 2, v.regs 3, v.regs 4] = iv := funext fun i => by
    rw [← h.iv]
    match i with
    | 0 | 1 | 2 => rfl
  rw [userBlock, h.counter, hiv, funext h.key]

theorem SysArgs.block (h : SysArgs key counter iv s0) (hl : Lays Y s0 r m) :
    sysBlock (s0.regs 22) m = ChaCha20.block key counter iv := by
  have hiv : ![m (wordOf threadioStart + 2), m (wordOf threadioStart + 3), m (wordOf threadioStart + 4)] = iv :=
    funext fun i => by
      rw [← h.iv]
      match i with
      | 0 => exact hl.args (2, 2) (by decide)
      | 1 => exact hl.args (3, 3) (by decide)
      | 2 => exact hl.args (4, 4) (by decide)
  have hc : m (wordOf threadioStart + 1) = counter := (hl.args (1, 1) (by decide)).trans h.counter
  rw [sysBlock, hc, hiv, funext h.key]

/-- **Both paths write the block of RFC 8439.** A user's call that no other
thread's instructions come between, and every run of a call of the system key
in which each instruction heeds what the other thread has in word 0, make ten
rounds, write the block of their key, counter and iv and leave run bits 24 and
27 set and 25 and 26 clear; the first puts `r14` to `r16` back, the second
word 0. -/
theorem paths_agree (hu : UserCall t (u0.view t)) (hb : Settled u0.bits) (hua : UserArgs key counter iv (u0.view t))
    (hc : SysCall s0) (hsa : SysArgs key counter iv s0) :
    (∃ n u, (Mach.step Y t)^[n] u0 = u ∧ u.pc t = .returned ∧
      u.visits t .chachaLoop = u0.visits t .chachaLoop + 10 ∧
      (∀ i : Fin 16, u.wram (wordOf (u0.regs t 5) + i) = ChaCha20.block key counter iv i) ∧ Settled u.bits ∧
      u.regs t 14 = u0.regs t 14 ∧ u.regs t 15 = u0.regs t 15 ∧ u.regs t 16 = u0.regs t 16) ∧
    ∀ p, Relation.ReflTransGen (HeedingStep Y) ⟨s0, false, false⟩ p →
      (p.mach.pc 0 = .returned → p.mach.visits 22 .chachaLoop = s0.visits 22 .chachaLoop + 10 ∧
        (∀ i : Fin 16, p.mach.wram (wordOf (s0.regs 0 5) + i) = ChaCha20.block key counter iv i) ∧ Settled p.mach.bits ∧
        p.mach.wram 0 = s0.wram 0) ∧
      ∃ p', Relation.ReflTransGen (HeedingStep Y) p p' ∧ p'.mach.pc 0 = .returned := by
  obtain ⟨n, hn⟩ := script Y
  obtain ⟨r, m, hl⟩ := hc.lays (Y := Y)
  refine ⟨?_, fun p hp => ⟨fun hpc => ?_, (hc.called hl hn hp).finishes hc hl hn⟩⟩
  · obtain ⟨v, hrun, hd⟩ := hu.runs (Y := Y) hb
    obtain ⟨u, hu⟩ : ∃ u, (Mach.step Y t)^[1062] u0 = u := ⟨_, rfl⟩
    obtain rfl : u.view t = v := by rw [← hu, view_iterate, hrun.ends]
    have hbits : u.bits = u0.bits := hd.bits
    exact ⟨1062, u, hu, hd.pc, hd.rounds, fun i => (hd.block i).trans (congrFun hua.block i), hbits ▸ hb, hd.back⟩
  · obtain ⟨hd, hzero⟩ := (hc.called hl hn hp).returned hc hl hpc
    exact ⟨hd.rounds, fun i => (hd.block i).trans (congrFun (hsa.block hl) i), hd.settled, hzero⟩

/-- Three threads before their calls: thread 1 has a key of its own, thread 0
none. -/
def threeThreads : Mach Label where
  wram _ := 0
  bits i := i == 24 || i == 27
  pc t := if t = 22 then .stopped else .at .chachaBlk 0
  regs t
    | 0 => if t = 0 then 0 else 0x1000
    | 5 => 0x2000
    | 21 => if t = 22 then 0 else 0x08000000
    | 22 => if t = 22 then 0 else 0x3000
    | _ => 0
  visits _ _ := 0
  made _ := 0

theorem threeThreads_call : SysCall threeThreads :=
  ⟨rfl, rfl, ⟨⟨by decide, by decide⟩, by decide, by decide⟩, by decide, rfl, rfl⟩

theorem threeThreads_args : SysArgs (fun _ => 0) 0 (fun _ => 0) threeThreads := ⟨by decide, rfl, by decide⟩

/-- Thread 1 alone, and thread 0 with thread 22, under a key of
zeros. -/
theorem paths_agree_three : (∃ n u, (Mach.step (board fun _ => 1) 1)^[n] threeThreads = u ∧ u.pc 1 = .returned ∧
      u.wram 0x800 = ChaCha20.block (fun _ => 0) 0 (fun _ => 0) 0) ∧
    ∃ p, Relation.ReflTransGen (HeedingStep (board fun _ => 1)) ⟨threeThreads, false, false⟩ p ∧ p.mach.pc 0 = .returned := by
  have hu : UserCall 1 (threeThreads.view 1) := by
    refine ⟨rfl, by decide, by decide, ⟨by decide, by decide⟩, ⟨by decide, by decide⟩, ⟨by decide, by decide⟩, ?_, ?_, ?_⟩
    · exact .inl (by decide)
    · exact .inl (by decide)
    · exact .inl (by decide)
  have hua : UserArgs (fun _ => 0) 0 (fun _ => 0) (threeThreads.view 1) := ⟨fun _ => rfl, rfl, by decide⟩
  obtain ⟨⟨n, u, hn, hpc, -, hblock, -⟩, hsys⟩ :=
    paths_agree (Y := board fun _ => 1) hu ⟨rfl, rfl, rfl, rfl⟩ hua threeThreads_call threeThreads_args
  exact ⟨⟨n, u, hn, hpc, hblock 0⟩, (hsys _ .refl).2⟩

/-- Where one of the instructions does not heed, the caller returns with
another word 0: thread 22 keeps what the DMA put there, thread 0 writes the
word back, and thread 22 puts back what it kept. -/
theorem overlaid_lost : SysCall threeThreads ∧ SysArgs (fun _ => 0) 0 (fun _ => 0) threeThreads ∧
    ∃ s, Relation.ReflTransGen (SysStep (board fun _ => 1)) threeThreads s ∧ s.pc 0 = .returned ∧
      s.wram 0 ≠ threeThreads.wram 0 := by
  obtain ⟨s, hrun, hpc, hzero⟩ := threeThreads_call.overlaid (board fun _ => 1)
  refine ⟨threeThreads_call, threeThreads_args, s, hrun, hpc, ?_⟩
  rw [hzero]
  show (1 : Word) ≠ 0
  decide

end Memclave.Chacha
