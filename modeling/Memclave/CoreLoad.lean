/-
The instructions of the loader do what `Loader` says the loader does: thread
0 by itself, from the first instruction of `ime_replace_sk` on (`replaceSk_refines`).
-/
import Memclave.CoreSim

namespace Memclave.Core

open Words Exec Function Loader
open Asm hiding Prog

variable {E : Env} {Y : Layout core} {α : Type} {l : Label} {r : Reg → Word} {c : Bool} {b : Nat → Bool} {s : St}
  {K : α → St → Cpu Label → Prop}

/-! ## `core_util.s` -/

/-- The loop, by the recursion of the model. -/
theorem copySkLoop_sim (r0 r1 r4 : Word) {r₀ : Reg → Word} : ∀ (r : Reg → Word) (c : Bool) (s : St),
    r 0 = r0 → r 1 = r1 → r 4 = r4 → Off [0, 1, 4] r₀ r →
    CoreSim E Y (cpu (.run (.at .imeCopySkLoop 0)) r c b s) (imeCopySkLoop r0 r1 r4) s
      fun _ s' v' => ∃ r' c', v' = cpu (.run (.at .imeCopySkLoop 5)) r' c' b s' ∧ Off [0, 1, 4] r₀ r' := by
  induction hm : 2 ^ 27 - mramOff r0 using Nat.strong_induction_on generalizing r0 r1 r4 with
  | _ m ih =>
  subst hm
  intro r c s h0 h1 h4 hr
  have hr' : Off [0, 1, 4] r₀ (update (update (update r 0 (r0 + 8)) 1 (r1 + 8)) 4 (r4 + (-8))) :=
    (((hr.set _).set _).set _).mono (by decide)
  rw [imeCopySkLoop]
  split
  next hin =>
    have hoff := mramOff_lt hin
    have h8 : mramOff (r0 + 8) = mramOff r0 + 8 := mramOff_add (by omega)
    refine sim_ldma rfl rfl h0 fun s => ?_
    refine sim_sdma rfl rfl h1 fun s => ?_
    refine sim_alu (r0 + 8) rfl (by show r 0 + 8 = _; rw [h0]) rfl fun c => ?_
    refine sim_alu (r1 + 8) rfl (by show r 1 + 8 = _; rw [h1]) rfl fun c => ?_
    have hw : r 4 + (-8) = r4 + (-8) := by rw [h4]
    split
    next hz =>
      refine sim_alu (r4 + (-8)) rfl hw (by rw [hz]) fun c => ?_
      exact CoreSim.pure ⟨_, c, rfl, hr'⟩
    next hz =>
      refine sim_alu (r4 + (-8)) rfl hw (branch_taken (holds_nz.mpr hz)) fun c => ?_
      exact ih _ (by omega) (r0 + 8) (r1 + 8) (r4 + (-8)) rfl _ c s rfl rfl rfl hr'
  next hin => exact sim_ldma_fault rfl (by rwa [h0])

theorem copySk_sim : CoreSim E Y (cpu (.run (.at .imeCopySk 0)) r c b s) (imeCopySk (r 0) (r 1)) s
    (Back Y r [0, 1, 2, 3, 4] fun _ _ => True) := by
  unfold imeCopySk
  refine sim_lw rfl rfl fun z2 => ?_
  refine sim_lw rfl rfl fun z3 => ?_
  refine sim_alu (r 0 + 0x20) rfl rfl rfl fun c => ?_
  refine sim_ldma rfl rfl rfl fun s => ?_
  refine sim_alu (r 0) rfl (by show r 0 + 0x20 + (-0x20) = _; rw [BitVec.add_assoc]; exact BitVec.add_zero _) rfl fun c => ?_
  refine sim_lw rfl rfl fun z4 => ?_
  refine CoreSim.bind (copySkLoop_sim _ _ _ _ _ _ rfl rfl rfl (Off.refl.mono (List.nil_subset _))) fun _ s' v' hv => ?_
  obtain ⟨r', c', rfl, hr'⟩ := hv
  refine sim_sw rfl rfl (hr' 2 (by decide)) fun s => ?_
  refine CoreSim.last (sim_sw rfl rfl (hr' 3 (by decide)) fun s => ?_)
  refine sim_back rfl ?_ (by decide) trivial
  exact ((((((Off.refl.set z2).set z3).set _).set _).set z4).trans hr').mono (by decide)

theorem pushSk_sim {sk : Word} (h0 : r 0 = sk) : CoreSim E Y (cpu (.run (.at .imePushSk 0)) r c b s) (imePushSk sk) s
    (Back Y r [0, 1, 2, 3, 4] fun _ _ => True) := by
  subst h0
  refine sim_move rfl ?_
  refine sim_jump rfl ?_
  refine copySk_sim.mono fun a s' v' hv => ?_
  obtain ⟨r', c', b', rfl, hr', h⟩ := hv
  exact ⟨r', c', b', rfl, ((Off.refl.set _).trans hr').mono (by decide), h⟩

theorem popSk_sim {sk : Word} (h0 : r 0 = sk) : CoreSim E Y (cpu (.run (.at .imePopSk 0)) r c b s) (imePopSk sk) s
    (Back Y r [0, 1, 2, 3, 4] fun _ _ => True) := by
  subst h0
  refine sim_move rfl ?_
  refine sim_move rfl ?_
  refine sim_jump rfl ?_
  refine copySk_sim.mono fun a s' v' hv => ?_
  obtain ⟨r', c', b', rfl, hr', h⟩ := hv
  exact ⟨r', c', b', rfl, (((Off.refl.set _).set _).trans hr').mono (by decide), h⟩

/-! ## `core_thrd.s` -/

/-- From `k` on the run bits tell which threads run code of the user's. -/
def Settled (E : Env) (b : Nat → Bool) (k : Nat) : Prop := ∀ j, k ≤ j → 0 < j → j ≤ 15 → b j = E.running j

/-- The bits after the `boot` of thread `k`. -/
def booted (E : Env) (b : Nat → Bool) (k : Nat) : Nat → Bool :=
  fun j => update b k true j && (decide (j = 0 ∨ 15 < j) || E.running j)

theorem settled_booted {k k' : Nat} (h : ∀ j, j ≠ k → k' ≤ j → 0 < j → j ≤ 15 → b j = E.running j) :
    Settled E (booted E b k) k' := by
  intro j hj h0 h15
  have hd : decide (j = 0 ∨ 15 < j) = false := by
    rw [decide_eq_false_iff_not]
    omega
  rw [booted, hd, Bool.false_or]
  by_cases he : j = k
  · rw [he, update_self, Bool.true_and]
  · rw [update_of_ne he, h j he hj h0 h15, Bool.and_self]

theorem word_small {k : Nat} (hk : k ≤ 15) : (BitVec.ofNat 32 k + BitVec.ofNat 32 0).toNat = k := by
  rw [BitVec.add_zero, BitVec.toNat_ofNat]
  omega

theorem loop1_sim {x : Prog α} {r₀ : Reg → Word}
    (h : ∀ r c b, Off [0] r₀ r → Settled E b 1 → CoreSim E Y (cpu (.run (.at .loop1 2)) r c b s) x s K)
    {k : Nat} (hk : k ≤ 15) :
    ∀ r c b, 0 < k → r 0 = BitVec.ofNat 32 k → Off [0] r₀ r → Settled E b (k + 1) →
      CoreSim E Y (cpu (.run (.at .loop1 0)) r c b s) x s K := by
  induction k with
  | zero => exact fun _ _ _ h0 => absurd h0 (Nat.lt_irrefl 0)
  | succ k ih =>
    intro r c b _ h0 hr hb
    have hbit : ((Isa.Src.reg 0).val 0 r + BitVec.ofNat 32 0).toNat = k + 1 := by
      show (r 0 + BitVec.ofNat 32 0).toNat = k + 1
      rw [h0, word_small hk]
    have hw : r 0 - 1 = BitVec.ofNat 32 k := by rw [h0, count_next]
    have hb' : Settled E (booted E b (k + 1)) (k + 1) := settled_booted fun j he hj => hb j (by omega)
    refine sim_boot rfl rfl (by rw [hbit]) ?_
    cases k with
    | zero => exact sim_alu _ rfl hw rfl fun c => h _ c _ (hr.put (by decide) _) hb'
    | succ k =>
      have hne := count_ne (Nat.succ_pos k) (by omega)
      refine sim_alu _ rfl hw (branch_taken (holds_nz.mpr hne)) fun c => ?_
      exact ih (Nat.le_of_succ_le hk) _ c _ (Nat.succ_pos k) rfl (hr.put (by decide) _) hb'

/-- It faults for the first thread that runs code of the user's. -/
theorem loop3_sim {x : Prog α} {r₀ : Reg → Word}
    (hsec : (∃ j, 0 < j ∧ j ≤ 15 ∧ E.running j = true) → ∀ r c b,
      CoreSim E Y (cpu (.run (.at .imeSecFault 0)) r c b s) x s K)
    (h : (∀ j, 0 < j → j ≤ 15 → E.running j = false) → ∀ r c b, Off [0] r₀ r →
      CoreSim E Y (cpu (.run (.at .loop3 2)) r c b s) x s K) {k : Nat} (hk : k ≤ 15) :
    ∀ r c b, 0 < k → r 0 = BitVec.ofNat 32 k → Off [0] r₀ r → Settled E b 1 →
      (∀ j, k < j → j ≤ 15 → E.running j = false) → CoreSim E Y (cpu (.run (.at .loop3 0)) r c b s) x s K := by
  induction k with
  | zero => exact fun _ _ _ h0 => absurd h0 (Nat.lt_irrefl 0)
  | succ k ih =>
    intro r c b hpos h0 hr hb hpast
    have hbit : ((Isa.Src.reg 0).val 0 r + BitVec.ofNat 32 0).toNat = k + 1 := by
      show (r 0 + BitVec.ofNat 32 0).toNat = k + 1
      rw [h0, word_small hk]
    have hold : b (k + 1) = E.running (k + 1) := hb _ (by omega) hpos hk
    have hb' : Settled E (booted E b (k + 1)) 1 := settled_booted fun j _ => hb j
    have hw : r 0 - 1 = BitVec.ofNat 32 k := by rw [h0, count_next]
    cases hrun : E.running (k + 1) with
    | true =>
      refine sim_boot rfl (by rw [hbit, hold, hrun]) (by rw [hbit]) ?_
      exact hsec ⟨k + 1, hpos, hk, hrun⟩ r c _
    | false =>
      refine sim_boot rfl (by rw [hbit, hold, hrun]) (by rw [hbit]) ?_
      have hpast' : ∀ j, k < j → j ≤ 15 → E.running j = false := fun j hj h15 => by
        by_cases he : j = k + 1
        · rw [he, hrun]
        · exact hpast j (by omega) h15
      cases k with
      | zero => exact sim_alu _ rfl hw rfl fun c => h hpast' _ c _ (hr.put (by decide) _)
      | succ k =>
        have hne := count_ne (Nat.succ_pos k) (by omega)
        refine sim_alu _ rfl hw (branch_taken (holds_nz.mpr hne)) fun c => ?_
        exact ih (Nat.le_of_succ_le hk) _ c _ (Nat.succ_pos k) rfl (hr.put (by decide) _) hb' hpast'

theorem any_running : (List.range' 1 15).any E.running = true ↔ ∃ j, 0 < j ∧ j ≤ 15 ∧ E.running j = true := by
  simp only [List.any_eq_true, List.mem_range'_1]
  exact exists_congr fun j => ⟨fun h => ⟨h.1.1, by omega, h.2⟩, fun h => ⟨⟨h.1, by omega⟩, h.2.2⟩⟩

theorem checkThreads_sim : CoreSim E Y (cpu (.run (.at .imeCheckThreads 0)) r c b s) imeCheckThreads s
    (Back Y r [0] fun _ _ => True) := by
  refine sim_get fun hs => ?_
  rw [hs.2.1]
  refine sim_move rfl (loop1_sim (fun r1 c b h1 hb => ?_) (Nat.le_refl 15) _ _ _ (by decide) rfl (Off.refl.set _) ?_)
  · refine sim_move rfl (count_sim (by decide) rfl (fun r2 c h2 => ?_) _ c (by decide) rfl (h1.put (by decide) _))
    refine sim_move rfl (loop3_sim (fun hrun r3 c b => ?_) (fun hrun r3 c b h3 => ?_) (Nat.le_refl 15) _ c b (by decide) rfl
      (h2.put (by decide) _) hb fun j hj h15 => absurd h15 (Nat.not_le_of_lt hj))
    · rw [if_pos (any_running.mpr hrun)]
      exact sim_sec
    · rw [if_neg fun ha => ?_]
      · refine sim_move rfl (count_sim (by decide) rfl (fun r4 c h4 => ?_) _ c (by decide) rfl (h3.put (by decide) _))
        exact sim_back rfl h4 (by decide) trivial
      · obtain ⟨j, h0, h15, hj⟩ := any_running.mp ha
        rw [hrun j h0 h15] at hj
        cases hj
  · exact fun j hj _ h15 => absurd h15 (Nat.not_le_of_lt hj)

/-! ## `core_mem.s` -/

theorem wipeLoop_sim {r₀ : Reg → Word} (hu : Off [0] r₀ r) : CoreSim E Y (cpu (.run (.at .imeWipeLoop 0)) r c b s)
    (imeWipeLoop (r 0)) s (Back Y r₀ [0] fun _ _ => True) := by
  induction hm : (r 0).toNat using Nat.strong_induction_on generalizing r c s with
  | _ m ih =>
  subst hm
  rw [imeWipeLoop]
  by_cases hneg : (r 0 + (-4)).msb = true
  · simp only [dif_pos hneg]
    refine sim_sw rfl (BitVec.add_zero _) rfl fun s => ?_
    refine sim_alu (r 0 + (-4)) rfl rfl (branch_not (by rw [holds_pl, hneg]; rfl)) fun c => ?_
    exact sim_back rfl (hu.put (by decide) _) (by decide) trivial
  · simp only [dif_neg hneg]
    refine sim_sw rfl (BitVec.add_zero _) rfl fun s => ?_
    refine sim_alu (r 0 + (-4)) rfl rfl (branch_taken (by rw [holds_pl]; simpa using hneg)) fun c => ?_
    refine ih _ ?_ (hu.put (by decide) _) rfl
    have h4 : 4 ≤ (r 0).toNat := by
      by_contra hn
      exact hneg ((sub_four_msb (r 0)).mpr (.inl (by omega)))
    show (r 0 + (-4)).toNat < _
    rw [toNat_sub_four h4]
    omega

theorem wipeUser_sim {wipe : Word} (h17 : r 17 = wipe) : CoreSim E Y (cpu (.run (.at .imeWipeUser 0)) r c b s)
    (imeWipeUser wipe) s (Back Y r [0] fun _ _ => True) := by
  subst h17
  unfold imeWipeUser
  by_cases hneg : (r 17 + (-4)).msb = true
  · rw [if_pos hneg]
    refine sim_alu (r 17 + (-4)) rfl rfl (branch_taken hneg) fun c => ?_
    exact sim_back rfl (Off.refl.set _) (by decide) trivial
  · rw [if_neg hneg]
    refine sim_alu (r 17 + (-4)) rfl rfl (branch_not (by rw [holds_mi]; simpa using hneg)) fun c => ?_
    exact wipeLoop_sim (Off.refl.set _)

/-! ## `core_wram.s` and `core_iram.s` -/

theorem clwLoop_sim {r₀ : Reg → Word} {n : Nat} (h0 : 0 < n) (h2 : r 2 = BitVec.ofNat 32 n) (hn : n < 2 ^ 32)
    (hu : Off [0, 1, 2] r₀ r) : CoreSim E Y (cpu (.run (.at .clwLoop 0)) r c b s) (clwLoop n (r 0) (r 1)) s
    (Back Y r₀ [0, 1, 2] fun _ _ => True) := by
  induction n generalizing r c s with
  | zero => exact absurd h0 (Nat.lt_irrefl 0)
  | succ n ih =>
    have hw : r 2 - 1 = BitVec.ofNat 32 n := by rw [h2, count_next]
    unfold clwLoop sections
    simp only [bind_assoc]
    refine sim_ldma rfl rfl rfl fun s => sim_log fun s => ?_
    refine sim_alu (r 0 + 2048) rfl rfl rfl fun c => ?_
    refine sim_alu (r 1 + 2048) rfl rfl rfl fun c => ?_
    cases n with
    | zero =>
      refine sim_alu 0 rfl hw rfl fun c => ?_
      exact sim_back rfl ((((hu.set _).set _).set _).mono (by decide)) (by decide) trivial
    | succ n =>
      refine sim_alu _ rfl hw (branch_taken (holds_nz.mpr (count_ne (Nat.succ_pos n) (by omega)))) fun c => ?_
      exact ih (Nat.succ_pos n) rfl (by omega) ((((hu.set _).set _).set _).mono (by decide))

theorem loadWram_sim {sk : Word} (h21 : r 21 = sk) : CoreSim E Y (cpu (.run (.at .imeLoadWram 0)) r c b s) (imeLoadWram sk) s
    (Back Y r [0, 1, 2] fun _ _ => True) := by
  subst h21
  unfold imeLoadWram
  refine sim_move rfl ?_
  refine sim_ldma rfl rfl rfl fun s => ?_
  refine sim_lw rfl rfl fun z => ?_
  refine sim_alu (z ^^^ 0xA5A5A5A5) rfl rfl rfl fun c => ?_
  refine sim_check rfl rfl test_nz (fun c => sim_sanity) fun _ c => ?_
  refine sim_lw rfl rfl fun z => ?_
  refine sim_alu (z <<< 11) rfl rfl rfl fun c => ?_
  refine sim_alu (z <<< 11 + 64) rfl rfl rfl fun c => ?_
  refine sim_alu (z <<< 11 + 64 + r 21) rfl rfl rfl fun c => ?_
  refine sim_lw rfl rfl fun n => ?_
  refine sim_move rfl ?_
  refine sim_test rfl rfl test_z (fun hn c => ?_) fun hn c => ?_
  · have h0 : n = 0 := hn
    rw [h0]
    refine sim_back rfl ?_ (by decide) trivial
    repeat refine Off.put (by decide) ?_ _
    exact Off.refl.mono (List.nil_subset _)
  · refine clwLoop_sim (Nat.pos_of_ne_zero fun h0 => hn (word_ext h0)) (word_ext ?_) n.isLt ?_
    · exact (Nat.mod_eq_of_lt n.isLt).symm
    · repeat refine Off.put (by decide) ?_ _
      exact Off.refl.mono (List.nil_subset _)

theorem clsTable_next (n : Nat) (r20 r21 : Word) : clsTable (n + 1) r20 r21 = (do
    ldmai r20 r21 256
    log (.toIram (wramAt r20) (mramAt r21))
    clsTable n (r20 + 2048) (r21 + 2048)) := bind_assoc ..

/-- The table from an entry on, for the sections that are left. -/
theorem clsTable_sim {r₀ : Reg → Word} {a : Word} {n : Nat} :
    ∀ (k : Fin 15) (r20 r21 : Word) (r : Reg → Word) (c : Bool) (s : St), k + n = 14 → r 20 = r20 → r 21 = r21 → r 0 = a → Off [0, 1, 2, 20, 21] r₀ r →
    CoreSim E Y (cpu (.run (.at (.clsTable k) 0)) r c b s) (clsTable (n + 1) r20 r21 >>= fun _ => pure a) s
      (Back Y r₀ [0, 1, 2, 20, 21] fun a w => w = a) := by
  induction n with
  | zero =>
    intro k r20 r21 r c s hk h20 h21 h0 hu
    have h14 : k = 14 := Fin.ext hk
    subst h14
    rw [clsTable_next, bind_assoc]
    refine sim_ldmai rfl h20 h21 fun s => ?_
    refine sim_log fun s => ?_
    refine sim_nop rfl (sim_nop rfl (sim_nop rfl ?_))
    exact sim_back rfl hu (by decide) h0
  | succ n ih =>
    intro k r20 r21 r c s hk h20 h21 h0 hu
    have h14 : k ≠ 14 := Fin.ne_of_val_ne (by show k.val ≠ 14; omega)
    rw [clsTable_next, bind_assoc]
    refine sim_ldmai (by rw [code_cls h14]; rfl) h20 h21 fun s => ?_
    rw [bind_assoc]
    refine sim_log fun s => ?_
    rw [succ_cls h14 (by decide)]
    have h1 : (code (.clsTable k))[1]? = some (.alu .add (some 20) (.reg 20) (.imm 2048) none) := by
      rw [code_cls h14]
      rfl
    have h2 : (code (.clsTable k))[2]? = some (.alu .add (some 21) (.reg 21) (.imm 2048) none) := by
      rw [code_cls h14]
      rfl
    refine sim_alu (r20 + 2048) h1 (by show r 20 + 2048 = _; rw [h20]) (succ_cls h14 (show 1 < 3 by decide)) fun c => ?_
    refine sim_alu (r21 + 2048) h2 (by show r 21 + 2048 = _; rw [h21]) (succ_cls h14 (show 2 < 3 by decide)) fun c => ?_
    refine sim_nop (by rw [code_cls h14]; rfl) ?_
    rw [succ_cls_last h14 (by omega)]
    refine ih _ _ _ _ c s (by show k.val + 1 + n = 14; omega) rfl rfl ?_ (((hu.set _).set _).mono (by decide))
    exact ((update_of_ne (by decide) _ _).trans (update_of_ne (by decide) _ _)).trans h0

theorem loadIram_sim {dst sk : Word} (h20 : r 20 = dst) (h21 : r 21 = sk) :
    CoreSim E Y (cpu (.run (.at .imeLoadIram 0)) r c b s) (imeLoadIram dst sk) s
      (Back Y r [0, 1, 2, 20, 21] fun a w => w = a) := by
  subst h20 h21
  unfold imeLoadIram
  refine sim_lw rfl rfl fun z0 => ?_
  refine sim_lw rfl rfl fun z1 => ?_
  refine sim_alu (r 21 + 40) rfl rfl rfl fun c => ?_
  refine sim_ldma rfl rfl rfl fun s => ?_
  refine sim_lw rfl rfl fun n => ?_
  refine sim_alu (r 21 + 40 + 24) rfl rfl rfl fun c => ?_
  refine sim_sw rfl rfl rfl fun s => ?_
  refine sim_sw rfl rfl rfl fun s => ?_
  refine sim_alu (r 21 + 40 + 24 + (-64)) rfl rfl rfl fun c => ?_
  refine sim_check rfl rfl test_z (fun c => sim_sec) fun h0 c => ?_
  refine sim_alu (n &&& 0xFFFFFFF0) rfl rfl rfl fun c => ?_
  refine sim_check rfl rfl test_nz (fun c => sim_sec) fun h15 c => ?_
  refine sim_alu (15 - n) rfl rfl rfl fun c => ?_
  refine sim_alu ((15 - n) <<< 2) rfl rfl rfl fun c => ?_
  refine sim_jumpOff rfl ?_
  have hlt := mask_eq_zero.mp (not_not.mp h15)
  have hpos : 0 < n.toNat := Nat.pos_of_ne_zero fun hn => h0 (word_ext hn)
  obtain ⟨m, hm⟩ := Nat.exists_eq_succ_of_ne_zero (Nat.ne_of_gt hpos)
  have hoff : (15 - n) <<< 2 = BitVec.ofNat 32 (4 * (14 - m)) := by
    apply word_ext
    have h15 : (15 : Word).toNat = 15 := rfl
    rw [BitVec.toNat_shiftLeft, Nat.shiftLeft_eq, BitVec.toNat_sub, h15, BitVec.toNat_ofNat]
    omega
  have hplace : Y.place ((15 - n) <<< 2 + Y.addr (.clsTable 0)) = .at (.clsTable ⟨14 - m, by omega⟩) 0 := by
    rw [hoff]
    exact place_cls (by omega)
  show CoreSim E Y (cpu (.run (Y.place ((15 - n) <<< 2 + Y.addr (.clsTable 0)))) _ c b s)
    (clsTable (15 - ((15 - n) <<< 2).toNat / 4) (r 20) (r 21 + 40 + 24) >>= fun _ => pure (r 21 + 40 + 24 + (-64))) s _
  rw [hplace, table_entry hpos hlt, hm]
  refine clsTable_sim _ _ _ _ c s (by show 14 - m + m = 14; omega) rfl rfl rfl ?_
  repeat refine Off.put (by decide) ?_ _
  exact Off.refl.mono (List.nil_subset _)

/-! ## The C functions -/

theorem decryptSk_sim {sk tag key : Word} (h0 : r 0 = sk) (h1 : r 1 = tag) (h2 : r 2 = key) (h21 : r 21 = sk) :
    CoreSim E Y (cpu (.run (.at (.fn .imeDecryptSk) 0)) r c b s) (imeDecryptSk E.c E.frames sk tag key) s
      (Back Y r scratch fun _ _ => True) := by
  subst h0 h1 h2
  exact fn_sim rfl (if_pos h21) (imeDecryptSk_tame ..)

theorem scanSk_sim {sk : Word} (h0 : r 0 = sk) (h21 : r 21 = sk) : CoreSim E Y (cpu (.run (.at (.fn .imeScanSk) 0)) r c b s)
    (imeScanSk E.frames sk) s (Back Y r scratch fun _ _ => True) := by
  subst h0
  exact fn_sim rfl (if_pos h21) (imeScanSk_tame ..)

/-! ## `core_load.S` -/

/-- The registers in `l` are zero. -/
def Zero (l : List Reg) (r : Reg → Word) : Prop := ∀ d ∈ l, r d = 0

theorem Zero.mono {l l' : List Reg} (h : Zero l r) (hl : l' ⊆ l) : Zero l' r := fun d hd => h d (hl hd)

theorem Zero.put {l : List Reg} {d : Reg} (h : Zero l r) (w : Word) (hd : d ∉ l) : Zero l (update r d w) := by
  intro d' hd'
  rw [update_of_ne (fun he => hd (by rwa [← he]))]
  exact h d' hd'

theorem Zero.clear {l : List Reg} (h : Zero l r) (d : Reg) : Zero (d :: (d + 1) :: l) (update (update r d 0) (d + 1) 0) := by
  intro d' hd'
  by_cases h1 : d' = d + 1
  · rw [h1, update_self]
  · rw [update_of_ne h1]
    by_cases h0 : d' = d
    · rw [h0, update_self]
    · rw [update_of_ne h0]
      simp only [List.mem_cons, h0, h1, false_or] at hd'
      exact h d' hd'

/-- Those it clears, without the counter of the loop after. -/
def cleared : List Reg := [1, 2, 3, 4, 5, 6, 7, 8, 9, 10, 11, 12, 13, 14, 15, 16, 17, 18, 19, 22, 23]

theorem startRegs_eq {l : List Reg} (h : Zero l r) (hl : ∀ d, d ≠ 19 → d ≠ 20 → d ≠ 21 → d ∈ l) :
    update (update (update r 19 0) 20 pastIram) 21 pastMram = startRegs := by
  funext d
  by_cases h21 : d = 21
  · subst h21
    rfl
  by_cases h20 : d = 20
  · subst h20
    rfl
  rw [update_of_ne h21, update_of_ne h20, startRegs, if_neg h20, if_neg h21]
  by_cases h19 : d = 19
  · rw [h19, update_self]
  · rw [update_of_ne h19, h d (hl d h19 h20 h21)]

/-- `jump zero, __ime_user_start`, with the registers cleared. -/
def Started (_ : Unit) (s : St) (v : Cpu Label) : Prop := ∃ c b, v = cpu (.run (.outside userStartAt)) startRegs c b s

theorem resumeEnd_sim {l : List Reg} (h : Zero l r) (hl : ∀ d, d ≠ 19 → d ≠ 20 → d ≠ 21 → d ∈ l) :
    CoreSim E Y (cpu (.run (.at .resumeEnd 0)) r c b s) (pure ()) s Started := by
  refine sim_move rfl (sim_move rfl (sim_move rfl (sim_jump rfl (CoreSim.pure ⟨c, b, ?_⟩))))
  have hp : Y.entry (.addr userStartAt) = .outside userStartAt := place_user (by decide)
  rw [hp, ← startRegs_eq h hl]
  rfl

theorem resumeLoop_sim {l : List Reg} (hl : ∀ d, d ≠ 19 → d ≠ 20 → d ≠ 21 → d ∈ 0 :: l) {n : Nat}
    (hn : n < 2 ^ 32) :
    ∀ (r : Reg → Word) (c : Bool) (b : Nat → Bool), 0 < n → r 0 = BitVec.ofNat 32 n → Zero l r → 0 ∉ l →
      CoreSim E Y (cpu (.run (.at .resumeLoop 0)) r c b s) (pure ()) s Started := by
  induction n with
  | zero => exact fun _ _ _ h0 => absurd h0 (Nat.lt_irrefl 0)
  | succ n ih =>
    intro r c b _ h0 hz hnot
    have hw : r 0 - 1 = BitVec.ofNat 32 n := by rw [h0, count_next]
    have hz' := hz.put (BitVec.ofNat 32 n) hnot
    cases n with
    | zero =>
      refine sim_alu _ rfl hw rfl fun c => resumeEnd_sim (fun d hd => ?_) hl
      cases List.mem_cons.mp hd with
      | inl hd => rw [hd]; rfl
      | inr hd => exact hz' d hd
    | succ n =>
      have hne := count_ne (Nat.succ_pos n) (Nat.lt_of_succ_lt hn)
      refine sim_alu _ rfl hw (branch_not (by rw [← Bool.not_eq_true, holds_z]; exact hne)) fun c => ?_
      refine sim_resume rfl fun b => sim_jump rfl ?_
      exact ih (Nat.lt_of_succ_lt hn) _ c b (Nat.succ_pos n) rfl hz' hnot

/-- A routine that `ime_replace_sk` calls. -/
theorem sim_callee {x : Prog α} {g : α → Prog β} {used : List Reg} {R : α → Word → Prop}
    (hi : (code .imeReplaceSk)[i]? = some (.call 23 l')) (hlen : i + 1 < (code .imeReplaceSk).length)
    (hcall : CoreSim E Y (cpu (.run (.at l' 0)) (update r 23 (Y.addr .imeReplaceSk + BitVec.ofNat 32 (i + 1))) c b s) x s
      (Back Y (update r 23 (Y.addr .imeReplaceSk + BitVec.ofNat 32 (i + 1))) used R))
    (h : ∀ a r' c b s', Off (23 :: used) r r' → R a (r' 0) →
      CoreSim E Y (cpu (.run (.at .imeReplaceSk (i + 1))) r' c b s') (g a) s' J) :
    CoreSim E Y (cpu (.run (.at .imeReplaceSk i)) r c b s) (x >>= g) s J := by
  refine sim_call hi (hcall.bind fun a s' v' hv => ?_)
  obtain ⟨r', c', b', rfl, hr', ha⟩ := hv
  rw [update_self, place_addr hlen]
  refine h a r' c' b' s' ?_ ha
  exact (Off.refl.set _).trans hr'

/-- What `ime_replace_sk` keeps of its arguments. -/
structure Args (sk tag key wipe : Word) (r : Reg → Word) : Prop where
  r17 : r 17 = wipe
  r18 : r 18 = tag
  r19 : r 19 = key
  r20 : r 20 = userStart
  r21 : r 21 = sk

section

variable {sk tag key wipe : Word} {r' : Reg → Word} {used : List Reg}

theorem Args.off (h : Args sk tag key wipe r) (hr : Off used r r')
    (hu : ∀ d ∈ ([17, 18, 19, 20, 21] : List Reg), d ∉ used) : Args sk tag key wipe r' where
  r17 := (hr 17 (hu 17 (by decide))).trans h.r17
  r18 := (hr 18 (hu 18 (by decide))).trans h.r18
  r19 := (hr 19 (hu 19 (by decide))).trans h.r19
  r20 := (hr 20 (hu 20 (by decide))).trans h.r20
  r21 := (hr 21 (hu 21 (by decide))).trans h.r21

end

/-- From the first call on. -/
theorem calls_sim {sk tag key wipe : Word} (a0 : Args sk tag key wipe r) : CoreSim E Y (cpu (.run (.at .imeReplaceSk 6)) r c b s)
    (imeReplaceSk E.c E.frames sk tag key wipe) s Started := by
  unfold imeReplaceSk
  refine sim_callee rfl (by decide) checkThreads_sim fun _ r1 c b s h1 _ => ?_
  have a1 := a0.off h1 (by decide)
  refine sim_callee rfl (by decide) (wipeUser_sim a1.r17) fun _ r2 c b s h2 _ => ?_
  have a2 := a1.off h2 (by decide)
  refine sim_move rfl ?_
  refine sim_callee rfl (by decide) (pushSk_sim a2.r21) fun _ r3 c b s h3 _ => ?_
  have a3 := a2.off ((Off.refl.set _).trans h3) (by decide)
  refine sim_move rfl (sim_move rfl (sim_sw rfl rfl rfl fun s => ?_))
  refine sim_move rfl (sim_move rfl (sim_move rfl ?_))
  refine sim_callee rfl (by decide) (decryptSk_sim a3.r21 a3.r18 a3.r19 a3.r21) fun _ r4 c b s h4 _ => ?_
  have a4 := a3.off ((((((Off.refl.set _).set _).set _).set _).set _).trans h4) (by decide)
  refine sim_move rfl (sim_move rfl ?_)
  refine sim_callee rfl (by decide) (scanSk_sim a4.r21 a4.r21) fun _ r5 c b s h5 _ => ?_
  have a5 := a4.off (((Off.refl.set _).set _).trans h5) (by decide)
  refine sim_move rfl (sim_lw rfl rfl fun z => sim_move rfl ?_)
  refine sim_check rfl rfl holds_nz (fun c => sim_sec) fun _ c => ?_
  refine sim_callee rfl (by decide) (loadWram_sim a5.r21) fun _ r6 c b s h6 _ => ?_
  have a6 := a5.off (((((Off.refl.set _).set _).set _).set _).trans h6) (by decide)
  refine sim_callee rfl (by decide) (loadIram_sim a6.r20 a6.r21) fun r0 r7 c b s _ h0 => ?_
  refine CoreSim.last (sim_callee rfl (by decide) (popSk_sim h0) fun _ r8 c b s _ _ => ?_)
  refine sim_clear rfl (sim_clear rfl (sim_clear rfl (sim_clear rfl (sim_clear rfl (sim_clear rfl ?_)))))
  refine sim_clear rfl (sim_clear rfl (sim_clear rfl (sim_clear rfl (sim_clear rfl (sim_move rfl ?_)))))
  have hnil : Zero [] r8 := fun _ hd => absurd hd List.not_mem_nil
  have hz := hnil.clear 0 |>.clear 2 |>.clear 4 |>.clear 6 |>.clear 8 |>.clear 10 |>.clear 12 |>.clear 14 |>.clear 16
    |>.clear 18 |>.clear 22
  have hmove := (hz.mono (show cleared ⊆ _ by decide)).put 16 (show 0 ∉ cleared by decide)
  have hall : ∀ d, d ≠ 19 → d ≠ 20 → d ≠ 21 → d ∈ 0 :: cleared := by decide
  exact resumeLoop_sim hall (by decide) _ c b (by decide) rfl hmove (by decide)

theorem replaceSk_sim : CoreSim E Y (cpu (.run (.at .imeReplaceSk 0)) r c b s)
    (imeReplaceSk E.c E.frames (r 0) (r 1) (r 2) (r 3)) s Started := by
  refine sim_move rfl ?_
  refine sim_alu userStart rfl rfl rfl fun c => ?_
  refine sim_move rfl (sim_move rfl (sim_move rfl (sim_move rfl ?_)))
  exact calls_sim ⟨rfl, rfl, rfl, rfl, rfl⟩

/-- A run of the instructions is where one of the model has ended. -/
def Agrees (v : Cpu Label) : EStateM.Result Fault St Unit → Prop
  | .ok _ s => v.pc = .run (.outside userStartAt) ∧ v.regs = startRegs ∧
      v.mram = s.mram ∧ v.wram = s.wram ∧ v.iram = s.iram
  | .error e s => Faulted e s v

theorem Agrees.fixed {v : Cpu Label} {x : EStateM.Result Fault St Unit} (h : Agrees v x) : E.step Y v = v := by
  cases x with
  | ok a s => simp only [Env.step, h.1]
  | error e s => simp only [Env.step, h.1]

theorem replaceSk_goes (E : Env) (Y : Layout core) (v : Cpu Label) :
    Goes (E.step Y) { v with pc := .run (.at .imeReplaceSk 0) } fun v' =>
      Agrees v' (imeReplaceSk E.c E.frames (v.regs 0) (v.regs 1) (v.regs 2) (v.regs 3) (E.st v)) := by
  have hsim : CoreSim E Y (cpu (.run (.at .imeReplaceSk 0)) v.regs v.carry v.bits (E.st v)) _ (E.st v) Started := replaceSk_sim
  have hrun := hsim.run ⟨rfl, rfl, rfl⟩
  unfold Sim wp at hrun
  split at hrun
  next a s hx =>
    rw [hx]
    refine hrun.mono fun v' hv => ?_
    obtain ⟨-, c, b, rfl⟩ := hv
    exact ⟨rfl, rfl, rfl, rfl, rfl⟩
  next e s hx =>
    rw [hx]
    exact hrun.mono fun v' hv => hv

/-- **The instructions are the loader.** Wherever the linker puts the core,
and from any registers and memories, a run from `ime_replace_sk` on comes to
user code exactly if the loader's model returns, with the registers cleared
and in the memories that the model ends in, and else to the model's fault.
There it stays. -/
theorem replaceSk_refines (E : Env) (Y : Layout core) (v : Cpu Label) :
    ∃ n, ∀ k ≥ n, Agrees ((E.step Y)^[k] { v with pc := .run (.at .imeReplaceSk 0) })
      (imeReplaceSk E.c E.frames (v.regs 0) (v.regs 1) (v.regs 2) (v.regs 3) (E.st v)) := by
  obtain ⟨n, hn⟩ := replaceSk_goes E Y v
  refine ⟨n, fun k hk => ?_⟩
  obtain ⟨j, rfl⟩ := Nat.exists_eq_add_of_le' hk
  rw [iterate_add_apply, iterate_fixed hn.fixed]
  exact hn

end Memclave.Core
