/-
The user's path of `chacha.S`, run by one thread alone.
-/
import Memclave.Chacha
import Memclave.IsaFacts
import Memclave.Lib.ChaCha20

namespace Memclave.Chacha

open Words Isa Function Sys

/-! ## The round -/

/-- The registers of the state matrix. -/
def row (i : Fin 16) : Reg := i.castLE (by decide)

theorem row_injective : Injective row := Fin.castLE_injective (by decide)

variable {Y : Board chachaS} {t : Nat} {R : Nat → Prop} {r : Reg → Word} {m : Nat → Word} {a b c d : Reg}

theorem quarterround_effect (hab : a ≠ b) (hac : a ≠ c) (had : a ≠ d) (hbc : b ≠ c) (hbd : b ≠ d) (hcd : c ≠ d) :
    (quarterround a b c d).foldl (fun x ins => ins.effect t x) (r, m) = (ChaCha20.quarterRound a b c d r, m) := by
  simp only [quarterround, List.foldl_cons, List.foldl_nil, Instr.effect, Src.val, ChaCha20.quarterRound,
    ChaCha20.quarter]
  refine Prod.ext (funext fun x => ?_) rfl
  simp only [update_apply]
  by_cases ha : x = a
  · subst ha
    simp only [hab, hac, had, hbc, hbd, hcd, hab.symm, hac.symm, had.symm, hbc.symm, hbd.symm, hcd.symm, if_true, if_false]
  · by_cases hb : x = b
    · subst hb
      simp only [hab, hac, had, hbc, hbd, hcd, hab.symm, hac.symm, had.symm, hbc.symm, hbd.symm, hcd.symm, if_true,
        if_false]
    · by_cases hc : x = c
      · subst hc
        simp only [hab, hac, had, hbc, hbd, hcd, hab.symm, hac.symm, had.symm, hbc.symm, hbd.symm, hcd.symm, if_true,
          if_false]
      · by_cases hd : x = d
        · subst hd
          simp only [hab, hac, had, hbc, hbd, hcd, hab.symm, hac.symm, had.symm, hbc.symm, hbd.symm, hcd.symm, if_true,
            if_false]
        · simp only [ha, hb, hc, hd, if_false]

theorem doubleRound_effect :
    doubleRoundCode.foldl (fun x ins => ins.effect t x) (r, m) = (ChaCha20.doubleRound row r, m) := by
  simp only [doubleRoundCode, List.foldl_append]
  rw [quarterround_effect, quarterround_effect, quarterround_effect, quarterround_effect, quarterround_effect,
    quarterround_effect, quarterround_effect, quarterround_effect]
  · rfl
  all_goals decide

/-! ## Before and after the rounds -/

/-- The registers after `chacha_block_entry`. -/
def entry (r : Reg → Word) : Reg → Word :=
  update (update (update (update r 0 0x61707865) 1 0x3320646e) 2 0x79622d32) 3 0x6b206574

/-- The registers after the nothing up my sleeve numbers have been added. -/
def addConstants (r : Reg → Word) : Reg → Word :=
  update (update (update (update r 0 (r 0 + 0x61707865)) 1 (r 1 + 0x3320646e)) 2 (r 2 + 0x79622d32)) 3 (r 3 + 0x6b206574)

theorem entry_seg : Seg t R (code .blockEntry) (r, m) (entry r, m) :=
  Seg.onRegs t R (code .blockEntry) rfl (r, m)

theorem addConstants_seg : Seg t R (((code .loopLt8).drop 2).take 4) (r, m) (addConstants r, m) :=
  Seg.onRegs t R (((code .loopLt8).drop 2).take 4) rfl (r, m)

theorem ne_of_four_le {x : Reg} (hx : 4 ≤ x.val) : x ≠ 0 ∧ x ≠ 1 ∧ x ≠ 2 ∧ x ≠ 3 := by
  revert x
  decide

theorem entry_other {x : Reg} (hx : 4 ≤ x.val) : entry r x = r x := by
  obtain ⟨n0, n1, n2, n3⟩ := ne_of_four_le hx
  rw [entry, update_of_ne n3, update_of_ne n2, update_of_ne n1, update_of_ne n0]

theorem addConstants_other {x : Reg} (hx : 4 ≤ x.val) : addConstants r x = r x := by
  obtain ⟨n0, n1, n2, n3⟩ := ne_of_four_le hx
  rw [addConstants, update_of_ne n3, update_of_ne n2, update_of_ne n1, update_of_ne n0]

theorem entry_rows {key : Fin 8 → Word} {counter : Word} {nonce : Fin 3 → Word}
    (h : ∀ i : Fin 16, 4 ≤ i.val → r (row i) = ChaCha20.init key counter nonce i) :
    entry r ∘ row = ChaCha20.init key counter nonce := by
  funext i
  by_cases hi : 4 ≤ i.val
  · exact (entry_other hi).trans (h i hi)
  · have hi : i = 0 ∨ i = 1 ∨ i = 2 ∨ i = 3 := by omega
    rcases hi with rfl | rfl | rfl | rfl <;> rfl

theorem addConstants_low {key : Fin 8 → Word} {counter : Word} {nonce : Fin 3 → Word} {i : Fin 16} (hi : i.val < 4) :
    addConstants r (row i) = r (row i) + ChaCha20.init key counter nonce i := by
  have hi : i = 0 ∨ i = 1 ∨ i = 2 ∨ i = 3 := by omega
  rcases hi with rfl | rfl | rfl | rfl <;> rfl

/-! ## A call with a user's key -/

/-- Two rows of words that do not meet. -/
def Apart (a n b n' : Nat) : Prop := a + n ≤ b ∨ b + n' ≤ a

/-- A call of `ime_chacha_blk` with a user's key: the key at `r0`, the counter
in `r1`, the iv in `r2` to `r4`, the output at `r5` and the stack at `r22`. -/
structure UserCall (t : Nat) (v : View Label) : Prop where
  pc : v.pc = .at .chachaBlk 0
  thread : t < 24 ∧ t ≠ 22
  user : v.regs 0 ≠ 0
  key : Ptr (v.regs 0) 8
  out : Ptr (v.regs 5) 16
  stack : Ptr (v.regs 22) 9
  key_out : Apart (wordOf (v.regs 0)) 8 (wordOf (v.regs 5)) 16
  key_stack : Apart (wordOf (v.regs 0)) 8 (wordOf (v.regs 22)) 9
  out_stack : Apart (wordOf (v.regs 5)) 16 (wordOf (v.regs 22)) 9

/-- The words of the call: its key, output and stack. -/
def Region (regs : Reg → Word) (k : Nat) : Prop :=
  (wordOf (regs 0) ≤ k ∧ k < wordOf (regs 0) + 8) ∨ (wordOf (regs 5) ≤ k ∧ k < wordOf (regs 5) + 16) ∨
    (wordOf (regs 22) ≤ k ∧ k < wordOf (regs 22) + 9)

/-- The state matrix a call begins with. -/
def matrix (v : View Label) : Fin 16 → Word :=
  ChaCha20.init (fun i => v.wram (wordOf (v.regs 0) + i)) (v.regs 1) ![v.regs 2, v.regs 3, v.regs 4]

/-- The run bits as a call of the system key leaves them. -/
structure Settled (bits : Nat → Bool) : Prop where
  bit24 : bits 24 = true
  bit25 : bits 25 = false
  bit26 : bits 26 = false
  bit27 : bits 27 = true

/-- What a user's call does with run bits. -/
def UserBits (l : Label) (i : Nat) (bits : Nat → Bool) : Prop :=
  (l = .chachaLoop ∧ i = 98 ∧ bits 27 = true) ∨ (l = .loopLt8 ∧ i = 0) ∨ (l = .loopLt8 ∧ i = 1 ∧ bits 24 = true)

/-- The words of the stack and the registers they keep. -/
def frame : List (Nat × Reg) := [(0, 0), (1, 1), (2, 2), (3, 3), (4, 4), (5, 5), (6, 14), (7, 15), (8, 16)]

/-- The words of the key and the registers they are loaded to. -/
def keyRow : List (Nat × Reg) := [(0, 4), (1, 5), (2, 6), (3, 7), (4, 8), (5, 9), (6, 10), (7, 11)]

/-- The call that began with `v0`, after `n` rounds. -/
structure UserAt (v0 : View Label) (n : Nat) (pc : Pc Label) (v : View Label) : Prop where
  pc : v.pc = pc
  rows : v.regs ∘ row = (ChaCha20.doubleRound id)^[n] (matrix v0)
  count : v.regs 16 = BitVec.ofNat 32 (10 - n)
  sp : v.regs 22 = v0.regs 22
  saved : ∀ e ∈ frame, v.wram (wordOf (v0.regs 22) + e.1) = v0.regs e.2
  kept : ∀ k, (∀ e ∈ frame, k ≠ wordOf (v0.regs 22) + e.1) → v.wram k = v0.wram k
  bits : v.bits = v0.bits
  visits : v.visits .chachaLoop = v0.visits .chachaLoop + n

variable {v0 v : View Label} {n : Nat}

/-- The words of a buffer of the call. -/
theorem region_key {regs : Reg → Word} {i : Nat} (hi : i < 8) : Region regs (wordOf (regs 0) + i) :=
  .inl ⟨by omega, by omega⟩

theorem region_out {regs : Reg → Word} {i : Nat} (hi : i < 16) : Region regs (wordOf (regs 5) + i) :=
  .inr (.inl ⟨by omega, by omega⟩)

theorem region_stack {regs : Reg → Word} {i : Nat} (hi : i < 9) : Region regs (wordOf (regs 22) + i) :=
  .inr (.inr ⟨by omega, by omega⟩)

/-- Up to the jump to `chacha_block_entry`. -/
theorem UserCall.userKey (h : UserCall t v0) : ∃ r m,
    Seg t (Region v0.regs) ((code .userKey).take 22) (v0.regs, v0.wram) (r, m) ∧
      (∀ i : Fin 16, 4 ≤ i.val → r (row i) = matrix v0 i) ∧ r 16 = 10 ∧ r 22 = v0.regs 22 ∧
      (∀ e ∈ frame, m (wordOf (v0.regs 22) + e.1) = v0.regs e.2) ∧
      ∀ k, (∀ e ∈ frame, k ≠ wordOf (v0.regs 22) + e.1) → m k = v0.wram k := by
  obtain ⟨m, hs1, hsaved, hkept⟩ := Seg.stores Label t (Region v0.regs) (b := 22) (m := v0.wram) rfl h.stack frame (by decide)
    (fun i hi => region_stack hi) (by decide)
  have hs2 := Seg.onRegs t (Region v0.regs)
    [(.move 12 (.reg 1) : Instr Label), .move 13 (.reg 2), .move 14 (.reg 3), .move 15 (.reg 4)] rfl (v0.regs, m)
  simp only [List.foldl_cons, List.foldl_nil, Instr.effect, Src.val] at hs2
  set r2 := update (update (update (update v0.regs 12 _) 13 _) 14 _) 15 _ with hr2
  obtain ⟨r3, hs3, hkey, hother⟩ := Seg.loads Label t (Region v0.regs) (r := r2) (m := m) (b := 0) rfl
    h.key keyRow (by decide) (fun i hi => region_key hi) (by decide) (by decide)
  have hs4 := Seg.onRegs t (Region v0.regs) [(.move 16 (.imm 10) : Instr Label)] rfl (r3, m)
  refine ⟨_, m, ((hs1.append hs2).append hs3).append hs4, fun i hi => ?_, rfl, hother 22 (by decide), hsaved, hkept⟩
  have h16 : ∀ i, row i ≠ 16 := by decide
  show update r3 16 _ (row i) = _
  rw [update_of_ne (h16 i)]
  by_cases h12 : i.val < 12
  · obtain ⟨j, rfl⟩ := ChaCha20.eq_keyPlace hi h12
    have hmem : ∀ j : Fin 8, (j.val, row (ChaCha20.keyPlace j)) ∈ keyRow := by decide
    rw [matrix, ChaCha20.init_key, hkey _ (hmem j)]
    refine hkept _ fun e he => ?_
    have hlt : ∀ e ∈ frame, e.1 < 9 := by decide
    have := hlt e he
    have := h.key_stack
    unfold Apart at this
    show wordOf (v0.regs 0) + j.val ≠ _
    omega
  · have hmem : ∀ i : Fin 16, ¬ i.val < 12 → row i ∉ keyRow.map Prod.snd := by decide
    rw [hother _ (hmem i h12)]
    have hi : i = 12 ∨ i = 13 ∨ i = 14 ∨ i = 15 := by omega
    rcases hi with rfl | rfl | rfl | rfl <;> rfl

/-- A part of the call that began with `v0`. -/
abbrev UserRuns (Y : Board chachaS) (t : Nat) (v0 : View Label) : Nat → View Label → View Label → Prop :=
  Runs (Y.step t) (Good chachaS t (Region v0.regs) UserBits)

/-- From the call to the first round. -/
theorem UserCall.start (h : UserCall t v0) : ∃ v, UserRuns Y t v0 28 v0 v ∧ UserAt v0 0 (.at .chachaLoop 0) v := by
  obtain ⟨r, m, hseg, hkey, h16, hsp, hsaved, hkept⟩ := h.userKey
  have hjump : chachaS.branch .chachaBlk 0 .nz (v0.regs 0 ^^^ 0) (.label .userKey) = .at .userKey 0 :=
    branch_taken (holds_nz h.user)
  set visits := visit .userKey 0 (visit .chachaBlk 0 v0.visits) with hvisits
  have h1 : UserRuns Y t v0 1 v0 ⟨.at .userKey 0, v0.regs, v0.wram, v0.bits, visit .chachaBlk 0 v0.visits⟩ :=
    runs_test h.pc rfl hjump
  have h2 : UserRuns Y t v0 22 ⟨.at .userKey 0, v0.regs, v0.wram, v0.bits, visit .chachaBlk 0 v0.visits⟩
      ⟨.at .userKey 22, r, m, v0.bits, visits⟩ :=
    Seg.runs rfl [.jump .blockEntry] rfl rfl (by decide) rfl hseg
  have h3 : UserRuns Y t v0 1 ⟨.at .userKey 22, r, m, v0.bits, visits⟩ ⟨.at .blockEntry 0, r, m, v0.bits, visits⟩ :=
    runs_jump (l := .userKey) (i := 22) rfl rfl
  have h4 : UserRuns Y t v0 4 ⟨.at .blockEntry 0, r, m, v0.bits, visits⟩
      ⟨.at .chachaLoop 0, entry r, m, v0.bits, visit .blockEntry 0 visits⟩ :=
    Seg.runs (L := Label) (l := .blockEntry) (i := 0) (n := 4) rfl [] rfl rfl (by decide) rfl entry_seg
  exact ⟨_, ((h1.trans h2).trans h3).trans h4, rfl, entry_rows hkey, h16, hsp, hsaved, hkept, rfl, rfl⟩

theorem row_ne {x : Reg} (h : 16 ≤ x.val) (i : Fin 16) : x ≠ row i := by
  rintro rfl
  have := i.isLt
  simp only [row, Fin.val_castLE] at h
  omega

theorem UserCall.not_thread22 (h : UserCall t v0) : BitVec.ofNat 32 t ≠ 22 := by
  intro h22
  have := congrArg BitVec.toNat h22
  obtain ⟨hlt, hne⟩ := h.thread
  rw [BitVec.toNat_ofNat, show (22 : Word).toNat = 22 from rfl] at this
  omega

/-- One more round, and whether it is the last. -/
theorem UserAt.round (hc : UserCall t v0) (h : UserAt v0 n (.at .chachaLoop 0) v) (hn : n < 10) : ∃ v',
    UserRuns Y t v0 98 v v' ∧ UserAt v0 (n + 1) (if n = 9 then .at .chachaLoop 98 else .at .chachaLoop 0) v' := by
  have hseg := Seg.onRegs t (Region v0.regs) doubleRoundCode rfl (v.regs, v.wram)
  rw [doubleRound_effect] at hseg
  set r := ChaCha20.doubleRound row v.regs with hr
  set visits := visit .chachaLoop 0 v.visits with hvisits
  have h1 : UserRuns Y t v0 96 v ⟨.at .chachaLoop 96, r, v.wram, v.bits, visits⟩ :=
    Seg.runs h.pc loopEnd rfl rfl (by decide) rfl hseg
  have htest : chachaS.branch .chachaLoop 96 .z (BitVec.ofNat 32 t ^^^ 22) (.skip 2) = .at .chachaLoop 97 :=
    branch_next (holds_z hc.not_thread22)
  have h2 : UserRuns Y t v0 1 ⟨.at .chachaLoop 96, r, v.wram, v.bits, visits⟩
      ⟨.at .chachaLoop 97, r, v.wram, v.bits, visits⟩ :=
    runs_test (l := .chachaLoop) (i := 96) rfl rfl htest
  have hsub : r 16 - 1 = BitVec.ofNat 32 (10 - (n + 1)) := by
    rw [hr, ChaCha20.doubleRound_other (row_ne (by decide)), h.count]
    apply word_ext
    have h1 : (1 : Word).toNat = 1 := rfl
    rw [BitVec.toNat_sub, BitVec.toNat_ofNat, BitVec.toNat_ofNat, h1]
    omega
  have hjump : chachaS.branch .chachaLoop 97 .nz (BitVec.ofNat 32 (10 - (n + 1))) (.label .chachaLoop) =
      if n = 9 then .at .chachaLoop 98 else .at .chachaLoop 0 := by
    split
    next h9 =>
      subst h9
      exact branch_next rfl
    next h9 =>
      refine branch_taken ?_
      have hne : BitVec.ofNat 32 (10 - (n + 1)) ≠ 0 := by
        intro h0
        have := congrArg BitVec.toNat h0
        rw [BitVec.toNat_ofNat, show (0 : Word).toNat = 0 from rfl] at this
        omega
      simpa [Cond.holds] using hne
  have h3 : UserRuns Y t v0 1 ⟨.at .chachaLoop 97, r, v.wram, v.bits, visits⟩
      ⟨_, update r 16 (BitVec.ofNat 32 (10 - (n + 1))), v.wram, v.bits, visits⟩ :=
    runs_sub (l := .chachaLoop) (i := 97) rfl rfl hsub hjump
  have hother : ∀ {x : Reg}, 16 ≤ x.val → r x = v.regs x := fun hx => ChaCha20.doubleRound_other (row_ne hx)
  refine ⟨_, (h1.trans h2).trans h3, rfl, ?_, update_self (16 : Reg) _ r, ?_, h.saved, h.kept, h.bits, ?_⟩
  · have hrow : update r 16 (BitVec.ofNat 32 (10 - (n + 1))) ∘ row = r ∘ row :=
      funext fun i => update_of_ne (row_ne (by decide) i).symm _ _
    rw [iterate_succ_apply', ← h.rows, ← ChaCha20.doubleRound_comp row_injective]
    exact hrow
  · show update r 16 (BitVec.ofNat 32 (10 - (n + 1))) 22 = _
    rw [update_of_ne (by decide), hother (by decide), h.sp]
  · show update v.visits .chachaLoop (v.visits .chachaLoop + 1) .chachaLoop = _
    rw [update_self, h.visits]
    rfl

/-! ## The way out -/

/-- The block of a call. -/
def userBlock (v0 : View Label) : Fin 16 → Word :=
  ChaCha20.block (fun i => v0.wram (wordOf (v0.regs 0) + i)) (v0.regs 1) ![v0.regs 2, v0.regs 3, v0.regs 4]

/-- The registers of the counter and the iv. -/
def ivRow : List (Nat × Reg) := [(1, 12), (2, 13), (3, 14), (4, 15)]

/-- The last four words of the output, which are stored first. -/
def highRow : List (Nat × Reg) := [(12, 12), (13, 13), (14, 14), (15, 15)]

def lowRow : List (Nat × Reg) :=
  [(0, 0), (1, 1), (2, 2), (3, 3), (4, 4), (5, 5), (6, 6), (7, 7), (8, 8), (9, 9), (10, 10), (11, 11)]

/-- The registers that the call gives back. -/
def backRow : List (Nat × Reg) := [(6, 14), (7, 15), (8, 16)]

/-- From `ime_chacha_user_exit` to the return. -/
theorem UserCall.userExit (hc : UserCall t v0) {s : Fin 16 → Word} (hsp : r 22 = v0.regs 22)
    (hsaved : ∀ e ∈ frame, m (wordOf (v0.regs 22) + e.1) = v0.regs e.2)
    (hkept : ∀ k, (∀ e ∈ frame, k ≠ wordOf (v0.regs 22) + e.1) → m k = v0.wram k)
    (hlow : ∀ i : Fin 16, i.val < 4 → r (row i) = s i + matrix v0 i) (hhigh : ∀ i : Fin 16, 4 ≤ i.val → r (row i) = s i) :
    ∃ r' m', Seg t (Region v0.regs) ((code .userExit).take 45) (r, m) (r', m') ∧
      (∀ i : Fin 16, m' (wordOf (v0.regs 5) + i) = s i + matrix v0 i) ∧ (∀ e ∈ backRow, r' e.2 = v0.regs e.2) ∧
      ∀ k, ¬ Region v0.regs k → m' k = v0.wram k := by
  have hkey := hc.key_stack
  have hout := hc.out_stack
  have hko := hc.key_out
  unfold Apart at hkey hout hko
  obtain ⟨r1, hs1, hiv, hr1⟩ := Seg.loadAdds Label t (Region v0.regs) (m := m) 16 hsp hc.stack ivRow (by decide)
    (fun i hi => region_stack hi) (by decide) (by decide) (by decide) (by decide)
  have hsp1 : r1 22 = v0.regs 22 := (hr1 22 (by decide) (by decide)).trans hsp
  -- `r16` is the output from here on, and `r14` the key
  have hs2 := Seg.load Label t (Region v0.regs) (m := m) 16 hsp1 hc.stack (i := 5) (by decide) (region_stack (by decide))
  rw [hsaved (5, 5) (by decide)] at hs2
  set r2 := update r1 16 (v0.regs 5) with hr2
  have hr2' : ∀ d, d ≠ 16 → r2 d = r1 d := fun d hd => update_of_ne hd _ _
  obtain ⟨m3, hs3, hm3, hk3⟩ := Seg.stores Label t (Region v0.regs) (r := r2) (m := m) (b := 16) (update_self _ _ _)
    hc.out highRow (by decide) (fun i hi => region_out hi) (by decide)
  have hlt : (∀ e ∈ highRow, e.1 < 16) ∧ (∀ e ∈ lowRow, e.1 < 16) ∧ (∀ e ∈ frame, e.1 < 9) ∧ ∀ e ∈ keyRow, e.1 < 8 := by
    decide
  have hsaved3 : ∀ e ∈ frame, m3 (wordOf (v0.regs 22) + e.1) = v0.regs e.2 := fun e he => by
    have := hlt.2.2.1 e he
    rw [hk3 _ fun e' he' => by have := hlt.1 e' he'; omega]
    exact hsaved e he
  have hs4 := Seg.load Label t (Region v0.regs) (m := m3) (r := r2) (b := 22) 14 (hsp1 ▸ hr2' 22 (by decide)) hc.stack
    (i := 0) (by decide) (region_stack (by decide))
  rw [hsaved3 (0, 0) (by decide)] at hs4
  set r4 := update r2 14 (v0.regs 0) with hr4
  obtain ⟨r5, hs5, hkeys, hr5⟩ := Seg.loadAdds Label t (Region v0.regs) (m := m3) (r := r4) (b := 14) 15
    (update_self _ _ _) hc.key keyRow (by decide) (fun i hi => region_key hi) (by decide) (by decide) (by decide) (by decide)
  have h16 : r5 16 = v0.regs 5 := (hr5 16 (by decide) (by decide)).trans rfl
  obtain ⟨m6, hs6, hm6, hk6⟩ := Seg.stores Label t (Region v0.regs) (r := r5) (m := m3) (b := 16) h16
    hc.out lowRow (by decide) (fun i hi => region_out hi) (by decide)
  have hsp5 : r5 22 = v0.regs 22 := (hr5 22 (by decide) (by decide)).trans hsp1
  obtain ⟨r7, hs7, hback, -⟩ := Seg.loads Label t (Region v0.regs) (r := r5) (m := m6) (b := 22) hsp5 hc.stack backRow
    (by decide) (fun i hi => region_stack hi) (by decide) (by decide)
  refine ⟨r7, m6, (((((hs1.append hs2).append hs3).append hs4).append hs5).append hs6).append hs7, fun i => ?_,
    fun e he => ?_, fun k hk => ?_⟩
  · have hr4' : ∀ i : Fin 16, i.val < 12 → r4 (row i) = r (row i) := by
      have hne : ∀ i : Fin 16, i.val < 12 → row i ≠ 14 ∧ row i ≠ 16 ∧ row i ∉ ivRow.map Prod.snd := by decide
      intro i hi
      obtain ⟨h14, h16, hrow⟩ := hne i hi
      rw [hr4, update_of_ne h14, hr2' _ h16, hr1 _ hrow h16]
    by_cases h12 : i.val < 12
    · have hmem : ∀ i : Fin 16, i.val < 12 → (i.val, row i) ∈ lowRow := by decide
      rw [hm6 _ (hmem i h12)]
      by_cases h4 : 4 ≤ i.val
      · obtain ⟨j, rfl⟩ := ChaCha20.eq_keyPlace h4 h12
        have hmem : ∀ j, (j.val, row (ChaCha20.keyPlace j)) ∈ keyRow := by decide
        have hj := j.isLt
        rw [hkeys _ (hmem j), hr4' _ h12, hhigh _ h4, matrix, ChaCha20.init_key,
          hk3 _ fun e he => by have := hlt.1 e he; simp only; omega, hkept _ fun e he => by have := hlt.2.2.1 e he; simp only; omega]
      · have hne : ∀ i : Fin 16, i.val < 4 → row i ∉ keyRow.map Prod.snd ∧ row i ≠ 15 := by decide
        obtain ⟨hrow, h15⟩ := hne i (by omega)
        rw [hr5 _ hrow h15, hr4' i h12, hlow i (by omega)]
    · have hlow12 : ∀ e ∈ lowRow, e.1 < 12 := by decide
      rw [hk6 _ fun e he => by have := hlow12 e he; omega]
      have hmem : ∀ i : Fin 16, ¬ i.val < 12 → (i.val, row i) ∈ highRow ∧ (i.val - 11, row i) ∈ ivRow ∧
          (i.val - 11, Fin.ofNat 24 (i.val - 11)) ∈ frame ∧ row i ≠ 16 := by decide
      obtain ⟨hhi, hiv', hfr, h16⟩ := hmem i h12
      rw [hm3 _ hhi, hr2' _ h16, hiv _ hiv', hhigh i (by omega), hsaved _ hfr]
      have hi : i = 12 ∨ i = 13 ∨ i = 14 ∨ i = 15 := by omega
      rcases hi with rfl | rfl | rfl | rfl <;> rfl
  · have hmem : ∀ e ∈ backRow, e ∈ frame := by decide
    have := hlt.2.2.1 e (hmem e he)
    rw [hback e he, hk6 _ fun e' he' => by have := hlt.2.1 e' he'; omega]
    exact hsaved3 e (hmem e he)
  · have hnot : ∀ {w n i : Nat}, i < n → (w ≤ k ∧ k < w + n → False) → k ≠ w + i := fun hi hw hk => hw ⟨by omega, by omega⟩
    rw [hk6 _ fun e he => hnot (hlt.2.1 e he) fun h => hk (.inr (.inl h)),
      hk3 _ fun e he => hnot (hlt.1 e he) fun h => hk (.inr (.inl h)),
      hkept _ fun e he => hnot (hlt.2.2.1 e he) fun h => hk (.inr (.inr h))]

/-- What a call has done when it returns. -/
structure UserDone (v0 v : View Label) : Prop where
  pc : v.pc = .returned
  rounds : v.visits .chachaLoop = v0.visits .chachaLoop + 10
  block : ∀ i : Fin 16, v.wram (wordOf (v0.regs 5) + i) = userBlock v0 i
  back : v.regs 14 = v0.regs 14 ∧ v.regs 15 = v0.regs 15 ∧ v.regs 16 = v0.regs 16
  kept : ∀ k, ¬ Region v0.regs k → v.wram k = v0.wram k
  bits : v.bits = v0.bits

/-- From the last round to the return, with the run bits settled. -/
theorem UserAt.finish (hc : UserCall t v0) (hb : Settled v0.bits) (h : UserAt v0 10 (.at .chachaLoop 98) v) :
    ∃ v', UserRuns Y t v0 54 v v' ∧ UserDone v0 v' := by
  have hclr : chachaS.branch .chachaLoop 98 .nz (bitWord (v.bits 27)) (.label .loopLt8) = .at .loopLt8 0 := by
    rw [h.bits, hb.bit27]
    exact branch_taken rfl
  have h1 : UserRuns Y t v0 1 v ⟨.at .loopLt8 0, v.regs, v.wram, update v.bits 27 false, v.visits⟩ :=
    runs_clrRun (l := .chachaLoop) (i := 98) h.pc rfl hclr (.inl ⟨rfl, rfl, h.bits ▸ hb.bit27⟩)
  rw [h.bits] at h1
  set visits1 := visit .loopLt8 0 v.visits with hvisits1
  have h2 : UserRuns Y t v0 1 ⟨.at .loopLt8 0, v.regs, v.wram, update v0.bits 27 false, v.visits⟩
      ⟨.at .loopLt8 1, v.regs, v.wram, update (update v0.bits 27 false) 27 true, visits1⟩ :=
    runs_boot (L := Label) (l := .loopLt8) (i := 0) rfl rfl (branch_taken rfl) (.inr (.inl ⟨rfl, rfl⟩))
  rw [update_idem, ← hb.bit27, update_eq_self] at h2
  have hboot : chachaS.branch .loopLt8 1 .z (bitWord (v0.bits 24)) (.label .chachaLoop) = .at .loopLt8 2 := by
    rw [hb.bit24]
    exact branch_next rfl
  have hset24 : update v0.bits 24 true = v0.bits := by rw [← hb.bit24, update_eq_self]
  have h3 : UserRuns Y t v0 1 ⟨.at .loopLt8 1, v.regs, v.wram, v0.bits, visits1⟩
      ⟨.at .loopLt8 2, v.regs, v.wram, update v0.bits 24 true, visits1⟩ :=
    runs_boot (l := .loopLt8) (i := 1) rfl rfl hboot (.inr (.inr ⟨rfl, rfl, hb.bit24⟩))
  rw [hset24] at h3
  set r := addConstants v.regs with hr
  have h4 : UserRuns Y t v0 4 ⟨.at .loopLt8 2, v.regs, v.wram, v0.bits, visits1⟩
      ⟨.at .loopLt8 6, r, v.wram, v0.bits, visits1⟩ :=
    Seg.runs (L := Label) (l := .loopLt8) (i := 2) (n := 4) rfl ((code .loopLt8).drop 6) rfl rfl (by decide) rfl addConstants_seg
  have h5 : UserRuns Y t v0 1 ⟨.at .loopLt8 6, r, v.wram, v0.bits, visits1⟩
      ⟨.at .userExit 0, r, v.wram, v0.bits, visits1⟩ :=
    runs_test (l := .loopLt8) (i := 6) rfl rfl (branch_taken (holds_nz hc.not_thread22))
  have hrow : ∀ i : Fin 16, v.regs (row i) = (ChaCha20.doubleRound id)^[10] (matrix v0) i := congrFun h.rows
  obtain ⟨r', m', hseg, hblock, hback, hkept⟩ := hc.userExit (r := r) (s := (ChaCha20.doubleRound id)^[10] (matrix v0))
    h.sp h.saved h.kept (fun i hi => by rw [← hrow, hr, matrix, addConstants_low hi]) fun i hi => by rw [← hrow, hr, addConstants_other hi]
  have h6 : UserRuns Y t v0 45 ⟨.at .userExit 0, r, v.wram, v0.bits, visits1⟩
      ⟨.at .userExit 45, r', m', v0.bits, visit .userExit 0 visits1⟩ :=
    Seg.runs (L := Label) (l := .userExit) (i := 0) (n := 45) rfl [.ret] rfl rfl (by decide) rfl hseg
  have h7 : UserRuns Y t v0 1 ⟨.at .userExit 45, r', m', v0.bits, visit .userExit 0 visits1⟩
      ⟨.returned, r', m', v0.bits, visit .userExit 0 visits1⟩ :=
    runs_ret (L := Label) (l := .userExit) (i := 45) rfl rfl
  exact ⟨⟨.returned, r', m', v0.bits, visit .userExit 0 visits1⟩,
    (((((h1.trans h2).trans h3).trans h4).trans h5).trans h6).trans h7, rfl, h.visits, hblock,
    ⟨hback (6, 14) (by decide), hback (7, 15) (by decide), hback (8, 16) (by decide)⟩, hkept, rfl⟩

/-- The ten rounds. -/
theorem UserCall.rounds (hc : UserCall t v0) :
    ∃ v, UserRuns Y t v0 1008 v0 v ∧ UserAt v0 10 (.at .chachaLoop 98) v := by
  obtain ⟨v1, h1, ha1⟩ := hc.start
  obtain ⟨v2, h2, ha2⟩ := Runs.rounds (n := 9) (f := Y.step t) (G := Good chachaS t (Region v0.regs) UserBits) (c := 98)
    (I := fun n v => UserAt v0 n (.at .chachaLoop 0) v)
    (fun n hn v ha => by
      obtain ⟨v', h, ha'⟩ := ha.round hc (by omega)
      rw [if_neg (by omega)] at ha'
      exact ⟨v', h, ha'⟩) 9 le_rfl v1 ha1
  obtain ⟨v3, h3, ha3⟩ := ha2.round hc (by decide)
  exact ⟨v3, (h1.trans h2).trans h3, ha3⟩

/-- **A user's call alone.** With the run bits settled, it runs ten rounds,
writes the block and puts the run bits and its registers back. -/
theorem UserCall.runs (hc : UserCall t v0) (hb : Settled v0.bits) :
    ∃ v, UserRuns Y t v0 1062 v0 v ∧ UserDone v0 v := by
  obtain ⟨v1, h1, ha1⟩ := hc.rounds
  obtain ⟨v2, h2, hd⟩ := ha1.finish hc hb
  exact ⟨v2, h1.trans h2, hd⟩

end Memclave.Chacha
