/-
Rules for code of a DPU: a segment of straight-line code is run from its
first instruction to its last (`Seg.runs`), and what a row of loads, of
stores or of additions does (`Seg.loads`, `Seg.stores`, `Seg.loadAdds`).

Every state on the way is `Good`: the instruction to come touches a word of a
given region alone.
-/
import Memclave.Isa
import Memclave.Lib.System

namespace Memclave.Isa

open Words Function Copy Loader Sys

variable {L : Type} {id : Nat} {R : Nat → Prop}

/-! ## Pointers -/

/-- A pointer to `n` words of WRAM. -/
structure Ptr (p : Word) (n : Nat) : Prop where
  aligned : p.toNat % 4 = 0
  le : p.toNat + 4 * n ≤ 0x10000

/-- The word of WRAM a pointer points to. -/
def wordOf (p : Word) : Nat := p.toNat / 4

theorem Ptr.wordAt {p : Word} {n i : Nat} (h : Ptr p n) (hi : i < n) : wordAt p (4 * i) = wordOf p + i := by
  obtain ⟨ha, hle⟩ := h
  rw [Isa.wordAt, wordOf, BitVec.toNat_add, BitVec.toNat_ofNat]
  omega

/-! ## Segments -/

/-- Registers and WRAM. -/
abbrev File := (Reg → Word) × (Nat → Word)

/-- The words of WRAM an instruction reads or writes. -/
def Instr.Touches (id : Nat) (regs : Reg → Word) : Instr L → Nat → Prop
  | .lw _ a off, k => wordAt (a.val id regs) off = k
  | .sw a off _, k => wordAt (a.val id regs) off = k
  | .ldma w _ n, k => wramAt (w.val id regs) ≤ k ∧ k < wramAt (w.val id regs) + 2 * (n + 1)
  | _, _ => False

/-- Straight-line code that leads from `x` to `x'` and touches words of `R`
alone. -/
inductive Seg (id : Nat) (R : Nat → Prop) : List (Instr L) → File → File → Prop
  | nil {x} : Seg id R [] x x
  | cons {ins is x x'} : ins.straight = true → (∀ k, ins.Touches id x.1 k → R k) →
      Seg id R is (ins.effect id x) x' → Seg id R (ins :: is) x x'

theorem Seg.append {is is' : List (Instr L)} {x x1 x2 : File} (h : Seg id R is x x1) (h' : Seg id R is' x1 x2) :
    Seg id R (is ++ is') x x2 := by
  induction h with
  | nil => exact h'
  | cons hs hw _ ih => exact .cons hs hw (ih h')

/-- On registers alone. -/
def Instr.onRegs : Instr L → Bool
  | .move .. | .add .. | .xor .. | .rol .. => true
  | _ => false

theorem Instr.onRegs_spec {ins : Instr L} (h : ins.onRegs = true) (id : Nat) (regs : Reg → Word) :
    ins.straight = true ∧ ∀ k, ¬ ins.Touches id regs k := by
  cases ins <;> simp_all [Instr.onRegs, Instr.straight, Instr.Touches]

variable (id R) in
theorem Seg.onRegs (is : List (Instr L)) (h : is.all Instr.onRegs = true) (x : File) :
    Seg id R is x (is.foldl (fun x ins => ins.effect id x) x) := by
  induction is generalizing x with
  | nil => exact .nil
  | cons ins is ih =>
    rw [List.all_cons, Bool.and_eq_true] at h
    obtain ⟨hs, hw⟩ := Instr.onRegs_spec h.1 id x.1
    exact .cons hs (fun k hk => absurd hk (hw k)) (ih h.2 _)

/-! ## Rows of loads and stores -/

variable {r : Reg → Word} {m : Nat → Word} {b : Reg} {p : Word} {n : Nat}

variable (L id R) in
/-- One load. -/
theorem Seg.load {i : Nat} (d : Reg) (hb : r b = p) (hp : Ptr p n) (hi : i < n) (hR : R (wordOf p + i)) :
    Seg id R [(.lw d (.reg b) (4 * i) : Instr L)] (r, m) (update r d (m (wordOf p + i)), m) := by
  have hat : wordAt (r b) (4 * i) = wordOf p + i := hb ▸ hp.wordAt hi
  rw [← hat] at hR ⊢
  exact .cons rfl (fun k hk => (hk : wordAt (r b) (4 * i) = k) ▸ hR) .nil

variable (L id R) in
/-- One store. -/
theorem Seg.store {i : Nat} (s : Reg) (hb : r b = p) (hp : Ptr p n) (hi : i < n) (hR : R (wordOf p + i)) :
    Seg id R [(.sw (.reg b) (4 * i) (.reg s) : Instr L)] (r, m) (r, update m (wordOf p + i) (r s)) := by
  have hat : wordAt (r b) (4 * i) = wordOf p + i := hb ▸ hp.wordAt hi
  rw [← hat] at hR ⊢
  exact .cons rfl (fun k hk => (hk : wordAt (r b) (4 * i) = k) ▸ hR) .nil

theorem wordAt_zero : wordAt 0 0 = 0 := by decide

variable (L id R) in
/-- Stores of the registers of a row to the words of a buffer. -/
theorem Seg.stores (hb : r b = p) (hp : Ptr p n) (row : List (Nat × Reg)) (hlt : ∀ e ∈ row, e.1 < n)
    (hR : ∀ i < n, R (wordOf p + i)) (hnd : (row.map Prod.fst).Nodup) :
    ∃ m', Seg id R (row.map fun e => (.sw (.reg b) (4 * e.1) (.reg e.2) : Instr L)) (r, m) (r, m') ∧
      (∀ e ∈ row, m' (wordOf p + e.1) = r e.2) ∧
      ∀ k, (∀ e ∈ row, k ≠ wordOf p + e.1) → m' k = m k := by
  induction row generalizing m with
  | nil => exact ⟨m, .nil, fun e he => absurd he List.not_mem_nil, fun _ _ => rfl⟩
  | cons e row ih =>
    rw [List.map_cons, List.nodup_cons] at hnd
    have he := hlt e List.mem_cons_self
    obtain ⟨m', hs, hin, hout⟩ := ih (m := update m (wordOf p + e.1) (r e.2))
      (fun e' h => hlt e' (List.mem_cons_of_mem _ h)) hnd.2
    have hne : ∀ e' ∈ row, e.1 ≠ e'.1 := fun e' h he' => hnd.1 (he' ▸ List.mem_map_of_mem h)
    have hat : wordAt (r b) (4 * e.1) = wordOf p + e.1 := hb ▸ hp.wordAt he
    refine ⟨m', .cons rfl (fun k hk => ?_) ?_, fun e' h => ?_, fun k hk => ?_⟩
    · obtain rfl : wordAt (r b) (4 * e.1) = k := hk
      rw [hat]
      exact hR _ he
    · rw [← hat] at hs
      exact hs
    · rcases List.mem_cons.mp h with rfl | h
      · rw [hout _ fun e' h' heq => hne e' h' (Nat.add_left_cancel heq), update_self]
      · exact hin e' h
    · rw [hout k fun e' h => hk e' (List.mem_cons_of_mem _ h), update_of_ne (hk e List.mem_cons_self)]

variable (L id R) in
/-- Loads of the words of a buffer into the registers of a row. -/
theorem Seg.loads (hb : r b = p) (hp : Ptr p n) (row : List (Nat × Reg)) (hlt : ∀ e ∈ row, e.1 < n)
    (hR : ∀ i < n, R (wordOf p + i)) (hnd : (row.map Prod.snd).Nodup) (hrow : b ∉ row.map Prod.snd) :
    ∃ r', Seg id R (row.map fun e => (.lw e.2 (.reg b) (4 * e.1) : Instr L)) (r, m) (r', m) ∧
      (∀ e ∈ row, r' e.2 = m (wordOf p + e.1)) ∧ ∀ d, d ∉ row.map Prod.snd → r' d = r d := by
  induction row generalizing r with
  | nil => exact ⟨r, .nil, fun e he => absurd he List.not_mem_nil, fun _ _ => rfl⟩
  | cons e row ih =>
    rw [List.map_cons, List.nodup_cons] at hnd
    rw [List.map_cons, List.mem_cons, not_or] at hrow
    have he := hlt e List.mem_cons_self
    have hat : wordAt (r b) (4 * e.1) = wordOf p + e.1 := hb ▸ hp.wordAt he
    have hrb : update r e.2 (m (wordOf p + e.1)) b = p := (update_of_ne hrow.1 _ _).trans hb
    obtain ⟨r', hs, hin, hout⟩ := ih hrb (fun e' h => hlt e' (List.mem_cons_of_mem _ h)) hnd.2 hrow.2
    refine ⟨r', .cons rfl (fun k hk => ?_) ?_, fun e' h => ?_, fun d hd => ?_⟩
    · obtain rfl : wordAt (r b) (4 * e.1) = k := hk
      rw [hat]
      exact hR _ he
    · rw [← hat] at hs
      exact hs
    · rcases List.mem_cons.mp h with rfl | h
      · rw [hout _ hnd.1, update_self]
      · exact hin e' h
    · rw [List.map_cons, List.mem_cons, not_or] at hd
      rw [hout d hd.2, update_of_ne hd.1]

variable (L id R) in
/-- Additions of the words of a buffer to the registers of a row, by way of
`t`. -/
theorem Seg.loadAdds (t : Reg) (hb : r b = p) (hp : Ptr p n) (row : List (Nat × Reg)) (hlt : ∀ e ∈ row, e.1 < n)
    (hR : ∀ i < n, R (wordOf p + i)) (hnd : (row.map Prod.snd).Nodup) (hrow : b ∉ row.map Prod.snd)
    (ht : t ∉ row.map Prod.snd) (hbt : b ≠ t) :
    ∃ r', Seg id R (row.flatMap fun e => [(.lw t (.reg b) (4 * e.1) : Instr L), .add e.2 e.2 (.reg t)]) (r, m) (r', m) ∧
      (∀ e ∈ row, r' e.2 = r e.2 + m (wordOf p + e.1)) ∧ ∀ d, d ∉ row.map Prod.snd → d ≠ t → r' d = r d := by
  induction row generalizing r with
  | nil => exact ⟨r, .nil, fun e he => absurd he List.not_mem_nil, fun _ _ _ => rfl⟩
  | cons e row ih =>
    rw [List.map_cons, List.nodup_cons] at hnd
    rw [List.map_cons, List.mem_cons, not_or] at hrow ht
    have he := hlt e List.mem_cons_self
    have hat : wordAt (r b) (4 * e.1) = wordOf p + e.1 := hb ▸ hp.wordAt he
    set r1 := update (update r t (m (wordOf p + e.1))) e.2 (r e.2 + m (wordOf p + e.1)) with hr1
    have hother : ∀ d, d ≠ e.2 → d ≠ t → r1 d = r d := fun d h1 h2 => by
      rw [hr1, update_of_ne h1, update_of_ne h2]
    have hrb : r1 b = p := (hother b hrow.1 hbt).trans hb
    obtain ⟨r', hs, hin, hout⟩ := ih hrb (fun e' h => hlt e' (List.mem_cons_of_mem _ h)) hnd.2 hrow.2 ht.2
    have hmem : ∀ e' ∈ row, e'.2 ≠ e.2 ∧ e'.2 ≠ t := fun e' h =>
      ⟨fun heq => hnd.1 (heq ▸ List.mem_map_of_mem h), fun heq => ht.2 (heq ▸ List.mem_map_of_mem h)⟩
    refine ⟨r', .cons rfl (fun k hk => ?_) (.cons rfl (fun _ hk => hk.elim) ?_), fun e' h => ?_, fun d hd hdt => ?_⟩
    · obtain rfl : wordAt (r b) (4 * e.1) = k := hk
      rw [hat]
      exact hR _ he
    · have hadd : (Instr.add e.2 e.2 (.reg t) : Instr L).effect id
          ((Instr.lw t (.reg b) (4 * e.1) : Instr L).effect id (r, m)) = (r1, m) := by
        simp only [Instr.effect, Src.val, hat, update_self, update_of_ne (Ne.symm ht.1), hr1]
      rw [hadd]
      exact hs
    · rcases List.mem_cons.mp h with rfl | h
      · rw [hout _ hnd.1 (Ne.symm ht.1), hr1, update_self]
      · rw [hin e' h, hother _ (hmem e' h).1 (hmem e' h).2]
    · rw [List.map_cons, List.mem_cons, not_or] at hd
      rw [hout d hd.2 hdt, hother d hd.1 hdt]

/-! ## Runs -/

variable {P : Prog L} {Y : Board P} {B : L → Nat → (Nat → Bool) → Prop} {l : L} {i : Nat} {v : View L}

theorem branch_taken {c : Cond} {w : Word} {dst : Target L} (h : c.holds w = true) :
    P.branch l i c w dst = P.target l i dst := if_pos h

theorem branch_next {c : Cond} {w : Word} {dst : Target L} (h : c.holds w = false) :
    P.branch l i c w dst = P.succ l i := if_neg (by rw [h]; exact Bool.false_ne_true)

/-- The bitwise difference of two words is zero for equal words alone. -/
theorem holds_z {x y : Word} (h : x ≠ y) : Cond.z.holds (x ^^^ y) = false := by
  simpa [Cond.holds, BitVec.xor_eq_zero_iff] using h

theorem holds_nz {x y : Word} (h : x ≠ y) : Cond.nz.holds (x ^^^ y) = true := by
  simpa [Cond.holds, BitVec.xor_eq_zero_iff] using h

/-- Instructions on run bits. -/
def Instr.shared : Instr L → Bool
  | .clrRun .. | .boot .. | .stop => true
  | _ => false

theorem exec_straight {ins : Instr L} (h : ins.straight = true) : Y.exec id l i ins v =
    { v with
      regs := (ins.effect id (v.regs, v.wram)).1
      wram := (ins.effect id (v.regs, v.wram)).2
      pc := P.succ l i } := by
  cases ins <;> first | rfl | exact absurd h Bool.false_ne_true

theorem straight_shared {ins : Instr L} (h : ins.straight = true) : ins.shared = false := by
  cases ins <;> first | rfl | exact absurd h Bool.false_ne_true

variable [DecidableEq L]

/-- The instruction to come touches a word of `R` alone, and a run bit as `B`
says. -/
def Good (P : Prog L) (id : Nat) (R : Nat → Prop) (B : L → Nat → (Nat → Bool) → Prop) (v : View L) : Prop :=
  ∃ l i ins, v.pc = .at l i ∧ (P.code l)[i]? = some ins ∧ (∀ k, ins.Touches id v.regs k → R k) ∧
    (ins.shared = true → B l i v.bits)

theorem step_eq {ins : Instr L} (hpc : v.pc = .at l i) (hc : (P.code l)[i]? = some ins) :
    Y.step id v = Y.exec id l i ins { v with visits := visit l i v.visits } := by
  rw [Board.step, hpc]
  simp only [hc]

theorem step_load_zero {d : Reg} (hpc : v.pc = .at l i) (hc : (P.code l)[i]? = some (.lw d .zero 0x0)) :
    Y.step id v = ⟨P.succ l i, update v.regs d (v.wram 0), v.wram, v.bits, visit l i v.visits⟩ := by
  rw [step_eq hpc hc, exec_straight rfl]
  simp only [Instr.effect, Src.val, wordAt_zero]

theorem step_store_zero {s : Reg} (hpc : v.pc = .at l i) (hc : (P.code l)[i]? = some (.sw .zero 0x0 (.reg s))) :
    Y.step id v = ⟨P.succ l i, v.regs, update v.wram 0 (v.regs s), v.bits, visit l i v.visits⟩ := by
  rw [step_eq hpc hc, exec_straight rfl]
  simp only [Instr.effect, Src.val, wordAt_zero]

theorem runs_step {ins : Instr L} (hpc : v.pc = .at l i) (hc : (P.code l)[i]? = some ins)
    (hw : ∀ k, ins.Touches id v.regs k → R k) (hB : ins.shared = true → B l i v.bits) :
    Runs (Y.step id) (Good P id R B) 1 v (Y.exec id l i ins { v with visits := visit l i v.visits }) := by
  rw [← step_eq hpc hc]
  exact Runs.one ⟨l, i, ins, hpc, hc, hw, hB⟩

/-- A step leaves the words outside `R` as they are. -/
theorem Good.frame (h : Good P id R B v) {k : Nat} (hk : ¬ R k) : (Y.step id v).wram k = v.wram k := by
  obtain ⟨l, i, ins, hpc, hc, hw, -⟩ := h
  rw [step_eq hpc hc]
  cases ins with
  | sw a off s =>
    refine update_of_ne (fun heq => hk ?_) _ _
    rw [heq]
    exact hw _ rfl
  | ldma w a n =>
    simp only [Board.exec]
    split
    · refine blit_out ?_
      by_contra hin
      exact hk (hw k (by simp only [Instr.Touches]; omega))
    · rfl
  | _ => rfl

/-- A step of an instruction that shares nothing leaves the run bits as they
are. -/
theorem Good.bits (h : Good P id R (fun _ _ _ => False) v) : (Y.step id v).bits = v.bits := by
  obtain ⟨l, i, ins, hpc, hc, -, hB⟩ := h
  rw [step_eq hpc hc]
  cases ins with
  | clrRun | boot | stop => exact (hB rfl).elim
  | ldma =>
    simp only [Board.exec]
    split
    · rfl
    · rfl
  | _ => rfl

/-- A jump on a result. -/
theorem runs_test {a b : Src} {c : Cond} {dst : Target L} {pc : Pc L} (hpc : v.pc = .at l i)
    (hc : (P.code l)[i]? = some (.test a b c dst)) (h : P.branch l i c (a.val id v.regs ^^^ b.val id v.regs) dst = pc) :
    Runs (Y.step id) (Good P id R B) 1 v { v with pc := pc, visits := visit l i v.visits } := by
  rw [← h]
  exact runs_step hpc hc (fun _ hk => hk.elim) fun hk => nomatch hk

theorem runs_sub {d a : Reg} {b : Src} {c : Cond} {l' : L} {w : Word} {pc : Pc L} (hpc : v.pc = .at l i)
    (hc : (P.code l)[i]? = some (.sub d a b c l')) (hw : v.regs a - b.val id v.regs = w)
    (h : P.branch l i c w (.label l') = pc) :
    Runs (Y.step id) (Good P id R B) 1 v { v with pc := pc, regs := update v.regs d w, visits := visit l i v.visits } := by
  subst hw h
  exact runs_step hpc hc (fun _ hk => hk.elim) fun hk => nomatch hk

theorem runs_ret (hpc : v.pc = .at l i) (hc : (P.code l)[i]? = some .ret) :
    Runs (Y.step id) (Good P id R B) 1 v { v with pc := .returned, visits := visit l i v.visits } :=
  runs_step hpc hc (fun _ hk => hk.elim) fun hk => nomatch hk

theorem runs_clrRun {bit : Nat} {c : Cond} {dst : Target L} {pc : Pc L} (hpc : v.pc = .at l i)
    (hc : (P.code l)[i]? = some (.clrRun bit c dst)) (h : P.branch l i c (bitWord (v.bits bit)) dst = pc)
    (hB : B l i v.bits) : Runs (Y.step id) (Good P id R B) 1 v
      { v with pc := pc, bits := update v.bits bit false, visits := visit l i v.visits } := by
  subst h
  exact runs_step hpc hc (fun _ hk => hk.elim) fun _ => hB

theorem runs_boot {bit : Nat} {c : Cond} {dst : Target L} {pc : Pc L} (hpc : v.pc = .at l i)
    (hc : (P.code l)[i]? = some (.boot bit c dst)) (h : P.branch l i c (bitWord (v.bits bit)) dst = pc)
    (hB : B l i v.bits) : Runs (Y.step id) (Good P id R B) 1 v
      { v with pc := pc, bits := update v.bits bit true, visits := visit l i v.visits } := by
  subst h
  exact runs_step hpc hc (fun _ hk => hk.elim) fun _ => hB

theorem runs_jump {l' : L} (hpc : v.pc = .at l i) (hc : (P.code l)[i]? = some (.jump l')) :
    Runs (Y.step id) (Good P id R B) 1 v { v with pc := .at l' 0, visits := visit l i v.visits } :=
  runs_step hpc hc (fun _ hk => hk.elim) fun hk => nomatch hk

/-- What `G` asks of the states on the way is asked of an instruction of the
segment. -/
theorem Seg.runs_file {is post : List (Instr L)} {x x' : File} {G : View L → Prop} (h : Seg id R is x x') (hne : is ≠ [])
    (hcode : (P.code l).drop i = is ++ post) (hpc : v.pc = .at l i) (hx : x = (v.regs, v.wram))
    (hG : ∀ v j ins, v.pc = .at l j → i ≤ j ∧ j < i + is.length → (P.code l)[j]? = some ins → ins.straight = true →
      (∀ k, ins.Touches id v.regs k → R k) → G v) :
    Runs (Y.step id) G is.length v ⟨P.succ l (i + is.length - 1), x'.1, x'.2, v.bits, visit l i v.visits⟩ := by
  induction h generalizing i v with
  | nil => exact absurd rfl hne
  | @cons ins is x x' hs hw hseg ih =>
    have hc : (P.code l)[i]? = some ins := by
      rw [← List.head?_drop, hcode]
      rfl
    have hone : Runs (Y.step id) G 1 v (Y.step id v) :=
      Runs.one (hG v i ins hpc ⟨le_rfl, by simp⟩ hc hs (by rwa [hx] at hw))
    rw [step_eq hpc hc, exec_straight hs] at hone
    cases is with
    | nil =>
      cases hseg
      rw [hx]
      exact hone
    | cons ins' is =>
      have hcode' : (P.code l).drop (i + 1) = ins' :: is ++ post := by
        rw [← List.drop_drop, hcode]
        rfl
      have hlt : i + 1 < (P.code l).length := by
        by_contra hle
        rw [List.drop_eq_nil_of_le (by omega)] at hcode'
        exact absurd hcode' (by simp)
      have hrest := ih (List.cons_ne_nil _ _) hcode' (v := ⟨.at l (i + 1), (ins.effect id x).1, (ins.effect id x).2, v.bits,
        visit l i v.visits⟩) rfl rfl fun v j ins hpc hj => hG v j ins hpc (by
          simp only [List.length_cons] at hj ⊢
          omega)
      have hsucc : P.succ l i = .at l (i + 1) := if_pos hlt
      rw [hsucc, ← hx] at hone
      have := hone.trans hrest
      rw [Nat.add_comm 1] at this
      have hlast : i + 1 + (ins' :: is).length - 1 = i + (ins :: ins' :: is).length - 1 := by
        simp only [List.length_cons]
        omega
      rw [hlast] at this
      exact this

/-- A segment is run from its first instruction to its last. -/
theorem Seg.runs {is : List (Instr L)} {r' : Reg → Word} {m' : Nat → Word} {n : Nat} {pc : Pc L} (hpc : v.pc = .at l i)
    (post : List (Instr L)) (hcode : (P.code l).drop i = is ++ post) (hn : is.length = n) (h0 : n ≠ 0)
    (hend : P.succ l (i + n - 1) = pc) (h : Seg id R is (v.regs, v.wram) (r', m')) :
    Runs (Y.step id) (Good P id R B) n v ⟨pc, r', m', v.bits, visit l i v.visits⟩ := by
  subst hn hend
  refine h.runs_file (fun hnil => h0 (congrArg List.length hnil)) hcode hpc rfl fun v j ins hpc _ hc hs hw =>
    ⟨l, j, ins, hpc, hc, hw, fun hsh => ?_⟩
  rw [straight_shared hs] at hsh
  exact absurd hsh Bool.false_ne_true

/-! ## Two runs that agree -/

/-- Two views of a thread that agree on all but the run bits and the words
outside `R`. -/
structure Agree (R : Nat → Prop) (v w : View L) : Prop where
  pc : v.pc = w.pc
  regs : v.regs = w.regs
  visits : v.visits = w.visits
  wram : ∀ k, R k → v.wram k = w.wram k

/-- An instruction that shares nothing, on views that agree. -/
theorem Agree.step {ins : Instr L} {v w : View L} (h : Agree R v w) (hpc : w.pc = .at l i)
    (hc : (P.code l)[i]? = some ins) (hsh : ins.shared = false) (hw : ∀ k, ins.Touches id w.regs k → R k) :
    Agree R (Y.step id v) (Y.step id w) := by
  rw [step_eq hpc hc, step_eq (h.pc.trans hpc) hc]
  obtain ⟨pc, regs, m, bits, visits⟩ := v
  obtain ⟨pc', regs', m', bits', visits'⟩ := w
  obtain ⟨rfl, rfl, rfl, hm⟩ := h
  cases ins with
  | lw d a off =>
    have hword : m (wordAt (a.val id regs) off) = m' (wordAt (a.val id regs) off) := hm _ (hw _ rfl)
    exact ⟨rfl, congrArg (update regs d) hword, rfl, hm⟩
  | sw a off s =>
    refine ⟨rfl, rfl, rfl, fun k hk => ?_⟩
    have hmk : m k = m' k := hm k hk
    show update m (wordAt (a.val id regs) off) (s.val id regs) k = update m' (wordAt (a.val id regs) off) (s.val id regs) k
    rw [update_apply, update_apply, hmk]
  | ldma w a n =>
    simp only [Board.exec]
    split
    · refine ⟨rfl, rfl, rfl, fun k hk => ?_⟩
      have hmk : m k = m' k := hm k hk
      simp only [blit, hmk]
    · exact ⟨rfl, rfl, rfl, hm⟩
  | clrRun | boot | stop => exact absurd hsh (by simp [Instr.shared])
  | _ => exact ⟨rfl, rfl, rfl, hm⟩

variable (id) in
/-- An instruction on a run bit, on views that agree, where both jump or
neither does. -/
theorem Agree.clrRun {bit : Nat} {c : Cond} {dst : Target L} {v w : View L} (h : Agree R v w) (hpc : w.pc = .at l i)
    (hc : (P.code l)[i]? = some (.clrRun bit c dst))
    (hb : c.holds (bitWord (v.bits bit)) = c.holds (bitWord (w.bits bit))) :
    Agree R (Y.step id v) (Y.step id w) ∧ (Y.step id v).bits = update v.bits bit false ∧
      (Y.step id v).wram = v.wram := by
  rw [step_eq hpc hc, step_eq (h.pc.trans hpc) hc]
  have hbr : P.branch l i c (bitWord (v.bits bit)) dst = P.branch l i c (bitWord (w.bits bit)) dst := by
    rw [Prog.branch, hb, Prog.branch]
  exact ⟨⟨hbr, h.regs, congrArg (visit l i) h.visits, h.wram⟩, rfl, rfl⟩

variable (id) in
theorem Agree.boot {bit : Nat} {c : Cond} {dst : Target L} {v w : View L} (h : Agree R v w) (hpc : w.pc = .at l i)
    (hc : (P.code l)[i]? = some (.boot bit c dst))
    (hb : c.holds (bitWord (v.bits bit)) = c.holds (bitWord (w.bits bit))) :
    Agree R (Y.step id v) (Y.step id w) ∧ (Y.step id v).bits = update v.bits bit true ∧
      (Y.step id v).wram = v.wram := by
  rw [step_eq hpc hc, step_eq (h.pc.trans hpc) hc]
  have hbr : P.branch l i c (bitWord (v.bits bit)) dst = P.branch l i c (bitWord (w.bits bit)) dst := by
    rw [Prog.branch, hb, Prog.branch]
  exact ⟨⟨hbr, h.regs, congrArg (visit l i) h.visits, h.wram⟩, rfl, rfl⟩

/-! ## Two runs in step -/

/-- Two views of a thread that agree on all but the words outside `R`. -/
structure Same (R : Nat → Prop) (v w : View L) : Prop extends Agree R v w where
  bits : v.bits = w.bits

omit [DecidableEq L] in
theorem Same.of_eq {v w : View L} (h : v = w) : Same R v w := by
  subst h
  exact ⟨⟨rfl, rfl, rfl, fun _ _ => rfl⟩, rfl⟩

omit [DecidableEq L] in
theorem Same.mono {R' : Nat → Prop} {v w : View L} (h : Same R v w) (hR : ∀ k, R' k → R k ∨ v.wram k = w.wram k) :
    Same R' v w :=
  ⟨⟨h.pc, h.regs, h.visits, fun k hk => (hR k hk).elim (h.wram k) (·)⟩, h.bits⟩

/-- One instruction, on views that agree on the words it touches. -/
theorem Same.step {ins : Instr L} {v w : View L} (h : Same R v w) (hpc : w.pc = .at l i)
    (hc : (P.code l)[i]? = some ins) (hw : ∀ k, ins.Touches id w.regs k → R k) : Same R (Y.step id v) (Y.step id w) := by
  obtain ⟨ha, hb⟩ := h
  cases hsh : ins.shared with
  | false =>
    refine ⟨ha.step hpc hc hsh hw, ?_⟩
    have hg : ∀ {u : View L}, u.pc = .at l i → (Y.step id u).bits = u.bits := fun hu =>
      Good.bits (R := fun _ => True) ⟨l, i, ins, hu, hc, fun _ _ => trivial, fun h => by simp [hsh] at h⟩
    rw [hg hpc, hg (ha.pc.trans hpc), hb]
  | true =>
    rw [step_eq hpc hc, step_eq (ha.pc.trans hpc) hc]
    obtain ⟨pc, regs, m, bits, visits⟩ := v
    obtain ⟨pc', regs', m', bits', visits'⟩ := w
    obtain ⟨rfl, rfl, rfl, hm⟩ := ha
    obtain rfl : bits = bits' := hb
    cases ins with
    | clrRun | boot | stop => exact ⟨⟨rfl, rfl, rfl, hm⟩, rfl⟩
    | _ => cases hsh

theorem Same.stopped {v w : View L} (h : Same R v w) (hpc : w.pc = .stopped) : Same R (Y.step id v) (Y.step id w) := by
  obtain ⟨ha, hb⟩ := h
  rw [Board.step, Board.step, hpc, ha.pc.trans hpc, hb]
  simp only
  split
  · exact ⟨⟨rfl, ha.regs, ha.visits, ha.wram⟩, rfl⟩
  · exact ⟨ha, hb⟩

/-- A store to a word that the views need not agree on. -/
theorem Same.store {a s : Src} {off k : Nat} {v w : View L} (h : Same R v w) (hpc : w.pc = .at l i)
    (hc : (P.code l)[i]? = some (.sw a off s)) (hk : wordAt (a.val id w.regs) off = k) :
    Same R (Y.step id v) (Y.step id w) ∧ (Y.step id v).wram = update v.wram k (s.val id w.regs) := by
  rw [step_eq hpc hc, step_eq (h.pc.trans hpc) hc]
  obtain ⟨pc, regs, m, bits, visits⟩ := v
  obtain ⟨pc', regs', m', bits', visits'⟩ := w
  obtain ⟨⟨rfl, rfl, rfl, hm⟩, hb⟩ := h
  obtain rfl : bits = bits' := hb
  subst hk
  refine ⟨⟨⟨rfl, rfl, rfl, fun j hj => ?_⟩, rfl⟩, rfl⟩
  have hmj : m j = m' j := hm j hj
  show update m _ _ j = update m' _ _ j
  rw [update_apply, update_apply, hmj]

/-! ## One thread among several -/

theorem view_step (Y : Board P) (t : Nat) (s : Mach L) : (s.step Y t).view t = Y.step t (s.view t) := by
  simp only [Mach.step, Mach.view, update_self]

theorem step_pc (Y : Board P) (t : Nat) (s : Mach L) : (s.step Y t).pc t = (Y.step t (s.view t)).pc := update_self _ _ _

theorem step_regs (Y : Board P) (t : Nat) (s : Mach L) : (s.step Y t).regs t = (Y.step t (s.view t)).regs := update_self _ _ _

theorem view_iterate (Y : Board P) (t : Nat) (n : Nat) (s : Mach L) :
    ((Mach.step Y t)^[n] s).view t = (Y.step t)^[n] (s.view t) := by
  induction n with
  | zero => rfl
  | succ n ih => rw [iterate_succ_apply', iterate_succ_apply', view_step, ih]

theorem step_pc_other {t u : Nat} (h : u ≠ t) (s : Mach L) : (s.step Y t).pc u = s.pc u := update_of_ne h _ _

theorem step_regs_other {t u : Nat} (h : u ≠ t) (s : Mach L) : (s.step Y t).regs u = s.regs u := update_of_ne h _ _

theorem view_step_other {t u : Nat} (h : u ≠ t) (s : Mach L) : (s.step Y t).view u =
    { s.view u with wram := (Y.step t (s.view t)).wram, bits := (Y.step t (s.view t)).bits } := by
  simp only [Mach.step, Mach.view, update_of_ne h]

theorem view_iterate_other {t u : Nat} (h : u ≠ t) (n : Nat) (s : Mach L) : ((Mach.step Y t)^[n] s).view u =
    { s.view u with wram := ((Mach.step Y t)^[n] s).wram, bits := ((Mach.step Y t)^[n] s).bits } := by
  induction n with
  | zero => rfl
  | succ n ih =>
    rw [iterate_succ_apply', view_step_other h, ih]
    rfl

end Memclave.Isa
