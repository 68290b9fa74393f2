/-
What the core allows a thread that enters it anywhere.

User code runs with `r20` past the end of IRAM and `r21` past that of MRAM
and cannot write either. The core writes them in few places. `Inv` says for
each of its instructions what else they can be there, and what the thread has
behind it then: with `r20` within IRAM, everything that `ime_replace_sk` does
up to there, from its first instruction on.

Most instructions keep what is known, which is checked for all of them at
once (`marks_ok`), as what they write and where they lead is in the code.
-/
import Memclave.Core

namespace Memclave.Core

open Words Function Loader Asm

/-! ## Where an instruction leads -/

/-- An operand that is the same whenever one comes by: any thread, or the one
given. -/
def const? (who : Option Nat) : Isa.Src → Option Word
  | .reg _ => none
  | .imm w => some w
  | .zero => some 0
  | .lneg => some 0xFFFFFFFF
  | .id => who.map (BitVec.ofNat 32)

variable {who : Option Nat} {id : Nat}

theorem const?_val (hw : ∀ n, who = some n → n = id) {s : Isa.Src} {w : Word} (h : const? who s = some w)
    (regs : Reg → Word) : s.val id regs = w := by
  cases s with
  | reg r => cases h
  | imm | zero | lneg => exact Option.some.inj h
  | id =>
    obtain ⟨n, hn, rfl⟩ := Option.map_eq_some_iff.mp h
    rw [hw n hn]
    rfl

/-- The result of a test on such operands. -/
def known (who : Option Nat) (op : Op) (a b : Isa.Src) : Option Word :=
  if op = .xor then (const? who a).bind fun x => (const? who b).map fun y => x ^^^ y else none

theorem known_eval (hw : ∀ n, who = some n → n = id) {op : Op} {a b : Isa.Src} {w : Word}
    (h : known who op a b = some w) (c : Bool) (regs : Reg → Word) :
    (op.eval c (a.val id regs) (b.val id regs)).1 = w := by
  unfold known at h
  split at h
  next hop =>
    subst hop
    obtain ⟨x, hx, h⟩ := Option.bind_eq_some_iff.mp h
    obtain ⟨y, hy, h⟩ := Option.map_eq_some_iff.mp h
    rw [const?_val hw hx, const?_val hw hy, ← h]
    rfl
  next => cases h

/-- Both ways of a branch. -/
def ways (l : Label) (i : Nat) : Option (Cond × Isa.Target Label) → List (Pc Label)
  | some (_, dst) => [core.target l i dst, core.succ l i]
  | none => [core.succ l i]

/-- Where the instruction at `l`, `i` leads; without a value if a register
says. -/
def nexts (who : Option Nat) (l : Label) (i : Nat) : Instr Label → Option (List (Pc Label))
  | .alu op _ a b j => some (((known who op a b).map fun w => [core.branch l i j w]).getD (ways l i j))
  | .boot _ _ j | .clrRun _ j => some (ways l i j)
  | .call _ l' | .jump (.label l') => some [.run (.at l' 0)]
  | .stop (.label l') => some [.stopped (.at l' 0)]
  | .fault c => some [.faulted c]
  | .jump (.addr _) | .stop (.addr _) | .jumpReg _ | .jumpOff .. | .compiled => none
  | _ => some [core.succ l i]

variable {Y : Layout core} {l : Label} {i : Nat} {ins : Instr Label} {v : Cpu Label}

theorem branch_ways (j : Option (Cond × Isa.Target Label)) (w : Word) : core.branch l i j w ∈ ways l i j := by
  cases j with
  | none => exact List.mem_singleton_self _
  | some j =>
    simp only [Prog.branch, ways]
    split <;> simp

section

variable {op : Op} {d : Option Reg} {a b : Isa.Src} {j : Option (Cond × Isa.Target Label)}

theorem exec_alu : (Y.exec id l i (.alu op d a b j) v).pc =
    core.branch l i j (op.eval v.carry (a.val id v.regs) (b.val id v.regs)).1 := rfl

theorem nexts_alu : nexts who l i (.alu op d a b j) =
    some (((known who op a b).map fun w => [core.branch l i j w]).getD (ways l i j)) := rfl

end

/-- It leads there, or the DPU faults. -/
theorem exec_nexts (hw : ∀ n, who = some n → n = id) {pcs : List (Pc Label)} (h : nexts who l i ins = some pcs) :
    (Y.exec id l i ins v).pc ∈ pcs ∨ (Y.exec id l i ins v).pc = .faulted .mem := by
  cases ins with
  | alu op d a b j =>
    rw [nexts_alu, Option.some.injEq] at h
    rw [← h, exec_alu]
    refine .inl ?_
    cases hk : known who op a b with
    | some w => rw [Option.map_some, Option.getD_some, List.mem_singleton, known_eval hw hk v.carry v.regs]
    | none => exact branch_ways j (op.eval v.carry (a.val id v.regs) (b.val id v.regs)).1
  | boot a n j =>
    cases h
    exact .inl (branch_ways j (Isa.bitWord (v.bits (a.val id v.regs + BitVec.ofNat 32 n).toNat)))
  | clrRun n j =>
    cases h
    exact .inl (branch_ways j (Isa.bitWord (v.bits n)))
  | lw | sw | ldma | sdma | ldmai =>
    cases h
    simp only [Layout.exec]
    split
    · exact .inl (List.mem_singleton_self _)
    · exact .inr rfl
  | jump e | stop e =>
    cases e with
    | label l' =>
      cases h
      exact .inl (List.mem_singleton_self _)
    | addr w => cases h
  | jumpReg | jumpOff | compiled => cases h
  | _ =>
    cases h
    exact .inl (List.mem_singleton_self _)

/-- The instructions of a label, with their places. -/
theorem code_all {Q : Instr Label → Nat → Bool} (h : (code l).zipIdx.all (fun x => Q x.1 x.2) = true)
    (hi : (code l)[i]? = some ins) : Q ins i = true :=
  List.all_eq_true.mp h (ins, i) (List.mk_mem_zipIdx_iff_getElem?.mpr hi)

/-! ## What is known of a thread in the core -/

/-- The threads from `k` on, as `loop_3` found them. -/
def clears (k : Nat) : List Passed := (List.range' k (16 - k)).map fun t => .clear (BitVec.ofNat 32 t)

/-- What `ime_replace_sk` has done after its `n`th part. -/
def due (r17 sk : Word) : Nat → List Passed
  | 0 => []
  | 1 => clears 1
  | 2 => .wiped r17 :: clears 1
  | 3 => .pushed sk :: .wiped r17 :: clears 1
  | 4 => .decrypted sk :: .pushed sk :: .wiped r17 :: clears 1
  | _ => .scanned sk :: .decrypted sk :: .pushed sk :: .wiped r17 :: clears 1

/-- An address the loads into IRAM fault for. -/
def Past (w : Word) : Prop := 32768 ≤ w.toNat

inductive Mark where
  /-- just past the first instruction of `ime_replace_sk` -/
  | entered
  /-- `n` parts are done, or `r20` is past IRAM; with `arg` the subkernel's
  address is in `r0` too; `ret` is the place in `ime_replace_sk` to return to -/
  | gate (n : Nat) (arg : Bool) (ret : Option Nat)
  /-- in `loop_3`, with the bit of thread `r0` looked at or not -/
  | counting (seen : Bool)
  /-- IRAM is loaded -/
  | any (ret : Option Nat)
  /-- `r20` is as user code finds it -/
  | resuming
deriving DecidableEq, Repr

/-- `r23` after the instruction before `k` in `ime_replace_sk`. -/
def retAt (Y : Layout core) (k : Nat) : Word := Y.addr .imeReplaceSk + BitVec.ofNat 32 k

structure Legit (id n : Nat) (arg : Bool) (r : Reg → Word) (p : List Passed) : Prop where
  r20 : r 20 = 8192
  passed : p = due (r 17) (r 21) n
  id : 4 ≤ n → id = 0
  arg : arg = true → r 0 = r 21

def Returns (Y : Layout core) (r : Reg → Word) (ret : Option Nat) : Prop := ∀ k, ret = some k → r 23 = retAt Y k

structure Counting (seen : Bool) (r : Reg → Word) (p : List Passed) : Prop where
  r20 : r 20 = 8192
  count : ∃ k, 1 ≤ k ∧ k ≤ 15 ∧ r 0 = BitVec.ofNat 32 k ∧ p = clears (if seen then k else k + 1)

def Mark.Holds (Y : Layout core) (id : Nat) (r : Reg → Word) (p : List Passed) : Mark → Prop
  | .entered => r 20 = userStartAt ∧ p = []
  | .gate n arg ret => (Legit id n arg r p ∨ Past (r 20)) ∧ Returns Y r ret
  | .counting seen => (Counting seen r p ∨ Past (r 20)) ∧ Returns Y r (some 7)
  | .any ret => Returns Y r ret
  | .resuming => r 20 = pastIram

def replaceMarks (i : Nat) : List Mark :=
  if i = 0 then []
  else if i = 1 then [.entered]
  else if i ≤ 6 then [.gate 0 false none]
  else if i ≤ 7 then [.gate 1 false none]
  else if i ≤ 8 then [.gate 2 false none]
  else if i ≤ 9 then [.gate 2 true none]
  else if i ≤ 13 then [.gate 3 false none]
  else if i ≤ 16 then [.gate 3 true none]
  else if i ≤ 17 then [.gate 4 false none]
  else if i ≤ 19 then [.gate 4 true none]
  else if i ≤ 25 then [.gate 5 false none]
  else [.any none]

/-- What there is to know at a place. -/
def marks (l : Label) (i : Nat) : List Mark :=
  match l with
  | .imeReplaceSk => replaceMarks i
  | .imeCheckThreads | .loop1 | .loop2 => [.gate 0 false (some 7)]
  | .loop3 => if i = 0 then [.counting false] else if i = 1 then [.counting true] else [.gate 1 false (some 7)]
  | .loop4 => [.gate 1 false (some 7)]
  | .imeWipeUser | .imeWipeLoop | .imeWipeDone => [.gate 1 false (some 8)]
  | .imePushSk => if i = 0 then [.gate 2 true (some 10)] else [.gate 3 false (some 10)]
  | .imePopSk => [.any (some 27)]
  | .imeCopySk | .imeCopySkLoop => [.gate 3 false (some 10), .any (some 27)]
  | .fn .imeDecryptSk => [.gate 3 true (some 17)]
  | .fn .imeScanSk => [.gate 4 true (some 20)]
  | .imeLoadWram | .clwLoop | .clwEnd => [.gate 5 false (some 25)]
  | .imeLoadIram => if i ≤ 2 then [.gate 5 false (some 26)] else []
  | .resumeLoop | .imeSecFault | .imeSanityFault => [.any none]
  | .resumeEnd => if i ≤ 1 then [.any none] else if i = 2 then [.resuming] else []
  | _ => []

/-! ## Most instructions keep it -/

/-- A mark that says as much. -/
def Mark.implies : Mark → Mark → Bool
  | _, .any none => true
  | .gate n arg ret, .gate n' arg' ret' => n = n' && ret = ret' && (arg || !arg')
  | mk, mk' => mk = mk'

def Mark.ret : Mark → Option Nat
  | .entered | .resuming => none
  | .gate _ _ ret | .any ret => ret
  | .counting _ => some 7

def Mark.withRet (ret : Option Nat) : Mark → Mark
  | .gate n arg _ => .gate n arg ret
  | .any _ => .any ret
  | mk => mk

/-- The registers a mark speaks of. -/
def Mark.reads : Mark → List Reg
  | .entered | .resuming => [20]
  | .gate n arg ret =>
    [20] ++ (if 2 ≤ n then [17] else []) ++ (if 3 ≤ n || arg then [21] else []) ++ (if arg then [0] else []) ++
      if ret.isSome then [23] else []
  | .counting _ => [0, 20, 23]
  | .any ret => if ret.isSome then [23] else []

/-- The mark after an instruction, and where it leads then. -/
def Mark.after (mk : Mark) (l : Label) (i : Nat) : Instr Label → Option (Mark × List (Pc Label))
  | .call d l' =>
    if l = .imeReplaceSk ∧ d = 23 ∧ mk.ret = none then some (mk.withRet (some (i + 1)), [.run (.at l' 0)]) else none
  | .jumpReg r => mk.ret.bind fun k =>
    if r = 23 ∧ k < (code .imeReplaceSk).length then some (mk.withRet none, [.run (.at .imeReplaceSk k)]) else none
  | .move d s =>
    match mk with
    | .gate n arg none => some (.gate n (d = 0 && s = .reg 21 || arg && d != 0) none, [core.succ l i])
    | mk => some (mk, [core.succ l i])
  | ins => (nexts none l i ins).map fun pcs => (mk, pcs)

/-- What is known where one comes out covers the mark. -/
def Mark.covered (mk : Mark) : Pc Label → Bool
  | .run (.at l i) => (marks l i).any mk.implies
  | .faulted c => c != .signal
  | _ => false

/-- The instruction keeps what the mark says. -/
def Mark.kept (mk : Mark) (l : Label) (i : Nat) (ins : Instr Label) : Bool :=
  mk.reads.all (fun r => !ins.writes.contains r) &&
    (mk.after l i ins).any fun x => x.2.all x.1.covered

/-- The instructions that do not. -/
def special : Label → Nat → Bool
  | .imeReplaceSk, i => i == 1
  | .loop2, i => i == 1
  | .loop3, i => i == 0 || i == 1
  | .imeWipeDone, _ | .fn _, _ => true
  | .imePushSk, i => i == 0
  | .imeLoadIram, i => i == 2
  | .resumeEnd, i => i == 1 || i == 2
  | _, _ => false

def labelKept (l : Label) : Bool :=
  (code l).zipIdx.all fun x => special l x.2 || (marks l x.2).all fun mk => mk.kept l x.2 x.1

theorem marks_ok (l : Label) : labelKept l = true := by
  cases l with
  | chacha l => cases l <;> decide
  | fn f => cases f <;> decide
  | clsTable k => revert k; decide
  | _ => decide

/-! ## The invariant of a thread -/

/-- What user code finds in the two registers. -/
structure User (r : Reg → Word) : Prop where
  r20 : r 20 = pastIram
  r21 : r 21 = pastMram

/-- On the way through `core_iram.s`, with `r20` and `r21` past some of the
sections. -/
def Loading (Y : Layout core) (id : Nat) (off : Word) (j j' : Nat) (r : Reg → Word) (p : List Passed) : Prop :=
  ∃ sk, r 20 = 8192 + BitVec.ofNat 32 (2048 * j) ∧ r 21 = sk + off + BitVec.ofNat 32 (2048 * j') ∧
    p = due (r 17) sk 5 ∧ id = 0 ∧ r 23 = retAt Y 26

/-- What `r2`, the number of sections, and the jump made of it have been
checked for. -/
def Size (i : Nat) (r : Reg → Word) : Prop :=
  if i ≤ 9 then True
  else if i = 10 then r 2 ≠ 0
  else if i = 11 then r 2 ≠ 0 ∧ r 1 = r 2 &&& 0xFFFFFFF0
  else if i = 12 then 1 ≤ (r 2).toNat ∧ (r 2).toNat ≤ 15
  else if i = 13 then (r 2).toNat ≤ 14
  else ∃ j ≤ 14, r 2 = BitVec.ofNat 32 (4 * j)

/-- In the part of `core_iram.s` that moves the two registers. -/
def Sections (Y : Layout core) (id : Nat) (l : Label) (i : Nat) (r : Reg → Word) (p : List Passed) : Prop :=
  match l with
  | .imeLoadIram =>
    if i ≤ 2 then False
    else if i ≤ 5 then Loading Y id 40 0 0 r p ∨ Past (r 20)
    else (Loading Y id 64 0 0 r p ∨ Past (r 20)) ∧ Size i r
  | .clsTable k =>
    if i = 0 then (∃ j ≤ k.val, Loading Y id 64 j j r p) ∨ Past (r 20)
    else if i = 1 ∨ k = Fin.last 14 then ∃ j ≤ k.val, Loading Y id 64 j j r p
    else if i = 2 then (∃ j ≤ k.val, Loading Y id 64 (j + 1) j r p) ∨ Past (r 20)
    else (∃ j ≤ k.val, Loading Y id 64 (j + 1) (j + 1) r p) ∨ Past (r 20)
  | _ => False

/-- A thread is as user code left it, or what is known at its place holds. -/
def Inv (Y : Layout core) (id : Nat) (pc : Pc Label) (r : Reg → Word) (p : List Passed) : Prop :=
  User r ∨
    match pc with
    | .run (.at l i) => (∃ mk ∈ marks l i, mk.Holds Y id r p) ∨ Sections Y id l i r p
    | .faulted c => c ≠ .signal
    | _ => False

variable {p : List Passed} {r : Reg → Word} {mk : Mark} {pc : Pc Label}

theorem Mark.Holds.implies {mk' : Mark} (h : mk.Holds Y id r p) (hi : mk.implies mk' = true) : mk'.Holds Y id r p := by
  unfold Mark.implies at hi
  split at hi
  · intro k hk
    cases hk
  · simp only [Bool.and_eq_true, Bool.or_eq_true, decide_eq_true_eq, Bool.not_eq_true'] at hi
    obtain ⟨⟨rfl, rfl⟩, harg⟩ := hi
    obtain ⟨hl, hret⟩ := h
    refine ⟨hl.imp_left fun hl => ⟨hl.r20, hl.passed, hl.id, fun ha => hl.arg ?_⟩, hret⟩
    rw [ha] at harg
    exact harg.resolve_right (by decide)
  · rw [decide_eq_true_eq] at hi
    rwa [← hi]

theorem Inv.faulted {c : Code} (h : c ≠ .signal) : Inv Y id (.faulted c) r p := .inr h

theorem Mark.Holds.inv (h : mk.Holds Y id r p) (hc : mk.covered pc = true) : Inv Y id pc r p := by
  refine .inr ?_
  unfold Mark.covered at hc
  split at hc
  · obtain ⟨mk', hmem, himp⟩ := List.any_eq_true.mp hc
    exact .inl ⟨mk', hmem, h.implies himp⟩
  · simpa using hc
  · cases hc

/-! ## The instructions that keep what is known -/

theorem record_eq (hs : special l i = false) (hm : marks l i ≠ []) : record l i v p = p := by
  unfold record
  split
  · exact absurd rfl hm
  · cases hs
  · cases hs
  · cases hs
  · rfl

theorem due_congr {r17 r17' sk sk' : Word} (n : Nat) (h17 : 2 ≤ n → r17' = r17) (hsk : 3 ≤ n → sk' = sk) :
    due r17 sk n = due r17' sk' n := by
  match n with
  | 0 | 1 => rfl
  | 2 => rw [due, due, h17 (by omega)]
  | n + 3 => rw [h17 (by omega), hsk (by omega)]

/-- The registers a mark reads are as they were. -/
theorem Mark.Holds.frame {r' : Reg → Word} (h : mk.Holds Y id r p) (hr : ∀ d ∈ mk.reads, r' d = r d) :
    mk.Holds Y id r' p := by
  cases mk with
  | entered =>
    obtain ⟨h20, hp⟩ := h
    exact ⟨(hr 20 (by simp [Mark.reads])).trans h20, hp⟩
  | gate n arg ret =>
    obtain ⟨hl, hret⟩ := h
    have h20 : r' 20 = r 20 := hr 20 (by simp [Mark.reads])
    refine ⟨hl.imp (fun hl => ⟨h20.trans hl.r20, ?_, hl.id, fun ha => ?_⟩) (fun hp => ?_), fun k hk => ?_⟩
    · rw [hl.passed]
      exact due_congr n (fun h => hr 17 (by simp [Mark.reads, h])) fun h => hr 21 (by simp [Mark.reads, h])
    · rw [hr 0 (by simp [Mark.reads, ha]), hr 21 (by simp [Mark.reads, ha])]
      exact hl.arg ha
    · rwa [h20]
    · rw [hr 23 (by simp [Mark.reads, hk])]
      exact hret k hk
  | counting seen =>
    obtain ⟨hl, hret⟩ := h
    have h20 : r' 20 = r 20 := hr 20 (by simp [Mark.reads])
    refine ⟨hl.imp (fun hl => ⟨h20.trans hl.r20, ?_⟩) (fun hp => ?_), fun k hk => ?_⟩
    · rw [hr 0 (by simp [Mark.reads])]
      exact hl.count
    · rwa [h20]
    · rw [hr 23 (by simp [Mark.reads])]
      exact hret k hk
  | any ret =>
    intro k hk
    rw [hr 23 (by simp [Mark.reads, hk])]
    exact h k hk
  | resuming => exact (hr 20 (by simp [Mark.reads])).trans h

theorem exec_addr {d : Reg} {l' : Label} :
    (Y.exec id l i (.call d l') v).regs d = Y.addr l + BitVec.ofNat 32 (i + 1) := update_self d _ _

/-- What the instruction leaves of a mark, and where the thread is then. -/
theorem Mark.Holds.after {mk' : Mark} {pcs : List (Pc Label)} (h : mk.Holds Y id v.regs p)
    (hr : ∀ r ∈ mk.reads, r ∉ ins.writes) (ha : mk.after l i ins = some (mk', pcs)) :
    mk'.Holds Y id (Y.exec id l i ins v).regs p ∧
      ((Y.exec id l i ins v).pc ∈ pcs ∨ (Y.exec id l i ins v).pc = .faulted .mem) := by
  have hf : mk.Holds Y id (Y.exec id l i ins v).regs p := h.frame fun d hd => exec_regs (hr d hd)
  have hnone : ∀ n, (none : Option Nat) = some n → n = id := fun n hn => by cases hn
  cases ins with
  | call d l' =>
    simp only [Mark.after] at ha
    split at ha
    next hc =>
      obtain ⟨rfl, rfl, hret⟩ := hc
      cases ha
      refine ⟨?_, .inl (List.mem_singleton_self _)⟩
      cases mk with
      | gate n arg ret =>
        exact ⟨hf.1, fun k hk => by cases hk; exact exec_addr⟩
      | any ret =>
        intro k hk
        cases hk
        exact exec_addr
      | entered | resuming => exact hf
      | counting => cases hret
    next => cases ha
  | jumpReg d =>
    obtain ⟨k, hret, hx⟩ := Option.bind_eq_some_iff.mp ha
    split at hx
    next hd =>
      obtain ⟨rfl, hlt⟩ := hd
      cases hx
      have h23 : v.regs 23 = retAt Y k := by
        cases mk with
        | gate n arg ret => exact h.2 k hret
        | any ret => exact h k hret
        | entered | resuming => cases hret
        | counting => exact h.2 k hret
      refine ⟨?_, .inl ?_⟩
      · cases mk with
        | gate n arg ret => exact ⟨hf.1, fun k hk => by cases hk⟩
        | any ret =>
          intro k hk
          cases hk
        | entered | counting | resuming => exact hf
      · rw [List.mem_singleton]
        show Pc.run (Y.place (v.regs 23)) = _
        rw [h23, retAt, place_addr hlt]
    next => cases hx
  | move d s =>
    simp only [Mark.after] at ha
    split at ha
    next n arg =>
      cases ha
      refine ⟨⟨hf.1.imp_left fun hl => ⟨hl.r20, hl.passed, hl.id, fun harg => ?_⟩, hf.2⟩, .inl (List.mem_singleton_self _)⟩
      simp only [Bool.or_eq_true, Bool.and_eq_true, decide_eq_true_eq] at harg
      cases harg with
      | inl h0 =>
        obtain ⟨rfl, rfl⟩ := h0
        exact (update_self 0 (v.regs 21) v.regs).trans (update_of_ne (show (21 : Reg) ≠ 0 by decide) (v.regs 21) v.regs).symm
      | inr h1 => exact hl.arg h1.1
    next =>
      cases ha
      exact ⟨hf, .inl (List.mem_singleton_self _)⟩
  | _ =>
    simp only [Mark.after] at ha
    obtain ⟨pcs', hn, hx⟩ := Option.map_eq_some_iff.mp ha
    cases hx
    exact ⟨hf, exec_nexts hnone hn⟩

/-- An instruction that is not special leads to what is known again. -/
theorem mark_step (hm : mk ∈ marks l i) (h : mk.Holds Y id v.regs p) (hi : (code l)[i]? = some ins)
    (hs : special l i = false) :
    Inv Y id (Y.exec id l i ins v).pc (Y.exec id l i ins v).regs (record l i v p) := by
  have hall := code_all (Q := fun ins i => special l i || (marks l i).all fun mk => mk.kept l i ins) (marks_ok l) hi
  simp only [hs, Bool.false_or, List.all_eq_true] at hall
  have hkept := hall mk hm
  simp only [Mark.kept, Bool.and_eq_true, List.all_eq_true, Bool.not_eq_true', List.contains_eq_mem,
    decide_eq_false_iff_not, Option.any_eq_true] at hkept
  obtain ⟨hr, ⟨mk', pcs⟩, ha, hcov⟩ := hkept
  rw [record_eq hs (List.ne_nil_of_mem hm)]
  obtain ⟨hh, hpc⟩ := h.after (Y := Y) (v := v) hr ha
  cases hpc with
  | inl hpc => exact Mark.Holds.inv hh (hcov _ hpc)
  | inr hpc =>
    rw [hpc]
    exact Inv.faulted (by decide)

/-! ## A thread that comes from user code -/

/-- The instructions that write `r20` or `r21`. -/
def gateAt : Label → Nat → Bool
  | .coreOnBoot, i => i == 4 || i == 5
  | .imeLoadIram, i => i == 2 || i == 5
  | .clsTable k, i => k != Fin.last 14 && (i == 1 || i == 2)
  | .imeReplaceSk, i => i == 0 || i == 1 || i == 5
  | .resumeEnd, i => i == 1 || i == 2
  | _, _ => false

def gateOnly (l : Label) : Bool :=
  (code l).zipIdx.all fun x => gateAt l x.2 || !x.1.writes.contains 20 && !x.1.writes.contains 21

theorem gates_ok (l : Label) : gateOnly l = true := by
  cases l with
  | chacha l => cases l <;> decide
  | fn f => cases f <;> decide
  | clsTable k => revert k; decide
  | _ => decide

theorem past_iram : Past pastIram := by
  unfold Past
  decide

theorem User.frame (h : User v.regs) (h20 : 20 ∉ ins.writes) (h21 : 21 ∉ ins.writes) :
    User (Y.exec id l i ins v).regs :=
  ⟨(exec_regs h20).trans h.r20, (exec_regs h21).trans h.r21⟩

section

variable {k : Fin 15}

theorem sections_cls1 : Sections Y id (.clsTable k) 1 r p = ∃ j ≤ k.val, Loading Y id 64 j j r p := rfl

theorem sections_cls2 (hk : k ≠ 14) :
    Sections Y id (.clsTable k) 2 r p = ((∃ j ≤ k.val, Loading Y id 64 (j + 1) j r p) ∨ Past (r 20)) := by
  simp [Sections, hk]

theorem sections_cls3 (hk : k ≠ 14) :
    Sections Y id (.clsTable k) 3 r p = ((∃ j ≤ k.val, Loading Y id 64 (j + 1) (j + 1) r p) ∨ Past (r 20)) := by
  simp [Sections, hk]

end

/-- At those instructions. -/
theorem user_gate (hu : User v.regs) (hi : (code l)[i]? = some ins) (hg : gateAt l i = true) :
    Inv Y id (Y.exec id l i ins v).pc (Y.exec id l i ins v).regs (record l i v p) := by
  obtain ⟨h20, h21⟩ := hu
  unfold gateAt at hg
  split at hg
  · -- `core_on_boot`
    simp only [Bool.or_eq_true, beq_iff_eq] at hg
    rcases hg with rfl | rfl
    · cases hi
      exact .inl ⟨rfl, h21⟩
    · cases hi
      exact .inl ⟨h20, rfl⟩
  · -- `core_iram.s`
    simp only [Bool.or_eq_true, beq_iff_eq] at hg
    rcases hg with rfl | rfl
    · cases hi
      refine .inr (.inr (.inr ?_))
      show Past (v.regs 20)
      rw [h20]
      exact past_iram
    · cases hi
      refine .inr (.inr ⟨.inr ?_, trivial⟩)
      show Past (v.regs 20)
      rw [h20]
      exact past_iram
  · -- its table
    simp only [Bool.and_eq_true, bne_iff_ne, ne_eq, Bool.or_eq_true, beq_iff_eq] at hg
    obtain ⟨hk, rfl | rfl⟩ := hg
    · rw [code_cls hk] at hi
      cases hi
      refine .inr ?_
      show match core.succ _ 1 with | .run (.at l i) => _ | .faulted c => _ | _ => _
      rw [succ_cls hk (by omega)]
      refine .inr ?_
      rw [sections_cls2 hk]
      refine .inr ?_
      show Past (v.regs 20 + 2048)
      rw [h20]
      unfold Past
      decide
    · rw [code_cls hk] at hi
      cases hi
      refine .inr ?_
      show match core.succ _ 2 with | .run (.at l i) => _ | .faulted c => _ | _ => _
      rw [succ_cls hk (by omega)]
      refine .inr ?_
      rw [sections_cls3 hk]
      refine .inr ?_
      show Past (v.regs 20)
      rw [h20]
      exact past_iram
  · -- `ime_replace_sk`
    simp only [Bool.or_eq_true, beq_iff_eq] at hg
    rcases hg with (rfl | rfl) | rfl
    · cases hi
      exact .inr (.inl ⟨.entered, List.mem_singleton_self _, rfl, rfl⟩)
    · cases hi
      refine .inr (.inl ⟨.gate 0 false none, List.mem_singleton_self _, .inr ?_, fun k hk => by cases hk⟩)
      show Past (v.regs 20 <<< 3)
      rw [h20]
      unfold Past
      decide
    · cases hi
      refine .inr (.inl ⟨.gate 0 false none, List.mem_singleton_self _, .inr ?_, fun k hk => by cases hk⟩)
      show Past (v.regs 20)
      rw [h20]
      exact past_iram
  · -- its end
    simp only [Bool.or_eq_true, beq_iff_eq] at hg
    rcases hg with rfl | rfl
    · cases hi
      exact .inl ⟨rfl, h21⟩
    · cases hi
      exact .inl ⟨h20, rfl⟩
  · cases hg

/-- A thread with the two registers as user code has them. -/
theorem user_step (hu : User v.regs) (hi : (code l)[i]? = some ins) :
    Inv Y id (Y.exec id l i ins v).pc (Y.exec id l i ins v).regs (record l i v p) := by
  cases hg : gateAt l i with
  | true => exact user_gate hu hi hg
  | false =>
    have hw := code_all (Q := fun ins i => gateAt l i || !ins.writes.contains 20 && !ins.writes.contains 21) (gates_ok l) hi
    simp only [hg, Bool.false_or, Bool.and_eq_true, Bool.not_eq_true', List.contains_eq_mem,
      decide_eq_false_iff_not] at hw
    exact .inl (hu.frame hw.1 hw.2)

/-! ## Through `core_iram.s` -/

section

variable {off : Word} {j j' : Nat} {n : Fin 15}

/-- An instruction that leaves the two registers and the return address. -/
theorem Loading.exec (h : Loading Y id off j j' v.regs p) (hw : ∀ r ∈ [17, 20, 21, 23], r ∉ ins.writes) :
    Loading Y id off j j' (Y.exec id l i ins v).regs p := by
  obtain ⟨sk, h20, h21, hp, hid, h23⟩ := h
  refine ⟨sk, ?_, ?_, ?_, hid, ?_⟩
  · rw [exec_regs (hw 20 (by simp)), h20]
  · rw [exec_regs (hw 21 (by simp)), h21]
  · rw [exec_regs (hw 17 (by simp)), hp]
  · rw [exec_regs (hw 23 (by simp)), h23]

theorem under_exec (h : Loading Y id off j j' v.regs p ∨ Past (v.regs 20)) (hw : ∀ r ∈ [17, 20, 21, 23], r ∉ ins.writes) :
    Loading Y id off j j' (Y.exec id l i ins v).regs p ∨ Past ((Y.exec id l i ins v).regs 20) := by
  refine h.imp (fun h => h.exec hw) fun h => ?_
  rwa [exec_regs (hw 20 (by simp))]

/-- To a fault of the core's own. -/
theorem Inv.secFault : Inv Y id (.run (.at .imeSecFault 0)) r p :=
  .inr (.inl ⟨.any none, List.mem_singleton_self _, fun k hk => by cases hk⟩)

theorem Sections.inv (h : Sections Y id l i r p) : Inv Y id (.run (.at l i)) r p := .inr (.inr h)

/-- One of the instructions that change nothing of this. -/
theorem under_step {l' : Label} {i' : Nat} (h : Loading Y id off j j' v.regs p ∨ Past (v.regs 20))
    (hw : ∀ r ∈ [17, 20, 21, 23], r ∉ ins.writes) (hn : nexts none l i ins = some [.run (.at l' i')])
    (hs : Loading Y id off j j' (Y.exec id l i ins v).regs p ∨ Past ((Y.exec id l i ins v).regs 20) →
      Sections Y id l' i' (Y.exec id l i ins v).regs p) :
    Inv Y id (Y.exec id l i ins v).pc (Y.exec id l i ins v).regs p := by
  cases exec_nexts (fun n hn => by cases hn) hn with
  | inl hpc =>
    rw [List.mem_singleton.mp hpc]
    exact Sections.inv (hs (under_exec h hw))
  | inr hpc =>
    rw [hpc]
    exact Inv.faulted (by decide)

theorem add_off (w a b : Word) : w + a + 0 + b = w + (a + b) + 0 := by
  show w + a + 0#32 + b = w + (a + b) + 0#32
  rw [BitVec.add_zero, BitVec.add_zero, BitVec.add_assoc]

theorem test_pc {a b : Isa.Src} {c : Cond} {l' : Label} : (Y.exec id l i (test .xor a b c l') v).pc =
    if c.holds (a.val id v.regs ^^^ b.val id v.regs) then .run (.at l' 0) else core.succ l i := rfl

/-- Up to the jump into the table. -/
theorem loadIram_step (h : Sections Y id .imeLoadIram i v.regs p) (hi : (code .imeLoadIram)[i]? = some ins) :
    Inv Y id (Y.exec id .imeLoadIram i ins v).pc (Y.exec id .imeLoadIram i ins v).regs p := by
  match i with
  | 0 | 1 | 2 => exact h.elim
  | 3 | 4 =>
    cases hi
    exact under_step h (by decide) rfl fun h => h
  | 5 =>
    cases hi
    refine Sections.inv ⟨h.imp_left ?_, trivial⟩
    intro ⟨sk, h20, h21, hp, hid, h23⟩
    exact ⟨sk, h20, (congrArg (· + 24) h21).trans (add_off sk 40 24), hp, hid, h23⟩
  | 6 | 7 | 8 =>
    cases hi
    exact under_step h.1 (by decide) rfl fun h => ⟨h, trivial⟩
  | 9 =>
    cases hi
    rw [test_pc]
    split
    next => exact Inv.secFault
    next hc =>
      have h0 : v.regs 2 ≠ 0 := by simpa [Cond.holds, Isa.Src.val] using hc
      exact Sections.inv ⟨h.1, h0⟩
  | 10 =>
    cases hi
    exact under_step h.1 (by decide) rfl fun hu => ⟨hu, h.2, rfl⟩
  | 11 =>
    cases hi
    obtain ⟨hu, h0, h1⟩ := h
    rw [test_pc]
    split
    next => exact Inv.secFault
    next hc =>
      have hz : v.regs 1 = 0 := by simpa [Cond.holds, Isa.Src.val] using hc
      have hle : (v.regs 2).toNat ≤ 15 := Nat.le_of_lt_succ (mask_eq_zero.mp (h1 ▸ hz))
      exact Sections.inv ⟨hu, Nat.one_le_iff_ne_zero.mpr fun h => h0 (BitVec.eq_of_toNat_eq h), hle⟩
  | 12 =>
    cases hi
    obtain ⟨hu, h1, h15⟩ := h
    refine under_step hu (by decide) rfl fun hu => ⟨hu, ?_⟩
    show (15 - v.regs 2).toNat ≤ 14
    rw [BitVec.toNat_sub_of_le (BitVec.le_def.mpr h15)]
    show 15 - (v.regs 2).toNat ≤ 14
    omega
  | 13 =>
    cases hi
    obtain ⟨hu, h14⟩ := h
    refine under_step hu (by decide) rfl fun hu => ⟨hu, (v.regs 2).toNat, h14, ?_⟩
    show v.regs 2 <<< 2 = _
    refine BitVec.eq_of_toNat_eq ?_
    rw [BitVec.toNat_shiftLeft, BitVec.toNat_ofNat, Nat.shiftLeft_eq, Nat.mul_comm]
  | 14 =>
    cases hi
    obtain ⟨hu, j, hj, h2⟩ := h
    have hplace : Y.place (v.regs 2 + Y.addr (.clsTable 0)) = .at (.clsTable ⟨j, by omega⟩) 0 := by
      rw [h2]
      exact place_cls (by omega)
    show Inv Y id (.run (Y.place (v.regs 2 + Y.addr (.clsTable 0)))) v.regs p
    rw [hplace]
    exact Sections.inv (hu.imp_left fun h => ⟨0, Nat.zero_le _, h⟩)
  | i + 15 => cases hi

theorem not_inIram {w : Word} (h : Past w) : ¬ InIram w 512 := by
  have hI : iramWords = 2 ^ 13 := rfl
  unfold Past at h
  unfold InIram wramAt
  omega

theorem Loading.next20 (h : Loading Y id off j j' v.regs p) (hr : r 20 = v.regs 20 + 2048)
    (hw : ∀ d, d ≠ 20 → r d = v.regs d) : Loading Y id off (j + 1) j' r p := by
  obtain ⟨sk, h20, h21, hp, hid, h23⟩ := h
  refine ⟨sk, ?_, ?_, ?_, hid, ?_⟩
  · rw [hr, h20, BitVec.add_assoc, show (2048 : Word) = BitVec.ofNat 32 2048 from rfl, ← BitVec.ofNat_add, Nat.mul_succ]
  · rw [hw 21 (by decide), h21]
  · rw [hw 17 (by decide), hp]
  · rw [hw 23 (by decide), h23]

theorem Loading.next21 (h : Loading Y id off j j' v.regs p) (hr : r 21 = v.regs 21 + 2048)
    (hw : ∀ d, d ≠ 21 → r d = v.regs d) : Loading Y id off j (j' + 1) r p := by
  obtain ⟨sk, h20, h21, hp, hid, h23⟩ := h
  refine ⟨sk, ?_, ?_, ?_, hid, ?_⟩
  · rw [hw 20 (by decide), h20]
  · rw [hr, h21, BitVec.add_assoc, show (2048 : Word) = BitVec.ofNat 32 2048 from rfl, ← BitVec.ofNat_add, Nat.mul_succ]
  · rw [hw 17 (by decide), hp]
  · rw [hw 23 (by decide), h23]

theorem sections_cls0 : Sections Y id (.clsTable n) 0 r p = ((∃ j ≤ n.val, Loading Y id 64 j j r p) ∨ Past (r 20)) := rfl

theorem sections_last (hi : i ≠ 0) : Sections Y id (.clsTable 14) i r p = ∃ j ≤ 14, Loading Y id 64 j j r p := by
  simp [Sections, hi]

/-- A load, of a section that is not past IRAM. -/
theorem cls_load (h : Sections Y id (.clsTable n) 0 v.regs p)
    (hs : core.succ (.clsTable n) 0 = .run (.at (.clsTable n) 1)) :
    Inv Y id (Y.exec id (.clsTable n) 0 (.ldmai 20 21 255) v).pc (Y.exec id (.clsTable n) 0 (.ldmai 20 21 255) v).regs p := by
  have hregs : (Y.exec id (.clsTable n) 0 (.ldmai 20 21 255) v).regs = v.regs := funext fun _ => exec_regs List.not_mem_nil
  rw [hregs]
  simp only [Layout.exec]
  split
  next hin =>
    obtain ⟨j, hj, hl⟩ := h.resolve_right fun hp => not_inIram hp hin.2
    rw [hs]
    refine Sections.inv ?_
    by_cases hn : n = 14
    · subst hn
      rw [sections_last (by decide)]
      exact ⟨j, hj, hl⟩
    · rw [sections_cls1]
      exact ⟨j, hj, hl⟩
  next => exact Inv.faulted (by decide)

/-- In the table. -/
theorem cls_step (h : Sections Y id (.clsTable n) i v.regs p) (hi : (code (.clsTable n))[i]? = some ins) :
    Inv Y id (Y.exec id (.clsTable n) i ins v).pc (Y.exec id (.clsTable n) i ins v).regs p := by
  by_cases hn : n = 14
  · subst hn
    match i with
    | 0 =>
      cases hi
      exact cls_load h rfl
    | 1 | 2 | 3 =>
      cases hi
      rw [sections_last (by decide)] at h
      exact Sections.inv ((sections_last (by decide)).mpr h)
    | 4 =>
      cases hi
      rw [sections_last (by decide)] at h
      obtain ⟨j, -, sk, -, -, -, -, h23⟩ := h
      show Inv Y id (.run (Y.place (v.regs 23))) v.regs p
      rw [h23, retAt, place_addr (by decide)]
      exact .inr (.inl ⟨.any none, List.mem_singleton_self _, fun k hk => by cases hk⟩)
    | i + 5 => cases hi
  · rw [code_cls hn] at hi
    have hlt : n.val + 1 < 15 := by
      have := n.isLt
      have : n.val ≠ 14 := fun h => hn (Fin.ext h)
      omega
    match i with
    | 0 =>
      cases hi
      exact cls_load h (succ_cls hn (by omega))
    | 1 =>
      cases hi
      obtain ⟨j, hj, hl⟩ := h
      show Inv Y id (core.succ (.clsTable n) 1) (update v.regs 20 (v.regs 20 + 2048)) p
      rw [succ_cls hn (by omega)]
      refine Sections.inv ((sections_cls2 hn).mpr (.inl ⟨j, hj, hl.next20 (update_self _ _ _) fun d hd => ?_⟩))
      exact update_of_ne hd _ _
    | 2 =>
      cases hi
      rw [sections_cls2 hn] at h
      show Inv Y id (core.succ (.clsTable n) 2) (update v.regs 21 (v.regs 21 + 2048)) p
      rw [succ_cls hn (by omega)]
      refine Sections.inv ((sections_cls3 hn).mpr (h.imp_left fun h => ?_))
      obtain ⟨j, hj, hl⟩ := h
      exact ⟨j, hj, hl.next21 (update_self _ _ _) fun d hd => update_of_ne hd _ _⟩
    | 3 =>
      cases hi
      rw [sections_cls3 hn] at h
      show Inv Y id (core.succ (.clsTable n) 3) v.regs p
      rw [succ_cls_last hn hlt]
      refine Sections.inv (sections_cls0.mpr (h.imp_left fun h => ?_))
      obtain ⟨j, hj, hl⟩ := h
      exact ⟨j + 1, Nat.succ_le_succ hj, hl⟩
    | i + 4 => cases hi

end

/-! ## The special instructions -/

theorem clears_succ {k : Nat} (hk : k ≤ 15) : clears k = .clear (BitVec.ofNat 32 k) :: clears (k + 1) := by
  rw [clears, show 16 - k = (16 - (k + 1)) + 1 by omega, List.range'_succ]
  rfl

theorem bit_holds (b : Bool) : Cond.nz.holds (Isa.bitWord b) = b := by
  cases b <;> rfl

/-- `boot` at `loop_3`. -/
theorem boot_step (h : Mark.Holds Y id v.regs p (.counting false)) :
    Inv Y id (Y.exec id .loop3 0 (.boot (.reg 0) 0 (some (.nz, .label .imeSecFault))) v).pc v.regs (record .loop3 0 v p) := by
  have hbit : (v.regs 0 + BitVec.ofNat 32 0).toNat = (v.regs 0).toNat := congrArg BitVec.toNat (BitVec.add_zero _)
  have hpc : (Y.exec id .loop3 0 (.boot (.reg 0) 0 (some (.nz, .label .imeSecFault))) v).pc =
      if v.bits (v.regs 0).toNat then .run (.at .imeSecFault 0) else .run (.at .loop3 1) := by
    show (if Cond.nz.holds (Isa.bitWord (v.bits (v.regs 0 + BitVec.ofNat 32 0).toNat)) then _ else _) = _
    rw [bit_holds, hbit]
    rfl
  rw [hpc]
  obtain ⟨hc, hret⟩ := h
  split
  next => exact Inv.secFault
  next hclear =>
    have hrec : record .loop3 0 v p = .clear (v.regs 0) :: p := if_neg hclear
    rw [hrec]
    refine .inr (.inl ⟨.counting true, List.mem_singleton_self _, hc.imp_left fun hc => ⟨hc.r20, ?_⟩, hret⟩)
    obtain ⟨k, h1, h15, h0, hp⟩ := hc.count
    exact ⟨k, h1, h15, h0, by rw [h0, hp]; exact (clears_succ h15).symm⟩

theorem ofNat_pred {k : Nat} (h1 : 1 ≤ k) (h15 : k ≤ 15) : (BitVec.ofNat 32 k - 1 : Word) = BitVec.ofNat 32 (k - 1) := by
  refine BitVec.eq_of_toNat_eq ?_
  have h : (1 : Word).toNat = 1 := rfl
  rw [BitVec.toNat_sub, BitVec.toNat_ofNat, BitVec.toNat_ofNat, h]
  omega

/-- And the subtraction after it. -/
theorem count_step (h : Mark.Holds Y id v.regs p (.counting true)) :
    Inv Y id (Y.exec id .loop3 1 (.alu .sub (some 0) (.reg 0) (.imm 1) (some (.nz, .label .loop3))) v).pc
      (update v.regs 0 (v.regs 0 - 1)) p := by
  have hpc : (Y.exec id .loop3 1 (.alu .sub (some 0) (.reg 0) (.imm 1) (some (.nz, .label .loop3))) v).pc =
      if v.regs 0 - 1 != 0 then .run (.at .loop3 0) else .run (.at .loop3 2) := rfl
  rw [hpc]
  obtain ⟨hc, hret⟩ := h
  have hret' : Returns Y (update v.regs 0 (v.regs 0 - 1)) (some 7) := fun k hk =>
    (update_of_ne (by decide) _ _).trans (hret k hk)
  have h20 : update v.regs 0 (v.regs 0 - 1) 20 = v.regs 20 := update_of_ne (by decide) _ _
  split
  next hnz =>
    refine .inr (.inl ⟨.counting false, List.mem_singleton_self _,
      hc.imp (fun hc => ⟨h20.trans hc.r20, ?_⟩) (fun h => by rwa [h20]), hret'⟩)
    obtain ⟨k, h1, h15, h0, hp⟩ := hc.count
    rw [h0, ofNat_pred h1 h15] at hnz
    have hk : k ≠ 1 := by
      intro hk
      subst hk
      cases hnz
    refine ⟨k - 1, by omega, by omega, (update_self 0 _ _).trans (h0 ▸ ofNat_pred h1 h15), ?_⟩
    rw [hp, if_pos rfl, if_neg Bool.false_ne_true, Nat.sub_add_cancel h1]
  next hz =>
    refine .inr (.inl ⟨.gate 1 false (some 7), List.mem_singleton_self _,
      hc.imp (fun hc => ⟨h20.trans hc.r20, ?_, fun h => by omega, fun h => by cases h⟩) (fun h => by rwa [h20]), hret'⟩)
    obtain ⟨k, h1, h15, h0, hp⟩ := hc.count
    rw [h0, ofNat_pred h1 h15, bne_iff_ne, not_not] at hz
    have hk : k = 1 := by
      have := congrArg BitVec.toNat hz
      rw [BitVec.toNat_ofNat] at this
      have h0 : (0 : Word).toNat = 0 := rfl
      omega
    rw [hp, hk]
    rfl

/-- At the other special instructions of the assembly. -/
theorem special_step (hm : mk ∈ marks l i) (h : mk.Holds Y id v.regs p) (hi : (code l)[i]? = some ins)
    (hs : special l i = true) (hc : ins ≠ .compiled) :
    Inv Y id (Y.exec id l i ins v).pc (Y.exec id l i ins v).regs (record l i v p) := by
  unfold special at hs
  split at hs
  · -- `lsl r20, r20, 3`
    rw [beq_iff_eq] at hs
    subst hs
    cases hi
    obtain rfl := List.mem_singleton.mp hm
    obtain ⟨h20, hp⟩ := h
    refine .inr (.inl ⟨.gate 0 false none, List.mem_singleton_self _, .inl ⟨?_, hp, fun h => by omega, fun h => by cases h⟩,
      fun k hk => by cases hk⟩)
    show v.regs 20 <<< 3 = _
    rw [h20]
    decide
  · -- before `loop_3`
    rw [beq_iff_eq] at hs
    subst hs
    cases hi
    obtain rfl := List.mem_singleton.mp hm
    obtain ⟨hl, hret⟩ := h
    exact .inr (.inl ⟨.counting false, List.mem_singleton_self _,
      hl.imp_left fun hl => ⟨hl.r20, 15, by decide, by decide, rfl, hl.passed⟩, hret⟩)
  · simp only [Bool.or_eq_true, beq_iff_eq] at hs
    cases hs with
    | inl hs =>
      subst hs
      cases hi
      obtain rfl := List.mem_singleton.mp hm
      exact boot_step h
    | inr hs =>
      subst hs
      cases hi
      obtain rfl := List.mem_singleton.mp hm
      exact count_step h
  · -- the end of `ime_wipe_user`
    obtain rfl := List.mem_singleton.mp hm
    match i with
    | 0 =>
      cases hi
      obtain ⟨hl, hret⟩ := h
      show Inv Y id (.run (Y.place (v.regs 23))) v.regs (.wiped (v.regs 17) :: p)
      rw [hret 8 rfl, retAt, place_addr (by decide)]
      refine .inr (.inl ⟨.gate 2 false none, List.mem_singleton_self _, hl.imp_left fun hl => ⟨hl.r20, ?_, fun h => by omega,
        fun h => by cases h⟩, fun k hk => by cases hk⟩)
      rw [hl.passed]
      rfl
    | i + 1 => cases hi
  · -- a C function
    match i with
    | 0 =>
      cases hi
      exact absurd rfl hc
    | i + 1 => cases hi
  · -- the beginning of `ime_push_sk`
    rw [beq_iff_eq] at hs
    subst hs
    cases hi
    obtain rfl := List.mem_singleton.mp hm
    obtain ⟨hl, hret⟩ := h
    refine .inr (.inl ⟨.gate 3 false (some 10), List.mem_singleton_self _, hl.imp_left fun hl => ⟨hl.r20, ?_,
      fun h => by omega, fun h => by cases h⟩, hret⟩)
    show .pushed (v.regs 0) :: p = _
    rw [hl.passed, hl.arg rfl]
    rfl
  · -- where `core_iram.s` begins to move `r21`
    rw [beq_iff_eq] at hs
    subst hs
    cases hi
    obtain rfl := List.mem_singleton.mp hm
    obtain ⟨hl, hret⟩ := h
    refine Sections.inv (hl.imp_left fun hl => ⟨v.regs 21, ?_, ?_, hl.passed, hl.id (by decide), hret 26 rfl⟩)
    · exact hl.r20.trans (BitVec.add_zero _).symm
    · exact (BitVec.add_zero _).symm
  · simp only [Bool.or_eq_true, beq_iff_eq] at hs
    cases hs with
    | inl hs =>
      subst hs
      cases hi
      exact .inr (.inl ⟨.resuming, List.mem_singleton_self _, rfl⟩)
    | inr hs =>
      subst hs
      cases hi
      obtain rfl := List.mem_singleton.mp hm
      exact .inl ⟨h, rfl⟩
  · cases hs

/-- One instruction of a thread. -/
theorem asm_inv (h : Inv Y id (.run (.at l i)) v.regs p) (hi : (code l)[i]? = some ins) (hc : ins ≠ .compiled) :
    Inv Y id (Y.exec id l i ins v).pc (Y.exec id l i ins v).regs (record l i v p) := by
  cases h with
  | inl hu => exact user_step hu hi
  | inr h =>
    cases h with
    | inl h =>
      obtain ⟨mk, hm, hh⟩ := h
      cases hs : special l i with
      | false => exact mark_step hm hh hi hs
      | true => exact special_step hm hh hi hs hc
    | inr h =>
      cases l with
      | imeLoadIram => exact loadIram_step h hi
      | clsTable k => exact cls_step h hi
      | _ => exact h.elim

end Memclave.Core
