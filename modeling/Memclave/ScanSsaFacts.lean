/-
The first kernel of SCAN-SSA computes the prefix sums in every run in which
the running total is updated in time (`outputs_correct`), and not in every
run (`late_read`).

What a tasklet alone changes is described by `Owned`: its blocks of the
output, its box, and for the first tasklet the epoch and for the last one the
running total. `place n` is where all of it stands at the end of phase `n`;
a pass of the loop takes three phases.
-/
import Memclave.ScanSsa

namespace Memclave.ScanSsa

open Words Tasklets Mailboxes Sys

variable {args : DpuArguments} {m0 : Nat → Word} {t n : Nat}

/-! ## Sums -/

theorem scanRegs_eq (input : Nat → Word) (j : Nat) : scanRegs input j = ∑ i ∈ Finset.range (j + 1), input i := by
  induction j with
  | zero => simp [scanRegs]
  | succ j ih => rw [scanRegs, ih, Finset.sum_range_succ _ (j + 1)]

/-- What tasklet `t` receives in pass `r`: the sum of the blocks before its own. -/
def before (m : Nat → Word) (r t : Nat) : Word := ∑ k ∈ Finset.range (256 * t), elem m (4096 * r + k)

theorem before_succ (r t : Nat) :
    before m0 r (t + 1) = before m0 r t + ∑ k ∈ Finset.range 256, elem m0 (4096 * r + 256 * t + k) := by
  rw [before, Nat.mul_succ, Finset.sum_range_add, before]
  simp only [Nat.add_assoc]

theorem total_block (r t l : Nat) : total args m0 (4096 * r) + before m0 r t +
    ∑ k ∈ Finset.range l, elem m0 (4096 * r + 256 * t + k) = total args m0 (4096 * r + 256 * t + l) := by
  rw [total, total, before, Finset.sum_range_add, Finset.sum_range_add, add_assoc, add_assoc, add_assoc]

theorem total_pass (r : Nat) : total args m0 (4096 * r) + before m0 r 16 = total args m0 (4096 * (r + 1)) := by
  have h := @total_block args m0 r 16 0
  rwa [Finset.sum_range_zero, add_zero] at h

/-! ## Who changes what -/

/-- The words of the output that tasklet `t` writes. -/
def Mine (args : DpuArguments) (t k : Nat) : Prop := B_base args / 4 ≤ k ∧ (k - B_base args / 4) / 256 % 16 = t

/-- How far a tasklet is: blocks written, reads and updates of the running
total, the total, its message and the epoch. -/
structure Place where
  blocks : Nat
  reads : Nat
  updates : Nat
  count : Word
  tag : Nat
  epoch : Nat

structure Owned (args : DpuArguments) (m0 : Nat → Word) (t : Nat) (a : Place) (s : St) : Prop where
  input : ∀ i < args.size.toNat / 4, elem s.mram i = elem m0 i
  blocks : ∀ r < a.blocks, ∀ j < 256, out args s.mram (4096 * r + 256 * t + j) = total args m0 (4096 * r + 256 * t + (j + 1))
  reads : s.reads t = a.reads
  updates : t = 15 → s.updates = a.updates
  count : t = 15 → s.messagePartialCount = a.count
  tag : t < 15 → (s.mcMsg.tag (t + 1)).toNat ≤ a.tag
  epoch : t = 0 → s.gEpoch = BitVec.ofNat 32 a.epoch

def epochOf (n : Nat) : Word := BitVec.ofNat 32 ((n + 2) / 3 + 1)

structure Guar (args : DpuArguments) (m0 : Nat → Word) (n t : Nat) (s s' : St) : Prop where
  mram : ∀ k, ¬ Mine args t k → s'.mram k = s.mram k
  reads : ∀ u, u ≠ t → s'.reads u = s.reads u
  count : (s'.messagePartialCount = s.messagePartialCount ∧ s'.updates = s.updates) ∨
    t = 15 ∧ (n = 0 ∨ n % 3 = 0 ∧ ∀ u < 15, s.reads u = s.updates + 1)
  gEpoch : s'.gEpoch = s.gEpoch ∨ t = 0 ∧ n % 3 = 1
  mcMsg : Mail.Sends (epochOf n) (before m0 (n / 3) (t + 1)) (t + 1) s.mcMsg s'.mcMsg
  log : s'.log = s.log ∨ t = 0

/-- At the end of phase `n`. -/
def place (args : DpuArguments) (m0 : Nat → Word) (n : Nat) : Place where
  blocks := n / 3
  reads := n / 3
  updates := n / 3
  count := total args m0 (4096 * (n / 3))
  tag := (n + 1) / 3 + 1
  epoch := (n + 2) / 3 + 1

/-- Every tasklet may wait for the first one, which waits for nobody. -/
def protocol (args : DpuArguments) (m0 : Nat → Word) : Protocol St where
  N := NR_TASKLETS
  ok := timely
  guar := Guar args m0
  brings n t s := Owned args m0 t (place args m0 n) s
  busy _ _ := True

theorem waits {s : St} (ht : t ≠ 0) : (protocol args m0).Waits t s :=
  ⟨0, show 0 < 16 by decide, trivial, fun _ => Nat.pos_of_ne_zero ht⟩

variable (hsize : 16384 ∣ args.size.toNat) (ht : t < 16)

include hsize ht in
theorem Owned.stable (a : Place) : (protocol args m0).Stable t n (Owned args m0 t a) := by
  intro s s' h ⟨u, _, hu, hg⟩
  have hg : Guar args m0 n u s s' := hg
  refine ⟨fun i hi => ?_, fun r hr j hj => ?_, ?_, fun ht => ?_, fun ht => ?_, fun ht => ?_, fun ht => ?_⟩
  · have hother : ¬ Mine args u (A_OFFSET / 4 + i) := by
      unfold Mine B_base A_OFFSET
      omega
    exact (hg.mram _ hother).trans (h.input i hi)
  · have hother : ¬ Mine args u (B_base args / 4 + (4096 * r + 256 * t + j)) := by
      unfold Mine
      omega
    exact (hg.mram _ hother).trans (h.blocks r hr j hj)
  · rw [hg.reads t (Ne.symm hu), h.reads]
  · cases hg.count with
    | inl he => rw [he.2, h.updates ht]
    | inr he => exact absurd (he.1.trans ht.symm) hu
  · cases hg.count with
    | inl he => rw [he.1, h.count ht]
    | inr he => exact absurd (he.1.trans ht.symm) hu
  · rw [hg.mcMsg.other_tag _ (by omega)]
    exact h.tag ht
  · cases hg.gEpoch with
    | inl he => rw [he, h.epoch ht]
    | inr he => exact absurd (he.1.trans ht.symm) hu

theorem Guar.refl (s : St) : Guar args m0 n t s s :=
  ⟨fun _ _ => rfl, fun _ _ => rfl, .inl ⟨rfl, rfl⟩, .inl rfl, .refl, .inl rfl⟩

/-! ## The handshake -/

/-- What holds for tasklet `t` in the second phase of pass `r`: the epoch
stands, and a message of this epoch is the sum of the blocks before. -/
structure InRound (args : DpuArguments) (m0 : Nat → Word) (r t : Nat) (a : Place) (s : St) : Prop where
  owned : Owned args m0 t a s
  gEpoch : s.gEpoch = BitVec.ofNat 32 (r + 2)
  message : t ≠ 0 → s.mcMsg.Holds (BitVec.ofNat 32 (r + 2)) (before m0 r t) t

theorem epochOf_round (r : Nat) : epochOf (3 * r + 2) = BitVec.ofNat 32 (r + 2) := by
  rw [epochOf, show (3 * r + 2 + 2) / 3 + 1 = r + 2 by omega]

theorem Guar.sends {r u : Nat} {s s' : St} (h : Guar args m0 (3 * r + 2) u s s') :
    Mail.Sends (BitVec.ofNat 32 (r + 2)) (before m0 r (u + 1)) (u + 1) s.mcMsg s'.mcMsg := by
  have hm := h.mcMsg
  rwa [epochOf_round, show (3 * r + 2) / 3 = r by omega] at hm

theorem Owned.mail {a : Place} {s : St} (h : Owned args m0 t a s) {m : Mail Word Word} {e : Nat}
    (he : t < 15 → (m.tag (t + 1)).toNat ≤ e) : Owned args m0 t { a with tag := e } { s with mcMsg := m } :=
  { h with tag := he }

theorem guar_mram {s : St} {m : Nat → Word} (h : ∀ k, ¬ Mine args t k → m k = s.mram k) :
    Guar args m0 n t s { s with mram := m } :=
  { (Guar.refl s : Guar args m0 n t s s) with mram := h }

theorem guar_mail {r : Nat} {s : St} {m : Mail Word Word}
    (h : Mail.Sends (BitVec.ofNat 32 (r + 2)) (before m0 r (t + 1)) (t + 1) s.mcMsg m) :
    Guar args m0 (3 * r + 2) t s { s with mcMsg := m } where
  mram _ _ := rfl
  reads _ _ := rfl
  count := .inl ⟨rfl, rfl⟩
  gEpoch := .inl rfl
  mcMsg := by rwa [epochOf_round, show (3 * r + 2) / 3 = r by omega]
  log := .inl rfl

include hsize ht in
theorem InRound.stable (r : Nat) (a : Place) : (protocol args m0).Stable t (3 * r + 2) (InRound args m0 r t a) := by
  intro s s' h ho
  refine ⟨Owned.stable hsize ht a s s' h.owned ho, ?_, ?_⟩
  all_goals obtain ⟨u, _, hu, hg⟩ := ho
  all_goals have hg : Guar args m0 (3 * r + 2) u s s' := hg
  · cases hg.gEpoch with
    | inl he => rw [he, h.gEpoch]
    | inr he => omega
  · exact fun h0 => hg.sends.holds (h.message h0) fun he => by rw [he]

include hsize ht in
/-- After the wait. -/
theorem InRound.got_stable (r : Nat) (a : Place) : (protocol args m0).Stable t (3 * r + 2) fun s =>
    InRound args m0 r t a s ∧ s.mcMsg.Got (BitVec.ofNat 32 (r + 2)) (before m0 r t) t := by
  intro s s' ⟨h, hgot⟩ ho
  refine ⟨InRound.stable hsize ht r a s s' h ho, ?_⟩
  obtain ⟨u, _, _, hg⟩ := ho
  have hg : Guar args m0 (3 * r + 2) u s s' := hg
  exact hg.sends.got hgot fun he => by rw [he]

include hsize ht in
/-- The box is filled and not yet tagged. -/
theorem filled_stable (r : Nat) (a : Place) : (protocol args m0).Stable t (3 * r + 2) fun s =>
    Owned args m0 t a s ∧ s.mcMsg.val (t + 1) = before m0 r (t + 1) := by
  intro s s' ⟨h, hval⟩ ho
  refine ⟨Owned.stable hsize ht a s s' h ho, ?_⟩
  obtain ⟨u, _, hu, hg⟩ := ho
  have hg : Guar args m0 (3 * r + 2) u s s' := hg
  rw [hg.mcMsg.other_val _ (by omega), hval]

/-- At the end of the handshake of pass `r`. -/
theorem place_handshake (r : Nat) : place args m0 (3 * r + 2) = { place args m0 (3 * r + 1) with tag := r + 2 } := by
  unfold place
  rw [show (3 * r + 2) / 3 = r by omega, show (3 * r + 1) / 3 = r by omega, show (3 * r + 2 + 1) / 3 + 1 = r + 2 by omega,
    show (3 * r + 2 + 2) / 3 + 1 = r + 2 by omega]

include hsize ht in
/-- **The handshake of a pass**: a tasklet receives the sum of the blocks
before its own, and sends it on with its own block. -/
theorem handshake_safe {r : Nat} (hr : r < 2 ^ 18) {s : St} (hs : InRound args m0 r t (place args m0 (3 * r + 1)) s) :
    (protocol args m0).Safe t (fun n' a s => n' = 3 * r + 2 ∧ a.1 = before m0 r t ∧ (t = 15 → a.2 = before m0 r (t + 1)) ∧
      Owned args m0 t (place args m0 (3 * r + 2)) s)
      (handshakeSync (∑ k ∈ Finset.range 256, elem m0 (4096 * r + 256 * t + k)) t) (3 * r + 2) s := by
  have hst : ∀ a, (protocol args m0).Stable t (3 * r + 2) (InRound args m0 r t a) := InRound.stable hsize ht r
  unfold handshakeSync
  refine Protocol.Safe.read _ (hst _) hs fun s hs => ?_
  rw [hs.gEpoch]
  have hreceived : (protocol args m0).Safe t (fun n' p s => n' = 3 * r + 2 ∧ p = before m0 r t ∧
      InRound args m0 r t (place args m0 (3 * r + 1)) s)
      (if t ≠ 0 then do
        Prog.await fun s => s.mcMsg.tag t == BitVec.ofNat 32 (r + 2)
        Prog.read fun s => s.mcMsg.val t
      else pure 0) (3 * r + 2) s := by
    by_cases h0 : t = 0
    · subst h0
      rw [if_neg (by simp)]
      exact Protocol.Safe.ret _ (hst _) hs fun s hs => ⟨rfl, rfl, hs⟩
    · rw [if_pos h0]
      refine Protocol.Safe.await _ (hst _) hs (fun s _ _ => waits h0) fun s hs htag => ?_
      have htag := eq_of_beq htag
      refine Protocol.Safe.last (Protocol.Safe.read _ (InRound.got_stable hsize ht r _) ⟨hs, htag, hs.message h0 htag⟩ fun s hs => ?_)
      rw [hs.2.val]
      exact Protocol.Safe.ret _ (hst _) hs.1 fun s hs => ⟨rfl, rfl, hs⟩
  refine (hreceived.mono fun n' p s ⟨hn', hp, hs⟩ => ?_).bind
  subst hn' hp
  rw [← before_succ, NR_TASKLETS]
  split
  next hlast =>
    have hne : ∀ s, InRound args m0 r t (place args m0 (3 * r + 1)) s → s.mcMsg.tag (t + 1) ≠ BitVec.ofNat 32 (r + 2) := by
      intro s hs he
      have hle := hs.owned.tag hlast
      rw [he, BitVec.toNat_ofNat, Nat.mod_eq_of_lt (by omega)] at hle
      have htag : (place args m0 (3 * r + 1)).tag = (3 * r + 1 + 1) / 3 + 1 := rfl
      omega
    refine Protocol.Safe.write _ (hst _) hs fun s hs _ => ⟨guar_mail (.put (fun _ => before m0 r (t + 1)) (hne s hs)), ?_⟩
    have hs' : Owned args m0 t (place args m0 (3 * r + 1))
        { s with mcMsg := s.mcMsg.put (t + 1) fun _ => before m0 r (t + 1) } := hs.owned.mail hs.owned.tag
    refine Protocol.Safe.write _ (filled_stable hsize ht r _) ⟨hs', Mail.put_val fun _ => before m0 r (t + 1)⟩
      fun s hs _ => ⟨guar_mail (.mark hs.2), ?_⟩
    have hs' : Owned args m0 t (place args m0 (3 * r + 2))
        { s with mcMsg := s.mcMsg.mark (t + 1) (BitVec.ofNat 32 (r + 2)) } := by
      rw [place_handshake]
      refine hs.1.mail fun _ => ?_
      rw [Mail.mark_tag, BitVec.toNat_ofNat]
      exact Nat.mod_le _ _
    refine Protocol.Safe.ret _ (Owned.stable hsize ht _) hs' fun s hs => ?_
    exact ⟨rfl, rfl, fun h => absurd h (by omega), hs⟩
  next hlast =>
    rw [place_handshake]
    refine Protocol.Safe.ret _ (hst _) hs fun s hs => ?_
    exact ⟨rfl, rfl, fun _ => rfl, { hs.owned with tag := fun h => absurd h (by omega) }⟩

/-! ## A pass -/

theorem timely_reads {s s' : St} (h : timely s s' = true) (hne : s'.updates ≠ s.updates) : ∀ u < 15, s.reads u = s.updates + 1 := by
  cases Bool.or_eq_true_iff.mp h with
  | inl he => exact absurd (eq_of_beq he) hne
  | inr hall => exact fun u hu => eq_of_beq (List.all_eq_true.mp hall u (List.mem_range.mpr hu))

/-- Before tasklet `t` has read the running total of pass `r`. -/
structure Adding (args : DpuArguments) (m0 : Nat → Word) (r t : Nat) (s : St) : Prop where
  owned : Owned args m0 t (place args m0 (3 * r + 2)) s
  count : s.messagePartialCount = total args m0 (4096 * r)
  updates : s.updates = r

theorem place_at (r k : Nat) (hk : k < 3) : place args m0 (3 * r + k) =
    ⟨r, r, r, total args m0 (4096 * r), (r + (k + 1) / 3) + 1, (r + (k + 2) / 3) + 1⟩ := by
  unfold place
  rw [show (3 * r + k) / 3 = r by omega, show (3 * r + k + 1) / 3 = r + (k + 1) / 3 by omega,
    show (3 * r + k + 2) / 3 = r + (k + 2) / 3 by omega]

include hsize ht in
/-- **The running total stays until this tasklet has read it.** -/
theorem Adding.stable (r : Nat) : (protocol args m0).Stable t (3 * r + 3) (Adding args m0 r t) := by
  intro s s' h ho
  have howned := Owned.stable hsize ht _ s s' h.owned ho
  obtain ⟨u, _, hu, hg⟩ := ho
  have hg : Guar args m0 (3 * r + 3) u s s' := hg
  have hsame : s'.messagePartialCount = s.messagePartialCount ∧ s'.updates = s.updates := by
    rcases hg.count with he | ⟨hu15, hn | ⟨_, hall⟩⟩
    · exact he
    · omega
    · have hread := hall t (by omega)
      rw [h.owned.reads, h.updates, place_at r 2 (by omega)] at hread
      exact absurd hread (Nat.ne_of_lt (Nat.lt_succ_self r))
  exact ⟨howned, hsame.1.trans h.count, hsame.2.trans h.updates⟩

theorem line_in {r i : Nat} : line (A_OFFSET + (t * BLOCK_SIZE + BLOCK_SIZE * NR_TASKLETS * r)) + i =
    A_OFFSET / 4 + (4096 * r + 256 * t + i) := by
  unfold line A_OFFSET BLOCK_SIZE NR_TASKLETS
  omega

include hsize in
theorem line_out {r : Nat} : line (B_base args + (t * BLOCK_SIZE + BLOCK_SIZE * NR_TASKLETS * r)) =
    B_base args / 4 + (4096 * r + 256 * t) := by
  unfold line B_base A_OFFSET BLOCK_SIZE NR_TASKLETS
  omega

/-- What the scan of a block makes of the count before it. -/
theorem addRegs_eq {r j : Nat} {c : Nat → Word} (hj : j < 256) (hc : ∀ i < 256, c i = elem m0 (4096 * r + 256 * t + i)) :
    addRegs (scanRegs c) (total args m0 (4096 * r) + before m0 r t) j = total args m0 (4096 * r + 256 * t + (j + 1)) := by
  rw [addRegs, scanRegs_eq, ← total_block, add_comm]
  congr 1
  exact Finset.sum_congr rfl fun i hi => hc i (by have := Finset.mem_range.mp hi; omega)

include hsize ht in
/-- The second half of a pass. -/
theorem add_safe {α : Type} {Q : Nat → α → St → Prop} {k : Unit → Prog St α} {r : Nat} {c : Nat → Word} {p acc : Word} {s : St}
    (hc : ∀ i < 256, c i = elem m0 (4096 * r + 256 * t + i)) (hp : p = before m0 r t) (hacc : t = 15 → acc = before m0 r (t + 1))
    (hs : Adding args m0 r t s)
    (hk : ∀ s, Owned args m0 t (place args m0 (3 * (r + 1))) s → (protocol args m0).Safe t Q (k ()) (3 * r + 3) s) :
    (protocol args m0).Safe t Q (do
      let count ← partialCount t
      mramWrite (addRegs (scanRegs c) (count + p)) (B_base args + (t * BLOCK_SIZE + BLOCK_SIZE * NR_TASKLETS * r))
      Prog.when (t = NR_TASKLETS - 1) (updateCount acc)
      k ()) (3 * r + 3) s := by
  have hst : ∀ a, (protocol args m0).Stable t (3 * r + 3) (Owned args m0 t a) := Owned.stable hsize ht
  refine Protocol.Safe.readWrite _ (Adding.stable hsize ht r) hs fun s0 hs _ => ⟨?_, ?_⟩
  · exact { Guar.refl s0 with reads := fun u hu => Function.update_of_ne hu _ _ }
  have hs' := hs.owned
  rw [place_at r 2 (by omega)] at hs'
  have hread : Owned args m0 t ⟨r, r + 1, r, total args m0 (4096 * r), r + 2, r + 2⟩
      { s0 with reads := Function.update s0.reads t (s0.reads t + 1) } :=
    { hs' with reads := by dsimp only; rw [Function.update_self, hs'.reads] }
  have hcount : s0.messagePartialCount + p = total args m0 (4096 * r) + before m0 r t := by rw [hs.count, hp]
  refine Protocol.Safe.write _ (hst _) hread fun s hs _ => ⟨?_, ?_⟩
  · refine guar_mram fun k hk => Copy.blit_out ?_
    rw [line_out hsize, REGS]
    unfold Mine at hk
    omega
  have hwritten : ∀ m, m = Copy.blit s.mram (line (B_base args + (t * BLOCK_SIZE + BLOCK_SIZE * NR_TASKLETS * r)))
      (addRegs (scanRegs c) (s0.messagePartialCount + p)) 0 REGS →
      Owned args m0 t ⟨r + 1, r + 1, r, total args m0 (4096 * r), r + 2, r + 2⟩ { s with mram := m } := by
    rintro m rfl
    refine { hs with input := fun i hi => ?_, blocks := fun r' hr' j hj => ?_ }
    · refine (Copy.blit_out ?_).trans (hs.input i hi)
      rw [line_out hsize]
      unfold B_base A_OFFSET
      omega
    · rw [line_out hsize, out, REGS]
      by_cases hrr : r' = r
      · refine (Copy.blit_in (by omega) (by omega)).trans ?_
        rw [hcount, hrr, ← addRegs_eq hj hc]
        congr 1
        omega
      · have hr' : r' < r + 1 := hr'
        have hlt : r' < r := by omega
        exact (Copy.blit_out (by omega)).trans (hs.blocks r' hlt j hj)
  have hplace : place args m0 (3 * (r + 1)) = ⟨r + 1, r + 1, r + 1, total args m0 (4096 * (r + 1)), r + 2, r + 2⟩ :=
    place_at (r + 1) 0 (by omega)
  rw [hplace] at hk
  refine Protocol.Safe.when (fun h15 => ?_) fun h15 => ?_
  · refine Protocol.Safe.last (Protocol.Safe.write _ (hst _) (hwritten _ rfl) fun s hs hok => ⟨?_, ?_⟩)
    · exact { Guar.refl s with count := .inr ⟨h15, .inr ⟨by omega, timely_reads hok (Nat.succ_ne_self _)⟩⟩ }
    have hupdated : Owned args m0 t ⟨r + 1, r + 1, r + 1, total args m0 (4096 * (r + 1)), r + 2, r + 2⟩
        { s with messagePartialCount := s.messagePartialCount + acc, updates := s.updates + 1 } := by
      refine { hs with updates := fun _ => ?_, count := fun _ => ?_ }
      · rw [hs.updates h15]
      · rw [hs.count h15, hacc h15, h15]
        exact total_pass r
    exact Protocol.Safe.ret _ (hst _) hupdated hk
  · exact hk _ { hwritten _ rfl with updates := fun h => absurd h h15, count := fun h => absurd h h15 }

/-- Between two passes. -/
structure Between (args : DpuArguments) (m0 : Nat → Word) (r t : Nat) (s : St) : Prop where
  owned : Owned args m0 t (place args m0 (3 * r)) s
  count : s.messagePartialCount = total args m0 (4096 * r)

include hsize ht in
theorem Between.stable (r : Nat) : (protocol args m0).Stable t (3 * r + 1) (Between args m0 r t) := by
  intro s s' h ho
  refine ⟨Owned.stable hsize ht _ s s' h.owned ho, ?_⟩
  obtain ⟨u, _, _, hg⟩ := ho
  have hg : Guar args m0 (3 * r + 1) u s s' := hg
  rcases hg.count with he | ⟨_, hn⟩
  · exact he.1.trans h.count
  · omega

theorem Between.of_all {r : Nat} {s : St} (ht : t < 16) (h : ∀ u < 16, Owned args m0 u (place args m0 (3 * r)) s) :
    Between args m0 r t s := by
  refine ⟨h t ht, ?_⟩
  rw [(h 15 (by omega)).count rfl, show 3 * r = 3 * r + 0 from rfl, place_at r 0 (by omega)]

variable (args t) in
/-- A pass from its first barrier on. -/
def passRest (byte_idx : Nat) : Prog St Unit := do
  Prog.barrier
  let cache_A ← mramRead (A_OFFSET + byte_idx)
  let (p_count, next_block_accum) ← handshakeSync (scanRegs cache_A (REGS - 1)) t
  Prog.barrier
  let count ← partialCount t
  mramWrite (addRegs (scanRegs cache_A) (count + p_count)) (B_base args + byte_idx)
  Prog.when (t = NR_TASKLETS - 1) (updateCount next_block_accum)
  Prog.barrier

include hsize ht in
/-- **One pass**: three phases on. -/
theorem pass_safe {r : Nat} (hr : 16384 * r < args.size.toNat) {s : St} (hs : Owned args m0 t (place args m0 (3 * r)) s) :
    (protocol args m0).Safe t (fun n' _ s => n' = 3 * (r + 1) + 1 ∧ Between args m0 (r + 1) t s)
      (pass args t (t * BLOCK_SIZE + BLOCK_SIZE * NR_TASKLETS * r)) (3 * r + 1) s := by
  have hsz := args.size.isLt
  have hst : ∀ n a, (protocol args m0).Stable t n (Owned args m0 t a) := fun _ => Owned.stable hsize ht
  have hplace0 : place args m0 (3 * r) = ⟨r, r, r, total args m0 (4096 * r), r + 1, r + 1⟩ := place_at r 0 (by omega)
  have hplace1 : place args m0 (3 * r + 1) = ⟨r, r, r, total args m0 (4096 * r), r + 1, r + 2⟩ := place_at r 1 (by omega)
  have hplace2 : place args m0 (3 * r + 2) = ⟨r, r, r, total args m0 (4096 * r), r + 2, r + 2⟩ := place_at r 2 (by omega)
  -- the other phases of the pass, from the first barrier on
  have hrest : ∀ s, Owned args m0 t (place args m0 (3 * r + 1)) s → (protocol args m0).Safe t
      (fun n' _ s => n' = 3 * (r + 1) + 1 ∧ Between args m0 (r + 1) t s)
      (passRest args t (t * BLOCK_SIZE + BLOCK_SIZE * NR_TASKLETS * r)) (3 * r + 1) s := by
    intro s hs
    refine Protocol.Safe.barrier _ (hst _ _) hs (fun s hs => hs) fun s hall => ?_
    have hall : ∀ u < 16, Owned args m0 u (place args m0 (3 * r + 1)) s := hall
    have hin : InRound args m0 r t (place args m0 (3 * r + 1)) s := by
      refine ⟨hall t ht, ?_, fun h0 htag => ?_⟩
      · rw [(hall 0 (by omega)).epoch rfl, hplace1]
      · have hle := (hall (t - 1) (by omega)).tag (by omega)
        rw [Nat.sub_add_cancel (Nat.pos_of_ne_zero h0), htag, BitVec.toNat_ofNat, Nat.mod_eq_of_lt (by omega), hplace1] at hle
        exact absurd hle (by dsimp only; omega)
    refine Protocol.Safe.read _ (InRound.stable hsize ht r _) hin fun s hin => ?_
    have hcache : ∀ i < 256, s.mram (line (A_OFFSET + (t * BLOCK_SIZE + BLOCK_SIZE * NR_TASKLETS * r)) + i) =
        elem m0 (4096 * r + 256 * t + i) := fun i hi => by
      rw [line_in]
      exact hin.owned.input _ (by omega)
    generalize hc : (fun i => s.mram (line (A_OFFSET + (t * BLOCK_SIZE + BLOCK_SIZE * NR_TASKLETS * r)) + i)) = c
    have hcache : ∀ i < 256, c i = elem m0 (4096 * r + 256 * t + i) := fun i hi => by
      rw [← hc]
      exact hcache i hi
    have hcount : scanRegs c (REGS - 1) = ∑ k ∈ Finset.range 256, elem m0 (4096 * r + 256 * t + k) :=
      (scanRegs_eq c 255).trans (Finset.sum_congr rfl fun i hi => hcache i (Finset.mem_range.mp hi))
    rw [hcount]
    refine ((handshake_safe hsize ht (by omega) hin).mono fun n' a s h => ?_).bind
    obtain ⟨rfl, hp, hacc, hs⟩ := h
    refine Protocol.Safe.barrier _ (hst _ _) hs (fun s hs => hs) fun s hall => ?_
    have hall : ∀ u < 16, Owned args m0 u (place args m0 (3 * r + 2)) s := hall
    have hadding : Adding args m0 r t s :=
      ⟨hall t ht, by rw [(hall 15 (by omega)).count rfl, hplace2], by rw [(hall 15 (by omega)).updates rfl, hplace2]⟩
    refine add_safe (k := fun _ => Prog.barrier) hsize ht hcache hp hacc hadding fun s hs => ?_
    refine Protocol.Safe.last (Protocol.Safe.barrier _ (hst _ _) hs (fun s hs => hs) fun s hall => ?_)
    have hnext : Between args m0 (r + 1) t s := Between.of_all ht hall
    exact Protocol.Safe.ret _ (Between.stable hsize ht (r + 1)) hnext fun s hs => ⟨rfl, hs⟩
  rw [hplace0] at hs
  rw [hplace1] at hrest
  refine Protocol.Safe.when (fun h0 => ?_) fun h0 => hrest s { hs with epoch := fun h => absurd h h0 }
  refine Protocol.Safe.last (Protocol.Safe.write _ (hst _ _) hs fun s hs _ => ⟨?_, ?_⟩)
  · exact { Guar.refl s with gEpoch := .inr ⟨h0, by omega⟩ }
  have hbumped : Owned args m0 t ⟨r, r, r, total args m0 (4096 * r), r + 1, r + 2⟩ { s with gEpoch := s.gEpoch + 1 } := by
    refine { hs with epoch := fun _ => ?_ }
    rw [hs.epoch h0]
    exact (BitVec.ofNat_add (r + 1) 1).symm
  exact Protocol.Safe.ret _ (hst _ _) hbumped hrest

/-! ## The kernel -/

/-- What a tasklet ends with. -/
structure End (args : DpuArguments) (m0 : Nat → Word) (t : Nat) (s : St) : Prop where
  out : ∀ i < args.size.toNat / 4, i / 256 % 16 = t → out args s.mram i = total args m0 (i + 1)
  log : t = 0 → s.log = (total args m0 (args.size.toNat / 4)).setWidth 64

include hsize ht in
theorem passes_eq : Prog.passes (t * BLOCK_SIZE) args.size.toNat (BLOCK_SIZE * NR_TASKLETS) = args.size.toNat / 16384 := by
  unfold Prog.passes BLOCK_SIZE NR_TASKLETS
  omega

include hsize ht in
theorem End.of_owned {s : St} (h : Owned args m0 t (place args m0 (3 * (args.size.toNat / 16384))) s)
    (hlog : t = 0 → s.log = (total args m0 (args.size.toNat / 4)).setWidth 64) : End args m0 t s := by
  refine ⟨fun i hi hit => ?_, hlog⟩
  have hblocks : (place args m0 (3 * (args.size.toNat / 16384))).blocks = args.size.toNat / 16384 :=
    Nat.mul_div_cancel_left _ (by decide)
  have hi' := h.blocks (i / 4096) (by omega) (i % 256) (by omega)
  rwa [show 4096 * (i / 4096) + 256 * t + i % 256 = i by omega,
    show 4096 * (i / 4096) + 256 * t + (i % 256 + 1) = i + 1 by omega] at hi'

include hsize ht in
theorem logged_stable (h0 : t = 0) (n : Nat) (a : Place) (x : Dword) :
    (protocol args m0).Stable t n fun s => Owned args m0 t a s ∧ s.log = x := by
  intro s s' h ho
  refine ⟨Owned.stable hsize ht a s s' h.1 ho, ?_⟩
  obtain ⟨u, _, hu, hg⟩ := ho
  have hg : Guar args m0 n u s s' := hg
  cases hg.log with
  | inl he => rw [he, h.2]
  | inr hu0 => exact absurd (hu0.trans h0.symm) hu

include hsize ht in
theorem mainKernel1_safe {s : St} (hs : Init m0 s) :
    (protocol args m0).Safe t (fun _ _ s => End args m0 t s) (mainKernel1 args t) 0 s := by
  have hst : ∀ n a, (protocol args m0).Stable t n (Owned args m0 t a) := fun _ => Owned.stable hsize ht
  have hplace : place args m0 0 = ⟨0, 0, 0, total args m0 0, 1, 1⟩ := place_at 0 0 (by omega)
  -- all but the running total is in place
  have hinit : ∀ c, s.messagePartialCount = c → Owned args m0 t ⟨0, 0, 0, c, 1, 1⟩ s := by
    obtain ⟨hmram, ⟨s0, hs0⟩, hreads, hupdates⟩ := hs
    refine fun c hc => ⟨fun i _ => by rw [hmram], fun r hr => absurd hr (Nat.not_lt_zero r), hreads t, fun _ => hupdates,
      fun _ => hc, fun ht => ?_, fun _ => by rw [hs0]; rfl⟩
    have htag : s.mcMsg.tag (t + 1) = 0 := by
      rw [hs0]
      exact if_pos (show t + 1 < 16 by omega)
    rw [htag]
    exact Nat.zero_le 1
  have hrest : ∀ s, Owned args m0 t (place args m0 0) s → (protocol args m0).Safe t (fun _ _ s => End args m0 t s) (do
      Prog.barrier
      Prog.loop (t * BLOCK_SIZE) args.size.toNat (BLOCK_SIZE * NR_TASKLETS) (pass args t)
      Prog.when (t = 0) (Prog.write fun s => { s with log := s.messagePartialCount.setWidth 64 })) 0 s := by
    intro s hs
    refine Protocol.Safe.barrier _ (hst _ _) hs (fun s hs => hs) fun s hall => ?_
    have hfirst : Between args m0 0 t s := Between.of_all ht hall
    refine Protocol.Safe.forPhases (fun j _ n s => n = 3 * j + 1 ∧ Between args m0 j t s) (fun j _ n s s' h ho => ?_)
      ⟨rfl, hfirst⟩ (fun j hj _ n s hs => ?_) fun _ n s hs => ?_
    · obtain ⟨rfl, h⟩ := h
      exact ⟨rfl, Between.stable hsize ht j s s' h ho⟩
    · obtain ⟨rfl, hs⟩ := hs
      rw [passes_eq hsize ht] at hj
      exact pass_safe hsize ht (by omega) hs.owned
    · rw [passes_eq hsize ht] at hs
      obtain ⟨rfl, hs⟩ := hs
      have hend : 4096 * (args.size.toNat / 16384) = args.size.toNat / 4 := by omega
      refine Protocol.Safe.last (Protocol.Safe.when (fun h0 => ?_) fun h0 => ?_)
      · refine Protocol.Safe.last (Protocol.Safe.write _ (Between.stable hsize ht _) hs fun s hs _ => ⟨?_, ?_⟩)
        · exact { Guar.refl s with log := .inr h0 }
        have howned : Owned args m0 t (place args m0 (3 * (args.size.toNat / 16384)))
            { s with log := s.messagePartialCount.setWidth 64 } := { hs.owned with }
        have hlog : s.messagePartialCount.setWidth 64 = (total args m0 (args.size.toNat / 4)).setWidth 64 := by
          rw [hs.count, hend]
        exact Protocol.Safe.ret _ (logged_stable hsize ht h0 _ _ _) ⟨howned, hlog⟩ fun s hs =>
          Protocol.Safe.ret _ (logged_stable hsize ht h0 _ _ _) hs fun s hs => End.of_owned hsize ht hs.1 fun _ => hs.2
      · exact Protocol.Safe.ret _ (hst _ _) hs.owned fun s hs => End.of_owned hsize ht hs fun h => absurd h h0
  rw [hplace] at hrest
  refine Protocol.Safe.when (fun h15 => ?_) fun h15 => hrest s { hinit _ rfl with count := fun h => absurd h h15 }
  refine Protocol.Safe.last (Protocol.Safe.write _ (hst _ _) (hinit _ rfl) fun s hs _ => ⟨?_, ?_⟩)
  · exact { Guar.refl s with count := .inr ⟨h15, .inl rfl⟩ }
  have hset : Owned args m0 t ⟨0, 0, 0, total args m0 0, 1, 1⟩ { s with messagePartialCount := args.t_count } := by
    refine { hs with count := fun _ => ?_ }
    rw [total, Finset.sum_range_zero]
    exact (add_zero args.t_count).symm
  exact Protocol.Safe.ret _ (hst _ _) hset hrest

/-- **The prefix sums**, in every run in which the running total is updated
only after the others have read it. -/
theorem outputs_correct (hsize : BLOCK_SIZE * NR_TASKLETS ∣ args.size.toNat) {c : Conf St}
    (hr : Reachable (Starts (Init m0) (mainKernel1 args)) (Step NR_TASKLETS timely) c) (hfin : c.Finished NR_TASKLETS) :
    (∀ i < args.size.toNat / 4, out args c.state.mram i = args.t_count + ∑ k ∈ Finset.range (i + 1), elem m0 k) ∧
      c.state.log = (args.t_count + ∑ k ∈ Finset.range (args.size.toNat / 4), elem m0 k).setWidth 64 := by
  obtain ⟨n, hend⟩ := (protocol args m0).sound (Q := fun _ t s => End args m0 t s)
    (fun t ht s hs => mainKernel1_safe hsize ht hs) hr hfin
  have hend : ∀ t < 16, End args m0 t c.state := hend
  exact ⟨fun i hi => (hend (i / 256 % 16) (by omega)).out i hi rfl, (hend 0 (by omega)).log rfl⟩

/-- A block of ones for each tasklet. -/
def ones : St := handshakeInit ⟨fun _ => 1, 0, 0, ⟨fun _ => 0, fun _ => 0⟩, 0, fun _ => 0, 0⟩

def onesArgs : DpuArguments := ⟨16384, 0⟩

def onesStart : Conf St := ⟨ones, mainKernel1 onesArgs⟩

theorem onesStart_starts : Starts (Init fun _ => 1) (mainKernel1 onesArgs) onesStart :=
  ⟨⟨rfl, ⟨_, rfl⟩, fun _ => rfl, rfl⟩, rfl⟩

/-- One tasklet after the other in each phase. -/
def inTurn : List (List (Nat × Nat)) := List.replicate 5 (inOrder NR_TASKLETS 9)

/-- The same, but for the last tasklet, which is the first one to add. -/
def lastFirst : List (List (Nat × Nat)) :=
  [inOrder NR_TASKLETS 9, inOrder NR_TASKLETS 9, inOrder NR_TASKLETS 9, (15, 9) :: inOrder NR_TASKLETS 9, inOrder NR_TASKLETS 9]

theorem outputs_correct_ones : out onesArgs (onesStart.run NR_TASKLETS timely inTurn).state.mram 700 = 701 := by
  have hr : Reachable (Starts (Init fun _ => 1) (mainKernel1 onesArgs)) (Step NR_TASKLETS timely)
      (onesStart.run NR_TASKLETS timely inTurn) := Conf.run_reachable (by decide) (.init onesStart_starts)
  have hfin := Conf.finished_of (show (onesStart.run NR_TASKLETS timely inTurn).finished NR_TASKLETS = true by decide +kernel)
  rw [(outputs_correct (Dvd.intro_left 1 rfl) hr hfin).1 700 (by decide)]
  simp [onesArgs, elem]

/-- The last tasklet updates the running total before the others read it. -/
theorem late_read : ¬ ∀ c, Reachable (Starts (Init fun _ => 1) (mainKernel1 onesArgs)) (Step NR_TASKLETS free) c →
    c.Finished NR_TASKLETS → out onesArgs c.state.mram 0 = onesArgs.t_count + ∑ k ∈ Finset.range 1, elem (fun _ => 1) k := by
  intro h
  have hr : Reachable (Starts (Init fun _ => 1) (mainKernel1 onesArgs)) (Step NR_TASKLETS free)
      (onesStart.run NR_TASKLETS free lastFirst) := Conf.run_reachable (by decide) (.init onesStart_starts)
  obtain ⟨hfin, hfirst⟩ : (onesStart.run NR_TASKLETS free lastFirst).finished NR_TASKLETS = true ∧
      out onesArgs (onesStart.run NR_TASKLETS free lastFirst).state.mram 0 = 4097 := by decide +kernel
  have hout := h _ hr (Conf.finished_of hfin)
  exact absurd (hfirst.symm.trans hout) (by decide)

end Memclave.ScanSsa
