/-
UNI writes the input with each run reduced to one element in every run in
which the running count is updated in time and whose input does not start
with the value that stands for "no element yet" (`output_reduced`), and not
otherwise (`late_or_sentinel`).

`Owned` is what a tasklet alone changes. A position of the output belongs to
the block in which its run starts (`Mine`); the last value of a round is
overwritten by the last tasklet only after it has its message, and so after
the first one has read it (`Quiet`).
-/
import Memclave.Uni
import Mathlib.Algebra.BigOperators.Intervals

namespace Memclave.Uni

open Words Tasklets Mailboxes Sys

variable {args : DpuArguments} {m0 : Nat → Dword} {r t n : Nat}

/-! ## Blocks -/

/-- The first element of the block of tasklet `t` in round `r`. -/
def base (r t : Nat) : Nat := 2048 * r + 128 * t

def cacheB (m : Nat → Dword) (r t : Nat) : List Dword := Runs.block (elem m) (base r t) 127

/-- 1 if the block starts with the element before it, and 0 otherwise. -/
def offset (m : Nat → Dword) (r t : Nat) : Nat := if Runs.Head (elem m) (base r t) then 0 else 1

/-- What tasklet `t` receives in round `r`: the elements kept and dropped in
the blocks before its own. -/
def kept (m : Nat → Dword) (r t : Nat) : Nat := ∑ u ∈ Finset.range t, (cacheB m r u).length

def dropped (m : Nat → Dword) (r t : Nat) : Nat := ∑ u ∈ Finset.range t, offset m r u

/-- The element before element `b`, if there is one. -/
def prev (m : Nat → Dword) (b : Nat) : Dword := if b = 0 then 0xFFFFFFFF else elem m (b - 1)

def message (m : Nat → Dword) (r t : Nat) : Message :=
  ⟨BitVec.ofNat 32 (kept m r t), prev m (base r t), BitVec.ofNat 32 (dropped m r t)⟩

abbrev runsTo (m : Nat → Dword) (n : Nat) : Nat := Runs.count (elem m) n

theorem base_succ (r t : Nat) : base r (t + 1) = base r t + 128 := by
  unfold base
  omega

theorem base_next (r : Nat) : base r 16 = base (r + 1) 0 := by
  unfold base
  omega

theorem cacheB_pos (m0 : Nat → Dword) (r t : Nat) : 0 < (cacheB m0 r t).length := List.length_pos_iff.mpr (Runs.block_ne_nil _ _)

theorem offset_le (m0 : Nat → Dword) (r t : Nat) : offset m0 r t ≤ 1 := by
  unfold offset
  split <;> omega

theorem heads_base (m0 : Nat → Dword) (r t : Nat) : Runs.heads (elem m0) (base r (t + 1)) =
    Runs.heads (elem m0) (base r t) ++ (cacheB m0 r t).drop (offset m0 r t) := by
  rw [base_succ]
  exact Runs.heads_block _ _

theorem count_base (m0 : Nat → Dword) (r t : Nat) : runsTo m0 (base r (t + 1)) + offset m0 r t = runsTo m0 (base r t) + (cacheB m0 r t).length := by
  have h := congrArg List.length (heads_base m0 r t)
  have hpos := cacheB_pos m0 r t
  have hle := offset_le m0 r t
  rw [List.length_append, List.length_drop, Runs.heads_length, Runs.heads_length] at h
  unfold runsTo
  omega

/-- **Where a block goes**: the elements kept less those dropped are the runs. -/
theorem count_kept (m0 : Nat → Dword) (r t : Nat) : runsTo m0 (base r 0) + kept m0 r t = runsTo m0 (base r t) + dropped m0 r t := by
  induction t with
  | zero => simp [kept, dropped]
  | succ t ih =>
    have h := count_base m0 r t
    rw [kept, dropped, Finset.sum_range_succ, Finset.sum_range_succ, ← kept, ← dropped]
    omega

theorem cacheB_length_le (m0 : Nat → Dword) (r t : Nat) : (cacheB m0 r t).length ≤ 128 := Runs.block_length_le _ _

theorem uniqueTo_eq {input : Nat → Dword} {b j : Nat} (h : ∀ i ≤ j, input i = elem m0 (b + i)) :
    uniqueTo input j = Runs.block (elem m0) b j := by
  induction j with
  | zero => rw [uniqueTo, h 0 (Nat.le_refl 0)]; rfl
  | succ j ih =>
    rw [uniqueTo, Runs.block, h (j + 1) (Nat.le_refl _), h j (Nat.le_succ j), ih fun i hi => h i (Nat.le_succ_of_le hi)]

theorem cacheB_first (r t : Nat) : (cacheB m0 r t).getD 0 0 = elem m0 (base r t) := by
  rw [List.getD_eq_getElem?_getD, cacheB, Runs.block_head]
  rfl

theorem cacheB_last (r t : Nat) : (cacheB m0 r t).getD ((cacheB m0 r t).length - 1) 0 = prev m0 (base r (t + 1)) := by
  have hlast := Runs.block_last (f := elem m0) (base r t) 127
  rw [List.getLast_eq_getElem] at hlast
  rw [List.getD_eq_getElem?_getD, List.getElem?_eq_getElem (by have := cacheB_pos m0 r t; omega), prev,
    if_neg (by unfold base; omega), base_succ]
  exact hlast

theorem prev_ne (hfirst : elem m0 0 ≠ 0xFFFFFFFF) (b : Nat) : prev m0 b ≠ elem m0 b ↔ Runs.Head (elem m0) b := by
  unfold prev Runs.Head
  by_cases hb : b = 0
  · rw [if_pos hb, hb]
    exact ⟨fun _ => .inl rfl, fun _ => hfirst.symm⟩
  · simp [hb, eq_comm]

theorem flag_offset (hfirst : elem m0 0 ≠ 0xFFFFFFFF) (r t : Nat) :
    flag (prev m0 (base r t) == elem m0 (base r t)) = BitVec.ofNat 32 (offset m0 r t) := by
  unfold offset flag
  by_cases hhead : Runs.Head (elem m0) (base r t)
  · have hne := (prev_ne hfirst _).mpr hhead
    rw [if_pos hhead, if_neg (by simpa using hne)]
    rfl
  · have heq := not_not.mp (mt (prev_ne hfirst _).mp hhead)
    rw [if_neg hhead, if_pos (by simpa using heq)]
    rfl

/-! ## Who changes what -/

/-- The words of the output that tasklet `t` writes. -/
def Mine (args : DpuArguments) (m0 : Nat → Dword) (t k : Nat) : Prop :=
  ∃ r, B_base args / 8 + runsTo m0 (base r t) ≤ k ∧ k < B_base args / 8 + runsTo m0 (base r (t + 1))

/-- How far a tasklet is: rounds written and read, its message, the epoch. -/
structure Place where
  blocks : Nat
  reads : Nat
  tag : Nat
  epoch : Word

structure Owned (args : DpuArguments) (m0 : Nat → Dword) (t : Nat) (a : Place) (s : St) : Prop where
  input : ∀ i < args.size.toNat / 8, elem s.mram i = elem m0 i
  blocks : ∀ r < a.blocks, ∀ i, runsTo m0 (base r t) ≤ i → i < runsTo m0 (base r (t + 1)) →
    (Runs.heads (elem m0) (args.size.toNat / 8))[i]? = some (s.mram (B_base args / 8 + i))
  reads : s.reads t = a.reads
  tag : t < 15 → (s.msg.tag (t + 1)).toNat ≤ a.tag
  epoch : t = 0 → s.gEpoch = a.epoch

theorem Owned.of_eq {a : Place} {s s' : St} (h : Owned args m0 t a s) (hm : s'.mram = s.mram) (hr : s'.reads = s.reads)
    (hg : s'.msg = s.msg) (he : s'.gEpoch = s.gEpoch) : Owned args m0 t a s' :=
  ⟨by rw [hm]; exact h.input, by rw [hm]; exact h.blocks, by rw [hr]; exact h.reads, by rw [hg]; exact h.tag,
    by rw [he]; exact h.epoch⟩

/-- The running count and the last value after `r` rounds. -/
structure Running (m0 : Nat → Dword) (r : Nat) (s : St) : Prop where
  updates : s.updates = r
  count : s.messagePartialCount = BitVec.ofNat 32 (runsTo m0 (base r 0))
  last : s.messageLastFromLast = prev m0 (base r 0)

def epochOf (n : Nat) : Word := BitVec.ofNat 32 (n / 2 + 1)

structure Guar (args : DpuArguments) (m0 : Nat → Dword) (n t : Nat) (s s' : St) : Prop where
  mram : ∀ k, ¬ Mine args m0 t k → s'.mram k = s.mram k
  reads : ∀ u, u ≠ t → s'.reads u = s.reads u
  count : (s'.messagePartialCount = s.messagePartialCount ∧ s'.updates = s.updates) ∨
    t = 0 ∧ n = 0 ∧ s'.updates = s.updates ∨ t = 15 ∧ (n ≤ 1 ∨ ∀ u < 15, s.reads u = s.updates + 1)
  last : s'.messageLastFromLast = s.messageLastFromLast ∨
    t = 0 ∧ n = 0 ∨ t = 15 ∧ (n ≤ 1 ∨ s.msg.tag 15 = epochOf n)
  gEpoch : s'.gEpoch = s.gEpoch ∨ t = 0 ∧ n % 2 = 0
  msg : Mail.Sends (epochOf n) (message m0 ((n - 2) / 2) (t + 1)) (t + 1) s.msg s'.msg
  -- a tasklet other than the first one sends only what it has received
  received : t ≠ 0 → s'.msg.tag (t + 1) = epochOf n → s.msg.tag (t + 1) = epochOf n ∨ s.msg.tag t = epochOf n
  log : s'.log = s.log ∨ t = 0

/-- At the end of phase `n`; there is one more after the last round. -/
def place (args : DpuArguments) (n : Nat) : Place where
  blocks := (n - 1) / 2
  reads := (n - 1) / 2
  tag := (n - 1) / 2 + 1
  epoch := BitVec.ofNat 32 (min (n / 2) (args.size.toNat / 16384) + 1)

/-- Every tasklet may wait for the first one, which waits for nobody. -/
def protocol (args : DpuArguments) (m0 : Nat → Dword) : Protocol St where
  N := NR_TASKLETS
  ok := timely
  guar := Guar args m0
  brings n t s := Owned args m0 t (place args n) s ∧ (t = 15 → 1 ≤ n → Running m0 ((n - 1) / 2) s) ∧
    (t = 15 → n = 0 → s.updates = 0)
  busy _ _ := True

theorem waits {s : St} (ht : t ≠ 0) : (protocol args m0).Waits t s :=
  ⟨0, show 0 < 16 by decide, trivial, fun _ => Nat.pos_of_ne_zero ht⟩

/-- The blocks of two tasklets do not meet. -/
theorem blocks_apart {u r' : Nat} (ht : t < 16) (hu : u < 16) (hut : u ≠ t) :
    runsTo m0 (base r' (u + 1)) ≤ runsTo m0 (base r t) ∨ runsTo m0 (base r (t + 1)) ≤ runsTo m0 (base r' u) := by
  cases Nat.lt_or_ge (16 * r' + u) (16 * r + t) with
  | inl hlt => exact .inl (Runs.count_mono (by unfold base; omega))
  | inr hge => exact .inr (Runs.count_mono (by unfold base; omega))

section

variable (hsize : 16384 ∣ args.size.toNat) (ht : t < 16)

include hsize ht

theorem Owned.stable (a : Place) : (protocol args m0).Stable t n (Owned args m0 t a) := by
  intro s s' h ⟨u, hu16, hu, hg⟩
  have hg : Guar args m0 n u s s' := hg
  refine ⟨fun i hi => ?_, fun r hr i hi hi' => ?_, ?_, fun ht => ?_, fun ht => ?_⟩
  · refine (hg.mram _ fun ⟨r, hr, _⟩ => ?_).trans (h.input i hi)
    unfold B_base A_OFFSET at hr
    omega
  · have hother : ¬ Mine args m0 u (B_base args / 8 + i) := fun ⟨r', hr', hr''⟩ => by
      have hapart := @blocks_apart m0 r t u r' ht hu16 hu
      omega
    rw [h.blocks r hr i hi hi', hg.mram _ hother]
  · rw [hg.reads t (Ne.symm hu), h.reads]
  · rw [hg.msg.other_tag _ (by omega)]
    exact h.tag ht
  · cases hg.gEpoch with
    | inl he => rw [he, h.epoch ht]
    | inr he => exact absurd (he.1.trans ht.symm) hu

end

theorem Running.stable (h15 : t = 15) (hn : 1 ≤ n) (r : Nat) : (protocol args m0).Stable t n (Running m0 r) := by
  intro s s' h ⟨u, _, hu, hg⟩
  have hg : Guar args m0 n u s s' := hg
  have hcount : s'.messagePartialCount = s.messagePartialCount ∧ s'.updates = s.updates :=
    hg.count.resolve_right fun he => he.elim (fun he => by omega) fun he => hu (he.1.trans h15.symm)
  have hlast : s'.messageLastFromLast = s.messageLastFromLast :=
    hg.last.resolve_right fun he => he.elim (fun he => by omega) fun he => hu (he.1.trans h15.symm)
  exact ⟨hcount.2.trans h.updates, hcount.1.trans h.count, hlast.trans h.last⟩

theorem Guar.refl (s : St) : Guar args m0 n t s s :=
  ⟨fun _ _ => rfl, fun _ _ => rfl, .inl ⟨rfl, rfl⟩, .inl rfl, .inl rfl, .refl, fun _ => .inl, .inl rfl⟩

theorem timely_reads {s s' : St} (h : timely s s' = true) (hne : s'.updates ≠ s.updates) : ∀ u < 15, s.reads u = s.updates + 1 := by
  cases Bool.or_eq_true_iff.mp h with
  | inl he => exact absurd (eq_of_beq he) hne
  | inr hall => exact fun u hu => eq_of_beq (List.all_eq_true.mp hall u (List.mem_range.mpr hu))

/-! ## The handshake -/

/-- What holds for tasklet `t` in the second phase of round `r`, until it has
read the running count. -/
structure InRound (args : DpuArguments) (m0 : Nat → Dword) (r t : Nat) (a : Place) (s : St) : Prop where
  owned : Owned args m0 t a s
  reads : a.reads = r
  gEpoch : s.gEpoch = BitVec.ofNat 32 (r + 2)
  message : t ≠ 0 → s.msg.Holds (BitVec.ofNat 32 (r + 2)) (message m0 r t) t
  count : s.messagePartialCount = BitVec.ofNat 32 (runsTo m0 (base r 0))
  updates : s.updates = r

/-- Nobody has sent yet in round `r`, and the last value is that of the rounds
before. -/
structure Quiet (m0 : Nat → Dword) (r : Nat) (s : St) : Prop where
  tag : ∀ u, 1 ≤ u → u ≤ 15 → s.msg.tag u ≠ BitVec.ofNat 32 (r + 2)
  last : s.messageLastFromLast = prev m0 (base r 0)

theorem epochOf_round (r : Nat) : epochOf (2 * r + 3) = BitVec.ofNat 32 (r + 2) := by
  rw [epochOf, show (2 * r + 3) / 2 + 1 = r + 2 by omega]

theorem Guar.sends {u : Nat} {s s' : St} (h : Guar args m0 (2 * r + 3) u s s') :
    Mail.Sends (BitVec.ofNat 32 (r + 2)) (message m0 r (u + 1)) (u + 1) s.msg s'.msg := by
  have hm := h.msg
  rwa [epochOf_round, show (2 * r + 3 - 2) / 2 = r by omega] at hm

/-- **The last value stays until the first tasklet has sent.** -/
theorem Quiet.stable (r : Nat) : (protocol args m0).Stable 0 (2 * r + 3) (Quiet m0 r) := by
  intro s s' h ⟨u, _, hu, hg⟩
  have hg : Guar args m0 (2 * r + 3) u s s' := hg
  have hlast := hg.last
  have hreceived := hg.received hu
  rw [epochOf_round] at hlast hreceived
  refine ⟨fun v hv hv' he => ?_, ?_⟩
  · by_cases hvu : v = u + 1
    · subst hvu
      cases hreceived he with
      | inl he' => exact h.tag _ hv hv' he'
      | inr he' => exact h.tag u (Nat.pos_of_ne_zero hu) (by omega) he'
    · rw [hg.msg.other_tag v hvu] at he
      exact h.tag v hv hv' he
  · rcases hlast with he | he | ⟨_, he | he⟩
    · exact he.trans h.last
    · omega
    · omega
    · exact absurd he (h.tag 15 (by omega) (Nat.le_refl 15))

theorem Guar.count_stays {u : Nat} {s s' : St} (hg : Guar args m0 n u s s') (ht : t < 16) (hu : u ≠ t) (hn : 2 ≤ n)
    (hreads : s.reads t = r) (hupdates : s.updates = r) :
    s'.messagePartialCount = s.messagePartialCount ∧ s'.updates = s.updates := by
  rcases hg.count with he | he | ⟨hu15, hn | hall⟩
  · exact he
  · omega
  · omega
  · have hread := hall t (by omega)
    omega

section

variable (hsize : 16384 ∣ args.size.toNat) (ht : t < 16)

include hsize ht

/-- **The running count stays until this tasklet has read it.** -/
theorem InRound.stable (r : Nat) (a : Place) : (protocol args m0).Stable t (2 * r + 3) (InRound args m0 r t a) := by
  intro s s' h ho
  have howned := Owned.stable hsize ht a s s' h.owned ho
  obtain ⟨u, _, hu, hg⟩ := ho
  have hg : Guar args m0 (2 * r + 3) u s s' := hg
  have hsame := hg.count_stays ht hu (by omega) (h.owned.reads.trans h.reads) h.updates
  refine ⟨howned, h.reads, ?_, fun h0 => hg.sends.holds (h.message h0) fun he => by rw [he], hsame.1.trans h.count,
    hsame.2.trans h.updates⟩
  cases hg.gEpoch with
  | inl he => rw [he, h.gEpoch]
  | inr he => omega

end

/-- The same, with the message received. -/
structure Received (args : DpuArguments) (m0 : Nat → Dword) (r t : Nat) (a : Place) (s : St) : Prop where
  inRound : InRound args m0 r t a s
  got : t ≠ 0 → s.msg.Got (BitVec.ofNat 32 (r + 2)) (message m0 r t) t

section

variable (hsize : 16384 ∣ args.size.toNat) (ht : t < 16)

include hsize ht

/-- The tasklet's own box is not touched either. -/
theorem Received.stable (r : Nat) (a : Place) (p : Message → Prop) : (protocol args m0).Stable t (2 * r + 3) fun s =>
    Received args m0 r t a s ∧ p (s.msg.val (t + 1)) := by
  intro s s' ⟨⟨h, hgot⟩, hp⟩ ho
  have hin := InRound.stable hsize ht r a s s' h ho
  obtain ⟨u, _, hu, hg⟩ := ho
  have hg : Guar args m0 (2 * r + 3) u s s' := hg
  refine ⟨⟨hin, fun h0 => hg.sends.got (hgot h0) fun he => by rw [he]⟩, ?_⟩
  rwa [hg.msg.other_val _ (by omega)]

end

theorem guar_mail {s : St} {m : Mail Word Message}
    (h : Mail.Sends (BitVec.ofNat 32 (r + 2)) (message m0 r (t + 1)) (t + 1) s.msg m)
    (hr : t ≠ 0 → m.tag (t + 1) = BitVec.ofNat 32 (r + 2) →
      s.msg.tag (t + 1) = BitVec.ofNat 32 (r + 2) ∨ s.msg.tag t = BitVec.ofNat 32 (r + 2)) :
    Guar args m0 (2 * r + 3) t s { s with msg := m } where
  mram _ _ := rfl
  reads _ _ := rfl
  count := .inl ⟨rfl, rfl⟩
  last := .inl rfl
  gEpoch := .inl rfl
  msg := by rwa [epochOf_round, show (2 * r + 3 - 2) / 2 = r by omega]
  received := by rwa [epochOf_round]
  log := .inl rfl

/-- A state in which only the box of `t + 1` is another one. -/
theorem Received.send {a : Place} {s : St} (h : Received args m0 r t a s) {m : Mail Word Message} {e : Nat}
    (hval : m.val t = s.msg.val t) (htag : m.tag t = s.msg.tag t) (he : t < 15 → (m.tag (t + 1)).toNat ≤ e) :
    Received args m0 r t { a with tag := e } { s with msg := m } := by
  refine ⟨⟨{ h.inRound.owned with tag := he }, h.inRound.reads, h.inRound.gEpoch, fun h0 hm => ?_, h.inRound.count,
    h.inRound.updates⟩, fun h0 => ?_⟩
  · exact hval.trans (h.inRound.message h0 (htag.symm.trans hm))
  · exact ⟨htag.trans (h.got h0).tag, hval.trans (h.got h0).val⟩

theorem Received.put {a : Place} {s : St} (h : Received args m0 r t a s) (f : Message → Message) :
    Received args m0 r t a { s with msg := s.msg.put (t + 1) f } :=
  h.send (Function.update_of_ne (Nat.ne_of_lt (Nat.lt_succ_self t)) _ _) rfl h.inRound.owned.tag

theorem kept_succ (r t : Nat) : BitVec.ofNat 32 (kept m0 r t) + BitVec.ofNat 32 (cacheB m0 r t).length =
    BitVec.ofNat 32 (kept m0 r (t + 1)) := by
  rw [kept, kept, Finset.sum_range_succ, BitVec.ofNat_add]

theorem dropped_succ (r t : Nat) : BitVec.ofNat 32 (dropped m0 r t) + BitVec.ofNat 32 (offset m0 r t) =
    BitVec.ofNat 32 (dropped m0 r (t + 1)) := by
  rw [dropped, dropped, Finset.sum_range_succ, BitVec.ofNat_add]

theorem l_count_toNat (m0 : Nat → Dword) (r t : Nat) : (BitVec.ofNat 32 (cacheB m0 r t).length).toNat = (cacheB m0 r t).length := by
  have hle := cacheB_length_le m0 r t
  rw [BitVec.toNat_ofNat, Nat.mod_eq_of_lt (by omega)]

def Uint3.of (m : Nat → Dword) (r t : Nat) : Uint3 :=
  ⟨BitVec.ofNat 32 (kept m r t), BitVec.ofNat 32 (dropped m r t), BitVec.ofNat 32 (offset m r t)⟩

section

variable (hsize : 16384 ∣ args.size.toNat) (ht : t < 16)

include hsize ht

/-- What a tasklet sends. -/
theorem send_safe {a : Place} (hlast : t < 15) (hr : r < 2 ^ 18) (ha : a.tag ≤ r + 1) {s : St}
    (hs : Received args m0 r t a s) :
    (protocol args m0).Safe t (fun n' _ s => n' = 2 * r + 3 ∧ Received args m0 r t { a with tag := r + 2 } s) (do
      Prog.write fun s => { s with msg := s.msg.put (t + 1) fun v =>
        { v with count := (Uint3.of m0 r t).x + BitVec.ofNat 32 (cacheB m0 r t).length } }
      Prog.write fun s => { s with msg := s.msg.put (t + 1) fun v =>
        { v with last := (cacheB m0 r t).getD ((BitVec.ofNat 32 (cacheB m0 r t).length).toNat - 1) 0 } }
      Prog.write fun s => { s with msg := s.msg.put (t + 1) fun v => { v with off := (Uint3.of m0 r t).y + (Uint3.of m0 r t).z } }
      Prog.write fun s => { s with msg := s.msg.mark (t + 1) (BitVec.ofNat 32 (r + 2)) }) (2 * r + 3) s := by
  have hne : ∀ s, Received args m0 r t a s → s.msg.tag (t + 1) ≠ BitVec.ofNat 32 (r + 2) := by
    intro s hs he
    have hle := hs.inRound.owned.tag hlast
    rw [he, BitVec.toNat_ofNat, Nat.mod_eq_of_lt (by omega)] at hle
    omega
  have hput : ∀ s f, Received args m0 r t a s → Guar args m0 (2 * r + 3) t s { s with msg := s.msg.put (t + 1) f } :=
    fun s f hs => guar_mail (.put f (hne s hs)) fun _ he => absurd he (hne s hs)
  rw [l_count_toNat, cacheB_last, Uint3.of, kept_succ, dropped_succ]
  have hst : ∀ p : Message → Prop, (protocol args m0).Stable t (2 * r + 3) fun s => Received args m0 r t a s ∧ p (s.msg.val (t + 1)) :=
    Received.stable hsize ht r a
  refine Protocol.Safe.write _ (hst fun _ => True) ⟨hs, trivial⟩ fun s hs _ => ⟨hput s _ hs.1, ?_⟩
  refine Protocol.Safe.write _ (hst fun v => v.count = BitVec.ofNat 32 (kept m0 r (t + 1)))
    ⟨hs.1.put _, by dsimp only; rw [Mail.put_val]⟩ fun s hs _ => ⟨hput s _ hs.1, ?_⟩
  refine Protocol.Safe.write _ (hst fun v => v.count = BitVec.ofNat 32 (kept m0 r (t + 1)) ∧ v.last = prev m0 (base r (t + 1)))
    ⟨hs.1.put _, by dsimp only; rw [Mail.put_val]; exact ⟨hs.2, rfl⟩⟩ fun s hs _ => ⟨hput s _ hs.1, ?_⟩
  have hfilled : (s.msg.put (t + 1) fun v => { v with off := BitVec.ofNat 32 (dropped m0 r (t + 1)) }).val (t + 1) =
      message m0 r (t + 1) := by
    rw [Mail.put_val, message, hs.2.1, hs.2.2]
  refine Protocol.Safe.last (Protocol.Safe.write _ (hst fun v => v = message m0 r (t + 1)) ⟨hs.1.put _, hfilled⟩
    fun s hs _ => ⟨guar_mail (.mark hs.2) fun h0 _ => .inr (hs.1.got h0).tag, ?_⟩)
  have hsent : Received args m0 r t { a with tag := r + 2 } { s with msg := s.msg.mark (t + 1) (BitVec.ofNat 32 (r + 2)) } := by
    refine hs.1.send rfl (Function.update_of_ne (Nat.ne_of_lt (Nat.lt_succ_self t)) _ _) fun _ => ?_
    rw [Mail.mark_tag, BitVec.toNat_ofNat]
    exact Nat.mod_le _ _
  exact Protocol.Safe.ret _ (Received.stable hsize ht r _ fun _ => True) ⟨hsent, trivial⟩ fun s hs => ⟨rfl, hs.1⟩

theorem read_quiet (r : Nat) (a : Place) (h0 : t = 0) : (protocol args m0).Stable t (2 * r + 3) fun s =>
    InRound args m0 r t a s ∧ Quiet m0 r s := by
  subst h0
  exact (InRound.stable hsize ht r a).and (Quiet.stable r)

/-- **The handshake of a round.** -/
theorem handshake_safe (hfirst : elem m0 0 ≠ 0xFFFFFFFF) (hr : r < 2 ^ 18) {a : Place} (ha : a.tag ≤ r + 1) {s : St}
    (hs : InRound args m0 r t a s) (hq : t = 0 → Quiet m0 r s) :
    (protocol args m0).Safe t (fun n' po s => n' = 2 * r + 3 ∧ po = Uint3.of m0 r t ∧
      Received args m0 r t { a with tag := r + 2 } s)
      (handshakeSyncUni (cacheB m0 r t) (BitVec.ofNat 32 (cacheB m0 r t).length) t) (2 * r + 3) s := by
  have hst : ∀ a, (protocol args m0).Stable t (2 * r + 3) (Received args m0 r t a) := fun a s s' h ho =>
    (Received.stable hsize ht r a (fun _ => True) s s' ⟨h, trivial⟩ ho).1
  unfold handshakeSyncUni
  refine Protocol.Safe.read (fun s => InRound args m0 r t a s ∧ (t = 0 → Quiet m0 r s)) (fun s s' h ho => ?_) ⟨hs, hq⟩
    fun s ⟨hs, hq⟩ => ?_
  · exact ⟨InRound.stable hsize ht r a s s' h.1 ho, fun h0 => (read_quiet hsize ht r a h0 s s' ⟨h.1, h.2 h0⟩ ho).2⟩
  rw [hs.gEpoch]
  have hreceived : (protocol args m0).Safe t (fun n' po s => n' = 2 * r + 3 ∧ po = Uint3.of m0 r t ∧ Received args m0 r t a s)
      (if t ≠ 0 then do
        Prog.await fun s => s.msg.tag t == BitVec.ofNat 32 (r + 2)
        let p_count ← Prog.read fun s => (s.msg.val t).count
        let last ← Prog.read fun s => (s.msg.val t).last
        let o_count ← Prog.read fun s => (s.msg.val t).off
        pure ⟨p_count, o_count, flag (last == (cacheB m0 r t).getD 0 0)⟩
      else do
        let last ← Prog.read fun s => s.messageLastFromLast
        pure ⟨0, 0, flag (last == (cacheB m0 r t).getD 0 0)⟩ : Prog St Uint3) (2 * r + 3) s := by
    rw [cacheB_first]
    by_cases h0 : t = 0
    · rw [if_neg (not_not.mpr h0)]
      refine Protocol.Safe.read _ (read_quiet hsize ht r a h0) ⟨hs, hq h0⟩ fun s ⟨hs, hquiet⟩ => ?_
      have hgot : Received args m0 r t a s := ⟨hs, fun h => absurd h0 h⟩
      refine Protocol.Safe.ret _ (hst a) hgot fun s hs => ⟨rfl, ?_, hs⟩
      subst h0
      rw [hquiet.last, flag_offset hfirst, Uint3.of, kept, dropped, Finset.sum_range_zero, Finset.sum_range_zero]
      rfl
    · rw [if_pos h0]
      refine Protocol.Safe.await _ (InRound.stable hsize ht r a) hs (fun s _ _ => waits h0) fun s hs htag => ?_
      have htag := eq_of_beq htag
      have hgot : Received args m0 r t a s := ⟨hs, fun _ => ⟨htag, hs.message h0 htag⟩⟩
      refine Protocol.Safe.read _ (hst a) hgot fun s hs => ?_
      rw [(hs.got h0).val]
      refine Protocol.Safe.read _ (hst a) hs fun s hs => ?_
      rw [(hs.got h0).val]
      refine Protocol.Safe.read _ (hst a) hs fun s hs => ?_
      rw [(hs.got h0).val]
      refine Protocol.Safe.ret _ (hst a) hs fun s hs => ⟨rfl, ?_, hs⟩
      rw [message, flag_offset hfirst, Uint3.of]
  refine (hreceived.mono fun n' po s ⟨hn', hpo, hs⟩ => ?_).bind
  subst hn' hpo
  refine Protocol.Safe.when (fun hlast => ?_) fun hlast => ?_
  · refine (send_safe hsize ht hlast hr ha hs).mono fun n' _ s ⟨hn', hs⟩ => ?_
    subst hn'
    exact Protocol.Safe.ret _ (hst _) hs fun s hs => ⟨rfl, rfl, hs⟩
  · have hs : Received args m0 r t { a with tag := r + 2 } s := hs.send rfl rfl fun h => absurd h hlast
    exact Protocol.Safe.ret _ (hst _) hs fun s hs => ⟨rfl, rfl, hs⟩

/-! ## A round -/

/-- From the reading of the running count on. -/
structure Ready (args : DpuArguments) (m0 : Nat → Dword) (r t : Nat) (a : Place) (s : St) : Prop where
  owned : Owned args m0 t a s
  got : t = 15 → s.msg.Got (BitVec.ofNat 32 (r + 2)) (message m0 r 15) 15
  count : t = 15 → s.messagePartialCount = BitVec.ofNat 32 (runsTo m0 (base r 0)) ∧ s.updates = r

theorem Ready.stable (r : Nat) (a : Place) : (protocol args m0).Stable t (2 * r + 3) (Ready args m0 r t a) := by
  intro s s' h ho
  have howned := Owned.stable hsize ht a s s' h.owned ho
  obtain ⟨u, _, hu, hg⟩ := ho
  have hg : Guar args m0 (2 * r + 3) u s s' := hg
  refine ⟨howned, fun h15 => hg.sends.got (h.got h15) fun he => by rw [he], fun h15 => ?_⟩
  have hsame : s'.messagePartialCount = s.messagePartialCount ∧ s'.updates = s.updates :=
    hg.count.resolve_right fun he => he.elim (fun he => by omega) fun he => hu (he.1.trans h15.symm)
  exact ⟨hsame.1.trans (h.count h15).1, hsame.2.trans (h.count h15).2⟩

end

theorem Received.ready {a : Place} {s : St} (h : Received args m0 r t a s) : Ready args m0 r t a s :=
  ⟨h.inRound.owned, fun h15 => by subst h15; exact h.got (by decide), fun _ => ⟨h.inRound.count, h.inRound.updates⟩⟩

theorem guar_reads {s : St} : Guar args m0 n t s (s.noteRead t) :=
  { (Guar.refl s : Guar args m0 n t s s) with reads := fun _ hu => Function.update_of_ne hu _ _ }

theorem Ready.noteRead {a : Place} {s : St} (h : Ready args m0 r t a s) :
    Ready args m0 r t { a with reads := a.reads + 1 } (s.noteRead t) := by
  refine ⟨{ h.owned with reads := ?_ }, h.got, h.count⟩
  unfold St.noteRead
  dsimp only
  rw [Function.update_self, h.owned.reads]

/-- Where the elements of a block go. -/
theorem dest_eq (hN : base r (t + 1) ≤ 2 ^ 29) : ((BitVec.ofNat 32 (runsTo m0 (base r 0)) + (Uint3.of m0 r t).x -
    (Uint3.of m0 r t).y) * 8).toNat = 8 * runsTo m0 (base r t) := by
  have hle : runsTo m0 (base r t) ≤ base r t := Runs.count_le _
  have hbase := base_succ r t
  rw [Uint3.of, ← BitVec.ofNat_add, count_kept, BitVec.ofNat_add, BitVec.add_sub_cancel, BitVec.toNat_mul,
    show (8 : Word).toNat = 8 from rfl, BitVec.toNat_ofNat, Nat.mod_eq_of_lt (by omega), Nat.mod_eq_of_lt (by omega), Nat.mul_comm]

/-- What is written of a block. -/
theorem part_eq : ((cacheB m0 r t).drop (Uint3.of m0 r t).z.toNat).take
    (BitVec.ofNat 32 (cacheB m0 r t).length - (Uint3.of m0 r t).z).toNat = (cacheB m0 r t).drop (offset m0 r t) := by
  have hz : (Uint3.of m0 r t).z.toNat = offset m0 r t := by
    have hle := offset_le m0 r t
    rw [Uint3.of, BitVec.toNat_ofNat, Nat.mod_eq_of_lt (by omega)]
  have hpos := cacheB_pos m0 r t
  have hle := offset_le m0 r t
  rw [hz, List.take_of_length_le]
  rw [List.length_drop, BitVec.toNat_sub_of_le (by rw [BitVec.le_def, l_count_toNat, hz]; omega), l_count_toNat, hz]

def St.written (s : St) (args : DpuArguments) (m : Nat → Dword) (r t : Nat) : St :=
  { s with mram := Copy.lay s.mram (B_base args / 8 + runsTo m (base r t)) ((cacheB m r t).drop (offset m r t)) }

section

variable (hsize : 16384 ∣ args.size.toNat) (ht : t < 16)

include hsize ht

/-- **A block is written to its place.** -/
theorem Ready.write {tag : Nat} {e : Word} {s : St} (h : Ready args m0 r t ⟨r, r + 1, tag, e⟩ s) (hr : 16384 * r < args.size.toNat) :
    Ready args m0 r t ⟨r + 1, r + 1, tag, e⟩ (s.written args m0 r t) := by
  have hlen := count_base m0 r t
  have hdrop : ((cacheB m0 r t).drop (offset m0 r t)).length = (cacheB m0 r t).length - offset m0 r t := List.length_drop
  refine ⟨{ h.owned with input := fun i hi => ?_, blocks := fun r' hr' i hi hi' => ?_ }, h.got, h.count⟩
  · refine (Copy.lay_out (.inl ?_)).trans (h.owned.input i hi)
    unfold B_base A_OFFSET
    omega
  · have hr' : r' < r + 1 := hr'
    by_cases hrr : r' = r
    · subst hrr
      obtain ⟨j, rfl⟩ := Nat.exists_eq_add_of_le hi
      have hj : j < ((cacheB m0 r' t).drop (offset m0 r' t)).length := by omega
      have hN : base r' (t + 1) ≤ args.size.toNat / 8 := by
        unfold base
        omega
      rw [Runs.heads_getElem? hN hi', heads_base, List.getElem?_append_right (by rw [Runs.heads_length]; omega),
        Runs.heads_length, Nat.add_sub_cancel_left, List.getElem?_eq_getElem hj]
      unfold St.written
      dsimp only
      rw [← Nat.add_assoc, Copy.lay_in hj]
    · have hbefore : runsTo m0 (base r' (t + 1)) ≤ runsTo m0 (base r t) := Runs.count_mono (by unfold base; omega)
      unfold St.written
      dsimp only
      rw [h.owned.blocks r' (show r' < r by omega) i hi hi', Copy.lay_out (.inl (by omega))]

end

theorem guar_write {s : St} : Guar args m0 n t s (s.written args m0 r t) := by
  refine { (Guar.refl s : Guar args m0 n t s s) with mram := fun k hk => Copy.lay_out ?_ }
  have hlen := count_base m0 r t
  have hpos := cacheB_pos m0 r t
  have hle := offset_le m0 r t
  rw [List.length_drop]
  by_contra hin
  exact hk ⟨r, by omega, by omega⟩

theorem written_eq (s : St) (hN : base r (t + 1) ≤ 2 ^ 29) :
    { s with mram := Copy.lay s.mram ((B_base args + ((BitVec.ofNat 32 (runsTo m0 (base r 0)) + (Uint3.of m0 r t).x -
      (Uint3.of m0 r t).y) * 8).toNat) / 8) (((cacheB m0 r t).drop (Uint3.of m0 r t).z.toNat).take
        (BitVec.ofNat 32 (cacheB m0 r t).length - (Uint3.of m0 r t).z).toNat) } = s.written args m0 r t := by
  have haddr : (B_base args + 8 * runsTo m0 (base r t)) / 8 = B_base args / 8 + runsTo m0 (base r t) := by omega
  rw [dest_eq hN, part_eq, haddr, St.written]

/-- A round after the running count has been updated. -/
theorem count_next (r : Nat) : BitVec.ofNat 32 (runsTo m0 (base r 0)) + (Uint3.of m0 r 15).x +
    BitVec.ofNat 32 (cacheB m0 r 15).length - (Uint3.of m0 r 15).y - (Uint3.of m0 r 15).z =
    BitVec.ofNat 32 (runsTo m0 (base (r + 1) 0)) := by
  have hkept := count_kept m0 r 15
  have hbase := count_base m0 r 15
  rw [base_next] at hbase
  have hsum : runsTo m0 (base r 0) + kept m0 r 15 + (cacheB m0 r 15).length =
      runsTo m0 (base (r + 1) 0) + offset m0 r 15 + dropped m0 r 15 := by omega
  rw [Uint3.of, ← BitVec.ofNat_add, ← BitVec.ofNat_add, hsum, BitVec.ofNat_add, BitVec.add_sub_cancel, BitVec.ofNat_add,
    BitVec.add_sub_cancel]

section

variable (hsize : 16384 ∣ args.size.toNat) (ht : t < 16)

include hsize ht

/-- **A block is written, if there is something to write.** -/
theorem write_safe {tag : Nat} {e : Word} (hr : 16384 * r < args.size.toNat) {s : St}
    (hs : Received args m0 r t ⟨r, r, tag, e⟩ s) :
    (protocol args m0).Safe t (fun n' _ s => n' = 2 * r + 3 ∧ Ready args m0 r t ⟨r + 1, r + 1, tag, e⟩ s)
      (if BitVec.ofNat 32 (cacheB m0 r t).length > (Uint3.of m0 r t).z then do
        let out_elems := BitVec.ofNat 32 (cacheB m0 r t).length - (Uint3.of m0 r t).z
        let count ← Prog.readWrite (fun s => s.messagePartialCount) fun s => s.noteRead t
        mramWrite (((cacheB m0 r t).drop (Uint3.of m0 r t).z.toNat).take out_elems.toNat)
          (B_base args + ((count + (Uint3.of m0 r t).x - (Uint3.of m0 r t).y) * 8).toNat)
      else Prog.write fun s => s.noteRead t) (2 * r + 3) s := by
  have hN : base r (t + 1) ≤ 2 ^ 29 := by
    have hlt := args.size.isLt
    unfold base
    omega
  have hin : (protocol args m0).Stable t (2 * r + 3) (Received args m0 r t ⟨r, r, tag, e⟩) := fun s s' h ho =>
    (Received.stable hsize ht r _ (fun _ => True) s s' ⟨h, trivial⟩ ho).1
  have hst : ∀ a, (protocol args m0).Stable t (2 * r + 3) (Ready args m0 r t a) := Ready.stable hsize ht r
  dsimp only
  split
  next =>
    refine Protocol.Safe.readWrite _ hin hs fun s hs _ => ⟨guar_reads, ?_⟩
    rw [hs.inRound.count]
    refine Protocol.Safe.last (Protocol.Safe.write _ (hst _) hs.ready.noteRead fun s hs _ => ?_)
    rw [written_eq s hN]
    exact ⟨guar_write, Protocol.Safe.ret _ (hst _) (hs.write hsize ht hr) fun s hs => ⟨rfl, hs⟩⟩
  next hz =>
    -- the one element of the block is the one before it
    refine Protocol.Safe.last (Protocol.Safe.write _ hin hs fun s hs _ => ⟨guar_reads, ?_⟩)
    have hnone : runsTo m0 (base r (t + 1)) = runsTo m0 (base r t) := by
      have hbase := count_base m0 r t
      have hpos := cacheB_pos m0 r t
      have hle := offset_le m0 r t
      rw [gt_iff_lt, BitVec.lt_def, l_count_toNat, Uint3.of, BitVec.toNat_ofNat, Nat.mod_eq_of_lt (by omega)] at hz
      omega
    have hnoted := hs.ready.noteRead
    have hdone : Ready args m0 r t ⟨r + 1, r + 1, tag, e⟩ (s.noteRead t) := by
      refine { hnoted with owned := { hnoted.owned with blocks := fun r' hr' i hi hi' => ?_ } }
      by_cases hrr : r' = r
      · rw [hrr] at hi hi'
        omega
      · have hr' : r' < r + 1 := hr'
        exact hnoted.owned.blocks r' (show r' < r by omega) i hi hi'
    exact Protocol.Safe.ret _ (hst _) hdone fun s hs => ⟨rfl, hs⟩

/-- **The running count and the last value are updated** by the last tasklet. -/
theorem update_safe {a : Place} (h15 : t = 15) {s : St} (hs : Ready args m0 r t a s) :
    (protocol args m0).Safe t (fun n' _ s => n' = 2 * r + 3 ∧ Owned args m0 t a s ∧ Running m0 (r + 1) s) (do
      let l_count : Word := BitVec.ofNat 32 (cacheB m0 r t).length
      let po := Uint3.of m0 r t
      Prog.write fun s => { s with messageLastFromLast := (cacheB m0 r t).getD (if l_count ≠ 0 then l_count.toNat - 1 else 0) 0 }
      Prog.write fun s =>
        { s with messagePartialCount := s.messagePartialCount + po.x + l_count - po.y - po.z, updates := s.updates + 1 })
      (2 * r + 3) s := by
  have hpos : BitVec.ofNat 32 (cacheB m0 r t).length ≠ 0 := by
    intro h0
    have hlen := l_count_toNat m0 r t
    rw [h0] at hlen
    exact absurd hlen (Nat.ne_of_lt (cacheB_pos m0 r t))
  have hlast : prev m0 (base r (t + 1)) = prev m0 (base (r + 1) 0) := by rw [h15, base_next]
  dsimp only
  rw [if_pos hpos, l_count_toNat, cacheB_last, hlast]
  refine Protocol.Safe.write _ (Ready.stable hsize ht r a) hs fun s hs _ => ⟨?_, ?_⟩
  · have htag : s.msg.tag 15 = epochOf (2 * r + 3) := (hs.got h15).tag.trans (epochOf_round r).symm
    exact { (Guar.refl s : Guar args m0 (2 * r + 3) t s s) with last := .inr (.inr ⟨h15, .inr htag⟩) }
  have hset : Ready args m0 r t a { s with messageLastFromLast := prev m0 (base (r + 1) 0) } :=
    ⟨{ hs.owned with }, hs.got, hs.count⟩
  have hst : (protocol args m0).Stable t (2 * r + 3) fun s =>
      Ready args m0 r t a s ∧ s.messageLastFromLast = prev m0 (base (r + 1) 0) := by
    intro s s' h ho
    refine ⟨Ready.stable hsize ht r a s s' h.1 ho, ?_⟩
    obtain ⟨u, _, hu, hg⟩ := ho
    have hg : Guar args m0 (2 * r + 3) u s s' := hg
    exact (hg.last.resolve_right fun he => he.elim (fun he => by omega) fun he => hu (he.1.trans h15.symm)).trans h.2
  refine Protocol.Safe.last (Protocol.Safe.write _ hst ⟨hset, rfl⟩ fun s hs hok => ⟨?_, ?_⟩)
  · have hreads := timely_reads hok (Nat.succ_ne_self _)
    exact { (Guar.refl s : Guar args m0 (2 * r + 3) t s s) with count := .inr (.inr ⟨h15, .inr hreads⟩) }
  obtain ⟨hcount, hupdates⟩ := hs.1.count h15
  have hnext := @count_next m0 r
  rw [← h15] at hnext
  rw [hcount, hnext, hupdates]
  have howned : Owned args m0 t a { s with messagePartialCount := BitVec.ofNat 32 (runsTo m0 (base (r + 1) 0)), updates := r + 1 } :=
    hs.1.owned.of_eq rfl rfl rfl rfl
  have hstr : (protocol args m0).Stable t (2 * r + 3) (Running m0 (r + 1)) := Running.stable h15 (by omega) (r + 1)
  exact Protocol.Safe.ret _ ((Owned.stable hsize ht a).and hstr) ⟨howned, rfl, rfl, hs.2⟩ fun s hs => ⟨rfl, hs⟩

/-- Between two rounds. -/
structure Between (args : DpuArguments) (m0 : Nat → Dword) (r t : Nat) (s : St) : Prop where
  owned : Owned args m0 t (place args (2 * r + 1)) s
  running : t = 15 → Running m0 r s

theorem Between.stable (r : Nat) (hn : 1 ≤ n) : (protocol args m0).Stable t n (Between args m0 r t) := by
  intro s s' h ho
  exact ⟨Owned.stable hsize ht _ s s' h.owned ho, fun h15 => Running.stable h15 hn r s s' (h.running h15) ho⟩

omit hsize ht in
theorem place_odd (h : r ≤ args.size.toNat / 16384) : place args (2 * r + 1) = ⟨r, r, r + 1, BitVec.ofNat 32 (r + 1)⟩ := by
  rw [place, show (2 * r + 1 - 1) / 2 = r by omega, show (2 * r + 1) / 2 = r by omega, Nat.min_eq_left h]

omit hsize ht in
theorem place_even (h : r < args.size.toNat / 16384) : place args (2 * r + 2) = ⟨r, r, r + 1, BitVec.ofNat 32 (r + 2)⟩ := by
  rw [place, show (2 * r + 2 - 1) / 2 = r by omega, show (2 * r + 2) / 2 = r + 1 by omega, Nat.min_eq_left h]

/-- The second half of a round. -/
theorem work_safe (hfirst : elem m0 0 ≠ 0xFFFFFFFF) (hr : r < args.size.toNat / 16384) {s : St}
    (hall : ∀ u < 16, (protocol args m0).brings (2 * r + 2) u s) :
    (protocol args m0).Safe t (fun n' _ s => n' = 2 * (r + 1) + 2 ∧ Between args m0 (r + 1) t s) (do
      let cache_A ← mramRead (A_OFFSET + (t * BLOCK_SIZE + BLOCK_SIZE * NR_TASKLETS * r))
      let cache_B := unique cache_A
      let l_count : Word := BitVec.ofNat 32 cache_B.length
      let po ← handshakeSyncUni cache_B l_count t
      (if l_count > po.z then do
        let out_elems := l_count - po.z
        let count ← Prog.readWrite (fun s => s.messagePartialCount) fun s => s.noteRead t
        mramWrite ((cache_B.drop po.z.toNat).take out_elems.toNat) (B_base args + ((count + po.x - po.y) * 8).toNat)
      else Prog.write fun s => s.noteRead t)
      Prog.when (t = NR_TASKLETS - 1) do
        Prog.write fun s => { s with messageLastFromLast := cache_B.getD (if l_count ≠ 0 then l_count.toNat - 1 else 0) 0 }
        Prog.write fun s =>
          { s with messagePartialCount := s.messagePartialCount + po.x + l_count - po.y - po.z, updates := s.updates + 1 }
      Prog.barrier) (2 * r + 3) s := by
  have hrunning : Running m0 r s := by
    have hrun := (hall 15 (by omega)).2.1 rfl (by omega)
    rwa [show (2 * r + 2 - 1) / 2 = r by omega] at hrun
  have howned : ∀ u < 16, Owned args m0 u ⟨r, r, r + 1, BitVec.ofNat 32 (r + 2)⟩ s := fun u hu =>
    place_even hr ▸ (hall u hu).1
  have htags : ∀ u, 1 ≤ u → u ≤ 15 → s.msg.tag u ≠ BitVec.ofNat 32 (r + 2) := by
    intro u hu hu' he
    have hlt := args.size.isLt
    have hle := (howned (u - 1) (by omega)).tag (by omega)
    rw [Nat.sub_add_cancel hu, he, BitVec.toNat_ofNat, Nat.mod_eq_of_lt (by omega)] at hle
    exact absurd hle (Nat.not_le.mpr (Nat.lt_succ_self _))
  have hin : InRound args m0 r t ⟨r, r, r + 1, BitVec.ofNat 32 (r + 2)⟩ s :=
    ⟨howned t ht, rfl, (howned 0 (by omega)).epoch rfl, fun h0 he => absurd he (htags t (by omega) (by omega)), hrunning.count,
      hrunning.updates⟩
  refine Protocol.Safe.read (fun s => InRound args m0 r t _ s ∧ (t = 0 → Quiet m0 r s)) (fun s s' h ho => ?_)
    ⟨hin, fun _ => ⟨htags, hrunning.last⟩⟩ fun s ⟨hin, hq⟩ => ?_
  · exact ⟨InRound.stable hsize ht r _ s s' h.1 ho, fun h0 => (read_quiet hsize ht r _ h0 s s' ⟨h.1, h.2 h0⟩ ho).2⟩
  have hcache : unique (fun i => s.mram ((A_OFFSET + (t * BLOCK_SIZE + BLOCK_SIZE * NR_TASKLETS * r)) / 8 + i)) = cacheB m0 r t := by
    refine uniqueTo_eq fun i hi => ?_
    rw [← hin.owned.input (base r t + i) (by unfold base REGS at *; omega), elem]
    congr 1
    unfold base A_OFFSET BLOCK_SIZE NR_TASKLETS
    omega
  dsimp only
  rw [hcache]
  refine ((handshake_safe hsize ht hfirst (by have := args.size.isLt; omega) (Nat.le_refl _) hin hq).mono
    fun n' po s ⟨hn', hpo, hs⟩ => ?_).bind
  subst hn' hpo
  refine ((write_safe hsize ht (by omega) hs).mono fun n' _ s ⟨hn', hs⟩ => ?_).bind
  subst hn'
  have hplace : place args (2 * (r + 1) + 1) = ⟨r + 1, r + 1, r + 2, BitVec.ofNat 32 (r + 2)⟩ := place_odd hr
  -- the barrier at the end of the round
  have hend : ∀ s, Between args m0 (r + 1) t s → (protocol args m0).Safe t
      (fun n' _ s => n' = 2 * (r + 1) + 2 ∧ Between args m0 (r + 1) t s) Prog.barrier (2 * r + 3) s := by
    intro s hs
    refine Protocol.Safe.last (Protocol.Safe.barrier _ (Between.stable hsize ht (r + 1) (by omega)) hs (fun s hs => ?_)
      fun s hall => ?_)
    · refine ⟨hs.owned, fun h15 _ => ?_, fun _ hn => by omega⟩
      rw [show (2 * r + 3 - 1) / 2 = r + 1 by omega]
      exact hs.running h15
    · have hnext : Between args m0 (r + 1) t s := by
        refine ⟨(hall t ht).1, fun h15 => ?_⟩
        have hrun := (hall t ht).2.1 h15 (by omega)
        rwa [show (2 * r + 3 - 1) / 2 = r + 1 by omega] at hrun
      exact Protocol.Safe.ret _ (Between.stable hsize ht (r + 1) (by omega)) hnext fun s hs => ⟨rfl, hs⟩
  refine Protocol.Safe.when (fun h15 => ?_) fun h15 => hend s ⟨hplace ▸ hs.owned, fun h => absurd h h15⟩
  refine (update_safe hsize ht h15 hs).mono fun n' _ s ⟨hn', hs⟩ => ?_
  subst hn'
  exact hend s ⟨hplace ▸ hs.1, fun _ => hs.2⟩

/-- **One round**: two phases on. -/
theorem pass_safe (hfirst : elem m0 0 ≠ 0xFFFFFFFF) (hr : r < args.size.toNat / 16384) {s : St} (hs : Between args m0 r t s) :
    (protocol args m0).Safe t (fun n' _ s => n' = 2 * (r + 1) + 2 ∧ Between args m0 (r + 1) t s)
      (pass args t (t * BLOCK_SIZE + BLOCK_SIZE * NR_TASKLETS * r)) (2 * r + 2) s := by
  have hodd := place_odd (Nat.le_of_lt hr)
  have heven := place_even hr
  have hst : ∀ a, (protocol args m0).Stable t (2 * r + 2) fun s => Owned args m0 t a s ∧ (t = 15 → Running m0 r s) :=
    fun a s s' h ho => ⟨Owned.stable hsize ht a s s' h.1 ho, fun h15 => Running.stable h15 (by omega) r s s' (h.2 h15) ho⟩
  -- from the first barrier on
  have hrest : ∀ s, Owned args m0 t ⟨r, r, r + 1, BitVec.ofNat 32 (r + 2)⟩ s ∧ (t = 15 → Running m0 r s) →
      (protocol args m0).brings (2 * r + 2) t s := by
    intro s ⟨howned, hrunning⟩
    refine ⟨heven ▸ howned, fun h15 _ => ?_, fun _ hn => by omega⟩
    rw [show (2 * r + 2 - 1) / 2 = r by omega]
    exact hrunning h15
  have hbefore := hs.owned
  rw [hodd] at hbefore
  unfold pass
  refine Protocol.Safe.when (fun h0 => ?_) fun h0 => ?_
  · have hne : t ≠ 15 := by omega
    refine Protocol.Safe.last (Protocol.Safe.write _ (hst _) ⟨hbefore, fun h => absurd h hne⟩ fun s hs _ => ⟨?_, ?_⟩)
    · exact { (Guar.refl s : Guar args m0 (2 * r + 2) t s s) with gEpoch := .inr ⟨h0, by omega⟩ }
    have hbumped : Owned args m0 t ⟨r, r, r + 1, BitVec.ofNat 32 (r + 2)⟩ { s with gEpoch := s.gEpoch + 1 } := by
      refine { hs.1 with epoch := fun _ => ?_ }
      rw [hs.1.epoch h0]
      exact (BitVec.ofNat_add (r + 1) 1).symm
    refine Protocol.Safe.ret _ (hst _) ⟨hbumped, fun h => absurd h hne⟩ fun s hs => ?_
    exact Protocol.Safe.barrier _ (hst _) hs hrest fun s hall => work_safe hsize ht hfirst hr hall
  · have hready : Owned args m0 t ⟨r, r, r + 1, BitVec.ofNat 32 (r + 2)⟩ s := { hbefore with epoch := fun h => absurd h h0 }
    exact Protocol.Safe.barrier _ (hst _) ⟨hready, hs.running⟩ hrest fun s hall => work_safe hsize ht hfirst hr hall

/-! ## The kernel -/

/-- What a tasklet ends with. -/
structure End (args : DpuArguments) (m0 : Nat → Dword) (t : Nat) (s : St) : Prop where
  blocks : ∀ r < args.size.toNat / 16384, ∀ i, runsTo m0 (base r t) ≤ i → i < runsTo m0 (base r (t + 1)) →
    (Runs.heads (elem m0) (args.size.toNat / 8))[i]? = some (s.mram (B_base args / 8 + i))
  log : t = 0 → s.log = (BitVec.ofNat 32 (runsTo m0 (args.size.toNat / 8))).setWidth 64

theorem passes_eq : Prog.passes (t * BLOCK_SIZE) args.size.toNat (BLOCK_SIZE * NR_TASKLETS) = args.size.toNat / 16384 := by
  unfold Prog.passes BLOCK_SIZE NR_TASKLETS
  omega

/-- After the last round. -/
structure Final (args : DpuArguments) (m0 : Nat → Dword) (t : Nat) (s : St) : Prop where
  owned : Owned args m0 t (place args (2 * (args.size.toNat / 16384) + 1)) s
  count : s.messagePartialCount = BitVec.ofNat 32 (runsTo m0 (args.size.toNat / 8))
  updates : s.updates = args.size.toNat / 16384

theorem Final.stable : (protocol args m0).Stable t (2 * (args.size.toNat / 16384) + 3) (Final args m0 t) := by
  intro s s' h ho
  have howned := Owned.stable hsize ht _ s s' h.owned ho
  obtain ⟨u, _, hu, hg⟩ := ho
  have hg : Guar args m0 (2 * (args.size.toNat / 16384) + 3) u s s' := hg
  have hreads := h.owned.reads
  rw [place_odd (Nat.le_refl _)] at hreads
  have hsame := hg.count_stays ht hu (by omega) hreads h.updates
  exact ⟨howned, hsame.1.trans h.count, hsame.2.trans h.updates⟩

theorem logged_stable (x : Dword) : (protocol args m0).Stable t (2 * (args.size.toNat / 16384) + 3) fun s =>
    Final args m0 t s ∧ (t = 0 → s.log = x) := by
  intro s s' h ho
  refine ⟨Final.stable hsize ht s s' h.1 ho, fun h0 => ?_⟩
  obtain ⟨u, _, hu, hg⟩ := ho
  have hg : Guar args m0 (2 * (args.size.toNat / 16384) + 3) u s s' := hg
  exact (hg.log.resolve_right fun hu0 => hu (hu0.trans h0.symm)).trans (h.2 h0)

end

theorem Final.end {s : St} (h : Final args m0 t s)
    (hlog : t = 0 → s.log = (BitVec.ofNat 32 (runsTo m0 (args.size.toNat / 8))).setWidth 64) : End args m0 t s := by
  have hblocks := h.owned.blocks
  rw [place_odd (Nat.le_refl _)] at hblocks
  exact ⟨hblocks, hlog⟩

section

variable (hsize : 16384 ∣ args.size.toNat) (ht : t < 16)

include hsize ht

/-- The rounds and what follows. -/
theorem rounds_safe (hfirst : elem m0 0 ≠ 0xFFFFFFFF) {s : St} (hs : Between args m0 0 t s) :
    (protocol args m0).Safe t (fun _ _ s => End args m0 t s) (do
      Prog.loop (t * BLOCK_SIZE) args.size.toNat (BLOCK_SIZE * NR_TASKLETS) (pass args t)
      Prog.barrier
      Prog.when (t = 0) (Prog.write fun s => { s with log := s.messagePartialCount.setWidth 64 })) 2 s := by
  have hst : ∀ r n, 1 ≤ n → (protocol args m0).Stable t n (Between args m0 r t) := fun r _ hn =>
    Between.stable hsize ht r hn
  refine Protocol.Safe.forPhases (fun j _ n s => n = 2 * j + 2 ∧ Between args m0 j t s) (fun j _ n s s' h ho => ?_)
    ⟨rfl, hs⟩ (fun j hj _ n s hs => ?_) fun _ n s hs => ?_
  · obtain ⟨rfl, h⟩ := h
    exact ⟨rfl, Between.stable hsize ht j (by omega) s s' h ho⟩
  · obtain ⟨rfl, hs⟩ := hs
    rw [passes_eq hsize ht] at hj
    exact pass_safe hsize ht hfirst hj hs
  rw [passes_eq hsize ht] at hs
  obtain ⟨rfl, hs⟩ := hs
  have hplace : place args (2 * (args.size.toNat / 16384) + 2) = place args (2 * (args.size.toNat / 16384) + 1) := by
    rw [place_odd (Nat.le_refl _), place, show (2 * (args.size.toNat / 16384) + 2 - 1) / 2 = args.size.toNat / 16384 by omega,
      show (2 * (args.size.toNat / 16384) + 2) / 2 = args.size.toNat / 16384 + 1 by omega, Nat.min_eq_right (Nat.le_succ _)]
  refine Protocol.Safe.barrier _ (hst _ _ (by omega)) hs (fun s hs => ⟨hplace ▸ hs.owned, fun h15 _ => ?_, fun _ hn => by omega⟩)
    fun s hall => ?_
  · rw [show (2 * (args.size.toNat / 16384) + 2 - 1) / 2 = args.size.toNat / 16384 by omega]
    exact hs.running h15
  have hrunning : Running m0 (args.size.toNat / 16384) s := by
    have hrun := (hall 15 (show 15 < 16 by decide)).2.1 rfl (by omega)
    rwa [show (2 * (args.size.toNat / 16384) + 2 - 1) / 2 = args.size.toNat / 16384 by omega] at hrun
  have hN : base (args.size.toNat / 16384) 0 = args.size.toNat / 8 := by
    unfold base
    omega
  have hfinal : Final args m0 t s := ⟨hplace ▸ (hall t ht).1, hN ▸ hrunning.count, hrunning.updates⟩
  refine Protocol.Safe.last (Protocol.Safe.when (fun h0 => ?_) fun h0 => ?_)
  · refine Protocol.Safe.last (Protocol.Safe.write _ (Final.stable hsize ht) hfinal fun s hs _ => ⟨?_, ?_⟩)
    · exact { (Guar.refl s : Guar args m0 _ t s s) with log := .inr h0 }
    have hlogged : Final args m0 t { s with log := s.messagePartialCount.setWidth 64 } :=
      ⟨hs.owned.of_eq rfl rfl rfl rfl, hs.count, hs.updates⟩
    exact Protocol.Safe.ret _ (logged_stable hsize ht _) ⟨hlogged, fun _ => congrArg (BitVec.setWidth 64) hs.count⟩ fun s hs =>
      Protocol.Safe.ret _ (logged_stable hsize ht _) hs fun s hs => hs.1.end hs.2
  · exact Protocol.Safe.ret _ (Final.stable hsize ht) hfinal fun s hs => hs.end fun h => absurd h h0

theorem init_stable (h15 : t = 15) (a : Place) (c : Word) : (protocol args m0).Stable t 1 fun s =>
    Owned args m0 t a s ∧ s.messagePartialCount = c ∧ s.updates = 0 := by
  intro s s' h ho
  refine ⟨Owned.stable hsize ht a s s' h.1 ho, ?_⟩
  obtain ⟨u, _, hu, hg⟩ := ho
  have hg : Guar args m0 1 u s s' := hg
  have hsame : s'.messagePartialCount = s.messagePartialCount ∧ s'.updates = s.updates :=
    hg.count.resolve_right fun he => he.elim (fun he => by omega) fun he => hu (he.1.trans h15.symm)
  exact ⟨hsame.1.trans h.2.1, hsame.2.trans h.2.2⟩

theorem start_stable (a : Place) : (protocol args m0).Stable t 0 fun s => Owned args m0 t a s ∧ (t = 15 → s.updates = 0) := by
  intro s s' h ho
  refine ⟨Owned.stable hsize ht a s s' h.1 ho, fun h15 => ?_⟩
  obtain ⟨u, _, hu, hg⟩ := ho
  have hg : Guar args m0 0 u s s' := hg
  rcases hg.count with he | he | he
  · exact he.2.trans (h.2 h15)
  · exact he.2.2.trans (h.2 h15)
  · exact absurd (he.1.trans h15.symm) hu

theorem main_safe (hfirst : elem m0 0 ≠ 0xFFFFFFFF) {s : St} (hs : Init m0 s) :
    (protocol args m0).Safe t (fun _ _ s => End args m0 t s) (main args t) 0 s := by
  obtain ⟨hmram, htag, hreads, hupdates⟩ := hs
  have hplace0 : place args 0 = ⟨0, 0, 1, 1⟩ := by rw [place, Nat.zero_div, Nat.zero_min]; rfl
  have hplace1 : place args 1 = ⟨0, 0, 1, 1⟩ := place_odd (Nat.zero_le _)
  have hinit : ∀ e, s.gEpoch = e → Owned args m0 t ⟨0, 0, 1, e⟩ s := by
    refine fun e he => ⟨fun i _ => by rw [hmram], fun r hr => absurd hr (Nat.not_lt_zero r), hreads t, fun h15 => ?_, fun _ => he⟩
    rw [htag (t + 1) (show t + 1 < 16 by omega)]
    exact Nat.zero_le 1
  have hst : ∀ n e, (protocol args m0).Stable t n (Owned args m0 t ⟨0, 0, 1, e⟩) := fun n e => Owned.stable hsize ht _
  -- from the second barrier on
  have hrest : ∀ s, Owned args m0 t ⟨0, 0, 1, 1⟩ s → (t = 15 → Running m0 0 s) → (protocol args m0).Safe t
      (fun _ _ s => End args m0 t s) (do
        Prog.barrier
        Prog.loop (t * BLOCK_SIZE) args.size.toNat (BLOCK_SIZE * NR_TASKLETS) (pass args t)
        Prog.barrier
        Prog.when (t = 0) (Prog.write fun s => { s with log := s.messagePartialCount.setWidth 64 })) 1 s := by
    intro s hs hrunning
    refine Protocol.Safe.barrier _ (Between.stable hsize ht 0 (Nat.le_refl 1)) ⟨hplace1 ▸ hs, hrunning⟩
      (fun s hs => ⟨hs.owned, fun h15 _ => hs.running h15, fun _ hn => by omega⟩) fun s hall => ?_
    exact rounds_safe hsize ht hfirst ⟨(hall t ht).1, fun h15 => (hall t ht).2.1 h15 (Nat.le_refl 1)⟩
  -- from the first one on
  have hrest0 : ∀ s, Owned args m0 t ⟨0, 0, 1, 1⟩ s → (t = 15 → s.updates = 0) → (protocol args m0).Safe t
      (fun _ _ s => End args m0 t s) (do
        Prog.barrier
        Prog.when (t = NR_TASKLETS - 1) do
          Prog.write fun s => { s with messagePartialCount := 0 }
          Prog.write fun s => { s with messageLastFromLast := 0xFFFFFFFF }
        Prog.barrier
        Prog.loop (t * BLOCK_SIZE) args.size.toNat (BLOCK_SIZE * NR_TASKLETS) (pass args t)
        Prog.barrier
        Prog.when (t = 0) (Prog.write fun s => { s with log := s.messagePartialCount.setWidth 64 })) 0 s := by
    intro s hs hup
    refine Protocol.Safe.barrier _ (start_stable hsize ht _) ⟨hs, hup⟩
      (fun s hs => ⟨hplace0 ▸ hs.1, fun _ hn => by omega, fun h15 _ => hs.2 h15⟩) fun s hall => ?_
    have hs : Owned args m0 t ⟨0, 0, 1, 1⟩ s := hplace0 ▸ (hall t ht).1
    refine Protocol.Safe.when (fun h15 => ?_) fun h15 => hrest s hs fun h => absurd h h15
    have hst15 : ∀ c, (protocol args m0).Stable t 1 fun s =>
        Owned args m0 t ⟨0, 0, 1, 1⟩ s ∧ s.messagePartialCount = c ∧ s.updates = 0 := init_stable hsize ht h15 _
    refine Protocol.Safe.write _ (hst15 _) ⟨hs, rfl, (hall t ht).2.2 h15 rfl⟩ fun s hs _ => ⟨?_, ?_⟩
    · exact { (Guar.refl s : Guar args m0 1 t s s) with count := .inr (.inr ⟨h15, .inl (Nat.le_refl 1)⟩) }
    have hcleared : Owned args m0 t ⟨0, 0, 1, 1⟩ { s with messagePartialCount := 0 } := hs.1.of_eq rfl rfl rfl rfl
    refine Protocol.Safe.last (Protocol.Safe.write _ (hst15 0) ⟨hcleared, rfl, hs.2.2⟩ fun s hs _ => ⟨?_, ?_⟩)
    · exact { (Guar.refl s : Guar args m0 1 t s s) with last := .inr (.inr ⟨h15, .inl (Nat.le_refl 1)⟩) }
    have hset : Owned args m0 t ⟨0, 0, 1, 1⟩ { s with messageLastFromLast := 0xFFFFFFFF } := hs.1.of_eq rfl rfl rfl rfl
    have hfirst : Running m0 0 { s with messageLastFromLast := 0xFFFFFFFF } := ⟨hs.2.2, hs.2.1, rfl⟩
    exact Protocol.Safe.ret _ ((hst 1 1).and (Running.stable h15 (Nat.le_refl 1) 0)) ⟨hset, hfirst⟩ fun s hs =>
      hrest s hs.1 fun _ => hs.2
  unfold main
  refine Protocol.Safe.when (fun h0 => ?_) fun h0 => hrest0 s { hinit _ rfl with epoch := fun h => absurd h h0 } fun _ => hupdates
  refine Protocol.Safe.write _ (hst 0 _) (hinit _ rfl) fun s hs _ => ⟨?_, ?_⟩
  · exact { (Guar.refl s : Guar args m0 0 t s s) with gEpoch := .inr ⟨h0, rfl⟩ }
  have hepoch : Owned args m0 t ⟨0, 0, 1, 1⟩ { s with gEpoch := 1 } := { hs with epoch := fun _ => rfl }
  refine Protocol.Safe.write _ (hst 0 1) hepoch fun s hs _ => ⟨?_, ?_⟩
  · exact { (Guar.refl s : Guar args m0 0 t s s) with count := .inr (.inl ⟨h0, rfl, rfl⟩) }
  have hcleared : Owned args m0 t ⟨0, 0, 1, 1⟩ { s with messagePartialCount := 0 } := hs.of_eq rfl rfl rfl rfl
  refine Protocol.Safe.last (Protocol.Safe.write _ (hst 0 1) hcleared fun s hs _ => ⟨?_, ?_⟩)
  · exact { (Guar.refl s : Guar args m0 0 t s s) with last := .inr (.inl ⟨h0, rfl⟩) }
  have hset : Owned args m0 t ⟨0, 0, 1, 1⟩ { s with messageLastFromLast := -1 } := hs.of_eq rfl rfl rfl rfl
  exact Protocol.Safe.ret _ (hst 0 1) hset fun s hs => hrest0 s hs fun h15 => by omega

end

/-- Every position of the output is in a block. -/
theorem position {n i : Nat} (hi : i < runsTo m0 (128 * n)) : ∃ b < n, runsTo m0 (128 * b) ≤ i ∧ i < runsTo m0 (128 * (b + 1)) := by
  induction n with
  | zero => simp [Runs.count] at hi
  | succ n ih =>
    by_cases hlt : i < runsTo m0 (128 * n)
    · obtain ⟨b, hb, hpos⟩ := ih hlt
      exact ⟨b, Nat.lt_succ_of_lt hb, hpos⟩
    · exact ⟨n, Nat.lt_succ_self n, Nat.not_lt.mp hlt, hi⟩

theorem reduced_eq (m : Nat → Dword) : reduced args m = Runs.heads (elem m) (args.size.toNat / 8) := (Runs.heads_eq _).symm

/-- **The input with its runs reduced**, in every run in which the running
count is updated only after the others have got past it, for an input that
does not start with the value that stands for "no element yet". -/
theorem output_reduced (hsize : BLOCK_SIZE * NR_TASKLETS ∣ args.size.toNat) (hfirst : elem m0 0 ≠ 0xFFFFFFFF) {c : Conf St}
    (hr : Reachable (Starts (Init m0) (main args)) (Step NR_TASKLETS timely) c) (hfin : c.Finished NR_TASKLETS) :
    Copy.cells c.state.mram (B_base args / 8) (reduced args m0).length = reduced args m0 ∧
      c.state.log = BitVec.ofNat 64 (reduced args m0).length := by
  have hsize' : 16384 ∣ args.size.toNat := hsize
  obtain ⟨n, hend⟩ := (protocol args m0).sound (Q := fun _ t s => End args m0 t s)
    (fun t ht s hs => main_safe hsize ht hfirst hs) hr hfin
  have hend : ∀ t < 16, End args m0 t c.state := hend
  have hlen : (reduced args m0).length = runsTo m0 (args.size.toNat / 8) := by rw [reduced_eq, Runs.heads_length]
  refine ⟨List.ext_getElem Copy.cells_length fun i h1 h2 => ?_, ?_⟩
  · have hi : i < runsTo m0 (128 * (args.size.toNat / 8 / 128)) := by
      rwa [Nat.mul_div_cancel' (by omega), ← hlen]
    obtain ⟨b, hb, hpos, hpos'⟩ := position hi
    have hbase : base (b / 16) (b % 16) = 128 * b := by
      unfold base
      omega
    have hblock := (hend (b % 16) (by omega)).blocks (b / 16) (by omega) i (by rwa [hbase])
      (by rw [base_succ, hbase]; exact hpos')
    rw [← reduced_eq, List.getElem?_eq_getElem h2] at hblock
    rw [Copy.cells_getElem]
    exact (Option.some.inj hblock).symm
  · have hle : runsTo m0 (args.size.toNat / 8) ≤ args.size.toNat / 8 := Runs.count_le _
    have hlt := args.size.isLt
    rw [(hend 0 (by omega)).log rfl, hlen]
    refine BitVec.eq_of_toNat_eq ?_
    rw [BitVec.toNat_setWidth, BitVec.toNat_ofNat, BitVec.toNat_ofNat, Nat.mod_eq_of_lt (by omega : _ < 2 ^ 32)]

/-- An input of one value, and nothing behind it. -/
def constant (x : Dword) : Nat → Dword := fun k => if k < A_OFFSET / 8 + 2048 then x else 0

def oneRound : DpuArguments := ⟨16384⟩

def constantStart (x : Dword) : Conf St :=
  ⟨⟨constant x, 0, 0, 0, ⟨fun _ => ⟨0, 0, 0⟩, fun _ => 0⟩, 0, fun _ => 0, 0⟩, main oneRound⟩

theorem constantStart_starts (x : Dword) : Starts (Init (constant x)) (main oneRound) (constantStart x) :=
  ⟨⟨rfl, fun _ _ => rfl, fun _ => rfl, rfl⟩, rfl⟩

/-- One tasklet after the other in each phase. -/
def inTurn : List (List (Nat × Nat)) := List.replicate 6 (inOrder NR_TASKLETS 19)

/-- The same, but the others stop before they read the running count, until
the last tasklet has updated it. -/
def lastFirst : List (List (Nat × Nat)) :=
  [inOrder NR_TASKLETS 19, inOrder NR_TASKLETS 19, inOrder NR_TASKLETS 19,
    (0, 7) :: (List.range 14).map (fun t => (t + 1, 10)) ++ (15, 19) :: inOrder NR_TASKLETS 19, inOrder NR_TASKLETS 19,
    inOrder NR_TASKLETS 19]

theorem reduced_constant (x : Dword) : reduced oneRound (constant x) = [x] := by
  rw [reduced_eq]
  refine Runs.heads_const (n := 2047) fun i hi => ?_
  unfold elem constant
  rw [if_pos (by omega)]

theorem output_reduced_three : ((constantStart 3).run NR_TASKLETS timely inTurn).state.log = 1 := by
  have hr : Reachable (Starts (Init (constant 3)) (main oneRound)) (Step NR_TASKLETS timely)
      ((constantStart 3).run NR_TASKLETS timely inTurn) := Conf.run_reachable (by decide) (.init (constantStart_starts 3))
  have hfin := Conf.finished_of (show ((constantStart 3).run NR_TASKLETS timely inTurn).finished NR_TASKLETS = true by decide +kernel)
  have hout := output_reduced (Dvd.intro_left 1 rfl) (by decide) hr hfin
  rw [hout.2, reduced_constant]
  rfl

/-- The last tasklet updates the running count before the first one reads it;
and an input that starts with the value for "no element yet" loses its first
run in any order. -/
theorem late_or_sentinel :
    (¬ ∀ c, Reachable (Starts (Init (constant 3)) (main oneRound)) (Step NR_TASKLETS free) c → c.Finished NR_TASKLETS →
      Copy.cells c.state.mram (B_base oneRound / 8) (reduced oneRound (constant 3)).length = reduced oneRound (constant 3)) ∧
    ¬ ∀ c, Reachable (Starts (Init (constant 0xFFFFFFFF)) (main oneRound)) (Step NR_TASKLETS free) c → c.Finished NR_TASKLETS →
      c.state.log = BitVec.ofNat 64 (reduced oneRound (constant 0xFFFFFFFF)).length := by
  refine ⟨fun h => ?_, fun h => ?_⟩
  · have hr : Reachable (Starts (Init (constant 3)) (main oneRound)) (Step NR_TASKLETS free)
        ((constantStart 3).run NR_TASKLETS free lastFirst) := Conf.run_reachable (by decide) (.init (constantStart_starts 3))
    obtain ⟨hfin, hcell⟩ : ((constantStart 3).run NR_TASKLETS free lastFirst).finished NR_TASKLETS = true ∧
        Copy.cells ((constantStart 3).run NR_TASKLETS free lastFirst).state.mram (B_base oneRound / 8) 1 = [0] := by
      decide +kernel
    have hout := h _ hr (Conf.finished_of hfin)
    rw [reduced_constant] at hout
    exact absurd (hcell.symm.trans hout) (by decide)
  · have hr : Reachable (Starts (Init (constant 0xFFFFFFFF)) (main oneRound)) (Step NR_TASKLETS free)
        ((constantStart 0xFFFFFFFF).run NR_TASKLETS free inTurn) :=
      Conf.run_reachable (by decide) (.init (constantStart_starts _))
    obtain ⟨hfin, hlog⟩ : ((constantStart 0xFFFFFFFF).run NR_TASKLETS free inTurn).finished NR_TASKLETS = true ∧
        ((constantStart 0xFFFFFFFF).run NR_TASKLETS free inTurn).state.log = 0 := by decide +kernel
    have hout := h _ hr (Conf.finished_of hfin)
    rw [reduced_constant] at hout
    exact absurd (hlog.symm.trans hout) (by decide)

end Memclave.Uni
