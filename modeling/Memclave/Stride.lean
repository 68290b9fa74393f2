/-
Several tasklets on one buffer, each with a stride of their number
(`stride_iff`): what they leave in memory is what one call leaves if and only
if the key stream blocks they use are the same.

A pass takes its counter from the index of the loop, which begins at 0 for
every tasklet: block `p` of the buffer, the tasklet's block `p - p % n`, is
encrypted under the counter of that one.
-/
import Memclave.RuntimeAead

namespace Memclave.Runtime

open Words Copy Loader Aead

variable {c : Crypto} {key : Fin 8 → Word} {iv : Fin 3 → Word} {len buf out_buf stride : Word}
  {wb wo : Nat} {s s' : St}

inductive Direction where
  | enc
  | dec
deriving DecidableEq, Repr

/-- `ime_chacha_enc_mram` or `ime_chacha_dec_mram`. -/
def chachaMram (d : Direction) (c : Crypto) (key : Fin 8 → Word) (iv : Fin 3 → Word)
    (stride len buf out_buf : Word) (s : St) : Option St :=
  match d with
  | .enc => (imeChachaEncMram c key (some iv) (fun _ => 0) stride len buf out_buf s).map Prod.snd
  | .dec => imeChachaDecMram c key iv stride len buf out_buf s

/-- The call of tasklet `t`, on the buffers from its first block on. -/
def taskletCall (d : Direction) (c : Crypto) (key : Fin 8 → Word) (iv : Fin 3 → Word)
    (stride len buf out_buf : Word) (s : St) (t : Nat) : Option St :=
  chachaMram d c key iv stride (len - BitVec.ofNat 32 t * 64) (buf + BitVec.ofNat 32 t * 64)
    (out_buf + BitVec.ofNat 32 t * 64) s

/-- The tasklets that have a block. -/
def tasklets (stride len : Word) : List Nat := (List.range (len.toNat / 64)).filter (· < stride.toNat)

theorem chachaMram_gen {d : Direction} : chachaMram d c key iv stride len buf out_buf s =
    imeChachaCrypt c key iv stride len (ptr32 .mram buf) (ptr32 .mram out_buf) s := by
  cases d with
  | enc =>
    show ((imeChachaCrypt c key iv stride len _ _ s).bind fun s => some (iv, s)).map Prod.snd = _
    cases imeChachaCrypt c key iv stride len (ptr32 .mram buf) (ptr32 .mram out_buf) s <;> rfl
  | dec => rfl

/-- A buffer from one of its blocks on. -/
theorem IsBuf.shift {ptr : Word} {n t : Nat} (h : IsBuf .mram ptr n) (ht : 16 * t ≤ n) :
    IsBuf .mram (ptr + BitVec.ofNat 32 t * 64) (n - 16 * t) ∧
      mramAt (ptr + BitVec.ofNat 32 t * 64) = mramAt ptr + 16 * t := by
  obtain ⟨h8, h31, hle⟩ := h
  have hw : mramWords = 2 ^ 24 := rfl
  have hmul : BitVec.ofNat 32 t * 64 = BitVec.ofNat 32 (t * 64) := (BitVec.ofNat_mul t 64).symm
  have hoff : mramAt ptr = ptr.toNat % 2 ^ 27 / 8 * 2 := rfl
  have hnat : (ptr + BitVec.ofNat 32 t * 64).toNat = ptr.toNat + 64 * t := by
    rw [hmul, BitVec.toNat_add, BitVec.toNat_ofNat]
    omega
  have hat : mramAt (ptr + BitVec.ofNat 32 t * 64) = mramAt ptr + 16 * t := by
    rw [hoff, mramAt, mramOff, hnat]
    omega
  refine ⟨⟨by omega, by omega, ?_⟩, hat⟩
  rw [hat]
  omega

/-! ## The calls of the tasklets -/

/-- The calls of the tasklets `ts` are done: the blocks of each, and nothing
else, are transformed. -/
structure Done (c : Crypto) (key : Fin 8 → Word) (iv : Fin 3 → Word) (n nblocks wb wo : Nat) (s : St)
    (ts : List Nat) (s' : St) : Prop where
  text : ∀ p < nblocks, p % n ∈ ts → ∀ j < 16,
    s'.mram (wo + 16 * p + j) = s.mram (wb + 16 * p + j) ^^^ keyWord c key iv (p - p % n) j
  frame : ∀ k, (∀ p < nblocks, p % n ∈ ts → ¬ (wo + 16 * p ≤ k ∧ k < wo + 16 * p + 16)) → s'.mram k = s.mram k
  wram : s'.wram = s.wram

/-- One tasklet's call, after others have made theirs. -/
theorem Done.call {ts : List Nat} {t : Nat} {d : Direction} (hn : 1 ≤ stride.toNat) (h64 : len.toNat % 64 = 0)
    (hb : IsBuf .mram buf (len.toNat / 4)) (ho : IsBuf .mram out_buf (len.toNat / 4))
    (hd : SameOrApart .mram (mramAt buf) .mram (mramAt out_buf) (len.toNat / 4))
    (ht : t ∈ tasklets stride len) (hts : t ∉ ts)
    (h : Done c key iv stride.toNat (len.toNat / 64) (mramAt buf) (mramAt out_buf) s ts s') :
    ∃ s'', taskletCall d c key iv stride len buf out_buf s' t = some s'' ∧
      Done c key iv stride.toNat (len.toNat / 64) (mramAt buf) (mramAt out_buf) s (ts ++ [t]) s'' := by
  rw [tasklets, List.mem_filter, List.mem_range, decide_eq_true_eq] at ht
  obtain ⟨htl, htn⟩ := ht
  have hlen := hb.len_lt
  have hlent : (len - BitVec.ofNat 32 t * 64).toNat = len.toNat - 64 * t := by
    have hmul : BitVec.ofNat 32 t * 64 = BitVec.ofNat 32 (t * 64) := (BitVec.ofNat_mul t 64).symm
    rw [hmul, BitVec.toNat_sub, BitVec.toNat_ofNat]
    omega
  have hwords : len.toNat / 4 - 16 * t = (len - BitVec.ofNat 32 t * 64).toNat / 4 := by omega
  obtain ⟨hbt, hbw⟩ := hb.shift (t := t) (by omega)
  obtain ⟨hot, how⟩ := ho.shift (t := t) (by omega)
  rw [hwords] at hbt hot
  set n := stride.toNat with hndef
  obtain ⟨s'', hcall, htext, hframe, -⟩ : ∃ s'', taskletCall d c key iv stride len buf out_buf s' t = some s'' ∧
      Passed c key iv (len - BitVec.ofNat 32 t * 64).toNat .mram _ .mram _ s'
        (visited n (((len - BitVec.ofNat 32 t * 64).toNat + 63) / 64)) s'' := by
    refine ⟨_, chachaMram_gen.trans (imeChachaCrypt_eq hn (by omega)),
      passes_spec hbt.points hot.points (visited_pairwise hn) fun a ha => ?_⟩
    have := ((mem_visited hn).mp ha).1
    omega
  refine ⟨s'', hcall, ?_⟩
  simp only [ptrWord, hbw, how, hlent] at htext hframe
  -- the passes of `t` are for the blocks that are `t` modulo `n`
  have hmem : ∀ a, a ∈ visited n ((len.toNat - 64 * t + 63) / 64) → (t + a) % n = t ∧ t + a < len.toNat / 64 := by
    intro a ha
    obtain ⟨hlt, k, rfl⟩ := (mem_visited hn).mp ha
    refine ⟨?_, by omega⟩
    rw [Nat.add_mul_mod_self_left, Nat.mod_eq_of_lt htn]
  have hchunk : ∀ a, t + a < len.toNat / 64 → chunk (len.toNat - 64 * t) a = 16 := by
    intro a ha
    unfold chunk
    omega
  have hdt : SameOrApart .mram (mramAt buf + 16 * t) .mram (mramAt out_buf + 16 * t) ((len.toNat - 64 * t) / 4) := by
    rcases hd with ⟨-, h⟩ | h | h | h
    · exact .inl ⟨rfl, by omega⟩
    · exact absurd rfl h
    · exact .inr (.inr (.inl (by omega)))
    · exact .inr (.inr (.inr (by omega)))
  refine ⟨fun p hp hpt j hj => ?_, fun k hk => ?_, ?_⟩
  · cases List.mem_append.mp hpt with
    | inl hpt =>
      refine (hframe .mram _ fun a ha hin => ?_).trans (h.text p hp hpt j hj)
      obtain ⟨hmod, hlt⟩ := hmem a ha
      rw [hchunk a hlt] at hin
      obtain rfl : p = t + a := by omega
      exact hts (hmod ▸ hpt)
    | inr hpt =>
      have hpt : p % n = t := List.mem_singleton.mp hpt
      have hsplit : n * (p / n) + p % n = p := Nat.div_add_mod p n
      have hmul : n * (p / n) = p - t := by omega
      have hvis : p - t ∈ visited n ((len.toNat - 64 * t + 63) / 64) := by
        refine (mem_visited hn).mpr ⟨by omega, p / n, hmul.symm⟩
      have := htext hdt (p - t) hvis j hj (by omega)
      rw [show mramAt out_buf + 16 * t + 16 * (p - t) + j = mramAt out_buf + 16 * p + j by omega,
        show mramAt buf + 16 * t + 16 * (p - t) + j = mramAt buf + 16 * p + j by omega] at this
      rw [hpt]
      refine this.trans (congrArg (· ^^^ _) (h.frame _ fun q hq hqt hin => ?_))
      rcases hd with ⟨-, hw⟩ | hsp | h1 | h1
      · obtain rfl : q = p := by omega
        exact hts (hpt ▸ hqt)
      · exact hsp rfl
      · omega
      · omega
  · refine (hframe .mram k fun a ha hin => ?_).trans (h.frame k fun p hp hpt => hk p hp (List.mem_append_left _ hpt))
    obtain ⟨hmod, hlt⟩ := hmem a ha
    rw [hchunk a hlt] at hin
    exact hk (t + a) hlt (List.mem_append_right _ (by rw [hmod]; exact List.mem_singleton_self t)) (by omega)
  · refine funext fun k => (hframe .wram k fun a _ hin => ?_).trans (congrFun h.wram k)
    exact absurd hin.1 (by decide)

variable (c key iv s) in
theorem Done.calls {ts : List Nat} (d : Direction) (hn : 1 ≤ stride.toNat) (h64 : len.toNat % 64 = 0)
    (hb : IsBuf .mram buf (len.toNat / 4)) (ho : IsBuf .mram out_buf (len.toNat / 4))
    (hd : SameOrApart .mram (mramAt buf) .mram (mramAt out_buf) (len.toNat / 4)) :
    ∀ (us : List Nat), (us ++ ts).Nodup → (∀ t ∈ ts, t ∈ tasklets stride len) → ∀ {s' : St},
      Done c key iv stride.toNat (len.toNat / 64) (mramAt buf) (mramAt out_buf) s us s' →
      ∃ s'', ts.foldlM (taskletCall d c key iv stride len buf out_buf) s' = some s'' ∧
        Done c key iv stride.toNat (len.toNat / 64) (mramAt buf) (mramAt out_buf) s (us ++ ts) s'' := by
  induction ts with
  | nil =>
    intro us _ _ s' h
    exact ⟨s', rfl, by rwa [List.append_nil]⟩
  | cons t ts ih =>
    intro us hnd hts s' h
    have hnot : t ∉ us := fun hu => (List.nodup_append.mp hnd).2.2 t hu t List.mem_cons_self rfl
    obtain ⟨s1, h1, hd1⟩ := h.call hn h64 hb ho hd (hts t List.mem_cons_self) hnot
    have happ : us ++ [t] ++ ts = us ++ t :: ts := by simp
    obtain ⟨s2, h2, hd2⟩ := ih (us ++ [t]) (by rwa [happ]) (fun u hu => hts u (List.mem_cons_of_mem _ hu)) hd1
    refine ⟨s2, ?_, by rwa [happ] at hd2⟩
    rw [List.foldlM_cons, h1]
    exact h2

variable (c key iv) in
/-- What all the tasklets leave, in any order, beside what one call leaves. -/
theorem tasklets_iff {ts : List Nat} (d : Direction) (hn : 1 ≤ stride.toNat) (h64 : len.toNat % 64 = 0)
    (hb : IsBuf .mram buf (len.toNat / 4)) (ho : IsBuf .mram out_buf (len.toNat / 4))
    (hd : SameOrApart .mram (mramAt buf) .mram (mramAt out_buf) (len.toNat / 4))
    (hts : ts.Perm (tasklets stride len)) (s : St) :
    ∃ s1 s2, ts.foldlM (taskletCall d c key iv stride len buf out_buf) s = some s1 ∧
      chachaMram d c key iv 1 len buf out_buf s = some s2 ∧ s1.wram = s2.wram ∧
      (s1.mram = s2.mram ↔ ∀ p < len.toNat / 64, ∀ j < 16,
        keyWord c key iv (p - p % stride.toNat) j = keyWord c key iv p j) := by
  have hnodup : ts.Nodup := hts.nodup_iff.mpr (List.nodup_range.filter _)
  obtain ⟨s1, h1, hd1⟩ := Done.calls c key iv s d hn h64
    hb ho hd [] (by simpa using hnodup) (fun t ht => hts.mem_iff.mp ht) ⟨by simp, fun _ _ => rfl, rfl⟩
  obtain ⟨s2, h2, hd2⟩ := crypt_passed c key iv s hb.points ho.points hb.len_lt
  have hwram : s1.wram = s2.wram := by
    rw [hd1.wram]
    exact funext fun k => (hd2.frame .wram k fun _ _ hin => absurd hin.1 (by decide)).symm
  refine ⟨s1, s2, h1, chachaMram_gen.trans h2, hwram, ?_⟩
  rw [List.nil_append] at hd1
  have hmem : ∀ p < len.toNat / 64, p % stride.toNat ∈ ts := by
    intro p hp
    have := Nat.mod_le p stride.toNat
    rw [hts.mem_iff, tasklets, List.mem_filter, List.mem_range, decide_eq_true_eq]
    exact ⟨by omega, Nat.mod_lt _ (by omega)⟩
  have hblocks : (len.toNat + 63) / 64 = len.toNat / 64 := by omega
  rw [hblocks] at hd2
  have hword1 : ∀ p < len.toNat / 64, ∀ j < 16, s1.mram (mramAt out_buf + 16 * p + j) =
      s.mram (mramAt buf + 16 * p + j) ^^^ keyWord c key iv (p - p % stride.toNat) j :=
    fun p hp j hj => hd1.text p hp (hmem p hp) j hj
  have hword2 : ∀ p < len.toNat / 64, ∀ j < 16, s2.mram (mramAt out_buf + 16 * p + j) =
      s.mram (mramAt buf + 16 * p + j) ^^^ keyWord c key iv p j :=
    fun p hp j hj => hd2.text hd p (List.mem_range.mpr hp) j hj (by omega)
  constructor
  · intro hm p hp j hj
    have := hword1 p hp j hj
    rw [hm, hword2 p hp j hj] at this
    exact (BitVec.xor_right_inj _).mp this.symm
  · intro hkey
    have hchunk : ∀ p < len.toNat / 64, chunk len.toNat p = 16 := by
      intro p hp
      unfold chunk
      omega
    funext k
    by_cases hin : mramAt out_buf ≤ k ∧ k < mramAt out_buf + len.toNat / 4
    · have hp : (k - mramAt out_buf) / 16 < len.toNat / 64 := by omega
      have hj : (k - mramAt out_buf) % 16 < 16 := Nat.mod_lt _ (by decide)
      have hk : mramAt out_buf + 16 * ((k - mramAt out_buf) / 16) + (k - mramAt out_buf) % 16 = k := by omega
      have e1 := hword1 _ hp _ hj
      have e2 := hword2 _ hp _ hj
      rw [hk] at e1 e2
      rw [e1, e2, hkey _ hp _ hj]
    · have e1 : s1.mram k = s.mram k := hd1.frame k fun p hp _ h => hin (by omega)
      have e2 : s2.mram k = s.mram k := by
        refine hd2.frame .mram k fun p hp h => hin ?_
        have hp := List.mem_range.mp hp
        have := hchunk p hp
        simp only [ptrWord] at h
        omega
      rw [e1, e2]

/-- **When the tasklets do what one call does.** For every number of tasklets,
key, iv, buffer of whole blocks and order of the calls, they leave what one
call leaves if and only if each block is encrypted under a counter that gives
the key stream of its own place. -/
theorem stride_iff {ts : List Nat} (d : Direction) (hn : 1 ≤ stride.toNat) (h64 : len.toNat % 64 = 0)
    (hb : IsBuf .mram buf (len.toNat / 4)) (ho : IsBuf .mram out_buf (len.toNat / 4))
    (hd : SameOrApart .mram (mramAt buf) .mram (mramAt out_buf) (len.toNat / 4))
    (hts : ts.Perm (tasklets stride len)) (s : St) :
    ∃ s1 s2, ts.foldlM (taskletCall d c key iv stride len buf out_buf) s = some s1 ∧
      chachaMram d c key iv 1 len buf out_buf s = some s2 ∧
      (s1.wram = s2.wram ∧ s1.mram = s2.mram ↔ ∀ p < len.toNat / 64,
        c.chachaBlk key (BitVec.ofNat 32 (p - p % stride.toNat + 1)) iv = c.chachaBlk key (BitVec.ofNat 32 (p + 1)) iv) := by
  obtain ⟨s1, s2, h1, h2, hw, hiff⟩ := tasklets_iff c key iv d hn h64 hb ho hd hts s
  refine ⟨s1, s2, h1, h2, (and_iff_right hw).trans <| hiff.trans (forall_congr' fun p => forall_congr' fun _ => ?_)⟩
  constructor
  · intro h
    funext i
    have := h i i.isLt
    simpa only [keyWord, Fin.ofNat_eq_cast, Fin.cast_val_eq_self] using this
  · intro h j _
    exact congrFun h _

/-- One tasklet alone. -/
theorem stride_iff_one : ∃ s1 s2,
    [0].foldlM (taskletCall .enc core (fun _ => 0) (fun _ => 0) 1 128 0 0) ⟨fun _ => 0, fun _ => 0, []⟩ = some s1 ∧
    chachaMram .enc core (fun _ => 0) (fun _ => 0) 1 128 0 0 ⟨fun _ => 0, fun _ => 0, []⟩ = some s2 ∧
    s1.mram = s2.mram := by
  obtain ⟨s1, s2, h1, h2, hiff⟩ := @stride_iff core (fun _ => 0) (fun _ => 0) 128 0 0 1 [0] .enc (by decide) (by decide)
    ⟨by decide, by decide, by decide⟩ ⟨by decide, by decide, by decide⟩ (.inl ⟨rfl, rfl⟩) (by decide)
    ⟨fun _ => 0, fun _ => 0, []⟩
  refine ⟨s1, s2, h1, h2, (hiff.mpr fun p _ => ?_).2⟩
  rw [show (1 : Word).toNat = 1 by decide, Nat.mod_one, Nat.sub_zero]

/-- Of two tasklets, the second one encrypts the second block under the
counter of the first. -/
theorem stride_two_differs : ∃ s1 s2,
    [0, 1].foldlM (taskletCall .enc core (fun _ => 0) (fun _ => 0) 2 128 0 0) ⟨fun _ => 0, fun _ => 0, []⟩ = some s1 ∧
    chachaMram .enc core (fun _ => 0) (fun _ => 0) 1 128 0 0 ⟨fun _ => 0, fun _ => 0, []⟩ = some s2 ∧
    s1.mram ≠ s2.mram := by
  obtain ⟨s1, s2, h1, h2, -, hiff⟩ := @tasklets_iff core (fun _ => 0) (fun _ => 0) 128 0 0 2 [0, 1] .enc (by decide) (by decide)
    ⟨by decide, by decide, by decide⟩ ⟨by decide, by decide, by decide⟩ (.inl ⟨rfl, rfl⟩) (by decide)
    ⟨fun _ => 0, fun _ => 0, []⟩
  have hdiffer : keyWord core (fun _ => 0) (fun _ => 0) 0 0 ≠ keyWord core (fun _ => 0) (fun _ => 0) 1 0 := by
    decide +kernel
  exact ⟨s1, s2, h1, h2, fun hm => hdiffer (hiff.mp hm 1 (by decide) 0 (by decide))⟩

end Memclave.Runtime
