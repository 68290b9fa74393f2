/-
What the first-stage loader leaves to the system: four subkernels that load
under the new key (`boots`), its own WRAM with a copy of that key
(`boot_leaves_key`), and its own code in IRAM beyond the text of `msg`
(`boot_contained_iff`).
-/
import Memclave.Boot
import Memclave.Serve

namespace Memclave.Boot

open Words Copy Exec Loader FirstStage Services Session

variable {c : Crypto} {f : Frames} {L : Fsl} {m : Nat → Word} {sk : Word} {s s' : St} {key iv buffer : Bytes}

/-! ## The subkernels before the boot -/

/-- A subkernel of the system in its place, still without a tag. -/
structure Prepared (m : Nat → Word) (sk : Word) : Prop where
  below : mramAt sk + 32768 ≤ slot
  header : SystemHeader (headerAt m (mramAt sk)) 32768
  sized : ∃ a, (headerAt m (mramAt sk)).size.toNat = 64 + 2048 * a
  clean : ∀ x ∈ textAt m (mramAt sk) (textLen m (mramAt sk)), banned x = false

theorem Prepared.frame {m' : Nat → Word} (h : Prepared m sk)
    (hm : ∀ k, mramAt sk ≤ k → k < mramAt sk + 32768 → m' k = m k) : Prepared m' sk := by
  have hroom := h.header.room
  have hh : headerAt m' (mramAt sk) = headerAt m (mramAt sk) := headerAt_congr fun k h1 h2 => hm k h1 (by omega)
  have htext : textAt m' (mramAt sk) (textLen m' (mramAt sk)) = textAt m (mramAt sk) (textLen m (mramAt sk)) := by
    rw [textLen, hh]
    refine textAt_congr fun k h1 h2 => hm k (by omega) ?_
    omega
  refine ⟨h.below, ?_, ?_, ?_⟩
  · rw [hh]
    exact h.header
  · rw [hh]
    exact h.sized
  · rw [htext]
    exact h.clean

/-- `enc_sk` puts in the tag. -/
theorem Prepared.encSk {M : ChachaPoly} (h : Prepared m sk) (hM : M.Correct c.suite) (hkey : key.length = 32)
    (hiv : iv.length = 12) (hbuf : buffer.length = 2048) :
    ∃ m', FirstStage.encSk M (some iv) buffer m (mramAt sk) key = some m' ∧
      Resident c (Aead.keyWords key) m' sk 32768 ∧ ∀ k, k < mramAt sk ∨ mramAt sk + 8 ≤ k → m' k = m k := by
  obtain ⟨a, hsize⟩ := h.sized
  have haad : (headerAt m (mramAt sk)).sizeAad.toNat = 64 + 2048 * a := by rw [h.header.auth, hsize]
  have hsize' : (headerAt m (mramAt sk)).size.toNat = 64 + 2048 * (a + 0) := hsize
  have hroom := h.header.room
  have hh := @headerAt_stamp iv m (mramAt sk) (sealTag c key iv m (mramAt sk))
  refine ⟨_, encSk_some haad hsize' hM hkey hiv hbuf, ⟨h.below, le_rfl, ?_, ?_, ?_⟩, fun k hk => stamp_out (by omega)⟩
  · rw [hh]
    exact ⟨h.header.magic, h.header.auth, h.header.size_ge, h.header.size_mod, h.header.size_le, h.header.text_pos,
      h.header.text_le, h.header.data_le, h.header.room⟩
  · -- there is nothing to encrypt
    have hnil : Loader.cipherOf m (mramAt sk) = [] := List.eq_nil_of_length_eq_zero (cipherOf_length haad hsize')
    rw [macOf_stamp haad hsize', tag_stamp, hnil]
    rfl
  · have htext : textAt (stamp m (mramAt sk) (sealTag c key iv m (mramAt sk)) iv) (mramAt sk)
        (textLen (stamp m (mramAt sk) (sealTag c key iv m (mramAt sk)) iv) (mramAt sk)) =
          textAt m (mramAt sk) (textLen m (mramAt sk)) := by
      rw [textLen, hh]
      exact textAt_congr fun k h1 _ => stamp_out (.inr (by omega))
    rw [htext]
    exact h.clean

/-! ## The first-stage loader -/

/-- The library is right and reports no error; the new core is below the
subkernels. -/
structure Works (c : Crypto) (L : Fsl) (key : Bytes) : Prop where
  lib : L.lib.Correct c.suite
  seeded : L.seeded = true
  gives : L.key = some key
  key_length : key.length = 32
  iv : ∀ i, ∃ iv, L.iv i = some iv ∧ iv.length = 12
  buffer : ∀ i, (L.buffer i).length = 2048
  tl : mramAt L.tl + 2048 ≤ systemStart

/-- The four subkernels as the host brings them. -/
def PreparedImages (m : Nat → Word) : Prop := ∀ sk ∈ [imeMsgSk, imeXchgSk1, imeXchgSk2, imeXchgSk3], Prepared m sk

/-- What `main` leaves. -/
structure Sealed (c : Crypto) (L : Fsl) (key : Bytes) (s s' : St) : Prop where
  images : SystemImages c (Aead.keyWords key) s'.mram
  below : ∀ k < systemStart, s'.mram k = s.mram k
  /-- but for tag and iv, `msg` is as it was -/
  msg : ∀ k, 8 ≤ k → k < 32768 → s'.mram (mramAt imeMsgSk + k) = s.mram (mramAt imeMsgSk + k)
  sysKey : s'.sysKey = Aead.keyWords key
  wram : s'.wram = put s.wram L.sysKeyAt (Aead.keyWords key)
  rest : s' = { s with mram := s'.mram, wram := s'.wram, sysKey := s'.sysKey }

/-- The places one after the other. -/
theorem places : mramAt imeXchgSk1 = mramAt imeMsgSk + 32768 ∧ mramAt imeXchgSk2 = mramAt imeMsgSk + 65536 ∧
    mramAt imeXchgSk3 = mramAt imeMsgSk + 98304 := by decide

theorem fslMain_run (dpu_index : Word) (hL : Works c L key) (hp : PreparedImages s.mram) :
    ∃ s', fslMain L dpu_index s = some (s', Counter.onThread23 (Counter.packIndex dpu_index)) ∧ Sealed c L key s s' := by
  obtain ⟨h1, h2, h3⟩ := places
  obtain ⟨iv0, hiv0, hl0⟩ := hL.iv 0
  obtain ⟨iv1, hiv1, hl1⟩ := hL.iv 1
  obtain ⟨iv2, hiv2, hl2⟩ := hL.iv 2
  obtain ⟨iv3, hiv3, hl3⟩ := hL.iv 3
  set p := mramAt imeMsgSk with hpdef
  have hx1 : Prepared s.mram imeXchgSk1 := hp _ (by decide)
  have hx2 : Prepared s.mram imeXchgSk2 := hp _ (by decide)
  have hx3 : Prepared s.mram imeXchgSk3 := hp _ (by decide)
  have hmsg : Prepared s.mram imeMsgSk := hp _ (by decide)
  obtain ⟨m1, he1, hr1, hm1⟩ := hx1.encSk hL.lib hL.key_length hl0 (hL.buffer 0)
  obtain ⟨m2, he2, hr2, hm2⟩ := (hx2.frame fun k _ _ => hm1 k (by omega)).encSk hL.lib hL.key_length hl1 (hL.buffer 1)
  have hm12 : ∀ k, k < mramAt imeXchgSk1 ∨ mramAt imeXchgSk2 + 8 ≤ k → m2 k = s.mram k := fun k hk => by
    rw [hm2 k (by omega), hm1 k (by omega)]
  obtain ⟨m3, he3, hr3, hm3⟩ := (hx3.frame fun k _ _ => hm12 k (by omega)).encSk hL.lib hL.key_length hl2 (hL.buffer 2)
  have hm123 : ∀ k, k < mramAt imeXchgSk1 ∨ mramAt imeXchgSk3 + 8 ≤ k → m3 k = s.mram k := fun k hk => by
    rw [hm3 k (by omega), hm12 k (by omega)]
  obtain ⟨m4, he4, hr4, hm4⟩ := (hmsg.frame fun k _ _ => hm123 k (by omega)).encSk hL.lib hL.key_length hl3 (hL.buffer 3)
  refine ⟨{ s with mram := m4, wram := put s.wram L.sysKeyAt (Aead.keyWords key), sysKey := Aead.keyWords key }, ?_, ?_,
    fun k hk => ?_, fun k h8 hk => ?_, rfl, rfl, rfl⟩
  · have hkey : onThread22 L { s with mram := m4, wram := put s.wram L.sysKeyAt (Aead.keyWords key) } = Aead.keyWords key :=
      funext fun i => put_at i
    simp only [fslMain, guard, hL.seeded, if_true, Option.pure_def, hL.gives, hiv0, hiv1, hiv2, hiv3,
      Option.bind_eq_bind, Option.bind_some, he1, he2, he3, he4, hkey]
  · intro sk hsk
    simp only [List.mem_cons, List.not_mem_nil, or_false] at hsk
    obtain rfl | rfl | rfl | rfl := hsk
    · exact hr4
    · exact hr1.frame fun k _ _ => (hm4 k (by omega)).trans ((hm3 k (by omega)).trans (hm2 k (by omega)))
    · exact hr2.frame fun k _ _ => (hm4 k (by omega)).trans (hm3 k (by omega))
    · exact hr3.frame fun k _ _ => hm4 k (by omega)
  · have hk' : k < p := hk
    show m4 k = s.mram k
    rw [hm4 k (by omega), hm123 k (by omega)]
  · show m4 (p + k) = s.mram (p + k)
    rw [hm4 _ (by omega), hm123 _ (by omega)]

/-! ## The jump to the core -/

/-- IRAM with the new core. -/
def withCore (L : Fsl) (s : St) : Nat → Word := blit s.iram 0 s.mram (mramAt L.tl) 2048

theorem path_zero : path 0 0 = .load := rfl

/-- The state with `n` more sections in IRAM. -/
def coreLoaded (d q n : Nat) (s : St) : St := { s with iram := blit s.iram d s.mram q (512 * n) }

theorem loadTl_spec (n : Nat) (r0 r1 : Word) (s : St) :
    wp (sections (fun r0 r1 => ldmai r0 r1 256) n r0 r1)
      (fun _ s' => SectionsOk iramWords r0 r1 n ∧ s' = coreLoaded (wramAt r0) (mramAt r1) n s)
      (fun e s' => (e = .mem ∧ ¬ SectionsOk iramWords r0 r1 n) ∧ ∃ j < n, SectionsOk iramWords r0 r1 j ∧
        s'.trace = s.trace ∧ s'.mram = s.mram) s := by
  refine sections_spec coreLoaded (by decide) (fun d q s => ?_) (fun d q n s => ?_) (fun _ _ _ _ => rfl)
    (fun dst src s => ?_) n r0 r1 s
  · simp only [coreLoaded, Nat.mul_zero, blit_zero]
  · simp only [coreLoaded, Nat.mul_one, blit_blit]
    rw [show 512 + 512 * n = 512 * (n + 1) by omega]
  · rw [wp_ldmai]
    exact ⟨fun h => ⟨h, rfl⟩, fun h => ⟨rfl, rfl, h⟩⟩

theorem loadTl_ok {n : Nat} {r0 r1 : Word} (h : SectionsOk iramWords r0 r1 n) (s : St) :
    sections (fun r0 r1 => ldmai r0 r1 256) n r0 r1 s = .ok () (coreLoaded (wramAt r0) (mramAt r1) n s) := by
  obtain ⟨_, s', hrun, -, hs'⟩ := ((loadTl_spec n r0 r1 s).mono (fun _ _ h => h) fun e _ he => he.1.2 h).total
  rw [hrun, hs']

theorem loadTl_run (s : St) (htl : mramAt L.tl + 2048 ≤ systemStart) :
    sections (fun r0 r1 => ldmai r0 r1 256) 4 0 L.tl s = .ok () { s with iram := withCore L s } := by
  have hin : InMram L.tl (512 * 4) := by
    have hend : systemStart ≤ mramWords := by decide
    unfold InMram
    omega
  have hok : SectionsOk iramWords 0 L.tl 4 := fun _ => ⟨hin, by decide⟩
  exact loadTl_ok hok s

/-- What `msg` finds after the boot. -/
structure Booted (c : Crypto) (f : Frames) (L : Fsl) (key : Bytes) (s s' : St) : Prop where
  ready : Services.Ready c s'
  sysKey : s'.sysKey = Aead.keyWords key
  handed : HandedOver f 0 0 s.mram (mramAt imeMsgSk) { s with iram := withCore L s } s'
  mram : ∀ k < slot, s'.mram k = s.mram k

theorem replace_run (hi : SystemImages c s.sysKey s.mram) (hq : Quiet s) (htl : mramAt L.tl + 2048 ≤ systemStart)
    (hk : s.sysKey = Aead.keyWords key) (f : Frames) : ∃ s', replace c f L s = .ok () s' ∧ Booted c f L key s s' := by
  have himg : Resident c s.sysKey s.mram 0x3F00000 32768 := by
    have h := hi imeMsgSk List.mem_cons_self
    exact ⟨h.below, h.place, h.header, h.mac, h.clean⟩
  have hwipe : WipeOk 0 := .inl (by decide)
  obtain ⟨s', hrun, hho, hm, hk', hq'⟩ := himg.loads (s := { s with iram := withCore L s })
    ⟨hq.threads, hq.id, hq.cipher⟩ hwipe f
  have hslot : ∀ k < slot, s'.mram k = s.mram k := fun k hk => by
    rw [hm]
    exact blit_out (.inl hk)
  refine ⟨s', ?_, ⟨?_, hq'⟩, hk'.trans hk, hho, hslot⟩
  · have hpath : path s.id 0 = .load := by rw [hq.id, path_zero]
    rw [replace, bind_ok (loadTl_run s htl)]
    show (if path s.id 0 = .load then coreContBoot c f else pure ()) { s with iram := withCore L s } = _
    rw [if_pos hpath]
    exact hrun
  · rw [hk']
    exact hi.frame fun k _ hk => hslot k hk

theorem Sealed.quiet (h : Sealed c L key s s') (hq : Quiet s) : Quiet s' := by
  rw [h.rest]
  exact ⟨hq.threads, hq.id, hq.cipher⟩

/-- The run from `main` to `msg`. -/
theorem boot_run (dpu_index : Word) (hL : Works c L key) (hp : PreparedImages s.mram) (hq : Quiet s) (f : Frames) :
    ∃ s1 s2, fslMain L dpu_index s = some (s1, Counter.onThread23 (Counter.packIndex dpu_index)) ∧
      replace c f L s1 = .ok () s2 ∧ Sealed c L key s s1 ∧ Booted c f L key s1 s2 := by
  obtain ⟨s1, h1, hs⟩ := fslMain_run dpu_index hL hp
  have himg : SystemImages c s1.sysKey s1.mram := by
    rw [hs.sysKey]
    exact hs.images
  obtain ⟨s2, h2, hb⟩ := replace_run himg (hs.quiet hq) hL.tl hs.sysKey f
  exact ⟨s1, s2, h1, h2, hs, hb⟩

/-- **Every boot comes to `msg`**, with the four subkernels sealed under this
boot's key and the core in place. -/
theorem boots (dpu_index : Word) (hL : Works c L key) (hp : PreparedImages s.mram) (hq : Quiet s) (f : Frames) :
    ∃ s1 s2, fslMain L dpu_index s = some (s1, Counter.onThread23 (Counter.packIndex dpu_index)) ∧
      replace c f L s1 = .ok () s2 ∧ Services.Ready c s2 ∧ s2.sysKey = Aead.keyWords key ∧
      (∀ k < 2048, s2.iram k = s.mram (mramAt L.tl + k)) ∧ ∀ k < systemStart, s2.mram k = s.mram k := by
  have hend := systemStart_lt
  have htl := hL.tl
  obtain ⟨s1, s2, h1, h2, hs, hb⟩ := boot_run dpu_index hL hp hq f
  refine ⟨s1, s2, h1, h2, hb.ready, hb.sysKey, fun k hk => ?_, fun k hk => ?_⟩
  · calc s2.iram k = withCore L s1 k := hb.handed.core k (.inl hk)
      _ = s1.mram (mramAt L.tl + (k - 0)) := blit_in (Nat.zero_le k) (by omega)
      _ = s.mram (mramAt L.tl + k) := hs.below _ (by omega)
  · rw [hb.mram k (by omega), hs.below k hk]

/-- A first-stage loader with its key in WRAM at 8192 and the new core at 0. -/
def zeroFsl : Fsl where
  lib := holding core.suite
  seeded := true
  key := some (zeros 32)
  iv _ := some (zeros 12)
  buffer _ := zeros 2048
  sysKeyAt := 2048
  tl := 0

theorem zeroFsl_works : Works core zeroFsl (zeros 32) :=
  ⟨holding_correct core.suite, rfl, rfl, zeros_length 32, fun _ => ⟨_, rfl, zeros_length 12⟩, fun _ => zeros_length 2048,
    by decide⟩

theorem systemMram_prepared : PreparedImages systemMram := fun sk hsk => by
  have hr := resident_zeroImage sk (system_below hsk)
  have hprep : Prepared (zeroImage sk 2112 2112 1 0).mram sk := by
    refine ⟨hr.below, hr.header, ⟨1, ?_⟩, hr.clean⟩
    rw [zeroImage_header]
    rfl
  exact hprep.frame fun _ h1 h2 => systemMram_at hsk h1 h2

theorem boots_zero : ∃ s1 s2, fslMain zeroFsl 5 (started systemMram) = some (s1, ![11, 0, 0, 0]) ∧
    replace core noFrames zeroFsl s1 = .ok () s2 ∧ Services.Ready core s2 := by
  obtain ⟨s1, s2, h1, h2, hr, -⟩ := boots 5 zeroFsl_works systemMram_prepared systemMram_ready.quiet noFrames
  exact ⟨s1, s2, h1, h2, hr⟩

/-! ## What stays behind -/

/-- The header of `msg`. -/
def msgHeader (m : Nat → Word) : Header := headerAt m (mramAt imeMsgSk)

/-- What a load of the subkernel at word `p` leaves at word `k` of WRAM, where
it has wiped. -/
def dataWord (plain : Nat → Word) (p k : Nat) : Word :=
  if k < 512 * (headerAt plain p).dataSize.toNat then plain (p + 16 + 512 * (headerAt plain p).textSize.toNat + k) else 0

theorem Sealed.sizes (h : Sealed c L key s s') : (msgHeader s'.mram).textSize = (msgHeader s.mram).textSize ∧
    (msgHeader s'.mram).dataSize = (msgHeader s.mram).dataSize :=
  ⟨h.msg 10 (by decide) (by decide), h.msg 11 (by decide) (by decide)⟩

/-- Word `k` of WRAM after a load that wipes it: of the data, if they reach it,
and else zero. -/
theorem wiped_word {g : Frames} {tag user_key wipe : Word} {k : Nat} (hrun : imeReplaceSk c g sk tag user_key wipe s = .ok () s')
    (hk : 1024 ≤ k) (hw : k < wiped wipe) (hio : k < 0x3FF0) :
    s'.wram k = dataWord (plainMram c g sk user_key wipe s) (mramAt sk) k := by
  unfold dataWord
  split
  next hd => exact (handed_over hrun).data k hd
  next hd =>
    rw [(handed_over hrun).rest k (by omega) (Nat.le_of_not_lt hd) fun _ => hio, underneath, if_neg (by omega),
      if_neg (by omega), if_pos hw]

/-- **The key is left in WRAM.** A boot does not wipe it: `msg` finds the system
key where the first-stage loader had it, unless its own data lies there. After
whatever is loaded from `msg`, there are its data or zeros. -/
theorem boot_leaves_key (dpu_index : Word) (hL : Works c L key) (hp : PreparedImages s.mram) (hq : Quiet s) (f : Frames)
    (hstack : 1024 ≤ L.sysKeyAt) (hio : L.sysKeyAt + 8 ≤ msgPersist.toNat / 4)
    (hdata : 512 * (msgHeader s.mram).dataSize.toNat ≤ L.sysKeyAt) :
    ∃ s1 s2, fslMain L dpu_index s = some (s1, Counter.onThread23 (Counter.packIndex dpu_index)) ∧
      replace c f L s1 = .ok () s2 ∧ (∀ i : Fin 8, s2.wram (L.sysKeyAt + i) = s2.sysKey i) ∧
      ∀ s3 s4 g sk tag user_key, imeReplaceSk c g sk tag user_key msgPersist s3 = .ok () s4 → ∀ i : Fin 8,
        s4.wram (L.sysKeyAt + i) = dataWord (plainMram c g sk user_key msgPersist s3) (mramAt sk) (L.sysKeyAt + i) := by
  have hpersist : msgPersist.toNat / 4 = 16356 := by decide
  have hwiped : wiped msgPersist = 16356 := by decide
  have hwiped0 : wiped 0 = 0 := by decide
  obtain ⟨s1, s2, h1, h2, hs, hb⟩ := boot_run dpu_index hL hp hq f
  refine ⟨s1, s2, h1, h2, fun i => ?_, fun s3 s4 g sk tag user_key hrun i => ?_⟩
  · have hi := i.isLt
    have hd : 512 * (headerAt s1.mram (mramAt imeMsgSk)).dataSize.toNat ≤ L.sysKeyAt + i := by
      have := hs.sizes.2
      rw [msgHeader, msgHeader] at this
      rw [msgHeader] at hdata
      rw [this]
      omega
    have hkept : s2.wram (L.sysKeyAt + i) = s1.wram (L.sysKeyAt + i) :=
      hb.handed.persists (by omega) (by omega) hd (by omega)
    rw [hkept, hs.wram, put_at, hb.sysKey]
  · have hi := i.isLt
    exact wiped_word hrun (by omega) (by omega) (by omega)

theorem systemMram_msgHeader : (msgHeader systemMram).textSize = 1 ∧ (msgHeader systemMram).dataSize = 0 := by
  have hh : msgHeader systemMram = headerAt (zeroImage imeMsgSk 2112 2112 1 0).mram (mramAt imeMsgSk) :=
    headerAt_congr fun k h1 h2 => systemMram_at List.mem_cons_self h1
      (lt_of_lt_of_le h2 (Nat.add_le_add_left (by decide) _))
  rw [hh, zeroImage_header]
  exact ⟨rfl, rfl⟩

theorem boot_leaves_key_zero : ∃ s1 s2, fslMain zeroFsl 5 (started systemMram) = some (s1, ![11, 0, 0, 0]) ∧
    replace core noFrames zeroFsl s1 = .ok () s2 ∧ ∀ i : Fin 8, s2.wram (2048 + i) = s2.sysKey i := by
  have hdata : 512 * (msgHeader systemMram).dataSize.toNat ≤ zeroFsl.sysKeyAt := by
    rw [systemMram_msgHeader.2]
    exact Nat.zero_le _
  obtain ⟨s1, s2, h1, h2, hkey, -⟩ := boot_leaves_key 5 zeroFsl_works systemMram_prepared systemMram_ready.quiet noFrames
    (show 1024 ≤ 2048 by decide) (show 2048 + 8 ≤ msgPersist.toNat / 4 by decide) hdata
  exact ⟨s1, s2, h1, h2, hkey⟩

/-- **The first-stage loader is left in IRAM.** What a user subkernel must not
contain is not in IRAM after the boot if and only if the text of `msg` hides
none of it from the scan, and the first-stage loader, which loads IRAM itself,
has none of it beyond that text. -/
theorem boot_contained_iff (dpu_index : Word) (hL : Works c L key) (hp : PreparedImages s.mram) (hq : Quiet s) (f : Frames) :
    ∃ s1 s2, fslMain L dpu_index s = some (s1, Counter.onThread23 (Counter.packIndex dpu_index)) ∧
      replace c f L s1 = .ok () s2 ∧ (Contained s2.iram ↔
        (∀ x ∈ textAt s.mram (mramAt imeMsgSk) (textLen s.mram (mramAt imeMsgSk)), Plain (instr x)) ∧
        ∀ i, 1024 + 256 * (msgHeader s.mram).textSize.toNat ≤ i → i < 4096 → ¬ BannedInstr (instr (instrAt s.iram i))) := by
  obtain ⟨s1, s2, h1, h2, hs, hb⟩ := boot_run dpu_index hL hp hq f
  have htext : (headerAt s1.mram (mramAt imeMsgSk)).textSize = (msgHeader s.mram).textSize := hs.sizes.1
  have hmsg := hp imeMsgSk List.mem_cons_self
  have hle := hmsg.header.text_le
  have hroom := hmsg.header.room
  refine ⟨s1, s2, h1, h2, ?_⟩
  rw [← msgHeader] at hle hroom
  set t := (msgHeader s.mram).textSize.toNat with ht
  have hiram : s1.iram = s.iram := by rw [hs.rest]
  -- beyond the text of `msg`, IRAM is that of the first-stage loader
  have hout : ∀ i, 1024 + 256 * t ≤ i → instrAt s2.iram i = instrAt s.iram i := fun i hi => by
    have hold : ∀ k, 2 * i ≤ k → s2.iram k = s.iram k := fun k hk => by
      have hcore : s2.iram k = withCore L s1 k := hb.handed.core k (.inr (by rw [htext]; omega))
      rw [hcore, withCore, blit_out (by omega), hiram]
    rw [instrAt, instrAt, hold _ (by omega), hold _ le_rfl]
  -- and up to there it is that text
  have hin : ∀ j < 256 * t, instrAt s2.iram (1024 + j) = instAt s.mram (mramAt imeMsgSk) j := fun j hj => by
    have hnew : ∀ k < 512 * t, s2.iram (2048 + k) = s.mram (mramAt imeMsgSk + (16 + k)) := fun k hk => by
      rw [hb.handed.text k (by rw [htext]; omega), Nat.add_assoc, hs.msg _ (by omega) (by omega)]
    rw [instrAt, instAt, show 2 * (1024 + j) + 1 = 2048 + (2 * j + 1) by omega, show 2 * (1024 + j) = 2048 + 2 * j by omega,
      hnew _ (by omega), hnew _ (by omega)]
    simp only [Nat.add_assoc]
  have hlen : textLen s.mram (mramAt imeMsgSk) = 256 * t := Nat.mul_comm ..
  have hmem : ∀ j < 256 * t, instAt s.mram (mramAt imeMsgSk) j ∈ textAt s.mram (mramAt imeMsgSk) (textLen s.mram (mramAt imeMsgSk)) :=
    fun j hj => List.mem_map_of_mem (List.mem_range.mpr (by rwa [hlen]))
  constructor
  · intro h
    refine ⟨fun x hx => ?_, fun i h1 h2 => ?_⟩
    · obtain ⟨j, hj, rfl⟩ := List.mem_map.mp hx
      rw [List.mem_range, hlen] at hj
      rw [← hin j hj]
      exact Plain.of_not_banned (h _ (by omega) (by omega))
    · rw [← hout i h1]
      exact h i (by omega) h2
  · intro h i h1 h2
    obtain ⟨hplain, hrest⟩ := h
    by_cases hi : i < 1024 + 256 * t
    · obtain ⟨j, rfl⟩ := Nat.exists_eq_add_of_le h1
      have hj : j < 256 * t := by omega
      rw [hin j hj, (hplain _ (hmem j hj)).bannedInstr_iff, hmsg.clean _ (hmem j hj)]
      exact Bool.false_ne_true
    · rw [hout i (by omega)]
      exact hrest i (by omega) h2

/-- IRAM with an `ldmai` in the second half of the user's part, under bit 48. -/
def leftLdmai : St := { started systemMram with iram := fun k => if k = 5001 then 0x17000 else if k = 5000 then 1 else 0 }

theorem boot_contained_iff_ldmai : ∃ s1 s2, fslMain zeroFsl 5 leftLdmai = some (s1, ![11, 0, 0, 0]) ∧
    replace core noFrames zeroFsl s1 = .ok () s2 ∧ ¬ Contained s2.iram := by
  obtain ⟨s1, s2, h1, h2, hiff⟩ := boot_contained_iff (s := leftLdmai) 5 zeroFsl_works systemMram_prepared
    ⟨fun h => Bool.false_ne_true h, rfl, rfl⟩ noFrames
  have htext : 1024 + 256 * (msgHeader systemMram).textSize.toNat ≤ 2500 := by
    rw [systemMram_msgHeader.1]
    decide
  refine ⟨s1, s2, h1, h2, fun h => ?_⟩
  have h2500 := (hiff.mp h).2 2500 htext (by decide)
  exact absurd h2500 (by decide)

end Memclave.Boot
