/-
What a load writes to IRAM and WRAM: to IRAM the words the scan has passed, and
no others (`installed_scanned`); and within which limits (`limits_iff`).
-/
import Memclave.Coverage

namespace Memclave.Loader

open Words Exec Copy

/-! ## What was scanned, and what was installed -/

/-- The words that were scanned, in the order in which they were. -/
def scannedWords (l : List Event) : List (BitVec 64) :=
  l.reverse.filterMap fun
    | .scanned x => some x
    | _ => none

/-- The words of the section at `d`. -/
def sectionAt (m : Nat → Word) (d : Nat) : List (BitVec 64) :=
  (List.range 256).map fun i => m (d + 2 * i + 1) ++ m (d + 2 * i)

/-- The words of the sections loaded to IRAM, in the order in which they were. -/
def installedWords (l : List Event) (iram : Nat → Word) : List (BitVec 64) :=
  l.reverse.flatMap fun
    | .toIram d _ => sectionAt iram d
    | _ => []

theorem scannedWords_append {l l' : List Event} :
    scannedWords (l ++ l') = scannedWords l' ++ scannedWords l := by
  rw [scannedWords, List.reverse_append, List.filterMap_append]
  rfl

theorem installedWords_append {l l' : List Event} {iram : Nat → Word} :
    installedWords (l ++ l') iram = installedWords l' iram ++ installedWords l iram := by
  rw [installedWords, List.reverse_append, List.flatMap_append]
  rfl

theorem scannedWords_nil {l : List Event} (h : ∀ x, Event.scanned x ∉ l) : scannedWords l = [] := by
  rw [scannedWords, List.filterMap_eq_nil_iff]
  intro e he
  cases e with
  | scanned x => exact (h x (List.mem_reverse.mp he)).elim
  | fed | toIram | toWram => rfl

theorem installedWords_nil {l : List Event} {iram : Nat → Word} (h : ∀ d q, Event.toIram d q ∉ l) :
    installedWords l iram = [] := by
  rw [installedWords, List.flatMap_eq_nil_iff]
  intro e he
  cases e with
  | toIram d q => exact (h d q (List.mem_reverse.mp he)).elim
  | fed | scanned | toWram => rfl

theorem scannedWords_scanTrace {m : Nat → Word} {p n : Nat} : scannedWords (scanTrace m p n) = textAt m p n := by
  rw [scannedWords, scanTrace, List.reverse_reverse, List.filterMap_map]
  exact List.filterMap_some

theorem textAt_add {m : Nat → Word} {p a b : Nat} :
    textAt m p (a + b) = textAt m p a ++ (List.range b).map fun i => instAt m p (a + i) := by
  rw [textAt, List.range_add, List.map_append, List.map_map, textAt]
  rfl

/-- `n` sections of text are `n` times 256 words. -/
theorem textAt_sections {m : Nat → Word} {p n : Nat} :
    textAt m p (256 * n) = (List.range n).flatMap fun i => sectionAt m (p + 16 + 512 * i) := by
  induction n with
  | zero => rfl
  | succ n ih =>
    rw [List.range_succ, List.flatMap_append, ← ih, List.flatMap_singleton, Nat.mul_succ, textAt_add, sectionAt]
    refine congrArg (textAt m p (256 * n) ++ ·) (List.map_congr_left fun i _ => ?_)
    rw [instAt, show p + 16 + 2 * (256 * n + i) = p + 16 + 512 * n + 2 * i by omega]

theorem loadTrace_reverse {ev : Nat → Nat → Event} {d q n : Nat} :
    (loadTrace ev d q n).reverse = (List.range n).map fun i => ev (d + 512 * i) (q + 512 * i) := by
  induction n generalizing d q with
  | zero => rfl
  | succ n ih =>
    rw [loadTrace, List.reverse_append, ih, List.range_succ_eq_map, List.map_cons, List.map_map]
    refine congrArg (ev d q :: ·) (List.map_congr_left fun i _ => ?_)
    rw [Function.comp_apply, show d + 512 + 512 * i = d + 512 * i.succ by omega,
      show q + 512 + 512 * i = q + 512 * i.succ by omega]

/-- Sections copied from MRAM are those that stand there. -/
theorem installedWords_loadTrace {m w : Nat → Word} {d p n : Nat} :
    installedWords (loadTrace .toIram d (p + 16) n) (blit w d m (p + 16) (512 * n)) = textAt m p (256 * n) := by
  rw [installedWords, loadTrace_reverse, List.flatMap_map, textAt_sections]
  rw [List.flatMap_def, List.flatMap_def]
  refine congrArg List.flatten (List.map_congr_left fun i hi => List.map_congr_left fun j hj => ?_)
  have hi := List.mem_range.mp hi
  have hj := List.mem_range.mp hj
  rw [blit_in (by omega) (by omega), blit_in (by omega) (by omega),
    show p + 16 + (d + 512 * i + 2 * j + 1 - d) = p + 16 + 512 * i + 2 * j + 1 by omega,
    show p + 16 + (d + 512 * i + 2 * j - d) = p + 16 + 512 * i + 2 * j by omega]

variable {c : Crypto} {f : Frames} {sk tag key wipe : Word} {s s' : St}

/-- **No word reaches IRAM unscanned.** Of a load that gets through, the words
written to IRAM are the words that were scanned, in the same order; all of
them passed the three tests, and the rest of IRAM is as before. -/
theorem installed_scanned (hrun : imeReplaceSk c f sk tag key wipe s = .ok () s') :
    ∃ l, s'.trace = l ++ s.trace ∧ installedWords l s'.iram = scannedWords l ∧
      (∀ x ∈ scannedWords l, isLdmai x = false ∧ isThreadCtrl x = false ∧ isBannedReg x = false) ∧
      ∀ k, s'.iram k ≠ s.iram k → ∃ d q, Event.toIram d q ∈ l ∧ d ≤ k ∧ k < d + 512 := by
  obtain ⟨hl, w, -, rfl⟩ := (imeReplaceSk_spec c f sk tag key wipe s).ok hrun
  set m := plainMram c f sk key wipe s with hm
  set t := (headerAt m (mramAt sk)).textSize.toNat with ht
  set n := (headerAt m (mramAt sk)).dataSize.toNat with hn
  have hiram : (loaded c f sk key wipe w s).iram = blit s.iram (wramAt userStart) m (mramAt sk + 16) (512 * t) := rfl
  let V := verifyTrace (copySk s.mram sk scratchA) (mramAt sk)
  let T := scanTrace m (mramAt sk) (textLen m (mramAt sk))
  let D := loadTrace .toWram (wramAt 0) (mramAt (dataStart m sk)) n
  let X := loadTrace .toIram (wramAt userStart) (mramAt sk + 16) t
  have htrace : (loaded c f sk key wipe w s).trace = X ++ (D ++ (T ++ V)) ++ s.trace := by
    rw [List.append_assoc, List.append_assoc, List.append_assoc]
    rfl
  have hscanD : scannedWords D = [] := scannedWords_nil fun x hx => by
    obtain ⟨i, -, h⟩ := mem_loadTrace.mp hx
    cases h
  have hscanX : scannedWords X = [] := scannedWords_nil fun x hx => by
    obtain ⟨i, -, h⟩ := mem_loadTrace.mp hx
    cases h
  have hscanV : scannedWords V = [] := scannedWords_nil fun x hx => by
    obtain ⟨q, h⟩ := mem_verifyTrace hx
    cases h
  have hinst : ∀ d q, Event.toIram d q ∉ D ++ (T ++ V) := fun d q h => by
    cases List.mem_append.mp h with
    | inl h =>
      obtain ⟨i, -, h⟩ := mem_loadTrace.mp h
      cases h
    | inr h =>
      cases List.mem_append.mp h with
      | inl h =>
        obtain ⟨x, h⟩ := mem_scanTrace h
        cases h
      | inr h =>
        obtain ⟨x, h⟩ := mem_verifyTrace h
        cases h
  have hscan : scannedWords (X ++ (D ++ (T ++ V))) = textAt m (mramAt sk) (textLen m (mramAt sk)) := by
    rw [scannedWords_append, scannedWords_append, scannedWords_append, hscanD, hscanX, hscanV,
      scannedWords_scanTrace, List.nil_append, List.append_nil, List.append_nil]
  refine ⟨_, htrace, ?_, fun x hx => ?_, fun k hk => ?_⟩
  · rw [hscan, installedWords_append, installedWords_nil hinst, List.nil_append, hiram, installedWords_loadTrace,
      textLen, Nat.mul_comm 256]
  · rw [hscan] at hx
    have := hl.scan.clean x hx
    unfold banned at this
    simp only [Bool.or_eq_false_iff] at this
    exact ⟨this.1.1, this.1.2, this.2⟩
  · by_cases hin : wramAt userStart ≤ k ∧ k < wramAt userStart + 512 * t
    · refine ⟨wramAt userStart + 512 * ((k - wramAt userStart) / 512),
        mramAt sk + 16 + 512 * ((k - wramAt userStart) / 512), ?_, by omega, by omega⟩
      exact List.mem_append_left _ (mem_loadTrace.mpr ⟨_, by omega, rfl⟩)
    · exact (hk (by rw [hiram, blit_out (by omega)])).elim

/-- A section of text is loaded, and is what was scanned. -/
theorem installed_text : ∃ s', imeReplaceSk core noFrames 0 0 0 0 (textImage 0 2112 2112) = .ok () s' ∧
    ∃ l, s'.trace = l ++ [] ∧ installedWords l s'.iram = scannedWords l := by
  obtain ⟨s', hrun⟩ := (@textImage_loads 2112 (by decide) (by decide) (by decide)).run
  obtain ⟨l, hl, heq, -⟩ := installed_scanned hrun
  exact ⟨s', hrun, l, hl, heq⟩

/-! ## The limits -/

/-- IRAM from the user's start to its end, and WRAM below the thread-io area. -/
def InLimits : Event → Prop
  | .toIram d _ => wramAt userStart ≤ d ∧ d + 512 ≤ iramWords
  | .toWram d _ => d + 512 ≤ threadio.toNat / 4
  | _ => True

/-- The run from `s` to `s'` wrote no section outside the limits. -/
def LoadsIn (s s' : St) : Prop := ∃ l, s'.trace = l ++ s.trace ∧ ∀ e ∈ l, InLimits e

/-- The sections of a header do not fit. -/
def Exceeds (h : Header) : Prop :=
  iramWords < wramAt userStart + 512 * h.textSize.toNat ∨ threadio.toNat / 4 < 512 * h.dataSize.toNat

/-- A load keeps to the limits, and a header that does not fit ends it in a fault
of the code's own. -/
def KeepsLimits (c : Crypto) (f : Frames) (sk tag key wipe : Word) (s : St) : Prop :=
  wp (imeReplaceSk c f sk tag key wipe) (fun _ s' => LoadsIn s s' ∧ ¬ Exceeds (loadedHeader c f sk key wipe s))
    (fun e s' => LoadsIn s s' ∧ (Exceeds (loadedHeader c f sk key wipe s) → e ≠ .mem)) s

/-- When it does: the sections fit; or another check faults before them; or
`text_size` is caught by the mask, and the data fit. -/
def LimitsOk (m : Nat → Word) (sk : Word) : Prop :=
  let h := headerAt m (mramAt sk)
  ¬ Exceeds h ∨ ScanHits m sk ∨ InMram sk (16 + 2 * textLen m (mramAt sk)) ∧ h.magic ≠ 0xA5A5A5A5 ∨
    InMram sk (16 + 2 * textLen m (mramAt sk)) ∧ 16 ≤ h.textSize.toNat ∧
      512 * h.dataSize.toNat ≤ threadio.toNat / 4 ∧ SectionsOk wramWords 0 (dataStart m sk) h.dataSize.toNat

theorem user_start : wramAt userStart = 2048 := by decide

/-- `n` sections of data and `t` of text that are within the limits. -/
theorem sectionTrace_in {m : Nat → Word} {n t : Nat} (hn : 512 * n ≤ threadio.toNat / 4)
    (ht : wramAt userStart + 512 * t ≤ iramWords) {p : Nat} {m' : Nat → Word} {s s' : St}
    (h : s'.trace = sectionTrace m sk n t ++ (verifyTrace m' p ++ s.trace)) : LoadsIn s s' := by
  refine ⟨sectionTrace m sk n t ++ verifyTrace m' p, by rw [h, List.append_assoc], fun e he => ?_⟩
  rw [sectionTrace, textTrace, List.mem_append, List.mem_append, List.mem_append] at he
  rcases he with (he | he | he) | he
  · obtain ⟨i, hi, rfl⟩ := mem_loadTrace.mp he
    exact ⟨by omega, by omega⟩
  · obtain ⟨i, hi, rfl⟩ := mem_loadTrace.mp he
    show 0 + 512 * i + 512 ≤ _
    omega
  · obtain ⟨x, rfl⟩ := mem_scanTrace he
    exact trivial
  · obtain ⟨x, rfl⟩ := mem_verifyTrace he
    exact trivial

/-- If the data do not fit, but are loaded, the last section is out of the
limits. -/
theorem sectionTrace_out {m : Nat → Word} {n t : Nat} (hn : threadio.toNat / 4 < 512 * n) {p : Nat}
    {m' : Nat → Word} {s s' : St} (h : s'.trace = sectionTrace m sk n t ++ (verifyTrace m' p ++ s.trace)) :
    ¬ LoadsIn s s' := by
  rintro ⟨l, hl, hall⟩
  have heq : l = sectionTrace m sk n t ++ verifyTrace m' p := by
    refine @List.append_cancel_right _ _ s.trace _ ?_
    rw [← hl, h, List.append_assoc]
  have hmem : Event.toWram (0 + 512 * (n - 1)) (mramAt (dataStart m sk) + 512 * (n - 1)) ∈ l := by
    rw [heq]
    exact List.mem_append_left _ (List.mem_append_right _ (List.mem_append_left _
      (mem_loadTrace.mpr ⟨n - 1, by omega, rfl⟩)))
  have hin : 0 + 512 * (n - 1) + 512 ≤ threadio.toNat / 4 := hall _ hmem
  omega

theorem exceeds_not {h : Header} : ¬ Exceeds h ↔
    wramAt userStart + 512 * h.textSize.toNat ≤ iramWords ∧ 512 * h.dataSize.toNat ≤ threadio.toNat / 4 := by
  rw [Exceeds, not_or, Nat.not_lt, Nat.not_lt]

/-- Past the scan and the check of the magic word, only the last way remains. -/
theorem LimitsOk.rest {m : Nat → Word} (h : LimitsOk m sk) (hs : ScanOk m sk)
    (hmagic : (headerAt m (mramAt sk)).magic = 0xA5A5A5A5) :
    ¬ Exceeds (headerAt m (mramAt sk)) ∨ 16 ≤ (headerAt m (mramAt sk)).textSize.toNat ∧
      512 * (headerAt m (mramAt sk)).dataSize.toNat ≤ threadio.toNat / 4 ∧
      SectionsOk wramWords 0 (dataStart m sk) (headerAt m (mramAt sk)).dataSize.toNat := by
  rcases h with h | ⟨i, hi, -, hb⟩ | ⟨-, hne⟩ | ⟨-, h⟩
  · exact .inl h
  · rw [hs.clean _ (List.mem_map_of_mem (List.mem_range.mpr hi))] at hb
    exact (Bool.false_ne_true hb).elim
  · exact (hne hmagic).elim
  · exact .inr h

/-- **The limits of a load.** Of a load that gets as far as to decrypt: it
keeps to the limits if and only if `LimitsOk`. -/
theorem limits_iff (hr : Reached c f sk tag key wipe s) :
    KeepsLimits c f sk tag key wipe s ↔ LimitsOk (plainMram c f sk key wipe s) sk := by
  set m := plainMram c f sk key wipe s with hm
  set h := headerAt m (mramAt sk) with hh
  constructor
  · intro hk
    by_contra hnot
    have hexc : Exceeds h := not_not.mp fun hn => hnot (.inl hn)
    refine hk.absurd (imeReplaceSk_rule (fun w _ _ _ hq => hq.2 hexc) (fun e l s' _ hf hl hm' he => ?_)
      fun e s' hn _ => (hn hr).elim)
    have hmem := he.2 hexc
    cases hf with
    | scan hs _ =>
      rcases hs with ⟨he, -⟩ | ⟨-, hs⟩
      exacts [hmem he, hnot (.inr (.inl hs))]
    | magic hs hne => exact hnot (.inr (.inr (.inl ⟨hs.text, hne⟩)))
    | textSize hs hw ht =>
      by_cases hd : 512 * h.dataSize.toNat ≤ threadio.toNat / 4
      · have h16 : 16 ≤ h.textSize.toNat := ht.resolve_left fun h0 => exceeds_not.mpr ⟨by rw [h0]; decide, hd⟩ hexc
        exact hnot (.inr (.inr (.inr ⟨hs.text, h16, hd, hw.data⟩)))
      · exact sectionTrace_out (Nat.lt_of_not_le hd) hl he.1
    | data | text | pop => exact hmem rfl
  · intro hok
    refine imeReplaceSk_rule (fun w _ _ ht => ?_) (fun e l s' _ hf hl _ => ?_) fun e s' hn _ => (hn hr).elim
    · -- a load that gets through is one that fits
      have hfit : ¬ Exceeds h := (hok.rest ht.scan ht.wram.magic).resolve_right fun h16 =>
        absurd h16.1 (Nat.not_le.mpr ht.iram.hi)
      obtain ⟨h1, h2⟩ := exceeds_not.mp hfit
      have htrace : (tailLoaded f sk (atScan c f sk key wipe w s)).trace =
          sectionTrace m sk h.dataSize.toNat h.textSize.toNat ++
            (verifyTrace (copySk s.mram sk scratchA) (mramAt sk) ++ s.trace) := by
        rw [sectionTrace, textTrace, List.append_assoc, List.append_assoc]
        rfl
      exact ⟨sectionTrace_in h2 h1 htrace, hfit⟩
    · cases hf with
      | scan hs hall =>
        refine ⟨⟨l ++ verifyTrace (copySk s.mram sk scratchA) (mramAt sk), by rw [hl, List.append_assoc], fun ev hev => ?_⟩,
          fun hexc he => ?_⟩
        · cases List.mem_append.mp hev with
          | inl hev =>
            obtain ⟨x, rfl⟩ := hall ev hev
            exact trivial
          | inr hev =>
            obtain ⟨x, rfl⟩ := mem_verifyTrace hev
            exact trivial
        · rcases hs with ⟨-, hn, hh⟩ | ⟨hs, -⟩
          · rcases hok with hok | hok | ⟨hok, -⟩ | ⟨hok, -⟩
            exacts [hok hexc, hh hok, hn hok, hn hok]
          · rw [he] at hs
            cases hs
      | magic => exact ⟨sectionTrace_in (by decide) (by decide) hl, fun _ he => by cases he⟩
      | data hs hmagic hj _ hn =>
        have hfit := (hok.rest hs hmagic).resolve_right fun h16 => hn h16.2.2
        have hd := (exceeds_not.mp hfit).2
        exact ⟨sectionTrace_in ((Nat.mul_le_mul_left 512 hj.le).trans hd) (by decide) hl, fun hexc => (hfit hexc).elim⟩
      | textSize hs hw ht =>
        refine ⟨sectionTrace_in ?_ (by decide) hl, fun _ he => by cases he⟩
        rcases hok.rest hs hw.magic with hfit | h16
        exacts [(exceeds_not.mp hfit).2, h16.2.1]
      | text hs hw hhi hj _ hn =>
        have hfit := (hok.rest hs hw.magic).resolve_right fun h16 => absurd h16.1 (Nat.not_le.mpr hhi)
        obtain ⟨h1, h2⟩ := exceeds_not.mp hfit
        exact ⟨sectionTrace_in h2 ((Nat.add_le_add_left (Nat.mul_le_mul_left 512 hj.le) _).trans h1) hl,
          fun hexc => (hfit hexc).elim⟩
      | pop hs hw hi _ =>
        have hfit := (hok.rest hs hw.magic).resolve_right fun h16 => absurd h16.1 (Nat.not_le.mpr hi.hi)
        obtain ⟨h1, h2⟩ := exceeds_not.mp hfit
        exact ⟨sectionTrace_in h2 h1 hl, fun hexc => (hfit hexc).elim⟩

/-- A section of text and no data fit. -/
theorem limits_text : KeepsLimits core noFrames 0 0 0 0 (textImage 0 2112 2112) := by
  have hap := @textImage_apart 2112 (by decide) (by decide) (by decide)
  have hr : Reached core noFrames 0 0 0 0 (textImage 0 2112 2112) :=
    zeroImage_reached hap.kept (by decide) (by decide)
  refine (limits_iff hr).mpr (.inl ?_)
  rw [hap.kept.plainHeader (by rw [textImage, zeroImage_header]; decide), textImage, zeroImage_header, exceeds_not]
  exact ⟨by decide, by decide⟩

/-! ## Data over the thread-io area -/

/-- One section of text and 32 of data, which is all of WRAM. -/
def dataImage : St := zeroImage 0 64 64 1 32

theorem dataImage_apart : Apart dataImage.mram 0 (16 + 512 * 33) := by
  refine ⟨by decide, by decide, ?_, ?_, ?_, ?_, ?_⟩ <;> rw [dataImage, zeroImage_header]
  · decide
  · decide
  · decide
  · rw [slot]
    decide
  · rw [slot, mramAt_zero]
    decide

theorem dataImage_loadOk : LoadOk core noFrames 0 0 0 0 dataImage := by
  refine zeroImage_loadOk dataImage_apart.kept (by decide) (by decide) (by decide) (by decide) (by decide) (by decide)
    (.inl le_rfl) (dataImage_apart.pop ?_)
  rw [dataImage, zeroImage_header]
  decide

/-- It is loaded, the thread-io area with it. -/
theorem limits_exceeded : Reached core noFrames 0 0 0 0 dataImage ∧
    ¬ KeepsLimits core noFrames 0 0 0 0 dataImage := by
  refine ⟨dataImage_loadOk.toReached, fun hk => ?_⟩
  obtain ⟨s', hrun⟩ := dataImage_loadOk.run
  refine (hk.ok hrun).2 (.inr ?_)
  have hk := dataImage_apart.kept
  rw [loadedHeader, hk.plainHeader (by rw [dataImage, zeroImage_header]; decide), dataImage, zeroImage_header]
  decide

end Memclave.Loader
