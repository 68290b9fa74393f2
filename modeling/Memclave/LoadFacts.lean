/-
What the second half of a load does: the check of the tag expected, the scan,
and the two copies of the sections out of MRAM.
-/
import Memclave.LoaderFacts

namespace Memclave.Loader

open Words Exec Copy

/-! ## `ime_decrypt_sk` -/

def stackUsed (f : Frames) (w : Nat → Word) : Nat → Word := fun k => if k < 1023 then f.stack k else w k

theorem wp_useStack {f : Frames} {s : St} {Q : Unit → St → Prop} {E : Fault → St → Prop} :
    wp (useStack f) Q E s ↔ Q () { s with wram := stackUsed f s.wram } := Iff.rfl

/-- What `ime_decrypt_sk` needs not to fault for an address. -/
structure DecryptRange (s : St) (sk tag key : Word) : Prop where
  tagRead : InMram (sk + 4) 4
  tagGiven : tag ≠ 0 → tag.toNat % 4 = 0 ∧ tag.toNat / 4 + 4 ≤ wramWords
  fed : FedOk s.mram sk
  chacha : ChachaOk s sk key

/-- What it needs to return: no tag or the right tag expected, and a
subkernel that carries the tag of its own content. -/
structure DecryptOk (c : Crypto) (s : St) (sk tag key : Word) : Prop extends DecryptRange s sk tag key where
  system : s.id = 0
  expected : tag ≠ 0 → ∀ i : Fin 4, s.wram (tag.toNat / 4 + i) = s.mram (mramAt (sk + 4) + i)
  mac : macOf c (keyOf s key) s.mram (mramAt sk) = (headerAt s.mram (mramAt sk)).tag

theorem fedOk_header {m : Nat → Word} {sk : Word} (h : FedOk m sk) : InMram sk 16 := by
  unfold FedOk InMram at *
  omega

theorem imeDecryptSk_spec (c : Crypto) (f : Frames) (sk tag key : Word) (s : St) :
    let t : St := { s with wram := stackUsed f s.wram }
    wp (imeDecryptSk c f sk tag key)
      (fun _ s' => DecryptOk c t sk tag key ∧
        s'.mram = decryptSk c (keyOf t key) s.mram (mramAt sk) ∧ WramKept key t.wram s'.wram ∧
        s' = { s with mram := s'.mram, wram := s'.wram, trace := verifyTrace s.mram (mramAt sk) ++ s.trace })
      (fun e s' => s'.mram = s.mram ∧ ¬ DecryptOk c t sk tag key ∧ (e = .mem → ¬ DecryptRange t sk tag key)) s := by
  intro t
  rw [imeDecryptSk, wp_bind, wp_useStack]
  refine wp.bind (imeCheckSystem_spec sk _) (fun _ s1 h1 => ?_) fun e s1 h1 => ⟨h1.1, ?_⟩
  swap
  · rcases h1.2 with ⟨rfl, h⟩ | ⟨rfl, h⟩
    · have hn : ¬ DecryptRange t sk tag key := fun hn => h (by
        have := fedOk_header hn.fed
        unfold InMram at *
        omega)
      exact ⟨fun hd => hn hd.toDecryptRange, fun _ => hn⟩
    · exact ⟨fun hd => h hd.system, fun he => by cases he⟩
  obtain ⟨-, hid, rfl⟩ := h1
  -- the verification and what is left after it
  have verify : wp (do if !(← imeDecryptVerify c f sk key) then throw .sec)
      (fun _ s' => (FedOk t.mram sk ∧ ChachaOk t sk key) ∧
        macOf c (keyOf t key) t.mram (mramAt sk) = (headerAt t.mram (mramAt sk)).tag ∧
        s'.mram = decryptSk c (keyOf t key) s.mram (mramAt sk) ∧ WramKept key t.wram s'.wram ∧
        s' = { s with mram := s'.mram, wram := s'.wram, trace := verifyTrace s.mram (mramAt sk) ++ s.trace })
      (fun e s' => s'.mram = s.mram ∧ ¬ DecryptOk c t sk tag key ∧ (e = .mem → ¬ DecryptRange t sk tag key)) t := by
    refine wp.bind (imeDecryptVerify_spec c f sk key t) (fun b s2 h2 => ?_) fun _ _ h2 => ?_
    · obtain ⟨hok, hb, hm, hw, hs⟩ := h2
      cases b with
      | true => exact wp_pure.mpr ⟨hok, hb.mp rfl, hm, hw, hs⟩
      | false => exact wp_throw.mpr ⟨hm, fun hd => Bool.false_ne_true (hb.mpr hd.mac), fun he => by cases he⟩
    · exact ⟨h2.1, fun hd => h2.2 ⟨hd.fed, hd.chacha⟩, fun _ hd => h2.2 ⟨hd.fed, hd.chacha⟩⟩
  rw [wp_bind, wp_mramRead]
  refine ⟨fun hread => ?_, fun hn => ⟨rfl, fun hd => hn hd.tagRead, fun _ hd => hn hd.tagRead⟩⟩
  rw [wp_ite]
  refine ⟨fun htag => ?_, fun htag => ?_⟩
  · rw [wp_bind, lwArray, wp_ite]
    refine ⟨fun hin => ?_, fun hin => ⟨rfl, fun hd => hin (hd.tagGiven htag), fun _ hd => hin (hd.tagGiven htag)⟩⟩
    rw [wp_bind, wp_get, wp_pure, wp_ite]
    refine ⟨fun hne => wp_bind.mpr ⟨rfl, fun hd => ?_, fun he => by cases he⟩, fun heq => ?_⟩
    · obtain ⟨i, hi⟩ := hne
      exact hi (hd.expected htag i)
    · simp only [not_exists, not_not] at heq
      refine verify.mono (fun _ s' h => ?_) fun _ _ h => h
      obtain ⟨⟨hf, hc⟩, hmac, hrest⟩ := h
      exact ⟨⟨⟨hread, fun _ => hin, hf, hc⟩, hid, fun _ => heq, hmac⟩, hrest⟩
  · refine verify.mono (fun _ s' h => ?_) fun _ _ h => h
    obtain ⟨⟨hf, hc⟩, hmac, hrest⟩ := h
    exact ⟨⟨⟨hread, fun h => (h (not_not.mp htag)).elim, hf, hc⟩, hid, fun h => (h (not_not.mp htag)).elim, hmac⟩,
      hrest⟩

/-! ## `ime_scan_sk` -/

/-- The `i`-th 8-byte word of the text of the subkernel at word `p`. -/
def instAt (m : Nat → Word) (p i : Nat) : BitVec 64 := m (p + 16 + 2 * i + 1) ++ m (p + 16 + 2 * i)

/-- The first `n` words of the text. -/
def textAt (m : Nat → Word) (p n : Nat) : List (BitVec 64) := (List.range n).map (instAt m p)

theorem textAt_succ {m : Nat → Word} {p n : Nat} : textAt m p (n + 1) = textAt m p n ++ [instAt m p n] := by
  rw [textAt, List.range_succ, List.map_append, List.map_singleton, textAt]

/-- The words that the header's `text_size` says there are. -/
def textLen (m : Nat → Word) (p : Nat) : Nat := (headerAt m p).textSize.toNat * 256

def scanTrace (m : Nat → Word) (p n : Nat) : List Event := ((textAt m p n).map .scanned).reverse

theorem scanTrace_succ {m : Nat → Word} {p n : Nat} :
    scanTrace m p (n + 1) = .scanned (instAt m p n) :: scanTrace m p n := by
  rw [scanTrace, textAt_succ, List.map_append, List.reverse_append, scanTrace]
  rfl

/-- What the scan needs to return. -/
structure ScanOk (m : Nat → Word) (sk : Word) : Prop where
  text : InMram sk (16 + 2 * textLen m (mramAt sk))
  clean : ∀ n ∈ textAt m (mramAt sk) (textLen m (mramAt sk)), banned n = false

theorem mramAt_dword {sk : Word} {i n : Nat} (h : InMram sk n) (h16 : 16 + 2 * i ≤ n) :
    mramAt (sk + 64 + BitVec.ofNat 32 (8 * i)) = mramAt sk + 16 + 2 * i := by
  have h64 : sk + 64 + BitVec.ofNat 32 (8 * i) = sk + BitVec.ofNat 32 (8 * (8 + i)) := by
    rw [BitVec.add_assoc, Nat.mul_add, BitVec.ofNat_add]
    rfl
  rw [h64, mramAt_add_lt h (by omega)]
  omega

theorem scanInst_spec {sk : Word} {i : Nat} {s : St} (h : InMram sk (16 + 2 * i)) :
    wp (scanInst sk i)
      (fun _ s' => InMram sk (16 + 2 * (i + 1)) ∧ banned (instAt s.mram (mramAt sk) i) = false ∧
        s' = { s with trace := .scanned (instAt s.mram (mramAt sk) i) :: s.trace })
      (fun e s' => s'.mram = s.mram ∧ (∃ l, s'.trace = l ++ s.trace ∧ ∀ ev ∈ l, ∃ x, ev = .scanned x) ∧
        (e = .mem ∧ ¬ InMram sk (16 + 2 * (i + 1)) ∨
          e = .sec ∧ InMram sk (16 + 2 * (i + 1)) ∧ banned (instAt s.mram (mramAt sk) i) = true)) s := by
  have hat := mramAt_dword h le_rfl
  have hone : ∀ x : BitVec 64, ∀ ev ∈ [Event.scanned x], ∃ y, ev = .scanned y := fun x ev hev =>
    ⟨x, List.mem_singleton.mp hev⟩
  rw [scanInst, wp_bind, wp_mramRead, hat]
  refine ⟨fun hin => ?_, fun hin => ⟨rfl, ⟨[], rfl, fun _ h => absurd h List.not_mem_nil⟩, .inl ⟨rfl, fun hn => hin ?_⟩⟩⟩
  swap
  · unfold InMram at *
    omega
  have hin' : InMram sk (16 + 2 * (i + 1)) := by
    unfold InMram at *
    omega
  rw [wp_bind, wp_log, wp_ite]
  change (isLdmai (instAt s.mram (mramAt sk) i) = true → _) ∧ _
  simp only [banned, Bool.or_eq_true, Bool.or_eq_false_iff]
  refine ⟨fun h1 => wp_bind.mpr ⟨rfl, ⟨[_], rfl, hone _⟩, .inr ⟨rfl, hin', .inl (.inl h1)⟩⟩, fun h1 => ?_⟩
  rw [wp_ite]
  refine ⟨fun h2 => wp_bind.mpr ⟨rfl, ⟨[_], rfl, hone _⟩, .inr ⟨rfl, hin', .inl (.inr h2)⟩⟩, fun h2 => ?_⟩
  rw [wp_ite]
  refine ⟨fun h3 => ⟨rfl, ⟨[_], rfl, hone _⟩, .inr ⟨rfl, hin', .inr h3⟩⟩, fun h3 => ⟨hin', ?_, rfl⟩⟩
  exact ⟨⟨eq_false_of_ne_true h1, eq_false_of_ne_true h2⟩, eq_false_of_ne_true h3⟩

/-- The state after the scan. -/
def scanned (f : Frames) (sk : Word) (s : St) : St := { s with
  wram := stackUsed f s.wram
  trace := scanTrace s.mram (mramAt sk) (textLen s.mram (mramAt sk)) ++ s.trace }

/-- The scan comes to a banned word before it comes to the end of MRAM. -/
def ScanHits (m : Nat → Word) (sk : Word) : Prop :=
  ∃ i < textLen m (mramAt sk), InMram sk (16 + 2 * (i + 1)) ∧ banned (instAt m (mramAt sk) i) = true

/-- How a scan ends that does not return. -/
def ScanFault (m : Nat → Word) (sk : Word) (e : Fault) : Prop :=
  e = .mem ∧ ¬ InMram sk (16 + 2 * textLen m (mramAt sk)) ∧ ¬ ScanHits m sk ∨ e = .sec ∧ ScanHits m sk

theorem ScanOk.not_fault {m : Nat → Word} {sk : Word} {e : Fault} (h : ScanOk m sk) : ¬ ScanFault m sk e := by
  rintro (⟨-, hn, -⟩ | ⟨-, i, hi, -, hb⟩)
  · exact hn h.text
  · rw [h.clean _ (List.mem_map_of_mem (List.mem_range.mpr hi))] at hb
    exact Bool.false_ne_true hb

theorem imeScanSk_spec (f : Frames) {sk : Word} {s : St} (h16 : InMram sk 16) (hid : s.id = 0) :
    wp (imeScanSk f sk) (fun _ s' => ScanOk s.mram sk ∧ s' = scanned f sk s)
      (fun e s' => s'.mram = s.mram ∧ (∃ l, s'.trace = l ++ s.trace ∧ ∀ ev ∈ l, ∃ x, ev = .scanned x) ∧
        ScanFault s.mram sk e) s := by
  set p := mramAt sk with hp
  have h40 : mramAt (sk + 40) = p + 10 := mramAt_add_lt (i := 5) h16 (by decide)
  rw [imeScanSk, wp_bind, wp_useStack, wp_bind, wp_mramRead, h40]
  refine ⟨fun _ => ?_, fun hn => (hn ?_).elim⟩
  swap
  · unfold InMram at *
    omega
  set n := textLen s.mram p with hn
  let I (j : Nat) (t : St) : Prop := InMram sk (16 + 2 * j) ∧ (∀ i < j, banned (instAt s.mram p i) = false) ∧
    t = { s with wram := stackUsed f s.wram, trace := scanTrace s.mram p j ++ s.trace }
  have loop : wp (forRange 0 n () fun i _ => scanInst sk i) (fun _ t => I n t)
      (fun e t => t.mram = s.mram ∧ (∃ l, t.trace = l ++ s.trace ∧ ∀ ev ∈ l, ∃ x, ev = .scanned x) ∧
        ScanFault s.mram sk e) { s with wram := stackUsed f s.wram } := by
    refine (wp_forRange (fun j _ t => I j t) ?_ fun j _ t _ hj h => ?_).mono (fun _ t h => ?_) fun _ _ h => h
    · exact ⟨h16, fun i hi => absurd hi (Nat.not_lt_zero i), rfl⟩
    · obtain ⟨hin, hclean, rfl⟩ := h
      refine (scanInst_spec hin).mono (fun _ t h => ?_) fun e t h => ⟨h.1, ?_, ?_⟩
      · obtain ⟨hin', hb, rfl⟩ := h
        refine ⟨hin', fun i hi => ?_, ?_⟩
        · by_cases he : i = j
          · rw [he]
            exact hb
          · exact hclean i (by omega)
        · rw [scanTrace_succ]
          rfl
      · obtain ⟨l, hl, hall⟩ := h.2.1
        refine ⟨l ++ scanTrace s.mram p j, ?_, fun ev hev => ?_⟩
        · rw [hl, List.append_assoc]
        · cases List.mem_append.mp hev with
          | inl hev => exact hall ev hev
          | inr hev =>
            rw [scanTrace, List.mem_reverse, List.mem_map] at hev
            obtain ⟨x, -, rfl⟩ := hev
            exact ⟨x, rfl⟩
      · rcases h.2.2 with ⟨he, hr⟩ | ⟨he, hin', hb⟩
        · refine .inl ⟨he, fun hn' => hr ?_, fun ⟨i, hi, hin', hb⟩ => ?_⟩
          · rw [← hp, ← hn] at hn'
            unfold InMram at *
            omega
          · -- a banned word that is in MRAM would have been met before
            by_cases hij : i < j
            · rw [hclean i hij] at hb
              exact Bool.false_ne_true hb
            · refine hr ?_
              unfold InMram at *
              omega
        · exact .inr ⟨he, j, hj, hin', hb⟩
    · rwa [Nat.max_eq_right (Nat.zero_le n)] at h
  refine wp.bind loop (fun _ t ht => ?_) fun _ _ ht => ht
  obtain ⟨hin, hclean, rfl⟩ := ht
  refine (imeCheckSystem_spec sk _).mono (fun _ t h => ⟨⟨hin, fun x hx => ?_⟩, h.2.2⟩) fun e t h => ?_
  · obtain ⟨i, hi, rfl⟩ := List.mem_map.mp hx
    exact hclean i (List.mem_range.mp hi)
  · rcases h.2 with ⟨-, hr⟩ | ⟨-, hr⟩
    · unfold InMram at *
      omega
    · exact (hr hid).elim

/-! ## `ime_load_wram` and `ime_load_iram` -/

/-- What the loading of `n` sections adds to the trace. -/
def loadTrace (ev : Nat → Nat → Event) : Nat → Nat → Nat → List Event
  | _, _, 0 => []
  | d, q, n + 1 => loadTrace ev (d + 512) (q + 512) n ++ [ev d q]

/-- `n` sections need their place in MRAM, and in the memory of `size` words
they go to. -/
def SectionsOk (size : Nat) (dst src : Word) (n : Nat) : Prop :=
  0 < n → InMram src (512 * n) ∧ wramAt dst + 512 * n ≤ size

theorem wramAt_add {a : Word} (h : wramAt a + 512 ≤ wramWords) : wramAt (a + 2048) = wramAt a + 512 := by
  have hW : wramWords = 2 ^ 14 := rfl
  unfold wramAt at *
  rw [BitVec.toNat_add, show (2048 : Word).toNat = 2048 from rfl]
  omega

theorem sectionsOk_first {size n : Nat} {dst src : Word} (h : SectionsOk size dst src (n + 1)) :
    InMram src 512 ∧ wramAt dst + 512 ≤ size := by
  obtain ⟨h1, h2⟩ := h (Nat.succ_pos n)
  have hn : 512 ≤ 512 * (n + 1) := Nat.le_mul_of_pos_right 512 (Nat.succ_pos n)
  exact ⟨(Nat.add_le_add_left hn _).trans h1, (Nat.add_le_add_left hn _).trans h2⟩

theorem sectionsOk_next {size n : Nat} {dst src : Word} (hsize : size ≤ wramWords)
    (h : InMram src 512 ∧ wramAt dst + 512 ≤ size) :
    SectionsOk size (dst + 2048) (src + 2048) n ↔ SectionsOk size dst src (n + 1) := by
  have hs : mramAt (src + 2048) = mramAt src + 512 := mramAt_add_lt (i := 256) h.1 (by decide)
  have hd := wramAt_add (h.2.trans hsize)
  unfold SectionsOk InMram at *
  rw [hs, hd]
  constructor
  · intro hn _
    rcases Nat.eq_zero_or_pos n with rfl | h0
    · exact h
    · obtain ⟨h1, h2⟩ := hn h0
      exact ⟨by omega, by omega⟩
  · intro hn _
    obtain ⟨h1, h2⟩ := hn (Nat.succ_pos n)
    exact ⟨by omega, by omega⟩

/-- The rule for both loads: one section at a time by `load`, and in all the
`n` sections by `F`. -/
theorem sections_spec {load : Word → Word → Prog Unit} (F : Nat → Nat → Nat → St → St) {size : Nat}
    (hsize : size ≤ wramWords) (hF0 : ∀ d q s, F d q 0 s = s)
    (hF : ∀ d q n s, F (d + 512) (q + 512) n (F d q 1 s) = F d q (n + 1) s)
    (hm : ∀ d q n s, (F d q n s).mram = s.mram)
    (hload : ∀ dst src s, wp (load dst src)
      (fun _ s' => (InMram src 512 ∧ wramAt dst + 512 ≤ size) ∧ s' = F (wramAt dst) (mramAt src) 1 s)
      (fun e s' => s' = s ∧ e = .mem ∧ ¬ (InMram src 512 ∧ wramAt dst + 512 ≤ size)) s)
    (n : Nat) (dst src : Word) (s : St) :
    wp (sections load n dst src)
      (fun _ s' => SectionsOk size dst src n ∧ s' = F (wramAt dst) (mramAt src) n s)
      (fun e s' => (e = .mem ∧ ¬ SectionsOk size dst src n) ∧
        ∃ j < n, SectionsOk size dst src j ∧ s'.trace = (F (wramAt dst) (mramAt src) j s).trace ∧ s'.mram = s.mram) s := by
  induction n generalizing dst src s with
  | zero =>
    rw [sections, wp_pure, hF0]
    exact ⟨fun h => absurd h (Nat.lt_irrefl 0), rfl⟩
  | succ n ih =>
    rw [sections]
    refine wp.bind (hload dst src s) (fun _ s1 h1 => ?_) fun e s1 h1 => ?_
    · obtain ⟨hin, rfl⟩ := h1
      have hs : mramAt (src + 2048) = mramAt src + 512 := mramAt_add_lt (i := 256) hin.1 (by decide)
      have hd := wramAt_add (hin.2.trans hsize)
      refine (ih (dst + 2048) (src + 2048) _).mono (fun _ s2 h2 => ?_) fun e s2 h2 => ?_
      · rw [hs, hd, hF] at h2
        exact ⟨(sectionsOk_next hsize hin).mp h2.1, h2.2⟩
      · obtain ⟨⟨he, hn⟩, j, hj, hok, ht, hm2⟩ := h2
        rw [hs, hd, hF] at ht
        rw [hm] at hm2
        exact ⟨⟨he, fun hn' => hn ((sectionsOk_next hsize hin).mpr hn')⟩, j + 1, Nat.succ_lt_succ hj,
          (sectionsOk_next hsize hin).mp hok, ht, hm2⟩
    · obtain ⟨rfl, he, hn⟩ := h1
      refine ⟨⟨he, fun hn' => hn (sectionsOk_first hn')⟩, 0, Nat.succ_pos n, fun h => absurd h (Nat.lt_irrefl 0), ?_, rfl⟩
      rw [hF0]

/-- The state after `n` sections were loaded to WRAM. -/
def loadedWram (d q n : Nat) (s : St) : St :=
  { s with wram := blit s.wram d s.mram q (512 * n), trace := loadTrace .toWram d q n ++ s.trace }

def loadedIram (d q n : Nat) (s : St) : St :=
  { s with iram := blit s.iram d s.mram q (512 * n), trace := loadTrace .toIram d q n ++ s.trace }

theorem blit_zero {m src : Nat → Word} {d s : Nat} : blit m d src s 0 = m := funext fun _ => blit_out (by omega)

theorem loadTrace_next {ev : Nat → Nat → Event} {d q n : Nat} {l : List Event} :
    loadTrace ev (d + 512) (q + 512) n ++ (loadTrace ev d q 1 ++ l) = loadTrace ev d q (n + 1) ++ l := by
  simp only [loadTrace, List.nil_append, List.append_assoc]

theorem clwLoop_spec (n : Nat) (r0 r1 : Word) (s : St) :
    wp (clwLoop n r0 r1)
      (fun _ s' => SectionsOk wramWords r0 r1 n ∧ s' = loadedWram (wramAt r0) (mramAt r1) n s)
      (fun e s' => (e = .mem ∧ ¬ SectionsOk wramWords r0 r1 n) ∧ ∃ j < n, SectionsOk wramWords r0 r1 j ∧
        s'.trace = loadTrace .toWram (wramAt r0) (mramAt r1) j ++ s.trace ∧ s'.mram = s.mram) s := by
  refine sections_spec loadedWram le_rfl (fun d q s => ?_) (fun d q n s => ?_) (fun _ _ _ _ => rfl)
    (fun dst src s => ?_) n r0 r1 s
  · simp only [loadedWram, Nat.mul_zero, blit_zero, loadTrace, List.nil_append]
  · simp only [loadedWram, loadTrace_next, Nat.mul_one, blit_blit]
    rw [show 512 + 512 * n = 512 * (n + 1) by omega]
  · rw [wp_bind, wp_ldma]
    exact ⟨fun h => ⟨h, rfl⟩, fun h => ⟨rfl, rfl, h⟩⟩

theorem clsTable_spec (n : Nat) (r20 r21 : Word) (s : St) :
    wp (clsTable n r20 r21)
      (fun _ s' => SectionsOk iramWords r20 r21 n ∧ s' = loadedIram (wramAt r20) (mramAt r21) n s)
      (fun e s' => (e = .mem ∧ ¬ SectionsOk iramWords r20 r21 n) ∧ ∃ j < n, SectionsOk iramWords r20 r21 j ∧
        s'.trace = loadTrace .toIram (wramAt r20) (mramAt r21) j ++ s.trace ∧ s'.mram = s.mram) s := by
  refine sections_spec loadedIram (by decide) (fun d q s => ?_) (fun d q n s => ?_) (fun _ _ _ _ => rfl)
    (fun dst src s => ?_) n r20 r21 s
  · simp only [loadedIram, Nat.mul_zero, blit_zero, loadTrace, List.nil_append]
  · simp only [loadedIram, loadTrace_next, Nat.mul_one, blit_blit]
    rw [show 512 + 512 * n = 512 * (n + 1) by omega]
  · rw [wp_bind, wp_ldmai]
    exact ⟨fun h => ⟨h, rfl⟩, fun h => ⟨rfl, rfl, h⟩⟩

/-- Where `ime_load_wram` takes the data to begin. -/
def dataStart (m : Nat → Word) (sk : Word) : Word :=
  ((headerAt m (mramAt sk)).textSize <<< 11) + 64 + sk

structure WramOk (m : Nat → Word) (sk : Word) : Prop where
  magic : (headerAt m (mramAt sk)).magic = 0xA5A5A5A5
  data : SectionsOk wramWords 0 (dataStart m sk) (headerAt m (mramAt sk)).dataSize.toNat

/-- The state after `ime_load_wram`: the header is at 0 first, and is
overwritten by the data that there is. -/
def wramLoaded (sk : Word) (s : St) : St :=
  loadedWram 0 (mramAt (dataStart s.mram sk)) (headerAt s.mram (mramAt sk)).dataSize.toNat
    { s with wram := blit s.wram 0 s.mram (mramAt sk) 16 }

theorem xor_eq_zero {x y : Word} : x ^^^ y = 0 ↔ x = y := BitVec.xor_eq_zero_iff

theorem imeLoadWram_spec {sk : Word} {s : St} (h16 : InMram sk 16) :
    wp (imeLoadWram sk) (fun _ s' => WramOk s.mram sk ∧ s' = wramLoaded sk s)
      (fun e s' => s'.mram = s.mram ∧
        (e = .sanity ∧ (headerAt s.mram (mramAt sk)).magic ≠ 0xA5A5A5A5 ∧ s'.trace = s.trace ∨
          e = .mem ∧ (headerAt s.mram (mramAt sk)).magic = 0xA5A5A5A5 ∧
          ¬ SectionsOk wramWords 0 (dataStart s.mram sk) (headerAt s.mram (mramAt sk)).dataSize.toNat ∧
          ∃ j < (headerAt s.mram (mramAt sk)).dataSize.toNat, SectionsOk wramWords 0 (dataStart s.mram sk) j ∧
            s'.trace = loadTrace .toWram 0 (mramAt (dataStart s.mram sk)) j ++ s.trace)) s := by
  have hread : ∀ i < 16, blit s.wram 0 s.mram (mramAt sk) 16 i = s.mram (mramAt sk + i) := fun i hi =>
    blit_in (Nat.zero_le i) (by omega)
  rw [imeLoadWram, wp_bind, wp_ldma]
  refine ⟨fun _ => ?_, fun hn => (hn ⟨h16, by decide⟩).elim⟩
  rw [wp_bind]
  refine wp_lw_of (by decide) ?_
  change wp (ite (blit s.wram 0 s.mram (mramAt sk) 16 0 ^^^ _ ≠ 0) _ _) _ _ _
  rw [hread 0 (by decide), wp_ite]
  refine ⟨fun hne => wp_bind.mpr ?_, fun heq => wp_bind.mpr (wp_lw_of (by decide) (wp_bind.mpr
    (wp_lw_of (by decide) ?_)))⟩
  · have hne : (headerAt s.mram (mramAt sk)).magic ≠ 0xA5A5A5A5 := fun he => hne (xor_eq_zero.mpr he)
    exact ⟨rfl, .inl ⟨rfl, hne, rfl⟩⟩
  · have hmagic : (headerAt s.mram (mramAt sk)).magic = 0xA5A5A5A5 := xor_eq_zero.mp (not_not.mp heq)
    change wp (clwLoop (blit s.wram 0 s.mram (mramAt sk) 16 11).toNat 0
      (blit s.wram 0 s.mram (mramAt sk) 16 10 <<< 11 + 64 + sk)) _ _ _
    rw [hread 10 (by decide), hread 11 (by decide)]
    refine (clwLoop_spec _ 0 _ _).mono (fun _ s' h => ⟨⟨hmagic, h.1⟩, h.2⟩) fun e s' h => ?_
    obtain ⟨⟨he, hn⟩, j, hj, hok, ht, hm⟩ := h
    exact ⟨hm, .inr ⟨he, hmagic, hn, j, hj, hok, ht⟩⟩

/-- `text_size` as `ime_load_iram` takes it, and the sections there is room
for. -/
structure IramOk (m : Nat → Word) (sk : Word) : Prop where
  lo : 0 < (headerAt m (mramAt sk)).textSize.toNat
  hi : (headerAt m (mramAt sk)).textSize.toNat < 16
  text : SectionsOk iramWords userStart (sk + 64) (headerAt m (mramAt sk)).textSize.toNat

def iramLoaded (sk : Word) (s : St) : St :=
  loadedIram (wramAt userStart) (mramAt sk + 16) (headerAt s.mram (mramAt sk)).textSize.toNat s

theorem mask_eq_zero {t : Word} : t &&& 0xFFFFFFF0 = 0 ↔ t.toNat < 16 := by
  have hm : (0xFFFFFFF0 : Word).toNat = 2 ^ 4 * (2 ^ 28 - 1) := by decide
  have hlt := word_lt t
  rw [← BitVec.toNat_inj, BitVec.toNat_and, hm, and_high (by omega), show (0 : Word).toNat = 0 from rfl]
  omega

/-- The jump into the table. -/
theorem table_entry {t : Word} (h0 : 0 < t.toNat) (h : t.toNat < 16) :
    15 - ((15 - t) <<< 2).toNat / 4 = t.toNat := by
  have h15 : (15 : Word).toNat = 15 := rfl
  rw [BitVec.toNat_shiftLeft, Nat.shiftLeft_eq, BitVec.toNat_sub, h15]
  omega

theorem imeLoadIram_spec {sk : Word} {s : St} (h16 : InMram sk 16) :
    wp (imeLoadIram userStart sk) (fun r0 s' => IramOk s.mram sk ∧ r0 = sk ∧ s' = iramLoaded sk s)
      (fun e s' => s'.mram = s.mram ∧
        (e = .sec ∧ ((headerAt s.mram (mramAt sk)).textSize.toNat = 0 ∨
            16 ≤ (headerAt s.mram (mramAt sk)).textSize.toNat) ∧ s'.trace = s.trace ∨
          e = .mem ∧ (headerAt s.mram (mramAt sk)).textSize.toNat < 16 ∧
          ¬ SectionsOk iramWords userStart (sk + 64) (headerAt s.mram (mramAt sk)).textSize.toNat ∧
          ∃ j < (headerAt s.mram (mramAt sk)).textSize.toNat, SectionsOk iramWords userStart (sk + 64) j ∧
            s'.trace = loadTrace .toIram (wramAt userStart) (mramAt sk + 16) j ++ s.trace)) s := by
  have hw0 : IsWord 0 := by decide
  have hw4 : IsWord 4 := by decide
  have h40 : mramAt (sk + 40) = mramAt sk + 10 := mramAt_add_lt (i := 5) h16 (by decide)
  have h64 : sk + 40 + 24 = sk + 64 := by rw [BitVec.add_assoc]; rfl
  have hsk : sk + 64 + (-64) = sk := by rw [BitVec.add_assoc]; exact BitVec.add_zero sk
  have hat : mramAt (sk + 64) = mramAt sk + 16 := mramAt_add_lt (i := 8) h16 (by decide)
  simp only [imeLoadIram, wp_bind]
  set t := (headerAt s.mram (mramAt sk)).textSize with ht
  refine wp_lw_of hw0 (wp_lw_of hw4 (wp_ldma.mpr ⟨fun _ => ?_, fun hn => (hn ⟨?_, by decide⟩).elim⟩))
  swap
  · unfold InMram at *
    omega
  have hr2 : blit s.wram (wramAt 0) s.mram (mramAt (sk + 40)) (2 * 1) ((0 : Word).toNat / 4) = t := by
    rw [blit_in (by decide) (by decide), h40]
    rfl
  refine wp_lw_eq hw0 hr2 ?_
  rw [h64, hsk]
  refine wp_sw_of hw0 (wp_sw_of hw4 ?_)
  -- the two words at 0 are as before
  have hs : { s with wram := Function.update (Function.update
      (blit s.wram (wramAt 0) s.mram (mramAt (sk + 40)) (2 * 1)) 0 (s.wram 0)) 1 (s.wram 1) } = s := by
    rw [update_two fun k hk => blit_out (.inr hk)]
  change wp _ _ _ { s with wram := Function.update (Function.update
    (blit s.wram (wramAt 0) s.mram (mramAt (sk + 40)) (2 * 1)) 0 (s.wram 0)) 1 (s.wram 1) }
  rw [hs, wp_ite]
  refine ⟨fun h0 => ?_, fun h0 => ?_⟩
  · refine wp_bind.mpr ⟨rfl, .inl ⟨rfl, .inl ?_, rfl⟩⟩
    rw [h0]
    rfl
  rw [wp_ite]
  refine ⟨fun h1 => wp_bind.mpr ⟨rfl, .inl ⟨rfl, .inr ?_, rfl⟩⟩, fun h1 => ?_⟩
  · by_contra hlt
    exact h1 (mask_eq_zero.mpr (Nat.lt_of_not_le hlt))
  have hlo : 0 < t.toNat := Nat.pos_of_ne_zero fun he => h0 (BitVec.eq_of_toNat_eq he)
  have hhi : t.toNat < 16 := mask_eq_zero.mp (not_not.mp h1)
  rw [wp_bind, table_entry hlo hhi]
  refine (clsTable_spec _ userStart (sk + 64) s).mono (fun _ s' h => wp_pure.mpr ?_) fun e s' h => ?_
  · refine ⟨⟨hlo, hhi, h.1⟩, rfl, ?_⟩
    rw [h.2, hat]
    rfl
  · rw [hat] at h
    obtain ⟨⟨he, hn⟩, j, hj, hok, ht', hm⟩ := h
    exact ⟨hm, .inr ⟨he, hhi, hn, j, hj, hok, ht'⟩⟩

/-! ## From the scan on -/

/-- `ime_replace_sk` from the scan on. -/
def loadTail (f : Frames) (sk : Word) : Prog Unit := do
  imeScanSk f sk
  let r0 ← lw canaryAt
  if r0 ^^^ canary ≠ 0 then throw .sec
  imeLoadWram sk
  let r0 ← imeLoadIram userStart sk
  imePopSk r0

/-- What the tail of a load needs to get through. -/
structure TailOk (m : Nat → Word) (sk : Word) : Prop where
  scan : ScanOk m sk
  wram : WramOk m sk
  iram : IramOk m sk
  pop : SkCopyOk m scratchA sk

def textTrace (m : Nat → Word) (sk : Word) : List Event := scanTrace m (mramAt sk) (textLen m (mramAt sk))

/-- What the loading of `n` sections of data, and then of `t` of text, adds
to it. -/
def sectionTrace (m : Nat → Word) (sk : Word) (n t : Nat) : List Event :=
  loadTrace .toIram (wramAt userStart) (mramAt sk + 16) t ++
    (loadTrace .toWram 0 (mramAt (dataStart m sk)) n ++ textTrace m sk)

/-- How it ends that does not, with what it has added to the trace. -/
inductive TailFault (m : Nat → Word) (sk : Word) : Fault → List Event → Prop
  | scan {e l} : ScanFault m sk e → (∀ ev ∈ l, ∃ x, ev = .scanned x) → TailFault m sk e l
  | magic : ScanOk m sk → (headerAt m (mramAt sk)).magic ≠ 0xA5A5A5A5 →
      TailFault m sk .sanity (sectionTrace m sk 0 0)
  | data {j} : ScanOk m sk → (headerAt m (mramAt sk)).magic = 0xA5A5A5A5 →
      j < (headerAt m (mramAt sk)).dataSize.toNat → SectionsOk wramWords 0 (dataStart m sk) j →
      ¬ SectionsOk wramWords 0 (dataStart m sk) (headerAt m (mramAt sk)).dataSize.toNat →
      TailFault m sk .mem (sectionTrace m sk j 0)
  | textSize : ScanOk m sk → WramOk m sk → (headerAt m (mramAt sk)).textSize.toNat = 0 ∨
      16 ≤ (headerAt m (mramAt sk)).textSize.toNat →
      TailFault m sk .sec (sectionTrace m sk (headerAt m (mramAt sk)).dataSize.toNat 0)
  | text {j} : ScanOk m sk → WramOk m sk → (headerAt m (mramAt sk)).textSize.toNat < 16 →
      j < (headerAt m (mramAt sk)).textSize.toNat → SectionsOk iramWords userStart (sk + 64) j →
      ¬ SectionsOk iramWords userStart (sk + 64) (headerAt m (mramAt sk)).textSize.toNat →
      TailFault m sk .mem (sectionTrace m sk (headerAt m (mramAt sk)).dataSize.toNat j)
  | pop : ScanOk m sk → WramOk m sk → IramOk m sk → ¬ SkCopyOk m scratchA sk →
      TailFault m sk .mem (sectionTrace m sk (headerAt m (mramAt sk)).dataSize.toNat
        (headerAt m (mramAt sk)).textSize.toNat)

theorem TailFault.not_ok {m : Nat → Word} {sk : Word} {e : Fault} {l : List Event} (h : TailFault m sk e l) :
    ¬ TailOk m sk := by
  intro hok
  cases h with
  | scan h => exact hok.scan.not_fault h
  | magic _ h => exact h hok.wram.magic
  | data _ _ _ _ h => exact h hok.wram.data
  | textSize _ _ h =>
    have := hok.iram.lo
    have := hok.iram.hi
    omega
  | text _ _ _ _ _ h => exact h hok.iram.text
  | pop _ _ _ h => exact h hok.pop

/-- What it leaves, if it gets through. -/
def tailLoaded (f : Frames) (sk : Word) (s : St) : St := {
  iramLoaded sk (wramLoaded sk (scanned f sk s)) with mram := copySk s.mram scratchA sk }

theorem loadTail_spec (f : Frames) {sk : Word} {s : St} (h16 : InMram sk 16) (hid : s.id = 0)
    (hcanary : s.wram (canaryAt.toNat / 4) = canary) :
    wp (loadTail f sk) (fun _ s' => TailOk s.mram sk ∧ s' = tailLoaded f sk s)
      (fun e s' => (e ≠ .mem → s'.mram = s.mram) ∧ ∃ l, s'.trace = l ++ s.trace ∧ TailFault s.mram sk e l) s := by
  rw [loadTail]
  refine wp.bind (imeScanSk_spec f h16 hid) (fun _ s1 h => ?_) fun e s1 h => ?_
  swap
  · obtain ⟨hm, ⟨l, hl, hall⟩, hf⟩ := h
    exact ⟨fun _ => hm, l, hl, .scan hf hall⟩
  obtain ⟨hscan, rfl⟩ := h
  rw [wp_bind]
  refine wp_lw_eq (by decide) hcanary ?_
  rw [wp_ite]
  refine ⟨fun hne => (hne (xor_eq_zero.mpr rfl)).elim, fun _ => ?_⟩
  refine wp.bind (imeLoadWram_spec h16) (fun _ s2 h => ?_) fun e s2 h => ?_
  swap
  · obtain ⟨hm, ⟨rfl, hne, ht⟩ | ⟨rfl, heq, hn, j, hj, hok, ht⟩⟩ := h
    · exact ⟨fun _ => hm, _, ht, .magic hscan hne⟩
    · refine ⟨fun _ => hm, _, ?_, .data hscan heq hj hok hn⟩
      rw [ht, sectionTrace, loadTrace, List.nil_append, List.append_assoc]
      rfl
  obtain ⟨hwram, rfl⟩ := h
  refine wp.bind (imeLoadIram_spec h16) (fun r0 s3 h => ?_) fun e s3 h => ?_
  swap
  · obtain ⟨hm, ⟨rfl, hn, ht⟩ | ⟨rfl, h16', hn, j, hj, hok, ht⟩⟩ := h
    · refine ⟨fun _ => hm, _, ?_, .textSize hscan hwram hn⟩
      rw [ht, sectionTrace, loadTrace, List.nil_append, List.append_assoc]
      rfl
    · refine ⟨fun _ => hm, _, ?_, .text hscan hwram h16' hj hok hn⟩
      rw [ht, sectionTrace, List.append_assoc, List.append_assoc]
      rfl
  obtain ⟨hiram, hr0, rfl⟩ := h
  rw [hr0]
  refine (imeCopySk_spec scratchA sk _).mono (fun _ s4 h => ⟨⟨hscan, hwram, hiram, h.1⟩, h.2⟩) fun e s4 h => ?_
  obtain ⟨⟨rfl, hn⟩, ht⟩ := h
  refine ⟨fun hne => (hne rfl).elim, _, ?_, .pop hscan hwram hiram hn⟩
  rw [ht, sectionTrace, List.append_assoc, List.append_assoc]
  rfl

/-! ## `ime_replace_sk` -/

/-- The state in which the copy aside is made and the subkernel is verified:
WRAM wiped, the canary set, and the stack in use. -/
def atVerify (f : Frames) (sk wipe : Word) (s : St) : St := { s with
  mram := copySk s.mram sk scratchA
  wram := stackUsed f (Function.update (fun k => if k < wiped wipe then 0 else s.wram k) 1023 canary) }

/-- MRAM once the subkernel is decrypted. -/
def plainMram (c : Crypto) (f : Frames) (sk key wipe : Word) (s : St) : Nat → Word :=
  decryptSk c (keyOf (atVerify f sk wipe s) key) (copySk s.mram sk scratchA) (mramAt sk)

/-- What the load needs not to fault for an address. -/
structure LoadRange (c : Crypto) (f : Frames) (sk tag key wipe : Word) (s : St) : Prop where
  wipeRange : WipeOk wipe
  push : SkCopyOk s.mram sk scratchA
  decrypt : DecryptRange (atVerify f sk wipe s) sk tag key
  scan : InMram sk (16 + 2 * textLen (plainMram c f sk key wipe s) (mramAt sk))
  data : SectionsOk wramWords 0 (dataStart (plainMram c f sk key wipe s) sk)
    (headerAt (plainMram c f sk key wipe s) (mramAt sk)).dataSize.toNat
  text : SectionsOk iramWords userStart (sk + 64)
    (headerAt (plainMram c f sk key wipe s) (mramAt sk)).textSize.toNat
  pop : SkCopyOk (plainMram c f sk key wipe s) scratchA sk

/-- The load gets as far as to decrypt. -/
structure Reached (c : Crypto) (f : Frames) (sk tag key wipe : Word) (s : St) : Prop where
  threads : ¬ ThreadRuns s
  wipeRange : WipeOk wipe
  push : SkCopyOk s.mram sk scratchA
  decrypt : DecryptOk c (atVerify f sk wipe s) sk tag key

/-- The load gets through to the jump. -/
structure LoadOk (c : Crypto) (f : Frames) (sk tag key wipe : Word) (s : St) : Prop
    extends Reached c f sk tag key wipe s where
  scan : ScanOk (plainMram c f sk key wipe s) sk
  wram : WramOk (plainMram c f sk key wipe s) sk
  iram : IramOk (plainMram c f sk key wipe s) sk
  pop : SkCopyOk (plainMram c f sk key wipe s) scratchA sk

/-- The state after the scan, with `w` what the verification left of WRAM. -/
def atLoad (c : Crypto) (f : Frames) (sk key wipe : Word) (w : Nat → Word) (s : St) : St :=
  scanned f sk { s with
    mram := plainMram c f sk key wipe s
    wram := w
    trace := verifyTrace (copySk s.mram sk scratchA) (mramAt sk) ++ s.trace }

/-- The state at the jump. -/
def loaded (c : Crypto) (f : Frames) (sk key wipe : Word) (w : Nat → Word) (s : St) : St := {
  iramLoaded sk (wramLoaded sk (atLoad c f sk key wipe w s)) with
  mram := copySk (plainMram c f sk key wipe s) scratchA sk }

theorem loaded_mram {c : Crypto} {f : Frames} {sk key wipe : Word} {w : Nat → Word} {s : St} :
    (loaded c f sk key wipe w s).mram = copySk (plainMram c f sk key wipe s) scratchA sk := rfl

/-- How a load ends that does not get through: in a fault of the DPU's own, or
in one that the code raises, with MRAM as it was at the start, after the push
or after the decryption. -/
def LoadFault (c : Crypto) (f : Frames) (sk tag key wipe : Word) (s : St) (e : Fault) (m : Nat → Word) : Prop :=
  e = .mem ∧ ¬ LoadRange c f sk tag key wipe s ∨
    e ≠ .mem ∧ (ThreadRuns s ∧ m = s.mram ∨
      ¬ ThreadRuns s ∧ SkCopyOk s.mram sk scratchA ∧ ¬ Reached c f sk tag key wipe s ∧ m = copySk s.mram sk scratchA ∨
      Reached c f sk tag key wipe s ∧ m = plainMram c f sk key wipe s)

/-- The state in which the scan begins, with `w` what the verification left of
WRAM. -/
def atScan (c : Crypto) (f : Frames) (sk key wipe : Word) (w : Nat → Word) (s : St) : St := { s with
  mram := plainMram c f sk key wipe s
  wram := w
  trace := verifyTrace (copySk s.mram sk scratchA) (mramAt sk) ++ s.trace }

/-- How a load ends that does not get as far as to decrypt. -/
def EarlyFault (sk tag key wipe : Word) (f : Frames) (s : St) (e : Fault) (m : Nat → Word) : Prop :=
  e = .mem ∧ (WipeOk wipe → SkCopyOk s.mram sk scratchA → ¬ DecryptRange (atVerify f sk wipe s) sk tag key) ∨
    e ≠ .mem ∧ (ThreadRuns s ∧ m = s.mram ∨
      ¬ ThreadRuns s ∧ SkCopyOk s.mram sk scratchA ∧ m = copySk s.mram sk scratchA)

/-- The rule for a load: what its tail does, and how it can end before that. -/
theorem imeReplaceSk_rule {c : Crypto} {f : Frames} {sk tag key wipe : Word} {s : St} {Q : Unit → St → Prop}
    {E : Fault → St → Prop}
    (hQ : ∀ w, Reached c f sk tag key wipe s → WramKept key (atVerify f sk wipe s).wram w →
      TailOk (plainMram c f sk key wipe s) sk → Q () (tailLoaded f sk (atScan c f sk key wipe w s)))
    (hlate : ∀ e l s', Reached c f sk tag key wipe s → TailFault (plainMram c f sk key wipe s) sk e l →
      s'.trace = l ++ (verifyTrace (copySk s.mram sk scratchA) (mramAt sk) ++ s.trace) →
      (e ≠ .mem → s'.mram = plainMram c f sk key wipe s) → E e s')
    (hearly : ∀ e s', ¬ Reached c f sk tag key wipe s → EarlyFault sk tag key wipe f s e s'.mram → E e s') :
    wp (imeReplaceSk c f sk tag key wipe) Q E s := by
  rw [imeReplaceSk]
  refine wp.bind (imeCheckThreads_spec s) (fun _ s1 h => ?_) fun e s1 h => ?_
  swap
  · obtain ⟨rfl, ht, hs⟩ := h
    exact hearly _ _ (fun hr => hr.threads ht) (.inr ⟨by decide, .inl ⟨ht, by rw [hs]⟩⟩)
  obtain ⟨hthreads, hs1⟩ := h
  rw [hs1]
  refine wp.bind (imeWipeUser_spec wipe s) (fun _ s2 h => ?_) fun e s2 h => ?_
  swap
  · exact hearly _ _ (fun hr => h.2.1 hr.wipeRange) (.inl ⟨h.1, fun hw => (h.2.1 hw).elim⟩)
  obtain ⟨hwipe, hs2⟩ := h
  rw [hs2]
  refine wp.bind (imeCopySk_spec sk scratchA _) (fun _ s3 h => ?_) fun e s3 h => ?_
  swap
  · exact hearly _ _ (fun hr => h.1.2 hr.push) (.inl ⟨h.1.1, fun _ hp => (h.1.2 hp).elim⟩)
  obtain ⟨hpush, hs3⟩ := h
  rw [hs3, wp_bind]
  refine wp_sw_of (by decide) ?_
  refine wp.bind (imeDecryptSk_spec c f sk tag key _) (fun _ s4 h => ?_) fun e s4 h => ?_
  swap
  · obtain ⟨hm, hn, he⟩ := h
    refine hearly _ _ (fun hr => hn hr.decrypt) ?_
    by_cases hmem : e = .mem
    · exact .inl ⟨hmem, fun _ _ => he hmem⟩
    · exact .inr ⟨hmem, .inr ⟨hthreads, hpush, hm⟩⟩
  obtain ⟨hdec, hm4, hw4, hs4⟩ := h
  have hreached : Reached c f sk tag key wipe s := ⟨hthreads, hwipe, hpush, hdec⟩
  have h16 := fedOk_header hdec.fed
  have hm : s4.mram = plainMram c f sk key wipe s := hm4
  have hs4' : s4 = atScan c f sk key wipe s4.wram s := by
    rw [atScan, ← hm]
    exact hs4
  -- the canary: the verification does not come near it
  have hcanary : s4.wram (canaryAt.toNat / 4) = canary := hw4 1023 fun _ => by decide
  have hid : s4.id = 0 := by
    rw [hs4]
    exact hdec.system
  change wp (loadTail f sk) Q E s4
  refine (loadTail_spec f h16 hid hcanary).mono (fun _ s5 h => ?_) fun e s5 h => ?_
  · rw [hm] at h
    rw [h.2, hs4']
    exact hQ _ hreached hw4 h.1
  · obtain ⟨hm5, l, hl, hf⟩ := h
    rw [hm] at hm5 hf
    refine hlate e l s5 hreached hf ?_ hm5
    rw [hl, hs4']
    rfl

theorem imeReplaceSk_spec (c : Crypto) (f : Frames) (sk tag key wipe : Word) (s : St) :
    wp (imeReplaceSk c f sk tag key wipe)
      (fun _ s' => LoadOk c f sk tag key wipe s ∧
        ∃ w, WramKept key (atVerify f sk wipe s).wram w ∧ s' = loaded c f sk key wipe w s)
      (fun e s' => ¬ LoadOk c f sk tag key wipe s ∧ LoadFault c f sk tag key wipe s e s'.mram) s := by
  refine imeReplaceSk_rule (fun w hr hw ht => ?_) (fun e l s' hr hf _ hm => ?_) fun e s' hn hf => ?_
  · exact ⟨⟨hr, ht.scan, ht.wram, ht.iram, ht.pop⟩, w, hw, rfl⟩
  · refine ⟨fun hl => hf.not_ok ⟨hl.scan, hl.wram, hl.iram, hl.pop⟩, ?_⟩
    by_cases hmem : e = .mem
    · refine .inl ⟨hmem, fun hr' => ?_⟩
      subst hmem
      cases hf with
      | scan h =>
        rcases h with ⟨-, h, -⟩ | ⟨h, -⟩
        · exact h hr'.scan
        · cases h
      | data _ _ _ _ h => exact h hr'.data
      | text _ _ _ _ _ h => exact h hr'.text
      | pop _ _ _ h => exact h hr'.pop
    · exact .inr ⟨hmem, .inr (.inr ⟨hr, hm hmem⟩)⟩
  · refine ⟨fun hl => hn hl.toReached, ?_⟩
    rcases hf with ⟨he, h⟩ | ⟨he, ⟨ht, hm⟩ | ⟨ht, hp, hm⟩⟩
    · exact .inl ⟨he, fun hr => h hr.wipeRange hr.push hr.decrypt⟩
    · exact .inr ⟨he, .inl ⟨ht, hm⟩⟩
    · exact .inr ⟨he, .inr (.inl ⟨ht, hp, hn, hm⟩)⟩

theorem LoadOk.run {c : Crypto} {f : Frames} {sk tag key wipe : Word} {s : St}
    (h : LoadOk c f sk tag key wipe s) : ∃ s', imeReplaceSk c f sk tag key wipe s = .ok () s' := by
  have hno : wp (imeReplaceSk c f sk tag key wipe) (fun _ _ => True) (fun _ _ => False) s :=
    (imeReplaceSk_spec c f sk tag key wipe s).mono (fun _ _ _ => trivial) fun _ _ he => he.1 h
  obtain ⟨_, s', hs', -⟩ := hno.total
  exact ⟨s', hs'⟩

end Memclave.Loader
