/-
An image of the packer in the loader: `ime_replace_sk` with the key of the
call accepts it and puts text and data where they belong (`packed_loads`).

The library is RFC 8439 over the block function and the MAC of the core. The
loader's additional data and ciphertext are the packer's (`aadOf_image`,
`cipherOf_image`), so the tag is right, and once decrypted the memory holds the
bytes of the object (`decrypted_stored`).
-/
import Memclave.PackerFacts
import Memclave.SealFacts
import Memclave.Image

namespace Memclave.Packer

open Words Aead Copy Loader

variable {sk : SubKernel} {key iv ct : Bytes} {c : Crypto} {m : Nat → Word} {p : Nat}

/-! ## An image in memory -/

/-- The first 64 bytes. -/
def SubKernel.header (sk : SubKernel) : Bytes :=
  magic ++ (sk.mac ++ (sk.iv ++ (field sk.sizeAad ++ (field sk.size ++ (field sk.textSize ++ (field sk.dataSize ++ zeros 16))))))

/-- The sections are whole. -/
structure SubKernel.Packed (sk : SubKernel) : Prop extends sk.Ok where
  text_length : sk.text.length = 2048 * sk.textSize
  data_length : sk.data.length = 2048 * sk.dataSize
  aad_mod : sk.sizeAad % 64 = 0

theorem padded_mod (b : Bytes) : (padded b).length % 2048 = 0 := by
  unfold padded
  split
  · rw [List.length_append, zeros_length]
    omega
  · omega

theorem init_packed {text data : Bytes} {enc_text enc_data : Bool}
    (h : SubKernel.init text data enc_text enc_data = .ok sk) :
    sk.Packed ∧ sk.text = padded text ∧ sk.data = padded data ∧ sk.mac = zeros 16 ∧ sk.iv = zeros 12 := by
  have hok := init_ok h
  unfold SubKernel.init at h
  split at h
  · exact nomatch h
  · obtain rfl := Except.ok.inj h
    have ht := padded_mod text
    have hd := padded_mod data
    refine ⟨⟨hok, ?_, ?_, ?_⟩, rfl, rfl, rfl, rfl⟩
    · dsimp only
      omega
    · dsimp only
      omega
    · dsimp only
      split <;> split <;> omega

theorem header_length (h : sk.Ok) : sk.header.length = 64 := by
  simp [SubKernel.header, magic, h.mac_length, h.iv_length]

theorem image_header : sk.image = sk.header ++ (sk.text ++ sk.data) := by
  simp only [SubKernel.image, SubKernel.rest, SubKernel.header, List.append_assoc]

theorem aad_header (h : sk.Ok) : sk.aad = sk.header ++ (sk.text ++ sk.data).take (sk.sizeAad - 64) := by
  have hlen := header_length h
  have hge := h.aad_ge
  rw [SubKernel.aad, image_header, take_past (by omega), hlen]

theorem stored_field {n : Nat} (h : Stored m p (field n)) : m p = BitVec.ofNat 32 n := by
  have h0 := h 0 (by rw [field_length]; decide)
  have hw : (wordsOf (field n)).getD 0 0 = BitVec.ofNat 32 n := by
    rw [field, wordsOf_bytesOf]
    rfl
  rwa [wordsOf_getD (by rw [field_length]; decide), ← h0] at hw

/-- What the loader reads as the header. -/
theorem headerAt_stored (h : sk.Ok) (hs : Stored m p sk.header) : headerAt m p =
    ⟨0xA5A5A5A5, fun i => wordLE sk.mac (4 * i), nonceWords sk.iv, BitVec.ofNat 32 sk.sizeAad, BitVec.ofNat 32 sk.size,
      BitVec.ofNat 32 sk.textSize, BitVec.ofNat 32 sk.dataSize⟩ := by
  have hm := h.mac_length
  have hi := h.iv_length
  have h4 : ∀ n, (field n).length / 4 = 1 := fun n => by rw [field_length]
  have hf : ∀ n, (field n).length % 4 = 0 := fun n => by rw [field_length]
  obtain ⟨hmagic, hs⟩ := (stored_append (by decide)).mp hs
  obtain ⟨hmac, hs⟩ := (stored_append (by rw [hm])).mp hs
  obtain ⟨hiv, hs⟩ := (stored_append (by rw [hi])).mp hs
  obtain ⟨haad, hs⟩ := (stored_append (hf _)).mp hs
  obtain ⟨hsize, hs⟩ := (stored_append (hf _)).mp hs
  obtain ⟨htext, hs⟩ := (stored_append (hf _)).mp hs
  obtain ⟨hdata, -⟩ := (stored_append (hf _)).mp hs
  have hpos : magic.length / 4 = 1 := rfl
  simp only [hm, hi, h4, hpos, Nat.add_assoc] at hmac hiv haad hsize htext hdata
  refine headerAt_eq (hmagic 0 (by decide)) (fun i => ?_) (fun i => ?_) (stored_field haad) (stored_field hsize)
    (stored_field htext) (stored_field hdata)
  · rw [Nat.add_comm i.val, ← Nat.add_assoc]
    exact hmac i (by omega)
  · rw [Nat.add_comm i.val, ← Nat.add_assoc]
    exact hiv i (by omega)

theorem aad_length (h : sk.Ok) : sk.aad.length = sk.sizeAad := by
  rw [SubKernel.aad, List.length_take, image_length h]
  exact Nat.min_eq_left h.aad_le

theorem plain_length (h : sk.Ok) : sk.plain.length = sk.size - sk.sizeAad := by
  rw [SubKernel.plain, List.length_drop, image_length h]

theorem SubKernel.Packed.size_mod (h : sk.Packed) : sk.size % 64 = 0 := by
  have ht := h.text_length
  have hd := h.data_length
  rw [h.size_eq]
  omega

section

variable (h : sk.Packed) (hf : sk.Fits) (hs : Stored m p (sk.aad ++ ct))

include h hs

theorem stored_aad : Stored m p sk.aad ∧ Stored m (p + sk.sizeAad / 4) ct := by
  have hlen := aad_length h.toOk
  have hmod := h.aad_mod
  have hboth := (stored_append (by omega)).mp hs
  rwa [hlen] at hboth

theorem stored_header : Stored m p sk.header := by
  have haad := (stored_aad h hs).1
  rw [aad_header h.toOk] at haad
  exact ((stored_append (by rw [header_length h.toOk])).mp haad).1

/-- The words after the mac and the iv. -/
theorem cells_sizes : cells m (p + 8) (sk.sizeAad / 4 - 8) =
    wordsOf (field sk.sizeAad ++ sk.rest.take (sk.sizeAad - 36)) := by
  have haad := (stored_aad h hs).1
  have hlen := aad_length h.toOk
  have hmod := h.aad_mod
  have hge := h.aad_ge
  have hmac := h.mac_length
  have hiv := h.iv_length
  have hmagic : magic.length = 4 := rfl
  rw [aad_eq h.toOk] at haad hlen
  simp only [List.length_append, hmac, hiv, hmagic] at hlen
  obtain ⟨-, haad⟩ := (stored_append (by rw [hmagic])).mp haad
  obtain ⟨-, haad⟩ := (stored_append (by rw [hmac])).mp haad
  obtain ⟨-, haad⟩ := (stored_append (by rw [hiv])).mp haad
  simp only [hmac, hiv, hmagic, Nat.add_assoc] at haad
  have hcells := (stored_iff_cells (by rw [List.length_append]; omega)).mp haad
  rw [← hcells, List.length_append]
  congr 1
  omega

include hf

theorem header_sizes : (headerAt m p).sizeAad.toNat = sk.sizeAad ∧ (headerAt m p).size.toNat = sk.size ∧
    (headerAt m p).textSize.toNat = sk.textSize ∧ (headerAt m p).dataSize.toNat = sk.dataSize := by
  obtain ⟨h1, h2, h3, h4⟩ := hf
  rw [headerAt_stored h.toOk (stored_header h hs)]
  simp only [BitVec.toNat_ofNat, Nat.mod_eq_of_lt h1, Nat.mod_eq_of_lt h2, Nat.mod_eq_of_lt h3, Nat.mod_eq_of_lt h4,
    and_self]

theorem sized : Sized (headerAt m p) := by
  obtain ⟨haad, hsize, -, -⟩ := header_sizes h hf hs
  refine ⟨?_, ?_, ?_, ?_⟩
  · rw [haad]
    exact h.aad_mod
  · rw [hsize]
    exact h.size_mod
  · rw [haad]
    exact h.aad_ge
  · rw [haad, hsize]
    exact h.aad_le

/-- The loader authenticates the header of a new object. -/
theorem aadOf_image : aadOf m p = wordsOf sk.cleared.aad := by
  have hzero : wordsOf (magic ++ (zeros 16 ++ zeros 12)) = [0xA5A5A5A5, 0, 0, 0, 0, 0, 0, 0] := by decide
  have hcleared : sk.cleared.aad = (magic ++ (zeros 16 ++ zeros 12)) ++
      (field sk.sizeAad ++ sk.rest.take (sk.sizeAad - 36)) := by
    rw [aad_eq (cleared_ok h.toOk)]
    simp only [List.append_assoc]
    rfl
  rw [aadOf, (header_sizes h hf hs).1, cells_sizes h hs, hcleared, wordsOf_append (b := magic ++ (zeros 16 ++ zeros 12)) (by decide), hzero]

/-- What it decrypts is the packer's ciphertext. -/
theorem cipherOf_image (hct : ct.length = sk.size - sk.sizeAad) : Loader.cipherOf m p = wordsOf ct := by
  obtain ⟨haad, hsize, -, -⟩ := header_sizes h hf hs
  have hmod := h.aad_mod
  have hmod' := h.size_mod
  have hcells := (stored_iff_cells (by omega)).mp (stored_aad h hs).2
  rw [Loader.cipherOf, haad, hsize, ← hcells, hct]
  congr 1
  omega

/-- **The tag of an image is the one the loader computes**, if it is that of
the header of a new object. -/
theorem macOf_image (hct : ct.length = sk.size - sk.sizeAad)
    (hmac : sk.mac = c.suite.tagBytes key sk.iv sk.cleared.aad ct) :
    macOf c (keyWords key) m p = (headerAt m p).tag := by
  have hal : sk.cleared.aad.length % 4 = 0 := by
    rw [aad_length (cleared_ok h.toOk)]
    have := h.aad_mod
    show sk.sizeAad % 4 = 0
    omega
  have hcl : ct.length % 4 = 0 := by
    have h1 := h.aad_mod
    have h2 := h.size_mod
    omega
  rw [macOf_tag (sized h hf hs), aadOf_image h hf hs, cipherOf_image h hf hs hct, headerAt_stored h.toOk (stored_header h hs)]
  funext i
  dsimp only
  rw [hmac, tagBytes_word hal hcl]

/-- **Once decrypted the memory holds the object.** -/
theorem decrypted_stored (hct : ct = c.suite.cryptBytes key sk.iv sk.plain) :
    Stored (decryptSk c (keyWords key) m p) p sk.image := by
  have hlen : ct.length = sk.size - sk.sizeAad := by rw [hct, cryptBytes_length, plain_length h.toOk]
  obtain ⟨haad, hsize, -, -⟩ := header_sizes h hf hs
  have hsz := sized h hf hs
  have hmod := h.aad_mod
  have hmod' := h.size_mod
  have hal := aad_length h.toOk
  have hpl := plain_length h.toOk
  have himg : sk.image = sk.aad ++ sk.plain := (List.take_append_drop _ _).symm
  rw [himg, stored_append (by omega), hal]
  refine ⟨fun i hi => ?_, ?_⟩
  · -- below the ciphertext nothing is decrypted
    rw [← (stored_aad h hs).1 i hi, decryptSk]
    exact decrypted_out (by omega)
  · have hcells : Loader.cipherOf (decryptSk c (keyWords key) m p) p =
        c.suite.crypt (keyWords key) 1 (headerAt m p).iv (Loader.cipherOf m p) := decryptSk_cells hsz
    have hhead : headerAt (decryptSk c (keyWords key) m p) p = headerAt m p := headerAt_congr fun k h1 h2 =>
      decrypted_out (by have := hsz.aad_pos; omega)
    have hplain : sk.plain = bytesOf (wordsOf sk.plain) := (bytesOf_wordsOf (by omega)).symm
    rw [cipherOf_image h hf hs hlen, hct, hplain, cryptBytes_bytesOf, wordsOf_bytesOf, Loader.cipherOf, hhead, haad, hsize,
      headerAt_stored h.toOk (stored_header h hs), crypt_crypt] at hcells
    rw [stored_iff_cells (by omega), hpl, ← hcells]
    congr 1
    omega

end

/-! ## Loading it -/

/-- The `i`-th 8-byte word of a text. -/
def instOf (b : Bytes) (i : Nat) : BitVec 64 := wordLE b (8 * i + 4) ++ wordLE b (8 * i)

/-- No word of the text is one that the scan refuses. -/
def Clean (b : Bytes) : Prop := ∀ i, 8 * i < b.length → banned (instOf b i) = false

theorem padded_getD (b : Bytes) (j : Nat) : (padded b).getD j 0 = b.getD j 0 := by
  unfold padded
  split
  next =>
    by_cases hj : j < b.length
    · rw [List.getD_append _ _ _ _ hj]
    · have hz : ∀ n k, (zeros n).getD k 0 = 0 := fun n k => by
        rw [zeros, List.getD_eq_getElem?_getD, List.getElem?_replicate]
        split <;> rfl
      rw [List.getD_append_right _ _ _ _ (Nat.le_of_not_lt hj), hz, List.getD_eq_default _ _ (Nat.le_of_not_lt hj)]
  next => rfl

/-- What the padding adds is nothing that the scan refuses. -/
theorem Clean.padded {b : Bytes} (h : Clean b) (i : Nat) : banned (instOf (padded b) i) = false := by
  have hword : ∀ j, wordLE (Packer.padded b) j = wordLE b j := fun j => by
    simp only [wordLE, padded_getD]
  rw [instOf, hword, hword]
  by_cases hi : 8 * i < b.length
  · exact h i hi
  · have hzero : ∀ j, 8 * i ≤ j → wordLE b j = 0 := fun j hj => by
      rw [wordLE, List.getD_eq_default _ _ (by omega), List.getD_eq_default _ _ (by omega),
        List.getD_eq_default _ _ (by omega), List.getD_eq_default _ _ (by omega)]
      rfl
    rw [hzero _ (by omega), hzero _ (by omega)]
    decide

theorem stored_blit {src : Nat → Word} {b : Bytes} {d q n : Nat} (hs : Stored src q b) (hn : b.length / 4 ≤ n) :
    Stored (blit m d src q n) d b := fun i hi => by
  rw [blit_in (Nat.le_add_right d i) (by omega), Nat.add_sub_cancel_left]
  exact hs i hi

/-- The image is in MRAM at `p`, clear of its copy in the slot. The last
three bits of an address do not matter to the DMA. -/
structure Placed (s : St) (p : Word) (img : Bytes) : Prop where
  stored : Stored s.mram (mramAt p) img
  inMram : InMram p (img.length / 4)
  disjoint : mramAt p + img.length / 4 ≤ slot ∨ slot + img.length / 4 ≤ mramAt p

/-- A tasklet 0 that may call `ime_replace_sk`, with pointers such that the
key it uses is `key`. -/
structure Ready (f : Frames) (p user_key wipe : Word) (key : Bytes) (s : St) : Prop where
  threads : ¬ ThreadRuns s
  system : s.id = 0
  wipeRange : WipeOk wipe
  chacha : ChachaOk s p user_key
  key : loadKey f p user_key wipe s = keyWords key

/-- What `crypt` makes of a new object. -/
theorem crypt_new {sk sk' : SubKernel} {img : Bytes} (h : sk.Packed) (hmac : sk.mac = zeros 16) (hiv0 : sk.iv = zeros 12)
    (hkey : key.length = 32) (hiv : iv.length = 12) (hr : sk.crypt (cipherOf c.suite) key (some iv) = .ok (img, sk')) :
    sk'.Packed ∧ sk'.Fits ∧ sk'.text = sk.text ∧ sk'.data = sk.data ∧
      img = sk'.aad ++ c.suite.cryptBytes key sk'.iv sk'.plain ∧
      sk'.mac = c.suite.tagBytes key sk'.iv sk'.cleared.aad (c.suite.cryptBytes key sk'.iv sk'.plain) := by
  have hC := cipherOf_correct c.suite
  obtain ⟨hf, rfl, rfl⟩ := (crypt_ok hC h.toOk hkey hiv).mp hr
  have hplain := plain_stamped hC h.toOk hkey hiv
  have hcleared : (sk.stamped (cipherOf c.suite) key iv).cleared = sk := by
    rw [SubKernel.cleared, ← hmac, ← hiv0]
    rfl
  refine ⟨⟨stamped_ok hC h.toOk hkey hiv, h.text_length, h.data_length, h.aad_mod⟩, hf, rfl, rfl, ?_, ?_⟩
  · rw [hplain]
    rfl
  · rw [hcleared, hplain]
    rfl

/-- The slot is large enough for what can be loaded. -/
theorem room (h : sk.Packed) (hhi : sk.textSize ≤ 12) (hdata : sk.dataSize ≤ 31) : slot + sk.size / 4 ≤ mramWords := by
  have htl := h.text_length
  have hdl := h.data_length
  have hslot : slot + 131072 = mramWords := by
    unfold slot
    decide
  rw [h.size_eq]
  omega

section

variable {f : Frames} {q user_key wipe : Word} {s : St}
variable (h : sk.Packed) (hf : sk.Fits) (hct : ct = c.suite.cryptBytes key sk.iv sk.plain)
  (hp : Placed s q (sk.aad ++ ct))

include h hct in
theorem image_size : (sk.aad ++ ct).length = sk.size := by
  have := h.aad_le
  rw [List.length_append, aad_length h.toOk, hct, cryptBytes_length, plain_length h.toOk]
  omega

include h hf hct hp

/-- The copy of the image does not come over it. -/
theorem apart (hroom : slot + sk.size / 4 ≤ mramWords) : Apart s.mram q (sk.size / 4) := by
  obtain ⟨haad, hsize, -, -⟩ := header_sizes h hf hp.stored
  have hin := hp.inMram
  have hdis := hp.disjoint
  have h1 := h.aad_ge
  have h2 := h.aad_le
  have h3 := h.size_mod
  rw [image_size h hct] at hin hdis
  refine ⟨by omega, hin, by rw [hsize], by omega, by omega, by rwa [hsize], by rwa [hsize]⟩

/-- The loader decrypts it to the object. -/
theorem plain_image (hroom : slot + sk.size / 4 ≤ mramWords) (hkey : loadKey f q user_key wipe s = keyWords key) :
    Stored (plainMram c f q user_key wipe s) (mramAt q) sk.image := fun i hi => by
  rw [image_length h.toOk] at hi
  rw [(apart h hf hct hp hroom).kept.plain (Nat.le_add_right _ i) (by omega), hkey]
  exact decrypted_stored h hf hp.stored hct i (by rwa [image_length h.toOk])

/-- The text of the object, and its data, where the loader takes them from. -/
theorem plain_sections (hroom : slot + sk.size / 4 ≤ mramWords) (hkey : loadKey f q user_key wipe s = keyWords key) :
    Stored (plainMram c f q user_key wipe s) (mramAt q + 16) sk.text ∧
      Stored (plainMram c f q user_key wipe s) (mramAt q + 16 + 512 * sk.textSize) sk.data := by
  have himg := plain_image h hf hct hp hroom hkey
  have hhl := header_length h.toOk
  have htl := h.text_length
  rw [image_header, stored_append (by rw [hhl]), hhl, stored_append (by omega), htl] at himg
  obtain ⟨-, htext, hdata⟩ := himg
  rw [show 2048 * sk.textSize / 4 = 512 * sk.textSize by omega] at hdata
  exact ⟨htext, hdata⟩

/-- **A load of the image gets through to the jump.** -/
theorem image_loadOk (hmac : sk.mac = c.suite.tagBytes key sk.iv sk.cleared.aad ct)
    (hlo : 1 ≤ sk.textSize) (hhi : sk.textSize ≤ 12) (hdata : sk.dataSize ≤ 31)
    (hclean : ∀ i, banned (instOf sk.text i) = false) (hr : Ready f q user_key wipe key s) :
    LoadOk c f q 0 user_key wipe s := by
  have htl := h.text_length
  have hdl := h.data_length
  have hse := h.size_eq
  have hroom := room h hhi hdata
  have hap := apart h hf hct hp hroom
  obtain ⟨haad, hsize, htext, hdat⟩ := header_sizes h hf hp.stored
  have hcl : ct.length = sk.size - sk.sizeAad := by rw [hct, cryptBytes_length, plain_length h.toOk]
  have hle := h.aad_le
  have hge := h.aad_ge
  have hreached : Reached c f q 0 user_key wipe s := by
    refine hap.kept.reached hr.threads hr.system hr.wipeRange hr.chacha ?_ ?_
    · rw [fedEnd, haad, hsize]
      omega
    · rw [hr.key]
      exact macOf_image h hf hp.stored hcl hmac
  refine hap.kept.loadOk hreached (by rwa [haad]) ?_ (by omega) (by omega) (by omega) (by omega) ?_
    (hap.pop (by omega))
  · rw [headerAt_stored h.toOk (stored_header h hp.stored)]
  · intro x hx
    obtain ⟨j, hj, rfl⟩ := List.mem_map.mp hx
    have hj := List.mem_range.mp hj
    rw [textLen, htext] at hj
    have hword : ∀ k < 512 * sk.textSize,
        decryptSk c (loadKey f q user_key wipe s) s.mram (mramAt q) (mramAt q + 16 + k) = wordLE sk.text (4 * k) := by
      intro k hk
      rw [← hap.kept.plain (by omega) (by omega)]
      exact (plain_sections h hf hct hp hroom hr.key).1 k (by omega)
    rw [instAt, Nat.add_assoc (mramAt q + 16), hword _ (by omega), hword _ (by omega),
      show 4 * (2 * j + 1) = 8 * j + 4 by omega, show 4 * (2 * j) = 8 * j by omega]
    exact hclean j

/-- **What it installs.** -/
theorem image_loads (hmac : sk.mac = c.suite.tagBytes key sk.iv sk.cleared.aad ct)
    (hlo : 1 ≤ sk.textSize) (hhi : sk.textSize ≤ 12) (hdata : sk.dataSize ≤ 31)
    (hclean : ∀ i, banned (instOf sk.text i) = false) (hr : Ready f q user_key wipe key s) :
    ∃ s', imeReplaceSk c f q 0 user_key wipe s = .ok () s' ∧
      Stored s'.iram 2048 sk.text ∧ Stored s'.wram 0 sk.data := by
  have hok := image_loadOk h hf hct hp hmac hlo hhi hdata hclean hr
  obtain ⟨s', hrun⟩ := hok.run
  obtain ⟨-, w, -, rfl⟩ := (imeReplaceSk_spec c f q 0 user_key wipe s).ok hrun
  refine ⟨_, hrun, ?_⟩
  have htl := h.text_length
  have hdl := h.data_length
  have hse := h.size_eq
  have hroom := room h hhi hdata
  have hap := apart h hf hct hp hroom
  obtain ⟨haad, hsize, htext, hdat⟩ := header_sizes h hf hp.stored
  have hhdr : headerAt (plainMram c f q user_key wipe s) (mramAt q) = headerAt s.mram (mramAt q) :=
    hap.kept.plainHeader (by rw [haad]; exact h.aad_ge)
  obtain ⟨hst, hsd⟩ := plain_sections h hf hct hp hroom hr.key
  have hstart := mramAt_dataStart (m := plainMram c f q user_key wipe s) (inMram_le hap.inMram hap.header) (by
    rw [hhdr, htext]
    omega)
  rw [hhdr, htext] at hstart
  constructor
  · refine stored_blit hst ?_
    show sk.text.length / 4 ≤ 512 * (headerAt (plainMram c f q user_key wipe s) (mramAt q)).textSize.toNat
    rw [hhdr, htext]
    omega
  · rw [← hstart] at hsd
    refine stored_blit hsd ?_
    show sk.data.length / 4 ≤ 512 * (headerAt (plainMram c f q user_key wipe s) (mramAt q)).dataSize.toNat
    rw [hhdr, hdat]
    omega

end

/-! ## The result -/

/-- **A packed subkernel loads**: `ime_replace_sk` with the key of `crypt`, on
the image of a new object, gets through to the jump, with the padded text in
IRAM from byte 8192 on and the padded data in WRAM from 0 on. -/
theorem packed_loads {text data : Bytes} {enc_text enc_data : Bool}
    (hsk : SubKernel.init text data enc_text enc_data = .ok sk) (hlo : 1 ≤ sk.textSize) (hhi : sk.textSize ≤ 12)
    (hdata : sk.dataSize ≤ 31) (hclean : Clean text) (hkey : key.length = 32) (hiv : iv.length = 12) :
    ∃ img sk', sk.crypt (cipherOf c.suite) key (some iv) = .ok (img, sk') ∧
      ∀ (f : Frames) (q user_key wipe : Word) (s : St), Placed s q img → Ready f q user_key wipe key s →
        ∃ s', imeReplaceSk c f q 0 user_key wipe s = .ok () s' ∧
          Stored s'.iram 2048 (padded text) ∧ Stored s'.wram 0 (padded data) := by
  obtain ⟨h, htext, hdat, hmac, hiv0⟩ := init_packed hsk
  have htl := h.text_length
  have hdl := h.data_length
  have hse := h.size_eq
  have hle := h.aad_le
  have hfits : sk.Fits := by
    unfold SubKernel.Fits
    omega
  have hr := (crypt_ok (cipherOf_correct c.suite) h.toOk hkey hiv).mpr ⟨hfits, rfl, rfl⟩
  obtain ⟨hpk, hf, htext', hdat', himg, htag⟩ := crypt_new h hmac hiv0 hkey hiv hr
  refine ⟨_, _, hr, fun f q user_key wipe s hp hready => ?_⟩
  rw [himg] at hp
  have hload := image_loads hpk hf rfl hp htag hlo hhi hdata (fun i => ?_) hready
  · rwa [htext', hdat', htext, hdat] at hload
  · rw [htext', htext]
    exact hclean.padded i

/-- One section of text and one of data, both encrypted. -/
def small : SubKernel := ⟨zeros 16, zeros 12, 64, 4160, 1, 1, 0 :: zeros 2047, 1 :: zeros 2047⟩

theorem init_small : SubKernel.init [0] [1] true true = .ok small := by
  have hpad : ∀ x : Byte, padded [x] = x :: zeros 2047 := fun _ => rfl
  have hlen : ∀ x : Byte, (x :: zeros 2047).length = 2048 := fun x => by rw [List.length_cons, zeros_length]
  simp only [SubKernel.init, hpad, hlen]
  rfl

theorem crypt_length {sk sk' : SubKernel} {img : Bytes} (h : sk.Packed) (hkey : key.length = 32) (hiv : iv.length = 12)
    (hr : sk.crypt (cipherOf c.suite) key (some iv) = .ok (img, sk')) : img.length = sk.size := by
  have hC := cipherOf_correct c.suite
  obtain ⟨-, rfl, rfl⟩ := (crypt_ok hC h.toOk hkey hiv).mp hr
  have hle := h.aad_le
  rw [List.length_append, aad_length (stamped_ok hC h.toOk hkey hiv), hC.text_length hkey hiv, plain_length h.toOk]
  exact Nat.add_sub_cancel' hle

theorem packed_loads_small : ∃ img sk' s', small.crypt (cipherOf core.suite) (zeros 32) (some mainIv) = .ok (img, sk') ∧
    imeReplaceSk core noFrames 0 0 0 0 (started fun k => wordLE img (4 * k)) = .ok () s' ∧
    Stored s'.iram 2048 (padded [0]) ∧ Stored s'.wram 0 (padded [1]) := by
  have hclean : Clean [0] := fun i hi => by
    obtain rfl : i = 0 := by
      rw [List.length_singleton] at hi
      omega
    decide
  obtain ⟨img, sk', hr, hload⟩ := packed_loads (c := core) init_small (by decide) (by decide)
    (by decide) hclean (zeros_length 32) (show mainIv.length = 12 from rfl)
  have hlen : img.length = 4160 := crypt_length (init_packed init_small).1 (by decide) (by decide) hr
  have h0 : mramAt 0 = 0 := by decide
  have hin : InMram 0 (img.length / 4) := by
    rw [hlen]
    decide
  have hplaced : Placed (started fun k => wordLE img (4 * k)) 0 img := by
    refine ⟨fun i _ => ?_, hin, .inl ?_⟩
    · rw [h0, Nat.zero_add]
      rfl
    · rw [h0, hlen]
      unfold slot
      decide
  have hready : Ready noFrames 0 0 0 (zeros 32) (started fun k => wordLE img (4 * k)) := by
    refine ⟨not_threadRuns_started, rfl, wipeOk_zero, chachaOk_started (by decide), ?_⟩
    rw [loadKey_started]
    have hzero : ∀ i : Fin 8, 0 = wordLE (zeros 32) (4 * i) := by decide
    exact funext hzero
  obtain ⟨s', hrun, ht, hd⟩ := hload noFrames 0 0 0 _ hplaced hready
  exact ⟨img, sk', s', hr, hrun, ht, hd⟩

end Memclave.Packer
