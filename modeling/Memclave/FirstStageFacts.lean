/-
`enc_sk` and the loader. The tag is that of the ciphertext, but the
ciphertext stays in a buffer: the loader takes the subkernel, and has its
plain text, if and only if the key stream leaves the text as it is
(`accepted_iff`), as it does where there is none to encrypt.
-/
import Memclave.FirstStage
import Memclave.SealFacts
import Memclave.Image

namespace Memclave.FirstStage

open Words Aead Copy Exec Loader

variable {M : ChachaPoly} {c : Crypto} {key iv buffer : Bytes} {m : Nat → Word} {p : Nat}

/-! ## The pieces -/

/-- The `n` pieces of 2048 bytes from byte `i` on. -/
def pieces (m : Nat → Word) (p i n : Nat) : List Bytes :=
  (List.range n).map fun j => bytesOf (cells m (p + i / 4 + 512 * j) 512)

theorem pieces_succ {i n : Nat} (hi : i % 8 = 0) :
    pieces m p i (n + 1) = bytesOf (cells m (p + 2 * (i / 8)) 512) :: pieces m p (i + 2048) n := by
  rw [pieces, List.range_succ_eq_map, List.map_cons, List.map_map]
  refine congrArg₂ (· :: ·) ?_ (List.map_congr_left fun j _ => ?_)
  · rw [show p + i / 4 + 512 * 0 = p + 2 * (i / 8) by omega]
  · rw [Function.comp_apply, show p + i / 4 + 512 * (j + 1) = p + (i + 2048) / 4 + 512 * j by omega]

/-- Together they are what is in memory. -/
theorem pieces_flatten : ∀ {i : Nat} (n : Nat), i % 8 = 0 →
    (pieces m p i n).flatten = bytesOf (cells m (p + i / 4) (512 * n))
  | _, 0, _ => rfl
  | i, n + 1, hi => by
    rw [pieces_succ hi, List.flatten_cons, pieces_flatten n (by omega), ← bytesOf_append, Nat.mul_succ,
      Nat.add_comm (512 * n), cells_add]
    congr 3
    · omega
    · omega

theorem mramRead_whole {k n : Nat} (h : buffer.length ≤ n) : mramRead m p k n buffer = bytesOf (cells m (p + 2 * k) (n / 4)) := by
  rw [mramRead, List.drop_of_length_le h, List.append_nil]

/-- **The loops feed the pieces**, whatever is in the buffer. -/
theorem forPieces_some {σ : Type} {f : σ → Bytes → Option (σ × Bytes)}
    (hf : ∀ {ctx b r}, f ctx b = some r → r.2.length = b.length) :
    ∀ {n i stop : Nat} {ctx ctx' : σ} {buffer : Bytes}, i % 8 = 0 → stop = i + 2048 * n → buffer.length = 2048 →
      (pieces m p i n).foldlM (fun ctx b => (f ctx b).map Prod.fst) ctx = some ctx' →
      ∃ buffer', buffer'.length = 2048 ∧ forPieces f m p stop i ctx buffer = some (ctx', buffer')
  | 0, i, stop, ctx, ctx', buffer, _, hstop, hlen, h => by
    obtain rfl := Option.some.inj h
    refine ⟨buffer, hlen, ?_⟩
    rw [forPieces, if_neg (by omega)]
    rfl
  | n + 1, i, stop, ctx, ctx', buffer, hi, hstop, hlen, h => by
    rw [pieces_succ hi, List.foldlM_cons] at h
    obtain ⟨ctx1, h1, h⟩ := Option.bind_eq_some_iff.mp h
    obtain ⟨⟨_, b⟩, hfb, rfl⟩ := Option.map_eq_some_iff.mp h1
    have hb : b.length = 2048 := by rw [hf hfb, bytesOf_length, cells_length]
    obtain ⟨buffer', hl, hrest⟩ := forPieces_some hf (by omega) (show stop = i + 2048 + 2048 * n by omega) hb h
    refine ⟨buffer', hl, ?_⟩
    have hsz : (if stop - i < 2048 then stop - i else 2048) = 2048 := if_neg (by omega)
    rw [forPieces, if_pos (by omega)]
    dsimp only
    rw [hsz, mramRead_whole hlen.le, hfb]
    exact hrest

/-! ## What `enc_sk` leaves -/

/-- The tag of the ciphertext, with the header of a new object. -/
def sealTag (c : Crypto) (key iv : Bytes) (m : Nat → Word) (p : Nat) : Bytes :=
  c.suite.tagBytes key iv (bytesOf (aadOf m p)) (c.suite.cryptBytes key iv (bytesOf (cipherOf m p)))

/-- Memory with a tag and an iv in the header. -/
def stamp (m : Nat → Word) (p : Nat) (tag iv : Bytes) : Nat → Word :=
  put (put m (p + 1) fun i : Fin 4 => wordLE tag (4 * i)) (p + 5) fun i : Fin 3 => wordLE iv (4 * i)

theorem stamp_out {tag : Bytes} {k : Nat} (h : k < p + 1 ∨ p + 8 ≤ k) : stamp m p tag iv k = m k := by
  rw [stamp, put, dif_neg (by omega), put, dif_neg (by omega)]

theorem headerAt_stamp {tag : Bytes} : headerAt (stamp m p tag iv) p =
    { headerAt m p with tag := fun i => wordLE tag (4 * i), iv := nonceWords iv } := by
  have out : ∀ i, i = 0 ∨ 8 ≤ i → stamp m p tag iv (p + i) = m (p + i) := fun i hi => stamp_out (by omega)
  have htag : ∀ i : Fin 4, stamp m p tag iv (p + (i + 1)) = wordLE tag (4 * i) := fun i => by
    have hi := i.isLt
    rw [stamp, put, dif_neg (by omega), put, dif_pos (by omega)]
    simp only [show p + (i.val + 1) - (p + 1) = i by omega]
  have hiv : ∀ i : Fin 3, stamp m p tag iv (p + (i + 5)) = wordLE iv (4 * i) := fun i => by
    have hi := i.isLt
    rw [stamp, put, dif_pos (by omega)]
    simp only [show p + (i.val + 5) - (p + 5) = i by omega]
  exact headerAt_eq (out 0 (by decide)) htag hiv (out 8 (by decide)) (out 9 (by decide)) (out 10 (by decide))
    (out 11 (by decide))

/-- The additional data has nothing of tag and iv. -/
theorem aadOf_stamp {tag : Bytes} : aadOf (stamp m p tag iv) p = aadOf m p := by
  rw [aadOf, aadOf, headerAt_stamp]
  refine congrArg _ (cells_congr fun k h1 h2 => stamp_out ?_)
  omega

theorem cipherOf_stamp {tag : Bytes} (h : 64 ≤ (headerAt m p).sizeAad.toNat) :
    cipherOf (stamp m p tag iv) p = cipherOf m p := by
  rw [cipherOf, cipherOf, headerAt_stamp]
  dsimp only
  refine cells_congr fun k h1 h2 => stamp_out ?_
  omega

/-- The tag in the header, as words. -/
theorem tag_stamp : (headerAt (stamp m p (sealTag c key iv m p) iv) p).tag = c.suite.tag (keyWords key) (nonceWords iv)
    (aadOf m p) (c.suite.crypt (keyWords key) 1 (nonceWords iv) (cipherOf m p)) := by
  have hlen : ∀ l : List Word, (bytesOf l).length % 4 = 0 := fun l => by
    rw [bytesOf_length]
    omega
  rw [headerAt_stamp]
  funext i
  dsimp only
  rw [sealTag, cryptBytes_bytesOf, tagBytes_word (hlen _) (hlen _), wordsOf_bytesOf, wordsOf_bytesOf]

section

variable {a b : Nat} (haad : (headerAt m p).sizeAad.toNat = 64 + 2048 * a)
  (hsize : (headerAt m p).size.toNat = 64 + 2048 * (a + b))

include haad

/-- What is fed first, second and then in pieces is the additional data. -/
theorem aads_flatten : ([bytesOf [0xA5A5A5A5, 0, 0, 0, 0, 0, 0, 0], mramRead m p 4 32 []] ++ pieces m p 64 a).flatten =
    bytesOf (aadOf m p) := by
  have hwords : (headerAt m p).sizeAad.toNat / 4 - 8 = 8 + 512 * a := by omega
  rw [List.flatten_append, pieces_flatten a (by decide), aadOf, hwords, bytesOf_append, cells_add, bytesOf_append,
    mramRead_whole (Nat.zero_le 32)]
  simp only [List.flatten_cons, List.flatten_nil, List.append_nil, List.append_assoc]

include hsize

theorem texts_flatten : (pieces m p (headerAt m p).sizeAad.toNat b).flatten = bytesOf (cipherOf m p) := by
  have hwords : (headerAt m p).size.toNat / 4 - (headerAt m p).sizeAad.toNat / 4 = 512 * b := by omega
  rw [pieces_flatten b (by omega), cipherOf, hwords]

/-- **Memory after `enc_sk`**: only tag and iv have changed. -/
theorem encSk_some (hM : M.Correct c.suite) (hkey : key.length = 32) (hiv : iv.length = 12) (hbuf : buffer.length = 2048) :
    encSk M (some iv) buffer m p key = some (stamp m p (sealTag c key iv m p) iv) := by
  have htag := hM.tag ([bytesOf [0xA5A5A5A5, 0, 0, 0, 0, 0, 0, 0], mramRead m p 4 32 []] ++ pieces m p 64 a)
    (pieces m p (headerAt m p).sizeAad.toNat b) hkey hiv
  rw [aads_flatten haad, texts_flatten haad hsize] at htag
  obtain ⟨ctx2, haads, htag⟩ := Option.bind_eq_some_iff.mp htag
  obtain ⟨ctx3, htexts, htag⟩ := Option.bind_eq_some_iff.mp htag
  rw [List.cons_append, List.foldlM_cons] at haads
  obtain ⟨ctx0, h0, haads⟩ := Option.bind_eq_some_iff.mp haads
  rw [List.cons_append, List.foldlM_cons] at haads
  obtain ⟨ctx1, h1, haads⟩ := Option.bind_eq_some_iff.mp haads
  -- the additional data goes through the buffer unchanged
  have hstep : (fun ctx b => ((M.updateAad ctx b).map (·, b)).map Prod.fst) = M.updateAad := by
    funext ctx b
    rw [Option.map_map]
    exact Option.map_id'
  rw [List.nil_append, ← hstep] at haads
  obtain ⟨buffer1, hl1, hfirst⟩ := forPieces_some (f := fun ctx b => (M.updateAad ctx b).map (·, b))
    (fun h => by
      obtain ⟨_, -, rfl⟩ := Option.map_eq_some_iff.mp h
      rfl) (by decide) haad hbuf haads
  obtain ⟨buffer2, -, hsecond⟩ := forPieces_some hM.update_length (by omega)
    (show (headerAt m p).size.toNat = (headerAt m p).sizeAad.toNat + 2048 * b by omega) hl1 htexts
  simp only [encSk, h0, h1, hfirst, hsecond, htag, Option.bind_eq_bind, Option.bind_some]
  rfl

/-! ## What the loader makes of it -/

theorem sized_stamp {tag : Bytes} : Sized (headerAt (stamp m p tag iv) p) := by
  rw [headerAt_stamp]
  refine ⟨?_, ?_, ?_, ?_⟩
  · dsimp only
    omega
  · dsimp only
    omega
  · dsimp only
    omega
  · dsimp only
    omega

theorem cipherOf_length : (cipherOf m p).length = 512 * b := by
  rw [cipherOf, cells_length]
  omega

/-- The loader takes the tag if the text has that of its ciphertext. -/
theorem macOf_stamp : macOf c (keyWords key) (stamp m p (sealTag c key iv m p) iv) p =
    c.suite.tag (keyWords key) (nonceWords iv) (aadOf m p) (cipherOf m p) := by
  rw [macOf_tag (sized_stamp haad hsize), aadOf_stamp, cipherOf_stamp (by omega), headerAt_stamp]

/-- **When the loader has the text back**: it decrypts the plain text. -/
theorem body_iff {tag : Bytes} :
    (∀ k, 16 ≤ k → k < (headerAt m p).size.toNat / 4 →
      decryptSk c (keyWords key) (stamp m p tag iv) p (p + k) = m (p + k)) ↔
      ∀ j < 512 * b, c.suite.stream (keyWords key) 1 (nonceWords iv) j = 0 := by
  have hsz : Sized (headerAt (stamp m p tag iv) p) := sized_stamp haad hsize
  have hcells : cipherOf (decryptSk c (keyWords key) (stamp m p tag iv) p) p =
      c.suite.crypt (keyWords key) 1 (nonceWords iv) (cipherOf m p) := by
    rw [decryptSk_cells hsz, headerAt_stamp, cipherOf_stamp (by omega)]
  have hhead : headerAt (decryptSk c (keyWords key) (stamp m p tag iv) p) p = headerAt (stamp m p tag iv) p :=
    headerAt_congr fun k h1 h2 => decrypted_out (by have := hsz.aad_pos; omega)
  have hlen : (cipherOf m p).length = 512 * b := cipherOf_length haad hsize
  rw [← hlen, ← crypt_eq_self, ← hcells, cipherOf, cipherOf, hhead, headerAt_stamp]
  dsimp only
  constructor
  · intro h
    refine cells_congr fun k h1 h2 => ?_
    obtain ⟨j, rfl⟩ := Nat.exists_eq_add_of_le (show p ≤ k by omega)
    exact h j (by omega) (by omega)
  · intro h k h1 h2
    by_cases hk : k < (headerAt m p).sizeAad.toNat / 4
    · -- what is only authenticated is not decrypted
      have hout : decryptSk c (keyWords key) (stamp m p tag iv) p (p + k) = stamp m p tag iv (p + k) := by
        rw [decryptSk, headerAt_stamp]
        exact decrypted_out (by dsimp only; omega)
      rw [hout, stamp_out (by omega)]
    · obtain ⟨j, rfl⟩ := Nat.exists_eq_add_of_le (Nat.le_of_not_lt hk)
      have hget := congrArg (·.getD j 0) h
      have hget' : ∀ m' : Nat → Word, (cells m' (p + (headerAt m p).sizeAad.toNat / 4)
          ((headerAt m p).size.toNat / 4 - (headerAt m p).sizeAad.toNat / 4)).getD j 0 =
            m' (p + ((headerAt m p).sizeAad.toNat / 4 + j)) := fun m' => by
        rw [List.getD_eq_getElem _ _ (by rw [cells_length]; omega), cells_getElem, Nat.add_assoc]
      rwa [hget', hget'] at hget

end

/-! ## The result -/

/-- `ime_decrypt_verify` accepts the image that is in `s`, and leaves the
sizes and the body of `m`. -/
def Accepted (c : Crypto) (f : Frames) (q user_key : Word) (m : Nat → Word) (s : St) : Prop :=
  ∃ s', imeDecryptVerify c f q user_key s = .ok true s' ∧
    (headerAt s'.mram (mramAt q)).sizeAad = (headerAt m (mramAt q)).sizeAad ∧
    (headerAt s'.mram (mramAt q)).size = (headerAt m (mramAt q)).size ∧
    (headerAt s'.mram (mramAt q)).textSize = (headerAt m (mramAt q)).textSize ∧
    (headerAt s'.mram (mramAt q)).dataSize = (headerAt m (mramAt q)).dataSize ∧
    ∀ k, 16 ≤ k → k < (headerAt m (mramAt q)).size.toNat / 4 → s'.mram (mramAt q + k) = m (mramAt q + k)

/-- The loader with the key of `enc_sk`, on an image that is in MRAM. -/
structure Ready (q user_key : Word) (key : Bytes) (m : Nat → Word) (s : St) : Prop where
  inMram : InMram q ((headerAt m (mramAt q)).size.toNat / 4)
  chacha : ChachaOk s q user_key
  key : keyOf s user_key = keyWords key

theorem accepted_stamp {f : Frames} {q user_key : Word} {s : St} {a b : Nat}
    (haad : (headerAt m (mramAt q)).sizeAad.toNat = 64 + 2048 * a)
    (hsize : (headerAt m (mramAt q)).size.toNat = 64 + 2048 * (a + b))
    (hr : Ready q user_key key m s) (hs : s.mram = stamp m (mramAt q) (sealTag c key iv m (mramAt q)) iv) :
    Accepted c f q user_key m s ↔ ∀ j < 512 * b, c.suite.stream (keyWords key) 1 (nonceWords iv) j = 0 := by
  obtain ⟨hin, hok, hkey⟩ := hr
  have hsz : Sized (headerAt s.mram (mramAt q)) := by
    rw [hs]
    exact sized_stamp haad hsize
  have hfed : FedOk s.mram q := by
    have hh : headerAt s.mram (mramAt q) = _ := hs ▸ headerAt_stamp
    have h1 := hsz.aad_le
    have h2 := hsz.aad_pos
    unfold FedOk fedEnd InMram at *
    rw [hh] at h1 h2 ⊢
    dsimp only at h1 h2 ⊢
    omega
  have hrun : wp (imeDecryptVerify c f q user_key) (fun ok s' =>
      (ok = true ↔ macOf c (keyWords key) s.mram (mramAt q) = (headerAt s.mram (mramAt q)).tag) ∧
        s'.mram = if ok then decryptSk c (keyWords key) s.mram (mramAt q) else s.mram) (fun _ _ => False) s := by
    rw [← hkey]
    exact (imeDecryptVerify_spec c f q user_key s).mono (fun _ _ h => ⟨h.2.1, h.2.2.1⟩) fun _ _ h => h.2 ⟨hfed, hok⟩
  obtain ⟨ok, s', hrun, hv, hm⟩ := hrun.total
  rw [hs, macOf_stamp haad hsize, tag_stamp] at hv
  constructor
  · rintro ⟨s'', hrun', -, -, -, -, hbody⟩
    rw [hrun] at hrun'
    obtain ⟨rfl, rfl⟩ := EStateM.Result.ok.inj hrun'
    rw [if_pos rfl, hs] at hm
    rw [hm] at hbody
    exact (body_iff haad hsize).mp hbody
  · intro hz
    have hsame : c.suite.crypt (keyWords key) 1 (nonceWords iv) (cipherOf m (mramAt q)) = cipherOf m (mramAt q) :=
      crypt_eq_self.mpr fun j hj => hz j (by rwa [cipherOf_length haad hsize] at hj)
    obtain rfl := hv.mpr (by rw [hsame])
    rw [if_pos rfl, hs] at hm
    have hhead : headerAt s'.mram (mramAt q) = headerAt s.mram (mramAt q) := by
      rw [hm, ← hs]
      exact headerAt_congr fun k h1 h2 => decrypted_out (by have := hsz.aad_pos; omega)
    rw [hs, headerAt_stamp] at hhead
    refine ⟨s', hrun, ?_, ?_, ?_, ?_, ?_⟩
    · rw [hhead]
    · rw [hhead]
    · rw [hhead]
    · rw [hhead]
    · rw [hm]
      exact (body_iff haad hsize).mpr hz

/-- **Which subkernels `enc_sk` hands to the loader**: those whose encrypted
part is nothing that the key stream changes, such as those that have none. -/
theorem first_stage_iff (hM : M.Correct c.suite) (hkey : key.length = 32) (hiv : iv.length = 12)
    (hbuf : buffer.length = 2048) {q : Word} {a b : Nat}
    (haad : (headerAt m (mramAt q)).sizeAad.toNat = 64 + 2048 * a)
    (hsize : (headerAt m (mramAt q)).size.toNat = 64 + 2048 * (a + b)) :
    ∃ m', encSk M (some iv) buffer m (mramAt q) key = some m' ∧
      ∀ (f : Frames) (user_key : Word) (s : St), s.mram = m' → Ready q user_key key m s →
        (Accepted c f q user_key m s ↔ ∀ j < 512 * b, c.suite.stream (keyWords key) 1 (nonceWords iv) j = 0) :=
  ⟨_, encSk_some haad hsize hM hkey hiv hbuf, fun _ _ _ hs hr => accepted_stamp haad hsize hr hs⟩

/-- A context that keeps what it is given. -/
structure Held where
  key : Bytes
  iv : Bytes
  aad : Bytes
  text : Bytes

def Held.addAad (ctx : Held) (b : Bytes) : Held := { ctx with aad := ctx.aad ++ b }

def Held.addText (ctx : Held) (b : Bytes) : Held := { ctx with text := ctx.text ++ b }

/-- The library that computes all at the end. -/
def holding (S : Suite) : ChachaPoly where
  Context := Held
  init := ⟨[], [], [], []⟩
  setkey ctx key := { ctx with key }
  starts ctx iv := { ctx with iv, aad := [], text := [] }
  updateAad ctx b := some (ctx.addAad b)
  update ctx b := some (ctx.addText b, (S.cryptBytes ctx.key ctx.iv (ctx.text ++ b)).drop ctx.text.length)
  finish ctx := some (S.tagBytes ctx.key ctx.iv ctx.aad (S.cryptBytes ctx.key ctx.iv ctx.text))

theorem foldlM_some {σ : Type} (f : σ → Bytes → σ) : ∀ (l : List Bytes) (ctx : σ),
    l.foldlM (fun ctx b => some (f ctx b)) ctx = some (l.foldl f ctx)
  | [], _ => rfl
  | b :: l, ctx => foldlM_some f l (f ctx b)

theorem foldl_addAad : ∀ (l : List Bytes) (ctx : Held),
    l.foldl Held.addAad ctx = { ctx with aad := ctx.aad ++ l.flatten }
  | [], ctx => by simp
  | b :: l, ctx => by
    rw [List.foldl_cons, foldl_addAad l]
    simp [Held.addAad]

theorem foldl_addText : ∀ (l : List Bytes) (ctx : Held),
    l.foldl Held.addText ctx = { ctx with text := ctx.text ++ l.flatten }
  | [], ctx => by simp
  | b :: l, ctx => by
    rw [List.foldl_cons, foldl_addText l]
    simp [Held.addText]

theorem holding_correct (S : Suite) : (holding S).Correct S where
  update_length h := by
    obtain rfl := Option.some.inj h
    simp
  tag {key iv} aads texts _ _ := by
    show (aads.foldlM (fun ctx b => some (Held.addAad ctx b)) ⟨key, iv, [], []⟩ >>= fun ctx =>
      texts.foldlM (fun ctx b => some (Held.addText ctx b)) ctx >>= (holding S).finish) = _
    rw [foldlM_some, Option.bind_eq_bind, Option.bind_some, foldlM_some, foldl_addAad, foldl_addText]
    rfl

/-- A subkernel at 0 with a section of text, its text and data zero. -/
def plainAt (size_aad size data_size : Word) : Nat → Word := imageAt (mramAt 0) 0xA5A5A5A5 size_aad size 1 data_size

theorem header_plain {size_aad size data_size : Word} : headerAt (plainAt size_aad size data_size) (mramAt 0) =
    ⟨0xA5A5A5A5, fun _ => 0, fun _ => 0, size_aad, size, 1, data_size⟩ := headerAt_image

theorem ready_plain {size_aad size data_size : Word} {m' : Nat → Word} (h : InMram 0 (size.toNat / 4)) :
    Ready 0 0 (zeros 32) (plainAt size_aad size data_size) (started m') := by
  refine ⟨?_, chachaOk_started (by decide), ?_⟩
  · rw [header_plain]
    exact h
  · have hzero : ∀ i : Fin 8, 0 = wordLE (zeros 32) (4 * i) := by decide
    exact funext hzero

/-- One section of text, not encrypted, and the same with a section of data
that is. -/
theorem first_stage_iff_plain :
    (∃ m', encSk (holding core.suite) (some (zeros 12)) (zeros 2048) (plainAt 2112 2112 0) (mramAt 0) (zeros 32) = some m' ∧
      Accepted core noFrames 0 0 (plainAt 2112 2112 0) (started m')) ∧
    ∃ m', encSk (holding core.suite) (some (zeros 12)) (zeros 2048) (plainAt 2112 4160 1) (mramAt 0) (zeros 32) = some m' ∧
      ¬ Accepted core noFrames 0 0 (plainAt 2112 4160 1) (started m') := by
  have haad : ∀ size data_size, (headerAt (plainAt 2112 size data_size) (mramAt 0)).sizeAad.toNat = 64 + 2048 * 1 := by
    intro size data_size
    rw [header_plain]
    rfl
  have hsize : ∀ data_size, (headerAt (plainAt 2112 2112 data_size) (mramAt 0)).size.toNat = 64 + 2048 * (1 + 0) := by
    intro data_size
    rw [header_plain]
    rfl
  have hsize' : ∀ data_size, (headerAt (plainAt 2112 4160 data_size) (mramAt 0)).size.toNat = 64 + 2048 * (1 + 1) := by
    intro data_size
    rw [header_plain]
    rfl
  have hM := holding_correct core.suite
  constructor
  · obtain ⟨m', henc, hiff⟩ := first_stage_iff hM (zeros_length 32) (zeros_length 12) (zeros_length 2048) (haad _ _) (hsize 0)
    exact ⟨m', henc, (hiff noFrames 0 _ rfl (ready_plain (by decide))).mpr fun j hj => absurd hj (by omega)⟩
  · obtain ⟨m', henc, hiff⟩ := first_stage_iff hM (zeros_length 32) (zeros_length 12) (zeros_length 2048) (haad _ _) (hsize' 1)
    refine ⟨m', henc, fun h => ?_⟩
    have hz := (hiff noFrames 0 _ rfl (ready_plain (by decide))).mp h 0 (by decide)
    exact absurd hz (by decide +kernel)

/-- A section of text that is to be encrypted. -/
theorem text_not_kept : (holding core.suite).Correct core.suite ∧
    (headerAt (plainAt 64 2112 0) (mramAt 0)).magic = 0xA5A5A5A5 ∧
    (headerAt (plainAt 64 2112 0) (mramAt 0)).sizeAad.toNat = 64 + 2048 * 0 ∧
    (headerAt (plainAt 64 2112 0) (mramAt 0)).size.toNat = 64 + 2048 * (0 + 1) ∧
    ∃ m', encSk (holding core.suite) (some (zeros 12)) (zeros 2048) (plainAt 64 2112 0) (mramAt 0) (zeros 32) = some m' ∧
      Ready 0 0 (zeros 32) (plainAt 64 2112 0) (started m') ∧
      ¬ Accepted core noFrames 0 0 (plainAt 64 2112 0) (started m') := by
  have haad : (headerAt (plainAt 64 2112 0) (mramAt 0)).sizeAad.toNat = 64 + 2048 * 0 := by
    rw [header_plain]
    rfl
  have hsize : (headerAt (plainAt 64 2112 0) (mramAt 0)).size.toNat = 64 + 2048 * (0 + 1) := by
    rw [header_plain]
    rfl
  refine ⟨holding_correct core.suite, by rw [header_plain], haad, hsize, _, encSk_some haad hsize (holding_correct core.suite)
    (zeros_length 32) (zeros_length 12) (zeros_length 2048), ready_plain (by decide), fun h => ?_⟩
  have hz := (accepted_stamp haad hsize (ready_plain (by decide)) rfl).mp h 0 (by decide)
  exact absurd hz (by decide +kernel)

end Memclave.FirstStage
