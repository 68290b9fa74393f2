/-
Facts about the packer. `crypt` authenticates the header with the mac and the
iv of the call before, `verify_sk_tag` one with zeros in their place: an image
passes if and only if the AEAD does not tell the two headers apart
(`images_good_iff`), as it does not for a new object. What is encrypted can
always be decrypted.
-/
import Memclave.Packer
import Memclave.Lib.AeadBytes
import Memclave.Lib.ChaCha20
import Memclave.Lib.Poly1305

namespace Memclave.Packer

open Words Aead

variable {sk sk' : SubKernel} {C : Cipher} {key iv img b : Bytes}

/-! ## The serialised object -/

/-- Four bytes of a field. -/
def field (n : Nat) : Bytes := bytesOf [BitVec.ofNat 32 n]

@[simp] theorem field_length (n : Nat) : (field n).length = 4 := bytesOf_length

def magic : Bytes := [0xA5, 0xA5, 0xA5, 0xA5]

/-- What follows the field `size_aad`. -/
def SubKernel.rest (sk : SubKernel) : Bytes :=
  field sk.size ++ field sk.textSize ++ field sk.dataSize ++ zeros 16 ++ sk.text ++ sk.data

/-- The bytes of an object whose sizes fit their fields. -/
def SubKernel.image (sk : SubKernel) : Bytes := magic ++ (sk.mac ++ (sk.iv ++ (field sk.sizeAad ++ sk.rest)))

/-- The part that is only authenticated, and the part that is encrypted. -/
def SubKernel.aad (sk : SubKernel) : Bytes := sk.image.take sk.sizeAad

def SubKernel.plain (sk : SubKernel) : Bytes := sk.image.drop sk.sizeAad

/-- With the mac and the iv of a new object. -/
def SubKernel.cleared (sk : SubKernel) : SubKernel := { sk with mac := zeros 16, iv := zeros 12 }

/-- Every object that was made by `__init__` and used by `crypt`. -/
structure SubKernel.Ok (sk : SubKernel) : Prop where
  mac_length : sk.mac.length = 16
  iv_length : sk.iv.length = 12
  size_eq : sk.size = 64 + sk.text.length + sk.data.length
  aad_ge : 64 ≤ sk.sizeAad
  aad_le : sk.sizeAad ≤ sk.size

theorem bind_ok {α β : Type} {x : Py α} {f : α → Py β} {y : β} :
    (x >>= f) = .ok y ↔ ∃ a, x = .ok a ∧ f a = .ok y := by
  cases x <;> simp [bind, Except.bind]

theorem toBytes4_ok {n : Nat} : toBytes4 n = .ok b ↔ n < 2 ^ 32 ∧ b = field n := by
  unfold toBytes4
  split
  next h => exact ⟨fun hb => ⟨h, (Except.ok.inj hb).symm⟩, fun hb => congrArg Except.ok hb.2.symm⟩
  next h => exact ⟨(fun hb => nomatch hb), fun hb => absurd hb.1 h⟩

/-- The sizes fit their fields. -/
def SubKernel.Fits (sk : SubKernel) : Prop :=
  sk.sizeAad < 2 ^ 32 ∧ sk.size < 2 ^ 32 ∧ sk.textSize < 2 ^ 32 ∧ sk.dataSize < 2 ^ 32

theorem bytes_ok : sk.bytes = .ok b ↔ sk.Fits ∧ b = sk.image := by
  simp only [SubKernel.bytes, bind_ok, toBytes4_ok]
  constructor
  · rintro ⟨_, ⟨h1, rfl⟩, _, ⟨h2, rfl⟩, _, ⟨h3, rfl⟩, _, ⟨h4, rfl⟩, hb⟩
    refine ⟨⟨h1, h2, h3, h4⟩, (Except.ok.inj hb).symm.trans ?_⟩
    simp only [SubKernel.image, SubKernel.rest, magic, List.append_assoc]
  · rintro ⟨⟨h1, h2, h3, h4⟩, rfl⟩
    refine ⟨_, ⟨h1, rfl⟩, _, ⟨h2, rfl⟩, _, ⟨h3, rfl⟩, _, ⟨h4, rfl⟩, congrArg Except.ok ?_⟩
    simp only [SubKernel.image, SubKernel.rest, magic, List.append_assoc]

theorem image_length (h : sk.Ok) : sk.image.length = sk.size := by
  simp only [SubKernel.image, SubKernel.rest, magic, List.length_append, List.length_cons, List.length_nil, field_length,
    zeros_length, h.mac_length, h.iv_length, h.size_eq]
  omega

theorem take_past {l r : Bytes} {n : Nat} (h : l.length ≤ n) : (l ++ r).take n = l ++ r.take (n - l.length) := by
  rw [List.take_append, List.take_of_length_le h]

theorem drop_past {l r : Bytes} {n : Nat} (h : l.length ≤ n) : (l ++ r).drop n = r.drop (n - l.length) := by
  rw [List.drop_append, List.drop_of_length_le h, List.nil_append]

theorem aad_eq (h : sk.Ok) :
    sk.aad = magic ++ (sk.mac ++ (sk.iv ++ (field sk.sizeAad ++ sk.rest.take (sk.sizeAad - 36)))) := by
  have h64 := h.aad_ge
  have h4 : magic.length = 4 := rfl
  have hmac := h.mac_length
  have hiv := h.iv_length
  have hf := field_length sk.sizeAad
  rw [SubKernel.aad, SubKernel.image, take_past (by omega), take_past (by omega), take_past (by omega),
    take_past (by omega), h4, hmac, hiv, hf]
  simp only [Nat.sub_sub]

/-- The text has nothing of the mac and the iv. -/
theorem plain_eq (h : sk.Ok) : sk.plain = sk.rest.drop (sk.sizeAad - 36) := by
  have h64 := h.aad_ge
  have h4 : magic.length = 4 := rfl
  have hmac := h.mac_length
  have hiv := h.iv_length
  have hf := field_length sk.sizeAad
  rw [SubKernel.plain, SubKernel.image, drop_past (by omega), drop_past (by omega), drop_past (by omega),
    drop_past (by omega), h4, hmac, hiv, hf]
  simp only [Nat.sub_sub]

theorem fromBytes_field {n : Nat} (h : n < 2 ^ 32) : fromBytes (field n) = n := by
  have hfield : field n = [byteAt (BitVec.ofNat 32 n) 0, byteAt (BitVec.ofNat 32 n) 1, byteAt (BitVec.ofNat 32 n) 2,
    byteAt (BitVec.ofNat 32 n) 3] := rfl
  rw [hfield]
  simp only [fromBytes, List.foldr, byteAt, BitVec.extractLsb'_toNat, BitVec.toNat_ofNat, Nat.mod_eq_of_lt h,
    Nat.shiftRight_eq_div_pow]
  omega

/-! ## One call -/

/-- The object after a call. -/
def SubKernel.stamped (C : Cipher) (sk : SubKernel) (key iv : Bytes) : SubKernel :=
  { sk with mac := (C.encryptAndDigest key iv sk.aad sk.plain).2, iv }

theorem crypt_ok (hC : C.Correct) (h : sk.Ok) (hkey : key.length = 32) (hiv : iv.length = 12) :
    sk.crypt C key (some iv) = .ok (img, sk') ↔ sk.Fits ∧
      sk' = sk.stamped C key iv ∧ img = sk'.aad ++ (C.encryptAndDigest key iv sk.aad sk.plain).1 := by
  have hwhole : (sk.image.take sk.size).drop sk.sizeAad = sk.plain := by
    rw [List.take_of_length_le (image_length h).le, SubKernel.plain]
  have hkey' : ¬ key.length ≠ 32 := not_not.mpr hkey
  have hiv' : ¬ (some iv).any (·.length ≠ 12) = true := by simp [hiv]
  rw [SubKernel.crypt, if_neg hkey', if_neg hiv']
  simp only [bind_ok, bytes_ok, hC.nonce iv hiv]
  constructor
  · rintro ⟨_, ⟨hf, rfl⟩, _, ⟨-, rfl⟩, hr⟩
    rw [hwhole] at hr
    obtain ⟨rfl, rfl⟩ := Prod.mk.inj (Except.ok.inj hr)
    exact ⟨hf, rfl, rfl⟩
  · rintro ⟨hf, rfl, rfl⟩
    refine ⟨_, ⟨hf, rfl⟩, _, ⟨hf, rfl⟩, ?_⟩
    rw [hwhole]
    rfl

theorem stamped_ok (hC : C.Correct) (h : sk.Ok) (hkey : key.length = 32) (hiv : iv.length = 12) :
    (sk.stamped C key iv).Ok := { h with mac_length := hC.tag_length hkey hiv, iv_length := hiv }

theorem cleared_ok (h : sk.Ok) : sk.cleared.Ok := { h with mac_length := zeros_length 16, iv_length := zeros_length 12 }

theorem init_ok {text data : Bytes} {enc_text enc_data : Bool} (h : SubKernel.init text data enc_text enc_data = .ok sk) :
    sk.Ok := by
  unfold SubKernel.init at h
  split at h
  · exact nomatch h
  · obtain rfl := Except.ok.inj h
    refine ⟨zeros_length 16, zeros_length 12, rfl, ?_, ?_⟩
    · dsimp only
      omega
    · dsimp only
      split <;> split <;> omega

/-- The parts of a header before its sizes. -/
theorem header_parts {mac r : Bytes} (hmac : mac.length = 16) (hiv : iv.length = 12) :
    ((magic ++ (mac ++ (iv ++ r))).take 20).drop 4 = mac ∧ ((magic ++ (mac ++ (iv ++ r))).take 32).drop 20 = iv ∧
      (magic ++ (mac ++ (iv ++ r))).take 4 = magic ∧ (magic ++ (mac ++ (iv ++ r))).drop 32 = r := by
  have h4 : magic.length = 4 := rfl
  refine ⟨?_, ?_, ?_, ?_⟩
  · rw [take_past (by omega), h4, List.drop_left' h4, List.take_left' hmac]
  · rw [take_past (by omega), h4, take_past (by omega), hmac, drop_past (by omega), h4, List.drop_left' hmac,
      List.take_left' hiv]
  · exact List.take_left' h4
  · rw [drop_past (by omega), h4, drop_past (by omega), hmac, List.drop_left' hiv]

/-- What `verify_sk_tag` hands to the AEAD. -/
theorem verify_image {ct : Bytes} (h : sk.Ok) (hf : sk.Fits) (hkey : key.length = 32) :
    verifySkTag C (sk.aad ++ ct) key = .ok (C.decryptAndVerify key sk.iv sk.cleared.aad ct sk.mac).isSome := by
  have hkey' : ¬ key.length ≠ 32 := not_not.mpr hkey
  have himg : sk.aad ++ ct = magic ++ (sk.mac ++ (sk.iv ++ (field sk.sizeAad ++ sk.rest.take (sk.sizeAad - 36) ++ ct))) := by
    rw [aad_eq h]
    simp only [List.append_assoc]
  obtain ⟨hmac, hiv, hmagic, hsizes⟩ := header_parts (r := field sk.sizeAad ++ sk.rest.take (sk.sizeAad - 36) ++ ct)
    h.mac_length h.iv_length
  have hcleared : sk.cleared.aad ++ ct =
      magic ++ (zeros 16 ++ (zeros 12 ++ (field sk.sizeAad ++ sk.rest.take (sk.sizeAad - 36) ++ ct))) := by
    rw [aad_eq (cleared_ok h)]
    simp only [List.append_assoc]
    rfl
  have hzero : magic ++ zeros 28 ++ (field sk.sizeAad ++ sk.rest.take (sk.sizeAad - 36) ++ ct) = sk.cleared.aad ++ ct := by
    rw [hcleared, show zeros 28 = zeros 16 ++ zeros 12 from rfl]
    simp only [List.append_assoc]
  have haad : sk.cleared.aad.length = sk.sizeAad := by
    rw [SubKernel.aad, List.length_take, image_length (cleared_ok h)]
    exact Nat.min_eq_left h.aad_le
  have hsize : fromBytes (((sk.cleared.aad ++ ct).take 36).drop 32) = sk.sizeAad := by
    rw [hcleared, List.drop_take, (header_parts (zeros_length 16) (zeros_length 12)).2.2.2, List.append_assoc,
      List.take_left' (field_length _), fromBytes_field hf.1]
  have h12 : ¬ sk.iv.length ∉ [8, 12, 24] := by simp [h.iv_length]
  rw [verifySkTag, if_neg hkey', himg, hmac, hiv, hmagic, hsizes, hzero]
  dsimp only
  rw [hsize, if_neg h12, List.take_left' haad, List.drop_left' haad]
  rfl

/-! ## The images of a sequence of calls -/

/-- The AEAD does not tell the object's header from the one of a new object:
the text has the same ciphertext and tag with both. -/
def SubKernel.Unmarked (C : Cipher) (sk : SubKernel) (key iv : Bytes) : Prop :=
  C.encryptAndDigest key iv sk.aad sk.plain = C.encryptAndDigest key iv sk.cleared.aad sk.plain

/-- The image of a call passes the check, and its encrypted part is that of
the object made at first. -/
structure Good (C : Cipher) (sk : SubKernel) (c : Call) : Prop where
  verifies : verifySkTag C c.image c.key = .ok true
  decrypts : C.decrypt c.key c.iv ((c.image.take sk.size).drop sk.sizeAad) = sk.plain

theorem plain_stamped (hC : C.Correct) (h : sk.Ok) (hkey : key.length = 32) (hiv : iv.length = 12) :
    (sk.stamped C key iv).plain = sk.plain := by
  rw [plain_eq (stamped_ok hC h hkey hiv), plain_eq h]
  rfl

/-- **When an image passes**: the tag is that of the header as it stood. -/
theorem crypt_verifies_iff (hC : C.Correct) (h : sk.Ok) (hkey : key.length = 32) (hiv : iv.length = 12)
    (hr : sk.crypt C key (some iv) = .ok (img, sk')) : verifySkTag C img key = .ok true ↔ sk.Unmarked C key iv := by
  obtain ⟨hf, rfl, rfl⟩ := (crypt_ok hC h hkey hiv).mp hr
  rw [verify_image (stamped_ok hC h hkey hiv) hf hkey]
  set ct := (C.encryptAndDigest key iv sk.aad sk.plain).1 with hct
  have hdec : C.decrypt key iv ct = sk.plain := hC.decrypt hkey hiv
  constructor
  · intro hv
    obtain ⟨text, ht⟩ := Option.isSome_iff_exists.mp (Except.ok.inj hv)
    have henc : C.encryptAndDigest key iv sk.cleared.aad text = (ct, (sk.stamped C key iv).mac) :=
      (hC.verify hkey hiv).mp ht
    have htext : text = sk.plain := by
      have hdec' : C.decrypt key iv (C.encryptAndDigest key iv sk.cleared.aad text).1 = text := hC.decrypt hkey hiv
      rw [← hdec', ← hdec, henc]
    rw [htext] at henc
    exact henc.symm
  · intro hu
    have henc : C.encryptAndDigest key iv sk.cleared.aad sk.plain = (ct, (sk.stamped C key iv).mac) := hu.symm
    exact congrArg Except.ok (Option.isSome_iff_exists.mpr ⟨_, (hC.verify hkey hiv).mpr henc⟩)

/-- What a call encrypts can be decrypted, whatever the header. -/
theorem crypt_decrypts (hC : C.Correct) (h : sk.Ok) (hkey : key.length = 32) (hiv : iv.length = 12)
    (hr : sk.crypt C key (some iv) = .ok (img, sk')) :
    C.decrypt key iv ((img.take sk.size).drop sk.sizeAad) = sk.plain := by
  obtain ⟨hf, rfl, rfl⟩ := (crypt_ok hC h hkey hiv).mp hr
  have hst := stamped_ok hC h hkey hiv
  have haad : (sk.stamped C key iv).aad.length = sk.sizeAad := by
    rw [SubKernel.aad, List.length_take, image_length hst]
    exact Nat.min_eq_left hst.aad_le
  have hlen : sk.plain.length = sk.size - sk.sizeAad := by
    rw [SubKernel.plain, List.length_drop, image_length h]
  have hall : ((sk.stamped C key iv).aad ++ (C.encryptAndDigest key iv sk.aad sk.plain).1).length ≤ sk.size := by
    rw [List.length_append, haad, hC.text_length hkey hiv, hlen]
    have := h.aad_le
    omega
  rw [List.take_of_length_le hall, List.drop_left' haad, hC.decrypt hkey hiv]

/-- **Which images are good**, in every sequence of calls on one object: those
of the calls that find it unmarked. -/
theorem calls_good_iff (hC : C.Correct) : ∀ {args : List (Bytes × Bytes)} {sk0 sk : SubKernel} {calls : List Call},
    sk.Ok → sk.sizeAad = sk0.sizeAad → sk.size = sk0.size → sk.plain = sk0.plain →
    (∀ a ∈ args, a.1.length = 32 ∧ a.2.length = 12) → crypts C sk args = .ok calls →
    ∀ c ∈ calls, Good C sk0 c ↔ c.before.Unmarked C c.key c.iv
  | [], _, _, _, _, _, _, _, _, h, c, hc => by
    obtain rfl := Except.ok.inj h
    exact absurd hc (by simp)
  | (key, iv) :: args, sk0, sk, calls, hok, haad, hsize, hplain, hlen, h, c, hc => by
    obtain ⟨hkey, hiv⟩ := hlen (key, iv) (by simp)
    rw [crypts] at h
    obtain ⟨⟨img, sk'⟩, hr, h⟩ := bind_ok.mp h
    obtain ⟨calls', hr', h⟩ := bind_ok.mp h
    obtain rfl := Except.ok.inj h
    rcases List.mem_cons.mp hc with rfl | hc
    · refine ⟨fun hg => (crypt_verifies_iff hC hok hkey hiv hr).mp hg.verifies, fun hu => ⟨?_, ?_⟩⟩
      · exact (crypt_verifies_iff hC hok hkey hiv hr).mpr hu
      · rw [← haad, ← hsize, ← hplain]
        exact crypt_decrypts hC hok hkey hiv hr
    · obtain ⟨-, rfl, -⟩ := (crypt_ok hC hok hkey hiv).mp hr
      exact calls_good_iff hC (stamped_ok hC hok hkey hiv) haad hsize ((plain_stamped hC hok hkey hiv).trans hplain)
        (fun a ha => hlen a (by simp [ha])) hr' c hc

/-! ## Objects and libraries there are -/

/-- Where the sizes fit their fields no call raises an exception. -/
theorem crypts_ok (hC : C.Correct) : ∀ (args : List (Bytes × Bytes)) {sk : SubKernel}, sk.Ok → sk.Fits →
    (∀ a ∈ args, a.1.length = 32 ∧ a.2.length = 12) →
    ∃ calls, crypts C sk args = .ok calls ∧ calls.map (fun c => (c.key, c.iv)) = args
  | [], _, _, _, _ => ⟨[], rfl, rfl⟩
  | (key, iv) :: args, sk, hok, hf, hlen => by
    obtain ⟨hkey, hiv⟩ := hlen (key, iv) (by simp)
    have hr := (crypt_ok hC hok hkey hiv).mpr ⟨hf, rfl, rfl⟩
    obtain ⟨calls, hcalls, hargs⟩ := crypts_ok hC args (stamped_ok hC hok hkey hiv) hf fun a ha => hlen a (by simp [ha])
    refine ⟨_, bind_ok.mpr ⟨_, hr, bind_ok.mpr ⟨_, hcalls, rfl⟩⟩, ?_⟩
    rw [List.map_cons, hargs]

/-- The library as RFC 8439 over a block function and a MAC. -/
def cipherOf (S : Suite) : Cipher where
  nonce iv := iv.getD (zeros 12)
  encryptAndDigest := S.sealBytes
  decryptAndVerify := S.unsealBytes
  decrypt := S.cryptBytes

theorem cipherOf_correct (S : Suite) : (cipherOf S).Correct where
  nonce _ _ := rfl
  tag_length _ _ := tagBytes_length
  text_length _ _ := cryptBytes_length
  decrypt _ _ := cryptBytes_cryptBytes
  verify _ _ := unsealBytes_iff

/-- ChaCha20 and Poly1305. -/
def rfc8439 : Suite where
  block := ChaCha20.block
  mac key bs :=
    let tag := Poly1305.tag (Poly1305.clamp (rowVal [key 0, key 1, key 2, key 3])) (rowVal [key 4, key 5, key 6, key 7])
      (bs.map fun b => rowVal (List.ofFn b))
    fun i => BitVec.ofNat 32 (tag / 2 ^ (32 * i.val))

/-! ## The result -/

/-- **Which images of an object are good**: those of the calls that find its
header as in a new one, for all the AEAD tells. -/
theorem images_good_iff (hC : C.Correct) {text data : Bytes} {enc_text enc_data : Bool}
    (hsk : SubKernel.init text data enc_text enc_data = .ok sk) {args : List (Bytes × Bytes)}
    (hlen : ∀ a ∈ args, a.1.length = 32 ∧ a.2.length = 12) {calls : List Call} (h : crypts C sk args = .ok calls) :
    ∀ c ∈ calls, Good C sk c ↔ c.before.Unmarked C c.key c.iv :=
  calls_good_iff hC (init_ok hsk) rfl rfl rfl hlen h

/-- A subkernel without text and data. -/
def empty : SubKernel := ⟨zeros 16, zeros 12, 64, 64, 0, 0, [], []⟩

/-- The key and the iv of the packer's `main`. -/
def mainKey : Bytes := (List.range 32).map fun b => BitVec.ofNat 8 (b + 0x80)

def mainIv : Bytes := [0, 0, 0, 0, 0, 1, 2, 3, 4, 5, 6, 7]

theorem images_good_iff_empty : ∃ calls, crypts (cipherOf rfc8439) empty [(mainKey, mainIv), (mainKey, mainIv)] = .ok calls ∧
    ∀ c ∈ calls, Good (cipherOf rfc8439) empty c ↔ c.before.Unmarked (cipherOf rfc8439) c.key c.iv := by
  have hinit : SubKernel.init [] [] false true = .ok empty := rfl
  have hlen : ∀ a ∈ [(mainKey, mainIv), (mainKey, mainIv)], a.1.length = 32 ∧ a.2.length = 12 := by decide
  obtain ⟨calls, h, -⟩ := crypts_ok (cipherOf_correct rfc8439) _ (init_ok hinit) (by unfold SubKernel.Fits; decide) hlen
  exact ⟨calls, h, images_good_iff (cipherOf_correct rfc8439) hinit hlen h⟩

/-- Whether the images of two calls on it pass the check. -/
def verdicts : Py (List Bool) := do
  let calls ← crypts (cipherOf rfc8439) empty [(mainKey, mainIv), (mainKey, mainIv)]
  calls.mapM fun c => verifySkTag (cipherOf rfc8439) c.image c.key

/-- The second does not. -/
theorem second_image_refused : (cipherOf rfc8439).Correct ∧ SubKernel.init [] [] false true = .ok empty ∧
    verdicts.toOption = some [true, false] :=
  ⟨cipherOf_correct rfc8439, rfl, by decide +kernel⟩

end Memclave.Packer
