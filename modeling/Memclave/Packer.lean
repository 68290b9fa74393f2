/-
The packer of subkernels, `tools/sk/main.py` and its copy `fsl/sk.py`.

`ChaCha20_Poly1305` of PyCryptodome is a parameter: `Cipher` is what the
packer uses of it, and `Cipher.Correct` what its documentation says of that.
A call of `crypt` returns the object with its new fields beside the image;
where it raises an exception the object is as it was.
-/
import Memclave.Lib.Bytes

namespace Memclave.Packer

open Words

inductive PyError where
  | valueError (text : String)
  /-- a `ValueError` of the library, for a nonce of no length it knows -/
  | nonceError
  /-- of `int.to_bytes` -/
  | overflowError
deriving DecidableEq, Repr

abbrev Py := Except PyError

/-- An object of `ChaCha20_Poly1305.new(key=key, nonce=nonce)`, with one call
of `update` before the text. -/
structure Cipher where
  /-- `cipher.nonce` -/
  nonce : Option Bytes → Bytes
  /-- with the key, the nonce, the additional data and the text -/
  encryptAndDigest : Bytes → Bytes → Bytes → Bytes → Bytes × Bytes
  /-- `none` is a `ValueError` -/
  decryptAndVerify : Bytes → Bytes → Bytes → Bytes → Bytes → Option Bytes
  decrypt : Bytes → Bytes → Bytes → Bytes

/-- What the documentation says of keys of 32 and nonces of 12 bytes. -/
structure Cipher.Correct (C : Cipher) : Prop where
  nonce : ∀ iv : Bytes, iv.length = 12 → C.nonce (some iv) = iv
  tag_length : ∀ {key iv aad text : Bytes}, key.length = 32 → iv.length = 12 →
    (C.encryptAndDigest key iv aad text).2.length = 16
  text_length : ∀ {key iv aad text : Bytes}, key.length = 32 → iv.length = 12 →
    (C.encryptAndDigest key iv aad text).1.length = text.length
  /-- the text is that of the ciphertext, whatever the additional data -/
  decrypt : ∀ {key iv aad text : Bytes}, key.length = 32 → iv.length = 12 →
    C.decrypt key iv (C.encryptAndDigest key iv aad text).1 = text
  /-- what is verified is what was encrypted, with all of its inputs -/
  verify : ∀ {key iv aad text ct tag : Bytes}, key.length = 32 → iv.length = 12 →
    (C.decryptAndVerify key iv aad ct tag = some text ↔ C.encryptAndDigest key iv aad text = (ct, tag))

structure SubKernel where
  mac : Bytes
  iv : Bytes
  sizeAad : Nat
  size : Nat
  textSize : Nat
  dataSize : Nat
  text : Bytes
  data : Bytes
deriving DecidableEq, Repr

/-- To a multiple of 2048 bytes. -/
def padded (b : Bytes) : Bytes := if b.length % 2048 ≠ 0 then b ++ zeros (2048 - b.length % 2048) else b

/-- `__init__` -/
def SubKernel.init (text data : Bytes) (enc_text enc_data : Bool) : Py SubKernel :=
  if enc_text && !enc_data then throw (.valueError "encrypting only the text section is unsupported")
  else
    let text := padded text
    let data := padded data
    return {
      mac := zeros 16
      iv := zeros 12
      sizeAad := 64 + (if !enc_text then text.length else 0) + if !enc_data then data.length else 0
      size := 64 + text.length + data.length
      textSize := text.length / 2048
      dataSize := data.length / 2048
      text
      data }

/-- `n.to_bytes(4, "little")` -/
def toBytes4 (n : Nat) : Py Bytes := if n < 2 ^ 32 then return bytesOf [BitVec.ofNat 32 n] else throw .overflowError

/-- `int.from_bytes(b, "little")` -/
def fromBytes (b : Bytes) : Nat := b.foldr (fun x n => x.toNat + 256 * n) 0

/-- `__bytes__` -/
def SubKernel.bytes (sk : SubKernel) : Py Bytes := do
  let size_aad ← toBytes4 sk.sizeAad
  let size ← toBytes4 sk.size
  let text_size ← toBytes4 sk.textSize
  let data_size ← toBytes4 sk.dataSize
  return [0xA5, 0xA5, 0xA5, 0xA5] ++ sk.mac ++ sk.iv ++ size_aad ++ size ++ text_size ++ data_size ++ zeros 16 ++
    sk.text ++ sk.data

/-- The image, and the object after the call. -/
def SubKernel.crypt (C : Cipher) (sk : SubKernel) (key : Bytes) (iv : Option Bytes) : Py (Bytes × SubKernel) := do
  if key.length ≠ 32 then throw (.valueError "key must be 32 bytes long")
  if iv.any (·.length ≠ 12) then throw (.valueError "iv must be 12 bytes long")
  let nonce := C.nonce iv
  let data ← sk.bytes
  let (txt, tag) := C.encryptAndDigest key nonce (data.take sk.sizeAad) ((data.take sk.size).drop sk.sizeAad)
  let sk := { sk with mac := tag, iv := nonce }
  let data ← sk.bytes
  return (data.take sk.sizeAad ++ txt, sk)

def verifySkTag (C : Cipher) (sk key : Bytes) : Py Bool := do
  if key.length ≠ 32 then throw (.valueError "key must be 32 bytes long")
  let tag := (sk.take 20).drop 4
  let iv := (sk.take 32).drop 20
  let sk := sk.take 4 ++ zeros 28 ++ sk.drop 32
  let size_aad := fromBytes ((sk.take 36).drop 32)
  if iv.length ∉ [8, 12, 24] then throw .nonceError
  return (C.decryptAndVerify key iv (sk.take size_aad) (sk.drop size_aad) tag).isSome

/-! ## Sequences of calls -/

/-- A call of `crypt`, with the object before it and the image it returned. -/
structure Call where
  before : SubKernel
  key : Bytes
  iv : Bytes
  image : Bytes
deriving DecidableEq, Repr

/-- One call after the other, each with its key and iv. -/
def crypts (C : Cipher) : SubKernel → List (Bytes × Bytes) → Py (List Call)
  | _, [] => return []
  | sk, (key, iv) :: args => do
    let (image, sk') ← sk.crypt C key (some iv)
    let calls ← crypts C sk' args
    return ⟨sk, key, iv, image⟩ :: calls

end Memclave.Packer
