/-
`enc_sk` of the first-stage loader, `fsl/main.c`, on a subkernel in MRAM.

`mbedtls_chachapoly` is a parameter: `ChachaPoly` is what `enc_sk` uses of it,
and `ChachaPoly.Correct` what its documentation says of calls in the order
`starts`, `update_aad`, `update`, `finish`. An assertion that fails and a
library that reports an error are `none`.
-/
import Memclave.Lib.AeadBytes
import Memclave.LoaderFacts

namespace Memclave.FirstStage

open Words Aead Copy Loader

structure ChachaPoly where
  Context : Type
  init : Context
  /-- what it returns is not looked at, and that of `starts` neither -/
  setkey : Context → Bytes → Context
  /-- with `MBEDTLS_CHACHAPOLY_ENCRYPT` -/
  starts : Context → Bytes → Context
  updateAad : Context → Bytes → Option Context
  /-- with the output -/
  update : Context → Bytes → Option (Context × Bytes)
  finish : Context → Option Bytes

/-- The tag of additional data and a text that come in pieces. -/
def ChachaPoly.tagOf (M : ChachaPoly) (key iv : Bytes) (aads texts : List Bytes) : Option Bytes := do
  let ctx ← aads.foldlM M.updateAad (M.starts (M.setkey M.init key) iv)
  let ctx ← texts.foldlM (fun ctx text => (M.update ctx text).map Prod.fst) ctx
  M.finish ctx

/-- The library is RFC 8439 over the block function and the MAC of `S`,
wherever the pieces end. -/
structure ChachaPoly.Correct (M : ChachaPoly) (S : Suite) : Prop where
  update_length : ∀ {ctx text r}, M.update ctx text = some r → r.2.length = text.length
  tag : ∀ {key iv : Bytes} (aads texts : List Bytes), key.length = 32 → iv.length = 12 →
    M.tagOf key iv aads texts = some (S.tagBytes key iv aads.flatten (S.cryptBytes key iv texts.flatten))

/-- `mram_read(&sk_buf[k], &buffer[0], sz)`, with `sk_buf` at word `p`. -/
def mramRead (m : Nat → Word) (p k sz : Nat) (buffer : Bytes) : Bytes :=
  bytesOf (cells m (p + 2 * k) (sz / 4)) ++ buffer.drop sz

/-- The two loops, from byte `i` on: `f` gets the buffer and leaves its own in
it. In MRAM there is no subkernel at whose end `i` wraps. -/
def forPieces {σ : Type} (f : σ → Bytes → Option (σ × Bytes)) (m : Nat → Word) (p stop i : Nat) (ctx : σ)
    (buffer : Bytes) : Option (σ × Bytes) :=
  if i + 2048 ≤ stop then do
    let sz := stop - i
    let sz := if sz < 2048 then sz else 2048
    let (ctx, buffer) ← f ctx (mramRead m p (i / 8) sz buffer)
    forPieces f m p stop (i + 2048) ctx buffer
  else return (ctx, buffer)
termination_by stop - i
decreasing_by omega

/-- Memory after `enc_sk`. `rnd` is what the generator gives, and `buffer`
what is on the stack where the buffer is. -/
def encSk (M : ChachaPoly) (rnd : Option Bytes) (buffer : Bytes) (m : Nat → Word) (p : Nat) (key : Bytes) :
    Option (Nat → Word) := do
  let sk := headerAt m p
  let iv ← rnd
  let ctx := M.starts (M.setkey M.init key) iv
  let start := bytesOf [0xA5A5A5A5, 0, 0, 0, 0, 0, 0, 0]
  let header := mramRead m p 4 32 []
  let ctx ← M.updateAad ctx start
  let ctx ← M.updateAad ctx header
  let (ctx, buffer) ← forPieces (fun ctx b => (M.updateAad ctx b).map (·, b)) m p sk.sizeAad.toNat 64 ctx buffer
  -- the output stays in the buffer
  let (ctx, _) ← forPieces M.update m p sk.size.toNat sk.sizeAad.toNat ctx buffer
  let tag ← M.finish ctx
  let m := put m (p + 1) fun i : Fin 4 => wordLE tag (4 * i)
  return put m (p + 5) fun i : Fin 3 => wordLE iv (4 * i)

end Memclave.FirstStage
