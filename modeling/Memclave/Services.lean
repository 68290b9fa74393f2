/-
The subkernels that the system itself brings: `msg`, which waits for the host,
and the three stages of `keyexchange`, with what `boot.s` of the runtime does
once `main` returns.

A `main` is a function of the memories. What it leaves on its stack and in its
own data, below the area that persists, is up to the compiler and comes in
with `dirty`; what the host does while the DPU waits is a function of MRAM.
The hash and the exponentiation are those of a library that is not part of
the repository.
-/
import Memclave.Resident
import Memclave.Runtime
import Memclave.Lib.Bytes

namespace Memclave.Services

open Words Copy Loader

/-! ## The places the linker chose -/

def imeMsgSk : Word := 0xBF00000
def imeXchgSk1 : Word := 0xBF20000
def imeXchgSk2 : Word := 0xBF40000
def imeXchgSk3 : Word := 0xBF60000

def imeMsgBuf : Word := 0xBFC0000

/-- `__ime_persist_start` of `msg`, which keeps `g_load_prop` alone. -/
def msgPersist : Word := 0xFF90

/-- `__ime_persist_start` of the stages, which keep `g_xchg_io` as well. -/
def xchgPersist : Word := 0xFE50

/-- `g_load_prop`, by the word: `tag`, and then `key`. -/
def loadPropTag : Nat := 16356
def loadPropKey : Nat := 16360

/-- `&g_load_prop.key` -/
def loadPropKeyAt : Word := 0xFFA0

/-- `g_xchg_io`, by the word: the client's public key and then the shared
secret, the counter, and the encrypted key with its tag. -/
def xchgShared : Nat := 16276
def xchgCnt : Nat := 16340
def xchgKeyEnc : Nat := 16344

/-- `&g_xchg_io.out.key_enc_out` -/
def xchgKeyEncAt : Word := 0xFF60

/-! ## `boot.s` -/

/-- How a `main` ends. -/
inductive Exit where
  | ret (s : St)
  /-- in `__ime_replace_sk` -/
  | replace (s : St) (sk tag key : Word)

/-- `wipe_key_loop`, with `r1` words to go. -/
def wipeKeyLoop (r0 : Nat) (w : Nat → Word) : Nat → Nat → Word
  | 0 => w
  | r1 + 1 => wipeKeyLoop (r0 + 1) (Function.update w r0 0) r1

/-- The memories once `main` has returned. -/
def wipeKeys (s : St) : St := { s with wram := wipeKeyLoop loadPropTag s.wram 12 }

/-- What lies below the area that persists. -/
def dirty (persist : Word) (left : Nat → Word) (s : St) : St :=
  { s with wram := fun k => if k < persist.toNat / 4 then left k else s.wram k }

/-- The next subkernel's memories, if the DPU gets there. -/
def jumped : EStateM.Result Fault St Unit → Option St
  | .ok _ s => some s
  | .error _ _ => none

/-- From the end of `main` to the next subkernel. -/
def leave (c : Crypto) (f : Frames) (persist : Word) (left : Nat → Word) : Exit → Option St
  | .ret s => jumped (imeReplaceSk c f imeMsgSk 0 0 persist (dirty persist left (wipeKeys s)))
  | .replace s sk tag key => jumped (imeReplaceSk c f sk tag key persist (dirty persist left s))

/-! ## `msg/main.c` -/

/-- `ime_mram_msg_type` -/
def IME_MRAM_MSG_NOP : BitVec 16 := 0
def IME_MRAM_MSG_WAITING : BitVec 16 := 1
def IME_MRAM_MSG_PING : BitVec 16 := 2
def IME_MRAM_MSG_PONG : BitVec 16 := 3
def IME_MRAM_MSG_LOAD_SK : BitVec 16 := 4

def msgType (m : Nat → Word) : BitVec 16 := (m (mramAt imeMsgBuf)).extractLsb' 0 16

/-- `flags & IME_LOAD_SK_USER_KEY` -/
def msgUserKey (m : Nat → Word) : Bool := (m (mramAt imeMsgBuf)).getLsbD 16

def msgPtr (m : Nat → Word) : Word := m (mramAt imeMsgBuf + 1)

def setType (t : BitVec 16) (m : Nat → Word) : Nat → Word :=
  Function.update m (mramAt imeMsgBuf) ((m (mramAt imeMsgBuf)).extractLsb' 16 16 ++ t)

def msgMain (host : (Nat → Word) → Nat → Word) (s : St) : Exit :=
  let m := host (setType IME_MRAM_MSG_WAITING s.mram)
  if msgType m = IME_MRAM_MSG_PING then
    .ret { s with mram := setType IME_MRAM_MSG_PONG m }
  else if msgType m = IME_MRAM_MSG_LOAD_SK then
    let m := setType IME_MRAM_MSG_NOP m
    let key := if msgUserKey m then loadPropKeyAt else 0
    .replace { s with mram := m } (msgPtr m) 0 key
  else .ret { s with mram := m }

/-! ## `keyexchange` -/

/-- What comes from outside the repository. -/
structure External where
  /-- `mbedtls_sha256_update` over the bytes of these words, in memory's order -/
  sha256 : List Word → Fin 8 → Word
  /-- `mbedtls_mpi_exp_mod` of a base, an exponent and a modulus; without a
  value if it returns an error -/
  expMod : (Fin 64 → Word) → (Fin 8 → Word) → (Fin 64 → Word) → Option (Fin 64 → Word)

/-- The arrays of `stage1.c` in MRAM, by the word. -/
structure Stage1 where
  clientPubkeyRaw : Nat
  dpuPubkeyRaw : Nat
  imeXchgCounter : Nat
  imeKeyIn : Nat

/-- The arrays of `stage3.c` in MRAM, and `final_key` on the stack. -/
structure Stage3 where
  gXchgOut : Word
  gOutputTag : Nat
  gOutputIv : Nat
  finalKey : Word

def dpuPubkeyWram : Fin 64 → Word := ![
  0x37a59d0c, 0x4c654ae0, 0x54204efc, 0x90130854,
  0x4ec76607, 0xf6b1f615, 0x40c18133, 0xe9ea753c,
  0x52ed11fc, 0xe979bf70, 0xdc9ecf89, 0xe0e2465b,
  0xe118e4b0, 0x7cf7bb2a, 0xa2da44c1, 0xa62b132d,
  0xc234275e, 0x716ebe7a, 0x8d84c6e7, 0x7e3cfee9,
  0x88356cb3, 0x4e8656f6, 0x16078c7e, 0x2a6a85dd,
  0xcdbfd286, 0x15647358, 0xa0ab2396, 0x94ac675a,
  0x9cafbd03, 0xc71cf41b, 0x8fb89127, 0x7df7c596,
  0xbd3615f9, 0x912600e2, 0x60a6007f, 0x05d340b2,
  0xb22cbd82, 0xfa5ab325, 0xb4dff05f, 0x1a0bda46,
  0x3ca6e1cf, 0xf7defcbc, 0x66037e91, 0x670d35d5,
  0xfe4f59c1, 0x7accaccb, 0x64543931, 0x427a5ee7,
  0x7a11ffd2, 0x5b9e3278, 0x1516b8c5, 0x876eb704,
  0xf3376885, 0x5b742454, 0x22ea5ad3, 0xeef43223,
  0xc36f1b07, 0x526ca290, 0x4175e164, 0x8c83f994,
  0x65d1a0f4, 0xdac3834b, 0x31017203, 0x2404b340]

def imeRawPrime : Fin 64 → Word := ![
  0xffffffff, 0xffffffff, 0x8aacaa68, 0x15728e5a,
  0x98fa0510, 0x15d22618, 0xea956ae5, 0x3995497c,
  0x95581718, 0xde2bcbf6, 0x6f4c52c9, 0xb5c55df0,
  0xec07a28f, 0x9b2783a2, 0x180e8603, 0xe39e772c,
  0x2e36ce3b, 0x32905e46, 0xca18217c, 0xf1746c08,
  0x4abc9804, 0x670c354e, 0x7096966d, 0x9ed52907,
  0x208552bb, 0x1c62f356, 0xdca3ad96, 0x83655d23,
  0xfd24cf5f, 0x69163fa8, 0x1c55d39a, 0x98da4836,
  0xa163bf05, 0xc2007cb8, 0xece45b3d, 0x49286651,
  0x7c4b1fe6, 0xae9f2411, 0x5a899fa5, 0xee386bfb,
  0xf406b7ed, 0x0bff5cb6, 0xa637ed6b, 0xf44c42e9,
  0x625e7ec6, 0xe485b576, 0x6d51c245, 0x4fe1356d,
  0xf25f1437, 0x302b0a6d, 0xcd3a431b, 0xef9519b3,
  0x8e3404dd, 0x514a0879, 0x3b139b22, 0x020bbea6,
  0x8a67cc74, 0x29024e08, 0x80dc1cd1, 0xc4c6628b,
  0x2168c234, 0xc90fdaa2, 0xffffffff, 0xffffffff]

def imeRawSk : Fin 8 → Word := ![
  0x69c7e189, 0xd0997133, 0xf1623124, 0xc7169218,
  0xbad0d374, 0x6b8e7824, 0x83338e41, 0x00db6a03]

/-- `confirm`, without the zero at its end. -/
def confirm : Bytes := "Exchange Succeeded Successfully!".toList.map fun ch => BitVec.ofNat 8 ch.toNat

/-- What the first stage shows the host. -/
def stage1Publish (l : Stage1) (ctr : Fin 4 → Word) (m : Nat → Word) : Nat → Word :=
  put (put m l.imeXchgCounter ctr) l.dpuPubkeyRaw dpuPubkeyWram

/-- Up to the load of the second stage. -/
def stage1Main (l : Stage1) (ctr : Fin 4 → Word) (host : (Nat → Word) → Nat → Word) (s : St) : Exit :=
  let mram := host (stage1Publish l ctr s.mram)
  let wram := put s.wram xchgCnt ctr
  let wram := blit wram xchgShared mram l.clientPubkeyRaw 64
  let wram := blit wram xchgKeyEnc mram l.imeKeyIn 12
  .replace { s with mram := mram, wram := wram } imeXchgSk2 0 0

/-- Up to the load of the third stage, unless the assertion fails. -/
def stage2Main (x : External) (s : St) : Option Exit := do
  let pk ← x.expMod (fun i => s.wram (xchgShared + i)) imeRawSk imeRawPrime
  return .replace { s with wram := put s.wram xchgShared pk } imeXchgSk3 0 0

/-- The key the two sides derive. -/
def sessionKey (x : External) (shared : Fin 64 → Word) (ctr : Fin 4 → Word) : Fin 8 → Word :=
  x.sha256 (List.ofFn shared ++ List.ofFn ctr)

/-- `counter` is what `__ime_get_counter` would give. -/
def stage3Main (c : Crypto) (x : External) (l : Stage3) (counter : Fin 4 → Word) (s : St) : Option Exit := do
  let key := sessionKey x (fun i => s.wram (xchgShared + i)) fun i => s.wram (xchgCnt + i)
  let r ← Runtime.imeAeadDec c key (fun _ => 0) (fun i => s.wram (xchgKeyEnc + 8 + i)) 32 xchgKeyEncAt l.finalKey
    ⟨s.wram, s.mram, []⟩
  if !r.1 then return .ret { s with wram := r.2.wram, mram := r.2.mram }
  let final_key : Fin 8 → Word := fun i => r.2.wram (l.finalKey.toNat / 4 + i)
  let wram := put r.2.wram loadPropKey final_key
  let mram := lay r.2.mram (mramAt l.gXchgOut) (wordsOf confirm)
  let r ← Runtime.imeAeadEncMram c final_key none counter 32 l.gXchgOut l.gXchgOut ⟨wram, mram, []⟩
  let mram := put r.2.2.mram l.gOutputTag r.1
  let mram := put mram l.gOutputIv r.2.1
  return .replace { s with wram := r.2.2.wram, mram := mram } imeMsgSk 0 0

/-! ## One after the other -/

/-- What an exchange depends on besides the memories: the library, the
linker's and the compiler's choices, the two values of the counter and what
the host does. -/
structure Setting where
  c : Crypto
  x : External
  stage1 : Stage1
  stage3 : Stage3
  frames : Fin 3 → Frames
  left : Fin 3 → Nat → Word
  ctr : Fin 4 → Word
  ivCtr : Fin 4 → Word
  host : (Nat → Word) → Nat → Word

/-- From the entry of the first stage to that of `msg`; without a value if the
DPU stops on the way. -/
def exchange (e : Setting) (s : St) : Option St := do
  let s ← leave e.c (e.frames 0) xchgPersist (e.left 0) (stage1Main e.stage1 e.ctr e.host s)
  let s ← leave e.c (e.frames 1) xchgPersist (e.left 1) (← stage2Main e.x s)
  leave e.c (e.frames 2) xchgPersist (e.left 2) (← stage3Main e.c e.x e.stage3 e.ivCtr s)

end Memclave.Services
