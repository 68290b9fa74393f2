/-
From the first-stage loader to `msg`: `main` of `fsl/main.c`, `install_keys`,
`replace` and `core_on_boot`.

The generator of random numbers comes in with what it gives, call by call; the
stack and the data of the first-stage loader are what is in WRAM.
-/
import Memclave.FirstStageFacts
import Memclave.ServicesFacts
import Memclave.Counter
import Memclave.Session

namespace Memclave.Boot

open Words Copy Loader FirstStage Services

/-! ## `core.s` -/

/-- What `core_on_boot` does with a thread. -/
inductive Path where
  /-- `core_on_ctr_thread` -/
  | counter
  /-- `ime_chacha_thread` -/
  | cipher
  /-- `core_on_sigret` -/
  | sigret
  /-- `core_cont_boot` -/
  | load
  /-- stops, with the registers that user code has -/
  | stop
deriving DecidableEq, Repr

/-- The order of the tests is the source's. -/
def path (id : Nat) (r23 : Word) : Path :=
  if id = 23 then .counter
  else if id = 22 then .cipher
  else if r23 = 0xFFFFFFFF then .sigret
  else if id = 0 then .load
  else .stop

/-- `core_cont_boot` -/
def coreContBoot (c : Crypto) (f : Frames) : Prog Unit := imeReplaceSk c f 0x3F00000 0 0 0

/-! ## `fsl` -/

/-- What the first-stage loader depends on besides the memories. -/
structure Fsl where
  lib : ChachaPoly
  /-- `mbedtls_hmac_drbg_seed` and `mbedtls_hmac_drbg_update` report no error -/
  seeded : Bool
  /-- the generator's answers: the key, and the iv of each subkernel in turn -/
  key : Option Bytes
  iv : Fin 4 → Option Bytes
  /-- what is on the stack where `enc_sk` has its buffer -/
  buffer : Fin 4 → Bytes
  /-- the place of `sys_key` in WRAM, by the word -/
  sysKeyAt : Nat
  /-- `g_tl - 0x08000000` -/
  tl : Word

/-- `on_thread_22` -/
def onThread22 (L : Fsl) (s : St) : Fin 8 → Word := fun i => s.wram (L.sysKeyAt + i)

/-- Up to `replace`, with the first value of the counter. -/
def fslMain (L : Fsl) (dpu_index : Word) (s : St) : Option (St × (Fin 4 → Word)) := do
  guard L.seeded
  let sys_key ← L.key
  let m ← encSk L.lib (L.iv 0) (L.buffer 0) s.mram (mramAt imeXchgSk1) sys_key
  let m ← encSk L.lib (L.iv 1) (L.buffer 1) m (mramAt imeXchgSk2) sys_key
  let m ← encSk L.lib (L.iv 2) (L.buffer 2) m (mramAt imeXchgSk3) sys_key
  let m ← encSk L.lib (L.iv 3) (L.buffer 3) m (mramAt imeMsgSk) sys_key
  let s := { s with mram := m, wram := put s.wram L.sysKeyAt (Aead.keyWords sys_key) }
  return ({ s with sysKey := onThread22 L s }, Counter.onThread23 (Counter.packIndex dpu_index))

/-- `replace`: four loads of 2 KiB, and the jump to where `core_on_boot` is now,
on thread 0 and with `r23` zero. -/
def replace (c : Crypto) (f : Frames) (L : Fsl) : Prog Unit := do
  sections (fun r0 r1 => ldmai r0 r1 256) 4 0 L.tl
  if path (← get).id 0 = .load then coreContBoot c f

end Memclave.Boot
