/-
The loader of `src/core`: `ime_replace_sk` of `core_load.S` and what it
calls, from `core_thrd.s`, `core_mem.s`, `core_util.s`, `core_crypt.c`,
`aead.c`, `core_scan.c`, `core_wram.s` and `core_iram.s`.

An assembly routine takes the registers it reads and returns those its
caller reads. A loop that ends with its subtraction at zero is a recursion
on the register. The locals of a C function are values here; what its frame
does to the stack is `useStack`.
-/
import Memclave.MachineFacts
import Memclave.Scan

namespace Memclave.Loader

open Words Exec

/-- `ime_sk`, without `pad` and `body`. -/
@[ext]
structure Header where
  magic : Word
  tag : Fin 4 → Word
  iv : Fin 3 → Word
  sizeAad : Word
  size : Word
  textSize : Word
  dataSize : Word

def Header.ofWords (w : Fin 16 → Word) : Header where
  magic := w 0
  tag := ![w 1, w 2, w 3, w 4]
  iv := ![w 5, w 6, w 7]
  sizeAad := w 8
  size := w 9
  textSize := w 10
  dataSize := w 11

/-! ## The places the linker chose -/

/-- `__ime_scratch_a`. -/
def scratchA : Word := 0xBF80000

/-- `__ime_user_start`, an instruction's index times 8. -/
def userStart : Word := 0x2000

/-- `__ime_threadio_start`. -/
def threadio : Word := 0xFFC0

/-- `STACK_SIZE_TASKLET_0 - 4`; the stack begins at 0. -/
def canaryAt : Word := 4092

def canary : Word := 0xEF11B0D9

/-! ## `core_util.s` -/

/-- The DMA at `r21` faults in user code, which has `64 << 20` there. -/
def imeCheckSystem (r21 : Word) : Prog Unit := do
  let r1 ← lw 0
  let r2 ← lw 4
  ldma 0 r21 1
  sw 0 r1
  sw 4 r2
  if (← get).id ≠ 0 then throw .sec

/-- The loop's own `ldma` tests `r0` again: the test stands here because it
is why the loop ends, whatever `r4` is. -/
def imeCopySkLoop (r0 r1 r4 : Word) : Prog Unit := do
  if h : InMram r0 2 then
    ldma 0 r0 1
    sdma 0 r1 1
    if r4 + (-8) = 0 then return
    else imeCopySkLoop (r0 + 8) (r1 + 8) (r4 + (-8))
  else throw .mem
termination_by 2 ^ 27 - mramOff r0
decreasing_by
  have := mramOff_lt h
  have h8 : mramOff (r0 + 8) = mramOff r0 + 8 := mramOff_add (by omega)
  omega

def imeCopySk (r0 r1 : Word) : Prog Unit := do
  let r2 ← lw 0
  let r3 ← lw 4
  ldma 0 (r0 + 0x20) 1
  let r4 ← lw 4
  imeCopySkLoop r0 r1 r4
  sw 0 r2
  sw 4 r3

def imePushSk (r0 : Word) : Prog Unit := imeCopySk r0 scratchA

def imePopSk (r0 : Word) : Prog Unit := imeCopySk scratchA r0

/-! ## `core_thrd.s` and `core_mem.s` -/

/-- A thread that runs code of the user's keeps its run bit through both
rounds of `boot`; the others have stopped again by the second. -/
def imeCheckThreads : Prog Unit := do
  if (List.range' 1 15).any (← get).running then throw .sec

def imeWipeLoop (r0 : Word) : Prog Unit := do
  sw r0 0
  if h : (r0 + (-4)).msb then return
  else imeWipeLoop (r0 + (-4))
termination_by r0.toNat
decreasing_by
  rw [BitVec.msb_eq_decide] at h
  simp only [decide_eq_true_eq] at h
  have h4 : (-4 : Word).toNat = 2 ^ 32 - 4 := by decide
  rw [BitVec.toNat_add, h4] at h ⊢
  have := word_lt r0
  omega

def imeWipeUser (r17 : Word) : Prog Unit := do
  if (r17 + (-4)).msb then return
  else imeWipeLoop (r17 + (-4))

/-! ## `aead.c` -/

/-- `n` words of WRAM from a pointer on. -/
def lwArray (a : Word) (n : Nat) : Prog (Fin n → Word) := do
  if a.toNat % 4 = 0 ∧ a.toNat / 4 + n ≤ wramWords then
    let s ← get
    return fun i => s.wram (a.toNat / 4 + i)
  else throw .mem

/-- The stack below the canary, after a C function was there. -/
def useStack (f : Frames) : Prog Unit :=
  modify fun s => { s with wram := fun k => if k < 1023 then f.stack k else s.wram k }

/-- `ime_chacha_blk`: with a key of the user's, or with the system key, by
way of the thread-io area and thread 22. -/
def imeChachaBlk (c : Crypto) (f : Frames) (r21 key ctr : Word) (iv : Fin 3 → Word) :
    Prog (Fin 16 → Word) := do
  if key ≠ 0 then
    return c.chachaBlk (← lwArray key 8) ctr iv
  else
    if (← get).id ≠ 0 then throw .sanity
    sw (threadio + 60) 0xFFFFFFFF
    sw threadio 0
    sw (threadio + 0x04) ctr
    sw (threadio + 0x08) (iv 0)
    sw (threadio + 0x0C) (iv 1)
    sw (threadio + 0x10) (iv 2)
    sw (threadio + 0x14) f.out
    if (← get).running 22 then throw .sec
    -- thread 22 keeps the word at 0, writes `out` and clears the last word
    sw (threadio + 0x18) (← lw 0)
    sw (threadio + 60) 0
    imeCheckSystem r21
    return c.chachaBlk (← get).sysKey ctr iv

def fetchSkChunk (sk : Word) (chunk : Nat) : Prog (Fin 4 → Word) :=
  mramRead (sk + BitVec.ofNat 32 (16 * chunk)) 4

def xorSkChunk (sk : Word) (chunk : Nat) (data : Fin 16 → Word) : Prog Unit := do
  let buf ← mramRead (sk + BitVec.ofNat 32 (64 * chunk)) 16
  mramWrite (fun i => buf i ^^^ data i) (sk + BitVec.ofNat 32 (64 * chunk))

/-- The first half of a block: the key `poly_init` is given. -/
def polyKey (out : Fin 16 → Word) : Fin 8 → Word := fun i => out ⟨i, lt_sixteen i⟩

/-- A pass of the two loops that feed the subkernel. -/
def feedSkChunk (c : Crypto) (sk : Word) (i : Nat) (ctx : c.Ctx) : Prog c.Ctx := do
  let buf ← fetchSkChunk sk i
  log (.fed (mramAt (sk + BitVec.ofNat 32 (16 * i))))
  return c.polyFeedBlock ctx buf

def imeDecryptVerify (c : Crypto) (f : Frames) (sk key : Word) : Prog Bool := do
  let sk_hdr := Header.ofWords (← mramRead sk 16)
  let chacha_output ← imeChachaBlk c f sk key 0 sk_hdr.iv
  let ctx := c.polyInit (polyKey chacha_output)
  let ctx := c.polyFeedBlock ctx ![0xA5A5A5A5, 0, 0, 0]
  let ctx := c.polyFeedBlock ctx ![0, 0, 0, 0]
  let size_aad := sk_hdr.sizeAad.toNat
  let size := sk_hdr.size.toNat
  let ctx ← forRange 2 (size_aad / 16) ctx (feedSkChunk c sk)
  let ctx ← forRange (size_aad / 16) (size / 16) ctx (feedSkChunk c sk)
  let ctx := c.polyFeedBlock ctx ![sk_hdr.sizeAad, 0, sk_hdr.size - sk_hdr.sizeAad, 0]
  let tag := c.polyFinalize ctx
  if ∀ i, tag i = sk_hdr.tag i then
    forRange (size_aad / 64) (size / 64) () fun i _ => do
      let chacha_output ← imeChachaBlk c f sk key (BitVec.ofNat 32 (i - size_aad / 64 + 1)) sk_hdr.iv
      xorSkChunk sk i chacha_output
    return true
  else return false

/-! ## `core_crypt.c` -/

/-- `&sk->tag[0]` is not a multiple of 8, so the four words that the DMA
brings begin with `magic`. -/
def imeDecryptSk (c : Crypto) (f : Frames) (sk tag user_key : Word) : Prog Unit := do
  useStack f
  imeCheckSystem sk
  let sk_tag ← mramRead (sk + 4) 4
  if tag ≠ 0 then
    let tag ← lwArray tag 4
    if ∃ i, tag i ≠ sk_tag i then throw .sec
  if !(← imeDecryptVerify c f sk user_key) then throw .sec

/-! ## `core_scan.c` -/

/-- Two words of memory as one of 64 bits. -/
def dword (w : Fin 2 → Word) : BitVec 64 := w 1 ++ w 0

def scanInst (sk : Word) (i : Nat) : Prog Unit := do
  let inst := dword (← mramRead (sk + 64 + BitVec.ofNat 32 (8 * i)) 2)
  log (.scanned inst)
  if isLdmai inst then throw .sec
  if isThreadCtrl inst then throw .sec
  if isBannedReg inst then throw .sec

def imeScanSk (f : Frames) (sk : Word) : Prog Unit := do
  useStack f
  let sz ← mramRead (sk + 40) 2
  forRange 0 ((sz 0).toNat * 256) () fun i _ => scanInst sk i
  imeCheckSystem sk

/-! ## `core_wram.s` and `core_iram.s` -/

/-- `n` sections of 2048 bytes, one after the other. -/
def sections (load : Word → Word → Prog Unit) : Nat → Word → Word → Prog Unit
  | 0, _, _ => pure ()
  | n + 1, dst, src => do
    load dst src
    sections load n (dst + 2048) (src + 2048)

/-- `clw_loop` with `r2` at the number of sections left. -/
def clwLoop : Nat → Word → Word → Prog Unit := sections fun r0 r1 => do
  ldma r0 r1 256
  log (.toWram (wramAt r0) (mramAt r1))

def imeLoadWram (r21 : Word) : Prog Unit := do
  ldma 0 r21 8
  let r1 ← lw 0
  if r1 ^^^ 0xA5A5A5A5 ≠ 0 then throw .sanity
  let r1 ← lw 40
  let r1 := (r1 <<< 11) + 64 + r21
  let r2 ← lw 44
  clwLoop r2.toNat 0 r1

/-- From `cls_table_n` on; the last entry does not move the registers. -/
def clsTable : Nat → Word → Word → Prog Unit := sections fun r20 r21 => do
  ldmai r20 r21 256
  log (.toIram (wramAt r20) (mramAt r21))

/-- Returns the load address in `r0`. -/
def imeLoadIram (r20 r21 : Word) : Prog Word := do
  let r0 ← lw 0
  let r1 ← lw 4
  let r21 := r21 + 40
  ldma 0 r21 1
  let r2 ← lw 0
  let r21 := r21 + 24
  sw 0 r0
  sw 4 r1
  let r0 := r21 + (-64)
  if r2 = 0 then throw .sec
  if r2 &&& 0xFFFFFFF0 ≠ 0 then throw .sec
  -- four instructions of the table for each section that is not there
  let r2 := (15 - r2) <<< 2
  clsTable (15 - r2.toNat / 4) r20 r21
  return r0

/-! ## `core_load.S` -/

/-- Up to the jump to `__ime_user_start`. -/
def imeReplaceSk (c : Crypto) (f : Frames) (sk tag user_key wipe_wram : Word) : Prog Unit := do
  imeCheckThreads
  imeWipeUser wipe_wram
  imePushSk sk
  sw canaryAt canary
  imeDecryptSk c f sk tag user_key
  imeScanSk f sk
  let r0 ← lw canaryAt
  if r0 ^^^ canary ≠ 0 then throw .sec
  imeLoadWram sk
  let r0 ← imeLoadIram userStart sk
  imePopSk r0

end Memclave.Loader
