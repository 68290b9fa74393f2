/-
The stream cipher and the AEAD of the runtime: `ime-rt/aead.c`.

A buffer is reached by a tagged pointer, which names WRAM or MRAM by its
leading bit. The arrays of the key, the iv and the tag are values, so that
one of them lies in the output is outside the model, and so is the DPU's own
fault on an address outside a memory. Memories are functions of the index of
a word, and `reads` records what was read of them: no function reads it. A
DMA takes the 8-byte word its address lies in.
-/
import Memclave.Machine
import Memclave.Lib.Aead

namespace Memclave.Runtime

open Words Copy Loader

inductive Space where
  | wram
  | mram
deriving DecidableEq, Repr

/-- What a buffer is read for. -/
inductive Use where
  | cipher
  | mac
deriving DecidableEq, Repr

/-- `words` words read from word `start` on. -/
structure Access where
  use : Use
  space : Space
  start : Nat
  words : Nat
deriving DecidableEq, Repr

structure St where
  wram : Nat → Word
  mram : Nat → Word
  /-- the history, the latest read first -/
  reads : List Access

def St.mem (s : St) : Space → Nat → Word
  | .wram => s.wram
  | .mram => s.mram

def St.setMem (s : St) (m : Nat → Word) : Space → St
  | .wram => { s with wram := m }
  | .mram => { s with mram := m }

/-! ## Tagged pointers -/

/-- `PTR_32_IS_MRAM` -/
def ptr32IsMram (ptr : Word) : Bool := ptr.msb

/-- `PTR_32_MRAM` -/
def ptr32Mram (ptr : Word) : Word := ptr &&& ~~~0x80000000

/-- `PTR_32`, by the type of its argument. -/
def ptr32 : Space → Word → Word
  | .wram, ptr => ptr
  | .mram, ptr => ptr ||| 0x80000000

def spaceOf (ptr : Word) : Space := if ptr32IsMram ptr then .mram else .wram

/-- The word of its memory that a tagged pointer means. -/
def wordOf (ptr : Word) : Nat := if ptr32IsMram ptr then mramAt (ptr32Mram ptr) else ptr.toNat / 4

/-- `mram_read` or `memcpy` of `sz` bytes. -/
def ptr32Read (use : Use) (src sz : Word) (s : St) : List Word × St :=
  (cells (s.mem (spaceOf src)) (wordOf src) (sz.toNat / 4),
    { s with reads := ⟨use, spaceOf src, wordOf src, sz.toNat / 4⟩ :: s.reads })

/-- `mram_write` or `memcpy`. -/
def ptr32Write (src : List Word) (tgt : Word) (s : St) : St :=
  s.setMem (lay (s.mem (spaceOf tgt)) (wordOf tgt) src) (spaceOf tgt)

/-! ## `ime_chacha_crypt` -/

section

variable (c : Crypto) (key : Fin 8 → Word)

/-- The size of the chunk of pass `i`. -/
def chunkSize (len i : Word) : Word :=
  let sz := len - i * 16
  if sz < 64 then sz else 64

/-- A pass of the loop. What `tmp` holds past `sz` bytes is xored as well
but not written, so that `tmp` is what has been read. -/
def chachaPass (iv : Fin 3 → Word) (len buf out_buf i : Word) (s : St) : St :=
  let (tmp, s) := ptr32Read .cipher (buf + i * 64) (chunkSize len i) s
  let block := c.chachaBlk key (i + 1) iv
  ptr32Write (tmp.mapIdx fun j w => w ^^^ block (Fin.ofNat 16 j)) (out_buf + i * 64) s

/-- The loop, with a bound on its passes. -/
def chachaLoop (iv : Fin 3 → Word) (stride len buf out_buf : Word) : Nat → Word → St → Option St
  | 0, _, _ => none
  | fuel + 1, i, s =>
    if i < (len + 63) / 64 then
      chachaLoop iv stride len buf out_buf fuel (i + stride) (chachaPass c key iv len buf out_buf i s)
    else some s

/-- Without a value where the loop does not end, which is a stride of 0. -/
def imeChachaCrypt (iv : Fin 3 → Word) (stride len buf out_buf : Word) (s : St) : Option St :=
  chachaLoop c key iv stride len buf out_buf (len.toNat / 64 + 2) 0 s

/-! ## `ime_poly_simple` -/

def imePolySimple (iv : Fin 3 → Word) (len buf : Word) (s : St) : (Fin 4 → Word) × St :=
  let block := c.chachaBlk key 0 iv
  let ctx := c.polyInit fun i => block ⟨i, lt_sixteen i⟩
  let (ctx, s) := (List.range (len.toNat / 16)).foldl (fun (ctx, s) i =>
    let (block, s) := ptr32Read .mac (buf + BitVec.ofNat 32 i * 16) 16 s
    (c.polyFeedBlock ctx fun j => block.getD j 0, s)) (ctx, s)
  (c.polyFinalize (c.polyFeedBlock ctx ![0, 0, len, 0]), s)

/-! ## The AEAD -/

/-- The iv given, or the counter's value where there is none. -/
def ivOf (p_iv : Option (Fin 3 → Word)) (counter : Fin 4 → Word) : Fin 3 → Word :=
  p_iv.getD fun i => counter ⟨i, by omega⟩

/-- `out_tag`, `out_iv` and the state after it; `counter` is what
`__ime_get_counter` would give. -/
def imeAeadEncGen (p_iv : Option (Fin 3 → Word)) (counter : Fin 4 → Word) (len buf out_buf : Word) (s : St) :
    Option ((Fin 4 → Word) × (Fin 3 → Word) × St) := do
  let iv := ivOf p_iv counter
  let s ← imeChachaCrypt c key iv 1 len buf out_buf s
  let (out_tag, s) := imePolySimple c key iv len out_buf s
  return (out_tag, iv, s)

def imeAeadDecGen (iv : Fin 3 → Word) (tag : Fin 4 → Word) (len buf out_buf : Word) (s : St) :
    Option (Bool × St) := do
  let (computed_tag, s) := imePolySimple c key iv len buf s
  let valid := (List.finRange 4).foldl (fun valid i => valid && computed_tag i == tag i) true
  if !valid then return (false, s)
  let s ← imeChachaCrypt c key iv 1 len buf out_buf s
  return (true, s)

def imeAeadEnc (iv : Option (Fin 3 → Word)) (counter : Fin 4 → Word) (len buf out_buf : Word) (s : St) :=
  imeAeadEncGen c key iv counter len (ptr32 .wram buf) (ptr32 .wram out_buf) s

def imeAeadDec (iv : Fin 3 → Word) (tag : Fin 4 → Word) (len buf out_buf : Word) (s : St) :=
  imeAeadDecGen c key iv tag len (ptr32 .wram buf) (ptr32 .wram out_buf) s

def imeAeadEncMram (iv : Option (Fin 3 → Word)) (counter : Fin 4 → Word) (len buf out_buf : Word) (s : St) :=
  imeAeadEncGen c key iv counter len (ptr32 .mram buf) (ptr32 .mram out_buf) s

def imeAeadDecMram (iv : Fin 3 → Word) (tag : Fin 4 → Word) (len buf out_buf : Word) (s : St) :=
  imeAeadDecGen c key iv tag len (ptr32 .mram buf) (ptr32 .mram out_buf) s

/-! ## The stream cipher -/

/-- `out_iv` and the state after it. -/
def imeChachaEncGen (p_iv : Option (Fin 3 → Word)) (counter : Fin 4 → Word) (stride len buf out_buf : Word)
    (s : St) : Option ((Fin 3 → Word) × St) := do
  let iv := ivOf p_iv counter
  let s ← imeChachaCrypt c key iv stride len buf out_buf s
  return (iv, s)

def imeChachaDecGen (iv : Fin 3 → Word) (stride len buf out_buf : Word) (s : St) : Option St :=
  imeChachaCrypt c key iv stride len buf out_buf s

def imeChachaEnc (iv : Option (Fin 3 → Word)) (counter : Fin 4 → Word) (len buf out_buf : Word) (s : St) :=
  imeChachaEncGen c key iv counter 1 len (ptr32 .wram buf) (ptr32 .wram out_buf) s

def imeChachaDec (iv : Fin 3 → Word) (len buf out_buf : Word) (s : St) :=
  imeChachaDecGen c key iv 1 len (ptr32 .wram buf) (ptr32 .wram out_buf) s

def imeChachaEncMram (iv : Option (Fin 3 → Word)) (counter : Fin 4 → Word) (stride len buf out_buf : Word)
    (s : St) :=
  imeChachaEncGen c key iv counter stride len (ptr32 .mram buf) (ptr32 .mram out_buf) s

def imeChachaDecMram (iv : Fin 3 → Word) (stride len buf out_buf : Word) (s : St) :=
  imeChachaDecGen c key iv stride len (ptr32 .mram buf) (ptr32 .mram out_buf) s

end

end Memclave.Runtime
