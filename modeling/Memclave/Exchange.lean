/-
The key exchange, from the entry of its first stage to that of `msg`: it
always gets there, with the key the host handed in if and only if that key was
sealed for this exchange (`exchange_ends`), and a client who follows the
protocol agrees with the DPU on the key (`exchange_agrees`).

The third stage returns from `main` where it refuses the key. That clears the
key and the data of the stage, but not the area that persists: the shared
secret stays in WRAM until `msg` loads the next subkernel.
-/
import Memclave.ServicesFacts
import Memclave.Lib.Sha256

namespace Memclave.Services

open Words Copy Loader

variable {c : Crypto} {x : External} {s s' : St} {m : Nat → Word} {e : Setting} {shared : Fin 64 → Word}

/-! ## Where the arrays may lie -/

/-- The arrays of the first stage are apart and below the system's place. -/
structure Stage1.Placed (l : Stage1) : Prop where
  counter : l.imeXchgCounter + 4 ≤ systemStart
  pubkey : l.dpuPubkeyRaw + 64 ≤ systemStart
  apart : l.imeXchgCounter + 4 ≤ l.dpuPubkeyRaw ∨ l.dpuPubkeyRaw + 64 ≤ l.imeXchgCounter

/-- Those of the third as well, and `final_key` is below the area that persists. -/
structure Stage3.Placed (l : Stage3) : Prop where
  out : Runtime.IsBuf .mram l.gXchgOut 8
  outBelow : mramAt l.gXchgOut + 8 ≤ systemStart
  tag : l.gOutputTag + 4 ≤ systemStart
  iv : l.gOutputIv + 3 ≤ systemStart
  outTag : mramAt l.gXchgOut + 8 ≤ l.gOutputTag ∨ l.gOutputTag + 4 ≤ mramAt l.gXchgOut
  outIv : mramAt l.gXchgOut + 8 ≤ l.gOutputIv ∨ l.gOutputIv + 3 ≤ mramAt l.gXchgOut
  tagIv : l.gOutputTag + 4 ≤ l.gOutputIv ∨ l.gOutputIv + 3 ≤ l.gOutputTag
  key : Runtime.IsBuf .wram l.finalKey 8
  keyBelow : l.finalKey.toNat / 4 + 8 ≤ xchgShared

/-! ## The third stage -/

section

variable (c x)

/-- What the third stage finds of the encrypted key. -/
def sealedKey (s : St) : List Word := cells s.wram xchgKeyEnc 8

def sealedTag (s : St) : Fin 4 → Word := fun i => s.wram (xchgKeyEnc + 8 + i)

/-- The key it derives. -/
def derivedKey (s : St) : Fin 8 → Word := sessionKey x (fun i => s.wram (xchgShared + i)) fun i => s.wram (xchgCnt + i)

/-- The text of a sealed key, if it has its tag. -/
def opened (s : St) : Option (List Word) :=
  c.suite.unseal (derivedKey x s) (fun _ => 0) [] (sealedKey s) (sealedTag s)

end

/-- The confirmation that the third stage leaves in MRAM. -/
def confirmation (c : Crypto) (l : Stage3) (key : Fin 8 → Word) (m : Nat → Word) : Option (List Word) :=
  c.suite.unseal key (fun i => m (l.gOutputIv + i)) [] (cells m (mramAt l.gXchgOut) 8) fun i => m (l.gOutputTag + i)

/-- A row of eight words as an array. -/
def keyArray (l : List Word) : Fin 8 → Word := fun i => l.getD i 0

theorem wordsOf_confirm_length : (wordsOf confirm).length = 8 := by decide

theorem cells_lay {l : List Word} {d n : Nat} (h : l.length = n) : cells (lay m d l) d n = l := by
  refine List.ext_getElem (by rw [cells_length, h]) fun i h1 h2 => ?_
  rw [cells_getElem, lay_in h2]

/-- A buffer of 32 bytes. -/
theorem points_key {sp : Runtime.Space} {ptr : Word} (h : Runtime.IsBuf sp ptr 8) :
    Runtime.Points (Runtime.ptr32 sp ptr) sp (Runtime.ptrWord sp ptr) ((32 : Word).toNat / 4) := h.points

theorem keyEnc_points : Runtime.Points (Runtime.ptr32 .wram xchgKeyEncAt) .wram xchgKeyEnc ((32 : Word).toNat / 4) :=
  points_key (show Runtime.IsBuf .wram xchgKeyEncAt 8 from ⟨by decide, by decide⟩)

/-- A key that does not have its tag is refused. -/
theorem stage3_refuses {l : Stage3} {counter : Fin 4 → Word} (h : opened c x s = none) :
    stage3Main c x l counter s = some (.ret s) := by
  have hdec : Runtime.imeAeadDec c (derivedKey x s) (fun _ => 0) (sealedTag s) 32 xchgKeyEncAt l.finalKey
      ⟨s.wram, s.mram, []⟩ = some (false, Runtime.afterMac .wram xchgKeyEnc 32 ⟨s.wram, s.mram, []⟩) :=
    Runtime.dec_refused keyEnc_points (by decide) (Aead.unseal_eq_none.mp h)
  unfold derivedKey sealedTag at hdec
  simp only [stage3Main, hdec, Option.bind_eq_bind, Option.bind_some]
  rfl

/-- What the third stage leaves of the state where it takes the key `k`. -/
structure Installed (c : Crypto) (l : Stage3) (k : List Word) (s s' : St) : Prop where
  key : cells s'.wram loadPropKey 8 = k
  confirmed : confirmation c l (keyArray k) s'.mram = some (wordsOf confirm)
  wram : ∀ j, xchgShared ≤ j → j < loadPropKey → s'.wram j = s.wram j
  mram : ∀ j, systemStart ≤ j → s'.mram j = s.mram j
  sysKey : s'.sysKey = s.sysKey
  quiet : Quiet s → Quiet s'

/-- A text of eight words is in the first block. -/
theorem passed_out {key : Fin 8 → Word} {iv : Fin 3 → Word} {spb spo : Runtime.Space} {wb wo k : Nat} {r r' : Runtime.St}
    (sp : Runtime.Space)
    (h : Runtime.Passed c key iv 32 spb wb spo wo r (List.range 1) r') (hk : ¬ (sp = spo ∧ wo ≤ k ∧ k < wo + 8)) :
    r'.mem sp k = r.mem sp k := by
  refine h.frame sp k fun a ha hin => hk ?_
  have ha : a = 0 := by simpa using ha
  have h8 : Runtime.chunk 32 0 = 8 := by decide
  rw [ha, h8] at hin
  exact hin

theorem keyArray_cells {w : Nat → Word} {d : Nat} {k : List Word} (h : cells w d 8 = k) :
    (fun i : Fin 8 => w (d + i)) = keyArray k := by
  funext i
  have hi : i.val < (cells w d 8).length := by
    rw [cells_length]
    exact i.isLt
  rw [keyArray, ← h, List.getD_eq_getElem _ _ hi, cells_getElem]

theorem ofFn_keyArray {k : List Word} (h : k.length = 8) : List.ofFn (keyArray k) = k := by
  refine List.ext_getElem (by rw [List.length_ofFn, h]) fun i h1 h2 => ?_
  rw [List.getElem_ofFn]
  exact List.getD_eq_getElem _ _ h2

/-- The confirmation, once the third stage has put its parts in their places. -/
theorem confirmation_put {l : Stage3} {key : Fin 8 → Word} {iv : Fin 3 → Word} {text : List Word} (hl : l.Placed)
    (h : cells m (mramAt l.gXchgOut) 8 = c.suite.crypt key 1 iv text) :
    confirmation c l key (put (put m l.gOutputTag
      (c.suite.tag key iv [] (cells m (mramAt l.gXchgOut) 8))) l.gOutputIv iv) = some text := by
  set tag := c.suite.tag key iv [] (cells m (mramAt l.gXchgOut) 8)
  have hiv : (fun i : Fin 3 => put (put m l.gOutputTag tag) l.gOutputIv iv (l.gOutputIv + i)) = iv :=
    funext fun i => put_at i
  have htag : (fun i : Fin 4 => put (put m l.gOutputTag tag) l.gOutputIv iv (l.gOutputTag + i)) = tag :=
    funext fun i => by
      have := hl.tagIv
      rw [put_out (by omega), put_at]
  have hout : cells (put (put m l.gOutputTag tag) l.gOutputIv iv) (mramAt l.gXchgOut) 8 = cells m (mramAt l.gXchgOut) 8 :=
    cells_congr fun k h1 h2 => by
      have := hl.outTag
      have := hl.outIv
      rw [put_out (by omega), put_out (by omega)]
  rw [confirmation, hiv, htag, hout]
  exact Aead.unseal_eq_some.mpr ⟨rfl, by rw [h, Aead.crypt_crypt]⟩

/-- A key that has its tag is taken, and confirmed. -/
theorem stage3_installs {l : Stage3} {k : List Word} (counter : Fin 4 → Word) (hl : l.Placed)
    (h : opened c x s = some k) :
    ∃ s', stage3Main c x l counter s = some (.replace s' imeMsgSk 0 0) ∧ Installed c l k s s' := by
  have hbelow := hl.keyBelow
  have h1 : xchgShared ≤ xchgKeyEnc := by decide
  obtain ⟨htag, hk⟩ := Aead.unseal_eq_some.mp h
  -- the key is decrypted to the stack
  obtain ⟨r1, hp1, hdec⟩ := Runtime.dec_spec c (derivedKey x s) (fun _ => 0) ⟨s.wram, s.mram, []⟩
    keyEnc_points (points_key hl.key) (by decide) (by decide) htag
  have hkey : cells r1.wram (l.finalKey.toNat / 4) 8 = k :=
    (hp1.cells_crypt (.inr (.inr (.inr (Nat.le_trans hbelow h1))))).trans hk
  have hklen : k.length = 8 := by rw [← hkey, cells_length]
  -- and the text encrypted in place
  obtain ⟨r2, hp2, henc⟩ := Runtime.enc_spec c (keyArray k) none counter
    ⟨put r1.wram loadPropKey (keyArray k), lay r1.mram (mramAt l.gXchgOut) (wordsOf confirm), []⟩
    (points_key hl.out) (points_key hl.out) (by decide) (by decide)
  have hct : cells r2.mram (mramAt l.gXchgOut) 8 =
      c.suite.crypt (keyArray k) 1 (Runtime.ivOf none counter) (wordsOf confirm) := by
    refine (hp2.cells_crypt (.inl ⟨rfl, rfl⟩)).trans (congrArg _ ?_)
    exact cells_lay wordsOf_confirm_length
  have hwram : r2.wram = put r1.wram loadPropKey (keyArray k) :=
    funext fun j => passed_out .wram hp2 fun hin => by cases hin.1
  have hr1 : ∀ j, xchgShared ≤ j → r1.wram j = s.wram j := fun j hj =>
    passed_out .wram hp1 fun hin => by
      have : j < l.finalKey.toNat / 4 + 8 := hin.2.2
      omega
  have hr2 : ∀ j, systemStart ≤ j → r2.mram j = s.mram j := fun j hj => by
    have hout := hl.outBelow
    have h2 : r2.mram j = lay r1.mram (mramAt l.gXchgOut) (wordsOf confirm) j :=
      passed_out .mram hp2 fun hin => by
        have : j < mramAt l.gXchgOut + 8 := hin.2.2
        omega
    have h1 : r1.mram j = s.mram j := passed_out .mram hp1 fun hin => by cases hin.1
    rw [h2, lay_out (by rw [wordsOf_confirm_length]; omega), h1]
  have hdec' : Runtime.imeAeadDec c (sessionKey x (fun i => s.wram (xchgShared + i)) fun i => s.wram (xchgCnt + i))
      (fun _ => 0) (fun i => s.wram (xchgKeyEnc + 8 + i)) 32 xchgKeyEncAt l.finalKey ⟨s.wram, s.mram, []⟩ =
      some (true, r1) := hdec
  have henc' : Runtime.imeAeadEncMram c (keyArray k) none counter 32 l.gXchgOut l.gXchgOut
      ⟨put r1.wram loadPropKey (keyArray k), lay r1.mram (mramAt l.gXchgOut) (wordsOf confirm), []⟩ =
      some (c.suite.tag (keyArray k) (Runtime.ivOf none counter) [] (cells r2.mram (mramAt l.gXchgOut) 8), _, _) := henc
  refine ⟨{ s with wram := r2.wram, mram := put (put r2.mram l.gOutputTag _) l.gOutputIv _ }, ?_, ?_,
    confirmation_put hl hct, fun j h2 h3 => ?_, fun j hj => ?_, rfl, fun hq => ⟨hq.threads, hq.id, hq.cipher⟩⟩
  · simp only [stage3Main, hdec', Option.bind_eq_bind, Option.bind_some, keyArray_cells hkey, henc']
    rfl
  · rw [hwram, cells_put, ofFn_keyArray hklen]
  · calc r2.wram j = r1.wram j := by rw [hwram, put_out (.inl h3)]
      _ = s.wram j := hr1 j h2
  · have := hl.tag
    have := hl.iv
    calc put (put r2.mram l.gOutputTag _) l.gOutputIv _ j = r2.mram j := by rw [put_out (by omega), put_out (by omega)]
      _ = s.mram j := hr2 j hj

theorem confirmation_congr {l : Stage3} {key : Fin 8 → Word} {m' : Nat → Word} (hl : l.Placed)
    (h : ∀ j < systemStart, m' j = m j) : confirmation c l key m' = confirmation c l key m := by
  have hout : cells m' (mramAt l.gXchgOut) 8 = cells m (mramAt l.gXchgOut) 8 := cells_congr fun j _ hj => by
    have := hl.outBelow
    exact h j (by omega)
  have hiv : (fun i : Fin 3 => m' (l.gOutputIv + i)) = fun i : Fin 3 => m (l.gOutputIv + i) := funext fun i => by
    have := hl.iv
    exact h _ (by omega)
  have htag : (fun i : Fin 4 => m' (l.gOutputTag + i)) = fun i : Fin 4 => m (l.gOutputTag + i) := funext fun i => by
    have := hl.tag
    exact h _ (by omega)
  rw [confirmation, confirmation, hout, hiv, htag]

theorem systemStart_lt : systemStart < slot := by
  unfold slot
  decide

/-! ## The exchange -/

/-- MRAM when the host has had its turn. -/
def answered (e : Setting) (s : St) : Nat → Word := e.host (stage1Publish e.stage1 e.ctr s.mram)

/-- The public key that the host handed in. -/
def clientPk (e : Setting) (s : St) : Fin 64 → Word := fun i => answered e s (e.stage1.clientPubkeyRaw + i)

/-- The key it handed in, if it has its tag in this exchange. -/
def handedIn (e : Setting) (shared : Fin 64 → Word) (s : St) : Option (List Word) :=
  e.c.suite.unseal (sessionKey e.x shared e.ctr) (fun _ => 0) [] (cells (answered e s) e.stage1.imeKeyIn 8)
    fun i => answered e s (e.stage1.imeKeyIn + 8 + i)

/-- The host leaves the system's place alone. -/
def HostSpares (e : Setting) : Prop := ∀ m k, systemStart ≤ k → k < slot → e.host m k = m k

/-- The third stage finds what the host handed in, the shared secret and the counter. -/
structure Staged (e : Setting) (shared : Fin 64 → Word) (s s' : St) : Prop where
  shared : ∀ i : Fin 64, s'.wram (xchgShared + i) = shared i
  ctr : ∀ i : Fin 4, s'.wram (xchgCnt + i) = e.ctr i
  keyIn : ∀ i < 12, s'.wram (xchgKeyEnc + i) = answered e s (e.stage1.imeKeyIn + i)
  mram : ∀ k, k < slot → s'.mram k = answered e s k
  sysKey : s'.sysKey = s.sysKey
  ready : Ready e.c s'

theorem answered_system (hl : e.stage1.Placed) (hh : HostSpares e) {k : Nat} (h1 : systemStart ≤ k) (h2 : k < slot) :
    answered e s k = s.mram k := by
  have := hl.counter
  have := hl.pubkey
  rw [answered, hh _ _ h1 h2, stage1Publish, put_out (by omega), put_out (by omega)]

/-- The state in which the first stage calls the loader. -/
def stage1Left (e : Setting) (s : St) : St := { s with
  mram := answered e s
  wram := blit (blit (put s.wram xchgCnt e.ctr) xchgShared (answered e s) e.stage1.clientPubkeyRaw 64) xchgKeyEnc
    (answered e s) e.stage1.imeKeyIn 12 }

theorem stage1Left_ready (hr : Ready e.c s) (hl : e.stage1.Placed) (hh : HostSpares e) : Ready e.c (stage1Left e s) :=
  hr.write fun _ h1 h2 => answered_system hl hh h1 h2

theorem stage1Left_pk (i : Fin 64) : (stage1Left e s).wram (xchgShared + i) =
    answered e s (e.stage1.clientPubkeyRaw + i) := by
  have hi := i.isLt
  have h1 : xchgShared + 64 ≤ xchgKeyEnc := by decide
  calc (stage1Left e s).wram (xchgShared + i)
      = blit (put s.wram xchgCnt e.ctr) xchgShared (answered e s) e.stage1.clientPubkeyRaw 64 (xchgShared + i) :=
        blit_out (by omega)
    _ = answered e s (e.stage1.clientPubkeyRaw + i) := by rw [blit_in (by omega) (by omega), Nat.add_sub_cancel_left]

theorem stage1Left_ctr (i : Fin 4) : (stage1Left e s).wram (xchgCnt + i) = e.ctr i := by
  have hi := i.isLt
  have h1 : xchgShared + 64 = xchgCnt := rfl
  have h2 : xchgCnt + 4 = xchgKeyEnc := rfl
  calc (stage1Left e s).wram (xchgCnt + i)
      = blit (put s.wram xchgCnt e.ctr) xchgShared (answered e s) e.stage1.clientPubkeyRaw 64 (xchgCnt + i) :=
        blit_out (by omega)
    _ = e.ctr i := by rw [blit_out (by omega), put_at]

theorem stage1Left_keyIn {i : Nat} (hi : i < 12) : (stage1Left e s).wram (xchgKeyEnc + i) =
    answered e s (e.stage1.imeKeyIn + i) := by
  calc (stage1Left e s).wram (xchgKeyEnc + i) = answered e s (e.stage1.imeKeyIn + (xchgKeyEnc + i - xchgKeyEnc)) :=
        blit_in (by omega) (by omega)
    _ = answered e s (e.stage1.imeKeyIn + i) := by rw [Nat.add_sub_cancel_left]

theorem xchg_persist : IsPersist xchgPersist := .inr rfl

theorem xchgPersist_div : xchgPersist.toNat / 4 = xchgShared := by decide

/-- What the second stage finds. -/
theorem staged_first (hr : Ready e.c s) (hl : e.stage1.Placed) (hh : HostSpares e) :
    ∃ s1, leave e.c (e.frames 0) xchgPersist (e.left 0) (stage1Main e.stage1 e.ctr e.host s) = some s1 ∧
      (fun i : Fin 64 => s1.wram (xchgShared + i)) = clientPk e s ∧ Next xchgPersist (stage1Left e s) s1 := by
  have hdiv := xchgPersist_div
  obtain ⟨s1, h1, hn⟩ := leave_system (e.frames 0) (e.left 0) (show imeXchgSk2 ∈ _ by decide)
    (stage1Left_ready hr hl hh) xchg_persist
  refine ⟨s1, h1, funext fun i => ?_, hn⟩
  have hi := i.isLt
  rw [hn.kept _ (by omega) (by unfold xchgShared; omega), stage1Left_pk, clientPk]

/-- The first two stages. -/
theorem staged (hr : Ready e.c s) (hl : e.stage1.Placed) (hh : HostSpares e)
    (hx : e.x.expMod (clientPk e s) imeRawSk imeRawPrime = some shared) :
    ∃ s1 ex s2, leave e.c (e.frames 0) xchgPersist (e.left 0) (stage1Main e.stage1 e.ctr e.host s) = some s1 ∧
      stage2Main e.x s1 = some ex ∧ leave e.c (e.frames 1) xchgPersist (e.left 1) ex = some s2 ∧ Staged e shared s s2 := by
  have hend : xchgKeyEnc + 12 = loadPropTag := rfl
  have hcnt : xchgShared + 64 = xchgCnt := rfl
  have henc : xchgCnt + 4 = xchgKeyEnc := rfl
  have hio : loadPropTag + 12 = 0x3FF0 := rfl
  have hdiv := xchgPersist_div
  obtain ⟨s1, h1, hpk, hn1⟩ := staged_first hr hl hh
  have hkept1 : ∀ k, xchgShared ≤ k → k < loadPropTag → s1.wram k = (stage1Left e s).wram k := fun k h h' =>
    hn1.kept k (by omega) (by omega)
  -- the shared secret takes the place of the public key
  have hr1 : Ready e.c { s1 with wram := put s1.wram xchgShared shared } :=
    (hn1.ready (stage1Left_ready hr hl hh)).write fun _ _ _ => rfl
  obtain ⟨s2, h2, hn2⟩ := leave_system (e.frames 1) (e.left 1) (show imeXchgSk3 ∈ _ by decide) hr1 xchg_persist
  have hkept2 : ∀ k, xchgShared ≤ k → k < loadPropTag → s2.wram k = put s1.wram xchgShared shared k := fun k h h' =>
    hn2.kept k (by omega) (by omega)
  refine ⟨s1, _, s2, h1, ?_, h2, fun i => ?_, fun i => ?_, fun i hi => ?_, fun k hk => ?_, ?_, ?_⟩
  · rw [stage2Main, hpk, hx]
    rfl
  · rw [hkept2 _ (by omega) (by omega), put_at]
  · rw [hkept2 _ (by omega) (by omega), put_out (by omega), hkept1 _ (by omega) (by omega), stage1Left_ctr]
  · rw [hkept2 _ (by omega) (by omega), put_out (by omega), hkept1 _ (by omega) (by omega), stage1Left_keyIn hi]
  · calc s2.mram k = s1.mram k := hn2.mram k (.inl hk)
      _ = answered e s k := hn1.mram k (.inl hk)
  · exact hn2.sysKey.trans hn1.sysKey
  · exact hn2.ready hr1

theorem Staged.opened {s0 : St} (h : Staged e shared s0 s) : opened e.c e.x s = handedIn e shared s0 := by
  have hshared : (fun i : Fin 64 => s.wram (xchgShared + i)) = shared := funext h.shared
  have hctr : (fun i : Fin 4 => s.wram (xchgCnt + i)) = e.ctr := funext h.ctr
  have hkey : sealedKey s = cells (answered e s0) e.stage1.imeKeyIn 8 :=
    List.map_congr_left fun i hi => h.keyIn i (by have := List.mem_range.mp hi; omega)
  have htag : sealedTag s = fun i : Fin 4 => answered e s0 (e.stage1.imeKeyIn + 8 + i) := funext fun i => by
    have hi := i.isLt
    rw [sealedTag, Nat.add_assoc, h.keyIn _ (by omega), Nat.add_assoc]
  rw [Services.opened, derivedKey, hshared, hctr, hkey, htag, handedIn]

/-- What an exchange with the secret `shared` leaves to `msg`: the key handed
in, and its confirmation in MRAM, if it has its tag; else nothing in
`g_load_prop` and MRAM as the host left it. The secret stays where the stages keep it. -/
structure Ended (e : Setting) (shared : Fin 64 → Word) (s s' : St) : Prop where
  ready : Ready e.c s'
  secret : ∀ i : Fin 64, s'.wram (xchgShared + i) = shared i
  installed : ∀ k, handedIn e shared s = some k → cells s'.wram loadPropKey 8 = k ∧
    confirmation e.c e.stage3 (keyArray k) s'.mram = some (wordsOf confirm)
  refused : handedIn e shared s = none → (∀ j, loadPropTag ≤ j → j < loadPropTag + 12 → s'.wram j = 0) ∧
    ∀ j < slot, s'.mram j = answered e s j

/-- The run through the three stages. -/
theorem exchange_run (hr : Ready e.c s) (h1 : e.stage1.Placed) (h3 : e.stage3.Placed) (hh : HostSpares e)
    (hx : e.x.expMod (clientPk e s) imeRawSk imeRawPrime = some shared) :
    ∃ s', exchange e s = some s' ∧ Ended e shared s s' := by
  obtain ⟨s1, ex, s2, hs1, hex, hs2, hst⟩ := staged hr h1 hh hx
  have hopen := hst.opened
  have hmsg : imeMsgSk ∈ [imeMsgSk, imeXchgSk1, imeXchgSk2, imeXchgSk3] := List.mem_cons_self
  cases hin : handedIn e shared s with
  | none =>
    rw [hin] at hopen
    obtain ⟨s', hs', hn⟩ := leave_ret (e.frames 2) (e.left 2) hst.ready xchg_persist
    refine ⟨s', ?_, hn.ready hst.ready.wipeKeys,
      fun i => ?_, fun k hk => ?_, fun _ => ⟨fun j h1 h2 => hn.prop_zero xchg_persist h1 h2, fun j hj => ?_⟩⟩
    · simp only [exchange, hs1, hex, hs2, stage3_refuses hopen, Option.bind_eq_bind, Option.bind_some, hs']
    · have hkept := hn.kept (xchgShared + i) (by rw [xchgPersist_div]; omega) (by unfold xchgShared; omega)
      rw [hkept, wipeKeys_wram, if_neg (by unfold xchgShared loadPropTag; omega), hst.shared]
    · rw [hin] at hk
      cases hk
    · exact (hn.mram j (.inl hj)).trans (hst.mram j hj)
  | some k =>
    rw [hin] at hopen
    obtain ⟨s3, hs3, hi⟩ := stage3_installs e.ivCtr h3 hopen
    have hr3 : Ready e.c s3 := by
      refine ⟨?_, hi.quiet hst.ready.quiet⟩
      rw [hi.sysKey]
      exact hst.ready.images.frame fun j hj _ => hi.mram j hj
    obtain ⟨s', hs', hn⟩ := leave_system (e.frames 2) (e.left 2) List.mem_cons_self hr3 xchg_persist
    have hkept : ∀ j, xchgShared ≤ j → j < 0x3FF0 → s'.wram j = s3.wram j := fun j hj =>
      hn.kept j (by rwa [xchgPersist_div])
    refine ⟨s', ?_, hn.ready hr3, fun i => ?_, fun k' hk' => ?_, fun hnone => ?_⟩
    · simp only [exchange, hs1, hex, hs2, hs3, Option.bind_eq_bind, Option.bind_some, hs']
    · rw [hkept _ (by omega) (by unfold xchgShared; omega), hi.wram _ (by omega) (by unfold xchgShared loadPropKey; omega),
        hst.shared]
    · rw [hin] at hk'
      cases hk'
      have hkey : cells s'.wram loadPropKey 8 = cells s3.wram loadPropKey 8 := cells_congr fun j hj hj' =>
        hkept j (by unfold xchgShared; unfold loadPropKey at hj; omega) (by unfold loadPropKey at hj'; omega)
      refine ⟨hkey.trans hi.key, ?_⟩
      rw [confirmation_congr h3 fun j hj => hn.mram j (.inl (by have := systemStart_lt; omega))]
      exact hi.confirmed
    · rw [hin] at hnone
      cases hnone

/-- **Every exchange comes back to `msg`**, unless the exponentiation fails:
with the key that the host handed in if that has its tag under the secret and
the counter of this exchange, and otherwise with none. -/
theorem exchange_ends (hr : Ready e.c s) (h1 : e.stage1.Placed) (h3 : e.stage3.Placed) (hh : HostSpares e) :
    (e.x.expMod (clientPk e s) imeRawSk imeRawPrime = none → exchange e s = none) ∧
    ∀ shared, e.x.expMod (clientPk e s) imeRawSk imeRawPrime = some shared →
      ∃ s', exchange e s = some s' ∧ Ended e shared s s' := by
  refine ⟨fun hx => ?_, fun shared hx => exchange_run hr h1 h3 hh hx⟩
  obtain ⟨s1, hs1, hpk, -⟩ := staged_first hr h1 hh
  have hnone : stage2Main e.x s1 = none := by
    rw [stage2Main, hpk, hx]
    rfl
  simp only [exchange, hs1, hnone, Option.bind_eq_bind, Option.bind_some, Option.bind_none]

/-! ## The client -/

open DiffieHellman

/-- The modulus, and the secret exponent of the DPU. -/
def prime : Nat := arrVal imeRawPrime
def dpuExponent : Nat := arrVal imeRawSk

/-- The public key of the first stage is the one to the exponent of the second. -/
theorem dpu_pubkey : arrVal dpuPubkeyWram = share prime 2 dpuExponent := by
  have hlt : dpuExponent < 2 ^ 256 := arrVal_lt imeRawSk
  rw [share, ← powMod_eq hlt]
  decide +kernel

/-- A client's exponent, and the key it wants the DPU to have. -/
structure Client where
  exponent : Nat
  key : Fin 8 → Word

def Client.pk (cl : Client) : Fin 64 → Word := limbs 64 (share prime 2 cl.exponent)

/-- The secret that the client comes to with the DPU's public key. -/
def Client.secretOf (cl : Client) (dpu : Fin 64 → Word) : Fin 64 → Word := limbs 64 (secret prime (arrVal dpu) cl.exponent)

/-- Its key, sealed for an exchange. -/
def Client.seal (cl : Client) (c : Crypto) (x : External) (dpu : Fin 64 → Word) (ctr : Fin 4 → Word) :
    List Word × (Fin 4 → Word) :=
  c.suite.seal (sessionKey x (cl.secretOf dpu) ctr) (fun _ => 0) [] (List.ofFn cl.key)

/-- The host takes the DPU's public key and the counter to the client, and the
client's answer to the DPU. -/
structure Relays (e : Setting) (cl : Client) : Prop where
  pk : ∀ m, ∀ i : Fin 64, e.host m (e.stage1.clientPubkeyRaw + i) = cl.pk i
  key : ∀ m, cells (e.host m) e.stage1.imeKeyIn 8 = (cl.seal e.c e.x (fun i => m (e.stage1.dpuPubkeyRaw + i))
    fun i => m (e.stage1.imeXchgCounter + i)).1
  tag : ∀ m, ∀ i : Fin 4, e.host m (e.stage1.imeKeyIn + 8 + i) = (cl.seal e.c e.x (fun i => m (e.stage1.dpuPubkeyRaw + i))
    fun i => m (e.stage1.imeXchgCounter + i)).2 i

/-- `mbedtls_mpi_exp_mod` with the secret exponent. -/
def ExpModRight (x : External) : Prop :=
  ∀ y, ∃ r, x.expMod y imeRawSk imeRawPrime = some r ∧ arrVal r = arrVal y ^ arrVal imeRawSk % arrVal imeRawPrime

theorem prime_pos : 0 < prime := by decide +kernel

theorem arrVal_secret {y z : Nat} : arrVal (limbs 64 (secret prime y z)) = secret prime y z :=
  arrVal_limbs (Nat.lt_trans (secret_lt prime_pos) (arrVal_lt imeRawPrime))

/-- Both sides come to the same secret. -/
theorem shared_eq {cl : Client} {r : Fin 64 → Word} (h : arrVal r = arrVal cl.pk ^ arrVal imeRawSk % arrVal imeRawPrime) :
    r = cl.secretOf dpuPubkeyWram := by
  have hpk : arrVal cl.pk = share prime 2 cl.exponent := arrVal_secret
  refine arrVal_inj ?_
  calc arrVal r = secret prime (share prime 2 cl.exponent) dpuExponent := by rw [h, hpk]; rfl
    _ = secret prime (share prime 2 dpuExponent) cl.exponent := secret_comm
    _ = arrVal (cl.secretOf dpuPubkeyWram) := by rw [Client.secretOf, arrVal_secret, dpu_pubkey]

/-- What the client sees. -/
theorem published {l : Stage1} (m : Nat → Word) (ctr : Fin 4 → Word) (hl : l.Placed) :
    (fun i : Fin 64 => stage1Publish l ctr m (l.dpuPubkeyRaw + i)) = dpuPubkeyWram ∧
    (fun i : Fin 4 => stage1Publish l ctr m (l.imeXchgCounter + i)) = ctr := by
  have hap := hl.apart
  refine ⟨funext fun i => put_at i, funext fun i => ?_⟩
  have hi := i.isLt
  rw [stage1Publish, put_out (by omega), put_at]

theorem handedIn_relayed {cl : Client} (hl : e.stage1.Placed) (hrel : Relays e cl) :
    handedIn e (cl.secretOf dpuPubkeyWram) s = some (List.ofFn cl.key) := by
  obtain ⟨hdpu, hctr⟩ := published s.mram e.ctr hl
  have hkey := hrel.key (stage1Publish e.stage1 e.ctr s.mram)
  have htag : (fun i : Fin 4 => answered e s (e.stage1.imeKeyIn + 8 + i)) = _ :=
    funext (hrel.tag (stage1Publish e.stage1 e.ctr s.mram))
  rw [hdpu, hctr] at hkey htag
  rw [handedIn, htag, answered, hkey]
  exact Aead.unseal_seal

/-- **Agreement.** With a client who follows the protocol, and a host who only
carries the messages, every exchange ends with the client's key on the DPU and
a confirmation that opens under it. -/
theorem exchange_agrees {cl : Client} (hr : Ready e.c s) (h1 : e.stage1.Placed) (h3 : e.stage3.Placed)
    (hh : HostSpares e) (hrel : Relays e cl) (hx : ExpModRight e.x) :
    ∃ s', exchange e s = some s' ∧ Ready e.c s' ∧ cells s'.wram loadPropKey 8 = List.ofFn cl.key ∧
      confirmation e.c e.stage3 cl.key s'.mram = some (wordsOf confirm) ∧
      ∀ i : Fin 64, s'.wram (xchgShared + i) = cl.secretOf dpuPubkeyWram i := by
  obtain ⟨r, hr', hval⟩ := hx (clientPk e s)
  have hpk : clientPk e s = cl.pk := funext fun i => hrel.pk _ i
  have hshared : r = cl.secretOf dpuPubkeyWram := shared_eq (by rw [← hpk]; exact hval)
  rw [hshared] at hr'
  obtain ⟨s', hs', hend⟩ := exchange_run hr h1 h3 hh hr'
  obtain ⟨hkey, hconf⟩ := hend.installed _ (handedIn_relayed h1 hrel)
  have harray : keyArray (List.ofFn cl.key) = cl.key :=
    List.ofFn_injective (ofFn_keyArray List.length_ofFn)
  rw [harray] at hconf
  exact ⟨s', hs', hend.ready, hkey, hconf, hend.secret⟩

/-! ## A client that wants a key of ones -/

/-- The library, by its specification. -/
def library : External where
  sha256 l := Sha256.digest (bytesOf l)
  expMod y z n := some (limbs 64 (powMod (arrVal n) 256 (arrVal y) (arrVal z)))

theorem library_right : ExpModRight library := fun y => by
  have hlt : arrVal imeRawSk < 2 ^ 256 := arrVal_lt imeRawSk
  refine ⟨_, rfl, ?_⟩
  rw [powMod_eq hlt]
  exact arrVal_secret

def ones : Client := ⟨3, fun _ => 1⟩

def onesStage1 : Stage1 := ⟨0, 64, 128, 132⟩

/-- The host brings the public key to words 0 to 63, and the sealed key to 132 to 143. -/
def carry (m : Nat → Word) : Nat → Word :=
  let sealed := ones.seal core library (fun i => m (64 + i)) fun i => m (128 + i)
  lay (put (put m 0 ones.pk) 140 sealed.2) 132 sealed.1

def onesSetting : Setting where
  c := core
  x := library
  stage1 := onesStage1
  stage3 := ⟨0x8000000, 8, 12, 256⟩
  frames _ := noFrames
  left _ _ := 0
  ctr := ![0x10001, 0, 0, 0]
  ivCtr := ![0x20001, 0, 0, 0]
  host := carry

theorem onesStage1_placed : onesStage1.Placed := ⟨by decide, by decide, .inr (by decide)⟩

theorem onesStage3_placed : onesSetting.stage3.Placed :=
  ⟨⟨by decide, by decide, by decide⟩, by decide, by decide, by decide, .inl (by decide), .inl (by decide),
    .inl (by decide), ⟨by decide, by decide⟩, by decide⟩

theorem carry_length (m : Nat → Word) :
    (ones.seal core library (fun i => m (64 + i)) fun i => m (128 + i)).1.length = 8 := by
  rw [Client.seal, Aead.Suite.seal, Aead.crypt_length, List.length_ofFn]

theorem carry_out {m : Nat → Word} {k : Nat} (hk : 144 ≤ k) : carry m k = m k := by
  have hlen := carry_length m
  rw [carry, lay_out (by omega), put_out (by omega), put_out (by omega)]

theorem carry_spares : HostSpares onesSetting := fun m k hk _ => by
  have hs : 144 ≤ systemStart := by decide
  exact carry_out (by omega)

theorem carry_relays : Relays onesSetting ones := by
  refine ⟨fun m i => ?_, fun m => ?_, fun m i => ?_⟩
  · have hlen := carry_length m
    show carry m (0 + i) = _
    rw [carry, lay_out (by omega), put_out (by omega), put_at]
  · exact cells_lay (carry_length m)
  · have hlen := carry_length m
    show carry m (140 + i) = _
    rw [carry, lay_out (by omega), put_at]
    rfl

theorem exchange_agrees_ones : ∃ s', exchange onesSetting (started systemMram) = some s' ∧
    cells s'.wram loadPropKey 8 = List.replicate 8 1 := by
  obtain ⟨s', hs', -, hkey, -⟩ := exchange_agrees systemMram_ready onesStage1_placed onesStage3_placed
    carry_spares carry_relays library_right
  exact ⟨s', hs', hkey⟩

theorem exchange_ends_ones : ∃ s', exchange onesSetting (started systemMram) = some s' ∧ Ready core s' := by
  obtain ⟨s', hs', hend⟩ := (exchange_ends systemMram_ready onesStage1_placed onesStage3_placed carry_spares).2 _ rfl
  exact ⟨s', hs', hend.ready⟩

end Memclave.Services
