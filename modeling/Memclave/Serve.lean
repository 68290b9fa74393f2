/-
`msg` over any number of turns of the host. It returns from `main` after every
message but a request to load, `boot.s` clears the key then, and `msg` is
loaded again. So a key that an exchange leaves serves the next message alone
(`serve_key`): a subkernel that is asked for later, with the flag for the
user's key, is verified under a key of zeros.
-/
import Memclave.Exchange

namespace Memclave.Services

open Words Copy Loader

/-- A turn of the host, and what the compiler decides until the next one. -/
structure Turn where
  host : (Nat → Word) → Nat → Word
  frames : Frames
  left : Nat → Word

inductive Served where
  /-- `msg` waits for the host -/
  | waiting (s : St)
  /-- it calls the loader, with the turns still to come -/
  | asked (s : St) (sk key : Word) (rest : List Turn)

/-- `msg`, entered again after every message, until it calls the loader for
another subkernel; without a value if the DPU stops. -/
def serve (c : Crypto) : List Turn → St → Option Served
  | [], s => some (.waiting s)
  | t :: ts, s =>
    match msgMain t.host s with
    | .ret s => (leave c t.frames msgPersist t.left (.ret s)).bind (serve c ts)
    | .replace s sk _ key => some (.asked (dirty msgPersist t.left s) sk key ts)

variable {c : Crypto} {s s' : St} {t : Turn} {ts : List Turn}

/-- The host leaves the system's place alone. -/
def Turn.Spares (t : Turn) : Prop := ∀ m k, systemStart ≤ k → k < slot → t.host m k = m k

theorem slot_le_msgBuf : slot ≤ mramAt imeMsgBuf := by
  unfold slot
  decide

theorem setType_out {ty : BitVec 16} {m : Nat → Word} {k : Nat} (hk : k < slot) : setType ty m k = m k :=
  Function.update_of_ne (by have := slot_le_msgBuf; omega) _ _

/-- The two ways a message can go: nothing is loaded, or what is asked for,
with the key that is there or with the system key. -/
theorem msgMain_cases (hr : Ready c s) (hh : t.Spares) :
    (∃ s', msgMain t.host s = .ret s' ∧ Ready c s') ∨
    ∃ s' sk key, msgMain t.host s = .replace s' sk 0 key ∧ s'.wram = s.wram ∧ (key = 0 ∨ key = loadPropKeyAt) := by
  have hm : ∀ ty k, systemStart ≤ k → k < slot → setType ty (t.host (setType IME_MRAM_MSG_WAITING s.mram)) k = s.mram k :=
    fun ty k h1 h2 => by rw [setType_out h2, hh _ _ h1 h2, setType_out h2]
  unfold msgMain
  dsimp only
  split
  · exact .inl ⟨_, rfl, hr.write fun k h1 h2 => hm _ k h1 h2⟩
  · split
    · refine .inr ⟨_, _, _, rfl, rfl, ?_⟩
      split
      · exact .inr rfl
      · exact .inl rfl
    · refine .inl ⟨_, rfl, hr.write fun k h1 h2 => ?_⟩
      rw [hh _ _ h1 h2, setType_out h2]

theorem msg_persist : IsPersist msgPersist := .inl rfl

/-- The key's words in the persisting area, of which `key` is the address. -/
def keyWords (s : St) : List Word := cells s.wram loadPropKey 8

/-- What any number of turns come to, from a state with the key `k`. -/
structure ServeOk (c : Crypto) (ts : List Turn) (k : List Word) (r : Served) : Prop where
  waiting : ∀ s', r = .waiting s' → Ready c s' ∧ keyWords s' = if ts = [] then k else List.replicate 8 0
  asked : ∀ s' sk key rest, r = .asked s' sk key rest → (key = 0 ∨ key = loadPropKeyAt) ∧ rest.length < ts.length ∧
    keyWords s' = if rest.length + 1 = ts.length then k else List.replicate 8 0

theorem keyWords_dirty {left : Nat → Word} : keyWords (dirty msgPersist left s) = keyWords s := by
  refine cells_congr fun k hk _ => if_neg ?_
  have : msgPersist.toNat / 4 = loadPropTag := by decide
  unfold loadPropKey at hk
  unfold loadPropTag at this
  omega

theorem serve_run (hr : Ready c s) (hh : ∀ t ∈ ts, t.Spares) : ∃ r, serve c ts s = some r ∧ ServeOk c ts (keyWords s) r := by
  induction ts generalizing s with
  | nil =>
    refine ⟨_, rfl, fun s' h => ?_, fun s' sk key rest h => by cases h⟩
    cases h
    exact ⟨hr, (if_pos rfl).symm⟩
  | cons t ts ih =>
    cases msgMain_cases hr (hh t List.mem_cons_self) with
    | inl h =>
      obtain ⟨s1, h1, hr1⟩ := h
      obtain ⟨s2, h2, hn⟩ := leave_ret t.frames t.left hr1 msg_persist
      obtain ⟨r, hrun, hok⟩ := ih (hn.ready hr1.wipeKeys) fun t' ht' => hh t' (List.mem_cons_of_mem _ ht')
      have hzero : keyWords s2 = List.replicate 8 0 := hn.key_zero msg_persist
      rw [hzero] at hok
      refine ⟨r, ?_, fun s' h => ?_, fun s' sk key rest h => ?_⟩
      · simp only [serve, h1, h2, Option.bind_some, hrun]
      · obtain ⟨hr', hk⟩ := hok.waiting s' h
        rw [if_neg (List.cons_ne_nil _ _)]
        exact ⟨hr', by rw [hk, ite_self]⟩
      · obtain ⟨hk, hlt, hw⟩ := hok.asked s' sk key rest h
        rw [ite_self] at hw
        have hne : ¬ rest.length + 1 = (t :: ts).length := by
          rw [List.length_cons]
          omega
        rw [if_neg hne]
        exact ⟨hk, hlt.trans (Nat.lt_succ_self _), hw⟩
    | inr h =>
      obtain ⟨s1, sk, key, h1, hw, hk⟩ := h
      refine ⟨.asked (dirty msgPersist t.left s1) sk key ts, by simp only [serve, h1], fun s' h => (by cases h),
        fun s' sk' key' rest h => ?_⟩
      cases h
      refine ⟨hk, Nat.lt_succ_self _, ?_⟩
      rw [List.length_cons, if_pos rfl, keyWords_dirty, keyWords, hw, keyWords]

/-- The key at `g_load_prop.key` is what the loader takes, which wipes below it. -/
theorem loadKey_keyWords {f : Frames} {sk : Word} : loadKey f sk loadPropKeyAt msgPersist s = keyArray (keyWords s) := by
  have hne : loadPropKeyAt ≠ 0 := by decide
  have hat : loadPropKeyAt.toNat / 4 = loadPropKey := by decide
  have hwiped : wiped msgPersist = loadPropTag := by decide
  rw [← keyArray_cells (show cells s.wram loadPropKey 8 = keyWords s from rfl), loadKey, keyOf, if_pos hne, hat]
  funext i
  have hlt : loadPropTag + 4 = loadPropKey := rfl
  have hbig : 1024 ≤ loadPropTag := by decide
  show stackUsed f _ (loadPropKey + i) = _
  rw [stackUsed, if_neg (by omega), Function.update_of_ne (by omega), if_neg (by omega)]

/-- **A key serves one message.** After an exchange that took the key `k`,
and whatever the host asks of `msg` from then on: a subkernel asked for with
the user's key is verified under `k` if the request is the first message, and
under a key of zeros if any message came before it. -/
theorem serve_key {e : Setting} {shared : Fin 64 → Word} {k : List Word} (hr : Ready e.c s) (h1 : e.stage1.Placed)
    (h3 : e.stage3.Placed) (hh : HostSpares e) (hx : e.x.expMod (clientPk e s) imeRawSk imeRawPrime = some shared)
    (hin : handedIn e shared s = some k) (hts : ∀ t ∈ ts, t.Spares) :
    ∃ s1 r, exchange e s = some s1 ∧ serve e.c ts s1 = some r ∧ ∀ s' sk rest f, r = .asked s' sk loadPropKeyAt rest →
      loadKey f sk loadPropKeyAt msgPersist s' = if rest.length + 1 = ts.length then keyArray k else fun _ => 0 := by
  obtain ⟨s1, hs1, hend⟩ := exchange_run hr h1 h3 hh hx
  obtain ⟨r, hrun, hok⟩ := serve_run hend.ready hts
  have hkey : keyWords s1 = k := (hend.installed k hin).1
  refine ⟨s1, r, hs1, hrun, fun s' sk rest f h => ?_⟩
  obtain ⟨-, -, hw⟩ := hok.asked s' sk _ rest h
  rw [loadKey_keyWords, hw, hkey]
  split
  · rfl
  · funext i
    exact List.getD_replicate 0 i.isLt

/-- A host that pings, and then asks for the subkernel at 0 with the user's key. -/
def pingHost (m : Nat → Word) : Nat → Word := Function.update m (mramAt imeMsgBuf) 2

def loadHost (m : Nat → Word) : Nat → Word :=
  Function.update (Function.update m (mramAt imeMsgBuf) 0x10004) (mramAt imeMsgBuf + 1) 0

theorem serve_key_ones : ∃ s1 r, exchange onesSetting (started systemMram) = some s1 ∧
    serve core [⟨pingHost, noFrames, fun _ => 0⟩, ⟨loadHost, noFrames, fun _ => 0⟩] s1 = some r ∧
    ∀ s' sk rest f, r = .asked s' sk loadPropKeyAt rest →
      loadKey f sk loadPropKeyAt msgPersist s' = if rest.length + 1 = 2 then keyArray (List.ofFn ones.key) else fun _ => 0 := by
  have hms := slot_le_msgBuf
  obtain ⟨r, hr, hval⟩ := library_right (clientPk onesSetting (started systemMram))
  have hpk : clientPk onesSetting (started systemMram) = ones.pk := funext fun i => carry_relays.pk _ i
  have hshared : r = ones.secretOf dpuPubkeyWram := shared_eq (by rw [← hpk]; exact hval)
  rw [hshared] at hr
  refine serve_key systemMram_ready onesStage1_placed onesStage3_placed carry_spares hr
    (handedIn_relayed onesStage1_placed carry_relays) fun t ht m k _ hk => ?_
  simp only [List.mem_cons, List.not_mem_nil, or_false] at ht
  obtain rfl | rfl := ht
  · exact Function.update_of_ne (by omega) _ _
  · show loadHost m k = m k
    rw [loadHost, Function.update_of_ne (by omega), Function.update_of_ne (by omega)]

end Memclave.Services
