/-
What the C functions of the loader are like as a whole (`Tame`): they read
no history, so that from states that differ in it alone they end in the same
way, and they write MRAM, WRAM and the history.
-/
import Memclave.LoaderFacts

namespace Memclave.Loader

open Words Exec

variable {α β : Type}

/-- An end of a run, without its history. -/
def forget : EStateM.Result Fault St α → EStateM.Result Fault St α
  | .ok a s => .ok a { s with trace := [] }
  | .error e s => .error e { s with trace := [] }

/-- They differ in MRAM, in WRAM and in the history. -/
structure Beside (s s' : St) : Prop where
  iram : s'.iram = s.iram
  id : s'.id = s.id
  running : s'.running = s.running
  sysKey : s'.sysKey = s.sysKey

theorem Beside.refl (s : St) : Beside s s := ⟨rfl, rfl, rfl, rfl⟩

theorem Beside.trans {s s' s'' : St} (h : Beside s s') (h' : Beside s' s'') : Beside s s'' :=
  ⟨h'.iram.trans h.iram, h'.id.trans h.id, h'.running.trans h.running, h'.sysKey.trans h.sysKey⟩

structure Tame (x : Prog α) : Prop where
  same : ∀ s t, forget (x { s with trace := t }) = forget (x s)
  kept : ∀ s, wp x (fun _ s' => Beside s s') (fun _ s' => Beside s s') s

theorem Tame.pure (a : α) : Tame (Pure.pure a) := ⟨fun _ _ => rfl, fun s => .refl s⟩

theorem Tame.throw (e : Fault) : Tame (MonadExcept.throw e : Prog α) := ⟨fun _ _ => rfl, fun s => .refl s⟩

theorem Tame.modify {f : St → St} (h : ∀ s t, { f { s with trace := t } with trace := [] } = { f s with trace := [] })
    (hk : ∀ s, Beside s (f s)) : Tame (modify f : Prog Unit) :=
  ⟨fun s t => congrArg (EStateM.Result.ok ()) (h s t), hk⟩

theorem Tame.get {g : St → Prog α} (hg : ∀ s t, g { s with trace := t } = g s) (h : ∀ s, Tame (g s)) :
    Tame (MonadState.get >>= g) where
  same s t := by
    show forget (g { s with trace := t } { s with trace := t }) = forget (g s s)
    rw [hg]
    exact (h s).same s t
  kept s := (h s).kept s

theorem Tame.ite {c : Prop} [Decidable c] {x y : Prog α} (hx : Tame x) (hy : Tame y) : Tame (if c then x else y) := by
  split
  · exact hx
  · exact hy

theorem Tame.bind {x : Prog α} {g : α → Prog β} (hx : Tame x) (hg : ∀ a, Tame (g a)) : Tame (x >>= g) where
  same s t := by
    have h := hx.same s t
    cases h1 : x { s with trace := t } with
    | ok a s1 =>
      cases h2 : x s with
      | ok a' s2 =>
        rw [h1, h2] at h
        simp only [forget, EStateM.Result.ok.injEq] at h
        obtain ⟨rfl, hs⟩ := h
        have hs1 : s1 = { s2 with trace := s1.trace } := by
          cases s1
          cases s2
          cases hs
          rfl
        rw [bind_ok h1, bind_ok h2, hs1]
        exact (hg a).same s2 s1.trace
      | error e s2 =>
        rw [h1, h2] at h
        cases h
    | error e s1 =>
      cases h2 : x s with
      | ok a s2 =>
        rw [h1, h2] at h
        cases h
      | error e' s2 =>
        rw [h1, h2] at h
        simp only [forget, EStateM.Result.error.injEq] at h
        rw [bind_error h1, bind_error h2]
        simp only [forget, EStateM.Result.error.injEq]
        exact h
  kept s := (hx.kept s).bind (fun a s' hs => ((hg a).kept s').mono (fun _ _ h => hs.trans h) fun _ _ h => hs.trans h)
    fun _ _ h => h

theorem Tame.forRange {f : Nat → α → Prog α} (hf : ∀ i x, Tame (f i x)) (a b : Nat) (x : α) :
    Tame (forRange a b x f) := by
  unfold Exec.forRange
  generalize b - a = n
  induction n generalizing a x with
  | zero => exact Tame.pure x
  | succ n ih => exact (hf a x).bind fun y => ih (a + 1) y

/-! ## The loader's C functions -/

theorem lw_tame (a : Word) : Tame (lw a) :=
  Tame.ite (Tame.get (fun _ _ => rfl) fun _ => Tame.pure _) (Tame.throw _)

theorem sw_tame (a v : Word) : Tame (sw a v) :=
  Tame.ite (Tame.modify (fun _ _ => rfl) fun _ => ⟨rfl, rfl, rfl, rfl⟩) (Tame.throw _)

theorem ldma_tame (w a : Word) (n : Nat) : Tame (ldma w a n) :=
  Tame.ite (Tame.modify (fun _ _ => rfl) fun _ => ⟨rfl, rfl, rfl, rfl⟩) (Tame.throw _)

theorem mramRead_tame (a : Word) (n : Nat) : Tame (mramRead a n) :=
  Tame.ite (Tame.get (fun _ _ => rfl) fun _ => Tame.pure _) (Tame.throw _)

theorem mramWrite_tame {n : Nat} (v : Fin n → Word) (a : Word) : Tame (mramWrite v a) :=
  Tame.ite (Tame.modify (fun _ _ => rfl) fun _ => ⟨rfl, rfl, rfl, rfl⟩) (Tame.throw _)

theorem lwArray_tame (a : Word) (n : Nat) : Tame (lwArray a n) :=
  Tame.ite (Tame.get (fun _ _ => rfl) fun _ => Tame.pure _) (Tame.throw _)

theorem log_tame (e : Event) : Tame (log e) := Tame.modify (fun _ _ => rfl) fun _ => ⟨rfl, rfl, rfl, rfl⟩

theorem useStack_tame (f : Frames) : Tame (useStack f) := Tame.modify (fun _ _ => rfl) fun _ => ⟨rfl, rfl, rfl, rfl⟩

/-- A check that faults. -/
theorem Tame.check {c : Prop} [Decidable c] {e : Fault} {y : PUnit → Prog α} (hy : ∀ u, Tame (y u)) :
    Tame (if c then MonadExcept.throw e >>= y else y ⟨⟩) :=
  Tame.ite ((Tame.throw e).bind hy) (hy ⟨⟩)

theorem imeCheckSystem_tame (r21 : Word) : Tame (imeCheckSystem r21) :=
  (lw_tame 0).bind fun _ => (lw_tame 4).bind fun _ => (ldma_tame 0 r21 1).bind fun _ => (sw_tame 0 _).bind fun _ =>
    (sw_tame 4 _).bind fun _ => Tame.get (fun _ _ => rfl) fun _ => Tame.ite (Tame.throw _) (Tame.pure _)

theorem imeChachaBlk_tame (c : Crypto) (f : Frames) (r21 key ctr : Word) (iv : Fin 3 → Word) :
    Tame (imeChachaBlk c f r21 key ctr iv) := by
  unfold imeChachaBlk
  refine Tame.ite ((lwArray_tame key 8).bind fun _ => Tame.pure _) ?_
  refine Tame.get (fun _ _ => rfl) fun _ => Tame.check fun _ => ?_
  refine (sw_tame _ _).bind fun _ => (sw_tame _ _).bind fun _ => (sw_tame _ _).bind fun _ => ?_
  refine (sw_tame _ _).bind fun _ => (sw_tame _ _).bind fun _ => (sw_tame _ _).bind fun _ => ?_
  refine (sw_tame _ _).bind fun _ => Tame.get (fun _ _ => rfl) fun _ => Tame.check fun _ => ?_
  refine (lw_tame 0).bind fun _ => (sw_tame _ _).bind fun _ => (sw_tame _ _).bind fun _ => ?_
  exact (imeCheckSystem_tame r21).bind fun _ => Tame.get (fun _ _ => rfl) fun _ => Tame.pure _

theorem feedSkChunk_tame (c : Crypto) (sk : Word) (i : Nat) (ctx : c.Ctx) : Tame (feedSkChunk c sk i ctx) :=
  (mramRead_tame _ 4).bind fun _ => (log_tame _).bind fun _ => Tame.pure _

theorem xorSkChunk_tame (sk : Word) (i : Nat) (data : Fin 16 → Word) : Tame (xorSkChunk sk i data) :=
  (mramRead_tame _ 16).bind fun _ => mramWrite_tame _ _

theorem imeDecryptVerify_tame (c : Crypto) (f : Frames) (sk key : Word) : Tame (imeDecryptVerify c f sk key) := by
  unfold imeDecryptVerify
  refine (mramRead_tame sk 16).bind fun _ => (imeChachaBlk_tame c f sk key 0 _).bind fun _ => ?_
  refine (Tame.forRange (feedSkChunk_tame c sk) _ _ _).bind fun _ => ?_
  refine (Tame.forRange (feedSkChunk_tame c sk) _ _ _).bind fun _ => Tame.ite ?_ (Tame.pure _)
  refine (Tame.forRange (fun i _ => ?_) _ _ _).bind fun _ => Tame.pure _
  exact (imeChachaBlk_tame c f sk key _ _).bind fun _ => xorSkChunk_tame sk i _

theorem imeDecryptSk_tame (c : Crypto) (f : Frames) (sk tag user_key : Word) : Tame (imeDecryptSk c f sk tag user_key) := by
  unfold imeDecryptSk
  have hverify : Tame (do if !(← imeDecryptVerify c f sk user_key) then throw Fault.sec) :=
    (imeDecryptVerify_tame c f sk user_key).bind fun _ => Tame.ite (Tame.throw _) (Tame.pure _)
  refine (useStack_tame f).bind fun _ => (imeCheckSystem_tame sk).bind fun _ => (mramRead_tame _ 4).bind fun _ => ?_
  exact Tame.ite ((lwArray_tame tag 4).bind fun _ => Tame.check fun _ => hverify) hverify

theorem imeScanSk_tame (f : Frames) (sk : Word) : Tame (imeScanSk f sk) := by
  unfold imeScanSk
  refine (useStack_tame f).bind fun _ => (mramRead_tame _ 2).bind fun _ => ?_
  refine (Tame.forRange (fun i _ => ?_) _ _ _).bind fun _ => imeCheckSystem_tame sk
  refine (mramRead_tame _ 2).bind fun _ => (log_tame _).bind fun _ => ?_
  exact Tame.check fun _ => Tame.check fun _ => Tame.ite (Tame.throw _) (Tame.pure _)

end Memclave.Loader
