/-
What `ime_decrypt_verify` authenticates: the sequence of blocks that it feeds
into Poly1305 determines the two sizes and all of the body up to the longer of
them (`fed_injective`).
-/
import Memclave.Coverage

namespace Memclave.Loader

open Words Exec Copy

abbrev Block := Fin 4 → Word

/-- A MAC that keeps the blocks it is fed, and makes its tag of them by `g`. -/
def recorder (blk : (Fin 8 → Word) → Word → (Fin 3 → Word) → Fin 16 → Word) (g : List Block → Block) : Crypto where
  Ctx := List Block
  chachaBlk := blk
  polyInit _ := []
  polyFeedBlock l b := l ++ [b]
  polyFinalize := g

/-- `ime_decrypt_verify` feeds the blocks `l`: whatever tag is made of the blocks
it feeds, it compares the tag of `l`. -/
def Feeds (blk : (Fin 8 → Word) → Word → (Fin 3 → Word) → Fin 16 → Word) (f : Frames) (sk key : Word) (s : St)
    (l : List Block) : Prop :=
  ∀ g, ∃ b s', imeDecryptVerify (recorder blk g) f sk key s = .ok b s' ∧
    (b = true ↔ g l = (headerAt s.mram (mramAt sk)).tag)

variable {blk blk' : (Fin 8 → Word) → Word → (Fin 3 → Word) → Fin 16 → Word} {f f' : Frames}
  {sk sk' key key' : Word} {s s' : St} {l : List Block}

theorem macOf_recorder {g : List Block → Block} {k : Fin 8 → Word} {m : Nat → Word} {p : Nat} :
    macOf (recorder blk g) k m p = g (macBlocks m p) := by
  have hfold : ∀ l l' : List Block, l.foldl (fun x b => x ++ [b]) l' = l' ++ l := fun l => by
    induction l with
    | nil => exact fun l' => (List.append_nil l').symm
    | cons b l ih =>
      intro l'
      rw [List.foldl_cons, ih, List.append_assoc, List.singleton_append]
  exact congrArg g (hfold (macBlocks m p) [])

theorem feeds_iff : Feeds blk f sk key s l ↔
    (FedOk s.mram sk ∧ ChachaOk s sk key) ∧ l = macBlocks s.mram (mramAt sk) := by
  constructor
  · intro h
    obtain ⟨b, s', hrun, -⟩ := h fun _ => (headerAt s.mram (mramAt sk)).tag
    refine ⟨((imeDecryptVerify_spec ..).ok hrun).1, ?_⟩
    -- a tag that only the blocks `l` have
    classical
    let g : List Block → Block := fun x =>
      if x = l then (headerAt s.mram (mramAt sk)).tag else fun i => (headerAt s.mram (mramAt sk)).tag i + 1
    obtain ⟨b, s', hrun, hb⟩ := h g
    have hspec := ((imeDecryptVerify_spec ..).ok hrun).2.1
    rw [macOf_recorder] at hspec
    have hl : g l = (headerAt s.mram (mramAt sk)).tag := if_pos rfl
    have hg := hspec.mp (hb.mpr hl)
    by_contra hne
    have hother : g (macBlocks s.mram (mramAt sk)) = fun i => (headerAt s.mram (mramAt sk)).tag i + 1 :=
      if_neg fun h => hne h.symm
    rw [hother] at hg
    have h0 := congrFun hg 0
    have hz : ∀ x : Word, x + 1 ≠ x := fun x h => by
      have := congrArg BitVec.toNat h
      rw [BitVec.toNat_add, show (1 : Word).toNat = 1 from rfl] at this
      have := word_lt x
      omega
    exact hz _ h0
  · rintro ⟨hok, rfl⟩ g
    have hno : wp (imeDecryptVerify (recorder blk g) f sk key)
        (fun b _ => b = true ↔ macOf (recorder blk g) (keyOf s key) s.mram (mramAt sk) =
          (headerAt s.mram (mramAt sk)).tag) (fun _ _ => False) s :=
      (imeDecryptVerify_spec ..).mono (fun _ _ h => h.2.1) fun _ _ h => h.2 hok
    obtain ⟨b, s', hrun, hb⟩ := hno.total
    rw [macOf_recorder] at hb
    exact ⟨b, s', hrun, hb⟩

/-! ## Two images with the same blocks -/

theorem chunksAt_length {m : Nat → Word} {p a b : Nat} : (chunksAt m p a b).length = b - a := by
  rw [chunksAt, List.length_map, List.length_range']

theorem chunksAt_inj {m m' : Nat → Word} {p p' a b : Nat} (h : chunksAt m p a b = chunksAt m' p' a b) {i : Nat}
    (hi : a ≤ i) (hi' : i < b) : chunkAt m p i = chunkAt m' p' i := by
  have hget := congrArg (fun l => l[i - a]?) h
  simp only [chunksAt, List.getElem?_map] at hget
  rw [List.getElem?_range' (by omega)] at hget
  have hget := Option.some.inj hget
  rwa [Nat.one_mul, Nat.add_sub_cancel' hi] at hget

theorem length_inj {x y x' y' : Word} (hx : x = x') (h : y - x = y' - x') : y = y' := by
  subst hx
  have := congrArg (· + x) h
  simpa using this

/-- The last block is that of the two lengths. -/
theorem macBlocks_sizes {m m' : Nat → Word} {p p' : Nat} (h : macBlocks m p = macBlocks m' p') :
    (headerAt m p).sizeAad = (headerAt m' p').sizeAad ∧ (headerAt m p).size = (headerAt m' p').size := by
  have hlast := congrArg List.getLast? h
  simp only [macBlocks, List.getLast?_cons, List.getLast?_append] at hlast
  have hlast := Option.some.inj hlast
  have ha : (headerAt m p).sizeAad = (headerAt m' p').sizeAad := congrFun hlast 0
  exact ⟨ha, length_inj ha (congrFun hlast 2)⟩

theorem macBlocks_chunks {m m' : Nat → Word} {p p' : Nat} (h : macBlocks m p = macBlocks m' p') {i : Nat}
    (h2 : 2 ≤ i) (hi : i < fedEnd (headerAt m p)) : chunkAt m p i = chunkAt m' p' i := by
  obtain ⟨ha, hs⟩ := macBlocks_sizes h
  have htail := List.append_inj_left (List.cons.inj (List.cons.inj h).2).2 (by
    simp only [List.length_append, chunksAt_length, ha, hs])
  rw [← ha, ← hs] at htail
  obtain ⟨haad, hct⟩ := List.append_inj htail (by rw [chunksAt_length, chunksAt_length])
  unfold fedEnd at hi
  by_cases hlt : i < (headerAt m p).sizeAad.toNat / 16
  · exact chunksAt_inj haad h2 hlt
  · exact chunksAt_inj hct (by omega) (by omega)

/-- **No change keeps the MAC's input.** Two images for which the same blocks
are fed have the same `size_aad` and `size`, and agree on every chunk from the
third to the end of the longer of the two parts. -/
theorem fed_injective (h : Feeds blk f sk key s l) (h' : Feeds blk' f' sk' key' s' l) :
    (headerAt s.mram (mramAt sk)).sizeAad = (headerAt s'.mram (mramAt sk')).sizeAad ∧
      (headerAt s.mram (mramAt sk)).size = (headerAt s'.mram (mramAt sk')).size ∧
      ∀ i, 2 ≤ i → i < max (headerAt s.mram (mramAt sk)).sizeAad.toNat (headerAt s.mram (mramAt sk)).size.toNat / 16 →
        ∀ j < 4, s.mram (mramAt sk + 4 * i + j) = s'.mram (mramAt sk' + 4 * i + j) := by
  have heq : macBlocks s.mram (mramAt sk) = macBlocks s'.mram (mramAt sk') := by
    rw [← (feeds_iff.mp h).2, ← (feeds_iff.mp h').2]
  obtain ⟨ha, hs⟩ := macBlocks_sizes heq
  refine ⟨ha, hs, fun i h2 hi j hj => ?_⟩
  have hchunk := macBlocks_chunks heq h2 (by
    unfold fedEnd
    omega)
  exact congrFun hchunk ⟨j, hj⟩

/-- An image with its tag, and the same image without. -/
theorem fed_injective_seal : ∃ l : List Block, Feeds core.chachaBlk noFrames 0 0 (textImage 0 2112 2112) l ∧
    Feeds core.chachaBlk noFrames 0 0 (started (imageAt 0 0xA5A5A5A5 2112 2112 1 0)) l ∧
    (headerAt (textImage 0 2112 2112).mram (mramAt 0)).size =
      (headerAt (started (imageAt 0 0xA5A5A5A5 2112 2112 1 0)).mram (mramAt 0)).size := by
  have hplain : headerAt (imageAt 0 0xA5A5A5A5 2112 2112 1 0) 0 = ⟨0xA5A5A5A5, fun _ => 0, fun _ => 0, 2112, 2112, 1, 0⟩ :=
    headerAt_image
  have h : Feeds core.chachaBlk noFrames 0 0 (textImage 0 2112 2112) (macBlocks (textImage 0 2112 2112).mram (mramAt 0)) := by
    refine feeds_iff.mpr ⟨⟨?_, chachaOk_started (by decide)⟩, rfl⟩
    rw [FedOk, textImage, zeroImage_header]
    decide
  have h' : Feeds core.chachaBlk noFrames 0 0 (started (imageAt 0 0xA5A5A5A5 2112 2112 1 0))
      (macBlocks (textImage 0 2112 2112).mram (mramAt 0)) := by
    refine feeds_iff.mpr ⟨⟨?_, chachaOk_started (by decide)⟩, ?_⟩
    · rw [FedOk, mramAt_zero]
      show InMram 0 (max 16 (4 * fedEnd (headerAt (imageAt 0 0xA5A5A5A5 2112 2112 1 0) 0)))
      rw [hplain]
      decide
    · rw [mramAt_zero]
      exact macBlocks_seal (by rw [mramAt_zero, hplain]; decide)
  exact ⟨_, h, h', (fed_injective h h').2.1⟩

end Memclave.Loader
