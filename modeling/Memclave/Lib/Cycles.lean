/-
Entries moved along the cycles of an injection, in place and by several
agents at once, with one mark a place.

An agent reads the entry at a place it has chosen, and if the place is not
marked it carries the entry to the next one: it reads what is there, marks
the place and, had nobody marked it, puts down what it carries and goes on
with what it has read. `Inv` is why no entry is lost although each reads
before it marks: whoever marks a place has read what was there at first.
`Inv.settled`: once all are idle, each chosen entry is at its place and was
put there once. `next_work` bounds what the agents do for each choice.
-/
import Memclave.Lib.System
import Mathlib.Data.Finset.Card
import Mathlib.Data.Set.Function

namespace Cycles

open Function

variable {ι α : Type*}

/-- Where an agent is. -/
inductive Phase (ι α : Type*) where
  | idle
  /-- has chosen a place, and is to read it -/
  | start (x : ι)
  /-- has read `d` there, and is to look for the mark -/
  | check (x : ι) (d : α)
  /-- has `d` for the place `y`, and is to read what is there -/
  | carry (y : ι) (d : α)
  /-- has read `b` there, and is to mark the place -/
  | mark (y : ι) (d b : α)
  /-- was the first to mark it, and is to put `d` there -/
  | put (y : ι) (d b : α)

structure State (ι α : Type*) where
  rows : ι → α
  done : ι → Bool
  phase : Nat → Phase ι α
  /-- the places chosen so far -/
  chosen : Set ι
  /-- how often an entry was put to a place -/
  puts : ι → Nat

variable (π : ι → ι)

def State.goto (s : State ι α) (w : Nat) (p : Phase ι α) : State ι α := { s with phase := update s.phase w p }

/-- Agent `w` chooses a place. -/
def State.take (s : State ι α) (w : Nat) (x : ι) : State ι α :=
  { s with chosen := insert x s.chosen }.goto w (.start x)

/-- What agent `w` does otherwise. -/
def State.next [DecidableEq ι] (s : State ι α) (w : Nat) : State ι α :=
  match s.phase w with
  | .idle => s
  | .start x => s.goto w (.check x (s.rows x))
  | .check x d => s.goto w (if s.done x then .idle else .carry (π x) d)
  | .carry y d => s.goto w (.mark y d (s.rows y))
  | .mark y d b =>
    { s with done := update s.done y true }.goto w (if s.done y then .idle else .put y d b)
  | .put y d b =>
    { s with rows := update s.rows y d, puts := update s.puts y (s.puts y + 1) }.goto w (.carry (π y) b)

/-! ## The invariant -/

/-- The agent is on its way from `x` to the place after it. -/
def Phase.Chases : Phase ι α → ι → Prop
  | .carry y _, x | .mark y _ _, x => y = π x
  | .put y _ _, x => y = x
  | _, _ => False

/-- The agent has chosen `x`. -/
def Phase.Begins : Phase ι α → ι → Prop
  | .start x', x | .check x' _, x => x' = x
  | _, _ => False

def Phase.Puts : Phase ι α → ι → Prop
  | .put y _ _, y' => y = y'
  | _, _ => False

variable (dom : Finset ι) (init : ι → α)

/-- `d` is the first entry of the place before `y`. -/
def Arrives (y : ι) (d : α) : Prop := ∃ x ∈ dom, π x ≠ x ∧ π x = y ∧ d = init x

/-- What an agent knows. -/
def Phase.Ok (s : State ι α) : Phase ι α → Prop
  | .idle => True
  | .start x => x ∈ dom ∧ π x ≠ x
  | .check x d => x ∈ dom ∧ π x ≠ x ∧ (s.done x = false → d = init x)
  | .carry y d => Arrives π dom init y d
  | .mark y d b => Arrives π dom init y d ∧ (s.done y = false → b = init y)
  | .put y d b => Arrives π dom init y d ∧ s.done y = true ∧ s.puts y = 0 ∧ b = init y

structure Inv (s : State ι α) : Prop where
  phase : ∀ w, (s.phase w).Ok π dom init s
  /-- a place that is not marked is as it was -/
  fresh : ∀ y ∈ dom, s.done y = false → s.rows y = init y ∧ s.puts y = 0
  /-- only a place that gets an entry is marked -/
  marked : ∀ y ∈ dom, s.done y = true → π y ≠ y
  /-- an entry is at its place, or somebody is about to put it there -/
  placed : ∀ x ∈ dom, s.done (π x) = true →
    (∃ w, (s.phase w).Puts (π x)) ∨ s.rows (π x) = init x ∧ s.puts (π x) = 1
  alone : ∀ w w' y, (s.phase w).Puts y → (s.phase w').Puts y → w = w'
  /-- who has marked a place goes on to the next -/
  followed : ∀ x ∈ dom, s.done x = true → s.done (π x) = true ∨ ∃ w, (s.phase w).Chases π x
  choice : ∀ x ∈ s.chosen, x ∈ dom ∧ π x ≠ x
  begun : ∀ x ∈ s.chosen, s.done (π x) = true ∨ s.done x = true ∨
    ∃ w, (s.phase w).Begins x ∨ (s.phase w).Chases π x

variable {π dom init} {s s' : State ι α} {w : Nat} {p : Phase ι α} {x y : ι} {d b : α}

@[simp] theorem goto_phase_self : (s.goto w p).phase w = p := update_self _ _ _

theorem goto_phase_ne {w' : Nat} (h : w' ≠ w) : (s.goto w p).phase w' = s.phase w' := update_of_ne h _ _

/-- What some agent has, some agent has after `w` has moved on, unless `w`
has lost it for a reason. -/
theorem exists_goto {A : Phase ι α → Prop} {R : Prop} (h : ∃ w', A (s.phase w')) (hw : A (s.phase w) → R ∨ A p) :
    R ∨ ∃ w', A ((s.goto w p).phase w') := by
  obtain ⟨w', h'⟩ := h
  by_cases hww : w' = w
  · subst hww
    exact (hw h').imp_right fun hp => ⟨w', by rwa [goto_phase_self]⟩
  · exact .inr ⟨w', by rwa [goto_phase_ne hww]⟩

/-- What an agent knows stays true while marks are only added and the place
it is about to write is left alone. -/
theorem Phase.Ok.mono (h : p.Ok π dom init s) (hdone : ∀ y, s.done y = true → s'.done y = true)
    (hputs : ∀ y, p.Puts y → s'.puts y = s.puts y) : p.Ok π dom init s' := by
  have hfree : ∀ y, s'.done y = false → s.done y = false := fun y hy => by
    by_contra hn
    simp [hdone y (Bool.not_eq_false _ ▸ hn)] at hy
  cases p with
  | idle => trivial
  | start x => exact h
  | check x d => exact ⟨h.1, h.2.1, fun hx => h.2.2 (hfree x hx)⟩
  | carry y d => exact h
  | mark y d b => exact ⟨h.1, fun hy => h.2 (hfree y hy)⟩
  | put y d b => exact ⟨h.1, hdone y h.2.1, (hputs y rfl).trans h.2.2.1, h.2.2.2⟩

/-- An agent moves on and writes nothing: it loses no place it is to put an
entry to, no entry it carries and no choice that is not settled. -/
theorem Inv.goto (h : Inv π dom init s) (hok : p.Ok π dom init s) (hputs : ∀ y, p.Puts y ↔ (s.phase w).Puts y)
    (hchases : ∀ x, (s.phase w).Chases π x → s.done (π x) = true ∨ p.Chases π x)
    (hbegins : ∀ x, (s.phase w).Begins x → s.done x = true ∨ p.Begins x ∨ p.Chases π x) :
    Inv π dom init (s.goto w p) where
  phase w' := by
    by_cases hw : w' = w
    · subst hw
      rw [goto_phase_self]
      exact hok.mono (fun _ hy => hy) fun _ _ => rfl
    · rw [goto_phase_ne hw]
      exact (h.phase w').mono (fun _ hy => hy) fun _ _ => rfl
  fresh := h.fresh
  marked := h.marked
  placed x hx hd := by
    cases h.placed x hx hd with
    | inl hex => exact (exists_goto (A := fun q => q.Puts (π x)) hex fun hq => .inr ((hputs _).mpr hq)).symm
    | inr hput => exact .inr hput
  alone w1 w2 y h1 h2 := by
    have hback : ∀ w', ((s.goto w p).phase w').Puts y → (s.phase w').Puts y := fun w' hw' => by
      by_cases hw : w' = w
      · subst hw
        rw [goto_phase_self] at hw'
        exact (hputs y).mp hw'
      · rwa [goto_phase_ne hw] at hw'
    exact h.alone w1 w2 y (hback w1 h1) (hback w2 h2)
  followed x hx hd := by
    cases h.followed x hx hd with
    | inl hnext => exact .inl hnext
    | inr hex => exact exists_goto (A := fun q => q.Chases π x) hex (hchases x)
  choice := h.choice
  begun x hx := by
    rcases h.begun x hx with hnext | hdone | hex
    · exact .inl hnext
    · exact .inr (.inl hdone)
    · refine or_assoc.mp (exists_goto (A := fun q => q.Begins x ∨ q.Chases π x) hex fun hq => ?_)
      cases hq with
      | inl hq =>
        cases hbegins x hq with
        | inl hx => exact .inl (.inr hx)
        | inr hp => exact .inr hp
      | inr hq =>
        cases hchases x hq with
        | inl hx => exact .inl (.inl hx)
        | inr hp => exact .inr (.inr hp)

/-! ## What a step keeps -/

theorem Inv.start (hdone : ∀ y ∈ dom, s.done y = false) (hrows : s.rows = init) (hidle : ∀ w, s.phase w = .idle)
    (hchosen : s.chosen = ∅) (hputs : ∀ y, s.puts y = 0) (hmaps : ∀ x ∈ dom, π x ∈ dom) : Inv π dom init s := by
  have hno : ∀ y ∈ dom, s.done y ≠ true := fun y hy => by simp [hdone y hy]
  refine ⟨fun w => ?_, fun y _ _ => ⟨by rw [hrows], hputs y⟩, fun y hy hd => absurd hd (hno y hy),
    fun x hx hd => absurd hd (hno _ (hmaps x hx)), fun w w' y hw => ?_, fun x hx hd => absurd hd (hno x hx), ?_, ?_⟩
  · rw [hidle]
    trivial
  · rw [hidle] at hw
    exact hw.elim
  · simp [hchosen]
  · simp [hchosen]

theorem Inv.take (h : Inv π dom init s) (hw : s.phase w = .idle) (hx : x ∈ dom) (hne : π x ≠ x) :
    Inv π dom init (s.take w x) := by
  have hgoto : Inv π dom init (s.goto w (.start x)) := by
    refine h.goto ⟨hx, hne⟩ (fun y => by rw [hw]; rfl) (fun y hy => ?_) fun y hy => ?_
    · rw [hw] at hy
      exact hy.elim
    · rw [hw] at hy
      exact hy.elim
  refine { hgoto with phase := fun w' => hgoto.phase w', choice := ?_, begun := ?_ }
  · rintro y (rfl | hy)
    · exact ⟨hx, hne⟩
    · exact h.choice y hy
  · rintro y (rfl | hy)
    · refine .inr (.inr ⟨w, .inl ?_⟩)
      show Phase.Begins ((s.goto w (.start y)).phase w) y
      rw [goto_phase_self]
      rfl
    · exact hgoto.begun y hy

section

variable (hmaps : ∀ x ∈ dom, π x ∈ dom) (hinj : Set.InjOn π dom)

include hmaps in
theorem Arrives.mem (h : Arrives π dom init y d) : y ∈ dom := by
  obtain ⟨x, hx, -, rfl, -⟩ := h
  exact hmaps x hx

include hmaps hinj in
theorem Arrives.moves (h : Arrives π dom init y d) : π y ≠ y := by
  obtain ⟨x, hx, hne, rfl, -⟩ := h
  exact fun he => hne (hinj (hmaps x hx) hx he)

include hinj in
theorem Arrives.eq (h : Arrives π dom init (π x) d) (hx : x ∈ dom) : d = init x := by
  obtain ⟨x', hx', -, he, rfl⟩ := h
  rw [hinj hx' hx he]

theorem Phase.Ok.puts (h : p.Ok π dom init s) (hp : p.Puts y) : s.done y = true := by
  cases p with
  | put y' d b =>
    obtain rfl : y' = y := hp
    exact h.2.1
  | _ => exact hp.elim

variable [DecidableEq ι]

theorem update_done (h : s.done x = true) : update s.done y true x = true := by
  by_cases hxy : x = y
  · rw [hxy, update_self]
  · rwa [update_of_ne hxy]

include hmaps hinj

/-- The first to mark a place has read what was there at first. -/
theorem Inv.mark (h : Inv π dom init s) (hw : s.phase w = .mark y d b) (hy : s.done y = false) :
    Inv π dom init ({ s with done := update s.done y true }.goto w (.put y d b)) := by
  have hok := h.phase w
  rw [hw] at hok
  have hmem := hok.1.mem hmaps
  have hadd : ∀ z, s.done z = true → update s.done y true z = true := fun z => update_done
  have hold : ∀ z, update s.done y true z = false → s.done z = false := fun z hz => by
    by_contra hn
    rw [hadd z (Bool.not_eq_false _ ▸ hn)] at hz
    exact absurd hz (by simp)
  have hchases : ∀ x, (s.phase w).Chases π x → update s.done y true (π x) = true := fun x hx => by
    rw [hw] at hx
    rw [← show y = π x from hx, update_self]
  refine ⟨fun w' => ?_, fun z hz hd => h.fresh z hz (hold z hd), fun z hz hd => ?_, fun x hx hd => ?_,
    fun w1 w2 z h1 h2 => ?_, fun x hx hd => ?_, h.choice, fun x hx => ?_⟩
  · by_cases hww : w' = w
    · subst hww
      rw [goto_phase_self]
      exact ⟨hok.1, update_self _ _ _, (h.fresh y hmem hy).2, hok.2 hy⟩
    · rw [goto_phase_ne hww]
      exact (h.phase w').mono hadd fun _ _ => rfl
  · by_cases hzy : z = y
    · rw [hzy]
      exact hok.1.moves hmaps hinj
    · exact h.marked z hz ((update_of_ne hzy _ _).symm.trans hd)
  · by_cases hxy : π x = y
    · exact .inl ⟨w, by rw [goto_phase_self]; exact hxy.symm⟩
    · cases h.placed x hx ((update_of_ne hxy _ _).symm.trans hd) with
      | inl hex =>
        refine (exists_goto (A := fun q => q.Puts (π x)) hex fun hq => ?_).symm
        rw [hw] at hq
        exact hq.elim
      | inr hput => exact .inr hput
  · -- who was to put something there has marked it before
    have hone : ∀ w', ({ s with done := update s.done y true }.goto w (.put y d b)).phase w' |>.Puts z →
        (w' = w ∧ z = y) ∨ w' ≠ w ∧ (s.phase w').Puts z := fun w' hp => by
      by_cases hww : w' = w
      · subst hww
        rw [goto_phase_self] at hp
        exact .inl ⟨rfl, hp.symm⟩
      · rw [goto_phase_ne hww] at hp
        exact .inr ⟨hww, hp⟩
    have hnot : ∀ w', ¬ (s.phase w').Puts y := fun w' hp => by
      rw [(h.phase w').puts hp] at hy
      exact absurd hy (by simp)
    rcases hone w1 h1 with ⟨rfl, rfl⟩ | ⟨hne1, hp1⟩
    · rcases hone w2 h2 with ⟨rfl, -⟩ | ⟨-, hp2⟩
      · rfl
      · exact absurd hp2 (hnot w2)
    · rcases hone w2 h2 with ⟨rfl, rfl⟩ | ⟨-, hp2⟩
      · exact absurd hp1 (hnot w1)
      · exact h.alone w1 w2 z hp1 hp2
  · by_cases hxy : x = y
    · exact .inr ⟨w, by rw [goto_phase_self]; exact hxy.symm⟩
    · cases h.followed x hx ((update_of_ne hxy _ _).symm.trans hd) with
      | inl hnext => exact .inl (hadd _ hnext)
      | inr hex => exact exists_goto (A := fun q => q.Chases π x) hex fun hq => .inl (hchases x hq)
  · rcases h.begun x hx with hnext | hdone | hex
    · exact .inl (hadd _ hnext)
    · exact .inr (.inl (hadd _ hdone))
    · refine or_assoc.mp (exists_goto (A := fun q => q.Begins x ∨ q.Chases π x) hex fun hq => ?_)
      cases hq with
      | inl hq =>
        rw [hw] at hq
        exact hq.elim
      | inr hq => exact .inl (.inl (hchases x hq))

/-- What it puts there is the entry of the place before. -/
theorem Inv.put (h : Inv π dom init s) (hw : s.phase w = .put y d b) :
    Inv π dom init ({ s with rows := update s.rows y d, puts := update s.puts y (s.puts y + 1) }.goto w (.carry (π y) b)) := by
  have hok := h.phase w
  rw [hw] at hok
  obtain ⟨harr, hdone, hputs, hb⟩ := hok
  have hmem := harr.mem hmaps
  have hchases : ∀ x, (s.phase w).Chases π x → π y = π x := fun x hx => by
    rw [hw] at hx
    rw [show y = x from hx]
  have hsame : ∀ w' z, (s.phase w').Puts z → w' ≠ w → z ≠ y := fun w' z hp hne hzy =>
    hne (h.alone w' w z hp (by rw [hw]; exact hzy.symm))
  refine ⟨fun w' => ?_, fun z hz hd => ?_, h.marked, fun x hx hd => ?_, fun w1 w2 z h1 h2 => ?_, fun x hx hd => ?_,
    h.choice, fun x hx => ?_⟩
  · by_cases hww : w' = w
    · subst hww
      rw [goto_phase_self]
      exact ⟨y, hmem, harr.moves hmaps hinj, rfl, hb⟩
    · rw [goto_phase_ne hww]
      exact (h.phase w').mono (fun _ hz => hz) fun z hz => update_of_ne (hsame w' z hz hww) _ _
  · have hzy : z ≠ y := fun hzy => by
      rw [← hzy, show s.done z = false from hd] at hdone
      exact absurd hdone (by simp)
    exact ⟨(update_of_ne hzy _ _).trans (h.fresh z hz hd).1, (update_of_ne hzy _ _).trans (h.fresh z hz hd).2⟩
  · by_cases hxy : π x = y
    · right
      subst hxy
      refine ⟨(update_self _ _ _).trans (harr.eq hinj hx), (update_self _ _ _).trans ?_⟩
      rw [hputs]
    · cases h.placed x hx hd with
      | inl hex =>
        refine (exists_goto (A := fun q => q.Puts (π x)) hex fun hq => ?_).symm
        rw [hw] at hq
        exact absurd hq.symm hxy
      | inr hput => exact .inr ⟨(update_of_ne hxy _ _).trans hput.1, (update_of_ne hxy _ _).trans hput.2⟩
  · have hback : ∀ w', ({ s with rows := update s.rows y d, puts := update s.puts y (s.puts y + 1) }.goto w
        (.carry (π y) b)).phase w' |>.Puts z → (s.phase w').Puts z := fun w' hp => by
      by_cases hww : w' = w
      · subst hww
        rw [goto_phase_self] at hp
        exact hp.elim
      · rwa [goto_phase_ne hww] at hp
    exact h.alone w1 w2 z (hback w1 h1) (hback w2 h2)
  · cases h.followed x hx hd with
    | inl hnext => exact .inl hnext
    | inr hex => exact exists_goto (A := fun q => q.Chases π x) hex fun hq => .inr (hchases x hq)
  · rcases h.begun x hx with hnext | hdone | hex
    · exact .inl hnext
    · exact .inr (.inl hdone)
    · refine or_assoc.mp (exists_goto (A := fun q => q.Begins x ∨ q.Chases π x) hex fun hq => .inr ?_)
      cases hq with
      | inl hq =>
        rw [hw] at hq
        exact hq.elim
      | inr hq => exact .inr (hchases x hq)

/-- **What an agent does keeps the invariant.** -/
theorem Inv.next (h : Inv π dom init s) (w : Nat) : Inv π dom init (s.next π w) := by
  have hok := h.phase w
  unfold State.next
  cases hp : s.phase w with
  | idle => exact h
  | start x =>
    rw [hp] at hok
    refine h.goto ⟨hok.1, hok.2, fun hx => (h.fresh x hok.1 hx).1⟩ (fun y => by rw [hp]; rfl) (fun x hx => ?_)
      fun x hx => ?_
    · rw [hp] at hx
      exact hx.elim
    · rw [hp] at hx
      exact .inr (.inl hx)
  | check x d =>
    rw [hp] at hok
    dsimp only
    split
    next hd =>
      refine h.goto trivial (fun y => by rw [hp]; rfl) (fun x' hx => ?_) fun x' hx => ?_
      · rw [hp] at hx
        exact hx.elim
      · rw [hp] at hx
        exact .inl (by rw [← show x = x' from hx]; exact hd)
    next hd =>
      have hx0 := hok.2.2 (Bool.not_eq_true _ ▸ hd)
      refine h.goto ⟨x, hok.1, hok.2.1, rfl, hx0⟩ (fun y => by rw [hp]; rfl) (fun x' hx => ?_) fun x' hx => ?_
      · rw [hp] at hx
        exact hx.elim
      · rw [hp] at hx
        exact .inr (.inr (congrArg π hx))
  | carry y d =>
    rw [hp] at hok
    refine h.goto ⟨hok, fun hy => (h.fresh y (hok.mem hmaps) hy).1⟩ (fun y => by rw [hp]; rfl) (fun x hx => ?_)
      fun x hx => ?_
    · rw [hp] at hx
      exact .inr hx
    · rw [hp] at hx
      exact hx.elim
  | mark y d b =>
    dsimp only
    split
    next hd =>
      -- marked already: what was carried there is there, or somebody carries it too
      rw [show update s.done y true = s.done by rw [← hd, update_eq_self]]
      refine h.goto (p := .idle) trivial (fun y => by rw [hp]; rfl) (fun x hx => ?_) fun x hx => ?_
      · rw [hp] at hx
        exact .inl (by rw [← show y = π x from hx]; exact hd)
      · rw [hp] at hx
        exact hx.elim
    next hd => exact h.mark hmaps hinj hp (Bool.not_eq_true _ ▸ hd)
  | put y d b => exact h.put hmaps hinj hp

end

/-! ## When all are idle -/

/-- **Each chosen entry is at its place**, and was put there once. -/
theorem Inv.settled (h : Inv π dom init s) (hidle : ∀ w, s.phase w = .idle) (hx : x ∈ s.chosen) :
    s.rows (π x) = init x ∧ s.puts (π x) = 1 := by
  obtain ⟨hmem, -⟩ := h.choice x hx
  have hno : ∀ x, ¬ ∃ w, (s.phase w).Chases π x := fun x ⟨w, hw⟩ => by
    rw [hidle] at hw
    exact hw
  have hdone : s.done (π x) = true := by
    rcases h.begun x hx with hnext | hd | ⟨w, hw⟩
    · exact hnext
    · exact (h.followed x hmem hd).resolve_right (hno x)
    · rw [hidle] at hw
      exact (hw.elim id id).elim
  refine (h.placed x hmem hdone).resolve_left fun ⟨w, hw⟩ => ?_
  rw [hidle] at hw
  exact hw

/-- A place that gets no entry is left alone. -/
theorem Inv.fixed (h : Inv π dom init s) (hx : x ∈ dom) (hfix : π x = x) : s.rows x = init x ∧ s.puts x = 0 :=
  h.fresh x hx (Bool.eq_false_iff.mpr fun hd => h.marked x hx hd hfix)

/-! ## How long it takes -/

/-- The steps left to an agent but for the marks it is the first to set. -/
def Phase.weight : Phase ι α → Nat
  | .idle => 0
  | .start _ => 5
  | .check .. => 4
  | .carry .. => 3
  | .mark .. => 2
  | .put .. => 4

/-- The places that are not marked. -/
def State.free (s : State ι α) (dom : Finset ι) : Finset ι := dom.filter fun y => s.done y = false

/-- A bound on the steps that `N` agents can make without a new choice. -/
def State.work (s : State ι α) (dom : Finset ι) (N : Nat) : Nat :=
  3 * (s.free dom).card + ∑ w ∈ Finset.range N, (s.phase w).weight

theorem free_mark [DecidableEq ι] (hy : y ∈ dom) (hd : s.done y = false) :
    (State.free { s with done := update s.done y true } dom).card + 1 = (s.free dom).card := by
  have hmem : y ∈ s.free dom := Finset.mem_filter.mpr ⟨hy, hd⟩
  have herase : State.free { s with done := update s.done y true } dom = (s.free dom).erase y := by
    ext z
    by_cases hz : z = y <;> simp [State.free, hz]
  rw [herase, Finset.card_erase_of_mem hmem]
  have := Finset.card_pos.mpr ⟨y, hmem⟩
  omega

section

variable {N : Nat} (hw : w < N)

include hw

theorem work_goto (dom : Finset ι) (s : State ι α) (p : Phase ι α) :
    (s.goto w p).work dom N + (s.phase w).weight = s.work dom N + p.weight := by
  have h := Sys.sum_update (Finset.mem_range.mpr hw) Phase.weight s.phase p
  have hgoto : (s.goto w p).work dom N =
      3 * (s.free dom).card + ∑ w' ∈ Finset.range N, (update s.phase w p w').weight := rfl
  rw [hgoto, State.work]
  omega

theorem work_take (h : s.phase w = .idle) : (s.take w x).work dom N = s.work dom N + 5 := by
  have hgoto := work_goto hw dom s (.start x)
  rw [h] at hgoto
  exact hgoto

/-- **Every step of an agent that is not idle is one less to make.** -/
theorem next_work [DecidableEq ι] (hmaps : ∀ x ∈ dom, π x ∈ dom) (h : Inv π dom init s) (hidle : s.phase w ≠ .idle) :
    (s.next π w).work dom N < s.work dom N := by
  have hok := h.phase w
  have hgoto := work_goto hw dom s
  unfold State.next
  cases hp : s.phase w with
  | idle => exact absurd hp hidle
  | start x =>
    rw [hp] at hgoto
    have := hgoto (.check x (s.rows x))
    simp only [Phase.weight] at this
    dsimp only
    omega
  | check x d =>
    rw [hp] at hgoto
    dsimp only
    split
    · have := hgoto .idle
      simp only [Phase.weight] at this
      omega
    · have := hgoto (.carry (π x) d)
      simp only [Phase.weight] at this
      omega
  | carry y d =>
    rw [hp] at hgoto
    have := hgoto (.mark y d (s.rows y))
    simp only [Phase.weight] at this
    dsimp only
    omega
  | mark y d b =>
    rw [hp] at hok
    have hmark := work_goto hw dom { s with done := update s.done y true }
    rw [show State.phase { s with done := update s.done y true } w = .mark y d b from hp] at hmark
    dsimp only
    split
    next hd =>
      have := hmark .idle
      have hsame : ({ s with done := update s.done y true } : State ι α) = s := by rw [← hd, update_eq_self]
      rw [hsame] at this ⊢
      simp only [Phase.weight] at this
      omega
    next hd =>
      have := hmark (.put y d b)
      have hfree := free_mark (hok.1.mem hmaps) (Bool.not_eq_true _ ▸ hd)
      have hwork : State.work { s with done := update s.done y true } dom N + 3 = s.work dom N := by
        simp only [State.work]
        omega
      simp only [Phase.weight] at this
      omega
  | put y d b =>
    have hput := work_goto hw dom { s with rows := update s.rows y d, puts := update s.puts y (s.puts y + 1) }
      (.carry (π y) b)
    rw [show State.phase { s with rows := update s.rows y d, puts := update s.puts y (s.puts y + 1) } w = .put y d b
      from hp] at hput
    have hwork : State.work { s with rows := update s.rows y d, puts := update s.puts y (s.puts y + 1) } dom N =
      s.work dom N := rfl
    simp only [Phase.weight] at hput
    dsimp only
    omega

end

end Cycles
