/-
Mailboxes with a tag: a sender fills its box in one or more writes and then
tags it, and the receiver waits for the tag.

`Sends` is what a sender may do to its box while tag `e` stands for message
`p`; a box that has the tag holds the message (`Got`) whatever the senders do
to theirs.
-/
import Mathlib.Logic.Function.Basic
import Mathlib.Tactic.Common

namespace Mailboxes

open Function

structure Mail (τ ν : Type) where
  val : Nat → ν
  tag : Nat → τ

variable {τ ν : Type} {e : τ} {p : ν} {u v : Nat} {m m' : Mail τ ν}

namespace Mail

/-- A write into box `u`. -/
def put (m : Mail τ ν) (u : Nat) (f : ν → ν) : Mail τ ν := { m with val := update m.val u (f (m.val u)) }

/-- Box `u` is tagged. -/
def mark (m : Mail τ ν) (u : Nat) (e : τ) : Mail τ ν := { m with tag := update m.tag u e }

theorem put_val (f : ν → ν) : (m.put u f).val u = f (m.val u) := update_self ..

@[simp] theorem put_tag (f : ν → ν) : (m.put u f).tag = m.tag := rfl

@[simp] theorem mark_val : (m.mark u e).val = m.val := rfl

theorem mark_tag : (m.mark u e).tag u = e := update_self ..

/-- Box `u` has tag `e` and message `p`. -/
structure Got (m : Mail τ ν) (e : τ) (p : ν) (u : Nat) : Prop where
  tag : m.tag u = e
  val : m.val u = p

/-- If box `u` has tag `e`, then also message `p`. -/
def Holds (m : Mail τ ν) (e : τ) (p : ν) (u : Nat) : Prop := m.tag u = e → m.val u = p

/-- What the sender to box `u` does. -/
structure Sends (e : τ) (p : ν) (u : Nat) (m m' : Mail τ ν) : Prop where
  other_val : ∀ v, v ≠ u → m'.val v = m.val v
  other_tag : ∀ v, v ≠ u → m'.tag v = m.tag v
  kept : m.Got e p u → m'.Got e p u
  sent : m'.tag u = e → m.tag u = e ∨ m'.val u = p

theorem Sends.refl : Sends e p u m m := ⟨fun _ _ => rfl, fun _ _ => rfl, id, .inl⟩

theorem Sends.put (f : ν → ν) (h : m.tag u ≠ e) : Sends e p u m (m.put u f) :=
  ⟨fun _ hv => update_of_ne hv _ _, fun _ _ => rfl, fun hg => absurd hg.tag h, .inl⟩

theorem Sends.mark (h : m.val u = p) : Sends e p u m (m.mark u e) :=
  ⟨fun _ _ => rfl, fun _ hv => update_of_ne hv _ _, fun hg => ⟨update_self .., hg.val⟩, fun _ => .inr h⟩

theorem Sends.got {w : ν} (h : Sends e p u m m') (hv : m.Got e w v) (hp : v = u → w = p) : m'.Got e w v := by
  by_cases hu : v = u
  · subst hu
    obtain rfl := hp rfl
    exact h.kept hv
  · exact ⟨(h.other_tag v hu).trans hv.tag, (h.other_val v hu).trans hv.val⟩

/-- **A tagged box has its message**, whatever is sent. -/
theorem Sends.holds {w : ν} (h : Sends e p u m m') (hm : m.Holds e w v) (hp : v = u → w = p) : m'.Holds e w v := by
  intro hv
  by_cases hu : v = u
  · subst hu
    obtain rfl := hp rfl
    cases h.sent hv with
    | inl htag => exact (h.kept ⟨htag, hm htag⟩).val
    | inr hval => exact hval
  · rw [h.other_val v hu]
    exact hm (by rwa [h.other_tag v hu] at hv)

end Mail

end Mailboxes
