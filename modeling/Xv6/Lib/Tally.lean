/-
Xv6.Lib.Tally — how many places of a table point to a thing.

A table of pointers is a function `g : α → Option β` on a finite type of
places; `tally g b` is the number of places that hold `b`. A change at
one place changes the tally of the old and the new value by one and no
other, which is all that a proof about a reference count needs.
-/
import Mathlib.Data.Fintype.Card
import Mathlib.Algebra.BigOperators.Group.Finset.Piecewise

namespace Xv6.Lib

open Function

variable {α β : Type} [Fintype α] [DecidableEq α] [DecidableEq β] {a : α} {g : α → Option β} {b : β}

/-- The number of places that hold `b`. -/
def tally (g : α → Option β) (b : β) : Nat := (Finset.univ.filter fun a => g a = some b).card

omit [DecidableEq α] in
theorem card_filter_eq_tally {P : α → Prop} [DecidablePred P] (h : ∀ a, P a ↔ g a = some b) :
    (Finset.univ.filter P).card = tally g b :=
  congrArg Finset.card (Finset.filter_congr fun a _ => h a)

omit [DecidableEq α] in
theorem tally_eq_zero : tally g b = 0 ↔ ∀ a, g a ≠ some b := by
  simp [tally, Finset.filter_eq_empty_iff]

omit [DecidableEq α] in
theorem tally_pos (h : g a = some b) : 0 < tally g b := by
  refine Nat.pos_of_ne_zero fun h0 => ?_
  exact tally_eq_zero.mp h0 a h

omit [DecidableEq α] in
theorem tally_le (g : α → Option β) (b : β) : tally g b ≤ Fintype.card α :=
  Finset.card_le_univ _

theorem tally_update (g : α → Option β) (a : α) (v : Option β) (b : β) :
    (tally (update g a v) b : Int) =
      tally g b - (if g a = some b then 1 else 0) + (if v = some b then 1 else 0) := by
  have hsum : ∀ g : α → Option β, tally g b =
      (if g a = some b then 1 else 0) +
        ∑ x ∈ Finset.univ.erase a, if g x = some b then 1 else 0 := by
    intro g
    rw [tally, Finset.card_filter]
    exact (Finset.add_sum_erase _ _ (Finset.mem_univ a)).symm
  have hrest : (∑ x ∈ Finset.univ.erase a, if update g a v x = some b then 1 else 0) =
      ∑ x ∈ Finset.univ.erase a, if g x = some b then 1 else 0 := by
    refine Finset.sum_congr rfl fun x hx => ?_
    rw [update_of_ne (Finset.ne_of_mem_erase hx)]
  rw [hsum, hsum g, hrest, update_self]
  split <;> split <;> omega

theorem tally_set (h : g a = none) (c : β) :
    (tally (update g a (some b)) c : Int) = tally g c + if b = c then 1 else 0 := by
  simp [tally_update, h]

theorem tally_clear (h : g a = some b) (c : β) :
    (tally (update g a none) c : Int) = tally g c - if b = c then 1 else 0 := by
  simp [tally_update, h]

end Xv6.Lib
