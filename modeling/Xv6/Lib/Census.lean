/-
Xv6.Lib.Census — everything a table holds, over an arbitrary type.

A table with `n` places is a function `f : Nat → Option β`, of which only
the places below `n` count. `census n f` lists what they hold. A change at
one place adds one thing to the census or takes one away, up to the order
(`census_set`, `census_clear`): what is conserved by a change is read off
as a permutation.
-/
import Mathlib.Data.List.Nodup
import Mathlib.Data.List.Range

namespace Xv6.Lib

variable {β : Type} {n i : Nat} {f g : Nat → Option β} {b : β}

/-- What the places below `n` hold, in order. -/
def census (n : Nat) (f : Nat → Option β) : List β := (List.range n).filterMap f

@[simp] theorem mem_census : b ∈ census n f ↔ ∃ i, i < n ∧ f i = some b := by
  simp [census]

theorem census_congr (h : ∀ i, i < n → f i = g i) : census n f = census n g := by
  apply List.filterMap_congr
  intro i hi
  exact h i (List.mem_range.mp hi)

theorem census_eq_nil : census n f = [] ↔ ∀ i, i < n → f i = none := by
  simp [census]

theorem census_split (hi : i < n) :
    (census n f).Perm ((f i).toList ++ ((List.range n).erase i).filterMap f) := by
  have hp := (List.perm_cons_erase (List.mem_range.mpr hi)).filterMap f
  cases h : f i with
  | none => simpa [census, h] using hp
  | some b => simpa [census, h] using hp

theorem filterMap_erase_congr (h : ∀ j, j ≠ i → f j = g j) :
    ((List.range n).erase i).filterMap f = ((List.range n).erase i).filterMap g := by
  apply List.filterMap_congr
  intro j hj
  exact h j (List.nodup_range.mem_erase_iff.mp hj).1

theorem census_set (hi : i < n) (hf : f i = none) (hg : g i = some b)
    (h : ∀ j, j ≠ i → g j = f j) : (census n g).Perm (b :: census n f) := by
  have hp := census_split (f := f) hi
  have hq := census_split (f := g) hi
  rw [hf, Option.toList_none, List.nil_append] at hp
  rw [hg, filterMap_erase_congr h] at hq
  exact hq.trans (hp.symm.cons b)

theorem census_clear (hi : i < n) (hf : f i = some b) (hg : g i = none)
    (h : ∀ j, j ≠ i → g j = f j) : (census n f).Perm (b :: census n g) :=
  census_set hi hg hf fun j hj => (h j hj).symm

theorem census_inj {j : Nat} (hn : (census n f).Nodup) (hi : i < n) (hj : j < n)
    (hfi : f i = some b) (hfj : f j = some b) : i = j := by
  by_contra hne
  have hp := census_split (f := f) hi
  rw [hfi] at hp
  have hmem : b ∈ ((List.range n).erase i).filterMap f := by
    refine List.mem_filterMap.mpr ⟨j, ?_, hfj⟩
    exact List.nodup_range.mem_erase_iff.mpr ⟨Ne.symm hne, List.mem_range.mpr hj⟩
  exact (List.nodup_cons.mp (hp.nodup_iff.mp hn)).1 hmem

end Xv6.Lib
