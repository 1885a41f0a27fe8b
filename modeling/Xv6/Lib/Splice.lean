/-
Xv6.Lib.Splice — writing into a list at an offset.

`splice l off src` is `l` with the elements from `off` on replaced by
those of `src`; it grows if `src` reaches over the end. An array that is
written in pieces, each where the one before ended, is written once
(`splice_splice`).
-/
import Mathlib.Data.List.Basic

namespace Xv6.Lib

variable {α : Type}

/-- `l` with `src` written at `off`. -/
def splice (l : List α) (off : Nat) (src : List α) : List α :=
  l.take off ++ src ++ l.drop (off + src.length)

section
variable {l src : List α} {off : Nat}

theorem splice_nil (l : List α) (off : Nat) : splice l off [] = l := by
  simp [splice]

theorem splice_length (l src : List α) : splice l l.length src = l ++ src := by
  simp [splice]

theorem length_splice (h : off ≤ l.length) :
    (splice l off src).length = max l.length (off + src.length) := by
  simp [splice]
  omega

theorem getElem?_splice (h : off ≤ l.length) (i : Nat) : (splice l off src)[i]? =
    if off ≤ i ∧ i < off + src.length then src[i - off]? else l[i]? := by
  have htake : (l.take off).length = off := by simp [h]
  rw [splice, List.append_assoc]
  by_cases h1 : i < off
  · rw [List.getElem?_append_left (by omega), if_neg (by omega)]
    simp [h1]
  · rw [List.getElem?_append_right (by omega), htake]
    by_cases h2 : i < off + src.length
    · rw [List.getElem?_append_left (by omega), if_pos (by omega)]
    · rw [List.getElem?_append_right (by omega), if_neg (by omega), List.getElem?_drop]
      congr 1
      omega

theorem eq_splice {l' : List α} (h : off ≤ l.length)
    (hi : ∀ i, l'[i]? = if off ≤ i ∧ i < off + src.length then src[i - off]? else l[i]?) :
    l' = splice l off src := by
  apply List.ext_getElem?
  intro i
  rw [hi, getElem?_splice h]

theorem splice_splice {src' : List α} (h : off ≤ l.length) :
    splice (splice l off src) (off + src.length) src' = splice l off (src ++ src') := by
  apply eq_splice h
  intro i
  rw [getElem?_splice (by rw [length_splice h]; omega), getElem?_splice h, List.length_append]
  by_cases h1 : off + src.length ≤ i ∧ i < off + src.length + src'.length
  · rw [if_pos h1, if_pos (by omega), List.getElem?_append_right (by omega)]
    congr 1
    omega
  · rw [if_neg h1]
    by_cases h2 : off ≤ i ∧ i < off + src.length
    · rw [if_pos h2, if_pos (by omega), List.getElem?_append_left (by omega)]
    · rw [if_neg h2, if_neg (by omega)]

end

end Xv6.Lib
