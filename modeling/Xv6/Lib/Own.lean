/-
Xv6.Lib.Own — who owns which cell of a store, over an arbitrary type of
places.

A place holds the number of a cell, or 0 for none. `Exact own lo hi used`
says that the places and the allocation marks agree: what a place holds is
a marked cell between `lo` and `hi`, no cell is held in two places, and no
cell between `lo` and `hi` is marked without being held; `Exact.take` is
how a place gets one. `Apart` is the part of it that a taker relies on:
there may be marked cells that no place holds.
-/
import Mathlib.Data.List.Induction

namespace Xv6.Lib

open Function

variable {κ : Type}

/-- What the places hold are marked cells from `lo` to `hi`, each held once. -/
structure Apart (own : κ → Nat) (lo hi : Nat) (used : Nat → Bool) : Prop where
  pos : 0 < lo
  range : ∀ k, own k ≠ 0 → lo ≤ own k ∧ own k < hi
  marked : ∀ k, own k ≠ 0 → used (own k) = true
  inj : ∀ k k', own k = own k' → own k ≠ 0 → k = k'

/-- Places and marks agree on the cells from `lo` to `hi`. -/
structure Exact (own : κ → Nat) (lo hi : Nat) (used : Nat → Bool) : Prop where
  pos : 0 < lo
  range : ∀ k, own k ≠ 0 → lo ≤ own k ∧ own k < hi
  marked : ∀ k, own k ≠ 0 → used (own k) = true
  inj : ∀ k k', own k = own k' → own k ≠ 0 → k = k'
  only : ∀ x, lo ≤ x → x < hi → used x = true → ∃ k, own k = x

namespace Apart

variable {own : κ → Nat} {lo hi x : Nat} {used : Nat → Bool} {k : κ}

theorem ne_of_free (h : Apart own lo hi used) (hx : used x = false) (h0 : x ≠ 0) (k : κ) :
    own k ≠ x := by
  rintro rfl
  rw [h.marked k h0] at hx
  cases hx

theorem take [DecidableEq κ] (h : Apart own lo hi used) (hlo : lo ≤ x) (hhi : x < hi)
    (hx : used x = false) :
    Apart (update own k x) lo hi (update used x true) := by
  have hpos := h.pos
  have hfree := h.ne_of_free hx (by omega)
  constructor
  · exact hpos
  · intro j hj
    by_cases hjk : j = k
    · simp [hjk, hlo, hhi]
    · rw [update_of_ne hjk] at hj ⊢
      exact h.range j hj
  · intro j hj
    by_cases hjk : j = k
    · simp [hjk]
    · rw [update_of_ne hjk] at hj ⊢
      rw [update_of_ne (hfree j)]
      exact h.marked j hj
  · intro j j' heq hj
    by_cases hjk : j = k <;> by_cases hjk' : j' = k
    · rw [hjk, hjk']
    · rw [hjk, update_self, update_of_ne hjk'] at heq
      exact absurd heq.symm (hfree j')
    · rw [hjk', update_self, update_of_ne hjk] at heq
      exact absurd heq (hfree j)
    · rw [update_of_ne hjk] at heq hj
      rw [update_of_ne hjk'] at heq
      exact h.inj j j' heq hj

end Apart

namespace Exact

variable {own : κ → Nat} {lo hi x : Nat} {used : Nat → Bool} {k : κ}

theorem apart (h : Exact own lo hi used) : Apart own lo hi used :=
  ⟨h.pos, h.range, h.marked, h.inj⟩

variable [DecidableEq κ]

theorem take (h : Exact own lo hi used) (hk : own k = 0) (hlo : lo ≤ x) (hhi : x < hi)
    (hx : used x = false) :
    Exact (update own k x) lo hi (update used x true) := by
  obtain ⟨hpos, hrange, hmarked, hinj⟩ := h.apart.take (k := k) hlo hhi hx
  refine ⟨hpos, hrange, hmarked, hinj, ?_⟩
  intro y hy1 hy2 hy
  by_cases hyx : y = x
  · exact ⟨k, by simp [hyx]⟩
  · rw [update_of_ne hyx] at hy
    obtain ⟨j, hj⟩ := h.only y hy1 hy2 hy
    have hjk : j ≠ k := by
      rintro rfl
      omega
    exact ⟨j, by rw [update_of_ne hjk, hj]⟩

end Exact

theorem countP_add_one {l : List κ} {p q : κ → Bool} {x : κ} (hnd : l.Nodup) (hx : x ∈ l)
    (hp : p x = true) (hq : q x = false) (hne : ∀ y, y ≠ x → q y = p y) :
    l.countP q + 1 = l.countP p := by
  induction l with
  | nil => cases hx
  | cons y l ih =>
    obtain ⟨hy, hnd⟩ := List.nodup_cons.mp hnd
    by_cases hyx : y = x
    · subst hyx
      have hrest : l.countP q = l.countP p := by
        apply List.countP_congr
        intro z hz
        rw [hne z]
        rintro rfl
        exact hy hz
      simp [hp, hq, hrest]
    · have hmem : x ∈ l := by simpa [Ne.symm hyx] using hx
      have := ih hnd hmem
      simp only [List.countP_cons, hne y hyx]
      omega

end Xv6.Lib
