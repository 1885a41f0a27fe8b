/-
Xv6.Lib.WriteBack — a write-back cache over a backing store, for any
lines, addresses and values.

A line stands for at most one address, its tag, and has a copy of the
value there once it is filled. A PINNED line may be the only place that
has the current value. `Coherent mem w` says that the cache and its
backing store together show the memory `mem`: no two lines stand for one
address, copies are current, and where no line is pinned the backing
store is current too. The four things a cache does keep it: a line that
is not pinned is given to another address (`retag`), filled (`fill`),
written (`write`, the only one that changes the memory) and flushed
(`flush`).
-/
import Mathlib.Logic.Function.Basic

namespace Xv6.Lib

open Function

/-- One line of a cache. -/
structure Line (A V : Type) where
  tag : Option A
  copy : Option V
  pinned : Bool

/-- Lines `L` over a backing store. -/
structure WriteBack (L A V : Type) where
  back : A → V
  line : L → Line A V

namespace WriteBack

variable {L A V : Type}

/-- The cache shows the memory `mem`. -/
structure Coherent (mem : A → V) (w : WriteBack L A V) : Prop where
  one : ∀ {i j a}, (w.line i).tag = some a → (w.line j).tag = some a → i = j
  copy : ∀ {i a v}, (w.line i).tag = some a → (w.line i).copy = some v → v = mem a
  back : ∀ a, (∀ i, (w.line i).tag = some a → (w.line i).pinned = false) → w.back a = mem a

theorem Coherent.back_of_tag {mem : A → V} {w : WriteBack L A V} (h : Coherent mem w) {i : L}
    {a : A} (ht : (w.line i).tag = some a) (hp : (w.line i).pinned = false) :
    w.back a = mem a := by
  apply h.back
  intro j hj
  rw [h.one hj ht]
  exact hp

variable [DecidableEq L]

/-- Replace a line. -/
def set (w : WriteBack L A V) (i : L) (l : Line A V) : WriteBack L A V :=
  { w with line := update w.line i l }

@[simp] theorem set_back (w : WriteBack L A V) (i : L) (l : Line A V) :
    (w.set i l).back = w.back := rfl

@[simp] theorem set_line_self (w : WriteBack L A V) (i : L) (l : Line A V) :
    (w.set i l).line i = l := by
  simp [set]

@[simp] theorem set_line_of_ne (w : WriteBack L A V) {i j : L} (l : Line A V) (h : j ≠ i) :
    (w.set i l).line j = w.line j := by
  simp [set, h]

namespace Coherent

variable {mem : A → V} {w : WriteBack L A V} {i : L} {a : A} {v : V}

theorem set {l : Line A V} (h : Coherent mem w) (ht : l.tag = (w.line i).tag)
    (hcopy : ∀ {a v}, l.tag = some a → l.copy = some v → v = mem a)
    (hback : ∀ {a}, l.tag = some a → l.pinned = false → w.back a = mem a) :
    Coherent mem (w.set i l) := by
  have htag : ∀ j, ((w.set i l).line j).tag = (w.line j).tag := by
    intro j
    by_cases hj : j = i
    · rw [hj, set_line_self, ht]
    · rw [set_line_of_ne _ _ hj]
  refine ⟨fun hj hk => ?_, fun {j a v} hj hv => ?_, fun a ha => ?_⟩
  · rw [htag] at hj hk
    exact h.one hj hk
  · by_cases hji : j = i
    · subst hji
      rw [set_line_self] at hj hv
      exact hcopy hj hv
    · rw [set_line_of_ne _ _ hji] at hj hv
      exact h.copy hj hv
  · by_cases hi : l.tag = some a
    · have hp := ha i (by rw [set_line_self]; exact hi)
      rw [set_line_self] at hp
      exact hback hi hp
    · apply h.back
      intro j hj
      have hji : j ≠ i := by
        rintro rfl
        exact hi (ht.trans hj)
      have hp := ha j (by rw [set_line_of_ne _ _ hji]; exact hj)
      rwa [set_line_of_ne _ _ hji] at hp

theorem retag (h : Coherent mem w) (hp : (w.line i).pinned = false)
    (hno : ∀ j, (w.line j).tag ≠ some a) : Coherent mem (w.set i ⟨some a, none, false⟩) := by
  refine ⟨fun {j k b} hj hk => ?_, fun {j b v} hj hv => ?_, fun b hb => ?_⟩
  · by_cases hji : j = i <;> by_cases hki : k = i
    · rw [hji, hki]
    · subst hji
      rw [set_line_self] at hj
      rw [set_line_of_ne _ _ hki, ← hj] at hk
      exact absurd hk (hno k)
    · subst hki
      rw [set_line_self] at hk
      rw [set_line_of_ne _ _ hji, ← hk] at hj
      exact absurd hj (hno j)
    · rw [set_line_of_ne _ _ hji] at hj
      rw [set_line_of_ne _ _ hki] at hk
      exact h.one hj hk
  · by_cases hji : j = i
    · subst hji
      simp at hv
    · rw [set_line_of_ne _ _ hji] at hj hv
      exact h.copy hj hv
  · apply h.back
    intro j hj
    by_cases hji : j = i
    · rw [hji]
      exact hp
    · have := hb j (by rw [set_line_of_ne _ _ hji]; exact hj)
      rwa [set_line_of_ne _ _ hji] at this

theorem fill (h : Coherent mem w) (ht : (w.line i).tag = some a)
    (hp : (w.line i).pinned = false) : Coherent mem (w.set i ⟨some a, some (w.back a), false⟩) := by
  have hback := h.back_of_tag ht hp
  refine h.set ht.symm (fun {b v} hb hv => ?_) (fun {b} hb _ => ?_)
  · cases hb
    cases hv
    exact hback
  · cases hb
    exact hback

theorem pin (h : Coherent mem w) (ht : (w.line i).tag = some a)
    (hc : (w.line i).copy = some v) : Coherent mem (w.set i ⟨some a, some v, true⟩) := by
  refine h.set ht.symm (fun {b v'} hb hv => ?_) (fun {b} _ hf => ?_)
  · cases hb
    cases hv
    exact h.copy ht hc
  · cases hf

variable [DecidableEq A]

theorem write (h : Coherent mem w) (ht : (w.line i).tag = some a) (v : V) :
    Coherent (update mem a v) (w.set i ⟨some a, some v, true⟩) := by
  have hne : ∀ {j b}, j ≠ i → (w.line j).tag = some b → b ≠ a := by
    rintro j b hji hj rfl
    exact hji (h.one hj ht)
  refine ⟨fun {j k b} hj hk => ?_, fun {j b v'} hj hv => ?_, fun b hb => ?_⟩
  · have htag : ∀ j, ((w.set i ⟨some a, some v, true⟩).line j).tag = (w.line j).tag := by
      intro j
      by_cases hji : j = i
      · rw [hji, set_line_self, ht]
      · rw [set_line_of_ne _ _ hji]
    rw [htag] at hj hk
    exact h.one hj hk
  · by_cases hji : j = i
    · subst hji
      rw [set_line_self] at hj hv
      cases hj
      cases hv
      rw [update_self]
    · rw [set_line_of_ne _ _ hji] at hj hv
      rw [update_of_ne (hne hji hj)]
      exact h.copy hj hv
  · have hba : b ≠ a := by
      rintro rfl
      have := hb i (by rw [set_line_self])
      rw [set_line_self] at this
      cases this
    rw [update_of_ne hba, set_back]
    apply h.back
    intro j hj
    have hji : j ≠ i := by
      rintro rfl
      rw [ht] at hj
      exact hba (Option.some.inj hj).symm
    have := hb j (by rw [set_line_of_ne _ _ hji]; exact hj)
    rwa [set_line_of_ne _ _ hji] at this

theorem flush (h : Coherent mem w) (ht : (w.line i).tag = some a)
    (hc : (w.line i).copy = some v) :
    Coherent mem { w.set i ⟨some a, some v, false⟩ with back := update w.back a v } := by
  have hv := h.copy ht hc
  have hback : Coherent mem { w with back := update w.back a v } := by
    refine ⟨h.one, h.copy, fun b hb => ?_⟩
    by_cases hba : b = a
    · rw [hba]
      exact (update_self a v w.back).trans hv
    · exact (update_of_ne hba v w.back).trans (h.back b hb)
  refine hback.set ht.symm (fun {b v'} hb hv' => ?_) (fun {b} hb _ => ?_)
  · cases hb
    cases hv'
    exact hv
  · cases hb
    exact (update_self a v w.back).trans hv

end Coherent

end WriteBack

end Xv6.Lib
