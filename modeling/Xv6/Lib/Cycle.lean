/-
Xv6.Lib.Cycle — going round a table of `n` entries.

A search that starts behind entry `c` passes `ahead c t` entries before it
reaches `t`, and comes to `c` itself last. `First used c t` says that `t` is
the first entry in use such a search meets; the set of entries in use may
be another one at every search.

`offset a k` measures from a fixed entry `a`. While `a` stays in use and is
not met, every search moves further away from it (`First.advance`) without
jumping over an entry in use (`First.no_skip`), and it can only meet `a`
again when every entry in use is behind (`First.closes`). So between two
meetings of `a` an entry `b` that stays in use is met exactly once:
`Round.start`, `Round.step` and `Round.close` are the induction.
-/
import Mathlib.Data.Fin.Basic

namespace Xv6.Lib

variable {n : Nat}

/-- The entries passed on the way from behind `c` to `t`. -/
def ahead (c t : Fin n) : Nat := if c < t then t - c - 1 else t + n - c - 1

/-- The way from `a` up to `k`. -/
def offset (a k : Fin n) : Nat := if a ≤ k then k - a else k + n - a

/-- `t` is the first entry in use behind `c`. -/
structure First (used : Fin n → Prop) (c t : Fin n) : Prop where
  mem : used t
  least : ∀ k, used k → ahead c t ≤ ahead c k

theorem ahead_cases (c t : Fin n) :
    c.val < t ∧ ahead c t + c + 1 = t ∨ t.val ≤ c ∧ ahead c t + c + 1 = t + n := by
  unfold ahead
  split <;> omega

theorem offset_cases (a k : Fin n) :
    a.val ≤ k ∧ offset a k + a = k ∨ k.val < a ∧ offset a k + a = k + n := by
  unfold offset
  split <;> omega

@[simp] theorem offset_self (a : Fin n) : offset a a = 0 := by
  simp [offset]

theorem offset_pos {a k : Fin n} (h : k ≠ a) : 0 < offset a k := by
  have := Fin.val_ne_of_ne h
  have := offset_cases a k
  omega

theorem offset_inj {a b c : Fin n} (h : offset a b = offset a c) : b = c := by
  have := offset_cases a b
  have := offset_cases a c
  ext
  omega

variable {used : Fin n → Prop} {a b c t : Fin n}

theorem First.ne_self (h : First used c t) {k : Fin n} (hk : used k) (hne : k ≠ c) : t ≠ c := by
  rintro rfl
  have := h.least k hk
  have := Fin.val_ne_of_ne hne
  have := ahead_cases t t
  have := ahead_cases t k
  omega

theorem First.unique {t' : Fin n} (h : First used c t) (h' : First used c t') : t = t' := by
  have := h.least t' h'.mem
  have := h'.least t h.mem
  have := ahead_cases c t
  have := ahead_cases c t'
  ext
  omega

theorem First.advance (h : First used c t) (ha : used a) (hne : t ≠ a) :
    offset a c < offset a t := by
  have := h.least a ha
  have := Fin.val_ne_of_ne hne
  have := ahead_cases c t
  have := ahead_cases c a
  have := offset_cases a c
  have := offset_cases a t
  omega

theorem First.no_skip (h : First used c t) (ha : used a) (hb : used b)
    (hc : offset a c < offset a b) : offset a t ≤ offset a b := by
  have := h.least a ha
  have := h.least b hb
  have := ahead_cases c t
  have := ahead_cases c a
  have := ahead_cases c b
  have := offset_cases a c
  have := offset_cases a t
  have := offset_cases a b
  omega

theorem First.closes (h : First used c a) (hb : used b) : offset a b ≤ offset a c := by
  have := h.least b hb
  have := ahead_cases c a
  have := ahead_cases c b
  have := offset_cases a b
  have := offset_cases a c
  omega

/-- After `m` meetings of `b` since `a` was met, at entry `c`. -/
def Round (a b c : Fin n) (m : Nat) : Prop :=
  m = 0 ∧ offset a c < offset a b ∨ m = 1 ∧ offset a b ≤ offset a c

theorem Round.start (h : b ≠ a) : Round a b a 0 :=
  .inl ⟨rfl, by simpa using offset_pos h⟩

theorem Round.step {m : Nat} (h : Round a b c m) (hf : First used c t) (ha : used a) (hb : used b)
    (hne : t ≠ a) : Round a b t (if t = b then m + 1 else m) := by
  have hadv := hf.advance ha hne
  rcases h with ⟨rfl, hc⟩ | ⟨rfl, hc⟩
  · have hle := hf.no_skip ha hb hc
    by_cases htb : t = b
    · rw [if_pos htb, htb]
      exact .inr ⟨rfl, Nat.le_refl _⟩
    · have hlt : offset a t ≠ offset a b := fun h => htb (offset_inj h)
      rw [if_neg htb]
      exact .inl ⟨rfl, by omega⟩
  · have htb : t ≠ b := by
      rintro rfl
      omega
    rw [if_neg htb]
    exact .inr ⟨rfl, by omega⟩

theorem Round.close {m : Nat} (h : Round a b c m) (hf : First used c a) (hb : used b) :
    m = 1 := by
  have := hf.closes hb
  rcases h with ⟨-, hc⟩ | ⟨hm, -⟩
  · omega
  · exact hm

end Xv6.Lib
