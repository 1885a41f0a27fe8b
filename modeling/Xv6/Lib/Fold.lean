/-
Xv6.Lib.Fold — computations that may fail. A loop (`List.foldlM` in
`Except`) keeps every reflexive and transitive relation its body keeps,
has the invariants its rounds keep, and fails only with an error of its
body.
-/
import Mathlib.Order.Defs.Unbundled

namespace Xv6.Lib

variable {S A ε : Type} {a : A}

/-- A computation in sequence succeeds if both parts do. -/
theorem bind_eq_ok {x : Except ε S} {f : S → Except ε A} :
    (x >>= f) = .ok a ↔ ∃ s, x = .ok s ∧ f s = .ok a := by
  cases x with
  | error e => simp [bind, Except.bind]
  | ok s => simp [bind, Except.bind]

theorem map_eq_ok {x : Except ε S} {f : S → A} (h : x.map f = .ok a) :
    ∃ s, x = .ok s ∧ f s = a := by
  cases x with
  | error e => cases h
  | ok s => exact ⟨s, rfl, Except.ok.inj h⟩

theorem eq_ok_of_toOption {x : Except ε A} (h : x.toOption = some a) : x = .ok a := by
  cases x with
  | error e => cases h
  | ok b => rw [Option.some.inj h]

/-- Whether a computation stops with an error, or returns `a`, can be decided
where what else it returns cannot be compared. -/
instance decidableEqError [DecidableEq ε] (x : Except ε A) (e : ε) : Decidable (x = .error e) :=
  match x with
  | .error e' => decidable_of_iff (e' = e) ⟨congrArg _, Except.error.inj⟩
  | .ok _ => .isFalse nofun

theorem exists_ok_iff {x : A × S} {P : S → Prop} :
    (∃ s, (.ok x : Except ε (A × S)) = .ok (a, s) ∧ P s) ↔ x.1 = a ∧ P x.2 := by
  constructor
  · intro ⟨s, h, hs⟩
    cases h
    exact ⟨rfl, hs⟩
  · intro ⟨h, hs⟩
    exact ⟨x.2, by rw [← h], hs⟩

instance decidableExistsOk [DecidableEq A] (x : Except ε (A × S)) (a : A) (P : S → Prop)
    [DecidablePred P] : Decidable (∃ s, x = .ok (a, s) ∧ P s) :=
  match x with
  | .error _ => .isFalse nofun
  | .ok _ => decidable_of_iff _ exists_ok_iff.symm

instance decidableReturns [DecidableEq A] (x : Except ε (A × S)) (a : A) :
    Decidable (∃ s, x = .ok (a, s)) :=
  decidable_of_iff (∃ s, x = .ok (a, s) ∧ True) (by simp)

/-- A computation that returns a value together with a result. -/
theorem eq_ok_of_fst {x : Except ε (A × S)} (h : x.toOption.isSome)
    (ha : (x.toOption.get h).1 = a) : x = .ok (a, (x.toOption.get h).2) := by
  subst ha
  exact eq_ok_of_toOption (Option.some_get h).symm

/-- The loop rule for a body that relates the state before to the state
after. -/
theorem foldlM_rel {R : S → S → Prop} [Std.Refl R] [IsTrans S R] {f : S → A → Except ε S}
    (hf : ∀ s a s', f s a = .ok s' → R s s') :
    ∀ (l : List A) {s s' : S}, l.foldlM f s = .ok s' → R s s'
  | [], s, s', h => by
      simp only [List.foldlM_nil] at h
      cases h
      exact Std.Refl.refl s
  | a :: l, s, s', h => by
      rw [List.foldlM_cons] at h
      cases hfa : f s a with
      | error e =>
        rw [hfa] at h
        cases h
      | ok s1 =>
        rw [hfa] at h
        exact IsTrans.trans _ _ _ (hf s a s1 hfa) (foldlM_rel hf l h)

/-- The rule for a loop over `0, …, n - 1` whose invariant knows the round. -/
theorem foldlM_range {P : Nat → S → Prop} {f : S → Nat → Except ε S} {s s' : S} {n : Nat}
    (h0 : P 0 s) (hs : ∀ i s s', i < n → P i s → f s i = .ok s' → P (i + 1) s')
    (h : (List.range n).foldlM f s = .ok s') : P n s' := by
  induction n generalizing s' with
  | zero =>
    cases h
    exact h0
  | succ n ih =>
    rw [List.range_succ, List.foldlM_append, bind_eq_ok] at h
    obtain ⟨s1, h1, h2⟩ := h
    have hP := ih (fun i s s' hi => hs i s s' (by omega)) h1
    rw [List.foldlM_cons, bind_eq_ok] at h2
    obtain ⟨s2, h2, h3⟩ := h2
    cases h3
    exact hs n s1 s' (by omega) hP h2

theorem foldlM_error {P : ε → Prop} {f : S → A → Except ε S}
    (hf : ∀ s a e, f s a = .error e → P e) (l : List A) {s : S} {e : ε}
    (h : l.foldlM f s = .error e) : P e := by
  induction l generalizing s with
  | nil => cases h
  | cons a l ih =>
    rw [List.foldlM_cons] at h
    cases hfa : f s a with
    | error e' =>
      rw [hfa] at h
      cases h
      exact hf s a _ hfa
    | ok s1 =>
      rw [hfa] at h
      exact ih h

end Xv6.Lib
