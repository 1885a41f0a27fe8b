/-
Xv6.Lib.Descent — rules for parsers that take tokens off the front of
their input, over arbitrary states, tokens and errors.

A state is seen as the tokens still to come (`view`). Two properties go
along the sequence of a parser's calls:

* `Parses view bad c s R`: started at `s`, `c` does not end with the error
  `bad`, and if it returns `a`, the tokens it took stand in `R` to `a`;
* `Takes view c s a us`: started at `s`, `c` returns `a` and leaves `us`.

The first is what soundness and termination of a bounded parser need, the
second is completeness. Each has its rule of sequence.
-/
import Xv6.Lib.Hoare

namespace Xv6.Lib

variable {σ τ ε α β : Type} {view : σ → List τ} {bad : ε}
  {c : StateT σ (Except ε) α} {f : α → StateT σ (Except ε) β} {s : σ}

/-- `c` does not end with `bad`, and what it takes is related to what it
returns. -/
def Parses (view : σ → List τ) (bad : ε) (c : StateT σ (Except ε) α) (s : σ)
    (R : List τ → α → Prop) : Prop :=
  c s ≠ .error bad ∧ ∀ a s', c s = .ok (a, s') → ∃ ps, view s = ps ++ view s' ∧ R ps a

namespace Parses

variable {R R' : List τ → α → Prop} {T : List τ → β → Prop}

theorem of_ok {a : α} {s' : σ} {ps : List τ} (hc : c s = .ok (a, s')) (hps : view s = ps ++ view s')
    (hf : Parses view bad (f a) s' fun qs b => T (ps ++ qs) b) :
    Parses view bad (c >>= f) s T := by
  rw [Parses, bind_of_ok hc]
  refine ⟨hf.1, ?_⟩
  intro b s'' h
  obtain ⟨qs, hqs, ht⟩ := hf.2 b s'' h
  exact ⟨ps ++ qs, by rw [hps, hqs, List.append_assoc], ht⟩

theorem bind (hc : Parses view bad c s R)
    (hf : ∀ a s' ps, view s = ps ++ view s' → R ps a →
      Parses view bad (f a) s' fun qs b => T (ps ++ qs) b) :
    Parses view bad (c >>= f) s T := by
  cases hcs : c s with
  | error e =>
    have hne := hc.1
    rw [hcs] at hne
    rw [Parses, bind_of_error hcs]
    exact ⟨fun heq => hne (congrArg _ (Except.error.inj heq)), fun b s'' h => by cases h⟩
  | ok r =>
    obtain ⟨ps, hps, hr⟩ := hc.2 r.1 r.2 hcs
    exact of_ok hcs hps (hf r.1 r.2 ps hps hr)

theorem pure {a : α} (h : R [] a) : Parses view bad (Pure.pure a) s R := by
  refine ⟨nofun, ?_⟩
  intro b s' hb
  cases hb
  exact ⟨[], rfl, h⟩

theorem throw {e : ε} (h : e ≠ bad) :
    Parses view bad (MonadExcept.throw e : StateT σ (Except ε) α) s R := by
  refine ⟨?_, ?_⟩
  · intro heq
    exact h (Except.error.inj heq)
  · intro a s' ha
    cases ha

theorem imp (h : Parses view bad c s R) (himp : ∀ ps a, R ps a → R' ps a) :
    Parses view bad c s R' := by
  refine ⟨h.1, ?_⟩
  intro a s' ha
  obtain ⟨ps, hps, hr⟩ := h.2 a s' ha
  exact ⟨ps, hps, himp ps a hr⟩

end Parses

/-- `c` returns `a` and leaves the tokens `us`. -/
def Takes (view : σ → List τ) (c : StateT σ (Except ε) α) (s : σ) (a : α) (us : List τ) : Prop :=
  ∃ s', c s = .ok (a, s') ∧ view s' = us

namespace Takes

variable {a : α} {b : β} {us vs : List τ}

theorem bind (hc : Takes view c s a us) (hf : ∀ s', view s' = us → Takes view (f a) s' b vs) :
    Takes view (c >>= f) s b vs := by
  obtain ⟨s', hcs, hus⟩ := hc
  obtain ⟨s'', hfs, hvs⟩ := hf s' hus
  exact ⟨s'', (bind_of_ok hcs f).trans hfs, hvs⟩

theorem pure (h : view s = us) :
    Takes view (Pure.pure a : StateT σ (Except ε) α) s a us :=
  ⟨s, rfl, h⟩

end Takes

end Xv6.Lib
