/-
Xv6.Lib.Hoare — commands that change a state or stop with an error, over
arbitrary state, error and result types. The `…_run` lemmas say when a
command returns and with what; they take a run of a longer command apart.
-/
import Mathlib.Tactic.Common

namespace Xv6.Lib

variable {σ ε α β : Type} {c : StateT σ (Except ε) α}

section
variable {s : σ} {r : α × σ} {e : ε}

theorem bind_run {f : α → StateT σ (Except ε) β} {r : β × σ} :
    (c >>= f) s = .ok r ↔ ∃ a s', c s = .ok (a, s') ∧ f a s' = .ok r := by
  cases hc : c s with
  | error e => simp [Bind.bind, StateT.bind, hc, Except.bind]
  | ok r' =>
    obtain ⟨a, s'⟩ := r'
    simp [Bind.bind, StateT.bind, hc, Except.bind]

theorem bind_of_ok {a : α} {s' : σ} (h : c s = .ok (a, s')) (f : α → StateT σ (Except ε) β) :
    (c >>= f) s = f a s' := by
  simp [Bind.bind, StateT.bind, h, Except.bind]

theorem bind_of_error (h : c s = .error e) (f : α → StateT σ (Except ε) β) :
    (c >>= f) s = .error e := by
  simp [Bind.bind, StateT.bind, h, Except.bind]

theorem stateT_pure (a : α) (s : σ) : (StateT.pure a : StateT σ (Except ε) α) s = .ok (a, s) :=
  rfl

theorem stateT_set (t s : σ) : (StateT.set t : StateT σ (Except ε) PUnit) s = .ok (⟨⟩, t) :=
  rfl

theorem pure_run {a : α} : (pure a : StateT σ (Except ε) α) s = .ok r ↔ (a, s) = r := by
  simp [pure, stateT_pure]

theorem throw_run : (throw e : StateT σ (Except ε) α) s = .ok r ↔ False := by
  simp [throw, throwThe, MonadExceptOf.throw, StateT.lift, Bind.bind, Except.bind]

theorem get_run {r : σ × σ} : (get : StateT σ (Except ε) σ) s = .ok r ↔ (s, s) = r := by
  simp [get, getThe, MonadStateOf.get, StateT.get, pure, Except.pure]

theorem set_run {t : σ} {r : PUnit × σ} :
    (set t : StateT σ (Except ε) PUnit) s = .ok r ↔ (⟨⟩, t) = r := by
  simp [set, stateT_set]

theorem modify_run {g : σ → σ} {r : PUnit × σ} :
    (modify g : StateT σ (Except ε) PUnit) s = .ok r ↔ (⟨⟩, g s) = r := by
  simp [modify, modifyGet, MonadStateOf.modifyGet, StateT.modifyGet, pure, Except.pure]

theorem ite_run {p : Prop} [Decidable p] {c' : StateT σ (Except ε) α} :
    (if p then c else c') s = .ok r ↔ (p ∧ c s = .ok r) ∨ (¬ p ∧ c' s = .ok r) := by
  by_cases hp : p <;> simp [hp]

end

end Xv6.Lib
