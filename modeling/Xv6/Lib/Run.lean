/-
Xv6.Lib.Run — runs of a partial step function, over arbitrary state and
action types.

`Run step s₀ tr s` says that the actions of `tr`, taken in order from
`s₀`, lead to `s`. The trace keeps each action TOGETHER with the state it
was taken in, so that what a run did (how often something happened, in
which order) is a plain fold over the trace, and a restriction on a run
(`∀ e ∈ tr, ok e.1 e.2`) may look at the state before the step.

`Run.history` is the one induction: a predicate on trace and state that
holds at the start and is kept by every permitted step holds at the end.
`Run.invariant` is its state-only form.
-/
import Mathlib.Algebra.GroupWithZero.Nat
import Mathlib.Data.List.Basic

namespace Xv6.Lib

-- The literals of the smallest machines, `0 : Fin 1` and `0 : Fin 2`.
instance neZero_one : NeZero 1 := ⟨by decide⟩

instance neZero_two : NeZero 2 := ⟨by decide⟩

variable {S A : Type} {tr : List (S × A)} {s : S}

/-- Runs from `s₀`, with the trace of states and actions. -/
inductive Run (step : S → A → Option S) (s₀ : S) : List (S × A) → S → Prop
  | nil : Run step s₀ [] s₀
  | snoc {tr : List (S × A)} {s s' : S} {a : A} :
      Run step s₀ tr s → step s a = some s' → Run step s₀ (tr ++ [(s, a)]) s'

/-- Every step of the trace is permitted by `ok`. -/
def Meets (ok : S → A → Prop) (tr : List (S × A)) : Prop :=
  ∀ e ∈ tr, ok e.1 e.2

instance (ok : S → A → Prop) [∀ s a, Decidable (ok s a)] (tr : List (S × A)) :
    Decidable (Meets ok tr) :=
  inferInstanceAs (Decidable (∀ e ∈ tr, ok e.1 e.2))

@[simp] theorem meets_nil (ok : S → A → Prop) : Meets ok [] := by
  simp [Meets]

@[simp] theorem meets_snoc (ok : S → A → Prop) (tr : List (S × A)) (s : S) (a : A) :
    Meets ok (tr ++ [(s, a)]) ↔ Meets ok tr ∧ ok s a := by
  constructor
  · intro h
    exact ⟨fun e he => h e (List.mem_append_left _ he), h (s, a) (by simp)⟩
  · rintro ⟨h1, h2⟩ e he
    rcases List.mem_append.mp he with he | he
    · exact h1 e he
    · rw [List.mem_singleton] at he
      subst he
      exact h2

theorem Meets.and {P Q : S → A → Prop} (h : Meets P tr) (h' : Meets Q tr) :
    Meets (fun s a => P s a ∧ Q s a) tr :=
  fun e he => ⟨h e he, h' e he⟩

variable {step : S → A → Option S} {s₀ : S}

/-- **The run induction**: what holds at the start and is kept by every
permitted step holds along every permitted run. -/
theorem Run.history {ok : S → A → Prop} {I : List (S × A) → S → Prop} (h0 : I [] s₀)
    (hs : ∀ tr s a s', Run step s₀ tr s → I tr s → ok s a → step s a = some s' →
      I (tr ++ [(s, a)]) s') (h : Run step s₀ tr s) (hok : Meets ok tr) : I tr s := by
  induction h with
  | nil => exact h0
  | snoc hr hstep ih =>
    obtain ⟨h1, h2⟩ := (meets_snoc _ _ _ _).mp hok
    exact hs _ _ _ _ hr (ih h1) h2 hstep

/-- An invariant of the permitted steps holds in every state a permitted
run reaches. -/
theorem Run.invariant {ok : S → A → Prop} {I : S → Prop} (h0 : I s₀)
    (hs : ∀ s a s', I s → ok s a → step s a = some s' → I s') (h : Run step s₀ tr s)
    (hok : Meets ok tr) : I s :=
  Run.history (I := fun _ s => I s) h0 (fun _ s a s' _ hi ha hst => hs s a s' hi ha hst) h hok

/-- An invariant of all steps holds in every state a run reaches. -/
theorem Run.always {I : S → Prop} (h0 : I s₀) (hs : ∀ s a s', I s → step s a = some s' → I s')
    (h : Run step s₀ tr s) : I s := by
  induction h with
  | nil => exact h0
  | snoc _ hstep ih => exact hs _ _ _ ih hstep

section
variable (h : Run step s₀ tr s)
include h

/-- Runs compose. -/
theorem Run.append {tr' : List (S × A)} {s' : S} (h' : Run step s tr' s') :
    Run step s₀ (tr ++ tr') s' := by
  induction h' with
  | nil => simpa using h
  | snoc _ hst ih =>
    rw [← List.append_assoc]
    exact ih.snoc hst

/-- The steps before a step of a run are a run. -/
theorem Run.before :
    ∀ {tr₁ : List (S × A)} {e : S × A} {tr₂ : List (S × A)}, tr = tr₁ ++ e :: tr₂ →
      Run step s₀ tr₁ e.1 ∧ ∃ s', step e.1 e.2 = some s' := by
  induction h with
  | nil =>
    intro tr₁ e tr₂ heq
    simp at heq
  | @snoc tr s s' a hr hs ih =>
    intro tr₁ e tr₂ heq
    rcases List.eq_nil_or_concat tr₂ with rfl | ⟨tr₂, e', rfl⟩
    · obtain ⟨rfl, h2⟩ := List.append_inj' heq rfl
      cases h2
      exact ⟨hr, s', hs⟩
    · have hcut : tr ++ [(s, a)] = (tr₁ ++ e :: tr₂) ++ [e'] := by simpa using heq
      exact ih (List.append_inj' hcut rfl).1

/-- A run starts in its first state. -/
theorem Run.first : ∀ a, ∃ b, (s₀, b) ∈ tr ++ [(s, a)] := by
  induction h with
  | nil => exact fun a => ⟨a, by simp⟩
  | @snoc tr s s' b hr hs ih =>
    intro a
    obtain ⟨c, hc⟩ := ih b
    exact ⟨c, List.mem_append_left _ hc⟩

/-- The steps after a step of a run are a run. -/
theorem Run.after :
    ∀ {tr₁ : List (S × A)} {e : S × A} {tr₂ : List (S × A)}, tr = tr₁ ++ e :: tr₂ →
      ∃ s', step e.1 e.2 = some s' ∧ Run step s' tr₂ s := by
  induction h with
  | nil =>
    intro tr₁ e tr₂ heq
    simp at heq
  | @snoc tr s s' a hr hs ih =>
    intro tr₁ e tr₂ heq
    rcases List.eq_nil_or_concat tr₂ with rfl | ⟨tr₂, e', rfl⟩
    · obtain ⟨-, h2⟩ := List.append_inj' heq rfl
      cases h2
      exact ⟨s', hs, .nil⟩
    · have hcut : tr ++ [(s, a)] = (tr₁ ++ e :: tr₂) ++ [e'] := by simpa using heq
      obtain ⟨h1, h2⟩ := List.append_inj' hcut rfl
      cases h2
      obtain ⟨s₁, hs₁, hr₁⟩ := ih h1
      refine ⟨s₁, hs₁, ?_⟩
      rw [List.concat_eq_append]
      exact hr₁.snoc hs

end

/-- The state a list of actions leads to, and the trace on the way. -/
def follow (step : S → A → Option S) (s : S) : List A → Option (List (S × A) × S)
  | [] => some ([], s)
  | a :: as =>
    match step s a with
    | none => none
    | some s' => (follow step s' as).map fun r => ((s, a) :: r.1, r.2)

/-- A step in front of a run. -/
theorem Run.cons {a : A} {s₁ : S} (h : step s₀ a = some s₁) (hr : Run step s₁ tr s) :
    Run step s₀ ((s₀, a) :: tr) s := by
  have h1 : Run step s₀ [(s₀, a)] s₁ := .snoc .nil h
  exact h1.append hr

/-- Following a list of actions is a run. -/
theorem run_follow {as : List A} {r : List (S × A) × S} (h : follow step s₀ as = some r) :
    Run step s₀ r.1 r.2 := by
  induction as generalizing s₀ r with
  | nil =>
    cases h
    exact .nil
  | cons a as ih =>
    unfold follow at h
    split at h
    · cases h
    rename_i s' hs
    obtain ⟨r', hr', rfl⟩ := Option.map_eq_some_iff.mp h
    exact .cons hs (ih hr')

theorem run_get {as : List A} (h : (follow step s₀ as).isSome) :
    Run step s₀ ((follow step s₀ as).get h).1 ((follow step s₀ as).get h).2 :=
  run_follow (Option.some_get h).symm

end Xv6.Lib
