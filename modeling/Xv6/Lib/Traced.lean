/-
Xv6.Lib.Traced — commands that leave a trace and may stop with an error.

A `Traced ω ε α` has the events it left and its result; the events before
an error stay. Dropping the trace is a homomorphism to `Except`
(`res_bind`), so a function that records events can be compared with the
same function without them.
-/
import Mathlib.Tactic.Common

namespace Xv6.Lib

/-- Events of type `ω`, and a result or an error. -/
structure Traced (ω ε α : Type) where
  log : List ω
  res : Except ε α

namespace Traced

variable {ω ε α β : Type}

def emit (w : ω) : Traced ω ε Unit := ⟨[w], .ok ()⟩

def lift (x : Except ε α) : Traced ω ε α := ⟨[], x⟩

instance : Monad (Traced ω ε) where
  pure a := ⟨[], .ok a⟩
  bind x f :=
    match x.res with
    | .error e => ⟨x.log, .error e⟩
    | .ok a => ⟨x.log ++ (f a).log, (f a).res⟩

section
variable (x : Traced ω ε α) (f : α → Traced ω ε β)

@[simp] theorem res_pure (a : α) : (pure a : Traced ω ε α).res = .ok a := rfl

@[simp] theorem log_pure (a : α) : (pure a : Traced ω ε α).log = [] := rfl

@[simp] theorem res_emit (w : ω) : (emit w : Traced ω ε Unit).res = .ok () := rfl

@[simp] theorem log_emit (w : ω) : (emit w : Traced ω ε Unit).log = [w] := rfl

@[simp] theorem res_lift (x : Except ε α) : (lift x : Traced ω ε α).res = x := rfl

@[simp] theorem log_lift (x : Except ε α) : (lift x : Traced ω ε α).log = [] := rfl

theorem res_bind : (x >>= f).res = x.res >>= fun a => (f a).res := by
  cases hx : x.res with
  | error e => simp [bind, hx, Except.bind]
  | ok a => simp [bind, hx, Except.bind]

theorem res_bind_ok {a : α} (h : x.res = .ok a) : (x >>= f).res = (f a).res := by
  simp [bind, h]

theorem res_bind_error {e : ε} (h : x.res = .error e) : (x >>= f).res = .error e := by
  simp [bind, h]

theorem log_bind_ok {a : α} (h : x.res = .ok a) : (x >>= f).log = x.log ++ (f a).log := by
  simp [bind, h]

theorem log_bind_error {e : ε} (h : x.res = .error e) : (x >>= f).log = x.log := by
  simp [bind, h]

end

end Traced

end Xv6.Lib
