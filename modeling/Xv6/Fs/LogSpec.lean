/-
Xv6.Fs.LogSpec — what the log is for: file-system operations take effect
in groups of WHOLE operations, and each group takes effect as one.

A `Group` is a run of operation events in which every operation that
began has ended; that is a field of it, so a group with half an operation
cannot be built. `History` follows the events of a machine and says which
groups have taken effect. Nothing in it mentions a disk, a header or a
cache. Its one choice is at a crash: the group whose commit was under way
is either lost or kept, as a whole.
-/
import Xv6.Fs.Log

namespace Xv6.Fs

open Xv6.Lib

/-- What an operation does. -/
inductive OpAct where
  | begin (op : Op)
  | write (op : Op) (b : Nat) (data : Block)
  | finish (op : Op)

/-- The operations in progress after one event, which must make sense:
only an operation in progress writes or ends. -/
def follow1 (active : List Op) : OpAct → Option (List Op)
  | .begin op => if op ∈ active then none else some (op :: active)
  | .write op _ _ => if op ∈ active then some active else none
  | .finish op => if op ∈ active then some (active.erase op) else none

/-- The operations in progress after a list of events. -/
def inProgress (active : List Op) : List OpAct → Option (List Op)
  | [] => some active
  | a :: acts => (follow1 active a).bind fun active' => inProgress active' acts

theorem inProgress_snoc (active : List Op) (acts : List OpAct) (a : OpAct) :
    inProgress active (acts ++ [a]) = (inProgress active acts).bind fun act => follow1 act a := by
  induction acts generalizing active with
  | nil =>
    simp only [List.nil_append, inProgress, Option.bind_some]
    cases follow1 active a <;> rfl
  | cons x acts ih =>
    simp only [List.cons_append, inProgress]
    cases follow1 active x with
    | none => rfl
    | some active' => exact ih active'

/-- The block writes among some events, in order. -/
def writesOf (acts : List OpAct) : List (Nat × Block) :=
  acts.filterMap fun
    | .write _ b data => some (b, data)
    | _ => none

/-- A commit group: whole operations. -/
structure Group where
  acts : List OpAct
  closed : inProgress [] acts = some []

/-- What can be seen of a machine with a log. -/
inductive Event where
  | op (a : OpAct)
  /-- The commit of the latest group is done. -/
  | committed
  | crash

/-- The groups that took effect, oldest first; the group being committed;
and the events of the group being formed. -/
structure Hist where
  done : List Group
  inflight : Option Group
  cur : List OpAct

/-- How events lead to a history. -/
inductive History : List Event → Hist → Prop
  | nil : History [] ⟨[], none, []⟩
  /-- An event that leaves an operation in progress. -/
  | op {es : List Event} {done : List Group} {cur : List OpAct} {a : OpAct} {active : List Op} :
      History es ⟨done, none, cur⟩ → inProgress [] (cur ++ [a]) = some active → active ≠ [] →
      History (es ++ [.op a]) ⟨done, none, cur ++ [a]⟩
  /-- The last operation ends: the events form a group, and its commit begins. -/
  | close {es : List Event} {done : List Group} {cur : List OpAct} {a : OpAct} (g : Group) :
      History es ⟨done, none, cur⟩ → g.acts = cur ++ [a] →
      History (es ++ [.op a]) ⟨done, some g, []⟩
  | committed {es : List Event} {done : List Group} {g : Group} :
      History es ⟨done, some g, []⟩ →
      History (es ++ [.committed]) ⟨done ++ [g], none, []⟩
  | lose {es : List Event} {h : Hist} :
      History es h → History (es ++ [.crash]) ⟨h.done, none, []⟩
  | keep {es : List Event} {done : List Group} {g : Group} {cur : List OpAct} :
      History es ⟨done, some g, cur⟩ →
      History (es ++ [.crash]) ⟨done ++ [g], none, []⟩

/-- The contents after the writes of some groups. -/
def afterGroups (d : Nat → Block) (gs : List Group) : Nat → Block :=
  writeAll d (gs.flatMap fun g => writesOf g.acts)

@[simp] theorem afterGroups_nil (d : Nat → Block) : afterGroups d [] = d := by
  simp [afterGroups]

theorem afterGroups_snoc (d : Nat → Block) (gs : List Group) (g : Group) :
    afterGroups d (gs ++ [g]) = writeAll (afterGroups d gs) (writesOf g.acts) := by
  simp [afterGroups, writeAll_append]

/-- What an action of the machine shows. -/
def event (s : State) : Act → Option Event
  | .beginOp op => some (.op (.begin op))
  | .append op b data => some (.op (.write op b.toNat data))
  | .endOp op => some (.op (.finish op))
  | .advance => if s.phase = .release ∧ s.committing then some .committed else none
  | .write _ _ | .read _ | .evict _ => none
  | .crash => some .crash

/-- What a run shows. -/
def events (tr : List (State × Act)) : List Event :=
  tr.filterMap fun e => event e.1 e.2

theorem events_cons (s : State) (a : Act) (tr : List (State × Act)) :
    events ((s, a) :: tr) = (event s a).toList ++ events tr := by
  simp only [events, List.filterMap_cons]
  cases event s a <;> rfl

theorem events_snoc (tr : List (State × Act)) (s : State) (a : Act) :
    events (tr ++ [(s, a)]) = events tr ++ (event s a).toList := by
  simp only [events, List.filterMap_append, List.filterMap_cons, List.filterMap_nil]
  cases event s a <;> rfl

end Xv6.Fs
