/-
Xv6.Lib.Writes — a list of writes applied to a store, for any index and
value types.

`writeAll f ws` performs the writes of `ws` in order; later ones win. The
facts a redo log needs are here. What a list of writes leaves at an index
it writes does not depend on what was there before (`writeAll_agree`), so
redoing it after any part of it was done changes nothing
(`writeAll_redo`), and writing each index's final value once is the same
as all the writes that led to it (`writeAll_map`).
-/
import Mathlib.Data.List.Basic

namespace Xv6.Lib

open Function

variable {ι β : Type} [DecidableEq ι] {ws : List (ι × β)} {f : ι → β}

/-- The store after the writes of `ws`, in order. -/
def writeAll (f : ι → β) (ws : List (ι × β)) : ι → β :=
  ws.foldl (fun f w => update f w.1 w.2) f

@[simp] theorem writeAll_nil (f : ι → β) : writeAll f [] = f := rfl

@[simp] theorem writeAll_cons (f : ι → β) (w : ι × β) (ws : List (ι × β)) :
    writeAll f (w :: ws) = writeAll (update f w.1 w.2) ws := rfl

theorem writeAll_append (f : ι → β) (ws ws' : List (ι × β)) :
    writeAll f (ws ++ ws') = writeAll (writeAll f ws) ws' := by
  simp [writeAll]

theorem writeAll_of_ne {i : ι} (h : ∀ w ∈ ws, w.1 ≠ i) : writeAll f ws i = f i := by
  induction ws generalizing f with
  | nil => rfl
  | cons w ws ih =>
    rw [writeAll_cons, ih (fun w' hw' => h w' (List.mem_cons_of_mem _ hw'))]
    exact update_of_ne (Ne.symm (h w List.mem_cons_self)) _ _

/-- Two stores that agree at `i`, or a list that writes `i`: the results
agree at `i`. -/
theorem writeAll_agree {g : ι → β} {i : ι} (h : (∃ w ∈ ws, w.1 = i) ∨ f i = g i) :
    writeAll f ws i = writeAll g ws i := by
  induction ws generalizing f g with
  | nil =>
    rcases h with ⟨w, hw, -⟩ | h
    · cases hw
    · exact h
  | cons w ws ih =>
    rw [writeAll_cons, writeAll_cons]
    apply ih
    by_cases hi : w.1 = i
    · right
      subst hi
      simp
    · rcases h with ⟨w', hw', hi'⟩ | h
      · rcases List.mem_cons.mp hw' with rfl | hw'
        · exact absurd hi' hi
        · exact .inl ⟨w', hw', hi'⟩
      · right
        rw [update_of_ne (Ne.symm hi), update_of_ne (Ne.symm hi), h]

theorem writeAll_redo {j : ι} (hj : ∃ w ∈ ws, w.1 = j) (v : β) (i : ι) :
    writeAll (update f j v) ws i = writeAll f ws i := by
  apply writeAll_agree
  by_cases hij : i = j
  · subst hij
    exact .inl hj
  · exact .inr (update_of_ne hij _ _)

theorem writeAll_map (f v : ι → β) (is : List ι) (i : ι) :
    writeAll f (is.map fun j => (j, v j)) i = if i ∈ is then v i else f i := by
  induction is generalizing f with
  | nil => simp
  | cons j is ih =>
    rw [List.map_cons, writeAll_cons, ih]
    by_cases hi : i ∈ is
    · simp [hi]
    · by_cases hij : i = j
      · subst hij
        simp [hi]
      · simp [hi, hij]

end Xv6.Lib
