/-
Xv6.Lib.Ring — a window of a circular array read as a list.

`ringList q n front count` lists the `count` cells of the circular array
`q` of capacity `n` that start at `front`. The facts a ring buffer needs
are here, for any capacity: writing the first free cell appends
(`ringList_push`), moving the front drops the head (`ringList_pop`), a
write past the window leaves it alone (`ringList_update_past`), and two
windows that meet are one (`ringList_append`).
-/
import Mathlib.Data.List.Range
import Mathlib.Data.Nat.ModEq

namespace Xv6.Lib

variable {α : Type} {front n : Nat}

/-- The cells `front, front + 1, …` of a circular array, `count` of them. -/
def ringList (q : Nat → α) (n front count : Nat) : List α :=
  (List.range count).map (fun i => q ((front + i) % n))

@[simp] theorem ringList_zero (q : Nat → α) (n front : Nat) :
    ringList q n front 0 = [] := rfl

@[simp] theorem length_ringList (q : Nat → α) (n front count : Nat) :
    (ringList q n front count).length = count := by
  simp [ringList]

theorem ring_index_ne {i j : Nat} (hij : i < j) (hj : j < n) :
    (front + i) % n ≠ (front + j) % n := by
  intro h
  have hmod : i ≡ j [MOD n] := Nat.ModEq.add_left_cancel' front h
  have : i = j := Nat.ModEq.eq_of_lt_of_lt hmod (by omega) hj
  omega

theorem ringList_update_past (q : Nat → α) {count k : Nat} (x : α) (hk : count ≤ k) (hn : k < n) :
    ringList (Function.update q ((front + k) % n) x) n front count = ringList q n front count := by
  apply List.map_congr_left
  intro i hi
  have hik : i < k := lt_of_lt_of_le (List.mem_range.mp hi) hk
  exact Function.update_of_ne (ring_index_ne hik hn) _ _

theorem ringList_succ (q : Nat → α) (n front count : Nat) :
    ringList q n front (count + 1) = ringList q n front count ++ [q ((front + count) % n)] := by
  simp [ringList, List.range_succ]

theorem ringList_push (q : Nat → α) {count : Nat} (x : α) (hc : count < n) :
    ringList (Function.update q ((front + count) % n) x) n front (count + 1)
      = ringList q n front count ++ [x] := by
  rw [ringList_succ, ringList_update_past q x le_rfl hc, Function.update_self]

theorem ringList_append (q : Nat → α) (n front count more : Nat) :
    ringList q n front (count + more)
      = ringList q n front count ++ ringList q n ((front + count) % n) more := by
  simp only [ringList, List.range_add, List.map_append, List.map_map]
  congr 1
  apply List.map_congr_left
  intro i _
  simp only [Function.comp_apply, Nat.mod_add_mod, Nat.add_assoc]

theorem ringList_pop (q : Nat → α) (n front count : Nat) :
    ringList q n front (count + 1)
      = q (front % n) :: ringList q n ((front + 1) % n) count := by
  simp only [ringList, List.range_succ_eq_map, List.map_cons, List.map_map, Nat.add_zero]
  congr 1
  apply List.map_congr_left
  intro i _
  simp only [Function.comp_apply, Nat.mod_add_mod]
  congr 2
  omega

end Xv6.Lib
