/-
Xv6.Kern.Queue — the queue of waiting threads inside a semaphore
(`struct queue`, `isEmpty`, `isFull`, `push_back`, `pop_front` of
`proc.c`), and its reading as a bounded FIFO list.

The source keeps an array of `MAXQ` process pointers with `front`, `back`
and `count`. `back` points at the LAST element, so it is `-1` in a fresh
queue, and it is reset to `-1` just before it would leave the array.

`Queue.Wf` is what `sem_init` establishes and both operations keep.
`toList_pushBack`, `pushBack_full` and `popFront_cons` say what they do to
the list of stored processes; nothing after this module looks at `front`
or `back` again.
-/
import Mathlib.Data.Int.ModEq
import Xv6.Param
import Xv6.Lib.Ring

namespace Xv6.Kern

open Xv6.Lib

variable {α : Type}

/-- `struct queue`. A cell is a process pointer, `none` the null one. -/
structure Queue (α : Type) where
  q : Nat → Option α
  front : Int
  back : Int
  count : Int

namespace Queue

/-- The queue part of `sem_init`. -/
def init : Queue α :=
  { q := fun _ => none, front := 0, back := -1, count := 0 }

/-- Memory as the loader leaves it: `back` is 0, not yet `-1`. -/
def zero : Queue α :=
  { q := fun _ => none, front := 0, back := 0, count := 0 }

def isEmpty (que : Queue α) : Bool := que.count == 0

def isFull (que : Queue α) : Bool := que.count == maxq

/-- `push_back`. A full queue silently drops the process. -/
def pushBack (que : Queue α) (p : α) : Queue α :=
  if que.isFull then que
  else
    let back := if que.back = maxq - 1 then -1 else que.back
    { que with
      q := Function.update que.q (back + 1).toNat (some p)
      back := back + 1
      count := que.count + 1 }

/-- `pop_front`: the pointer it returns, and the queue left behind. -/
def popFront (que : Queue α) : Option α × Queue α :=
  if que.isEmpty then (none, que)
  else
    let p := que.q que.front.toNat
    let front := que.front + 1
    (p, { que with
          front := if front = maxq then 0 else front
          count := que.count - 1 })

/-- The cells in use, positions `front .. front + count - 1` modulo `MAXQ`. -/
def cells (que : Queue α) : List (Option α) :=
  ringList que.q maxq que.front.toNat que.count.toNat

/-- The stored processes, oldest first. -/
def toList (que : Queue α) : List α := que.cells.filterMap id

/-- What `sem_init` establishes: the indices are in bounds, `back` is the
cell of the newest element, and no cell in use holds the null pointer. -/
structure Wf (que : Queue α) : Prop where
  front_nonneg : 0 ≤ que.front
  front_lt : que.front < maxq
  count_nonneg : 0 ≤ que.count
  count_le : que.count ≤ maxq
  back_ge : -1 ≤ que.back
  back_lt : que.back < maxq
  back_eq : (que.back + 1) % maxq = (que.front + que.count) % maxq
  stored : que.cells = que.toList.map some

theorem wf_init : (init : Queue α).Wf := by
  constructor <;> simp [init, cells, toList]

@[simp] theorem toList_init : (init : Queue α).toList = [] := rfl

variable {que : Queue α}

theorem length_toList (h : que.Wf) :
    (que.toList.length : Int) = que.count := by
  have hlen : que.cells.length = que.toList.length := by
    rw [h.stored, List.length_map]
  have hc : que.cells.length = que.count.toNat := by simp [cells]
  have := h.count_nonneg
  omega

theorem length_toList_le (h : que.Wf) : que.toList.length ≤ maxq := by
  have h1 := length_toList h
  have h2 := h.count_le
  omega

theorem getElem?_cells {j : Nat} (hj : (j : Int) < que.count) :
    que.cells[j]? = some (que.q ((que.front.toNat + j) % maxq)) := by
  have hlt : j < que.count.toNat := by omega
  simp [cells, ringList, hlt]

theorem isFull_iff (h : que.Wf) :
    que.isFull = true ↔ que.toList.length = maxq := by
  have h1 := length_toList h
  simp only [isFull, beq_iff_eq]
  omega

/-- **`push_back` on a full queue loses the process.** -/
theorem pushBack_full (hf : que.isFull = true) (p : α) :
    que.pushBack p = que := by
  simp [pushBack, hf]

theorem pushBack_cell (h : que.Wf) :
    ((if que.back = maxq - 1 then -1 else que.back) + 1).toNat
      = (que.front.toNat + que.count.toNat) % maxq := by
  obtain ⟨h1, h2, h3, h4, h5, h6, h7, -⟩ := h
  simp only [maxq] at *
  split <;> omega

theorem cells_pushBack (h : que.Wf) (hf : que.isFull = false) (p : α) :
    (que.pushBack p).cells = que.cells ++ [some p] := by
  have hlt : que.count.toNat < maxq := by
    have h1 := h.count_nonneg
    have h2 := h.count_le
    simp only [isFull, beq_eq_false_iff_ne] at hf
    omega
  have hc : (que.count + 1).toNat = que.count.toNat + 1 := by
    have := h.count_nonneg
    omega
  simp only [pushBack, hf, Bool.false_eq_true, if_false, cells, hc, pushBack_cell h]
  exact ringList_push que.q (some p) hlt

/-- **`push_back` appends** when there is room. -/
theorem toList_pushBack (h : que.Wf) (hf : que.isFull = false) (p : α) :
    (que.pushBack p).toList = que.toList ++ [p] := by
  simp [toList, cells_pushBack h hf p]

theorem wf_pushBack (h : que.Wf) (p : α) : (que.pushBack p).Wf := by
  cases hf : que.isFull with
  | true => rw [pushBack_full hf]; exact h
  | false =>
    have hstored : (que.pushBack p).cells = (que.pushBack p).toList.map some := by
      rw [cells_pushBack h hf, toList_pushBack h hf, h.stored]
      simp
    have hne : que.count ≠ maxq := by simpa [isFull] using hf
    obtain ⟨h1, h2, h3, h4, h5, h6, h7, -⟩ := h
    -- `back` was below `MAXQ - 1`, or it wraps to cell 0
    have hb : (que.pushBack p).back
        = (if que.back = maxq - 1 then -1 else que.back) + 1 := by
      simp [pushBack, hf]
    have hfr : (que.pushBack p).front = que.front := by simp [pushBack, hf]
    have hct : (que.pushBack p).count = que.count + 1 := by simp [pushBack, hf]
    simp only [maxq] at *
    refine ⟨?_, ?_, ?_, ?_, ?_, ?_, ?_, hstored⟩ <;> simp only [hb, hfr, hct, maxq] <;>
      omega

/-- Pushing a process that is not stored keeps the stored ones distinct,
whether it is dropped or not. -/
theorem pushBack_mem_nodup (h : que.Wf) (hnd : que.toList.Nodup) {p : α}
    (hp : p ∉ que.toList) :
    (∀ q ∈ (que.pushBack p).toList, q ∈ que.toList ∨ q = p) ∧ (que.pushBack p).toList.Nodup := by
  cases hf : que.isFull with
  | true =>
    rw [pushBack_full hf]
    exact ⟨fun q hq => .inl hq, hnd⟩
  | false =>
    rw [toList_pushBack h hf]
    refine ⟨fun q hq => by simpa using hq, ?_⟩
    refine List.nodup_append.mpr ⟨hnd, by simp, fun a ha b hb hab => ?_⟩
    rw [List.mem_singleton] at hb
    exact hp (hb ▸ hab ▸ ha)

theorem popFront_empty (h : que.Wf) (hl : que.toList = []) :
    que.popFront = (none, que) := by
  have h1 := length_toList h
  rw [hl] at h1
  have : que.count = 0 := by simpa using h1.symm
  simp [popFront, isEmpty, this]

theorem cells_popFront (h : que.Wf) (he : que.isEmpty = false) :
    que.cells = que.popFront.1 :: que.popFront.2.cells := by
  obtain ⟨h1, h2, h3, h4, -, -, -, -⟩ := h
  have hne : que.count ≠ 0 := by simpa [isEmpty] using he
  have hc : que.count.toNat = (que.count - 1).toNat + 1 := by omega
  have hmod : que.front.toNat % maxq = que.front.toNat := Nat.mod_eq_of_lt (by omega)
  have hnext : (if que.front + 1 = (maxq : Int) then (0 : Int) else que.front + 1).toNat
      = (que.front.toNat + 1) % maxq := by
    simp only [maxq] at *
    split <;> omega
  simp only [popFront, he, Bool.false_eq_true, if_false, cells, hnext]
  rw [hc, ringList_pop, hmod]

/-- **`pop_front` removes and returns the oldest process.** -/
theorem popFront_cons (h : que.Wf) {p : α} {l : List α}
    (hl : que.toList = p :: l) :
    que.popFront.1 = some p ∧ que.popFront.2.Wf ∧ que.popFront.2.toList = l := by
  have hlen := length_toList h
  have he : que.isEmpty = false := by
    simp only [isEmpty, beq_eq_false_iff_ne]
    rw [hl] at hlen
    simp only [List.length_cons] at hlen
    omega
  have hcells := cells_popFront h he
  rw [h.stored, hl, List.map_cons] at hcells
  obtain ⟨hp, htail⟩ := List.cons.inj hcells
  have hto : que.popFront.2.toList = l := by
    simp [toList, ← htail, List.filterMap_map]
  refine ⟨hp.symm, ?_, hto⟩
  have hfr : que.popFront.2.front = if que.front + 1 = (maxq : Int) then 0 else que.front + 1 := by
    simp [popFront, he]
  have hct : que.popFront.2.count = que.count - 1 := by simp [popFront, he]
  have hbk : que.popFront.2.back = que.back := by simp [popFront, he]
  have hne : que.count ≠ 0 := by simpa [isEmpty] using he
  have hst : que.popFront.2.cells = que.popFront.2.toList.map some := by rw [hto, htail]
  obtain ⟨h1, h2, h3, h4, h5, h6, h7, -⟩ := h
  simp only [maxq] at *
  refine ⟨?_, ?_, ?_, ?_, ?_, ?_, ?_, hst⟩ <;> simp only [hbk, hfr, hct, maxq] <;>
    omega

/-! ### Whole histories of calls -/

inductive Op (α : Type) where
  | pushBack (p : α)
  | popFront

def call (que : Queue α) : Op α → Queue α
  | .pushBack p => que.pushBack p
  | .popFront => que.popFront.2

/-- What a call does to a FIFO list that holds `MAXQ` elements at most. -/
def fifo (l : List α) : Op α → List α
  | .pushBack p => if l.length = maxq then l else l ++ [p]
  | .popFront => l.tail

/-- The array and its three counters represent the list `l`. -/
structure Stores (que : Queue α) (l : List α) : Prop where
  front : 0 ≤ que.front ∧ que.front < maxq
  back : -1 ≤ que.back ∧ que.back < maxq
  count : que.count = l.length
  length : l.length ≤ maxq
  newest : que.back ≡ que.front + que.count - 1 [ZMOD maxq]
  cell : ∀ i (hi : i < l.length), que.q ((que.front.toNat + i) % maxq) = some l[i]

theorem Wf.stores (h : que.Wf) : que.Stores que.toList := by
  have hlen := length_toList h
  refine ⟨⟨h.front_nonneg, h.front_lt⟩, ⟨h.back_ge, h.back_lt⟩, hlen.symm, length_toList_le h,
    ?_, ?_⟩
  · have := Int.ModEq.sub_right 1 (show que.back + 1 ≡ que.front + que.count [ZMOD maxq] from
      h.back_eq)
    rwa [add_sub_cancel_right] at this
  · intro i hi
    have hcell := getElem?_cells (show (i : Int) < que.count by omega)
    rw [h.stored, List.getElem?_map, List.getElem?_eq_getElem hi] at hcell
    exact (Option.some.inj hcell).symm

theorem popFront_spec (h : que.Wf) :
    que.popFront.1 = que.toList.head? ∧ que.popFront.2.Wf ∧
      que.popFront.2.toList = que.toList.tail := by
  cases hl : que.toList with
  | nil => rw [popFront_empty h hl]; exact ⟨rfl, h, hl⟩
  | cons p l => exact popFront_cons h hl

theorem call_spec (h : que.Wf) (op : Op α) :
    (que.call op).Wf ∧ (que.call op).toList = fifo que.toList op := by
  cases op with
  | pushBack p =>
    refine ⟨wf_pushBack h p, ?_⟩
    cases hf : que.isFull with
    | true => simp [call, fifo, pushBack_full hf, (isFull_iff h).mp hf]
    | false =>
      have hne : que.toList.length ≠ maxq := by simp [← isFull_iff h, hf]
      simp [call, fifo, toList_pushBack h hf, hne]
  | popFront => exact (popFront_spec h).2

theorem calls_spec (h : que.Wf) (ops : List (Op α)) :
    (ops.foldl call que).Wf ∧ (ops.foldl call que).toList = ops.foldl fifo que.toList := by
  induction ops generalizing que with
  | nil => exact ⟨h, rfl⟩
  | cons op ops ih =>
    obtain ⟨hw, hl⟩ := call_spec h op
    simpa [hl] using ih hw

/-- **The semaphore queue is a bounded FIFO** after any calls since
`sem_init`: it represents the list those calls leave in a FIFO, and each
next call does to it what it does to that list. -/
theorem queue_bounded_fifo (ops : List (Op α)) :
    ∃ que l, que = ops.foldl call (init : Queue α) ∧ l = ops.foldl fifo [] ∧ que.Stores l ∧
      (∀ p, l.length = maxq ∧ que.pushBack p = que ∨
        l.length < maxq ∧ (que.pushBack p).Stores (l ++ [p])) ∧
      (l = [] ∧ que.popFront = (none, que) ∨
        ∃ p l', l = p :: l' ∧ que.popFront.1 = some p ∧ que.popFront.2.Stores l') := by
  obtain ⟨hw, hl⟩ := calls_spec wf_init ops
  rw [toList_init] at hl
  refine ⟨_, _, rfl, rfl, hl ▸ hw.stores, fun p => ?_, ?_⟩ <;> rw [← hl]
  · cases hf : (ops.foldl call (init : Queue α)).isFull with
    | true => exact .inl ⟨(isFull_iff hw).mp hf, pushBack_full hf p⟩
    | false =>
      have hne : (ops.foldl call (init : Queue α)).toList.length ≠ maxq := by
        simp [← isFull_iff hw, hf]
      refine .inr ⟨lt_of_le_of_ne (length_toList_le hw) hne, ?_⟩
      exact toList_pushBack hw hf p ▸ (wf_pushBack hw p).stores
  · cases hc : (ops.foldl call (init : Queue α)).toList with
    | nil => exact .inl ⟨rfl, popFront_empty hw hc⟩
    | cons p l =>
      obtain ⟨hp, hw', hl'⟩ := popFront_cons hw hc
      exact .inr ⟨p, l, rfl, hp, hl' ▸ hw'.stores⟩

end Queue

end Xv6.Kern
