/-
Xv6.Kern.SlotTheorems — stack lists and the threads that own their slots.

`Books` relates ONE stack list to its owners, given as a partial map from
process-table entries to slot indices: every owner has a marked slot of
its own, and there are never more marked slots than `thread_count`. The
inequality holds in every run, because a `KT_Create` that fails counts a
thread, and may mark a slot, that nobody owns. When no `KT_Create` fails
it is an equality, and every marked slot has its owner (`Exact`).

The operations on a list (`claim`, `count`, `mark`, `enter`, `leave`) are
proved to keep both, once; a step of the world applies them to the list
it touches and leaves the others alone.
-/
import Mathlib.Data.Finset.Card
import Mathlib.Data.Fintype.Basic
import Xv6.Kern.Refine

namespace Xv6.Kern

open Xv6.Lib Xv6.Mem Function

variable {ncpu : Nat} {k' k₀ : Kernel ncpu} {arg fnc : Nat} {tr : List (Kernel ncpu × Act ncpu)}
  {op : Call} {k : Kernel ncpu} {i : Nat} {fits : Nat → Nat → Prop} {p : ProcIdx}
  {s : PslIdx}

/-! ## One stack list -/

/-- The slots a stack list has marked. -/
def Psl.slots (l : Psl) : Finset Nat := (Finset.range 8).filter fun i => l.stackz i = true

theorem Psl.mem_slots {l : Psl} : i ∈ l.slots ↔ i < 8 ∧ l.stackz i = true := by
  simp [Psl.slots]

theorem Psl.slots_mark (l : Psl) (hi : i < 8) :
    ({ l with stackz := update l.stackz i true } : Psl).slots = insert i l.slots := by
  ext j
  simp only [Psl.mem_slots, Finset.mem_insert, update_apply, Int.natCast_inj]
  by_cases hj : j = i
  · subst hj
    simp [hi]
  · simp [hj]

theorem Psl.slots_clear (l : Psl) (i : Nat) : (l.clear i).slots = l.slots.erase i := by
  ext j
  simp only [Psl.mem_slots, Psl.clear, Finset.mem_erase, update_apply, Int.natCast_inj]
  by_cases hj : j = i
  · subst hj
    simp
  · simp [hj]

theorem Psl.slots_claim {l : Psl} (hz : ∀ i, l.stackz i = false) (n : Int) (st : TableState) :
    Psl.slots { stackz := update l.stackz 0 true, threadCount := n, state := st }
      = {0} := by
  ext j
  simp only [Psl.mem_slots, update_apply, Finset.mem_singleton]
  by_cases hj : j = 0
  · simp [hj]
  · simp [hj, hz]

/-- A list and its owners agree: `own p` is the slot of entry `p`. -/
structure Books (own : ProcIdx → Option Int) (l : Psl) : Prop where
  used : ∀ p i, own p = some i → l.state = .used
  slot : ∀ p i, own p = some i → ∃ j : Nat, i = j ∧ j < 8 ∧ l.stackz j = true
  inj : ∀ p q i, own p = some i → own q = some i → p = q
  range : ∀ i, l.stackz i = true → ∃ j : Nat, i = j ∧ j < 8
  le_count : l.state = .used → (l.slots.card : Int) ≤ l.threadCount
  count_le : l.state = .used → l.threadCount ≤ 8
  unused : l.state = .unused → ∀ i, l.stackz i = false

/-- Nothing is counted or marked that is not owned. -/
structure Exact (own : ProcIdx → Option Int) (l : Psl) : Prop where
  owned : ∀ i, l.stackz i = true → ∃ p, own p = some i
  count : l.state = .used → l.threadCount = l.slots.card

section
variable {own : ProcIdx → Option Int} {l : Psl} {p z nt : ProcIdx}

section
variable (h : Books own l)
include h

theorem Books.full_of_findSlot (hs : l.state = .used) (hf : Kernel.findSlot l = none) :
    l.threadCount = 8 := by
  have hall : l.slots = Finset.range 8 := by
    ext i
    rw [Psl.mem_slots, Finset.mem_range]
    exact ⟨fun hi => hi.1, fun hi => ⟨hi, findSlot_none hf hi⟩⟩
  have h1 := h.le_count hs
  rw [hall, Finset.card_range] at h1
  have h2 := h.count_le hs
  omega

theorem Books.own_eq_none (hs : l.state = .unused) (q : ProcIdx) : own q = none := by
  cases hq : own q with
  | none => rfl
  | some i =>
    have := h.used q i hq
    rw [hs] at this
    cases this

/-- `KT_Create` takes an unused list: entry `p` gets slot 0, and room is
counted for one thread more. -/
theorem Books.claim (hs : l.state = .unused) (p : ProcIdx) :
    Books (update own p (some 0))
      { stackz := update l.stackz 0 true, threadCount := 2, state := .used } := by
  have hnone := h.own_eq_none hs
  have hz := h.unused hs
  have hown : ∀ q i, update own p (some 0) q = some i → q = p ∧ i = 0 := by
    intro q i hq
    rw [update_apply] at hq
    split at hq
    · next hqp => exact ⟨hqp, (Option.some.inj hq).symm⟩
    · rw [hnone q] at hq
      cases hq
  constructor
  · intro q i _
    rfl
  · intro q i hq
    obtain ⟨-, rfl⟩ := hown q i hq
    exact ⟨0, rfl, by omega, by simp⟩
  · intro q q' i hq hq'
    rw [(hown q i hq).1, (hown q' i hq').1]
  · intro i hi
    simp only [update_apply] at hi
    split at hi
    · next h0 => exact ⟨0, h0, by omega⟩
    · rw [hz i] at hi
      cases hi
  · intro _
    rw [Psl.slots_claim hz]
    simp
  · intro _
    simp
  · intro hu
    cases hu

theorem Books.count (hs : l.state = .used) (hc : l.threadCount ≠ 8) :
    Books own { l with threadCount := l.threadCount + 1 } := by
  refine ⟨h.used, h.slot, h.inj, h.range, ?_, ?_, ?_⟩
  · intro _
    have h1 := h.le_count hs
    show (l.slots.card : Int) ≤ l.threadCount + 1
    omega
  · intro _
    have h1 := h.count_le hs
    show l.threadCount + 1 ≤ 8
    omega
  · exact h.unused

theorem Books.mark (hi : i < 8) (hf : l.stackz i = false) (hs : l.state = .used)
    (hlt : (l.slots.card : Int) < l.threadCount) :
    Books own { l with stackz := update l.stackz i true } := by
  have hnot : i ∉ l.slots := by
    rw [Psl.mem_slots, hf]
    simp
  refine ⟨h.used, ?_, h.inj, ?_, ?_, h.count_le, ?_⟩
  · intro q j hq
    obtain ⟨j', hj, hj8, hjz⟩ := h.slot q j hq
    refine ⟨j', hj, hj8, ?_⟩
    simp only [update_apply]
    split
    · rfl
    · exact hjz
  · intro j hj
    simp only [update_apply] at hj
    split at hj
    · next hji => exact ⟨i, hji, hi⟩
    · exact h.range j hj
  · intro _
    rw [Psl.slots_mark l hi, Finset.card_insert_of_notMem hnot]
    show ((l.slots.card + 1 : Nat) : Int) ≤ l.threadCount
    push_cast
    omega
  · intro hu
    simp only [hs] at hu
    cases hu

theorem Books.enter (hi : i < 8) (hm : l.stackz i = true) (hs : l.state = .used)
    (hfree : ∀ q, own q ≠ some (i : Int)) : Books (update own nt (some (i : Int))) l := by
  have hown : ∀ q j, update own nt (some (i : Int)) q = some j →
      (q = nt ∧ j = i) ∨ own q = some j := by
    intro q j hq
    rw [update_apply] at hq
    split at hq
    · next hqn => exact .inl ⟨hqn, (Option.some.inj hq).symm⟩
    · exact .inr hq
  refine ⟨?_, ?_, ?_, h.range, h.le_count, h.count_le, h.unused⟩
  · intro q j hq
    rcases hown q j hq with _ | hq
    · exact hs
    · exact h.used q j hq
  · intro q j hq
    rcases hown q j hq with ⟨-, rfl⟩ | hq
    · exact ⟨i, rfl, hi, hm⟩
    · exact h.slot q j hq
  · intro q q' j hq hq'
    rcases hown q j hq with ⟨rfl, rfl⟩ | h1 <;> rcases hown q' _ hq' with ⟨rfl, h3⟩ | h2
    · rfl
    · exact absurd h2 (hfree q')
    · rw [h3] at h1
      exact absurd h1 (hfree q)
    · exact h.inj q q' j h1 h2

theorem Books.leave {i : Int} (hz : own z = some i) : Books (update own z none) (l.clear i) := by
  obtain ⟨j, rfl, hj8, hjz⟩ := h.slot z i hz
  have hs := h.used z j hz
  have hmem : j ∈ l.slots := Psl.mem_slots.mpr ⟨hj8, hjz⟩
  have hcard : ((l.clear (j : Int)).slots.card : Int) = l.slots.card - 1 := by
    rw [Psl.slots_clear, Finset.card_erase_of_mem hmem]
    have := Finset.card_pos.mpr ⟨j, hmem⟩
    omega
  have hown : ∀ q i, update own z none q = some i → q ≠ z ∧ own q = some i := by
    intro q i hq
    rw [update_apply] at hq
    split at hq
    · cases hq
    · next hne => exact ⟨hne, hq⟩
  -- another owner has another slot
  have hother : ∀ q i, update own z none q = some i →
      ∃ j' : Nat, i = j' ∧ j' < 8 ∧ (l.clear (j : Int)).stackz j' = true := by
    intro q i hq
    obtain ⟨hne, hq⟩ := hown q i hq
    obtain ⟨j', rfl, hj', hjz'⟩ := h.slot q i hq
    refine ⟨j', rfl, hj', ?_⟩
    simp only [Psl.clear, update_apply, Int.natCast_inj]
    rw [if_neg]
    · exact hjz'
    · intro hjj
      rw [hjj] at hq
      exact hne (h.inj q z _ hq hz)
  have hcount := h.le_count hs
  have hstate : (l.clear (j : Int)).state = .unused → (l.clear (j : Int)).slots = ∅ := by
    intro hu
    simp only [Psl.clear, hs] at hu
    split at hu
    · apply Finset.card_eq_zero.mp
      omega
    · cases hu
  have hempty : (l.clear (j : Int)).state = .unused →
      ∀ i, (l.clear (j : Int)).stackz i = false := by
    intro hu i
    cases hi : (l.clear (j : Int)).stackz i with
    | false => rfl
    | true =>
      have hl : l.stackz i = true := by
        simp only [Psl.clear, update_apply] at hi
        split at hi
        · cases hi
        · exact hi
      obtain ⟨j', rfl, hj'⟩ := h.range i hl
      have := Psl.mem_slots.mpr ⟨hj', hi⟩
      rw [hstate hu] at this
      simp at this
  refine ⟨?_, hother, ?_, ?_, ?_, ?_, hempty⟩
  · intro q i hq
    obtain ⟨j', -, hj', hjz'⟩ := hother q i hq
    cases hu : (l.clear (j : Int)).state with
    | used => rfl
    | unused =>
      rw [hempty hu] at hjz'
      cases hjz'
  · intro q q' i hq hq'
    exact h.inj q q' i (hown q i hq).2 (hown q' i hq').2
  · intro i hi
    apply h.range i
    simp only [Psl.clear, update_apply] at hi
    split at hi
    · cases hi
    · exact hi
  · intro _
    rw [hcard]
    show _ ≤ l.threadCount - 1
    omega
  · intro _
    have := h.count_le hs
    show l.threadCount - 1 ≤ 8
    omega

end

/-! ## Exact books -/

theorem Exact.leave (hb : Books own l) (h : Exact own l) {i : Int} (hz : own z = some i) :
    Exact (update own z none) (l.clear i) := by
  obtain ⟨j, rfl, hj8, hjz⟩ := hb.slot z i hz
  have hmem : j ∈ l.slots := Psl.mem_slots.mpr ⟨hj8, hjz⟩
  constructor
  · intro i hi
    simp only [Psl.clear, update_apply] at hi
    split at hi
    · cases hi
    rename_i hij
    obtain ⟨q, hq⟩ := h.owned i hi
    refine ⟨q, ?_⟩
    rw [update_of_ne]
    · exact hq
    · rintro rfl
      rw [hz] at hq
      exact hij (Option.some.inj hq).symm
  · intro _
    have hc := h.count (hb.used z j hz)
    have hpos := Finset.card_pos.mpr ⟨j, hmem⟩
    rw [Psl.slots_clear, Finset.card_erase_of_mem hmem]
    show l.threadCount - 1 = _
    omega

theorem Exact.claim (hb : Books own l) (hs : l.state = .unused) (hne : nt ≠ p) :
    Exact (update (update own p (some 0)) nt (some 1))
      { stackz := update (update l.stackz 0 true) 1 true, threadCount := 2,
        state := .used } := by
  have hz := hb.unused hs
  constructor
  · intro i hi
    simp only [update_apply] at hi
    split at hi
    · next h1 => exact ⟨nt, by rw [update_self, h1]⟩
    · split at hi
      · next h0 => exact ⟨p, by rw [update_of_ne hne.symm, update_self, h0]⟩
      · rw [hz i] at hi
        cases hi
  · intro _
    have hslots : Psl.slots
        { stackz := update (update l.stackz 0 true) 1 true, threadCount := 2,
          state := .used } = {0, 1} := by
      ext j
      simp only [Psl.mem_slots, update_apply, Finset.mem_insert, Finset.mem_singleton]
      by_cases h0 : j = 0
      · simp [h0]
      · by_cases h1 : j = 1
        · simp [h1]
        · have h1' : (j : Int) ≠ 1 := by omega
          simp [h0, h1, h1', hz]
    rw [hslots]
    rfl

theorem Exact.enter (h : Exact own l) (hs : l.state = .used) (hi : i < 8)
    (hf : l.stackz i = false) (hnt : own nt = none) :
    Exact (update own nt (some (i : Int)))
      { l with threadCount := l.threadCount + 1, stackz := update l.stackz i true } := by
  have hnot : i ∉ l.slots := by
    rw [Psl.mem_slots, hf]
    simp
  constructor
  · intro j hj
    simp only [update_apply] at hj
    split at hj
    · next hji => exact ⟨nt, by rw [update_self, hji]⟩
    · obtain ⟨q, hq⟩ := h.owned j hj
      refine ⟨q, ?_⟩
      rw [update_of_ne]
      · exact hq
      · rintro rfl
        rw [hnt] at hq
        cases hq
  · intro _
    have hslots : Psl.slots { l with
        threadCount := l.threadCount + 1, stackz := update l.stackz i true }
        = insert i l.slots := Psl.slots_mark l hi
    rw [hslots, Finset.card_insert_of_notMem hnot, Int.natCast_add, ← h.count hs]
    rfl

theorem Exact.count_eq (hb : Books own l) (h : Exact own l) (hs : l.state = .used) :
    l.threadCount = (Finset.univ.filter fun q => own q ≠ none).card := by
  rw [h.count hs]
  congr 1
  symm
  apply Finset.card_bij (fun q _ => ((own q).getD 0).toNat)
  · intro q hq
    obtain ⟨i, hi⟩ := Option.ne_none_iff_exists'.mp (Finset.mem_filter.mp hq).2
    obtain ⟨j, rfl, hj8, hjz⟩ := hb.slot q i hi
    rw [hi]
    exact Psl.mem_slots.mpr ⟨hj8, hjz⟩
  · intro q hq q' hq' heq
    obtain ⟨i, hi⟩ := Option.ne_none_iff_exists'.mp (Finset.mem_filter.mp hq).2
    obtain ⟨i', hi'⟩ := Option.ne_none_iff_exists'.mp (Finset.mem_filter.mp hq').2
    obtain ⟨j, rfl, -, -⟩ := hb.slot q i hi
    obtain ⟨j', rfl, -, -⟩ := hb.slot q' i' hi'
    rw [hi, hi'] at heq
    have hjj : j = j' := heq
    subst hjj
    exact hb.inj q q' _ hi hi'
  · intro j hj
    obtain ⟨hj8, hjz⟩ := Psl.mem_slots.mp hj
    obtain ⟨q, hq⟩ := h.owned j hjz
    refine ⟨q, Finset.mem_filter.mpr ⟨Finset.mem_univ q, by simp [hq]⟩, ?_⟩
    rw [hq]
    rfl

end

/-! ## All lists of a world -/

/-- The slot of a thread in stack list `s`, if it is on that list. -/
def Thread.slotIn (t : Thread) (s : PslIdx) : Option Int :=
  if t.psl = some s then some t.slindex else none

namespace World

/-- Who owns which slot of list `s`. -/
def owners (w : World) (s : PslIdx) (p : ProcIdx) : Option Int :=
  (w.thread p).bind fun t => t.slotIn s

theorem owners_eq_some {w : World} {i : Int} :
    w.owners s p = some i ↔ ∃ t, w.thread p = some t ∧ t.psl = some s ∧ t.slindex = i := by
  simp [owners, Thread.slotIn, Option.bind_eq_some_iff]

theorem owners_set (w : World) (s : PslIdx) (p : ProcIdx) (t : Option Thread) :
    (w.set p t).owners s
      = update (w.owners s) p (t.bind fun u => u.slotIn s) := by
  funext q
  by_cases hq : q = p
  · subst hq
    simp [owners]
  · simp [owners, set_thread, hq]

/-- Books are kept for every list. -/
def SlotInv (w : World) : Prop := ∀ s, Books (w.owners s) (w.psl s)

/-- And they are exact. -/
def SlotExact (w : World) : Prop := ∀ s, Exact (w.owners s) (w.psl s)

section
variable {w w' : World} {p z nt : ProcIdx} {t u : Thread} {s : PslIdx}
  {P : (ProcIdx → Option Int) → Psl → Prop}

/-- The owners of no list change when an entry becomes a thread with the
same list and slot. -/
theorem owners_set_same {o : Option Thread} (ht : w.thread p = o)
    (h : ∀ s, t.slotIn s = o.bind fun u => u.slotIn s) (m : Maps) (s : PslIdx) :
    ((w.setMem m).set p (some t)).owners s = w.owners s := by
  rw [owners_set, Option.bind_some, h s, ← ht]
  exact update_eq_self p (w.owners s)

theorem each_list (h : ∀ s', P (w.owners s') (w.psl s'))
    (hother : ∀ s', s' ≠ s → w'.owners s' = w.owners s' ∧ w'.psl s' = w.psl s')
    (hs : P (w'.owners s) (w'.psl s)) : ∀ s', P (w'.owners s') (w'.psl s') := by
  intro s'
  by_cases hs' : s' = s
  · rw [hs']
    exact hs
  · obtain ⟨h1, h2⟩ := hother s' hs'
    rw [h1, h2]
    exact h s'

theorem slotIn_of_ne {s' : PslIdx} (ht : t.psl = some s) (hs : s' ≠ s) : t.slotIn s' = none := by
  rw [Thread.slotIn, if_neg]
  rw [ht]
  exact fun h => hs (Option.some.inj h).symm

theorem slotIn_of_none (ht : t.psl = none) (s : PslIdx) : t.slotIn s = none := by
  rw [Thread.slotIn, if_neg]
  rw [ht]
  exact fun h => by cases h

theorem slotIn_self (ht : t.psl = some s) : t.slotIn s = some t.slindex := by
  rw [Thread.slotIn, if_pos ht]

theorem slotIn_congr (hl : u.psl = t.psl) (hi : u.slindex = t.slindex) (s : PslIdx) :
    u.slotIn s = t.slotIn s := by
  rw [Thread.slotIn, Thread.slotIn, hl, hi]

theorem reap_lists (hz : w.thread z = some u) (h : ∀ s, P (w.owners s) (w.psl s))
    (hleave : ∀ s i, w.owners s z = some i →
      P (update (w.owners s) z none) ((w.psl s).clear i)) :
    ∀ s, P (((w.clear u).set z none).owners s) (((w.clear u).set z none).psl s) := by
  cases hu : u.psl with
  | none =>
    intro s
    have hnone : w.owners s z = none := by
      rw [owners, hz, Option.bind_some, slotIn_of_none hu]
    rw [clear, hu, owners_set, Option.bind_none, ← hnone, update_eq_self]
    exact h s
  | some s =>
    have hown : w.owners s z = some u.slindex := by
      rw [owners, hz, Option.bind_some, slotIn_self hu]
    refine each_list (s := s) h ?_ ?_
    · intro s' hs'
      have hnone : w.owners s' z = none := by
        rw [owners, hz, Option.bind_some, slotIn_of_ne hu hs']
      rw [clear, hu, owners_set, Option.bind_none, set_psl]
      constructor
      · show update (w.owners s') z none = _
        rw [← hnone, update_eq_self]
      · rw [setMem_psl, setPsl_psl, if_neg hs']
    · rw [clear, hu, owners_set, Option.bind_none, set_psl]
      show P (update (w.owners s) z none) (update w.psl s _ s)
      rw [update_self]
      exact hleave s u.slindex hown

theorem call_lists (ht : w.thread p = some t) (hop : ∀ fnc arg, op ≠ .ktCreate fnc arg)
    (h : ∀ s, P (w.owners s) (w.psl s)) (hleave : ∀ z s i, w.owners s z = some i →
      P (update (w.owners s) z none) ((w.psl s).clear i)) (hstep : Step fits w p t op w') :
    ∀ s, P (w'.owners s) (w'.psl s) := by
  -- the caller keeps its list and slot
  have hkeep : ∀ (m : Maps) {t' : Thread}, t'.psl = t.psl → t'.slindex = t.slindex →
      ∀ s, P (((w.setMem m).set p (some t')).owners s) (w.psl s) := by
    intro m t' hl hi s
    rw [owners_set_same ht (fun s => (slotIn_congr hl hi s).trans (Option.bind_some ..).symm)]
    exact h s
  cases hstep with
  | stay => exact h
  | exit => exact hkeep w.mem rfl rfl
  | wait z u hz _ =>
    rw [waitReap]
    cases hu : u.psl with
    | none =>
      have := reap_lists (w := w.setMem (w.mem.free u.pgdir)) hz h (hleave z)
      rwa [clear, hu] at this
    | some s' => exact reap_lists hz h (hleave z)
  | ktJoin z u hz _ _ =>
    rw [joinReap]
    split
    · exact reap_lists (w := w.setMem (w.mem.free u.pgdir)) hz h (hleave z)
    · exact reap_lists hz h (hleave z)
  | fork np hnp =>
    intro s
    rw [forked, owners_set_same hnp (slotIn_of_none rfl)]
    exact h s
  | grow | shrink | exec => exact hkeep _ rfl rfl
  | forkFailed | growFailed | shrinkFailed | execFailed => exact h
  | ktEmbryo fnc arg | ktFirst fnc arg | ktFirstBad fnc arg | ktNext fnc arg | ktNextBad fnc arg
  | ktNoSlot fnc arg => exact absurd rfl (hop fnc arg)

/-! ## `KT_Create` and the books -/

theorem claim_psl (s' : PslIdx) : (w.claim p t s).psl s'
    = if s' = s then
        { stackz := update (w.psl s).stackz 0 true, threadCount := 2, state := .used }
      else w.psl s' := by
  rw [claim, set_psl, setPsl_psl]

theorem count_psl (s' : PslIdx) : (w.count s).psl s'
    = if s' = s then { w.psl s with threadCount := (w.psl s).threadCount + 1 } else w.psl s' := by
  rw [count, setPsl_psl]

theorem stack_psl (d i : Nat) (s' : PslIdx) : (w.stack s d i).psl s'
    = if s' = s then { w.psl s with stackz := update (w.psl s).stackz i true }
      else w.psl s' := by
  rw [stack, setMem_psl, setPsl_psl]

theorem owners_claim (hpsl : t.psl = none) (ht : w.thread p = some t) (s' : PslIdx) :
    (w.claim p t s).owners s'
      = if s' = s then update (w.owners s) p (some 0) else w.owners s' := by
  rw [claim, owners_set, Option.bind_some]
  split
  · next hs =>
    rw [hs, slotIn_self (show (t.claimed s).psl = some s from rfl)]
    rfl
  rename_i hs
  have hnone : w.owners s' p = none := by
    rw [owners, ht, Option.bind_some, slotIn_of_none hpsl]
  rw [slotIn_of_ne (show (t.claimed s).psl = some s from rfl) hs, ← hnone]
  exact update_eq_self p (w.owners s')

theorem SlotInv.claim (h : SlotInv w) (hpsl : t.psl = none) (ht : w.thread p = some t)
    (hs : (w.psl s).state = .unused) : SlotInv (w.claim p t s) := by
  refine each_list (s := s) h ?_ ?_
  · intro s' hs'
    refine ⟨?_, ?_⟩
    · rw [owners_claim hpsl ht, if_neg hs']
    · rw [claim_psl, if_neg hs']
  · rw [owners_claim hpsl ht, if_pos rfl, claim_psl, if_pos rfl]
    exact (h s).claim hs p

theorem SlotInv.count (h : SlotInv w) (hs : (w.psl s).state = .used)
    (hc : (w.psl s).threadCount ≠ 8) : SlotInv (w.count s) := by
  refine each_list (s := s) h ?_ ?_
  · intro s' hs'
    exact ⟨rfl, by rw [count_psl, if_neg hs']⟩
  · rw [count_psl, if_pos rfl]
    exact (h s).count hs hc

theorem owners_spawn {i : Int} {l : Life} (hpsl : t.psl = some s) (hnt : w.thread nt = none)
    (s' : PslIdx) : (w.spawn p t nt i l).owners s'
      = if s' = s then update (w.owners s) nt (some i) else w.owners s' := by
  have hslot : ({ t with life := l, pthread := some p, slindex := i } : Thread).slotIn s'
      = if s' = s then some i else none := by
    simp only [Thread.slotIn, hpsl, Option.some.injEq, eq_comm]
  rw [spawn, owners_set, Option.bind_some, hslot]
  split
  · next hs => rw [hs]
  · have hnone : w.owners s' nt = none := by
      rw [owners, hnt, Option.bind_none]
    rw [← hnone]
    exact update_eq_self nt (w.owners s')

/-- The new thread's slot is marked, and `clone` gives it to the thread
if it finds an entry. -/
theorem SlotInv.spawned (h : SlotInv w) {d : Nat} (hpsl : t.psl = some s) (hi : i < 8)
    (hf : (w.psl s).stackz i = false) (hs : (w.psl s).state = .used)
    (hlt : ((w.psl s).slots.card : Int) < (w.psl s).threadCount)
    (hsp : Spawned (w.stack s d i) p t i w') : SlotInv w' := by
  have hmark := (h s).mark hi hf hs hlt
  have hst : SlotInv (w.stack s d i) := by
    refine each_list (s := s) h ?_ ?_
    · intro s' hs'
      exact ⟨rfl, by rw [stack_psl, if_neg hs']⟩
    · rw [stack_psl, if_pos rfl]
      exact hmark
  cases hsp with
  | none => exact hst
  | thread nt hnt =>
    refine each_list (s := s) hst ?_ ?_
    · intro s' hs'
      rw [owners_spawn hpsl hnt, if_neg hs']
      exact ⟨rfl, rfl⟩
    · rw [owners_spawn hpsl hnt, if_pos rfl, spawn, set_psl, stack_psl, if_pos rfl]
      refine hmark.enter hi (by simp) hs ?_
      -- the slot was free, so nobody owned it
      intro q hq
      obtain ⟨j, hj, -, hjz⟩ := (h s).slot q i hq
      rw [← hj, hf] at hjz
      cases hjz

theorem SlotInv.used (h : SlotInv w) (ht : w.thread p = some t) (hpsl : t.psl = some s) :
    (w.psl s).state = .used :=
  (h s).used p t.slindex (owners_eq_some.mpr ⟨t, ht, hpsl, rfl⟩)

theorem SlotInv.findSlot_ne_none (h : SlotInv w) (ht : w.thread p = some t)
    (hpsl : t.psl = some s) (hc : (w.psl s).threadCount ≠ 8) :
    Kernel.findSlot (w.psl s) ≠ none :=
  fun hf => hc ((h s).full_of_findSlot (h.used ht hpsl) hf)

/-- **Every step keeps the books.** -/
theorem SlotInv.step (h : SlotInv w) (ht : w.thread p = some t) (hstep : Step fits w p t op w') :
    SlotInv w' := by
  by_cases hop : ∀ fnc arg, op ≠ .ktCreate fnc arg
  · exact call_lists ht hop h (fun z s i hz => (h s).leave hz) hstep
  · simp only [not_forall, not_not] at hop
    obtain ⟨fnc, arg, rfl⟩ := hop
    cases hstep with
    | stay => exact h
    | ktEmbryo _ _ nt _ hpsl _ hnt =>
      intro s
      have := owners_set_same (t := { t with life := .embryo, pthread := some p, slindex := -1 })
        hnt (slotIn_of_none hpsl) w.mem s
      rw [spawn, set_psl]
      exact this ▸ h s
    | ktFirst _ _ s w' _ hpsl hs hsp =>
      have hz := (h s).unused hs
      refine (h.claim hpsl ht hs).spawned (s := s) rfl (by omega) ?_ ?_ ?_ hsp
      · simp [claim_psl, hz]
      · rw [claim_psl, if_pos rfl]
      · rw [claim_psl, if_pos rfl, Psl.slots_claim hz]
        simp
    | ktFirstBad _ _ s _ hpsl hs _ => exact h.claim hpsl ht hs
    | ktNext _ _ s i w' _ hpsl hc hi hsp =>
      obtain ⟨hi8, hif⟩ := findSlot_some hi
      refine (h.count (h.used ht hpsl) hc).spawned hpsl hi8 ?_ ?_ ?_ hsp
      · rw [count_psl, if_pos rfl]
        exact hif
      · rw [count_psl, if_pos rfl]
        exact h.used ht hpsl
      · have := (h s).le_count (h.used ht hpsl)
        rw [count_psl, if_pos rfl]
        show ((w.psl s).slots.card : Int) < (w.psl s).threadCount + 1
        omega
    | ktNextBad _ _ s i _ hpsl hc hi _ => exact h.count (h.used ht hpsl) hc
    | ktNoSlot _ _ s w' _ hpsl hc hi _ =>
      exact absurd hi (h.findSlot_ne_none ht hpsl hc)

theorem not_created (h : ∀ q, w.thread q = none → w'.thread q = none) : ¬ Created w w' := by
  rintro ⟨nt, u, hnt, hu, -⟩
  rw [h nt hnt] at hu
  cases hu

theorem claim_thread_none {q : ProcIdx} (ht : w.thread p = some t) (hq : w.thread q = none) :
    (w.claim p t s).thread q = none := by
  rw [claim, set_thread, if_neg]
  · exact hq
  · rintro rfl
    rw [ht] at hq
    cases hq

/-- A step whose `KT_Create` makes a thread, or does nothing, keeps exact
books exact. -/
theorem SlotExact.step (hi : SlotInv w) (h : SlotExact w) (ht : w.thread p = some t)
    (hok : ∀ fnc arg, op = .ktCreate fnc arg → w' = w ∨ Created w w')
    (hstep : Step fits w p t op w') : SlotExact w' := by
  by_cases hop : ∀ fnc arg, op ≠ .ktCreate fnc arg
  · exact call_lists ht hop h (fun z s i hz => (h s).leave (hi s) hz) hstep
  · simp only [not_forall, not_not] at hop
    obtain ⟨fnc, arg, rfl⟩ := hop
    rcases hok fnc arg rfl with rfl | hcr
    · exact h
    · cases hstep with
      | stay => exact h
      | ktEmbryo _ _ nt _ hpsl _ hnt =>
        obtain ⟨q, u, hq, hu, hl⟩ := hcr
        rw [spawn, set_thread] at hu
        split at hu
        · cases hu
          cases hl
        · rw [hq] at hu
          cases hu
      | ktFirst _ _ s w' _ hpsl hs hsp =>
        cases hsp with
        | none => exact absurd hcr (not_created fun q hq => claim_thread_none ht hq)
        | thread nt hnt =>
          have hne : nt ≠ p := by
            rintro rfl
            simp [stack, claim] at hnt
          refine each_list (s := s) h ?_ ?_
          · intro s' hs'
            rw [owners_spawn rfl hnt, if_neg hs', spawn, set_psl, stack_psl, if_neg hs',
              claim_psl, if_neg hs']
            refine ⟨?_, rfl⟩
            exact (owners_claim hpsl ht s').trans (if_neg hs')
          · rw [owners_spawn rfl hnt, if_pos rfl, spawn, set_psl, stack_psl, if_pos rfl,
              claim_psl, if_pos rfl]
            have := owners_claim hpsl ht s (s := s)
            rw [if_pos rfl] at this
            show Exact (update ((w.claim p t s).owners s) nt _) _
            rw [this]
            exact Exact.claim (hi s) hs hne
      | ktFirstBad _ _ s _ hpsl hs _ =>
        exact absurd hcr (not_created fun q hq => claim_thread_none ht hq)
      | ktNext _ _ s i w' _ hpsl hc hf hsp =>
        obtain ⟨hi8, hif⟩ := findSlot_some hf
        cases hsp with
        | none => exact absurd hcr (not_created fun q hq => hq)
        | thread nt hnt =>
          have hown : w.owners s nt = none := by
            rw [owners, show w.thread nt = none from hnt, Option.bind_none]
          refine each_list (s := s) h ?_ ?_
          · intro s' hs'
            rw [owners_spawn hpsl hnt, if_neg hs', spawn, set_psl, stack_psl, if_neg hs',
              count_psl, if_neg hs']
            exact ⟨rfl, rfl⟩
          · rw [owners_spawn hpsl hnt, if_pos rfl, spawn, set_psl, stack_psl, if_pos rfl,
              count_psl, if_pos rfl]
            exact (h s).enter (hi.used ht hpsl) hi8 hif hown
      | ktNextBad _ _ s i _ hpsl hc hf _ => exact absurd hcr (not_created fun q hq => hq)
      | ktNoSlot _ _ s w' _ hpsl hc hf _ =>
        exact absurd hf (hi.findSlot_ne_none ht hpsl hc)

end

end World

/-! ## Runs -/

namespace Kernel

theorem owners_boot (h : Boot k) (s : PslIdx) (p : ProcIdx) : k.world.owners s p = none := by
  cases ho : k.world.owners s p with
  | none => rfl
  | some i =>
    obtain ⟨t, ht, hs, -⟩ := World.owners_eq_some.mp ho
    obtain ⟨-, -, -, -, hpsl, -⟩ := world_thread_eq_some.mp ht
    rw [hs] at hpsl
    by_cases hp : p = initproc
    · rw [hp, h.initPsl] at hpsl
      cases hpsl
    · rw [h.rest p hp] at hpsl
      cases hpsl

theorem slotInv_boot (h : Boot k) : k.world.SlotInv := by
  intro s
  have hown := owners_boot h s
  rw [show k.world.psl s = {} from h.psl s]
  constructor <;> simp [hown]

theorem slotExact_boot (h : Boot k) : k.world.SlotExact := by
  intro s
  rw [show k.world.psl s = {} from h.psl s]
  constructor <;> simp

theorem SlotInv.next {a : Act ncpu} (hs : Sound k) (h : k.world.SlotInv) (hn : k.next a = some k') :
    k'.world.SlotInv := by
  cases hs.refined hn with
  | same _ hw =>
    rw [hw]
    exact h
  | call c p t op hcpu ht hl hstep => exact h.step ht hstep

theorem slotInv_run (h0 : Boot k₀) (hr : Run next k₀ tr k) : k.world.SlotInv := by
  have h : Sound k ∧ k.world.SlotInv :=
    Run.always (I := fun k => Sound k ∧ k.world.SlotInv) ⟨sound_boot h0, slotInv_boot h0⟩
      (fun _ _ _ hi hn => ⟨hi.1.step hn, SlotInv.next hi.1 hi.2 hn⟩) hr
  exact h.2

/-- The stack list of process `p` has eight threads. -/
def listFull (k : Kernel ncpu) (p : ProcIdx) : Bool :=
  match (k.proc p).psl with
  | none => false
  | some s => (k.psl s).threadCount = 8

/-- `KT_Create` returns the tid of a new thread. -/
def ktSucceeds (k : Kernel ncpu) (p : ProcIdx) (fnc arg : Nat) : Bool :=
  match k.ktCreate p fnc arg with
  | .ok (r, _) => r ≠ -1
  | .error _ => false

/-- A `KT_Create` has no function to run, finds its list full, or succeeds. -/
def createsOrFull (k : Kernel ncpu) : Act ncpu → Bool
  | .call c (.ktCreate fnc arg) =>
    match k.cpu c with
    | none => true
    | some p => fnc = 0 || k.listFull p || k.ktSucceeds p fnc arg
  | _ => true

theorem created_of_ktSucceeds {c : Fin ncpu} {t : Thread} (hc : k.Clean)
    (ht : k.world.thread p = some t) (hs : k.ktSucceeds p fnc arg = true)
    (hn : k.perform c p (.ktCreate fnc arg) = .ok k') : World.Created k.world k'.world := by
  obtain ⟨r, hr⟩ := map_snd_ok hn
  have hne : r ≠ -1 := by
    rw [ktSucceeds, hr] at hs
    simpa using hs
  exact (ktCreate_refines hc ht hr).2.2 hne

theorem ktCreate_refused {t : Thread} (ht : k.world.thread p = some t)
    (h : fnc = 0 ∨ k.listFull p = true) : k.ktCreate p fnc arg = .ok (-1, k) := by
  obtain ⟨-, -, hd, -⟩ := world_thread_eq_some.mp ht
  unfold ktCreate
  rcases h with h | h
  · rw [if_pos h]
  · split
    · rfl
    · unfold listFull at h
      split at h
      · cases h
      rename_i s hs
      rw [hd, hs]
      show k.ktNext p t.pgdir s fnc arg = _
      rw [ktNext, if_pos (of_decide_eq_true h)]

theorem slotExact_run (h0 : Boot k₀) (hr : Run next k₀ tr k)
    (hok : Meets (fun k a => k.createsOrFull a = true) tr) : k.world.SlotExact := by
  have h : (Sound k ∧ k.world.SlotInv) ∧ k.world.SlotExact := by
    refine Run.invariant (I := fun k => (Sound k ∧ k.world.SlotInv) ∧ k.world.SlotExact)
      ⟨⟨sound_boot h0, slotInv_boot h0⟩, slotExact_boot h0⟩ ?_ hr hok
    rintro k a k' ⟨⟨hs, hi⟩, hx⟩ hka hn
    refine ⟨⟨hs.step hn, SlotInv.next hs hi hn⟩, ?_⟩
    cases hs.refined hn with
    | same _ hw =>
      rw [hw]
      exact hx
    | call c p t op hcpu ht hl hstep =>
      refine hx.step hi ht ?_ hstep
      rintro fnc arg rfl
      have hperf : k.perform c p (.ktCreate fnc arg) = .ok k' := by
        cases stepped_of_next hn with
        | call _ p' _ hcpu' _ hp =>
          rw [hcpu] at hcpu'
          cases hcpu'
          exact hp
      simp only [createsOrFull, hcpu, Bool.or_eq_true, decide_eq_true_eq] at hka
      rcases hka with hka | hka
      · left
        have hsame : k.ktCreate p fnc arg = .ok (-1, k) := ktCreate_refused ht hka
        rw [perform, hsame] at hperf
        cases hperf
        rfl
      · exact .inr (created_of_ktSucceeds hs.clean ht hka hperf)
  exact h.2

theorem owners_eq_some (hc : k.Clean) {i : Int} : k.world.owners s p = some i ↔
      (k.proc p).state ≠ .unused ∧ (k.proc p).psl = some s ∧ (k.proc p).slindex = i := by
  rw [World.owners_eq_some]
  constructor
  · rintro ⟨t, ht, hs, hi⟩
    obtain ⟨-, -, -, -, hpsl, hsl⟩ := world_thread_eq_some.mp ht
    exact ⟨state_ne_unused ht, hpsl.trans hs, hsl.trans hi⟩
  · rintro ⟨hu, hs, hi⟩
    obtain ⟨t, ht⟩ := exists_thread hc hu
    obtain ⟨-, -, -, -, hpsl, hsl⟩ := world_thread_eq_some.mp ht
    exact ⟨t, ht, hpsl.symm.trans hs, hsl.symm.trans hi⟩

/-- The entries in use whose stack list is `s`. -/
def onList (k : Kernel ncpu) (s : PslIdx) : Finset ProcIdx :=
  Finset.univ.filter fun p => (k.proc p).state ≠ .unused ∧ (k.proc p).psl = some s

theorem mem_onList : p ∈ k.onList s ↔ (k.proc p).state ≠ .unused ∧ (k.proc p).psl = some s := by
  simp [onList]

/-- **The stack lists and the threads agree.** In a run in which every
`KT_Create` succeeds or is refused, the threads on a list in use have
distinct slots, these are the marked slots, and `thread_count` is their
number; a list that is not full has a free slot; a list not in use has no
marked slot and no process refers to it. -/
theorem stack_lists_agree {k₀ k : Kernel ncpu} {tr : List (Kernel ncpu × Act ncpu)} (h0 : Boot k₀)
    (hr : Run next k₀ tr k) (hok : Meets (fun k a => k.createsOrFull a = true) tr) (s : PslIdx) :
    ((k.psl s).state = .used →
      (∀ p ∈ k.onList s, ∀ q ∈ k.onList s, (k.proc p).slindex = (k.proc q).slindex → p = q) ∧
      (∀ i, (k.psl s).stackz i = true ↔ ∃ p ∈ k.onList s, (k.proc p).slindex = i) ∧
      (∀ i, (k.psl s).stackz i = true → 0 ≤ i ∧ i < 8) ∧
      (k.psl s).threadCount = (k.onList s).card ∧
      ((k.psl s).threadCount ≠ 8 → ∃ i : Nat, i < 8 ∧ (k.psl s).stackz i = false)) ∧
    ((k.psl s).state = .unused →
      (∀ i, (k.psl s).stackz i = false) ∧ ∀ p, (k.proc p).psl ≠ some s) := by
  have hc := ((sound_boot h0).run hr).clean
  have hb : Books (k.world.owners s) (k.psl s) := slotInv_run h0 hr s
  have hx : Exact (k.world.owners s) (k.psl s) := slotExact_run h0 hr hok s
  have hown : ∀ {p}, p ∈ k.onList s → k.world.owners s p = some (k.proc p).slindex := by
    intro p hp
    obtain ⟨hu, hs⟩ := mem_onList.mp hp
    exact (owners_eq_some hc).mpr ⟨hu, hs, rfl⟩
  have hmem : ∀ {p i}, k.world.owners s p = some i → p ∈ k.onList s ∧ (k.proc p).slindex = i := by
    intro p i hp
    obtain ⟨hu, hs, hi⟩ := (owners_eq_some hc).mp hp
    exact ⟨mem_onList.mpr ⟨hu, hs⟩, hi⟩
  constructor
  · intro hs
    refine ⟨?_, ?_, ?_, ?_, ?_⟩
    · intro p hp q hq hpq
      have hq' := hown hq
      rw [← hpq] at hq'
      exact hb.inj p q _ (hown hp) hq'
    · intro i
      constructor
      · intro hi
        obtain ⟨p, hp⟩ := hx.owned i hi
        exact ⟨p, hmem hp⟩
      · rintro ⟨p, hp, rfl⟩
        obtain ⟨j, hj, -, hjz⟩ := hb.slot p _ (hown hp)
        rw [hj]
        exact hjz
    · intro i hi
      obtain ⟨j, rfl, hj⟩ := hb.range i hi
      omega
    · rw [hx.count_eq hb hs]
      congr 2
      ext p
      rw [Finset.mem_filter, Option.ne_none_iff_exists']
      constructor
      · rintro ⟨-, i, hi⟩
        exact (hmem hi).1
      · intro hp
        exact ⟨Finset.mem_univ p, _, hown hp⟩
    · intro hne
      cases hf : findSlot (k.psl s) with
      | none => exact absurd (hb.full_of_findSlot hs hf) hne
      | some i => exact ⟨i, findSlot_some hf⟩
  · intro hs
    refine ⟨hb.unused hs, ?_⟩
    intro p hp
    by_cases hu : (k.proc p).state = .unused
    · have := ((hc p).unused (ProcState.life_eq_none.mpr hu)).2.2.1
      rw [show (k.core p).psl = some s from hp] at this
      cases this
    · have := hb.own_eq_none hs p
      rw [(owners_eq_some hc).mpr ⟨hu, hp, rfl⟩] at this
      cases this

/-- `initproc` starts two threads; the first exits, is joined, and its
slot is used again. -/
def slotReused : List (Kernel 1 × Act 1) × Kernel 1 :=
  (follow next threadMachine
    [.schedule 0 0, .call 0 (.ktCreate pgsize 0), .call 0 (.ktCreate pgsize 0), .call 0 .yield,
      .schedule 0 1, .call 0 .exit, .schedule 0 0, .call 0 .ktJoin,
      .call 0 (.ktCreate pgsize 0)]).get (by decide +kernel)

theorem stack_lists_agree_slotReused :
    Meets (fun k a => k.createsOrFull a = true) slotReused.1 ∧
    (slotReused.2.psl 0).state = .used ∧
    (slotReused.2.psl 0).threadCount = (slotReused.2.onList 0).card := by
  have hr : Run next threadMachine slotReused.1 slotReused.2 := run_get _
  have hok : Meets (fun k a => k.createsOrFull a = true) slotReused.1 := by decide +kernel
  have hs : (slotReused.2.psl 0).state = .used := by decide +kernel
  exact ⟨hok, hs, ((stack_lists_agree boot_threadMachine hr hok 0).1 hs).2.2.2.1⟩

end Kernel

end Xv6.Kern
