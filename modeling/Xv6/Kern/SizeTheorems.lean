/-
Xv6.Kern.SizeTheorems — the layout of an address space, and `sz`.

`Layout m n used` says what a directory that maps the pages `m` should
look like: the heap is the first `n` pages, every page above it belongs
to a stack slot in use, and the top page of every slot in use is there.
(The page below it is the guard page; `fork` does not copy it.) The heap
ends below the lowest slot.

Each thread has its OWN copy of `sz`, taken when it was created, and
`growproc` changes only the caller's. So the layout fits the size of every
thread exactly as long as only a process without siblings grows or
shrinks. Then no `growproc` maps a page twice, and `fork` finds every page
it copies.
-/
import Xv6.Kern.SpaceTheorems

namespace Xv6.Kern

open Xv6.Lib Xv6.Mem

variable {ncpu : Nat} {c : Fin ncpu} {sz : Nat} {msg : String}

/-! ## One address space -/

/-- Pages `m`, with a heap of `n` pages and the stack slots `used`. Slot 0
may lack its lower page: `fork` copies only the upper one. -/
structure Layout (m : Set Nat) (n : Nat) (used : Nat → Prop) : Prop where
  heap : ∀ x < n, x ∈ m
  only : ∀ x ∈ m, x < n ∨ ∃ i, i < 8 ∧ used i ∧ x ∈ slot i
  top : ∀ i, i < 8 → used i → Kernel.slotLow i + 1 ∈ m
  low : ∀ i, 0 < i → i < 8 → used i → Kernel.slotLow i ∈ m
  below : n ≤ heapTop

theorem top_mem_slot (i : Nat) : Kernel.slotLow i + 1 ∈ slot i := by
  simp [slot]

theorem lt_of_mem_slot {n i x : Nat} (hn : n ≤ heapTop) (hi : i < 8) (hx : x ∈ slot i) : n ≤ x :=
  Nat.le_trans hn (heapTop_le_of_mem_slot hi hx)

section
variable {m : Set Nat} {n n' i : Nat} {used used' : Nat → Prop}

section
variable (h : Layout m n used)
include h

theorem Layout.congr (hu : ∀ i, i < 8 → (used' i ↔ used i)) : Layout m n used' := by
  refine ⟨h.heap, ?_, ?_, ?_, h.below⟩
  · intro x hx
    rcases h.only x hx with hx | ⟨i, hi, hui, hx⟩
    · exact .inl hx
    · exact .inr ⟨i, hi, (hu i hi).mpr hui, hx⟩
  · intro i hi hui
    exact h.top i hi ((hu i hi).mp hui)
  · intro i h0 hi hui
    exact h.low i h0 hi ((hu i hi).mp hui)

theorem Layout.grow (hle : n ≤ n') (hb : n' ≤ heapTop) : Layout (m ∪ Set.Ico n n') n' used := by
  refine ⟨?_, ?_, ?_, ?_, hb⟩
  · intro x hx
    rcases Nat.lt_or_ge x n with hxn | hxn
    · exact .inl (h.heap x hxn)
    · exact .inr ⟨hxn, hx⟩
  · rintro x (hx | hx)
    · exact (h.only x hx).imp (fun hlt => Nat.lt_of_lt_of_le hlt hle) id
    · exact .inl hx.2
  · intro i hi hu
    exact .inl (h.top i hi hu)
  · intro i h0 hi hu
    exact .inl (h.low i h0 hi hu)

theorem Layout.cut_above (hb : n' ≤ heapTop) : Layout (m \ Set.Ico n n') n used := by
  refine ⟨?_, fun x hx => h.only x hx.1, ?_, ?_, h.below⟩
  · intro x hx
    exact ⟨h.heap x hx, fun hmem => Nat.not_le_of_lt hx hmem.1⟩
  · intro i hi hu
    refine ⟨h.top i hi hu, fun hmem => ?_⟩
    exact Nat.not_le_of_lt hmem.2 (lt_of_mem_slot hb hi (top_mem_slot i))
  · intro i h0 hi hu
    refine ⟨h.low i h0 hi hu, fun hmem => ?_⟩
    exact Nat.not_le_of_lt hmem.2 (lt_of_mem_slot hb hi (low_mem_slot i))

theorem Layout.shrink (hle : n' ≤ n) : Layout (m \ Set.Ico n' n) n' used := by
  refine ⟨?_, ?_, ?_, ?_, Nat.le_trans hle h.below⟩
  · intro x hx
    exact ⟨h.heap x (Nat.lt_of_lt_of_le hx hle), fun hmem => Nat.not_le_of_lt hx hmem.1⟩
  · rintro x ⟨hx, hnot⟩
    rcases h.only x hx with hxn | hslot
    · left
      by_contra hge
      exact hnot ⟨Nat.le_of_not_lt hge, hxn⟩
    · exact .inr hslot
  · intro i hi hu
    refine ⟨h.top i hi hu, fun hmem => ?_⟩
    exact Nat.not_le_of_lt hmem.2 (lt_of_mem_slot h.below hi (top_mem_slot i))
  · intro i h0 hi hu
    refine ⟨h.low i h0 hi hu, fun hmem => ?_⟩
    exact Nat.not_le_of_lt hmem.2 (lt_of_mem_slot h.below hi (low_mem_slot i))

theorem Layout.mark (hi : i < 8) : Layout (m ∪ slot i) n fun j => used j ∨ j = i := by
  refine ⟨fun x hx => .inl (h.heap x hx), ?_, ?_, ?_, h.below⟩
  · rintro x (hx | hx)
    · rcases h.only x hx with hx | ⟨j, hj, hu, hx⟩
      · exact .inl hx
      · exact .inr ⟨j, hj, .inl hu, hx⟩
    · exact .inr ⟨i, hi, .inr rfl, hx⟩
  · rintro j hj (hu | rfl)
    · exact .inl (h.top j hj hu)
    · exact .inr (top_mem_slot j)
  · rintro j h0 hj (hu | rfl)
    · exact .inl (h.low j h0 hj hu)
    · exact .inr (low_mem_slot j)

theorem Layout.clear (hi : i < 8) : Layout (m \ slot i) n fun j => used j ∧ j ≠ i := by
  refine ⟨?_, ?_, ?_, ?_, h.below⟩
  · intro x hx
    exact ⟨h.heap x hx, fun hmem => Nat.not_le_of_lt hx (lt_of_mem_slot h.below hi hmem)⟩
  · rintro x ⟨hx, hnot⟩
    rcases h.only x hx with hx | ⟨j, hj, hu, hx⟩
    · exact .inl hx
    · refine .inr ⟨j, hj, ⟨hu, ?_⟩, hx⟩
      rintro rfl
      exact hnot hx
  · rintro j hj ⟨hu, hne⟩
    refine ⟨h.top j hj hu, fun hmem => ?_⟩
    exact hne (slot_inj hj hi (top_mem_slot j) hmem)
  · rintro j h0 hj ⟨hu, hne⟩
    refine ⟨h.low j h0 hj hu, fun hmem => ?_⟩
    exact hne (slot_inj hj hi (low_mem_slot j) hmem)

end

theorem Layout.fresh {S : Set Nat} (hb : n ≤ heapTop) (hS : S ⊆ slot 0)
    (htop : Kernel.slotLow 0 + 1 ∈ S) : Layout (Set.Ico 0 n ∪ S) n (· = 0) := by
  refine ⟨fun x hx => .inl ⟨Nat.zero_le x, hx⟩, ?_, ?_, ?_, hb⟩
  · rintro x (hx | hx)
    · exact .inl hx.2
    · exact .inr ⟨0, by omega, rfl, hS hx⟩
  · rintro i _ rfl
    exact .inr htop
  · rintro i h0 _ rfl
    omega

end

/-! ## All address spaces of a world -/

namespace World

/-- Slot `i` belongs to a thread of `t`'s address space. A process without
a stack list has slot 0. -/
def slotUsed (w : World) (t : Thread) (i : Nat) : Prop :=
  match t.psl with
  | none => i = 0
  | some s => (w.psl s).stackz i = true

/-- Every thread's `sz` and stack slots are what its directory maps; the
threads of one list are on one directory. -/
structure SizeInv (w : World) : Prop where
  layout : ∀ p t, w.thread p = some t →
    Layout (w.mem.mapped t.pgdir) (npages t.sz) (w.slotUsed t)
  same : ∀ p q t u, w.thread p = some t → w.thread q = some u → t.pgdir = u.pgdir → t.sz = u.sz
  home : ∀ p q t u s, w.thread p = some t → w.thread q = some u → t.psl = some s →
    u.psl = some s → t.pgdir = u.pgdir

/-- A `growproc` leaves the size, or its caller has no sibling and neither
takes the heap up to the stacks nor gives it up altogether. -/
def GrowOk (w : World) (p : ProcIdx) (t : Thread) (n : Int) : Prop :=
  (0 < n → kernbase ≤ toU32 (t.sz + n) ∨ toU32 (t.sz + n) < t.sz ∨
    (w.AloneOn p t ∧ npages (toU32 (t.sz + n)) ≤ heapTop)) ∧
  (n < 0 → t.sz ≤ toU32 (t.sz + n) ∨ (w.AloneOn p t ∧ toU32 (t.sz + n) ≠ 0))

section
variable {w w' : World} {p q z nt : ProcIdx} {t t' u : Thread} {s : PslIdx}

theorem slotUsed_congr (hl : t'.psl = t.psl) (hw : ∀ s, t.psl = some s → w'.psl s = w.psl s)
    (i : Nat) : w'.slotUsed t' i ↔ w.slotUsed t i := by
  unfold slotUsed
  rw [hl]
  cases h : t.psl with
  | none => exact Iff.rfl
  | some s => simp only [hw s h]

/-- A thread whose directory, size and slots did not change keeps its
layout. -/
theorem SizeInv.keep (h : SizeInv w) (ht : w.thread p = some t)
    (hm : w'.mem.mapped t.pgdir = w.mem.mapped t.pgdir)
    (hw : ∀ s, t.psl = some s → w'.psl s = w.psl s) :
    Layout (w'.mem.mapped t.pgdir) (npages t.sz) (w'.slotUsed t) := by
  rw [hm]
  exact (h.layout p t ht).congr fun i _ => slotUsed_congr rfl hw i

theorem SizeInv.of (h : SizeInv w)
    (hin : ∀ q u, w'.thread q = some u → w.thread q = some u)
    (hl : ∀ q u, w'.thread q = some u →
      Layout (w'.mem.mapped u.pgdir) (npages u.sz) (w'.slotUsed u)) : SizeInv w' := by
  refine ⟨hl, ?_, ?_⟩
  · intro q r t u ht hu
    exact h.same q r t u (hin q t ht) (hin r u hu)
  · intro q r t u s ht hu
    exact h.home q r t u s (hin q t ht) (hin r u hu)

theorem SizeInv.frame (h : SizeInv w) (ht : w'.thread = w.thread) (hp : w'.psl = w.psl)
    (hm : ∀ p t, w.thread p = some t → w'.mem.mapped t.pgdir = w.mem.mapped t.pgdir) :
    SizeInv w' := by
  refine h.of (fun q u hq => ht ▸ hq) fun q u hq => ?_
  rw [ht] at hq
  exact h.keep hq (hm q u hq) fun s _ => by rw [hp]

theorem SizeInv.unset (h : SizeInv w) : SizeInv (w.set p none) :=
  h.of (fun _ _ hq => (thread_of_unset hq).2) fun q u hq => h.layout q u (thread_of_unset hq).2

theorem SizeInv.put (h : SizeInv (w.set p none)) (hw : w'.thread = (w.set p (some t)).thread)
    (hdir : w.AloneOn p t)
    (hlist : ∀ q u s, q ≠ p → w.thread q = some u → u.psl = some s → t.psl ≠ some s)
    (hl : Layout (w'.mem.mapped t.pgdir) (npages t.sz) (w'.slotUsed t))
    (hkeep : ∀ q u, q ≠ p → w.thread q = some u →
      w'.mem.mapped u.pgdir = w.mem.mapped u.pgdir ∧ ∀ s, u.psl = some s → w'.psl s = w.psl s) :
    SizeInv w' := by
  have hold : ∀ q u, w'.thread q = some u →
      (q = p ∧ u = t) ∨ (q ≠ p ∧ w.thread q = some u) := fun q u hq => thread_of_set (hw ▸ hq)
  have hin : ∀ {q u}, q ≠ p → w.thread q = some u → (w.set p none).thread q = some u :=
    fun hne hq => (set_thread_eq_some ..).mpr (.inr ⟨hne, hq⟩)
  refine ⟨?_, ?_, ?_⟩
  · intro q u hq
    rcases hold q u hq with ⟨-, rfl⟩ | ⟨hne, hq⟩
    · exact hl
    · exact h.keep (hin hne hq) (hkeep q u hne hq).1 (hkeep q u hne hq).2
  · intro q r u v hq hr hd
    rcases hold q u hq with ⟨rfl, rfl⟩ | ⟨hne, h1⟩ <;>
      rcases hold r v hr with ⟨rfl, rfl⟩ | ⟨hne', h2⟩
    · rfl
    · exact absurd hd.symm (hdir r v hne' h2)
    · exact absurd hd (hdir q u hne h1)
    · exact h.same q r u v (hin hne h1) (hin hne' h2) hd
  · intro q r u v s hq hr hu hv
    rcases hold q u hq with ⟨rfl, rfl⟩ | ⟨hne, h1⟩ <;>
      rcases hold r v hr with ⟨rfl, rfl⟩ | ⟨hne', h2⟩
    · rfl
    · exact absurd hu (hlist r v s hne' h2 hv)
    · exact absurd hv (hlist q u s hne h1 hu)
    · exact h.home q r u v s (hin hne h1) (hin hne' h2) hu hv

theorem SizeInv.aloneList (h : SizeInv w) (ht : w.thread p = some t) (ha : w.AloneOn p t) :
    ∀ q u s, q ≠ p → w.thread q = some u → u.psl = some s → t.psl ≠ some s :=
  fun q u s hne hq hu hs => ha q u hne hq (h.home q p u t s hq ht hu hs)

theorem SizeInv.resize (h : SizeInv w) (ht : w.thread p = some t) (ha : w.AloneOn p t) {m : Maps}
    (hm : ∀ d, d ≠ t.pgdir → m.mapped d = w.mem.mapped d)
    (hl : Layout (m.mapped t.pgdir) (npages sz) (w.slotUsed t)) :
    SizeInv ((w.setMem m).set p (some { t with sz := sz })) := by
  have hlist := h.aloneList ht ha
  exact h.unset.put rfl ha hlist hl fun q u hne hq =>
    ⟨hm u.pgdir (ha q u hne hq), fun _ _ => rfl⟩

theorem SizeInv.free (h : SizeInv w) (ha : w.AloneOn z u) :
    SizeInv ((w.setMem (w.mem.free u.pgdir)).set z none) := by
  have hold : ∀ q v, ((w.setMem (w.mem.free u.pgdir)).set z none).thread q = some v →
      q ≠ z ∧ w.thread q = some v := fun _ _ => thread_of_unset
  refine h.of (fun q v hq => (hold q v hq).2) fun q v hq => ?_
  obtain ⟨hne, hq⟩ := hold q v hq
  exact h.keep hq (Maps.mapped_free_of_ne _ (ha q v hne hq)) fun s _ => rfl

theorem SizeInv.clear (hi : SlotInv w) (hd : DirInv w) (h : SizeInv w)
    (hz : w.thread z = some u) (hu : u.psl = some s) : SizeInv ((w.clear u).set z none) := by
  obtain ⟨j, hj, hj8, -⟩ := (hi s).slot z _ (owners_eq_some.mpr ⟨u, hz, hu, rfl⟩)
  have hmem : (w.clear u).mem = w.mem.cut u.pgdir (slot j) := by
    rw [World.clear, hu, hj, slotPages_eq hj8]
    rfl
  have hpsl : ∀ s', (w.clear u).psl s' = if s' = s then (w.psl s).clear j else w.psl s' := by
    intro s'
    rw [World.clear, hu, hj, setMem_psl, setPsl_psl]
  have hold : ∀ q v, ((w.clear u).set z none).thread q = some v → q ≠ z ∧ w.thread q = some v := by
    intro q v hq
    rw [← clear_thread w u]
    exact thread_of_unset hq
  refine h.of (fun q v hq => (hold q v hq).2) fun q v hq => ?_
  obtain ⟨hne, hq⟩ := hold q v hq
  by_cases hdv : v.pgdir = u.pgdir
  · -- a sibling: it is on the same list
    have hv : v.psl = some s := by
      rw [(hd.shared z q u v hne.symm hz hq hdv.symm).2, hu]
    rw [set_mem, hmem, hdv, Maps.mapped_cut_self, ← hdv]
    refine ((h.layout q v hq).clear hj8).congr fun i _ => ?_
    simp only [slotUsed, hv, set_psl, hpsl, if_pos, Psl.clear, Function.update_apply,
      Int.natCast_inj]
    by_cases hij : i = j
    · simp [hij]
    · simp [hij]
  · refine h.keep hq ?_ fun s' hs' => ?_
    · rw [set_mem, hmem, Maps.mapped_cut_of_ne _ _ hdv]
    · rw [set_psl, hpsl, if_neg]
      rintro rfl
      exact hdv (h.home q z v u _ hq hz hs' hu)

theorem SizeInv.waitReap (hi : SlotInv w) (hd : DirInv w) (h : SizeInv w)
    (hz : w.thread z = some u) : SizeInv (w.waitReap z u) := by
  cases hu : u.psl with
  | none =>
    rw [waitReap_of_none hu]
    exact h.free (hd.aloneOn hz hu)
  | some s =>
    rw [waitReap_of_some hu]
    exact h.clear hi hd hz hu

theorem SizeInv.forked (hd : DirInv w) (h : SizeInv w) (ht : w.thread p = some t) :
    SizeInv (w.forked q t) := by
  have hne : ∀ r v, w.thread r = some v → v.pgdir ≠ w.mem.nspace := fun r v hr =>
    Nat.ne_of_lt (hd.fresh r v hr)
  refine h.unset.put rfl (fun r v _ => hne r v) (fun _ _ _ _ _ _ hs => by cases hs) ?_ ?_
  · have htop : Vm.stackPage 0 = Kernel.slotLow 0 + 1 := stackPage_eq (i := 0) (by omega)
    show Layout ((w.mem.new.fill w.mem.nspace _).mapped w.mem.nspace) (npages t.sz) (· = 0)
    rw [Maps.mapped_fill_self, Maps.mapped_new_self, Set.empty_union, htop]
    exact .fresh (h.layout p t ht).below (Set.singleton_subset_iff.mpr (top_mem_slot 0)) rfl
  · intro r v _ hr
    refine ⟨?_, fun _ _ => rfl⟩
    have := hne r v hr
    simp [World.forked, Maps.mapped_fill_of_ne _ _ this, Maps.mapped_new_of_ne _ this]

theorem SizeInv.undone (hd : DirInv w) (h : SizeInv w) : SizeInv w.undone := by
  refine h.frame rfl rfl fun p t ht => ?_
  have hne := Nat.ne_of_lt (hd.fresh p t ht)
  simp [World.undone, Maps.mapped_free_of_ne _ hne, Maps.mapped_new_of_ne _ hne]

theorem SizeInv.claim (hi : SlotInv w) (hd : DirInv w) (h : SizeInv w) (ht : w.thread p = some t)
    (hpsl : t.psl = none) (hs : (w.psl s).state = .unused) : SizeInv (w.claim p t s) := by
  -- nobody was on the list
  have hfree : ∀ q u, w.thread q = some u → u.psl ≠ some s := by
    intro q u hq hu
    have := hi.used hq hu
    rw [hs] at this
    cases this
  have ha := hd.aloneOn ht hpsl
  refine h.unset.put rfl ha ?_ ?_ ?_
  · intro q u s' _ hq hu hs'
    exact hfree q u hq (hu.trans hs'.symm)
  · refine (h.layout p t ht).congr fun i _ => ?_
    have hz := (hi s).unused hs
    simp only [slotUsed, Thread.claimed, hpsl, claim_psl, if_pos, Function.update_apply]
    by_cases hi0 : i = 0
    · simp [hi0]
    · simp [hi0, hz]
  · intro q u _ hq
    refine ⟨rfl, fun s' hs' => ?_⟩
    rw [claim_psl, if_neg]
    rintro rfl
    exact hfree q u hq hs'

theorem SizeInv.count (h : SizeInv w) : SizeInv (w.count s) := by
  refine h.of (fun q u hq => hq) fun q u hq => ?_
  refine (h.layout q u hq).congr fun i _ => ?_
  unfold slotUsed
  cases u.psl with
  | none => exact Iff.rfl
  | some s' =>
    simp only [count_psl]
    split
    · next hs => rw [hs]
    · exact Iff.rfl

theorem SizeInv.stack (hd : DirInv w) (h : SizeInv w) (ht : w.thread p = some t)
    (hpsl : t.psl = some s) {i : Nat} (hi : i < 8) : SizeInv (w.stack s t.pgdir i) := by
  refine h.of (fun q u hq => hq) fun q u hq => ?_
  have hq' : w.thread q = some u := hq
  by_cases hdu : u.pgdir = t.pgdir
  · have hu : u.psl = some s := by
      by_cases hqp : p = q
      · subst hqp
        rw [ht] at hq'
        cases hq'
        exact hpsl
      · rw [(hd.shared p q t u hqp ht hq' hdu.symm).2, hpsl]
    rw [World.stack, setMem_mem, hdu, Maps.mapped_fill_self, ← hdu]
    refine ((h.layout q u hq').mark hi).congr fun j _ => ?_
    simp only [slotUsed, hu, setMem_psl, setPsl_psl_self, Function.update_apply, Int.natCast_inj]
    by_cases hji : j = i
    · simp [hji]
    · simp [hji]
  · refine h.keep hq' ?_ fun s' hs' => ?_
    · rw [World.stack, setMem_mem, Maps.mapped_fill_of_ne _ _ hdu]
    · rw [stack_psl, if_neg]
      rintro rfl
      exact hdu (h.home q p u t _ hq' ht hs' hpsl)

/-- Every thread has the directory, the list and the size of one that was
there before. -/
theorem SizeInv.copies (h : SizeInv w) (hm : w'.mem = w.mem) (hp : w'.psl = w.psl)
    (hold : ∀ q u, w'.thread q = some u →
      ∃ r v, w.thread r = some v ∧ u.pgdir = v.pgdir ∧ u.psl = v.psl ∧ u.sz = v.sz) :
    SizeInv w' := by
  refine ⟨?_, ?_, ?_⟩
  · intro q u hq
    obtain ⟨r, v, hr, hd, hl, hz⟩ := hold q u hq
    rw [hm, hd, hz]
    exact (h.layout r v hr).congr fun j _ => slotUsed_congr hl (fun s _ => by rw [hp]) j
  · intro q q' u u' hq hq' hdd
    obtain ⟨r, v, hr, hd, -, hz⟩ := hold q u hq
    obtain ⟨r', v', hr', hd', -, hz'⟩ := hold q' u' hq'
    rw [hd, hd'] at hdd
    rw [hz, hz']
    exact h.same r r' v v' hr hr' hdd
  · intro q q' u u' s hq hq' hu hu'
    obtain ⟨r, v, hr, hd, hl, -⟩ := hold q u hq
    obtain ⟨r', v', hr', hd', hl', -⟩ := hold q' u' hq'
    rw [hd, hd']
    exact h.home r r' v v' s hr hr' (hl ▸ hu) (hl' ▸ hu')

theorem SizeInv.copy (h : SizeInv w) (ht : w.thread p = some t) (hd : t'.pgdir = t.pgdir)
    (hl : t'.psl = t.psl) (hz : t'.sz = t.sz) : SizeInv (w.set q (some t')) := by
  refine h.copies rfl rfl fun r u hr => ?_
  rcases thread_of_set hr with ⟨-, rfl⟩ | ⟨-, hr⟩
  · exact ⟨p, t, ht, hd, hl, hz⟩
  · exact ⟨r, u, hr, rfl, rfl, rfl⟩

theorem SizeInv.spawned {i : Int} (h : SizeInv w) (ht : w.thread p = some t)
    (hs : Spawned w p t i w') : SizeInv w' := by
  cases hs with
  | none => exact h
  | thread nt _ => exact h.copy ht rfl rfl rfl

/-- A process alone on its directory and its list, in slot 0, loads a
program. -/
theorem SizeInv.exec (hd : DirInv w) (h : SizeInv (w.set p none)) (ht : w.thread p = some t)
    (ha : w.AloneOn p t)
    (hlist : ∀ q u s, q ≠ p → w.thread q = some u → u.psl = some s → t.psl ≠ some s)
    (hslot : ∀ i, i < 8 → (w.slotUsed t i ↔ i = 0)) (hb : npages sz ≤ heapTop) :
    SizeInv (w.exec p t sz) := by
  have hnew : ∀ q u, w.thread q = some u → u.pgdir ≠ w.mem.nspace := fun q u hq =>
    Nat.ne_of_lt (hd.fresh q u hq)
  refine h.put rfl (fun q u _ => hnew q u) hlist ?_ ?_
  · have hl : Layout (Set.Ico 0 (npages sz) ∪ slot 0) (npages sz) (· = 0) :=
      .fresh hb (Set.Subset.refl _) (top_mem_slot 0)
    have hm : (w.exec p t sz).mem.mapped w.mem.nspace = Set.Ico 0 (npages sz) ∪ slot 0 := by
      rw [World.exec, set_mem, setMem_mem, Maps.mapped_free_of_ne _ (hnew p t ht).symm,
        Maps.mapped_fill_self, Maps.mapped_new_self, Set.empty_union]
    show Layout ((w.exec p t sz).mem.mapped w.mem.nspace) (npages (pgroundup sz)) _
    rw [hm, npages_pgroundup]
    exact hl.congr fun i hi => hslot i hi
  · intro q u hne hq
    refine ⟨?_, fun _ _ => rfl⟩
    rw [World.exec, set_mem, setMem_mem, Maps.mapped_free_of_ne _ (ha q u hne hq),
      Maps.mapped_fill_of_ne _ _ (hnew q u hq), Maps.mapped_new_of_ne _ (hnew q u hq)]

/-- **One size per address space.** Every step keeps it, except an `exec`,
a `growproc` next to siblings or out of bounds, and a `KT_Create` without
a stack. -/
theorem SizeInv.step {fits : Nat → Nat → Prop} {op : Call} (hi : SlotInv w) (hd : DirInv w)
    (h : SizeInv w) (ht : w.thread p = some t) (hexec : ∀ f, op ≠ .exec f)
    (hgrow : ∀ n, op = .growproc n → w.GrowOk p t n)
    (hkt : ∀ fnc arg, op = .ktCreate fnc arg → fnc = 0 ∨ StackReady fits w t)
    (hstep : Step fits w p t op w') : SizeInv w' := by
  have hl := h.layout p t ht
  cases hstep with
  | stay => exact h
  | exit => exact h.copy ht rfl rfl rfl
  | wait z u hz _ => exact h.waitReap hi hd hz
  | ktJoin z u hz _ _ =>
    rw [joinReap_eq_waitReap hi hz]
    exact h.waitReap hi hd hz
  | fork np _ => exact h.forked hd ht
  | forkFailed => exact h.undone hd
  | grow n hn hle hlt =>
    rcases (hgrow n rfl).1 hn with hk | hk | ⟨ha, hb⟩
    · omega
    · omega
    · refine h.resize ht ha (fun d hne => Maps.mapped_fill_of_ne _ _ hne) ?_
      rw [Maps.mapped_fill_self]
      exact hl.grow (npages_mono hle) hb
  | growFailed n hn hle hlt =>
    rcases (hgrow n rfl).1 hn with hk | hk | ⟨ha, hb⟩
    · omega
    · omega
    · have hself : ∀ m, (w.setMem m).set p (some t) = w.setMem m := fun m => set_self _ _ _ ht
      rw [← hself]
      refine h.resize ht ha (fun d hne => Maps.mapped_cut_of_ne _ _ hne) ?_
      rw [Maps.mapped_cut_self]
      exact hl.cut_above hb
  | shrink n hn hlt hne =>
    rcases (hgrow n rfl).2 hn with hk | ⟨ha, -⟩
    · omega
    · refine h.resize ht ha (fun d hne => Maps.mapped_cut_of_ne _ _ hne) ?_
      rw [Maps.mapped_cut_self]
      exact hl.shrink (npages_mono (Nat.le_of_lt hlt))
  | shrinkFailed n hn hlt h0 =>
    rcases (hgrow n rfl).2 hn with hk | ⟨-, hne⟩
    · omega
    · exact absurd h0 hne
  | exec f sz => exact absurd rfl (hexec f)
  | execFailed f => exact absurd rfl (hexec f)
  | ktEmbryo fnc arg nt hf hpsl hno _ =>
    obtain ⟨⟨s, hs⟩, -⟩ := StackReady.first (hkt fnc arg rfl) hf hpsl
    exact absurd hs (hno s)
  | ktFirst _ _ s w' _ hpsl hs hsp =>
    have hself : (w.claim p t s).thread p = some (t.claimed s) := set_thread_self _ _ _
    have hst := (h.claim hi hd ht hpsl hs).stack (hd.claim ht hpsl) hself rfl (i := 1) (by omega)
    exact hst.spawned hself hsp
  | ktFirstBad fnc arg s hf hpsl _ hno =>
    exact absurd (StackReady.first (hkt fnc arg rfl) hf hpsl).2 hno
  | ktNext _ _ s i w' _ hpsl _ hf hsp =>
    have hdc : DirInv (w.count s) := hd.of (.of_eq rfl) rfl rfl
    have htc : (w.count s).thread p = some t := ht
    exact (h.count.stack hdc htc hpsl (findSlot_some hf).1).spawned htc hsp
  | ktNextBad fnc arg s i hf hpsl hc hs hno =>
    exact absurd (StackReady.next (hkt fnc arg rfl) hf hpsl hc hs) hno
  | ktNoSlot _ _ s w' _ hpsl hc hf _ => exact absurd hf (hi.findSlot_ne_none ht hpsl hc)

end

end World

/-! ## Runs -/

/-- The action is an `exec`. -/
def Act.execs : Act ncpu → Bool
  | .call _ (.exec _) => true
  | _ => false

namespace Kernel

/-- `growproc(n)` by `p` leaves the size, or `p` has no sibling and neither
takes the heap up to the stacks nor gives it up altogether. -/
def growOk (k : Kernel ncpu) (p : ProcIdx) (n : Int) : Bool :=
  let sz := (k.proc p).sz
  let newsz := toU32 (sz + n)
  if 0 < n then kernbase ≤ newsz || newsz < sz || (k.aloneOn p && npages newsz ≤ heapTop)
  else if n < 0 then sz ≤ newsz || (k.aloneOn p && newsz ≠ 0)
  else true

/-- The condition `growOk` on a `growproc`. -/
def growsOk (k : Kernel ncpu) : Act ncpu → Bool
  | .call c (.growproc n) =>
    match k.cpu c with
    | none => true
    | some p => k.growOk p n
  | _ => true

/-- Slot `i` belongs to a thread of the address space of `p`. -/
def slotUsed (k : Kernel ncpu) (p : ProcIdx) (i : Nat) : Prop :=
  match (k.proc p).psl with
  | none => i = 0
  | some s => (k.psl s).stackz i = true

/-- `init` is running: `exec` gave `initproc`, still the only process, a
program that leaves room for the stacks. -/
inductive Started : Kernel ncpu → Prop
  | exec {k₀ k₁ k : Kernel ncpu} {tr : List (Kernel ncpu × Act ncpu)} {c : Fin ncpu}
      {f : ExecFile} : Boot k₀ → Run next k₀ tr k₁ →
      Meets (fun k a => k.execAlone a = true ∧ k.ktReady a = true) tr →
      (∀ p, p ≠ initproc → (k₁.proc p).state = .unused) → (k₁.proc initproc).psl = none →
      k₁.next (.call c (.exec f)) = some k →
      (k.proc initproc).pgdir ≠ (k₁.proc initproc).pgdir →
      npages (k.proc initproc).sz ≤ heapTop → Started k

section
variable {k k' k₀ : Kernel ncpu} {p : ProcIdx} {t : Thread} {a : Act ncpu}

theorem growOk_world {op : Call} (hcpu : k.cpu c = some p) (ht : k.world.thread p = some t)
    (h : k.growsOk (.call c op) = true) : ∀ n, op = .growproc n → k.world.GrowOk p t n := by
  rintro n rfl
  obtain ⟨-, hsz, -⟩ := world_thread_eq_some.mp ht
  simp only [growsOk, hcpu, growOk, hsz] at h
  constructor
  · intro hn
    rw [if_pos hn] at h
    simp only [Bool.or_eq_true, Bool.and_eq_true, decide_eq_true_eq, or_assoc] at h
    exact h.imp id (Or.imp id (And.imp (aloneOn_world ht) id))
  · intro hn
    rw [if_neg (by omega), if_pos hn] at h
    simp only [Bool.or_eq_true, Bool.and_eq_true, decide_eq_true_eq] at h
    exact h.imp id (And.imp (aloneOn_world ht) id)

/-- What the runs of this section keep. -/
structure Laid (k : Kernel ncpu) : Prop extends Kept k where
  dirs : k.world.DirInv
  sizes : k.world.SizeInv

theorem Laid.next (h : Laid k) (hx : a.execs = false) (hg : k.growsOk a = true)
    (hkt : k.ktReady a = true) (hn : k.next a = some k') : Laid k' := by
  have hxa : k.execAlone a = true := by
    unfold execAlone
    split
    · cases hx
    · rfl
  refine ⟨h.toKept.step hn, DirInv.next h.toKept h.dirs hxa hkt hn, ?_⟩
  cases h.toSound.refined hn with
  | same _ hw =>
    rw [hw]
    exact h.sizes
  | call c p t op hcpu ht _ hstep =>
    refine h.sizes.step h.slots h.dirs ht ?_ (growOk_world hcpu ht hg)
      (ktReady_world hcpu ht hkt) hstep
    rintro f rfl
    cases hx

theorem Started.laid (h : Started k) : Laid k := by
  obtain ⟨h0, hr, hok, honly, hpsl, hn, hne, hb⟩ := h
  next k₀ k₁ tr c f =>
    obtain ⟨hk, hd⟩ := dirInv_run h0 hr hok
    have honly' : ∀ q u, k₁.world.thread q = some u → q = initproc := by
      intro q u hq
      by_contra hqi
      exact state_ne_unused hq (honly q hqi)
    cases stepped_of_next hn with
    | call _ p _ hcpu _ hp =>
      obtain ⟨t, ht, hl⟩ := caller hk.sched hk.clean hcpu
      obtain rfl := honly' p t ht
      obtain ⟨-, hstep⟩ := perform_refines hk.clean ht hl hp
      have hd' : k.world.DirInv := by
        refine hd.step hk.slots ht (fun _ _ q u hq hu => ?_) (fun _ _ h => by cases h) hstep
        exact absurd (honly' q u hu) hq
      refine ⟨hk.step hn, hd', ?_⟩
      -- a call that leaves `initproc` on its directory failed
      have hmoved : k.world.thread initproc ≠ some t := by
        intro ht'
        obtain ⟨-, -, h1, -⟩ := world_thread_eq_some.mp ht
        obtain ⟨-, -, h2, -⟩ := world_thread_eq_some.mp ht'
        exact hne (h2.trans h1.symm)
      generalize hw : k.world = w' at hstep hmoved
      cases hstep with
      | stay => exact absurd ht hmoved
      | execFailed => exact absurd ht hmoved
      | exec _ sz =>
        have ht' : k.world.thread initproc = some { t with
            pgdir := k₁.world.mem.nspace, sz := pgroundup sz } := by
          rw [hw]
          exact World.set_thread_self _ _ _
        obtain ⟨-, hsz, -⟩ := world_thread_eq_some.mp ht'
        obtain ⟨-, -, -, -, hl', -⟩ := world_thread_eq_some.mp ht
        -- without `initproc` there is no thread at all
        have hnone : ∀ q u, (k₁.world.set initproc none).thread q ≠ some u := fun q u hq =>
          (World.thread_of_unset hq).1 (honly' q u (World.thread_of_unset hq).2)
        have hempty : (k₁.world.set initproc none).SizeInv :=
          ⟨fun q u hq => absurd hq (hnone q u), fun q _ u _ hq => absurd hq (hnone q u),
            fun q _ u _ _ hq => absurd hq (hnone q u)⟩
        refine hempty.exec hd ht (fun q u hne hq => absurd (honly' q u hq) hne)
          (fun q u _ hne hq => absurd (honly' q u hq) hne)
          (fun i _ => by simp only [World.slotUsed, hl'.symm.trans hpsl]) ?_
        rw [hsz, npages_pgroundup] at hb
        exact hb

theorem laid_run {tr : List (Kernel ncpu × Act ncpu)} (h0 : Started k₀) (hr : Run next k₀ tr k)
    (hok : Meets (fun k a => a.execs = false ∧ k.growsOk a = true ∧ k.ktReady a = true) tr) :
    Laid k :=
  Run.invariant h0.laid (fun _ _ _ h ha hn => h.next ha.1 ha.2.1 ha.2.2 hn) hr hok

/-! ## No panic in `growproc` and `fork` -/

theorem switchuvm_error {q : Proc} (h : switchuvm q = .error msg) :
    msg = "switchuvm: no kstack" ∨ msg = "switchuvm: no pgdir" := by
  unfold switchuvm at h
  split at h
  · cases h
    exact .inl rfl
  · split at h
    · cases h
      exact .inr rfl
    · cases h

theorem growFinish_error (h : k.growFinish p sz = .error msg) : msg ≠ "remap" := by
  unfold growFinish at h
  split at h
  · next e hs =>
    cases h
    rcases switchuvm_error hs with rfl | rfl <;> decide
  · cases h

/-- `growproc` maps no page twice, as long as the heap stays below the
stacks. -/
theorem growproc_error {n : Int} (h : Laid k) (hcpu : k.cpu c = some p)
    (hn : n ≤ 0 ∨ kernbase ≤ toU32 ((k.proc p).sz + n) ∨
      npages (toU32 ((k.proc p).sz + n)) ≤ heapTop) (he : k.growproc p n = .error msg) :
    msg ≠ "remap" := by
  obtain ⟨t, ht, -⟩ := caller h.sched h.clean hcpu
  obtain ⟨-, hsz, hd, -⟩ := world_thread_eq_some.mp ht
  have hlay := h.sizes.layout p t ht
  unfold growproc at he
  simp only [hd] at he
  split at he
  · split at he
    · next hpos _ e ha =>
      -- the page would be a stack page, and the heap ends below them
      obtain ⟨-, hk, x, hx, hmap⟩ := Vm.allocuvm_error ha
      rw [hsz] at hx hn hk
      rcases hlay.only x hmap with hlt | ⟨i, hi, -, hslot⟩
      · exact absurd hx.1 (Nat.not_le_of_lt hlt)
      · have hge := heapTop_le_of_mem_slot hi hslot
        have hlt := hx.2
        omega
    · cases he
    · exact growFinish_error he
  · split at he
    · split at he
      · cases he
      · exact growFinish_error he
    · exact growFinish_error he

theorem dupFiles_error {np : ProcIdx} (h : k.dupFiles p np = .error msg) : msg = "filedup" := by
  refine foldlM_error (P := fun e => e = "filedup") (fun k fd e he => ?_) _ h
  split at he
  · cases he
  · split at he
    · next e' hf =>
      cases he
      unfold filedup at hf
      split at hf
      · cases hf
        rfl
      · cases hf
    · cases he

theorem freeKstack_error (h : k.freeKstack p = .error msg) : msg = "kfree" := by
  unfold freeKstack at h
  split at h
  · cases h
    rfl
  · cases h

theorem stackPage_mapped (h : Laid k) (ht : k.world.thread p = some t) :
    Vm.stackPage (if t.psl = none then 0 else t.slindex) ∈ k.vm.maps.mapped t.pgdir := by
  have hlay := h.sizes.layout p t ht
  cases hpsl : t.psl with
  | none =>
    have htop := hlay.top 0 (by omega) (by simp [World.slotUsed, hpsl])
    rw [if_pos rfl]
    exact (stackPage_eq (i := 0) (by omega)).symm ▸ htop
  | some s =>
    obtain ⟨i, hi, hi8, hz⟩ := (h.slots s).slot p _ (World.owners_eq_some.mpr ⟨t, ht, hpsl, rfl⟩)
    have htop := hlay.top i hi8 (by simpa only [World.slotUsed, hpsl] using hz)
    rw [if_neg (by simp), hi, stackPage_eq hi8]
    exact htop

/-- **`fork` finds every page it copies**: it panics neither in `copyuvm`
nor in `mappages`. -/
theorem fork_error (h : Laid k) (hcpu : k.cpu c = some p) (he : k.fork p = .error msg) :
    msg = "kfree" ∨ msg = "filedup" := by
  obtain ⟨t, ht, -⟩ := caller h.sched h.clean hcpu
  obtain ⟨-, hsz, hd, -, hl, hsl⟩ := world_thread_eq_some.mp ht
  have hlay := h.sizes.layout p t ht
  unfold fork at he
  split at he
  · cases he
  rename_i np k1 ha
  have hne : p ≠ np := by
    rintro rfl
    exact state_ne_unused ht (allocproc_allocs ha).unused
  obtain ⟨hothers, hmaps⟩ : k1.proc p = k.proc p ∧ k1.vm.maps = k.vm.maps := by
    cases allocproc_allocs ha with
    | taken _ hk => exact ⟨by rw [setProc_proc, if_neg hne], (Vm.kalloc_eq hk).2.1⟩
  simp only [hothers, hd, hsz, hl, hsl] at he
  split at he
  · next e hcp =>
    have hns : t.pgdir < k1.vm.nspace := by
      have hn : k1.vm.nspace = k.vm.nspace := congrArg Maps.nspace hmaps
      rw [hn]
      exact h.dated.fresh p t ht
    rcases Vm.copyuvm_error hns hcp with ⟨x, hx, hnot⟩ | hnot | hlt
    · rw [hmaps] at hnot
      exact absurd (hlay.heap x hx) hnot
    · rw [hmaps] at hnot
      exact absurd (stackPage_mapped h ht) hnot
    · have htop : Vm.stackPage 0 = slotLow 0 + 1 := stackPage_eq (i := 0) (by omega)
      rw [htop] at hlt
      have hge := heapTop_le_of_mem_slot (by omega) (top_mem_slot 0)
      have hb := hlay.below
      omega
  · split at he
    · next e hf =>
      cases he
      exact .inl (freeKstack_error hf)
    · cases he
  · unfold forkFinish at he
    simp only at he
    split at he
    · next e hf =>
      cases he
      exact .inr (dupFiles_error hf)
    · cases he

/-- **One size per address space.** In a run from the start of `init`,
without `exec`, in which only a process without siblings changes its size
(within the heap area, and not to 0) and `KT_Create` gets its stacks: the
processes that share a page table have one size; a page table maps the
pages below it and the stack slots in use; `growproc` below the stacks
never maps a page twice, and `fork` finds every page it copies. -/
theorem one_size_per_space {tr : List (Kernel ncpu × Act ncpu)} (h0 : Started k₀)
    (hr : Run next k₀ tr k)
    (hok : Meets (fun k a => a.execs = false ∧ k.growsOk a = true ∧ k.ktReady a = true) tr) :
    (∀ p q, (k.proc p).state ≠ .unused → (k.proc q).state ≠ .unused →
      (k.proc p).pgdir = (k.proc q).pgdir → (k.proc p).sz = (k.proc q).sz) ∧
    (∀ p d, (k.proc p).state ≠ .unused → (k.proc p).pgdir = some d →
      Layout (k.vm.maps.mapped d) (npages (k.proc p).sz) (k.slotUsed p)) ∧
    (∀ c p n, k.cpu c = some p →
      n ≤ 0 ∨ kernbase ≤ toU32 ((k.proc p).sz + n) ∨
        npages (toU32 ((k.proc p).sz + n)) ≤ heapTop →
      k.growproc p n ≠ .error "remap") ∧
    (∀ c p, k.cpu c = some p → k.fork p ≠ .error "copyuvm: pte should exist" ∧
      k.fork p ≠ .error "copyuvm: page not present" ∧ k.fork p ≠ .error "remap") := by
  have h := laid_run h0 hr hok
  refine ⟨?_, ?_, ?_, ?_⟩
  · intro p q hp hq hd
    obtain ⟨t, ht⟩ := exists_thread h.clean hp
    obtain ⟨u, hu⟩ := exists_thread h.clean hq
    obtain ⟨-, hszp, hdp, -⟩ := world_thread_eq_some.mp ht
    obtain ⟨-, hszq, hdq, -⟩ := world_thread_eq_some.mp hu
    rw [hdp, hdq] at hd
    rw [hszp, hszq]
    exact h.sizes.same p q t u ht hu (Option.some.inj hd)
  · intro p d hp hd
    obtain ⟨t, ht⟩ := exists_thread h.clean hp
    obtain ⟨-, hsz, hdp, -, hl, -⟩ := world_thread_eq_some.mp ht
    rw [hd] at hdp
    rw [Option.some.inj hdp, hsz]
    refine (h.sizes.layout p t ht).congr fun i _ => ?_
    unfold slotUsed World.slotUsed
    rw [hl]
    rfl
  · intro c p n hcpu hn he
    exact growproc_error h hcpu hn he rfl
  · intro c p hcpu
    have hne : ∀ {msg : String}, msg ≠ "kfree" → msg ≠ "filedup" → k.fork p ≠ .error msg := by
      intro msg h1 h2 he
      rcases fork_error h hcpu he with h | h
      · exact h1 h
      · exact h2 h
    exact ⟨hne (by decide) (by decide), hne (by decide) (by decide), hne (by decide) (by decide)⟩

end

/-- `initproc` has just been scheduled for the first time. -/
def initScheduled : List (Kernel 1 × Act 1) × Kernel 1 :=
  (follow next processMachine [.schedule 0 0]).get (by decide +kernel)

/-- And has loaded a program of one page. -/
def initLoaded : Kernel 1 :=
  (initScheduled.2.next (.call 0 (.exec onePage))).get (by decide +kernel)

theorem started_initLoaded : Started initLoaded := by
  have hr : Run next processMachine initScheduled.1 initScheduled.2 := run_get _
  have h : Meets (fun k a => k.execAlone a = true ∧ k.ktReady a = true) initScheduled.1 ∧
      (∀ p, p ≠ initproc → (initScheduled.2.proc p).state = .unused) ∧
      (initScheduled.2.proc initproc).psl = none ∧
      (initLoaded.proc initproc).pgdir ≠ (initScheduled.2.proc initproc).pgdir ∧
      npages (initLoaded.proc initproc).sz ≤ heapTop := by
    decide +kernel
  exact .exec boot_processMachine hr h.1 h.2.1 h.2.2.1 (Option.some_get _).symm h.2.2.2.1 h.2.2.2.2

/-- `initproc` grows by a page, then starts a thread and forks. -/
def grownThenForked : List (Kernel 1 × Act 1) × Kernel 1 :=
  (follow next initLoaded
    [.call 0 (.growproc 4096), .call 0 (.ktCreate pgsize 0), .call 0 .fork]).get (by decide +kernel)

theorem one_size_per_space_grownThenForked :
    Meets (fun k a => a.execs = false ∧ k.growsOk a = true ∧ k.ktReady a = true)
      grownThenForked.1 ∧
    (grownThenForked.2.proc 0).pgdir = (grownThenForked.2.proc 1).pgdir ∧
    (grownThenForked.2.proc 0).sz = (grownThenForked.2.proc 1).sz ∧
    grownThenForked.2.growproc 0 4096 ≠ .error "remap" := by
  have hr : Run next initLoaded grownThenForked.1 grownThenForked.2 := run_get _
  have hfacts : Meets (fun k a => a.execs = false ∧ k.growsOk a = true ∧ k.ktReady a = true)
        grownThenForked.1 ∧
      (grownThenForked.2.proc 0).pgdir = (grownThenForked.2.proc 1).pgdir ∧
      (grownThenForked.2.proc 0).state ≠ .unused ∧ (grownThenForked.2.proc 1).state ≠ .unused ∧
      grownThenForked.2.cpu 0 = some 0 ∧
      npages (toU32 ((grownThenForked.2.proc 0).sz + 4096)) ≤ heapTop := by
    decide +kernel
  obtain ⟨hok, hd, h0, h1, hcpu, htop⟩ := hfacts
  obtain ⟨hsame, -, hgrow, -⟩ := one_size_per_space started_initLoaded hr hok
  exact ⟨hok, hd, hsame 0 1 h0 h1 hd, hgrow 0 0 4096 hcpu (.inr (.inr htop))⟩

/-- `initproc` starts a thread, grows and lets the thread run. -/
def grownBesideThread : List (Kernel 1 × Act 1) × Kernel 1 :=
  (follow next initLoaded
    [.call 0 (.ktCreate pgsize 0), .call 0 (.growproc 4096), .call 0 .yield,
      .schedule 0 1]).get (by decide +kernel)

/-- `initproc` grows, starts a thread, shrinks and lets the thread run. -/
def shrunkBesideThread : List (Kernel 1 × Act 1) × Kernel 1 :=
  (follow next initLoaded
    [.call 0 (.growproc 4096), .call 0 (.ktCreate pgsize 0), .call 0 (.growproc (-4096)),
      .call 0 .yield, .schedule 0 1]).get (by decide +kernel)

/-- `initproc` gives up its whole heap. -/
def shrunkToZero : List (Kernel 1 × Act 1) × Kernel 1 :=
  (follow next initLoaded [.call 0 (.growproc (-4096))]).get (by decide +kernel)

/-- A thread whose sibling grew has the old size, and panics when it grows;
one whose sibling shrank panics when it forks; and so does a process that
shrank to 0, which fails and leaves `sz`. -/
theorem sizes_differ : Started initLoaded ∧
    (Run next initLoaded grownBesideThread.1 grownBesideThread.2 ∧
      (grownBesideThread.2.proc 0).state ≠ .unused ∧ (grownBesideThread.2.proc 1).state ≠ .unused ∧
      (grownBesideThread.2.proc 0).pgdir = (grownBesideThread.2.proc 1).pgdir ∧
      (grownBesideThread.2.proc 0).sz ≠ (grownBesideThread.2.proc 1).sz ∧
      grownBesideThread.2.cpu 0 = some 1 ∧
      grownBesideThread.2.growproc 1 4096 = .error "remap") ∧
    (Run next initLoaded shrunkBesideThread.1 shrunkBesideThread.2 ∧
      shrunkBesideThread.2.cpu 0 = some 1 ∧
      shrunkBesideThread.2.fork 1 = .error "copyuvm: page not present") ∧
    (Run next initLoaded shrunkToZero.1 shrunkToZero.2 ∧ shrunkToZero.2.cpu 0 = some 0 ∧
      shrunkToZero.2.fork 0 = .error "copyuvm: page not present") := by
  refine ⟨started_initLoaded, ⟨run_get _, ?_⟩, ⟨run_get _, ?_⟩, run_get _, ?_⟩ <;> decide +kernel

end Kernel

end Xv6.Kern
