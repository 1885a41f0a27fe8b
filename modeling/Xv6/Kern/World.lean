/-
Xv6.Kern.World — threads and address spaces, as an abstract machine.

A `World` says which process-table entries are in use, which address
space and stack slot each of them has, what the stack lists record, and
which pages every address space maps. `Step` is what one system call can
do to it. There are no CPUs, no free list and no page tables: whether the
allocator can give out a stack is the parameter `fits`, and a call that
depends on the rest of the kernel has several outcomes.

`Xv6.Kern.Refine` shows that every action of the kernel is such a step.
-/
import Xv6.Kern.Step

namespace Xv6.Kern

open Xv6.Mem Function

variable {i : Nat}

/-! ## Stack slots -/

/-- The two pages of stack slot `i`. -/
def slot (i : Nat) : Set Nat := Set.Ico (Kernel.slotLow i) (Kernel.slotLow i + 2)

/-- The pages `clear_psl` unmaps for a thread with that `slindex`. -/
def slotPages (slindex : Int) : Set Nat :=
  Set.Ico (npages (toU32 (stackbottom - 2 * pgsize - slindex * 2 * pgsize)))
    (npages (toU32 (stackbottom - slindex * 2 * pgsize)))

/-- The first page no heap may reach: the bottom of slot 7. -/
def heapTop : Nat := Kernel.slotLow 7

theorem slotLow_eq (i : Nat) : Kernel.slotLow i = 524287 - 2 * (i + 1) := by
  have h : stackbottom / pgsize = 524287 := by decide
  rw [Kernel.slotLow, h]

theorem slotPages_eq (h : i < 8) : slotPages i = slot i := by
  have h1 : toU32 (stackbottom - 2 * pgsize - (i : Int) * 2 * pgsize)
      = Kernel.slotLow i * pgsize := by
    rw [slotLow_eq, stackbottom_eq]
    simp only [toU32, pgsize]
    omega
  have h2 : toU32 (stackbottom - (i : Int) * 2 * pgsize) = (Kernel.slotLow i + 2) * pgsize := by
    rw [slotLow_eq, stackbottom_eq]
    simp only [toU32, pgsize]
    omega
  rw [slotPages, h1, h2, npages_mul_pgsize, npages_mul_pgsize]
  rfl

theorem stackPage_eq (h : i < 8) : Vm.stackPage i = Kernel.slotLow i + 1 := by
  rw [Vm.stackPage, slotLow_eq, stackbottom_eq]
  simp only [toU32, pgsize]
  omega

theorem slot_inj {j x : Nat} (hi : i < 8) (hj : j < 8) (hx : x ∈ slot i) (hx' : x ∈ slot j) :
    i = j := by
  simp only [slot, slotLow_eq, Set.mem_Ico] at hx hx'
  omega

theorem low_mem_slot (i : Nat) : Kernel.slotLow i ∈ slot i := by
  simp [slot]

theorem heapTop_le_of_mem_slot {x : Nat} (hi : i < 8) (hx : x ∈ slot i) : heapTop ≤ x := by
  simp only [slot, heapTop, slotLow_eq, Set.mem_Ico] at hx ⊢
  omega

theorem findSlot_some {l : Psl} (h : Kernel.findSlot l = some i) : i < 8 ∧ l.stackz i = false := by
  refine ⟨List.mem_range.mp (List.mem_of_find?_eq_some h), ?_⟩
  simpa using List.find?_some h

theorem findSlot_none {l : Psl} (h : Kernel.findSlot l = none) (hi : i < 8) :
    l.stackz i = true := by
  have := List.find?_eq_none.mp h i (List.mem_range.mpr hi)
  simpa using this

/-! ## Threads -/

/-- Where an entry in use is in its life: `EMBRYO`, `ZOMBIE`, or between. -/
inductive Life where
  | embryo | live | zombie
  deriving DecidableEq

structure Thread where
  life : Life
  sz : Nat
  pgdir : Nat
  pthread : Option ProcIdx
  psl : Option PslIdx
  slindex : Int

/-- A process that got a stack list: it owns slot 0. -/
def Thread.claimed (t : Thread) (s : PslIdx) : Thread :=
  { t with psl := some s, slindex := 0 }

/-- The child of a `fork`, in directory `d`. -/
def Thread.child (t : Thread) (d : Nat) : Thread where
  life := .live
  sz := t.sz
  pgdir := d
  pthread := none
  psl := none
  slindex := 0

/-- The stack list after `clear_psl`. -/
def Psl.clear (l : Psl) (slindex : Int) : Psl where
  stackz := update l.stackz slindex false
  threadCount := l.threadCount - 1
  state := if l.threadCount - 1 = 0 then .unused else l.state

/-- Entries in use, stack lists and address spaces. -/
structure World where
  thread : ProcIdx → Option Thread
  psl : PslIdx → Psl
  mem : Maps

namespace World

@[simps -fullyApplied psl mem]
def set (w : World) (p : ProcIdx) (t : Option Thread) : World :=
  { w with thread := update w.thread p t }

@[simps -fullyApplied thread]
def setPsl (w : World) (s : PslIdx) (l : Psl) : World :=
  { w with psl := update w.psl s l }

@[simps -fullyApplied thread psl mem]
def setMem (w : World) (m : Maps) : World := { w with mem := m }

section
variable (w : World) (p q : ProcIdx) (t : Option Thread) (s s' : PslIdx) (l : Psl) (m : Maps)

theorem set_thread : (w.set p t).thread q = if q = p then t else w.thread q := by
  simp [set, update_apply]

theorem set_thread_eq_some {u : Thread} : (w.set p t).thread q = some u ↔
    (q = p ∧ t = some u) ∨ (q ≠ p ∧ w.thread q = some u) := by
  rw [set_thread]
  split
  · next h => simp [h]
  · next h => simp [h]

theorem set_self (h : w.thread p = t) : w.set p t = w := by
  simp [set, ← h]

@[simp] theorem set_set (t' : Option Thread) : (w.set p t).set p t' = w.set p t' := by
  simp [set]

@[simp] theorem set_thread_self : (w.set p t).thread p = t := by simp [set]

theorem setPsl_psl : (w.setPsl s l).psl s' = if s' = s then l else w.psl s' := by
  simp [setPsl, update_apply]

@[simp] theorem setPsl_psl_self : (w.setPsl s l).psl s = l := by simp [setPsl]

end

section
variable {w : World} {p q : ProcIdx} {t u : Thread}

theorem thread_of_set (h : (w.set p (some t)).thread q = some u) :
    (q = p ∧ u = t) ∨ (q ≠ p ∧ w.thread q = some u) := by
  rcases (set_thread_eq_some ..).mp h with ⟨hq, ht⟩ | hq
  · exact .inl ⟨hq, (Option.some.inj ht).symm⟩
  · exact .inr hq

theorem thread_of_unset (h : (w.set p none).thread q = some u) : q ≠ p ∧ w.thread q = some u := by
  rcases (set_thread_eq_some ..).mp h with ⟨-, hn⟩ | hq
  · cases hn
  · exact hq

end

/-! ## What calls do -/

/-- `clear_psl` of a thread, if it has a stack list. -/
def clear (w : World) (t : Thread) : World :=
  match t.psl with
  | none => w
  | some s =>
    (w.setPsl s ((w.psl s).clear t.slindex)).setMem
      (w.mem.cut t.pgdir (slotPages t.slindex))

/-- `wait` reaps entry `z`. -/
def waitReap (w : World) (z : ProcIdx) (t : Thread) : World :=
  (match t.psl with
    | none => w.setMem (w.mem.free t.pgdir)
    | some _ => w.clear t).set z none

/-- The test of `KT_Join` before it frees the page table. -/
def lastOfPsl (w : World) (t : Thread) : Bool :=
  match t.psl with
  | none => true
  | some s => (w.psl s).threadCount = 0

/-- `KT_Join` reaps entry `z`. -/
def joinReap (w : World) (z : ProcIdx) (t : Thread) : World :=
  ((if w.lastOfPsl t then w.setMem (w.mem.free t.pgdir) else w).clear t).set z none

/-- A directory was made and given up again. -/
def undone (w : World) : World := w.setMem (w.mem.new.free w.mem.nspace)

def forked (w : World) (np : ProcIdx) (t : Thread) : World :=
  (w.setMem (w.mem.new.fill w.mem.nspace (Set.Ico 0 (npages t.sz) ∪ {Vm.stackPage 0}))).set np
    (some (t.child w.mem.nspace))

def grow (w : World) (p : ProcIdx) (t : Thread) (sz : Nat) : World :=
  (w.setMem (w.mem.fill t.pgdir (Set.Ico (npages t.sz) (npages sz)))).set p
    (some { t with sz := sz })

def shrink (w : World) (p : ProcIdx) (t : Thread) (sz : Nat) : World :=
  (w.setMem (w.mem.cut t.pgdir (Set.Ico (npages sz) (npages t.sz)))).set p
    (some { t with sz := sz })

/-- `exec` of a program of `sz` bytes. -/
def exec (w : World) (p : ProcIdx) (t : Thread) (sz : Nat) : World :=
  (w.setMem ((w.mem.new.fill w.mem.nspace (Set.Ico 0 (npages sz) ∪ slot 0)).free t.pgdir)).set p
    (some { t with pgdir := w.mem.nspace, sz := pgroundup sz })

/-- `KT_Create` by a process without a stack list takes list `s`. -/
def claim (w : World) (p : ProcIdx) (t : Thread) (s : PslIdx) : World :=
  (w.setPsl s
    { stackz := update (w.psl s).stackz 0 true, threadCount := 2, state := .used }).set p
    (some (t.claimed s))

/-- `KT_Create` by a process with stack list `s` counts its thread. -/
def count (w : World) (s : PslIdx) : World :=
  w.setPsl s { w.psl s with threadCount := (w.psl s).threadCount + 1 }

/-- The stack of slot `i` is mapped in directory `d` and marked in `s`. -/
def stack (w : World) (s : PslIdx) (d i : Nat) : World :=
  (w.setPsl s { w.psl s with stackz := update (w.psl s).stackz i true }).setMem
    (w.mem.fill d (slot i))

/-- `clone` by process `p`, which is `t`, into entry `nt`. -/
def spawn (w : World) (p : ProcIdx) (t : Thread) (nt : ProcIdx) (slindex : Int) (l : Life) :
    World :=
  w.set nt (some { t with life := l, pthread := some p, slindex := slindex })

/-- `clone` once the stack is there: it finds an entry and a kernel stack,
or it does nothing. -/
inductive Spawned (w : World) (p : ProcIdx) (t : Thread) (slindex : Int) : World → Prop
  | none : Spawned w p t slindex w
  | thread (nt : ProcIdx) : w.thread nt = none →
      Spawned w p t slindex (w.spawn p t nt slindex .live)

def Created (w w' : World) : Prop :=
  ∃ nt u, w.thread nt = none ∧ w'.thread nt = some u ∧ u.life = .live

/-- What a call by process `p`, which is thread `t`, can do. `fits d i`
says that the allocator can provide the stack of slot `i` in directory
`d`. -/
inductive Step (fits : Nat → Nat → Prop) (w : World) (p : ProcIdx) (t : Thread) :
    Call → World → Prop
  /-- Refused, or nothing to do with threads. -/
  | stay (op : Call) : Step fits w p t op w
  | exit : p ≠ initproc → Step fits w p t .exit (w.set p (some { t with life := .zombie }))
  | wait (z : ProcIdx) (u : Thread) : w.thread z = some u → u.life = .zombie →
      Step fits w p t .wait (w.waitReap z u)
  | ktJoin (z : ProcIdx) (u : Thread) : w.thread z = some u → u.life = .zombie →
      u.pthread = some p → Step fits w p t .ktJoin (w.joinReap z u)
  | fork (np : ProcIdx) : w.thread np = none → Step fits w p t .fork (w.forked np t)
  | forkFailed : Step fits w p t .fork w.undone
  | grow (n : Int) : 0 < n → t.sz ≤ toU32 (t.sz + n) → toU32 (t.sz + n) < kernbase →
      Step fits w p t (.growproc n) (w.grow p t (toU32 (t.sz + n)))
  | growFailed (n : Int) : 0 < n → t.sz ≤ toU32 (t.sz + n) → toU32 (t.sz + n) < kernbase →
      Step fits w p t (.growproc n) (w.setMem
        (w.mem.cut t.pgdir (Set.Ico (npages t.sz) (npages (toU32 (t.sz + n))))))
  | shrink (n : Int) : n < 0 → toU32 (t.sz + n) < t.sz → toU32 (t.sz + n) ≠ 0 →
      Step fits w p t (.growproc n) (w.shrink p t (toU32 (t.sz + n)))
  /-- Shrinking to 0 fails after the pages are gone. -/
  | shrinkFailed (n : Int) : n < 0 → toU32 (t.sz + n) < t.sz → toU32 (t.sz + n) = 0 →
      Step fits w p t (.growproc n) (w.setMem
        (w.mem.cut t.pgdir (Set.Ico 0 (npages t.sz))))
  | exec (f : Kernel.ExecFile) (sz : Nat) : Step fits w p t (.exec f) (w.exec p t sz)
  | execFailed (f : Kernel.ExecFile) : Step fits w p t (.exec f) w.undone
  /-- No stack list is free: `clone` fails after it filled the entry. -/
  | ktEmbryo (fnc arg : Nat) (nt : ProcIdx) : fnc ≠ 0 → t.psl = none →
      (∀ s, (w.psl s).state ≠ .unused) → w.thread nt = none →
      Step fits w p t (.ktCreate fnc arg) (w.spawn p t nt (-1) .embryo)
  | ktFirst (fnc arg : Nat) (s : PslIdx) (w' : World) : fnc ≠ 0 → t.psl = none →
      (w.psl s).state = .unused →
      Spawned ((w.claim p t s).stack s t.pgdir 1) p (t.claimed s) 1 w' →
      Step fits w p t (.ktCreate fnc arg) w'
  | ktFirstBad (fnc arg : Nat) (s : PslIdx) : fnc ≠ 0 → t.psl = none →
      (w.psl s).state = .unused → ¬ fits t.pgdir 1 →
      Step fits w p t (.ktCreate fnc arg) ((w.claim p t s).setMem (w.mem.free t.pgdir))
  | ktNext (fnc arg : Nat) (s : PslIdx) (i : Nat) (w' : World) : fnc ≠ 0 → t.psl = some s →
      (w.psl s).threadCount ≠ 8 → Kernel.findSlot (w.psl s) = some i →
      Spawned ((w.count s).stack s t.pgdir i) p t i w' →
      Step fits w p t (.ktCreate fnc arg) w'
  | ktNextBad (fnc arg : Nat) (s : PslIdx) (i : Nat) : fnc ≠ 0 → t.psl = some s →
      (w.psl s).threadCount ≠ 8 → Kernel.findSlot (w.psl s) = some i → ¬ fits t.pgdir i →
      Step fits w p t (.ktCreate fnc arg) ((w.count s).setMem (w.mem.free t.pgdir))
  /-- Without a free slot, whether or not `clone` finds an entry. -/
  | ktNoSlot (fnc arg : Nat) (s : PslIdx) (w' : World) : fnc ≠ 0 → t.psl = some s →
      (w.psl s).threadCount ≠ 8 → Kernel.findSlot (w.psl s) = none →
      (w' = w.count s ∨ ∃ nt, w.thread nt = none ∧ w' = (w.count s).spawn p t nt (-1) .embryo) →
      Step fits w p t (.ktCreate fnc arg) w'

end World

end Xv6.Kern
