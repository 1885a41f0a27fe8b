/-
Xv6.Kern.Core — how a kernel state shows a world of threads and address
spaces.

`core` is the part of a process-table entry that thread and memory
management reads. `world` turns it into the abstract `World`: an `UNUSED`
entry is no thread, an entry in use is a thread with its directory. The
fields an `UNUSED` entry still holds matter when it is handed out again,
so `Clean` says what they are. `Frame` is a change that the world does
not see.
-/
import Xv6.Lib.Fold
import Xv6.Kern.World

namespace Xv6.Kern

open Xv6.Lib Xv6.Mem

variable {ncpu : Nat} {k : Kernel ncpu} {p : ProcIdx} {t : Thread}

/-- The life of an entry; `none` is `UNUSED`. -/
def ProcState.life : ProcState → Option Life
  | .unused => none
  | .embryo => some .embryo
  | .zombie => some .zombie
  | .sleeping => some .live
  | .runnable => some .live
  | .running => some .live
  | .semSleeping => some .live

theorem ProcState.life_eq_none {st : ProcState} : st.life = none ↔ st = .unused := by
  cases st <;> simp [life]

theorem ProcState.life_eq_zombie {st : ProcState} : st.life = some .zombie ↔ st = .zombie := by
  cases st <;> simp [life]

/-- What thread and memory management reads of an entry. -/
@[ext] structure Core where
  life : Option Life
  sz : Nat
  pgdir : Option Nat
  kstack : Option Page
  pthread : Option ProcIdx
  psl : Option PslIdx
  slindex : Int

def Proc.core (q : Proc) : Core where
  life := q.state.life
  sz := q.sz
  pgdir := q.pgdir
  kstack := q.kstack
  pthread := q.pthread
  psl := q.psl
  slindex := q.slindex

/-- The thread an entry is. -/
def Core.thread (c : Core) : Option Thread :=
  match c.life, c.pgdir with
  | some l, some d => some ⟨l, c.sz, d, c.pthread, c.psl, c.slindex⟩
  | _, _ => none

/-- An `UNUSED` entry has nothing of its last user but `sz` and `pgdir`;
an entry in use has a directory. -/
structure Core.Clean (c : Core) : Prop where
  unused : c.life = none → c.kstack = none ∧ c.pthread = none ∧ c.psl = none ∧ c.slindex = 0
  used : c.life ≠ none → c.pgdir ≠ none

theorem Core.Clean.thread_eq_none {c : Core} (h : c.Clean) : c.thread = none ↔ c.life = none := by
  unfold Core.thread
  cases hl : c.life with
  | none => simp
  | some l =>
    cases hd : c.pgdir with
    | none => exact absurd hd (h.used (by simp [hl]))
    | some d => simp

theorem Core.thread_eq_some {c : Core} : c.thread = some t ↔
    c.life = some t.life ∧ c.sz = t.sz ∧ c.pgdir = some t.pgdir ∧ c.pthread = t.pthread ∧
      c.psl = t.psl ∧ c.slindex = t.slindex := by
  unfold Core.thread
  split
  · next l d hl hd =>
    rw [hl, hd]
    constructor
    · intro h
      cases h
      simp
    · rintro ⟨h1, h2, h3, h4, h5, h6⟩
      obtain ⟨life, sz, pgdir, pthread, psl, slindex⟩ := t
      simp_all
  rename_i hnone
  constructor
  · intro h
    cases h
  · rintro ⟨h1, -, h3, -⟩
    exact absurd h3 (hnone _ _ h1)

namespace Kernel

def core (k : Kernel ncpu) : ProcIdx → Core := fun p => (k.proc p).core

/-- The threads and address spaces of a kernel. -/
def world (k : Kernel ncpu) : World where
  thread := fun p => (k.core p).thread
  psl := k.psl
  mem := k.vm.maps

/-- Every entry is clean. -/
def Clean (k : Kernel ncpu) : Prop := ∀ p, (k.core p).Clean

theorem setProc_core (k : Kernel ncpu) (p : ProcIdx) (f : Proc → Proc) :
    (k.setProc p f).core = Function.update k.core p (f (k.proc p)).core := by
  funext q
  by_cases h : q = p
  · subst h
    simp [core]
  · simp [core, setProc_proc, h]

/-- A change the world does not see. -/
structure Frame (k k' : Kernel ncpu) : Prop where
  core : k'.core = k.core
  psl : k'.psl = k.psl
  maps : k'.vm.maps = k.vm.maps

namespace Frame

theorem refl (k : Kernel ncpu) : Frame k k := ⟨rfl, rfl, rfl⟩

theorem trans {l m : Kernel ncpu} (h : Frame k l) (h' : Frame l m) : Frame k m :=
  ⟨h'.core.trans h.core, h'.psl.trans h.psl, h'.maps.trans h.maps⟩

theorem setProc {f : Proc → Proc} (h : (f (k.proc p)).core = (k.proc p).core) :
    Frame k (k.setProc p f) := by
  refine ⟨?_, rfl, rfl⟩
  rw [setProc_core, h]
  exact Function.update_eq_self p k.core

theorem world {k' : Kernel ncpu} (h : Frame k k') : k'.world = k.world := by
  simp only [Kernel.world, h.core, h.psl, h.maps]

theorem clean {k' : Kernel ncpu} (h : Frame k k') (hc : k.Clean) : k'.Clean := by
  intro p
  rw [h.core]
  exact hc p

end Frame

/-! ## Reading the world -/

theorem world_thread_eq_none (hc : k.Clean) :
    k.world.thread p = none ↔ (k.proc p).state = .unused :=
  (hc p).thread_eq_none.trans ProcState.life_eq_none

theorem world_thread_eq_some : k.world.thread p = some t ↔
      (k.proc p).state.life = some t.life ∧ (k.proc p).sz = t.sz ∧
      (k.proc p).pgdir = some t.pgdir ∧ (k.proc p).pthread = t.pthread ∧
      (k.proc p).psl = t.psl ∧ (k.proc p).slindex = t.slindex :=
  Core.thread_eq_some

theorem exists_thread (hc : k.Clean) (h : (k.proc p).state ≠ .unused) :
    ∃ t, k.world.thread p = some t := by
  cases ht : k.world.thread p with
  | none => exact absurd ((world_thread_eq_none hc).mp ht) h
  | some t => exact ⟨t, rfl⟩

theorem state_ne_unused (h : k.world.thread p = some t) : (k.proc p).state ≠ .unused := by
  intro hu
  have := (world_thread_eq_some.mp h).1
  rw [hu] at this
  cases this

end Kernel

end Xv6.Kern
