/-
Xv6.Kern.Table — the kernel's shared state: `struct proc`, `struct psl`,
`struct semaphore`, the tables made of them, and the parts of the file
and inode tables that process creation and exit touch.

Pointers into a table are indices of it, the null pointer is `none`.
Locks do not appear: a step of the model is a whole critical section (or,
for the process system calls, the whole call). What a lock-holder reads
again after sleeping is in the state; where a thread is inside `sem_wait`
and `sem_signal` is in `pc`, because both test `s->state` before they
take the semaphore's lock.

The scheduling metrics (`startTime`, `waitTime`, `lastWait`) and the
saved `context` are left out: no function here reads them.
-/
import Xv6.Kern.Queue
import Xv6.Mem.Vm

namespace Xv6.Kern

open Xv6.Mem

/-- A pointer into `ptable.proc`. -/
abbrev ProcIdx := Fin nproc

/-- A pointer into `sltable.psl`. -/
abbrev PslIdx := Fin ktTablesize

/-- An index of `semtable.sem`. -/
abbrev SemIdx := Fin ktTablesize

/-- A pointer into `ftable.file`. -/
abbrev FileIdx := Fin nfile

/-- A pointer into `icache.inode`. -/
abbrev InodeIdx := Fin ninode

inductive ProcState where
  | unused | embryo | sleeping | runnable | running | zombie | semSleeping
  deriving DecidableEq, Repr

/-- The state of a `psl` or semaphore entry: `UNUSED` or 1. -/
inductive TableState where
  | unused | used
  deriving DecidableEq, Repr

/-- A sleep channel: any kernel address. `wait` sleeps on a process
entry, `KT_Join` on a `psl` pointer, which may be null. -/
inductive Chan where
  | null
  | proc (p : ProcIdx)
  | psl (s : PslIdx)
  | pipeRead (pi : Page)
  | pipeWrite (pi : Page)
  | other (n : Nat)
  deriving DecidableEq

/-- The channel of a process pointer. -/
def Chan.ofProc : Option ProcIdx → Chan
  | none => .null
  | some p => .proc p

/-- The channel of a `psl` pointer. -/
def Chan.ofPsl : Option PslIdx → Chan
  | none => .null
  | some s => .psl s

structure Trapframe where
  edi : Nat := 0
  esi : Nat := 0
  ebp : Nat := 0
  oesp : Nat := 0
  ebx : Nat := 0
  edx : Nat := 0
  ecx : Nat := 0
  eax : Nat := 0
  gs : Nat := 0
  fs : Nat := 0
  es : Nat := 0
  ds : Nat := 0
  trapno : Nat := 0
  err : Nat := 0
  eip : Nat := 0
  cs : Nat := 0
  eflags : Nat := 0
  esp : Nat := 0
  ss : Nat := 0
  deriving DecidableEq, Repr

structure Proc where
  sz : Nat := 0
  pgdir : Option Nat := none
  kstack : Option Page := none
  state : ProcState := .unused
  pid : Int := 0
  parent : Option ProcIdx := none
  tf : Trapframe := {}
  chan : Chan := .null
  killed : Bool := false
  ofile : Fin nofile → Option FileIdx := fun _ => none
  cwd : Option InodeIdx := none
  name : String := ""
  tid : Int := 0
  pthread : Option ProcIdx := none
  psl : Option PslIdx := none
  slindex : Int := 0

/-- `struct psl`. Index `i` of `stackz` is a stack slot, `0 .. 7`. -/
structure Psl where
  stackz : Int → Bool := fun _ => false
  threadCount : Int := 0
  state : TableState := .unused

/-- `struct semaphore`, without its lock. -/
structure Semaphore where
  queue : Queue ProcIdx := Queue.zero
  count : Int := 0
  state : TableState := .unused

/-- What an open file refers to. -/
inductive FileType where
  | none
  | pipe (pi : Page)
  | inode (ip : InodeIdx)
  deriving DecidableEq

/-- `struct file`: the fields `filedup` and `fileclose` use. -/
structure File where
  type : FileType := .none
  ref : Int := 0
  writable : Bool := false

/-- `struct pipe`: the two open flags. -/
structure Pipe where
  readopen : Bool := false
  writeopen : Bool := false

/-- Where a thread is inside `sem_wait` or `sem_signal`. -/
inductive Pc where
  /-- Not inside either. -/
  | outside
  /-- In `sem_wait(i)`, past its test of `s->state`. -/
  | waitChecked (i : SemIdx)
  /-- In `sem_signal(i)`, past its test of `s->state`. -/
  | signalChecked (i : SemIdx)
  /-- Asleep inside `sem_wait(i)`. -/
  | waiting (i : SemIdx)
  deriving DecidableEq

/-- The kernel, with `ncpu` processors. -/
structure Kernel (ncpu : Nat) where
  proc : ProcIdx → Proc
  cpu : Fin ncpu → Option ProcIdx
  psl : PslIdx → Psl
  sem : SemIdx → Semaphore
  pc : ProcIdx → Pc
  nextpid : Int
  vm : Vm
  file : FileIdx → File
  pipe : Page → Pipe
  iref : InodeIdx → Int

/-- `initproc`: `userinit` takes the first entry of the table. -/
def initproc : ProcIdx := 0

variable {ncpu : Nat} (k : Kernel ncpu)

namespace Kernel

/-! ## Field updates -/

@[simps -fullyApplied psl sem pc vm]
def setProc (p : ProcIdx) (f : Proc → Proc) : Kernel ncpu :=
  { k with proc := Function.update k.proc p (f (k.proc p)) }

@[simps -fullyApplied proc]
def setPsl (s : PslIdx) (f : Psl → Psl) : Kernel ncpu :=
  { k with psl := Function.update k.psl s (f (k.psl s)) }

@[simps -fullyApplied proc pc]
def setSem (i : SemIdx) (f : Semaphore → Semaphore) : Kernel ncpu :=
  { k with sem := Function.update k.sem i (f (k.sem i)) }

@[simps -fullyApplied proc sem]
def setPc (p : ProcIdx) (c : Pc) : Kernel ncpu :=
  { k with pc := Function.update k.pc p c }

def setState (p : ProcIdx) (st : ProcState) : Kernel ncpu :=
  k.setProc p fun q => { q with state := st }

section
variable (k : Kernel ncpu) (p q : ProcIdx) (s : PslIdx) (i : SemIdx)
  (f : Proc → Proc) (g : Psl → Psl) (h : Semaphore → Semaphore) (c : Pc)

theorem setProc_proc : (k.setProc p f).proc q = if q = p then f (k.proc p) else k.proc q := by
  simp [setProc, Function.update_apply]

@[simp] theorem setProc_proc_self : (k.setProc p f).proc p = f (k.proc p) := by
  simp [setProc]

theorem setPsl_psl (t : PslIdx) :
    (k.setPsl s g).psl t = if t = s then g (k.psl s) else k.psl t := by
  simp [setPsl, Function.update_apply]

theorem setSem_sem (j : SemIdx) :
    (k.setSem i h).sem j = if j = i then h (k.sem i) else k.sem j := by
  simp [setSem, Function.update_apply]

theorem setPc_pc : (k.setPc p c).pc q = if q = p then c else k.pc q := by
  simp [setPc, Function.update_apply]

end

end Kernel

end Xv6.Kern
