/-
Xv6.Kern.Semaphore — `sem_initialize`, `sem_init`, `sem_wait`,
`sem_signal`, `sem_free`, `sem_sleep` and `sem_wakeup` of `proc.c`.

`sem_wait` and `sem_signal` come in two steps. The first is the test of
`s->state`, which is made without any lock; the second is everything from
`acquire(&s->lock)` on. Between the two other CPUs may free the semaphore
and initialise it again.

The lock of a semaphore is held from the count's change to the queue's,
and `ptable.lock` from the queue's change to the process's own, so the
second step is one critical section. A thread that sleeps in `sem_wait`
does not look at the count again when it is woken: the signal that popped
it let it pass.
-/
import Xv6.Kern.Sched

namespace Xv6.Kern

variable {ncpu : Nat} (k : Kernel ncpu)

def semInit (initCount : Int) : Semaphore :=
  { queue := Queue.init, count := initCount, state := .used }

namespace Kernel

/-- The indices of `semtable.sem`, in scan order. -/
def semIndices : List SemIdx := List.finRange ktTablesize

/-- `sem_initialize`: the first free entry, or `-1`. The stores of
`sem_init` are one step: up to `s->state = 1` the other calls return `-1`,
and nobody is told the index before the loop after it, which clears `q`,
has ended. A call that guesses the index in that loop is not modelled. -/
def semInitialize (initCount : Int) : Option SemIdx × Kernel ncpu :=
  match semIndices.find? (fun i => (k.sem i).state = .unused) with
  | none => (none, k)
  | some i => (some i, k.setSem i fun _ => semInit initCount)

/-- The test in `sys_sem_initialize`; no `int` passes it, so no initial
count is refused. -/
def refusesInitCount (initCount : Int) : Bool := initCount ≤ 0 && initCount ≥ 6

def sysSemInitialize (initCount : Int) : Option SemIdx × Kernel ncpu :=
  if refusesInitCount initCount then (none, k) else k.semInitialize initCount

/-- `sem_wait` up to the lock; a free semaphore makes it return `-1`. -/
def semWait (p : ProcIdx) (i : SemIdx) : Kernel ncpu :=
  if (k.sem i).state = .unused then k else k.setPc p (.waitChecked i)

/-- `sem_sleep` by the process of CPU `c`. -/
def semSleep (c : Fin ncpu) (p : ProcIdx) (i : SemIdx) : Kernel ncpu :=
  ((k.setSem i fun s => { s with queue := s.queue.pushBack p }).setPc p (.waiting i)).schedOut
    c p .semSleeping

/-- `sem_wait` from the lock on. -/
def semWaitEnter (c : Fin ncpu) (p : ProcIdx) (i : SemIdx) : Kernel ncpu :=
  let dec := k.setSem i fun s => { s with count := toI32 (s.count - 1) }
  if (k.sem i).count ≤ 0 then dec.semSleep c p i else dec.setPc p .outside

/-- `sem_signal` up to the lock. -/
def semSignal (p : ProcIdx) (i : SemIdx) : Kernel ncpu :=
  if (k.sem i).state = .unused then k else k.setPc p (.signalChecked i)

/-- The process `pop_front` hands to `sem_wakeup`, made runnable. -/
def semWake : Option ProcIdx → Kernel ncpu
  | none => k
  | some w => (k.setState w .runnable).setPc w .outside

def semWakeup (i : SemIdx) : Kernel ncpu :=
  let r := (k.sem i).queue.popFront
  (k.setSem i fun s => { s with queue := r.2 }).semWake r.1

/-- `sem_signal` from the lock on. -/
def semSignalEnter (p : ProcIdx) (i : SemIdx) : Kernel ncpu :=
  ((k.setSem i fun s => { s with count := toI32 (s.count + 1) }).setPc p .outside).semWakeup i

/-- `sem_free`: it looks at neither the state nor the queue. -/
def semFree (i : SemIdx) : Kernel ncpu :=
  k.setSem i fun s => { s with state := .unused }

/-! ## What the critical sections change -/

section
variable (k : Kernel ncpu) (c : Fin ncpu) (p q : ProcIdx) (i j : SemIdx)

theorem semSleep_sem : (k.semSleep c p i).sem j
    = if j = i then { k.sem i with queue := (k.sem i).queue.pushBack p } else k.sem j :=
  setSem_sem k i (fun s => { s with queue := s.queue.pushBack p }) j

theorem semSleep_pc : (k.semSleep c p i).pc q = if q = p then .waiting i else k.pc q :=
  setPc_pc k p q (.waiting i)

theorem semSleep_state : ((k.semSleep c p i).proc q).state
    = if q = p then .semSleeping else (k.proc q).state :=
  schedOut_state _ _ _ _ _

theorem semWakeup_some {w : ProcIdx} (h : (k.sem i).queue.popFront.1 = some w) :
    k.semWakeup i = ((k.setSem i fun s => { s with queue := (k.sem i).queue.popFront.2 }).setState
      w .runnable).setPc w .outside := by
  simp only [semWakeup, h, semWake]

theorem semWakeup_none (h : (k.sem i).queue.popFront = (none, (k.sem i).queue)) :
    k.semWakeup i = k := by
  simp only [semWakeup, h, semWake]
  simp [setSem]

theorem setState_state (st : ProcState) : ((k.setState p st).proc q).state
    = if q = p then st else (k.proc q).state := by
  rw [setState, setProc_proc]
  split <;> rfl

end

end Kernel

end Xv6.Kern
