/-
Xv6.Kern.Sched — `scheduler`, `sched`, `yield`, `sleep`, `wakeup1`,
`wakeup` and `kill` of `proc.c`, as critical sections of `ptable.lock`.

The process a CPU runs is `cpu c`. A process that calls `sched` has set
its own state first; the scheduler it switches to clears `c->proc` before
it looks for the next process, so leaving the CPU is one step
(`schedOut`) and being picked is another (`scheduler`). The tail of
`sleep`, which clears `p->chan`, runs under the lock the scheduler took,
so it belongs to the picking step.
-/
import Xv6.Kern.Table

namespace Xv6.Kern

open Xv6.Mem

variable {ncpu : Nat} (k : Kernel ncpu)

/-- The panics of `switchuvm`. -/
def switchuvm (q : Proc) : Except String Unit :=
  if q.kstack = none then .error "switchuvm: no kstack"
  else if q.pgdir = none then .error "switchuvm: no pgdir"
  else .ok ()

namespace Kernel

/-- `sched()` by the process of CPU `c`, which has moved to state `st`. -/
def schedOut (c : Fin ncpu) (p : ProcIdx) (st : ProcState) : Kernel ncpu :=
  { k.setState p st with cpu := Function.update k.cpu c none }

section
variable (k : Kernel ncpu) (c : Fin ncpu) (p q : ProcIdx) (st : ProcState)

@[simp] theorem schedOut_sem : (k.schedOut c p st).sem = k.sem := rfl
@[simp] theorem schedOut_pc : (k.schedOut c p st).pc = k.pc := rfl

theorem schedOut_proc : (k.schedOut c p st).proc q
    = if q = p then { k.proc p with state := st } else k.proc q :=
  setProc_proc k p q fun q => { q with state := st }

theorem schedOut_cpu (c' : Fin ncpu) :
    (k.schedOut c p st).cpu c' = if c' = c then none else k.cpu c' := by
  simp [schedOut, Function.update_apply]

theorem schedOut_state : ((k.schedOut c p st).proc q).state
    = if q = p then st else (k.proc q).state := by
  rw [schedOut_proc]
  split <;> rfl

end

/-- `scheduler` on CPU `c` picks the runnable process `p`. -/
def scheduler (c : Fin ncpu) (p : ProcIdx) : Except String (Kernel ncpu) :=
  match switchuvm (k.proc p) with
  | .error e => .error e
  | .ok () =>
    .ok { k.setProc p fun q => { q with state := .running, chan := .null } with
          cpu := Function.update k.cpu c (some p) }

def yield (c : Fin ncpu) (p : ProcIdx) : Kernel ncpu :=
  k.schedOut c p .runnable

/-- `sleep(chan, lk)` by the process of CPU `c`. -/
def sleep (c : Fin ncpu) (p : ProcIdx) (chan : Chan) : Kernel ncpu :=
  (k.setProc p fun q => { q with chan := chan }).schedOut c p .sleeping

/-- One process of `wakeup1`'s loop. -/
def wakeProc (chan : Chan) (q : Proc) : Proc :=
  if q.state = .sleeping ∧ q.chan = chan then { q with state := .runnable } else q

def wakeup1 (chan : Chan) : Kernel ncpu :=
  { k with proc := fun p => wakeProc chan (k.proc p) }

/-- The entries of the process table, in the order the source scans them. -/
def entries : List ProcIdx := List.finRange nproc

/-- `kill`: the FIRST entry with that pid is marked, and woken if it is
`SLEEPING`. -/
def kill (pid : Int) : Int × Kernel ncpu :=
  match entries.find? (fun p => (k.proc p).pid = pid) with
  | none => (-1, k)
  | some p =>
    (0, k.setProc p fun q =>
      { q with
        killed := true
        state := if q.state = .sleeping then .runnable else q.state })

end Kernel

end Xv6.Kern
