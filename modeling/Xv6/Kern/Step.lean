/-
Xv6.Kern.Step — the kernel as a state machine, and its runs.

An action is taken by a CPU: the scheduler of an idle CPU picks a
process, or the process it runs makes a call. `enter c` continues the
`sem_wait` or `sem_signal` call that the process of CPU `c` began; until
then that process does nothing else, because both system calls run with
interrupts off. A wakeup may also come from an interrupt, so it needs no
process.

`step` is `none` when the action is not possible in the state, and an
error when it ends in a panic. A run (`Run next`) stops at a panic.
-/
import Xv6.Lib.Run
import Xv6.Mem.Maps
import Xv6.Kern.Semaphore
import Xv6.Kern.Process

namespace Xv6.Kern

open Xv6.Lib Xv6.Mem

variable {ncpu : Nat}

/-- A call by the process a CPU runs. -/
inductive Call where
  | yield
  | sleep (chan : Chan)
  | kill (pid : Int)
  | exit
  | wait
  | ktJoin
  | fork
  | ktCreate (fnc arg : Nat)
  | growproc (n : Int)
  | exec (f : Kernel.ExecFile)
  | semInitialize (initCount : Int32)
  | semWait (i : SemIdx)
  | semSignal (i : SemIdx)
  | semFree (i : SemIdx)

/-- An action of the machine. -/
inductive Act (ncpu : Nat) where
  | schedule (c : Fin ncpu) (p : ProcIdx)
  | wakeup (chan : Chan)
  | call (c : Fin ncpu) (op : Call)
  | enter (c : Fin ncpu)

namespace Kernel

/-- A call by process `p` on CPU `c`; its return value is dropped. -/
def perform (k : Kernel ncpu) (c : Fin ncpu) (p : ProcIdx) : Call → Except String (Kernel ncpu)
  | .yield => .ok (k.yield c p)
  | .sleep chan => .ok (k.sleep c p chan)
  | .kill pid => .ok (k.kill pid).2
  | .exit => k.exit c p
  | .wait => (k.wait c p).map Prod.snd
  | .ktJoin => (k.ktJoin c p).map Prod.snd
  | .fork => (k.fork p).map Prod.snd
  | .ktCreate fnc arg => (k.ktCreate p fnc arg).map Prod.snd
  | .growproc n => (k.growproc p n).map Prod.snd
  | .exec f => (k.exec p f).map Prod.snd
  | .semInitialize n => .ok (k.sysSemInitialize n.toInt).2
  | .semWait i => .ok (k.semWait p i)
  | .semSignal i => .ok (k.semSignal p i)
  | .semFree i => .ok (k.semFree i)

/-- The second half of `sem_wait` or `sem_signal` by process `p` on CPU `c`. -/
def continue? (k : Kernel ncpu) (c : Fin ncpu) (p : ProcIdx) : Option (Kernel ncpu) :=
  match k.pc p with
  | .waitChecked i => some (k.semWaitEnter c p i)
  | .signalChecked i => some (k.semSignalEnter p i)
  | _ => none

def step (k : Kernel ncpu) : Act ncpu → Option (Except String (Kernel ncpu))
  | .schedule c p =>
    if k.cpu c = none ∧ (k.proc p).state = .runnable then some (k.scheduler c p) else none
  | .wakeup chan => some (.ok (k.wakeup1 chan))
  | .call c op =>
    match k.cpu c with
    | none => none
    | some p => if k.pc p = .outside then some (k.perform c p op) else none
  | .enter c =>
    match k.cpu c with
    | none => none
    | some p => (k.continue? c p).map .ok

def next (k : Kernel ncpu) (a : Act ncpu) : Option (Kernel ncpu) :=
  match k.step a with
  | some (.ok k') => some k'
  | _ => none

/-- The kernel when `userinit` is done: `initproc` alone in the table and
runnable, every CPU idle, the thread and semaphore tables zero. -/
structure Boot (k : Kernel ncpu) : Prop where
  cpu : ∀ c, k.cpu c = none
  init : (k.proc initproc).state = .runnable
  initPsl : (k.proc initproc).psl = none
  initPthread : (k.proc initproc).pthread = none
  initSlindex : (k.proc initproc).slindex = 0
  rest : ∀ p, p ≠ initproc → k.proc p = {}
  psl : ∀ s, k.psl s = {}
  sem : ∀ i, k.sem i = {}
  pc : ∀ p, k.pc p = .outside
  initPgdir : ∃ d, (k.proc initproc).pgdir = some d ∧ d < k.vm.nspace
  freed : k.vm.freed = []

theorem boot_userinit {freelist : List Page} {k : Kernel ncpu} {initcode : List UInt8}
    {root : InodeIdx} (h : (cleared ncpu (Vm.kinit freelist)).userinit initcode root = .ok k) :
    Boot k := by
  have hfind : (cleared ncpu (Vm.kinit freelist)).findUnused = some initproc := rfl
  unfold userinit at h
  simp only [allocproc, hfind] at h
  unfold allocKstack at h
  split at h
  · cases h
  rename_i p k1 hp
  split at hp
  · cases hp
  rename_i pg vm hk
  have hkm : vm.maps = (Vm.kinit freelist).maps := (Vm.kalloc_eq hk).2.1
  cases hp
  split at h
  · cases h
  rename_i d vm₁ hs
  have hup := Vm.setUp hs
  generalize hm₁ : vm₁.maps = m at hup
  cases hup
  split at h
  · cases h
  rename_i vm₂ hiu
  obtain ⟨hn, hfr⟩ := Vm.inituvm_maps hiu
  rw [hm₁, Maps.new_nspace] at hn
  rw [hm₁, Maps.new_freed] at hfr
  have hfr' : vm₂.freed = [] := hfr.trans (congrArg Maps.freed hkm)
  cases h
  constructor
  · intro c; rfl
  · simp [idup]
  · simp [idup, cleared]
  · simp [idup, cleared]
  · simp [idup, cleared]
  · intro q hq
    simp [idup, setProc, hq, cleared]
  · intro s; rfl
  · intro i; rfl
  · intro q; rfl
  · refine ⟨vm.maps.nspace, by simp [idup], ?_⟩
    show vm.maps.nspace < vm₂.maps.nspace
    rw [hn]
    exact Nat.lt_succ_self _
  · exact hfr'

/-- A machine with `n` pages of memory, booted; `none` if they are too few. -/
def machine (ncpu n : Nat) : Option (Kernel ncpu) :=
  ((cleared ncpu (Vm.kinit (firstPages n))).userinit [] 0).toOption

theorem boot_machine {ncpu n : Nat} {k : Kernel ncpu} (h : machine ncpu n = some k) : Boot k := by
  unfold machine at h
  cases hu : (cleared ncpu (Vm.kinit (firstPages n))).userinit [] 0 with
  | error e =>
    rw [hu] at h
    cases h
  | ok k1 =>
    rw [hu] at h
    cases h
    exact boot_userinit hu

/-! ## What an action can be -/

/-- The four ways a run can continue, with their guards. -/
inductive Stepped (k k' : Kernel ncpu) : Act ncpu → Prop
  | schedule (c : Fin ncpu) (p : ProcIdx) : k.cpu c = none → (k.proc p).state = .runnable →
      k.scheduler c p = .ok k' → Stepped k k' (.schedule c p)
  | wakeup (chan : Chan) : k' = k.wakeup1 chan → Stepped k k' (.wakeup chan)
  | call (c : Fin ncpu) (p : ProcIdx) (op : Call) : k.cpu c = some p → k.pc p = .outside →
      k.perform c p op = .ok k' → Stepped k k' (.call c op)
  | waitEnter (c : Fin ncpu) (p : ProcIdx) (i : SemIdx) : k.cpu c = some p →
      k.pc p = .waitChecked i → k' = k.semWaitEnter c p i → Stepped k k' (.enter c)
  | signalEnter (c : Fin ncpu) (p : ProcIdx) (i : SemIdx) : k.cpu c = some p →
      k.pc p = .signalChecked i → k' = k.semSignalEnter p i → Stepped k k' (.enter c)

theorem next_eq_some {k k' : Kernel ncpu} {a : Act ncpu} (h : k.next a = some k') :
    k.step a = some (.ok k') := by
  unfold next at h
  split at h
  · rename_i k'' hs
    rw [hs, Option.some.inj h]
  · cases h

theorem stepped_of_next {k k' : Kernel ncpu} {a : Act ncpu} (h : k.next a = some k') :
    Stepped k k' a := by
  have hs := next_eq_some h
  cases a with
  | schedule c p =>
    simp only [step] at hs
    split at hs
    · rename_i hg
      exact .schedule c p hg.1 hg.2 (Option.some.inj hs)
    · cases hs
  | wakeup chan =>
    simp only [step, Option.some.injEq, Except.ok.injEq] at hs
    exact .wakeup chan hs.symm
  | call c op =>
    simp only [step] at hs
    split at hs
    · cases hs
    · rename_i p hp
      split at hs
      · rename_i hpc
        exact .call c p op hp hpc (Option.some.inj hs)
      · cases hs
  | enter c =>
    simp only [step] at hs
    split at hs
    · cases hs
    · rename_i p hp
      unfold continue? at hs
      split at hs
      · rename_i i hpc
        simp only [Option.map_some, Option.some.injEq, Except.ok.injEq] at hs
        exact .waitEnter c p i hp hpc hs.symm
      · rename_i i hpc
        simp only [Option.map_some, Option.some.injEq, Except.ok.injEq] at hs
        exact .signalEnter c p i hp hpc hs.symm
      · cases hs

end Kernel

end Xv6.Kern
