/-
Xv6.User.Uthread — the user-level threads of `uthread.c`.

The library runs in one process, so its globals and its table are one
record. A call of the library is made by the thread that is running; it
is one step, up to the point where some thread runs user code again.

`swtch` is taken at its word: it saves the caller's context in `*old` and
resumes `new`. A context is therefore the thread it belongs to and the
number of times that thread had switched away when it was saved, 0 for
the context `UT_Create` builds. The stacks themselves are left out.

`thread`, `running`, `switches`, `created`, `exited` and `inShutdown` are
not variables of the source. They number the threads in the order of
their creation (the root is 0), and say which one executes, how often each
has switched away, which ones have called `UT_exit`, and which ones are
inside the loop of `UT_shutdown`. The source knows the running thread only
by `sched_index`.

`UT_Scheduler` is undefined (`none`) where the source would search forever
or jump to a context that nobody made. After `free(utable)` there is no
table to talk about, so nothing happens any more.
-/
import Xv6.Lib.Run

namespace Xv6.User

abbrev utCount : Nat := 8

instance : NeZero utCount := ⟨by decide⟩

inductive TpcbState where
  | unused
  | used
  deriving DecidableEq

/-- The context of `thread` after its switch number `switches`. -/
structure Context where
  thread : Nat
  switches : Nat
  deriving DecidableEq

/-- `struct tpcb`, without the stack. -/
structure Tpcb where
  state : TpcbState := .unused
  utid : Int32 := -1
  context : Option Context := none
  thread : Nat := 0

/-- The globals of `uthread.c`. -/
structure Uthreads where
  utable : Fin utCount → Tpcb
  schedIndex : Fin utCount
  uthreadCount : Int
  tid : Int32
  running : Nat
  switches : Nat → Nat
  created : Nat
  exited : Nat → Bool
  inShutdown : Nat → Bool
  freed : Bool

namespace Uthreads

/-- `UT_Init`, with the value `tid` has before. -/
def utInit (tid : Int32) : Uthreads where
  utable := fun k => if k = 0 then { state := .used, utid := tid } else {}
  schedIndex := 1
  uthreadCount := 1
  tid := tid + 1
  running := 0
  switches := fun _ => 0
  created := 1
  exited := fun _ => false
  inShutdown := fun _ => false
  freed := false

/-- The first `UNUSED` entry. -/
def findUnused (s : Uthreads) : Option (Fin utCount) :=
  (List.finRange utCount).find? fun k => (s.utable k).state == .unused

/-- `UT_Create`: the value it returns and the state after it. -/
def utCreate (s : Uthreads) : Int32 × Uthreads :=
  match s.findUnused with
  | none => (-1, s)
  | some k =>
    (s.tid,
      { s with
        utable := Function.update s.utable k
          { state := .used, utid := s.tid, context := some ⟨s.created, 0⟩, thread := s.created }
        tid := s.tid + 1
        uthreadCount := s.uthreadCount + 1
        created := s.created + 1 })

def incrementSchedIndex (i : Fin utCount) : Fin utCount :=
  if i = 7 then 0 else i + 1

/-- The entry of the running thread, as the source finds it. -/
def current (s : Uthreads) : Fin utCount :=
  if s.schedIndex = 0 then 7 else s.schedIndex - 1

/-- The loop of `UT_Scheduler`, for `n` rounds: the entry it stops at. -/
def scan (s : Uthreads) : Nat → Fin utCount → Option (Fin utCount)
  | 0, _ => none
  | n + 1, i =>
    if (s.utable i).state = .used then some i else s.scan n (incrementSchedIndex i)

def swtch (s : Uthreads) (k : Fin utCount) (new : Context) : Uthreads :=
  let n := s.switches s.running + 1
  { s with
    utable := Function.update s.utable k { s.utable k with context := some ⟨s.running, n⟩ }
    switches := Function.update s.switches s.running n
    running := new.thread }

def utScheduler (s : Uthreads) : Option Uthreads :=
  if s.uthreadCount = 1 ∧ s.schedIndex = 1 then some s
  else
    match s.scan utCount s.schedIndex with
    | none => none
    | some t =>
      match (s.utable t).context with
      | none => none
      | some new =>
        some (({ s with schedIndex := incrementSchedIndex t } : Uthreads).swtch s.current new)

def utYield (s : Uthreads) : Option Uthreads := s.utScheduler

/-- The loop of `UT_shutdown` up to its next `UT_yield`, or to its end. -/
def shutdownLoop (s : Uthreads) : Option Uthreads :=
  if s.uthreadCount ≠ 1 then s.utYield else some { s with freed := true }

def utExit (s : Uthreads) : Option Uthreads :=
  if s.schedIndex = 1 then
    ({ s with inShutdown := Function.update s.inShutdown s.running true } : Uthreads).shutdownLoop
  else
    ({ s with
      utable := Function.update s.utable s.current { s.utable s.current with state := .unused }
      uthreadCount := s.uthreadCount - 1
      exited := Function.update s.exited s.running true } : Uthreads).utScheduler

end Uthreads

/-- What the running thread does: a call, or the next round of the loop of
`UT_shutdown` it is in. -/
inductive UthreadAct where
  | create
  | yield
  | exit
  | loop

/-- The step is a round of that loop. -/
def UthreadAct.isLoop : UthreadAct → Bool
  | .loop => true
  | _ => false

namespace Uthreads

/-- The running thread may take the step. -/
def Enabled (s : Uthreads) (a : UthreadAct) : Prop :=
  s.freed = false ∧ s.inShutdown s.running = a.isLoop
  deriving Decidable

def next (s : Uthreads) (a : UthreadAct) : Option Uthreads :=
  if s.Enabled a then
    match a with
    | .create => some s.utCreate.2
    | .yield => s.utYield
    | .exit => s.utExit
    | .loop => s.shutdownLoop
  else none

end Uthreads

end Xv6.User
