/-
Xv6.Sync.Pipe — `pipewrite`, `piperead` and `pipeclose` of `pipe.c`, and
the machine of one pipe with any number of parties.

`nread` and `nwrite` are `uint`s that wrap; all arithmetic on them is that
of `UInt32`, as in the source.

`p->lock` is held from the start of a call, or from the end of a `sleep`,
to the next `sleep` or the return. Such a stretch is one step. A party
sleeps on `&p->nwrite` inside `pipewrite` and on `&p->nread` inside
`piperead`. While the lock is held no other party goes to sleep on the
pipe, so a `wakeup` may be taken at the end of the stretch it is in.

`kill` takes only `ptable.lock`. It wakes a party that is asleep; but if it
comes between the test of `killed` and the `sleep`, the party goes to
sleep marked. `mark` is the second case.

A request for `n` bytes is an `Int`; a write is given as its bytes, so
that a call of `pipewrite` with a negative `n` is the one with no bytes.
When both ends are closed the page is freed and nothing happens any more.
-/
import Xv6.Lib.Run
import Xv6.Lib.Ring

namespace Xv6.Sync

abbrev pipesize : Nat := 512

/-- `struct pipe`, without its lock. -/
structure Pipe where
  data : Nat → UInt8
  nread : UInt32 := 0
  nwrite : UInt32 := 0
  readopen : Bool := true
  writeopen : Bool := true

/-- How a stretch of `pipewrite` ends: the return of `n`, the return of
-1, or a `sleep` with some bytes left. -/
inductive WriteEnd where
  | done
  | failed
  | blocked (rest : List UInt8)
  deriving DecidableEq

/-- How a stretch of `piperead` ends. -/
inductive ReadEnd where
  | done (bytes : List UInt8)
  | failed
  | blocked
  deriving DecidableEq

/-- What `piperead` returns, if it returns something other than -1. -/
def ReadEnd.returned : ReadEnd → Option (List UInt8)
  | .done bytes => some bytes
  | _ => none

namespace Pipe

/-- `p->nwrite == p->nread + PIPESIZE`. -/
def full (p : Pipe) : Bool := p.nwrite == p.nread + 512

/-- `p->nread == p->nwrite`. -/
def empty (p : Pipe) : Bool := p.nread == p.nwrite

/-- `p->data[p->nwrite++ % PIPESIZE] = b`. -/
def store (p : Pipe) (b : UInt8) : Pipe :=
  { p with
    data := Function.update p.data (p.nwrite.toNat % pipesize) b
    nwrite := p.nwrite + 1 }

/-- `p->data[p->nread % PIPESIZE]`. -/
def first (p : Pipe) : UInt8 := p.data (p.nread.toNat % pipesize)

/-- `p->nread++`. -/
def advance (p : Pipe) : Pipe := { p with nread := p.nread + 1 }

/-- The loop of `pipewrite` with the bytes still to write: the pipe, the
bytes it stored and how it ends. -/
def pipewrite (killed : Bool) : Pipe → List UInt8 → Pipe × List UInt8 × WriteEnd
  | p, [] => (p, [], .done)
  | p, b :: bs =>
    if p.full then (p, [], if !p.readopen || killed then .failed else .blocked (b :: bs))
    else
      let r := pipewrite killed (p.store b) bs
      (r.1, b :: r.2.1, r.2.2)

/-- The copying loop of `piperead`. -/
def copy : Nat → Pipe → List UInt8 × Pipe
  | 0, p => ([], p)
  | n + 1, p =>
    if p.empty then ([], p)
    else
      let r := copy n p.advance
      (p.first :: r.1, r.2)

/-- `piperead(p, addr, n)` from its test for an empty pipe on. -/
def piperead (killed : Bool) (p : Pipe) (n : Int) : Pipe × ReadEnd :=
  if p.empty && p.writeopen then (p, if killed then .failed else .blocked)
  else
    let r := copy n.toNat p
    (r.2, .done r.1)

/-- `pipeclose`, up to its wakeup. -/
def pipeclose (p : Pipe) (writable : Bool) : Pipe :=
  if writable then { p with writeopen := false } else { p with readopen := false }

/-- Both ends are closed, so the pipe is freed. -/
def freed (p : Pipe) : Bool := !p.readopen && !p.writeopen

end Pipe

/-! ## The parties -/

/-- Where a party is: in `pipewrite` with some bytes left, or in `piperead`. -/
inductive PipePc where
  | outside
  | writing (rest : List UInt8)
  | reading (n : Int)
  deriving DecidableEq

/-- A process that uses the pipe. -/
structure Party where
  killed : Bool := false
  pc : PipePc := .outside
  asleep : Bool := false

namespace Party

/-- `SLEEPING` on `&p->nread`. -/
def onNread (q : Party) : Bool :=
  q.asleep && match q.pc with
    | .reading _ => true
    | _ => false

/-- `SLEEPING` on `&p->nwrite`. -/
def onNwrite (q : Party) : Bool :=
  q.asleep && match q.pc with
    | .writing _ => true
    | _ => false

end Party

/-- A pipe and the parties `T` that use it. -/
structure PipeState (T : Type) where
  pipe : Pipe
  party : T → Party

inductive PipeAct (T : Type) where
  | write (t : T) (bs : List UInt8)
  | read (t : T) (n : Int)
  /-- A party that was woken goes on. -/
  | resume (t : T)
  | close (writable : Bool)
  | kill (t : T)
  /-- The mark of a `kill` that came too early to wake. -/
  | mark (t : T)

variable {T : Type} [DecidableEq T]

namespace PipeState

def setParty (s : PipeState T) (t : T) (f : Party → Party) : PipeState T :=
  { s with party := Function.update s.party t (f (s.party t)) }

/-- `wakeup(&p->nread)`. -/
def wakeReaders (s : PipeState T) : PipeState T :=
  { s with party := fun t => if (s.party t).onNread then { s.party t with asleep := false }
                             else s.party t }

/-- `wakeup(&p->nwrite)`. -/
def wakeWriters (s : PipeState T) : PipeState T :=
  { s with party := fun t => if (s.party t).onNwrite then { s.party t with asleep := false }
                             else s.party t }

/-- A stretch of `pipewrite` by `t`. The return of -1 wakes nobody. -/
def runWrite (s : PipeState T) (t : T) (bs : List UInt8) : PipeState T :=
  let r := s.pipe.pipewrite (s.party t).killed bs
  let s := { s with pipe := r.1 }
  match r.2.2 with
  | .done => s.wakeReaders.setParty t fun q => { q with pc := .outside }
  | .failed => s.setParty t fun q => { q with pc := .outside }
  | .blocked rest =>
    s.wakeReaders.setParty t fun q => { q with pc := .writing rest, asleep := true }

/-- A stretch of `piperead` by `t`. -/
def runRead (s : PipeState T) (t : T) (n : Int) : PipeState T :=
  let r := s.pipe.piperead (s.party t).killed n
  let s := { s with pipe := r.1 }
  match r.2 with
  | .done _ => s.wakeWriters.setParty t fun q => { q with pc := .outside }
  | .failed => s.setParty t fun q => { q with pc := .outside }
  | .blocked => s.setParty t fun q => { q with pc := .reading n, asleep := true }

/-- `pipeclose`. -/
def runClose (s : PipeState T) (writable : Bool) : PipeState T :=
  let s := { s with pipe := s.pipe.pipeclose writable }
  if writable then s.wakeReaders else s.wakeWriters

/-- What `t` does next in its call, if it is awake inside one. -/
def continuing (s : PipeState T) (t : T) : PipePc :=
  if (s.party t).asleep then .outside else (s.party t).pc

def next (s : PipeState T) : PipeAct T → Option (PipeState T)
  | .write t bs =>
    if s.pipe.freed = false ∧ (s.party t).pc = .outside then some (s.runWrite t bs) else none
  | .read t n =>
    if s.pipe.freed = false ∧ (s.party t).pc = .outside then some (s.runRead t n) else none
  | .resume t =>
    if s.pipe.freed then none
    else
      match s.continuing t with
      | .outside => none
      | .writing rest => some (s.runWrite t rest)
      | .reading n => some (s.runRead t n)
  | .close writable => if s.pipe.freed then none else some (s.runClose writable)
  | .kill t => some (s.setParty t fun q => { q with killed := true, asleep := false })
  | .mark t => some (s.setParty t fun q => { q with killed := true })

/-! ## What a step reads and writes -/

/-- The stretch of `pipewrite` a step is: the party and the bytes left. -/
def writer (s : PipeState T) : PipeAct T → Option (T × List UInt8)
  | .write t bs => some (t, bs)
  | .resume t =>
    match s.continuing t with
    | .writing rest => some (t, rest)
    | _ => none
  | _ => none

/-- The stretch of `piperead` a step is: the party and its request. -/
def reader (s : PipeState T) : PipeAct T → Option (T × Int)
  | .read t n => some (t, n)
  | .resume t =>
    match s.continuing t with
    | .reading n => some (t, n)
    | _ => none
  | _ => none

def stored (s : PipeState T) (a : PipeAct T) : List UInt8 :=
  match s.writer a with
  | none => []
  | some w => (s.pipe.pipewrite (s.party w.1).killed w.2).2.1

/-- What `piperead` returns in a step. -/
def returned (s : PipeState T) (a : PipeAct T) : Option (List UInt8) :=
  match s.reader a with
  | none => none
  | some r => (s.pipe.piperead (s.party r.1).killed r.2).2.returned

/-- All bytes stored, in the order they were stored. -/
def storedBytes (tr : List (PipeState T × PipeAct T)) : List UInt8 :=
  tr.flatMap fun e => e.1.stored e.2

/-- All bytes returned by `piperead`, in order. -/
def returnedBytes (tr : List (PipeState T × PipeAct T)) : List UInt8 :=
  tr.flatMap fun e => (e.1.returned e.2).getD []

/-- A new pipe (`pipealloc`): nobody is in a call. -/
structure New (s : PipeState T) : Prop where
  nread : s.pipe.nread = 0
  nwrite : s.pipe.nwrite = 0
  ends : s.pipe.readopen = true ∧ s.pipe.writeopen = true
  idle : ∀ t, (s.party t).pc = .outside ∧ (s.party t).asleep = false

end PipeState

end Xv6.Sync
