/-
Xv6.Kern.Thread — kernel threads: `allocproc`, `tallocproc`, `KT_Create`,
`clone`, `clear_psl` and `KT_Join` of `proc.c`, with the reference counts
of `file.c` they take.

A call is one step: runs are of whole calls. `KT_Create` holds
`sltable.lock` only while it picks the stack slot and `clone` takes
`ptable.lock` twice; in between the slot is marked and the entry is
`EMBRYO`, but another CPU may take and free pages, and its `kill` may mark
the entry.

The stack of slot `i` is the two pages below `STACKBOTTOM - 2*i*PGSIZE`,
as virtual page numbers `slotLow i` (meant to be the guard page) and
`slotLow i + 1`.
-/
import Xv6.Kern.Sched

namespace Xv6.Kern

open Xv6.Mem

variable {ncpu : Nat} (k : Kernel ncpu)

namespace Kernel

/-! ## Files -/

def filedup (f : FileIdx) : Except String (Kernel ncpu) :=
  if (k.file f).ref < 1 then .error "filedup"
  else .ok { k with file := Function.update k.file f
                            { k.file f with ref := toI32 ((k.file f).ref + 1) } }

/-- `idup`; the source calls it on a null `cwd` too, which never happens. -/
def idup (ip : Option InodeIdx) : Kernel ncpu :=
  match ip with
  | none => k
  | some i => { k with iref := Function.update k.iref i (k.iref i + 1) }

/-- The file-copying loop of `fork` and `clone`, from `cur` to `np`. -/
def dupFiles (cur np : ProcIdx) : Except String (Kernel ncpu) :=
  (List.finRange nofile).foldlM
    (fun k fd =>
      match (k.proc cur).ofile fd with
      | none => .ok k
      | some f =>
        match k.filedup f with
        | .error e => .error e
        | .ok k => .ok (k.setProc np fun q =>
          { q with ofile := Function.update q.ofile fd (some f) })) k

/-! ## Process-table entries -/

/-- The scan of `allocproc` and `tallocproc`. -/
def findUnused : Option ProcIdx :=
  entries.find? (fun p => (k.proc p).state = .unused)

/-- The kernel stack part of both: on failure the entry is `UNUSED`
again. The trap frame lies in the stack page and is not cleared. -/
def allocKstack (p : ProcIdx) : Option ProcIdx × Kernel ncpu :=
  match k.vm.kalloc with
  | (none, vm) =>
    (none, { k.setProc p fun q => { q with kstack := none, state := .unused } with vm := vm })
  | (some pg, vm) =>
    (some p, { k.setProc p fun q => { q with kstack := some pg } with vm := vm })

def allocproc : Option ProcIdx × Kernel ncpu :=
  match k.findUnused with
  | none => (none, k)
  | some p =>
    { k.setProc p fun q => { q with state := .embryo, pid := k.nextpid } with
      nextpid := toI32 (k.nextpid + 1) }.allocKstack p

/-- `tallocproc`: no new pid. -/
def tallocproc : Option ProcIdx × Kernel ncpu :=
  match k.findUnused with
  | none => (none, k)
  | some p => (k.setState p .embryo).allocKstack p

/-- `kfree(p->kstack); p->kstack = 0`. -/
def freeKstack (p : ProcIdx) : Except String (Kernel ncpu) :=
  match (k.proc p).kstack with
  | none => .error "kfree"
  | some pg => .ok { k.setProc p fun q => { q with kstack := none } with vm := k.vm.kfree pg }

/-- `freevm(p->pgdir)`. -/
def freevmOf (p : ProcIdx) : Except String (Kernel ncpu) :=
  match (k.proc p).pgdir with
  | none => .error "freevm: no pgdir"
  | some d => .ok { k with vm := k.vm.freevm d }

/-! ## `clone` -/

/-- The virtual page number of the lower page of stack slot `i`. -/
def slotLow (i : Nat) : Nat := stackbottom / pgsize - 2 * (i + 1)

/-- A 32-bit word in memory order. -/
def wordBytes (w : Nat) : List UInt8 :=
  [UInt8.ofNat w, UInt8.ofNat (w / 2 ^ 8), UInt8.ofNat (w / 2 ^ 16), UInt8.ofNat (w / 2 ^ 24)]

/-- The fields `clone` gives to the new thread before it copies the files. -/
def cloneFields (cur : ProcIdx) (slindex : Int) (old q : Proc) : Proc :=
  { q with
    pthread := some cur
    psl := old.psl
    slindex := slindex
    pgdir := old.pgdir
    sz := old.sz
    tf := old.tf }

/-- `clone(sp, slindex, fnc, arg)` by `cur`: the new thread's tid, or `-1`. -/
def clone (cur : ProcIdx) (sp : Nat) (slindex : Int) (fnc arg : Nat) :
    Except String (Int × Kernel ncpu) :=
  match k.tallocproc with
  | (none, k) => .ok (-1, k)
  | (some nt, k) =>
    match (k.setProc nt (cloneFields cur slindex (k.proc cur))).dupFiles cur nt with
    | .error e => .error e
    | .ok k =>
      let old := k.proc cur
      let k := (k.idup old.cwd).setProc nt fun q =>
        { q with
          cwd := old.cwd
          name := old.name
          pid := old.pid
          tid := toI32 (old.tid + 1) }
      let sp := toU32 (sp - 8)
      match old.pgdir with
      | none => .error "uva2ka: null pte"
      | some d =>
        match k.vm.copyout d sp (wordBytes 0xffffffff ++ wordBytes arg) with
        | .error e => .error e
        | .ok (false, vm) => .ok (-1, { k with vm := vm })
        | .ok (true, vm) =>
          .ok (toI32 (old.tid + 1),
            { k with vm := vm }.setProc nt fun q =>
              { q with tf := { q.tf with eip := fnc, esp := sp }, state := .runnable })

/-! ## `KT_Create` -/

/-- The entries of `sltable.psl`, in scan order. -/
def pslEntries : List PslIdx := List.finRange ktTablesize

/-- The scan for a free stack list. -/
def findPsl : Option PslIdx :=
  pslEntries.find? (fun s => (k.psl s).state = .unused)

/-- The scan for a free stack slot. -/
def findSlot (l : Psl) : Option Nat :=
  (List.range 8).find? (fun i => l.stackz i = false)

/-- Allocate the stack of slot `i` and take `PTE_U` off `guard` pages
below its top; `none` is the `goto bad` of a failed `allocuvm`. -/
def stackAlloc (d i guard : Nat) : Except String (Option Nat × Kernel ncpu) :=
  match k.vm.allocuvm d (slotLow i * pgsize) ((slotLow i + 2) * pgsize) with
  | .error e => .error e
  | .ok (0, vm) => .ok (none, { k with vm := vm })
  | .ok (sp, vm) =>
    match vm.clearpteu d (sp / pgsize - guard) with
    | .error e => .error e
    | .ok vm => .ok (some sp, { k with vm := vm })

/-- The `bad:` exit of `KT_Create`. -/
def ktBad (d : Nat) : Int × Kernel ncpu :=
  (-1, { k with vm := k.vm.freevm d })

/-- `KT_Create` by a process without a stack list that found entry `s`
free. It clears `PTE_U` four pages below the stack pointer, two too many. -/
def ktFirst (cur : ProcIdx) (d : Nat) (s : PslIdx) (fnc arg : Nat) :
    Except String (Int × Kernel ncpu) :=
  let k := (k.setPsl s fun l =>
      { stackz := Function.update l.stackz 0 true, threadCount := 2, state := .used }).setProc cur
    fun q => { q with psl := some s, slindex := 0 }
  match k.stackAlloc d 1 4 with
  | .error e => .error e
  | .ok (none, k) => .ok (k.ktBad d)
  | .ok (some sp, k) =>
    (k.setPsl s fun l => { l with stackz := Function.update l.stackz 1 true }).clone
      cur sp 1 fnc arg

/-- `KT_Create` by a process with stack list `s`. Without a free slot the
loop ends with `sp = 0` and `slindex = -1`. -/
def ktNext (cur : ProcIdx) (d : Nat) (s : PslIdx) (fnc arg : Nat) :
    Except String (Int × Kernel ncpu) :=
  if (k.psl s).threadCount = 8 then .ok (-1, k)
  else
    let k := k.setPsl s fun l => { l with threadCount := l.threadCount + 1 }
    match findSlot (k.psl s) with
    | none => k.clone cur 0 (-1) fnc arg
    | some i =>
      match k.stackAlloc d i 2 with
      | .error e => .error e
      | .ok (none, k) => .ok (k.ktBad d)
      | .ok (some sp, k) =>
        (k.setPsl s fun l => { l with stackz := Function.update l.stackz i true }).clone
          cur sp i fnc arg

/-- `KT_Create(fnc, arg)` by `cur`: the new thread's tid, or `-1`. When no
stack list is free the search loop just ends, and `clone` is called with
a null stack. -/
def ktCreate (cur : ProcIdx) (fnc arg : Nat) :
    Except String (Int × Kernel ncpu) :=
  if fnc = 0 then .ok (-1, k)
  else
    match (k.proc cur).pgdir with
    | none => .error "allocuvm: no pgdir"
    | some d =>
      match (k.proc cur).psl with
      | some s => k.ktNext cur d s fnc arg
      | none =>
        match k.findPsl with
        | none => k.clone cur 0 (-1) fnc arg
        | some s => k.ktFirst cur d s fnc arg

/-! ## `clear_psl` and `KT_Join` -/

/-- `clear_psl(p)` for a process with stack list `s`. -/
def clearPsl (p : ProcIdx) (s : PslIdx) : Except String (Kernel ncpu) :=
  let i := (k.proc p).slindex
  match (k.proc p).pgdir with
  | none => .error "walkpgdir: no pgdir"
  | some d =>
    let vm := (k.vm.deallocuvm d (toU32 (stackbottom - i * 2 * pgsize))
      (toU32 (stackbottom - 2 * pgsize - i * 2 * pgsize))).2
    let k := { k with vm := vm }.setProc p fun q => { q with slindex := 0 }
    .ok (k.setPsl s fun l =>
      { stackz := Function.update l.stackz i false
        threadCount := l.threadCount - 1
        state := if l.threadCount - 1 = 0 then .unused else l.state })

/-- `if(p->psl != 0) clear_psl(p)`. -/
def clearPsl? (p : ProcIdx) : Except String (Kernel ncpu) :=
  match (k.proc p).psl with
  | none => .ok k
  | some s => k.clearPsl p s

/-- The field resets with which `wait` and `KT_Join` give an entry back. -/
def release (p : ProcIdx) : Kernel ncpu :=
  k.setProc p fun q =>
    { q with
      pid := 0
      parent := none
      name := ""
      killed := false
      tid := 0
      pthread := none
      psl := none
      slindex := 0
      state := .unused }

/-- `p->psl == 0 || p->psl->thread_count == 0`. -/
def lastOfPsl (p : ProcIdx) : Bool :=
  match (k.proc p).psl with
  | none => true
  | some s => (k.psl s).threadCount = 0

/-- What `KT_Join` does to the zombie thread it found. It frees the page
table BEFORE the thread is taken off its stack list. -/
def joinReap (p : ProcIdx) : Except String (Int × Kernel ncpu) :=
  let tid := (k.proc p).tid
  match k.freeKstack p with
  | .error e => .error e
  | .ok k =>
    match (if k.lastOfPsl p then k.freevmOf p else .ok k) with
    | .error e => .error e
    | .ok k =>
      match k.clearPsl? p with
      | .error e => .error e
      | .ok k => .ok (tid, k.release p)

/-- The scan of `wait` and `KT_Join` over the entries `mine` selects: the
first zombie among them. -/
def findZombie (mine : Proc → Bool) : Option ProcIdx :=
  entries.find? (fun p => mine (k.proc p) && (k.proc p).state == .zombie)

/-- `havekids` of both. -/
def haveKids (mine : Proc → Bool) : Bool :=
  entries.any (fun p => mine (k.proc p))

/-- One round of `KT_Join` by the process of CPU `c`: a return value, or
`none` when it went to sleep and will scan again. -/
def ktJoin (c : Fin ncpu) (cur : ProcIdx) :
    Except String (Option Int × Kernel ncpu) :=
  let mine := fun q : Proc => decide (q.pthread = some cur)
  match k.findZombie mine with
  | some p =>
    match k.joinReap p with
    | .error e => .error e
    | .ok (tid, k) => .ok (some tid, k)
  | none =>
    if !k.haveKids mine || (k.proc cur).killed then .ok (some (-1), k)
    else .ok (none, k.sleep c cur (.ofPsl (k.proc cur).psl))

end Kernel

end Xv6.Kern
