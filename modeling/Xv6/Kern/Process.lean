/-
Xv6.Kern.Process — `fork`, `exit`, `wait` and `growproc` of `proc.c`,
`exec` of `exec.c`, and what of `file.c` and `pipe.c` `exit` needs.

`exec` is given the file it loads as data: which program headers it has,
where each segment ends, and whether reading it and copying the arguments
succeed. Everything `exec` does to page tables and to the process entry is
here; the bytes it copies are not.
-/
import Xv6.Kern.Thread

namespace Xv6.Kern

open Xv6.Mem

variable {ncpu : Nat} (k : Kernel ncpu)

namespace Kernel

/-! ## `userinit` -/

/-- The kernel `main` starts from: tables as the loader cleared them, and
memory as `kinit2` left it. -/
def cleared (ncpu : Nat) (vm : Vm) : Kernel ncpu where
  proc := fun _ => {}
  cpu := fun _ => none
  psl := fun _ => {}
  sem := fun _ => {}
  pc := fun _ => .outside
  nextpid := 1
  vm := vm
  file := fun _ => {}
  pipe := fun _ => {}
  iref := fun _ => 0

/-- The trap frame `userinit` writes. -/
def initTrapframe : Trapframe :=
  { cs := 0x1b, ds := 0x23, es := 0x23, ss := 0x23, eflags := 0x200, esp := pgsize, eip := 0 }

/-- `userinit`, which runs `initcode`; `root` is the inode `namei("/")`
returns. -/
def userinit (initcode : List UInt8) (root : InodeIdx) :
    Except String (Kernel ncpu) :=
  match k.allocproc with
  | (none, _) => .error "userinit: no process"
  | (some p, k) =>
    match k.vm.setupkvm with
    | (none, _) => .error "userinit: out of memory?"
    | (some d, vm) =>
      match vm.inituvm d initcode with
      | .error e => .error e
      | .ok vm =>
        .ok ({ k with vm := vm }.idup (some root) |>.setProc p fun q =>
          { q with
            pgdir := some d
            sz := pgsize
            tf := initTrapframe
            name := "initcode"
            cwd := some root
            state := .runnable })

/-! ## `fork` -/

/-- `fork` after a successful `copyuvm` into directory `d'`. -/
def forkFinish (cur np : ProcIdx) (slindex : Int) (d' : Nat) :
    Except String (Int × Kernel ncpu) :=
  let old := k.proc cur
  let k := k.setProc np fun q =>
    { q with
      pgdir := some d'
      sz := old.sz
      parent := some cur
      tf := { old.tf with
              eax := 0
              esp := toU32 (old.tf.esp + slindex * 2 * pgsize) } }
  match k.dupFiles cur np with
  | .error e => .error e
  | .ok k =>
    .ok ((k.proc np).pid,
      (k.idup (k.proc cur).cwd).setProc np fun q =>
        { q with cwd := (k.proc cur).cwd, name := (k.proc cur).name, state := .runnable })

/-- `fork` by `cur`: the child's pid, or `-1`. -/
def fork (cur : ProcIdx) : Except String (Int × Kernel ncpu) :=
  match k.allocproc with
  | (none, k) => .ok (-1, k)
  | (some np, k) =>
    let slindex := if (k.proc cur).psl = none then 0 else (k.proc cur).slindex
    match (k.proc cur).pgdir with
    | none => .error "copyuvm: no pgdir"
    | some d =>
      match k.vm.copyuvm d (k.proc cur).sz slindex with
      | .error e => .error e
      | .ok (none, vm) =>
        match ({ k with vm := vm }.setProc np fun q => { q with pgdir := none }).freeKstack
            np with
        | .error e => .error e
        | .ok k => .ok (-1, k.setState np .unused)
      | .ok (some d', vm) => { k with vm := vm }.forkFinish cur np slindex d'

/-! ## `exit` -/

def pipeclose (pi : Page) (writable : Bool) : Kernel ncpu :=
  let ends := k.pipe pi
  let ends := if writable then { ends with writeopen := false } else { ends with readopen := false }
  let k := { k with pipe := Function.update k.pipe pi ends }.wakeup1
    (if writable then .pipeRead pi else .pipeWrite pi)
  if ends.readopen || ends.writeopen then k else { k with vm := k.vm.kfree pi }

/-- `iput`: the reference; freeing the inode on disk is not modelled here. -/
def iput (ip : Option InodeIdx) : Kernel ncpu :=
  match ip with
  | none => k
  | some i => { k with iref := Function.update k.iref i (k.iref i - 1) }

def fileclose (f : FileIdx) : Except String (Kernel ncpu) :=
  let ff := k.file f
  if ff.ref < 1 then .error "fileclose"
  else if ff.ref - 1 > 0 then
    .ok { k with file := Function.update k.file f { ff with ref := ff.ref - 1 } }
  else
    let k := { k with file := Function.update k.file f { ff with ref := 0, type := .none } }
    match ff.type with
    | .none => .ok k
    | .pipe pi => .ok (k.pipeclose pi ff.writable)
    | .inode ip => .ok (k.iput (some ip))

/-- The file-closing loop of `exit`. -/
def closeFiles (cur : ProcIdx) : Except String (Kernel ncpu) :=
  (List.finRange nofile).foldlM
    (fun k fd =>
      match (k.proc cur).ofile fd with
      | none => .ok k
      | some f =>
        match k.fileclose f with
        | .error e => .error e
        | .ok k => .ok (k.setProc cur fun q =>
          { q with ofile := Function.update q.ofile fd none })) k

/-- `exit` hands the children of `cur` to `initproc`, waking it if one of
them is a zombie. Threads are not children: their `pthread` stays. -/
def reparent (cur : ProcIdx) : Kernel ncpu :=
  let orphan := fun q : Proc => decide (q.parent = some cur)
  let k' :=
    { k with
      proc := fun p =>
        if orphan (k.proc p) then { k.proc p with parent := some initproc } else k.proc p }
  if entries.any (fun p => orphan (k.proc p) && (k.proc p).state == .zombie)
  then k'.wakeup1 (.proc initproc) else k'

/-- `exit` by the process of CPU `c`. -/
def exit (c : Fin ncpu) (cur : ProcIdx) : Except String (Kernel ncpu) :=
  if cur = initproc then .error "init exiting"
  else
    match k.closeFiles cur with
    | .error e => .error e
    | .ok k =>
      let k := (k.iput (k.proc cur).cwd).setProc cur fun q => { q with cwd := none }
      let k := k.wakeup1 (.ofProc (k.proc cur).parent)
      let k := match (k.proc cur).psl with
        | none => k
        | some s => k.wakeup1 (.psl s)
      .ok ((k.reparent cur).schedOut c cur .zombie)

/-! ## `wait` -/

/-- What `wait` does to the zombie child it found. `clear_psl` leaves
`p->psl` as it is, so the page table is freed only for a child that never
had a stack list. -/
def waitReap (p : ProcIdx) : Except String (Int × Kernel ncpu) :=
  let pid := (k.proc p).pid
  match k.freeKstack p with
  | .error e => .error e
  | .ok k =>
    match k.clearPsl? p with
    | .error e => .error e
    | .ok k =>
      match (if (k.proc p).psl = none then k.freevmOf p else .ok k) with
      | .error e => .error e
      | .ok k => .ok (pid, k.release p)

/-- One round of `wait` by the process of CPU `c`: a return value, or
`none` when it went to sleep and will scan again. -/
def wait (c : Fin ncpu) (cur : ProcIdx) :
    Except String (Option Int × Kernel ncpu) :=
  let mine := fun q : Proc => decide (q.parent = some cur)
  match k.findZombie mine with
  | some p =>
    match k.waitReap p with
    | .error e => .error e
    | .ok (pid, k) => .ok (some pid, k)
  | none =>
    if !k.haveKids mine || (k.proc cur).killed then .ok (some (-1), k)
    else .ok (none, k.sleep c cur (.proc cur))

/-! ## `growproc` -/

/-- `growproc` once the new size is known; 0 is its failure. -/
def growFinish (cur : ProcIdx) (sz : Nat) : Except String (Int × Kernel ncpu) :=
  match switchuvm (k.proc cur) with
  | .error e => .error e
  | .ok () => .ok (0, k.setProc cur fun q => { q with sz := sz })

/-- `growproc(n)` by `cur`. -/
def growproc (cur : ProcIdx) (n : Int) : Except String (Int × Kernel ncpu) :=
  let sz := (k.proc cur).sz
  match (k.proc cur).pgdir with
  | none => .error "walkpgdir: no pgdir"
  | some d =>
    if 0 < n then
      match k.vm.allocuvm d sz (toU32 (sz + n)) with
      | .error e => .error e
      | .ok (0, vm) => .ok (-1, { k with vm := vm })
      | .ok (sz, vm) => { k with vm := vm }.growFinish cur sz
    else if n < 0 then
      match k.vm.deallocuvm d sz (toU32 (sz + n)) with
      | (0, vm) => .ok (-1, { k with vm := vm })
      | (sz, vm) => { k with vm := vm }.growFinish cur sz
    else k.growFinish cur sz

/-! ## `exec` -/

/-- The file and arguments of an `exec` call, as far as page tables see
them. A segment is the end of its memory image and whether the rest of
the loop body succeeds for it. -/
inductive ExecFile where
  /-- `namei` or the header check fails. -/
  | absent
  | image (segs : List (Nat × Bool)) (argsFit : Bool) (entry sp : Nat) (name : String)

/-- The segment loop; `none` is a `goto bad`. -/
def execLoad (d : Nat) : List (Nat × Bool) → Nat → Vm → Except String (Option Nat × Vm)
  | [], sz, v => .ok (some sz, v)
  | (newsz, ok) :: rest, sz, v =>
    match v.allocuvm d sz newsz with
    | .error e => .error e
    | .ok (0, v) => .ok (none, v)
    | .ok (sz, v) => if ok then execLoad d rest sz v else .ok (none, v)

/-- Build the new address space in directory `d`: segments and stack slot
0. The size, or `none` for a `goto bad`. -/
def execBuild (d : Nat) (segs : List (Nat × Bool)) (argsFit : Bool) (v : Vm) :
    Except String (Option Nat × Vm) :=
  match execLoad d segs 0 v with
  | .error e => .error e
  | .ok (none, v) => .ok (none, v)
  | .ok (some sz, v) =>
    match v.allocuvm d (slotLow 0 * pgsize) ((slotLow 0 + 2) * pgsize) with
    | .error e => .error e
    | .ok (0, v) => .ok (none, v)
    | .ok (_, v) =>
      match v.clearpteu d (slotLow 0) with
      | .error e => .error e
      | .ok v => .ok (if argsFit then some (pgroundup sz) else none, v)

/-- `exec` by `cur`. The commit replaces `pgdir` and `sz`; `psl` and
`slindex` stay what they were. -/
def exec (cur : ProcIdx) : ExecFile → Except String (Int × Kernel ncpu)
  | .absent => .ok (-1, k)
  | .image segs argsFit entry sp name =>
    match k.vm.setupkvm with
    | (none, vm) => .ok (-1, { k with vm := vm })
    | (some d, vm) =>
      match execBuild d segs argsFit vm with
      | .error e => .error e
      | .ok (none, vm) => .ok (-1, { k with vm := vm.freevm d })
      | .ok (some sz, vm) =>
        match (k.proc cur).pgdir with
        | none => .error "freevm: no pgdir"
        | some old =>
          match switchuvm (k.proc cur) with
          | .error e => .error e
          | .ok () =>
            .ok (0, { k with vm := vm.freevm old }.setProc cur fun q =>
              { q with
                name := name
                pgdir := some d
                sz := sz
                tf := { q.tf with eip := entry, esp := sp } })

end Kernel

end Xv6.Kern
