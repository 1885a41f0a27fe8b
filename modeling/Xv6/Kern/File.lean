/-
Xv6.Kern.File — `filealloc` of `file.c`, `pipealloc` of `pipe.c`, and
`open`, `dup`, `close` and `pipe` of `sysfile.c`, next to the calls of
`Step.lean`.

`filedup`, `fileclose` and `pipeclose` stand with `clone` and `exit`,
which call them too. As there, a call is one action: descriptors belong to
one thread, and only whole calls are seen by others.

`open` is given what its path leads to, with the inode already in the
cache; what happens on disk is the business of `Xv6.Fs`. Of `struct file`
the model has what `filedup` and `fileclose` read, so `open` and `pipe`
set no `readable` and no `off`.
-/
import Xv6.Kern.Step

namespace Xv6.Kern

open Xv6.Lib Xv6.Mem

variable {ncpu : Nat} (k : Kernel ncpu)

namespace Kernel

def setFile (f : FileIdx) (g : File → File) : Kernel ncpu :=
  { k with file := Function.update k.file f (g (k.file f)) }

/-- `p->ofile[fd] = v`. -/
def setOfile (p : ProcIdx) (fd : Fin nofile) (v : Option FileIdx) :
    Kernel ncpu :=
  k.setProc p fun q => { q with ofile := Function.update q.ofile fd v }

def filealloc : Option FileIdx × Kernel ncpu :=
  match (List.finRange nfile).find? (fun f => (k.file f).ref = 0) with
  | none => (none, k)
  | some f => (some f, k.setFile f fun g => { g with ref := 1 })

/-- `fdalloc(f)` by `cur`; `none` is its return value `-1`. -/
def fdalloc (cur : ProcIdx) (f : FileIdx) :
    Option (Fin nofile) × Kernel ncpu :=
  match (List.finRange nofile).find? (fun fd => (k.proc cur).ofile fd = none) with
  | none => (none, k)
  | some fd => (some fd, k.setOfile cur fd (some f))

/-- `argfd` on the integer `fd`. -/
def argfd (cur : ProcIdx) (fd : Int) : Option (Fin nofile × FileIdx) :=
  if h : 0 ≤ fd ∧ fd < nofile then
    let i : Fin nofile := ⟨fd.toNat, by omega⟩
    ((k.proc cur).ofile i).map fun f => (i, f)
  else none

def sysDup (cur : ProcIdx) (fd : Int) : Except String (Int × Kernel ncpu) :=
  match k.argfd cur fd with
  | none => .ok (-1, k)
  | some (_, f) =>
    match k.fdalloc cur f with
    | (none, k) => .ok (-1, k)
    | (some fd, k) =>
      match k.filedup f with
      | .error e => .error e
      | .ok k => .ok (fd, k)

def sysClose (cur : ProcIdx) (fd : Int) : Except String (Int × Kernel ncpu) :=
  match k.argfd cur fd with
  | none => .ok (-1, k)
  | some (fd, f) =>
    match (k.setOfile cur fd none).fileclose f with
    | .error e => .error e
    | .ok k => .ok (0, k)

/-- `sys_open`. `found` is the inode that `create` (with `O_CREATE`) or
`namei` returns, and whether it is a directory; `none` if there is none or
an argument is bad. -/
def sysOpen (cur : ProcIdx) (found : Option (InodeIdx × Bool)) (omode : Nat) :
    Except String (Int × Kernel ncpu) :=
  match found with
  | none => .ok (-1, k)
  | some (ip, dir) =>
    -- the reference that comes with the inode
    let k := k.idup (some ip)
    if omode &&& oCreate = 0 ∧ dir = true ∧ omode ≠ oRdonly then .ok (-1, k.iput (some ip))
    else
      match k.filealloc with
      | (none, k) => .ok (-1, k.iput (some ip))
      | (some f, k) =>
        match k.fdalloc cur f with
        | (none, k) =>
          match k.fileclose f with
          | .error e => .error e
          | .ok k => .ok (-1, k.iput (some ip))
        | (some fd, k) =>
          .ok (fd, k.setFile f fun g =>
            { g with
              type := .inode ip
              writable := omode &&& oWronly != 0 || omode &&& oRdwr != 0 })

/-- `pipealloc`: the read end and the write end, or `none` for `-1`. -/
def pipealloc : Except String (Option (FileIdx × FileIdx) × Kernel ncpu) :=
  match k.filealloc with
  | (none, k) => .ok (none, k)
  | (some f0, k) =>
    match k.filealloc with
    | (none, k) =>
      match k.fileclose f0 with
      | .error e => .error e
      | .ok k => .ok (none, k)
    | (some f1, k) =>
      match k.vm.kalloc with
      | (none, vm) =>
        match { k with vm := vm }.fileclose f0 with
        | .error e => .error e
        | .ok k =>
          match k.fileclose f1 with
          | .error e => .error e
          | .ok k => .ok (none, k)
      | (some p, vm) =>
        .ok (some (f0, f1),
          ({ k with
              vm := vm
              pipe := Function.update k.pipe p { readopen := true, writeopen := true }
            }.setFile f0 fun g => { g with type := .pipe p, writable := false }).setFile f1
              fun g => { g with type := .pipe p, writable := true })

/-- `sys_pipe`; `ptr` says whether `argptr` accepts its argument. -/
def sysPipe (cur : ProcIdx) (ptr : Bool) : Except String (Int × Kernel ncpu) :=
  if !ptr then .ok (-1, k)
  else
    match k.pipealloc with
    | .error e => .error e
    | .ok (none, k) => .ok (-1, k)
    | .ok (some (rf, wf), k) =>
      match k.fdalloc cur rf with
      | (none, k) => closeBoth k rf wf
      | (some fd0, k) =>
        match k.fdalloc cur wf with
        | (none, k) => closeBoth (k.setOfile cur fd0 none) rf wf
        | (some _, k) => .ok (0, k)
where
  closeBoth (k : Kernel ncpu) (rf wf : FileIdx) : Except String (Int × Kernel ncpu) :=
    match k.fileclose rf with
    | .error e => .error e
    | .ok k =>
      match k.fileclose wf with
      | .error e => .error e
      | .ok k => .ok (-1, k)

end Kernel

/-- A call of `sysfile.c` that moves descriptors. -/
inductive FileCall where
  | open (found : Option (InodeIdx × Bool)) (omode : Nat)
  | dup (fd : Int)
  | close (fd : Int)
  | pipe (ptr : Bool)

/-- An action as before, or one of these calls. -/
inductive FileAct (ncpu : Nat) where
  | kern (a : Act ncpu)
  | file (c : Fin ncpu) (op : FileCall)

namespace Kernel

/-- The calls, with their return values. -/
def fileCall (cur : ProcIdx) : FileCall → Except String (Int × Kernel ncpu)
  | .open found omode => k.sysOpen cur found omode
  | .dup fd => k.sysDup cur fd
  | .close fd => k.sysClose cur fd
  | .pipe ptr => k.sysPipe cur ptr

/-- One action; an error is a panic. -/
def fileStep : FileAct ncpu → Option (Except String (Kernel ncpu))
  | .kern a => k.step a
  | .file c op =>
    match k.cpu c with
    | none => none
    | some p => if k.pc p = .outside then some ((k.fileCall p op).map Prod.snd) else none

def fileNext (a : FileAct ncpu) : Option (Kernel ncpu) :=
  match k.fileStep a with
  | some (.ok k') => some k'
  | _ => none

end Kernel

end Xv6.Kern
