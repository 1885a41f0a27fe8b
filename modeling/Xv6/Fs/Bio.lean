/-
Xv6.Fs.Bio — the buffer cache of `bio.c` as it is: `NBUF` buffers on a
list in order of use, each with its flags, count and lock; the disk of
`memide.c`; and `log_write` and `commit` of `log.c` on top.

`Log.lean` has a cache without a size, because a crash forgets it. Here
nothing crashes and the cache is the subject. `bread` is two steps: what
`bget` does under `bcache.lock`, and the return from `acquiresleep` with
the `iderw` after it. Between them the process waits, and others run. The
other calls are one step each, `commit` too; its loops take locks as
`bread` does, and it is not a step where one of them would have to wait.

The processes keep to what the comments of `bio.c` and `log.c` ask for: a
buffer is changed, logged and released by the process that has it locked,
and is not released between a change and the `log_write` or `bwrite` of
it. `refcnt` counts processes, of which there are `NPROC` at most, so it
is a `Nat` here.
-/
import Xv6.Fs.Log

namespace Xv6.Fs

open Xv6.Lib

abbrev BufIdx := Fin nbuf

/-- `struct buf`, with `flags` as its two bits and the pid that holds the
lock. -/
structure Buffer where
  valid : Bool := false
  dirty : Bool := false
  dev : Nat := 0
  blockno : Nat := 0
  lock : Option Int := none
  refcnt : Nat := 0
  data : Block := fun _ => 0

/-- The list through `prev` and `next`, from `head.next` on. Every buffer
is on it. -/
structure Lru where
  order : List BufIdx
  all : ∀ i, i ∈ order

/-- Move to the head of the list. -/
def Lru.touch (l : Lru) (i : BufIdx) : Lru where
  order := i :: l.order.erase i
  all j := by
    by_cases h : j = i
    · simp [h]
    · simp [List.mem_erase_of_ne h, l.all j]

/-- A process in `acquiresleep` of `bread(ROOTDEV, blockno)`. -/
structure Waiter where
  pid : Int
  buf : BufIdx
  blockno : Nat
  deriving DecidableEq

/-- The disk, `bcache` and `struct log`. The last two fields are not in the
source: `changed` marks a buffer that was changed since it was last logged
or written, and `stores` lists what was stored in which block, in order,
through any buffer. -/
structure Bcache where
  disk : Nat → Block
  disksize : Nat
  buf : BufIdx → Buffer
  lru : Lru
  lh : Header
  outstanding : Int
  committing : Bool
  waiting : List Waiter
  changed : BufIdx → Bool
  stores : List (Nat × Block)

/-- Why a call does not return. -/
inductive Stop where
  | panic (msg : String)
  | sleep

/-- `binit`: each buffer is put at the head of the list. -/
def binit (disk : Nat → Block) (disksize : Nat) : Bcache where
  disk := disk
  disksize := disksize
  buf := fun _ => {}
  lru := ⟨(List.finRange nbuf).reverse, by simp⟩
  lh := { n := 0, block := fun _ => 0 }
  outstanding := 0
  committing := false
  waiting := []
  changed := fun _ => false
  stores := []

namespace Bcache

@[simps -fullyApplied disk lh waiting changed stores]
def setBuf (c : Bcache) (i : BufIdx) (f : Buffer → Buffer) : Bcache :=
  { c with buf := Function.update c.buf i (f (c.buf i)) }

@[simps -fullyApplied disk buf waiting stores]
def setChanged (c : Bcache) (i : BufIdx) (x : Bool) : Bcache :=
  { c with changed := Function.update c.changed i x }

@[simps -fullyApplied disk buf changed stores]
def setDisk (c : Bcache) (blockno : Nat) (data : Block) : Bcache :=
  { c with disk := Function.update c.disk blockno data }

@[simps -fullyApplied disk buf waiting changed stores]
def setWaiting (c : Bcache) (ws : List Waiter) : Bcache := { c with waiting := ws }

/-! ## `bio.c` -/

/-- `bget` up to the wait for the buffer's lock. -/
def bget (c : Bcache) (pid : Int) (dev blockno : Nat) : Except Stop (Waiter × Bcache) :=
  match c.lru.order.find? (fun i => (c.buf i).dev = dev ∧ (c.buf i).blockno = blockno) with
  | some i =>
    let w := ⟨pid, i, blockno⟩
    .ok (w, (c.setBuf i fun b => { b with refcnt := b.refcnt + 1 }).setWaiting (w :: c.waiting))
  | none =>
    -- even with `refcnt` 0 a dirty buffer is in use: the log has it
    match c.lru.order.reverse.find? (fun i => (c.buf i).refcnt = 0 ∧ !(c.buf i).dirty) with
    | some i =>
      let w := ⟨pid, i, blockno⟩
      .ok (w, (c.setBuf i fun b =>
        { b with
          dev := dev
          blockno := blockno
          valid := false
          dirty := false
          refcnt := 1 }).setWaiting (w :: c.waiting))
    | none => .error (.panic "bget: no buffers")

def iderw (c : Bcache) (pid : Int) (i : BufIdx) : Except Stop Bcache :=
  let b := c.buf i
  if b.lock ≠ some pid then .error (.panic "iderw: buf not locked")
  else if b.valid ∧ !b.dirty then .error (.panic "iderw: nothing to do")
  else if b.dev ≠ 1 then .error (.panic "iderw: request not for disk 1")
  else if c.disksize ≤ b.blockno then .error (.panic "iderw: block out of range")
  else if b.dirty then
    .ok ((c.setBuf i fun b => { b with dirty := false, valid := true }).setDisk b.blockno b.data)
  else .ok (c.setBuf i fun b => { b with data := c.disk b.blockno, valid := true })

/-- The rest of `bget` and of `bread`, when the lock is free. -/
def acquire (c : Bcache) (w : Waiter) : Except Stop Bcache :=
  if (c.buf w.buf).lock.isSome then .error .sleep
  else
    let c := (c.setBuf w.buf fun b => { b with lock := some w.pid }).setWaiting (c.waiting.erase w)
    if (c.buf w.buf).valid then .ok c else c.iderw w.pid w.buf

/-- `bread` by a process that does not have to wait. -/
def bread (c : Bcache) (pid : Int) (blockno : Nat) : Except Stop (BufIdx × Bcache) := do
  let (w, c) ← c.bget pid rootdev blockno
  let c ← c.acquire w
  return (w.buf, c)

def bwrite (c : Bcache) (pid : Int) (i : BufIdx) : Except Stop Bcache :=
  if (c.buf i).lock ≠ some pid then .error (.panic "bwrite")
  else
    ((c.setBuf i fun b => { b with dirty := true }).setChanged i false).iderw pid i

def brelse (c : Bcache) (pid : Int) (i : BufIdx) : Except Stop Bcache :=
  if (c.buf i).lock ≠ some pid then .error (.panic "brelse")
  else
    let c := c.setBuf i fun b => { b with lock := none, refcnt := b.refcnt - 1 }
    .ok (if (c.buf i).refcnt = 0 then { c with lru := c.lru.touch i } else c)

@[simps -fullyApplied buf changed]
def store (c : Bcache) (blockno : Nat) (data : Block) : Bcache :=
  { c with stores := c.stores ++ [(blockno, data)] }

/-- `b->data` gets new contents. -/
def setData (c : Bcache) (i : BufIdx) (data : Block) : Bcache :=
  ((c.setBuf i fun b => { b with data := data }).setChanged i true).store (c.buf i).blockno data

/-! ## `log.c` -/

def logWrite (sb : Superblock) (c : Bcache) (i : BufIdx) : Except Stop Bcache :=
  if logsize ≤ c.lh.n ∨ sb.nlog ≤ c.lh.n + 1 then .error (.panic "too big a transaction")
  else if c.outstanding < 1 then .error (.panic "log_write outside of trans")
  else
    .ok { (c.setBuf i fun b => { b with dirty := true }).setChanged i false with
      lh := State.absorb c.lh (c.buf i).blockno }

/-- What `write_log` and `install_trans` do with their two buffers: copy
one over the other, write it, release both. -/
def overwrite (c : Bcache) (pid : Int) (dst src : BufIdx) : Except Stop Bcache := do
  let c ← (c.setData dst (c.buf src).data).bwrite pid dst
  let c ← c.brelse pid src
  c.brelse pid dst

/-- One round of `write_log`. -/
def writeLogOne (sb : Superblock) (pid : Int) (c : Bcache) (tail : Nat) : Except Stop Bcache := do
  let (dst, c) ← c.bread pid (sb.logstart + tail + 1)
  let (src, c) ← c.bread pid (c.lh.block tail)
  c.overwrite pid dst src

/-- One round of `install_trans`. -/
def installOne (sb : Superblock) (pid : Int) (c : Bcache) (tail : Nat) : Except Stop Bcache := do
  let (lbuf, c) ← c.bread pid (sb.logstart + tail + 1)
  let (dbuf, c) ← c.bread pid (c.lh.block tail)
  c.overwrite pid dbuf lbuf

def writeHead (sb : Superblock) (pid : Int) (c : Bcache) : Except Stop Bcache := do
  let (i, c) ← c.bread pid sb.logstart
  let c ← (c.setData i (State.encode c.lh (c.buf i).data)).bwrite pid i
  c.brelse pid i

def commit (sb : Superblock) (pid : Int) (c : Bcache) : Except Stop Bcache := do
  if 0 < c.lh.n then
    let c ← (List.range c.lh.n).foldlM (writeLogOne sb pid) c
    let c ← c.writeHead sb pid
    let c ← (List.range c.lh.n).foldlM (installOne sb pid) c
    { c with lh := { c.lh with n := 0 } }.writeHead sb pid
  else return c

def beginOp (c : Bcache) : Except Stop Bcache :=
  if c.committing then .error .sleep
  else if logsize < c.lh.n + (c.outstanding + 1) * maxopblocks then .error .sleep
  else .ok { c with outstanding := c.outstanding + 1 }

/-- `end_op` up to the call of `commit`. -/
def endOp (c : Bcache) : Except Stop Bcache :=
  let c := { c with outstanding := c.outstanding - 1 }
  if c.committing then .error (.panic "log.committing")
  else if c.outstanding = 0 then .ok { c with committing := true }
  else .ok c

end Bcache

/-- What a process does with the cache. -/
inductive BioAct where
  | bget (pid : Int) (blockno : Nat)
  | acquire (w : Waiter)
  | store (pid : Int) (i : BufIdx) (data : Block)
  | logWrite (pid : Int) (i : BufIdx)
  | bwrite (pid : Int) (i : BufIdx)
  | brelse (pid : Int) (i : BufIdx)
  | beginOp
  | endOp
  | commit (pid : Int)

namespace Bcache

/-- One action; `none` if the caller may not do this. -/
def step (sb : Superblock) (c : Bcache) : BioAct → Option (Except Stop Bcache)
  | .bget pid blockno => some ((c.bget pid rootdev blockno).map Prod.snd)
  | .acquire w => if w ∈ c.waiting then some (c.acquire w) else none
  | .store pid i data => if (c.buf i).lock = some pid then some (.ok (c.setData i data)) else none
  | .logWrite pid i => if (c.buf i).lock = some pid then some (c.logWrite sb i) else none
  | .bwrite pid i => some (c.bwrite pid i)
  | .brelse pid i => if c.changed i then none else some (c.brelse pid i)
  | .beginOp => some c.beginOp
  | .endOp => some c.endOp
  | .commit pid =>
    if c.committing then
      some ((c.commit sb pid).map fun c => { c with committing := false })
    else none

def next (sb : Superblock) (c : Bcache) (a : BioAct) : Option Bcache :=
  match c.step sb a with
  | some (.ok c') => some c'
  | _ => none

end Bcache

end Xv6.Fs
