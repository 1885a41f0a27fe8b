/-
Xv6.Fs.Log — the redo log of `log.c` over the buffer cache of `bio.c`, as
a state machine that can crash after every disk write.

A step of `commit` or `recover_from_log` is one round of one of its
loops, so it issues at most one disk write; other processes may read and
evict buffers between any two steps. A file-system operation is known by
a number from its `begin_op` to its `end_op`. `log_write` tests the length
of the log BEFORE it takes the lock of the log, so it is two steps: `write`
up to the lock, and `append` from there. The buffer stays locked from
before the first to after the second, so its contents count from `append`.

The cache has no size here: a clean buffer may be dropped at any time, a
dirty one never. `bget` panics when every buffer is in use; a panic
leaves the disk as it is, so what a machine can do after it is what it
can do after a crash. The negative count a damaged header may hold is
read as 0, since the loops over it do nothing.
-/
import Xv6.Fs.Block
import Xv6.Lib.Writes
import Xv6.Lib.Run

namespace Xv6.Fs

/-- A file-system operation in progress. -/
abbrev Op := Nat

/-- Where the superblock says the log is: `nlog` blocks from `logstart`. -/
structure Superblock where
  logstart : Nat
  nlog : Nat

/-- The block belongs to the log. -/
def Superblock.inLog (sb : Superblock) (b : Nat) : Prop :=
  sb.logstart ≤ b ∧ b < sb.logstart + sb.nlog
  deriving Decidable

/-- `struct logheader`. -/
structure Header where
  n : Nat
  block : Nat → Nat

/-- `struct buf`: contents and `B_DIRTY`. -/
structure Buf where
  data : Block
  dirty : Bool

/-- How far `recover_from_log` or `commit` has got. -/
inductive Phase where
  /-- Memory is empty; `read_head` is next. -/
  | booting
  /-- In `write_log`, at `tail`. -/
  | writeLog (tail : Nat)
  /-- Before the `write_head` that commits. -/
  | writeHead
  /-- In `install_trans`, at `tail`. -/
  | install (tail : Nat)
  /-- Before the `write_head` that erases the log. -/
  | eraseHead
  /-- The log is erased; `committing` is still set after a commit. -/
  | release
  /-- Neither is running. -/
  | ready
  deriving DecidableEq

/-- The disk, the buffer cache and `struct log`. -/
structure State where
  disk : Nat → Block
  buf : Nat → Option Buf
  lh : Header
  outstanding : Nat
  committing : Bool
  active : List Op
  /-- The block of an operation that is in `log_write`, past its tests. -/
  checked : Op → Option UInt32
  phase : Phase

inductive Act where
  | beginOp (op : Op)
  /-- `log_write`, up to `acquire(&log.lock)`. -/
  | write (op : Op) (b : UInt32)
  /-- The rest of it. -/
  | append (op : Op) (b : UInt32) (data : Block)
  | endOp (op : Op)
  /-- The next round of `commit` or `recover_from_log`. -/
  | advance
  | read (b : Nat)
  | evict (b : Nat)
  | crash

/-- The machine when it is switched on: nothing but the disk. -/
def boot (disk : Nat → Block) : State where
  disk := disk
  buf := fun _ => none
  lh := { n := 0, block := fun _ => 0 }
  outstanding := 0
  committing := false
  active := []
  checked := fun _ => none
  phase := .booting

namespace State

/-! ## `bio.c` -/

/-- `bread`: the cached copy, or the disk's, which is then cached. -/
def bread (s : State) (b : Nat) : Block × State :=
  match s.buf b with
  | some c => (c.data, s)
  | none =>
    (s.disk b,
      { s with buf := Function.update s.buf b (some { data := s.disk b, dirty := false }) })

/-- `bwrite` of a buffer whose contents are now `data`. -/
def bwrite (s : State) (b : Nat) (data : Block) : State :=
  { s with
    disk := Function.update s.disk b data
    buf := Function.update s.buf b (some { data := data, dirty := false }) }

/-! ## `log.c` -/

/-- One round of `install_trans`. -/
def installOne (sb : Superblock) (s : State) (tail : Nat) : State :=
  let l := s.bread (sb.logstart + tail + 1)
  let d := l.2.bread (s.lh.block tail)
  d.2.bwrite (s.lh.block tail) l.1

/-- `lh->n` of a header block. -/
def headCount (b : Block) : Nat := (toI32 (word b 0)).toNat

def readHead (sb : Superblock) (s : State) : State :=
  let h := s.bread sb.logstart
  { h.2 with
    lh := { n := headCount h.1
            block := fun i => if i < headCount h.1 then word h.1 (i + 1) else s.lh.block i } }

/-- The header block `write_head` writes over `b`. -/
def encode (lh : Header) (b : Block) : Block :=
  (List.range lh.n).foldl (fun b i => setWord b (i + 1) (lh.block i)) (setWord b 0 lh.n)

def writeHead (sb : Superblock) (s : State) : State :=
  let h := s.bread sb.logstart
  h.2.bwrite sb.logstart (encode s.lh h.1)

/-- `log.lh.n = 0; write_head()`. -/
def eraseHead (sb : Superblock) (s : State) : State :=
  { s with lh := { s.lh with n := 0 } }.writeHead sb

/-- One round of `write_log`. -/
def writeLogOne (sb : Superblock) (s : State) (tail : Nat) : State :=
  let t := s.bread (sb.logstart + tail + 1)
  let f := t.2.bread (s.lh.block tail)
  f.2.bwrite (sb.logstart + tail + 1) f.1

/-- `begin_op`; `none` while it would sleep. -/
def beginOp (s : State) (op : Op) : Option State :=
  if s.committing then none
  else if s.lh.n + (s.outstanding + 1) * maxopblocks > logsize then none
  else some { s with outstanding := s.outstanding + 1, active := op :: s.active }

/-- `end_op` up to the call of `commit`, which begins when no operation is
left. -/
def endOp (s : State) (op : Op) : Except String State :=
  let s := { s with outstanding := s.outstanding - 1, active := s.active.erase op }
  if s.committing then .error "log.committing"
  else if s.outstanding = 0 then
    .ok { s with
          committing := true
          phase := if 0 < s.lh.n then .writeLog 0 else .release }
  else .ok s

/-- The index `log_write` finds for `b`: its slot, or the first free one. -/
def slot (lh : Header) (b : Nat) : Nat :=
  ((List.range lh.n).find? fun i => lh.block i = b).getD lh.n

/-- The header after `log_write(b)`. -/
def absorb (lh : Header) (b : Nat) : Header where
  n := if slot lh b = lh.n then lh.n + 1 else lh.n
  block := Function.update lh.block (slot lh b) b

/-- The tests of `log_write`, without the lock of the log. -/
def logTest (sb : Superblock) (s : State) (op : Op) (b : UInt32) : Except String State :=
  if logsize ≤ s.lh.n ∨ sb.nlog ≤ s.lh.n + 1 then .error "too big a transaction"
  else if s.outstanding < 1 then .error "log_write outside of trans"
  else .ok { s with checked := Function.update s.checked op (some b) }

/-- `log_write` under the lock, of a buffer whose contents are now `data`. -/
def logWrite (s : State) (op : Op) (b : UInt32) (data : Block) : State :=
  { s with
    lh := absorb s.lh b.toNat
    buf := Function.update s.buf b.toNat (some { data := data, dirty := true })
    checked := Function.update s.checked op none }

/-- The next round of `commit` or of `recover_from_log`. -/
def advance (sb : Superblock) (s : State) : Option State :=
  match s.phase with
  | .booting => some { s.readHead sb with phase := .install 0 }
  | .writeLog tail =>
    some (if tail < s.lh.n then { s.writeLogOne sb tail with phase := .writeLog (tail + 1) }
      else { s with phase := .writeHead })
  | .writeHead => some { s.writeHead sb with phase := .install 0 }
  | .install tail =>
    some (if tail < s.lh.n then { s.installOne sb tail with phase := .install (tail + 1) }
      else { s with phase := .eraseHead })
  | .eraseHead => some { s.eraseHead sb with phase := .release }
  | .release => some { s with committing := false, phase := .ready }
  | .ready => none

/-- One action, or `none` where it cannot happen. The first process
recovers before any other runs, so no operation begins until then. An
operation in `log_write` does nothing else, and has its block locked. -/
def step (sb : Superblock) (s : State) : Act → Option (Except String State)
  | .beginOp op =>
    if (s.phase = .ready ∨ s.committing) ∧ op ∉ s.active then (s.beginOp op).map .ok else none
  | .write op b =>
    if op ∈ s.active ∧ s.checked op = none ∧ ∀ o ∈ s.active, s.checked o ≠ some b then
      some ((s.bread b.toNat).2.logTest sb op b)
    else none
  | .append op b data =>
    if op ∈ s.active ∧ s.checked op = some b then some (.ok (s.logWrite op b data)) else none
  | .endOp op => if op ∈ s.active ∧ s.checked op = none then some (s.endOp op) else none
  | .advance => (s.advance sb).map .ok
  | .read b => some (.ok (s.bread b).2)
  | .evict b =>
    match s.buf b with
    | some c => if c.dirty then none else some (.ok { s with buf := Function.update s.buf b none })
    | none => none
  | .crash => some (.ok (boot s.disk))

def next (sb : Superblock) (s : State) (a : Act) : Option State :=
  match s.step sb a with
  | some (.ok s') => some s'
  | _ => none

end State

end Xv6.Fs
