/-
Xv6.Fs.Logged — `writei` with its calls of `log_write`.

The same code as in `Xv6.Fs.Content` and `Xv6.Fs.Inode`, which leave the
log out, here with the number of every block that is passed to
`log_write`: by `balloc` that of the bit map and, through `bzero`, that of
the new block; by `bmap` that of the indirect block; by `writei` that of
the data; by `iupdate` that of the inode. Dropping the numbers gives the
functions there (`LoggedTheorems.lean`).
-/
import Xv6.Fs.Inode
import Xv6.Lib.Traced

namespace Xv6.Fs

open Xv6.Lib

/-- `IPB`: inodes in a block. -/
abbrev ipb : Nat := bsize / 64

/-- `BPB`: bits in a block of the bit map. -/
abbrev bpb : Nat := bsize * 8

/-- Where the superblock says that inodes and bit map begin. -/
structure Layout where
  inodestart : Nat
  bmapstart : Nat

def Layout.iblock (sb : Layout) (i : Nat) : Nat := i / ipb + sb.inodestart

def Layout.bblock (sb : Layout) (b : Nat) : Nat := b / bpb + sb.bmapstart

/-- Code that passes blocks to `log_write` and may panic. -/
abbrev LogM := Traced Nat String

/-- `log_write` of a buffer of block `n`. -/
def logWrite (n : Nat) : LogM Unit := Traced.emit n

variable (sb : Layout)

/-- `balloc`, with its `bzero`. -/
def ballocLog (b : Blocks) : LogM (Nat × Blocks) := do
  let r ← Traced.lift b.balloc
  logWrite (sb.bblock r.1)
  logWrite r.1
  return r

/-- The block number in `addrs[i]`, allocated if there is none. -/
def addrAtLog (b : Blocks) (ip : Dinode) (i : Nat) : LogM (Nat × Dinode × Blocks) :=
  if ip.addrs i = 0 then do
    let r ← ballocLog sb b
    return (r.1, ip.setAddr i r.1, r.2)
  else return (ip.addrs i, ip, b)

/-- The block number in entry `m` of the indirect block `x.1`, allocated
if there is none. -/
def listedAtLog (m : Nat) (x : Nat × Dinode × Blocks) : LogM (Nat × Dinode × Blocks) :=
  if word (x.2.2.data x.1) m = 0 then do
    let r ← ballocLog sb x.2.2
    logWrite x.1
    return (r.1, x.2.1, { r.2 with
      data := Function.update r.2.data x.1 (setWord (r.2.data x.1) m r.1) })
  else return (word (x.2.2.data x.1) m, x.2)

/-- `bmap`. -/
def bmapLog (b : Blocks) (ip : Dinode) (bn : Nat) : LogM (Nat × Dinode × Blocks) :=
  if bn < ndirect then addrAtLog sb b ip bn
  else if bn - ndirect < nindirect then
    addrAtLog sb b ip ndirect >>= listedAtLog sb (bn - ndirect)
  else Traced.lift (.error "bmap: out of range")

/-- The loop of `writei`. -/
def writeLoopLog : Nat → Blocks → Dinode → Nat → List UInt8 → LogM (Nat × Dinode × Blocks)
  | 0, b, ip, off, _ => return (off, ip, b)
  | fuel + 1, b, ip, off, src =>
    if src = [] then return (off, ip, b)
    else do
      let r ← bmapLog sb b ip (off / bsize)
      let m := min src.length (bsize - off % bsize)
      logWrite r.1
      writeLoopLog fuel (r.2.2.put r.1 (off % bsize) (src.take m)) r.2.1 (off + m) (src.drop m)

/-- `writei` of a file or directory. -/
def writeiLog (ip : InodeIx) (src : List UInt8) (off : Nat) (s : FileSys) :
    LogM (Option Nat × FileSys) :=
  if (s.icache ip).din.size < off ∨ toU32 (off + src.length) < off then return (none, s)
  else if maxfile * bsize < toU32 (off + src.length) then return (none, s)
  else do
    let r ← writeLoopLog sb src.length s.blocks (s.icache ip).din off src
    let s' := { s with blocks := r.2.2 }.setInode ip fun x => { x with din := r.2.1 }
    if 0 < src.length ∧ (s.icache ip).din.size < r.1 then do
      -- `iupdate`
      logWrite (sb.iblock (s.icache ip).inum)
      let d : Dinode := { r.2.1 with size := r.1 }
      return (some src.length, { s'.setInode ip fun x => { x with din := d } with
        dinode := Function.update s.dinode (s.icache ip).inum d })
    else return (some src.length, s')

end Xv6.Fs
