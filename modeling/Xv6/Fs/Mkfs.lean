/-
Xv6.Fs.Mkfs — `mkfs.c`, the host program that builds a disk image from a
list of files.

The image is a file of sectors of `BSIZE` bytes. Reading a sector behind
its end makes `mkfs` exit, as a failed assertion does; both are errors
here. An input file is given by its name and by the pieces `read` returns
of it, one after the other.

`xshort` and `xint` store numbers least significant byte first, as `dirent`
and `putDinode` do; what they are applied to when reading is already the
number here. `freeinode` and `freeblock` are `uint`s, but reading a sector
behind the end comes long before they could wrap.
-/
import Xv6.Fs.Disk
import Xv6.Fs.Dir

namespace Xv6.Mkfs

open Xv6.Fs

/-! ## The layout -/

/-- `FSSIZE`: blocks of the file system. -/
abbrev fssize : Nat := 1000

abbrev ninodes : Nat := 200

/-- `LOGSIZE`. -/
abbrev nlog : Nat := logsize

abbrev nbitmap : Nat := fssize / (bsize * 8) + 1

abbrev ninodeblocks : Nat := ninodes / ipb + 1

/-- Boot block, superblock, log, inodes and bit map. -/
abbrev nmeta : Nat := 2 + nlog + ninodeblocks + nbitmap

def sb : DiskSuperblock where
  size := fssize
  nblocks := fssize - nmeta
  ninodes := ninodes
  nlog := nlog
  logstart := 2
  inodestart := 2 + nlog
  bmapstart := 2 + nlog + ninodeblocks

def zeroes : Block := fun _ => 0

/-- The sector with the superblock. -/
def sbSector : Block :=
  [sb.size, sb.nblocks, sb.ninodes, sb.nlog, sb.logstart, sb.inodestart, sb.bmapstart].zipIdx.foldl
    (fun buf w => setWord buf w.2 w.1) zeroes

/-! ## Sectors and inodes -/

/-- The image, and the first inode and block not yet handed out. -/
structure Image where
  sect : Nat → Block := fun _ => zeroes
  nsect : Nat := 0
  freeinode : Nat := 1
  freeblock : Nat := nmeta

abbrev MkM := StateT Image (Except String)

def wsect (sec : Nat) (buf : Block) : MkM Unit :=
  modify fun im => { im with
    sect := Function.update im.sect sec buf
    nsect := max im.nsect (sec + 1) }

def rsect (sec : Nat) : MkM Block := do
  let im ← get
  if sec < im.nsect then return im.sect sec else throw "read"

def winode (inum : Nat) (ip : Dinode) : MkM Unit := do
  let buf ← rsect (sb.layout.iblock inum)
  wsect (sb.layout.iblock inum) (putDinode buf (inum % ipb) ip)

def rinode (inum : Nat) : MkM Dinode := do
  let buf ← rsect (sb.layout.iblock inum)
  return getDinode buf (inum % ipb)

def ialloc (type : InodeType) : MkM Nat := do
  let im ← get
  set { im with freeinode := im.freeinode + 1 }
  winode im.freeinode { type := type, nlink := 1 }
  return im.freeinode

/-- `balloc`: the bit map, with a bit for each of the first `used` blocks. -/
def balloc (used : Nat) : MkM Unit :=
  if used < bsize * 8 then wsect sb.bmapstart ((List.range used).foldl setBit zeroes)
  else throw "assert"

/-- `freeblock++`. -/
def takeBlock : MkM Nat := do
  let im ← get
  set { im with freeblock := im.freeblock + 1 }
  return im.freeblock

/-! ## `iappend` -/

/-- `din.addrs[i]`, handed out if it is 0. -/
def addrAt (din : Dinode) (i : Nat) : MkM (Nat × Dinode) :=
  if din.addrs i = 0 then do
    let x ← takeBlock
    return (x, din.setAddr i x)
  else return (din.addrs i, din)

/-- `indirect[m]` of the indirect block `ind`, handed out if it is 0. -/
def listedAt (ind m : Nat) : MkM Nat := do
  let indirect ← rsect ind
  if word indirect m = 0 then do
    let x ← takeBlock
    wsect ind (setWord indirect m x)
    return word (setWord indirect m x) m
  else return word indirect m

/-- Block `fbn` of a file: the `x` of `iappend`. -/
def fileBlock (din : Dinode) (fbn : Nat) : MkM (Nat × Dinode) :=
  if fbn < ndirect then addrAt din fbn
  else do
    let r ← addrAt din ndirect
    let x ← listedAt r.1 (fbn - ndirect)
    return (x, r.2)

/-- The loop of `iappend` with `p` left to write from `off` on. A round
writes at least one byte. -/
def iappendLoop : Nat → Dinode → Nat → List UInt8 → MkM (Dinode × Nat)
  | 0, din, off, _ => return (din, off)
  | fuel + 1, din, off, p =>
    if p = [] then return (din, off)
    else if maxfile ≤ off / bsize then throw "assert"
    else do
      let r ← fileBlock din (off / bsize)
      let n1 := min p.length ((off / bsize + 1) * bsize - off)
      let buf ← rsect r.1
      wsect r.1 (Blocks.overwrite buf (off - off / bsize * bsize) (p.take n1))
      iappendLoop fuel r.2 (off + n1) (p.drop n1)

def iappend (inum : Nat) (p : List UInt8) : MkM Unit := do
  let din ← rinode inum
  let r ← iappendLoop p.length din din.size p
  winode inum { r.1 with size := r.2 }

/-! ## `main` -/

/-- An argument: the name of a file, and what `read` returns of it. -/
structure Arg where
  name : List UInt8
  chunks : List (List UInt8)

/-- The name without a leading `_`. -/
def Arg.stored (a : Arg) : List UInt8 := if a.name.head? = some 95 then a.name.tail else a.name

/-- The bytes of the file. -/
def Arg.bytes (a : Arg) : List UInt8 := a.chunks.flatten

/-- The round of `main` for one argument. -/
def addFile (rootino : Nat) (a : Arg) : MkM Unit :=
  if slash ∈ a.name then throw "assert"
  else do
    let inum ← ialloc .file
    iappend rootino (dirent inum a.stored)
    a.chunks.forM (iappend inum)

/-- The size of the root directory is rounded up. -/
def fixRoot (rootino : Nat) : MkM Unit := do
  let din ← rinode rootino
  winode rootino { din with size := (din.size / bsize + 1) * bsize }

/-- The root directory with `.` and `..`. -/
def makeRoot : MkM Nat := do
  let root ← ialloc .dir
  if root = rootino then do
    iappend root (dirent root [46])
    iappend root (dirent root [46, 46])
    return root
  else throw "assert"

/-- `main`. -/
def mkfs (args : List Arg) : MkM Unit := do
  (List.range fssize).forM fun i => wsect i zeroes
  wsect 1 sbSector
  let root ← makeRoot
  args.forM (addFile root)
  fixRoot root
  let im ← get
  balloc im.freeblock

end Xv6.Mkfs
