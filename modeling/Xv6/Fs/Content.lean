/-
Xv6.Fs.Content — the blocks of an inode: `balloc`, `bfree`, `bmap`,
`itrunc` and the copying loops of `readi` and `writei` of `fs.c`.

The functions here work on one in-memory inode, given as its copy of the
`struct dinode`, and on the blocks; `Xv6.Fs.Inode` applies them to an
entry of the inode cache. Inodes and the free bit map have blocks of their
own on the disk. They are kept apart here from the blocks of files: the
bit map as one mark for each block number (its bytes, up to 2^31 blocks,
are in `Xv6.Fs.Bitmap`). A block number that `bmap` returns is used as a
file block whatever it is.

Every call runs inside one transaction of the log, so a block that is
read is the block as last written.
-/
import Xv6.Fs.Block

namespace Xv6.Fs

/-! ## `fs.h` and `stat.h` -/

/-- `BSIZE`: bytes of a block. -/
abbrev bsize : Nat := 512

/-- `NDIRECT`: block numbers in an inode. -/
abbrev ndirect : Nat := 12

/-- `NINDIRECT`: block numbers in an indirect block. -/
abbrev nindirect : Nat := bsize / 4

/-- `MAXFILE`: blocks of the largest file. -/
abbrev maxfile : Nat := ndirect + nindirect

/-- `type` of an inode: 0, `T_DIR`, `T_FILE` and `T_DEV`. -/
inductive InodeType where
  | free
  | dir
  | file
  | dev
  deriving DecidableEq

/-- `struct dinode`. Entry `NDIRECT` of `addrs` is the indirect block;
entries above it are never used. -/
structure Dinode where
  type : InodeType := .free
  major : Int := 0
  minor : Int := 0
  nlink : Int := 0
  size : Nat := 0
  addrs : Nat → Nat := fun _ => 0

def Dinode.setAddr (ip : Dinode) (i addr : Nat) : Dinode :=
  { ip with addrs := Function.update ip.addrs i addr }

section
variable (ip : Dinode) (i addr : Nat)

@[simp] theorem Dinode.setAddr_type : (ip.setAddr i addr).type = ip.type := rfl

@[simp] theorem Dinode.setAddr_self : (ip.setAddr i addr).addrs i = addr := by
  simp [Dinode.setAddr]

theorem Dinode.setAddr_of_ne {i' : Nat} (h : i' ≠ i) :
    (ip.setAddr i addr).addrs i' = ip.addrs i' := by
  simp [Dinode.setAddr, h]

end

/-- The blocks of the disk with the bit map over them. `size` is that of
the superblock, a `uint`. -/
structure Blocks where
  size : Nat
  size_lt : size < 2 ^ 32
  used : Nat → Bool
  data : Nat → Block

namespace Blocks

/-! ## Blocks -/

/-- `balloc`: the first free block, zeroed. -/
def balloc (b : Blocks) : Except String (Nat × Blocks) :=
  match (List.range b.size).find? fun n => !b.used n with
  | none => .error "balloc: out of blocks"
  | some n => .ok (n, { b with
      used := Function.update b.used n true
      data := Function.update b.data n fun _ => 0 })

def bfree (b : Blocks) (n : Nat) : Except String Blocks :=
  if b.used n then .ok { b with used := Function.update b.used n false }
  else .error "freeing free block"

/-! ## Inode content -/

/-- The block number in `addrs[i]`, allocated if there is none. -/
def addrAt (b : Blocks) (ip : Dinode) (i : Nat) : Except String (Nat × Dinode × Blocks) :=
  if ip.addrs i = 0 then do
    let (addr, b) ← b.balloc
    return (addr, ip.setAddr i addr, b)
  else return (ip.addrs i, ip, b)

/-- The block number in entry `m` of the indirect block `ind`, allocated
if there is none. -/
def listedAt (b : Blocks) (ip : Dinode) (ind m : Nat) : Except String (Nat × Dinode × Blocks) :=
  if word (b.data ind) m = 0 then do
    let (addr, b) ← b.balloc
    return (addr, ip, { b with
      data := Function.update b.data ind (setWord (b.data ind) m addr) })
  else .ok (word (b.data ind) m, ip, b)

/-- `bmap`: the `bn`th block of `ip`, allocated if there is none. -/
def bmap (b : Blocks) (ip : Dinode) (bn : Nat) : Except String (Nat × Dinode × Blocks) :=
  if bn < ndirect then b.addrAt ip bn
  else if bn - ndirect < nindirect then do
    -- load the indirect block, allocating if necessary
    let r ← b.addrAt ip ndirect
    r.2.2.listedAt r.2.1 r.1 (bn - ndirect)
  else .error "bmap: out of range"

/-- The loop of `readi` with `n` bytes to go from `off` on. A round copies
at least one byte, so `n` rounds are enough. -/
def readLoop : Nat → Blocks → Dinode → Nat → Nat → Except String (List UInt8 × Dinode × Blocks)
  | 0, b, ip, _, _ => .ok ([], ip, b)
  | fuel + 1, b, ip, off, n =>
    if n = 0 then .ok ([], ip, b)
    else do
      let (addr, ip, b) ← b.bmap ip (off / bsize)
      let m := min n (bsize - off % bsize)
      let copied := (List.range m).map fun i => b.data addr (off % bsize + i)
      let (rest, ip, b) ← readLoop fuel b ip (off + m) (n - m)
      return (copied ++ rest, ip, b)

/-- `memmove(bp->data + start, src, m)`, with `m` the length of `src`. -/
def overwrite (old : Block) (start : Nat) (src : List UInt8) : Block := fun o =>
  if start ≤ o ∧ o < start + src.length then src.getD (o - start) 0 else old o

/-- The bytes `src` are put into block `addr` from `start` on. -/
def put (b : Blocks) (addr start : Nat) (src : List UInt8) : Blocks :=
  { b with data := Function.update b.data addr (overwrite (b.data addr) start src) }

/-- The loop of `writei` with `src` left to write from `off` on; returns
the offset it ends at. -/
def writeLoop : Nat → Blocks → Dinode → Nat → List UInt8 → Except String (Nat × Dinode × Blocks)
  | 0, b, ip, off, _ => .ok (off, ip, b)
  | fuel + 1, b, ip, off, src =>
    if src = [] then .ok (off, ip, b)
    else do
      let (addr, ip, b) ← b.bmap ip (off / bsize)
      let m := min src.length (bsize - off % bsize)
      writeLoop fuel (b.put addr (off % bsize) (src.take m)) ip (off + m) (src.drop m)

/-- The direct blocks of `itrunc`. -/
def truncDirect (b : Blocks) (ip : Dinode) : Except String (Dinode × Blocks) :=
  (List.range ndirect).foldlM (fun (ip, b) i =>
    if ip.addrs i = 0 then .ok (ip, b)
    else do
      let b ← b.bfree (ip.addrs i)
      return (ip.setAddr i 0, b)) (ip, b)

/-- The blocks that the indirect block `ind` lists, in `itrunc`. -/
def truncIndirect (b : Blocks) (ind : Nat) : Except String Blocks :=
  (List.range nindirect).foldlM (fun b' j =>
    if word (b.data ind) j = 0 then .ok b' else b'.bfree (word (b.data ind) j)) b

/-- The second half of `itrunc`: the blocks in the indirect block, and it. -/
def truncListed (b : Blocks) (ip : Dinode) : Except String (Dinode × Blocks) :=
  if ip.addrs ndirect = 0 then .ok ({ ip with size := 0 }, b)
  else do
    let b ← b.truncIndirect (ip.addrs ndirect)
    let b ← b.bfree (ip.addrs ndirect)
    return ({ ip.setAddr ndirect 0 with size := 0 }, b)

/-- `itrunc`, up to its `iupdate`. -/
def itrunc (b : Blocks) (ip : Dinode) : Except String (Dinode × Blocks) := do
  let r ← b.truncDirect ip
  r.2.truncListed r.1

end Blocks

end Xv6.Fs
