/-
Xv6.Fs.Inode — the inode cache of `fs.c`: `ialloc`, `iupdate`, `iget`,
`idup`, `ilock`, `iunlock`, `iput`, `readi` and `writei`.

There is one device. A system call is taken as one step, so a sleep-lock
that is held is held by the caller itself: to acquire it again is to sleep
for ever, which is the error "deadlock" here. The other errors are the
kernel's panics.

An inode number is an index of the inode table; the disk inodes from
`sb.ninodes` on are not part of it and are never used.
-/
import Xv6.Fs.Content

namespace Xv6.Fs

/-- `NDEV`: major device numbers. -/
abbrev ndev : Int := 10

/-- `ROOTINO`: the inode of the root directory. -/
abbrev rootino : Nat := 1

/-- A value stored in a C `short`. -/
def toI16 (x : Int) : Int := x.bmod (2 ^ 16)

structure Inode where
  inum : Nat := 0
  ref : Nat := 0
  locked : Bool := false
  valid : Bool := false
  din : Dinode := {}

/-- `devsw`: what the drivers return, `none` for -1 or no function. -/
structure Devsw where
  read : Int → Nat → Option (List UInt8)
  write : Int → List UInt8 → Option Nat

abbrev InodeIx := Fin ninode

/-- The disk and the inode cache. `ninodes` is that of the superblock. -/
structure FileSys where
  ninodes : Nat
  blocks : Blocks
  dinode : Nat → Dinode
  icache : InodeIx → Inode
  devsw : Devsw

/-- File-system code. -/
abbrev FsM := StateT FileSys (Except String)

namespace FileSys

def setInode (s : FileSys) (ip : InodeIx) (f : Inode → Inode) : FileSys :=
  { s with icache := Function.update s.icache ip (f (s.icache ip)) }

/-- The entry `iget` finds for `inum`. -/
def cached (s : FileSys) (inum : Nat) : Option InodeIx :=
  (List.finRange ninode).find? fun ip => 0 < (s.icache ip).ref ∧ (s.icache ip).inum = inum

/-- The entry `iget` recycles. -/
def empty (s : FileSys) : Option InodeIx :=
  (List.finRange ninode).find? fun ip => (s.icache ip).ref = 0

/-- The inode `ialloc` takes. -/
def freeInode (s : FileSys) : Option Nat :=
  (List.range s.ninodes).find? fun i => 1 ≤ i ∧ (s.dinode i).type = .free

end FileSys

/-! ## The cache -/

def setInode (ip : InodeIx) (f : Inode → Inode) : FsM Unit :=
  modify fun s => s.setInode ip f

def acquiresleep (ip : InodeIx) : FsM Unit := do
  let s ← get
  if (s.icache ip).locked then throw "deadlock"
  else setInode ip fun x => { x with locked := true }

def releasesleep (ip : InodeIx) : FsM Unit :=
  setInode ip fun x => { x with locked := false }

def iupdate (ip : InodeIx) : FsM Unit :=
  modify fun s => { s with
    dinode := Function.update s.dinode (s.icache ip).inum (s.icache ip).din }

def iget (inum : Nat) : FsM InodeIx := do
  let s ← get
  match s.cached inum with
  | some ip => do
      setInode ip fun x => { x with ref := x.ref + 1 }
      return ip
  | none =>
    match s.empty with
    | none => throw "iget: no inodes"
    | some ip => do
        setInode ip fun x => { x with inum := inum, ref := 1, valid := false }
        return ip

def ialloc (type : InodeType) : FsM InodeIx := do
  let s ← get
  match s.freeInode with
  | none => throw "ialloc: no inodes"
  | some inum => do
      set { s with dinode := Function.update s.dinode inum { type := type } }
      iget inum

def idup (ip : InodeIx) : FsM InodeIx := do
  setInode ip fun x => { x with ref := x.ref + 1 }
  return ip

/-- The part of `ilock` that reads the inode. -/
def iload (ip : InodeIx) : FsM Unit := do
  let s ← get
  if (s.icache ip).valid then return
  else if (s.dinode (s.icache ip).inum).type = .free then throw "ilock: no type"
  else setInode ip fun x => { x with valid := true, din := s.dinode x.inum }

def ilock (ip : InodeIx) : FsM Unit := do
  let s ← get
  if (s.icache ip).ref < 1 then throw "ilock"
  else do
    acquiresleep ip
    iload ip

def iunlock (ip : InodeIx) : FsM Unit := do
  let s ← get
  if (s.icache ip).locked = false ∨ (s.icache ip).ref < 1 then throw "iunlock"
  else releasesleep ip

def itrunc (ip : InodeIx) : FsM Unit := do
  let s ← get
  match s.blocks.itrunc (s.icache ip).din with
  | .error m => throw m
  | .ok r => do
      set ({ s with blocks := r.2 }.setInode ip fun x => { x with din := r.1 })
      iupdate ip

/-- The part of `iput` that frees the inode on the disk. -/
def ifree (ip : InodeIx) : FsM Unit := do
  itrunc ip
  setInode ip fun x => { x with din := { x.din with type := .free } }
  iupdate ip
  setInode ip fun x => { x with valid := false }

def iput (ip : InodeIx) : FsM Unit := do
  acquiresleep ip
  let s ← get
  if (s.icache ip).valid = true ∧ (s.icache ip).din.nlink = 0 ∧ (s.icache ip).ref = 1 then
    ifree ip
  releasesleep ip
  setInode ip fun x => { x with ref := x.ref - 1 }

def iunlockput (ip : InodeIx) : FsM Unit := do
  iunlock ip
  iput ip

/-! ## Inode content -/

/-- `readi`; `none` is -1. -/
def readi (ip : InodeIx) (off n : Nat) : FsM (Option (List UInt8)) := do
  let s ← get
  let din := (s.icache ip).din
  if din.type = .dev then
    if din.major < 0 ∨ ndev ≤ din.major then return none
    else return s.devsw.read din.major n
  else if din.size < off ∨ toU32 (off + n) < off then return none
  else
    let n := if din.size < toU32 (off + n) then din.size - off else n
    match Blocks.readLoop n s.blocks din off n with
    | .error m => throw m
    | .ok r => do
        set ({ s with blocks := r.2.2 }.setInode ip fun x => { x with din := r.2.1 })
        return some r.1

/-- `writei`; `none` is -1. -/
def writei (ip : InodeIx) (src : List UInt8) (off : Nat) : FsM (Option Nat) := do
  let s ← get
  let din := (s.icache ip).din
  if din.type = .dev then
    if din.major < 0 ∨ ndev ≤ din.major then return none
    else return s.devsw.write din.major src
  else if din.size < off ∨ toU32 (off + src.length) < off then return none
  else if maxfile * bsize < toU32 (off + src.length) then return none
  else
    match Blocks.writeLoop src.length s.blocks din off src with
    | .error m => throw m
    | .ok r => do
        set ({ s with blocks := r.2.2 }.setInode ip fun x => { x with din := r.2.1 })
        if 0 < src.length ∧ din.size < r.1 then do
          setInode ip fun x => { x with din := { x.din with size := r.1 } }
          iupdate ip
        return some src.length

end Xv6.Fs
