/-
Xv6.Fs.Dir — directories and paths: `dirlookup`, `dirlink`, `skipelem` and
`namex` of `fs.c`, with the `strncmp` and `strncpy` of `string.c` they use.

A directory is a file of 16-byte `struct dirent`s. A C string is the list
of its bytes without the final zero. `skipelem` leaves bytes of the
previous element behind the zero it puts into `name`; nothing reads them,
so an element is just its own bytes.

`namex` returns the numbers of the inodes it locked as well, which the
source does not keep.
-/
import Xv6.Fs.Inode

namespace Xv6.Fs

/-- `DIRSIZ`: bytes of a name in a directory entry. -/
abbrev dirsiz : Nat := 14

/-- `sizeof(struct dirent)`. -/
abbrev direntSize : Nat := 16

/-! ## `string.c` -/

/-- `strncmp(p, q, n) == 0`. -/
def strncmpEq : Nat → List UInt8 → List UInt8 → Bool
  | 0, _, _ => true
  | n + 1, p, q =>
    if p.headD 0 ≠ 0 ∧ p.headD 0 = q.headD 0 then strncmpEq n p.tail q.tail
    else p.headD 0 == q.headD 0

/-- The `n` bytes `strncpy(s, t, n)` stores. -/
def strncpy : Nat → List UInt8 → List UInt8
  | 0, _ => []
  | n + 1, t => if t.headD 0 = 0 then List.replicate (n + 1) 0 else t.headD 0 :: strncpy n t.tail

/-! ## `struct dirent` -/

/-- `de.inum`, a `ushort`. -/
def direntInum (de : List UInt8) : Nat := (de.getD 0 0).toNat + (de.getD 1 0).toNat * 2 ^ 8

/-- `de.name`. -/
def direntName (de : List UInt8) : List UInt8 := de.drop 2

/-- The bytes of an entry. -/
def dirent (inum : Nat) (name : List UInt8) : List UInt8 :=
  [UInt8.ofNat inum, UInt8.ofNat (inum / 2 ^ 8)] ++ strncpy dirsiz name

/-- `namecmp(s, t) == 0`. -/
def namecmpEq (s t : List UInt8) : Bool := strncmpEq dirsiz s t

/-! ## Directories -/

/-- `dp->size`. -/
def dirSize (dp : InodeIx) : FsM Nat := do
  let s ← get
  return (s.icache dp).din.size

/-- Reads the entry at `off`; `msg` is the panic of the caller. -/
def readDirent (dp : InodeIx) (off : Nat) (msg : String) : FsM (List UInt8) := do
  match ← readi dp off direntSize with
  | none => throw msg
  | some de => if de.length = direntSize then return de else throw msg

/-- The loop of `dirlookup`: inode number and offset of the entry. -/
def dirlookupLoop (dp : InodeIx) (name : List UInt8) (size : Nat) :
    Nat → Nat → FsM (Option (Nat × Nat))
  | 0, _ => return none
  | fuel + 1, off =>
    if size ≤ off then return none
    else do
      let de ← readDirent dp off "dirlookup read"
      if direntInum de = 0 then dirlookupLoop dp name size fuel (off + direntSize)
      else if namecmpEq name (direntName de) then return some (direntInum de, off)
      else dirlookupLoop dp name size fuel (off + direntSize)

/-- `dirlookup`: the inode and the offset of its entry. -/
def dirlookup (dp : InodeIx) (name : List UInt8) : FsM (Option (InodeIx × Nat)) := do
  let s ← get
  if (s.icache dp).din.type ≠ .dir then throw "dirlookup not DIR"
  else do
    let size ← dirSize dp
    match ← dirlookupLoop dp name size (size / direntSize + 1) 0 with
    | none => return none
    | some r => do
        let ip ← iget r.1
        return some (ip, r.2)

/-- The loop of `dirlink`: the offset of an empty entry, or the end. -/
def dirlinkLoop (dp : InodeIx) (size : Nat) : Nat → Nat → FsM Nat
  | 0, off => return off
  | fuel + 1, off =>
    if size ≤ off then return off
    else do
      let de ← readDirent dp off "dirlink read"
      if direntInum de = 0 then return off else dirlinkLoop dp size fuel (off + direntSize)

/-- `dirlink`; `false` is -1. -/
def dirlink (dp : InodeIx) (name : List UInt8) (inum : Nat) : FsM Bool := do
  match ← dirlookup dp name with
  | some r => do
      iput r.1
      return false
  | none => do
      let size ← dirSize dp
      let off ← dirlinkLoop dp size (size / direntSize + 1) 0
      let r ← writei dp (dirent inum name) off
      if r = some direntSize then return true else throw "dirlink"

/-! ## Paths -/

/-- The byte `'/'`. -/
abbrev slash : UInt8 := 47

/-- `skipelem`: the first element, cut to `DIRSIZ` bytes, and the rest of
the path without leading slashes. -/
def skipelem (path : List UInt8) : Option (List UInt8 × List UInt8) :=
  let path := path.dropWhile (· == slash)
  if path = [] then none
  else
    let elem := path.takeWhile (· != slash)
    some (elem.take dirsiz, (path.drop elem.length).dropWhile (· == slash))

/-- The loop of `namex` from inode `ip` on; `locked` are the numbers of the
inodes locked so far. A round takes at least one byte off the path. -/
def namexLoop (parent : Bool) :
    Nat → InodeIx → List UInt8 → List UInt8 → List Nat →
      FsM (Option (InodeIx × List UInt8) × List Nat)
  | 0, _, _, _, _ => throw "namex: fuel"
  | fuel + 1, ip, path, name, locked =>
    match skipelem path with
    | none =>
      if parent then do
        iput ip
        return (none, locked)
      else return (some (ip, name), locked)
    | some e => do
        ilock ip
        let s ← get
        let locked := locked ++ [(s.icache ip).inum]
        if (s.icache ip).din.type ≠ .dir then do
          iunlockput ip
          return (none, locked)
        else if parent = true ∧ e.2 = [] then do
          -- stop one level early
          iunlock ip
          return (some (ip, e.1), locked)
        else do
          match ← dirlookup ip e.1 with
          | none => do
              iunlockput ip
              return (none, locked)
          | some r => do
              iunlockput ip
              namexLoop parent fuel r.1 e.2 e.1 locked

/-- `namex` for a process whose current directory is `cwd`. -/
def namex (cwd : InodeIx) (path : List UInt8) (parent : Bool) :
    FsM (Option (InodeIx × List UInt8) × List Nat) := do
  let ip ← if path.head? = some slash then iget rootino else idup cwd
  namexLoop parent (path.length + 1) ip path [] []

/-- `nameiparent`: the directory and the last element. -/
def nameiparent (cwd : InodeIx) (path : List UInt8) : FsM (Option (InodeIx × List UInt8)) := do
  let r ← namex cwd path true
  return r.1

end Xv6.Fs
