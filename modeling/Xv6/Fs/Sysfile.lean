/-
Xv6.Fs.Sysfile — `mkdir`, `unlink` and `chdir` of `sysfile.c`, for a
process whose current directory is `cwd`.

The path is taken as given: what `argstr` refuses changes nothing.
-/
import Xv6.Fs.Dir

namespace Xv6.Fs

def inumOf (ip : InodeIx) : FsM Nat := do
  let s ← get
  return (s.icache ip).inum

def typeOf (ip : InodeIx) : FsM InodeType := do
  let s ← get
  return (s.icache ip).din.type

/-- `ip->nlink += d; iupdate(ip)`. -/
def addLink (ip : InodeIx) (d : Int) : FsM Unit := do
  setInode ip fun x => { x with din := { x.din with nlink := toI16 (x.din.nlink + d) } }
  iupdate ip

/-- The names `"."` and `".."`. -/
abbrev dot : List UInt8 := [46]
abbrev dotdot : List UInt8 := [46, 46]

/-- The new inode of `create`, with its first fields. -/
def createInode (type : InodeType) (major minor : Int) : FsM InodeIx := do
  let ip ← ialloc type
  ilock ip
  setInode ip fun x => { x with din := { x.din with major := major, minor := minor, nlink := 1 } }
  iupdate ip
  return ip

/-- The `.` and `..` entries of a new directory `ip` in `dp`. -/
def createDots (dp ip : InodeIx) : FsM Unit := do
  addLink dp 1
  if ← dirlink ip dot (← inumOf ip) then
    if ← dirlink ip dotdot (← inumOf dp) then return
    else throw "create dots"
  else throw "create dots"

/-- `create`; the inode is locked. -/
def create (cwd : InodeIx) (path : List UInt8) (type : InodeType) (major minor : Int) :
    FsM (Option InodeIx) := do
  match ← nameiparent cwd path with
  | none => return none
  | some d => do
      ilock d.1
      match ← dirlookup d.1 d.2 with
      | some e => do
          iunlockput d.1
          ilock e.1
          if type = .file ∧ (← typeOf e.1) = .file then return some e.1
          else do
            iunlockput e.1
            return none
      | none => do
          let ip ← createInode type major minor
          if type = .dir then createDots d.1 ip
          if ← dirlink d.1 d.2 (← inumOf ip) then do
            iunlockput d.1
            return some ip
          else throw "create: dirlink"

end Xv6.Fs
