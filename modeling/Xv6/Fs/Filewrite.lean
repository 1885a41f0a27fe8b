/-
Xv6.Fs.Filewrite — `filewrite` of `file.c` on an inode, in chunks of one
transaction each. The source bytes are taken as given; pipes have no inode
and are left out.
-/
import Xv6.Fs.Inode

namespace Xv6.Fs

/-- `struct file` of an inode. -/
structure File where
  ref : Nat := 0
  readable : Bool := false
  writable : Bool := false
  ip : Option InodeIx := none
  off : Nat := 0

/-- One round of `filewrite`: at most `n1` bytes at the file's offset. -/
def writeChunk (ip : InodeIx) (chunk : List UInt8) (off : Nat) : FsM (Option Nat) := do
  ilock ip
  let r ← writei ip chunk off
  iunlock ip
  return r

/-- The most `filewrite` writes in one transaction. -/
abbrev writeMax : Nat := (maxopblocks - 1 - 1 - 2) / 2 * 512

/-- The loop of `filewrite` with `src` left to write from `off` on: the
offset at its end. -/
def filewriteLoop (ip : InodeIx) : Nat → List UInt8 → Nat → FsM Nat
  | 0, _, off => return off
  | fuel + 1, src, off =>
    if src = [] then return off
    else do
      let chunk := src.take writeMax
      match ← writeChunk ip chunk off with
      | none => return off
      | some r =>
        if r ≠ chunk.length then throw "short filewrite"
        else filewriteLoop ip fuel (src.drop writeMax) (off + r)

/-- `filewrite`: the number of bytes or -1, and the file after it. -/
def filewrite (f : File) (src : List UInt8) : FsM (Option Nat × File) := do
  if f.writable = false then return (none, f)
  else
    match f.ip with
    | none => throw "filewrite"
    | some ip => do
        let off ← filewriteLoop ip src.length src f.off
        return (if off = f.off + src.length then some src.length else none,
          { f with off := toU32 off })

end Xv6.Fs
