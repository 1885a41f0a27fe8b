/-
Xv6.Kern.Elf — the loading part of `exec`: the ELF header, the program
headers, and `loaduvm`.

The executable is its contents, a list of bytes; `readi` on it is what
`fs.c` does for a file or a directory. The fields of the headers are read
in little endian. All sums that the C code forms of them are `uint`s (or
an `int` that becomes a `uint` again, for `off`) and wrap.

A panic is `Except.error` with the source's message. Two errors have no
counterpart in the source and say that the model ends there: a page that
`loaduvm` finds not present, in which case the source would write to
physical page 0, and a loop of `loaduvm` with more rounds than the size has
pages.
-/
import Xv6.Fs.ByteFile
import Xv6.Mem.Vm

namespace Xv6.Kern.Elf

open Xv6.Mem

/-! ## Files -/

/-- `readi`; `none` is -1. -/
def readi (f : List UInt8) (off n : Nat) : Option (List UInt8) :=
  if f.length < off ∨ toU32 (off + n) < off then none else some ((f.drop off).take n)

/-- `readi(ip, dst, off, n) != n` is a failure. -/
def readAll (f : List UInt8) (off n : Nat) : Option (List UInt8) :=
  (readi f off n).filter fun bs => bs.length = n

/-- The number with these bytes, the lowest first. -/
def number (bs : List UInt8) : Nat := bs.foldr (fun b n => b.toNat + 256 * n) 0

/-- The field of `len` bytes at `off` of a structure. -/
def field (bs : List UInt8) (off len : Nat) : Nat := number ((bs.drop off).take len)

def elfMagic : Nat := 0x464C457F

def elfProgLoad : Nat := 1

/-- `struct elfhdr`, the fields that loading reads. -/
structure Elfhdr where
  magic : Nat
  phoff : Nat
  phnum : Nat
  deriving DecidableEq

/-- `sizeof(struct elfhdr)`. -/
def elfhdrSize : Nat := 52

def elfhdr (bs : List UInt8) : Elfhdr :=
  { magic := field bs 0 4, phoff := field bs 28 4, phnum := field bs 44 2 }

/-- `struct proghdr`, the fields that loading reads. -/
structure Proghdr where
  type : Nat
  off : Nat
  vaddr : Nat
  filesz : Nat
  memsz : Nat
  deriving DecidableEq

/-- `sizeof(struct proghdr)`. -/
def proghdrSize : Nat := 32

def proghdr (bs : List UInt8) : Proghdr :=
  { type := field bs 0 4, off := field bs 4 4, vaddr := field bs 8 4, filesz := field bs 16 4,
    memsz := field bs 20 4 }

/-! ## `loaduvm` -/

/-- The loop of `loaduvm` with `fuel` rounds to go at most. -/
def loaduvmLoop (d addr : Nat) (f : List UInt8) (offset sz : Nat) :
    Nat → Nat → Vm → Except String (Bool × Vm)
  | 0, i, v => if i < sz then .error "loaduvm: too many rounds" else .ok (true, v)
  | fuel + 1, i, v =>
    if i < sz then
      let vpn := toU32 (addr + i) / pgsize
      match (v.space d).pde (vpn / nptentries) with
      | none => .error "loaduvm: address should exist"
      | some _ =>
        match (v.space d).pte vpn with
        | none => .error "loaduvm: page not present"
        | some e =>
          let n := if sz - i < pgsize then sz - i else pgsize
          match readi f (toU32 (offset + i)) n with
          | none => .ok (false, v)
          | some bs =>
            let v := v.storeBytes e.page 0 bs
            if bs.length = n then loaduvmLoop d addr f offset sz fuel (toU32 (i + pgsize)) v
            else .ok (false, v)
    else .ok (true, v)

/-- `loaduvm`; `false` is its return value -1. -/
def loaduvm (v : Vm) (d addr : Nat) (f : List UInt8) (offset sz : Nat) :
    Except String (Bool × Vm) :=
  if addr % pgsize ≠ 0 then .error "loaduvm: addr must be page aligned"
  else loaduvmLoop d addr f offset sz (npages sz) 0 v

/-! ## `exec` -/

/-- The body of the loop over the program headers: the new `sz`, or `none`
for a `goto bad`. -/
def loadSegment (d : Nat) (f : List UInt8) (ph : Proghdr) (sz : Nat) (v : Vm) :
    Except String (Option Nat × Vm) :=
  if ph.type ≠ elfProgLoad then .ok (some sz, v)
  else if ph.memsz < ph.filesz then .ok (none, v)
  else if toU32 (ph.vaddr + ph.memsz) < ph.vaddr then .ok (none, v)
  else
    match v.allocuvm d sz (toU32 (ph.vaddr + ph.memsz)) with
    | .error e => .error e
    | .ok (0, v) => .ok (none, v)
    | .ok (sz, v) =>
      if ph.vaddr % pgsize ≠ 0 then .ok (none, v)
      else
        match loaduvm v d ph.vaddr f ph.off ph.filesz with
        | .error e => .error e
        | .ok (false, v) => .ok (none, v)
        | .ok (true, v) => .ok (some sz, v)

/-- The loop over `n` program headers from `off` on. -/
def loadHeaders (d : Nat) (f : List UInt8) :
    Nat → Nat → Nat → Vm → Except String (Option Nat × Vm)
  | 0, _, sz, v => .ok (some sz, v)
  | n + 1, off, sz, v =>
    match readAll f off proghdrSize with
    | none => .ok (none, v)
    | some bs =>
      match loadSegment d f (proghdr bs) sz v with
      | .error e => .error e
      | .ok (none, v) => .ok (none, v)
      | .ok (some sz, v) => loadHeaders d f n (toU32 (off + proghdrSize)) sz v

/-- `exec` up to the set-up of the stack: the new directory and `sz`, or
`none` when -1 is returned. -/
def load (f : List UInt8) (v : Vm) : Except String (Option (Nat × Nat) × Vm) :=
  match readAll f 0 elfhdrSize with
  | none => .ok (none, v)
  | some bs =>
    if (elfhdr bs).magic ≠ elfMagic then .ok (none, v)
    else
      match v.setupkvm with
      | (none, v) => .ok (none, v)
      | (some d, v) =>
        match loadHeaders d f (elfhdr bs).phnum (elfhdr bs).phoff 0 v with
        | .error e => .error e
        | .ok (none, v) => .ok (none, v.freevm d)
        | .ok (some sz, v) => .ok (some (d, pgroundup sz), v)

/-! ## What the memory should hold -/

/-- `m` with `bs` written at address `va`. -/
def overlay (m : Nat → UInt8) (va : Nat) (bs : List UInt8) : Nat → UInt8 :=
  fun a => if va ≤ a then (bs[a - va]?).getD (m a) else m a

/-- The program headers of a file, in order. -/
def headers (f : List UInt8) : List Proghdr :=
  (List.range (elfhdr f).phnum).map fun k =>
    proghdr ((f.drop ((elfhdr f).phoff + proghdrSize * k)).take proghdrSize)

/-- All zeros, and then the file bytes of every loadable segment at its
`vaddr`, in header order. -/
def image (f : List UInt8) (hs : List Proghdr) : Nat → UInt8 :=
  hs.foldl (fun m ph =>
    if ph.type = elfProgLoad then overlay m ph.vaddr ((f.drop ph.off).take ph.filesz) else m)
    fun _ => 0

end Xv6.Kern.Elf
