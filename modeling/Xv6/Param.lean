/-
Xv6.Param — the constants of `param.h`, `fcntl.h`, `mmu.h` and
`memlayout.h` that the model reads, and the two machine-integer
conversions it needs.

Addresses and sizes are `Nat`; a C `uint` that can wrap is reduced with
`toU32`, a C `int` that can wrap with `toI32`. Everything else stays in
range by the bounds the theorems prove.
-/
import Mathlib.Algebra.Group.Int.Defs
import Mathlib.Algebra.GroupWithZero.Nat
import Mathlib.Tactic.Common

namespace Xv6

/-! ## `param.h` -/

/-- `NPROC`: entries of the process table. -/
abbrev nproc : Nat := 128

instance : NeZero nproc := ⟨by decide⟩

/-- `NOFILE`: open files per process. -/
abbrev nofile : Nat := 16

/-- `NFILE`: open files per system. -/
abbrev nfile : Nat := 100

/-- `NINODE`: entries of the inode cache. -/
abbrev ninode : Nat := 50

instance : NeZero ninode := ⟨by decide⟩

/-- `MAXQ`: slots of a semaphore's queue of waiting threads. -/
abbrev maxq : Nat := 7

/-- `KT_TABLESIZE`: entries of the stack-list and semaphore tables. -/
abbrev ktTablesize : Nat := nproc / 2

instance : NeZero ktTablesize := ⟨by decide⟩

/-- `MAXOPBLOCKS`: blocks one file-system operation may write. -/
abbrev maxopblocks : Nat := 10

/-- `LOGSIZE`: data blocks in the on-disk log. -/
abbrev logsize : Nat := maxopblocks * 3

/-- `NBUF`: buffers of the disk block cache. -/
abbrev nbuf : Nat := maxopblocks * 3

/-- `ROOTDEV`: the device of the root file system. -/
abbrev rootdev : Nat := 1

/-! ## `fcntl.h` -/

abbrev oRdonly : Nat := 0
abbrev oWronly : Nat := 1
abbrev oRdwr : Nat := 2
abbrev oCreate : Nat := 0x200

/-! ## `mmu.h` and `memlayout.h` -/

/-- `PGSIZE`: bytes mapped by a page. -/
abbrev pgsize : Nat := 4096

/-- `NPTENTRIES`: entries of a page table. -/
abbrev nptentries : Nat := 1024

/-- `KERNBASE`: the first kernel virtual address. -/
abbrev kernbase : Nat := 0x80000000

/-- `PHYSTOP`: top of physical memory. -/
abbrev phystop : Nat := 0xE000000

/-- `DEVSPACE`: memory-mapped devices from here to the top. -/
abbrev devspace : Nat := 0xFE000000

def pgrounddown (a : Nat) : Nat := a - a % pgsize

/-- `PGROUNDUP(sz)`. No caller comes within a page of `2 ^ 32`. -/
def pgroundup (sz : Nat) : Nat := pgrounddown (sz + pgsize - 1)

/-- `STACKBOTTOM`: the top of user stack slot 0. -/
def stackbottom : Nat := pgrounddown (kernbase - 4)

/-- A value stored in a C `uint`. -/
def toU32 (x : Int) : Nat := (x % 2 ^ 32).toNat

/-- A value stored in a C `int`, two's complement. -/
def toI32 (x : Int) : Int := x.bmod (2 ^ 32)

abbrev intMax : Int := 2 ^ 31 - 1

theorem toI32_of_range {x : Int} (h1 : -2 ^ 31 ≤ x) (h2 : x < 2 ^ 31) :
    toI32 x = x := by
  unfold toI32
  apply Int.bmod_eq_of_le <;> simp <;> omega

@[simp] theorem toI32_add_toI32 (x y : Int) : toI32 (toI32 x + y) = toI32 (x + y) := by
  simp [toI32]

@[simp] theorem toI32_sub_toI32 (x y : Int) : toI32 (toI32 x - y) = toI32 (x - y) := by
  simp [toI32]

/-- A value above `-2 ^ 31` whose stored form is positive is positive
itself: the wrap only turns large values negative. -/
theorem pos_of_toI32_pos {x : Int} (hx : -2 ^ 31 ≤ x) (h : 0 < toI32 x) : 0 < x := by
  rcases Int.lt_or_le 0 x with hpos | hle
  · exact hpos
  · rw [toI32_of_range hx (by omega)] at h
    exact h

theorem stackbottom_eq : stackbottom = 0x7FFFF000 := by decide

end Xv6
