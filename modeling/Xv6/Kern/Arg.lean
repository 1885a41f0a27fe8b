/-
Xv6.Kern.Arg — system call arguments: `fetchint`, `fetchstr`, `argint`,
`argptr` and `argstr` of `syscall.c`.

The kernel runs on the page table of the calling process and reads user
memory by plain loads. A load in kernel mode does not look at `PTE_U`; one
of a page that is not present is a page fault in the kernel, for which
`trap` panics.

The functions return `-1` as `none`. On success they return what they
store through their pointer argument, and `fetchstr` and `argstr` the
length as well.
-/
import Xv6.Mem.CopyTheorems
import Xv6.Kern.Thread

namespace Xv6.Kern.Kernel

open Xv6.Mem

variable {ncpu : Nat} (k : Kernel ncpu)

/-- A load of the byte at user address `va` while `p` runs in the kernel. -/
def load (p : ProcIdx) (va : Nat) : Except String UInt8 :=
  match (k.proc p).pgdir.bind fun d => k.vm.read d va with
  | none => .error "trap"
  | some b => .ok b

/-- `*(int*)va`. -/
def loadInt (p : ProcIdx) (va : Nat) : Except String Int := do
  let b0 ← k.load p va
  let b1 ← k.load p (va + 1)
  let b2 ← k.load p (va + 2)
  let b3 ← k.load p (va + 3)
  return toI32 (b0.toNat + b1.toNat * 2 ^ 8 + b2.toNat * 2 ^ 16 + b3.toNat * 2 ^ 24)

def fetchint (p : ProcIdx) (addr : Nat) : Except String (Option Int) :=
  if kernbase ≤ addr ∨ kernbase < toU32 (addr + 4) then .ok none
  else do
    let i ← k.loadInt p addr
    return some i

/-- The loop of `fetchstr` with `n` bytes to go to `KERNBASE`: the address
of the first zero byte from `s` on. -/
def fetchstrLoop (k : Kernel ncpu) (p : ProcIdx) : Nat → Nat → Except String (Option Nat)
  | 0, _ => .ok none
  | n + 1, s => do
      let b ← k.load p s
      if b = 0 then return some s else k.fetchstrLoop p n (s + 1)

/-- `fetchstr`: the address and the length of the string. -/
def fetchstr (p : ProcIdx) (addr : Nat) : Except String (Option (Nat × Nat)) :=
  if kernbase ≤ addr then .ok none
  else do
    let r ← k.fetchstrLoop p (kernbase - addr) addr
    return r.map fun s => (addr, s - addr)

/-- Where the `n`th argument is: `tf->esp + 4 + 4*n`. -/
def argAddr (p : ProcIdx) (n : Int) : Nat :=
  toU32 ((k.proc p).tf.esp + 4 + 4 * n)

def argint (p : ProcIdx) (n : Int) : Except String (Option Int) :=
  k.fetchint p (k.argAddr p n)

/-- `argptr`: the pointer to a block of `size` bytes. -/
def argptr (p : ProcIdx) (n size : Int) : Except String (Option Nat) := do
  match ← k.argint p n with
  | none => return none
  | some i =>
    if size < 0 ∨ kernbase ≤ toU32 i ∨ kernbase < toU32 (toU32 i + size) then return none
    else return some (toU32 i)

def argstr (p : ProcIdx) (n : Int) : Except String (Option (Nat × Nat)) := do
  match ← k.argint p n with
  | none => return none
  | some addr => k.fetchstr p (toU32 addr)

end Xv6.Kern.Kernel
