/-
Xv6.User.Umalloc — `malloc` and `free` of `umalloc.c`.

The memory is seen through its headers: `ptr` and `size` give the two
fields of the header at an address. A `Header` has 8 bytes, so `p + n` on
headers is `p + 8 * n` on addresses. `nbytes`, `nunits` and the argument of
`sbrk` are `uint`s and wrap. Addresses and the sizes in headers are plain
numbers; they stay below 2^32 because the heap does.

`sbrk` is the environment: it has a list of answers, one for each call.
An answer is an address or a failure; an address is taken only if it is
above all memory there was before, and if the heap stays below 2^31
bytes. The memory obtained this way is recorded in `obtained`.

The loops follow pointers through memory. The first argument of each
function bounds the turns of its loops; `none` means that the bound was
reached, not that the function returned 0.

The program is any sequence of calls of `malloc` and of `free` with a
pointer that `malloc` returned and that was not freed since. `live` holds
these blocks, by the addresses of their headers.
-/
import Xv6.Lib.Run
import Xv6.Lib.Path
import Mathlib.Algebra.Group.Int.Defs
import Mathlib.Data.Set.BooleanAlgebra
import Mathlib.Order.CompletePartialOrder

namespace Xv6.User.Umalloc

open Xv6.Lib Function

/-- `sizeof(Header)`. -/
abbrev headerSize : Nat := 8

/-- The variables of the allocator, the headers, and what `sbrk` did and
will do. -/
structure Arena where
  /-- `&base`. -/
  base : Nat
  freep : Nat
  ptr : Nat → Nat
  size : Nat → Nat
  /-- All memory so far is below. -/
  top : Nat
  /-- The bytes obtained so far. -/
  heap : Nat
  /-- The stretches obtained so far: address and bytes. -/
  obtained : List (Nat × Nat)
  /-- The answers of `sbrk` to come. -/
  answers : List (Option Nat)

namespace Arena

/-- `p + p->s.size`. -/
def fin (s : Arena) (p : Nat) : Nat := p + headerSize * s.size p

/-! ## `free` -/

/-- The loop of `free` stops at `p`. -/
def stops (s : Arena) (bp p : Nat) : Bool :=
  (decide (bp > p) && decide (bp < s.ptr p)) ||
    (decide (p ≥ s.ptr p) && (decide (bp > p) || decide (bp < s.ptr p)))

/-- `bp` is linked to what comes after `p`, or joined with it. -/
def linkUpper (s : Arena) (p bp : Nat) : Arena :=
  if s.fin bp = s.ptr p then
    { s with
      size := update s.size bp (s.size bp + s.size (s.ptr p))
      ptr := update s.ptr bp (s.ptr (s.ptr p)) }
  else { s with ptr := update s.ptr bp (s.ptr p) }

/-- `p` is linked to `bp`, or joined with it. -/
def linkLower (s : Arena) (p bp : Nat) : Arena :=
  if s.fin p = bp then
    { s with
      size := update s.size p (s.size p + s.size bp)
      ptr := update s.ptr p (s.ptr bp) }
  else { s with ptr := update s.ptr p bp }

def free (fuel : Nat) (s : Arena) (ap : Nat) : Option Arena :=
  let bp := ap - headerSize
  (seek s.ptr (s.stops bp) fuel s.freep).map fun p =>
    { (s.linkUpper p bp).linkLower p bp with freep := p }

/-! ## `malloc` -/

/-- `sbrk(k)`: an address, or nothing for -1. -/
def sbrk (s : Arena) (k : Nat) : Option Nat × Arena :=
  match s.answers with
  | [] => (none, s)
  | none :: answers => (none, { s with answers := answers })
  | some p :: answers =>
    if s.top ≤ p ∧ p + k < 2 ^ 32 ∧ s.heap + k < 2 ^ 31 then
      (some p,
        { s with
          answers := answers
          top := p + k
          heap := s.heap + k
          obtained := (p, k) :: s.obtained })
    else (none, { s with answers := answers })

/-- `morecore(nu)`: `freep`, or nothing for 0. -/
def morecore (fuel : Nat) (s : Arena) (nu : Nat) : Option (Option Nat × Arena) :=
  let nu := if nu < 4096 then 4096 else nu
  match s.sbrk (nu * headerSize % 2 ^ 32) with
  | (none, s) => some (none, s)
  | (some p, s) =>
    (free fuel { s with size := update s.size p nu } (p + headerSize)).map fun s =>
      (some s.freep, s)

/-- What `malloc` does with a block `p` that is large enough, behind
`prevp`. -/
def carve (s : Arena) (nunits prevp p : Nat) : Nat × Arena :=
  if s.size p = nunits then
    (p + headerSize, { s with ptr := update s.ptr prevp (s.ptr p), freep := prevp })
  else
    let rest := s.size p - nunits
    let a := p + headerSize * rest
    (a + headerSize,
      { s with size := update (update s.size p rest) a nunits, freep := prevp })

/-- The loop of `malloc`: the pointer it returns, or nothing for 0. -/
def search (nunits : Nat) : Nat → Arena → Nat → Nat → Option (Option Nat × Arena)
  | 0, _, _, _ => none
  | fuel + 1, s, prevp, p =>
    if s.size p ≥ nunits then
      let r := s.carve nunits prevp p
      some (some r.1, r.2)
    else if p = s.freep then
      match s.morecore fuel nunits with
      | none => none
      | some (none, s) => some (none, s)
      | some (some p, s) => search nunits fuel s p (s.ptr p)
    else search nunits fuel s p (s.ptr p)

/-- `(nbytes + sizeof(Header) - 1)/sizeof(Header) + 1`. -/
def units (nbytes : UInt32) : Nat :=
  (nbytes.toNat + headerSize - 1) % 2 ^ 32 / headerSize + 1

/-- `freep` is set up by the first call. -/
def start (s : Arena) : Arena :=
  if s.freep = 0 then
    { s with
      ptr := update s.ptr s.base s.base
      size := update s.size s.base 0
      freep := s.base }
  else s

def malloc (fuel : Nat) (s : Arena) (nbytes : UInt32) : Option (Option Nat × Arena) :=
  let s := s.start
  search (units nbytes) fuel s s.freep (s.ptr s.freep)

/-- The bytes of the block at `a`, its header included. -/
def block (s : Arena) (a : Nat) : Set Nat := Set.Ico a (s.fin a)

/-- The bytes obtained from `sbrk`. -/
def memory (s : Arena) : Set Nat := { x | ∃ g ∈ s.obtained, g.1 ≤ x ∧ x < g.1 + g.2 }

end Arena

/-! ## The program -/

/-- The allocator and the blocks the program holds. -/
structure Heap where
  arena : Arena
  live : List Nat

inductive Call where
  | malloc (fuel : Nat) (nbytes : UInt32)
  /-- `free` of the pointer to the block at `a`. -/
  | free (fuel : Nat) (a : Nat)
  deriving DecidableEq

namespace Heap

def next (h : Heap) : Call → Option Heap
  | .malloc fuel nbytes =>
    (h.arena.malloc fuel nbytes).map fun r =>
      { arena := r.2
        live := (r.1.map (· - headerSize)).toList ++ h.live }
  | .free fuel a =>
    if a ∈ h.live then
      (h.arena.free fuel (a + headerSize)).map fun s => { arena := s, live := h.live.erase a }
    else none

/-- Nothing has been called yet; `base` is in the data segment, below the
heap. -/
structure New (h : Heap) : Prop where
  freep : h.arena.freep = 0
  live : h.live = []
  obtained : h.arena.obtained = []
  base : 0 < h.arena.base
  below : h.arena.base + headerSize ≤ h.arena.top

/-- The free list goes through `base` and then the blocks of `free`. -/
structure Sound (h : Heap) (free : List Nat) : Prop where
  /-- It is circular. -/
  circular : Path h.arena.ptr h.arena.base (h.arena.base :: free) h.arena.base
  /-- The addresses grow, apart from the step back to `base`. -/
  sorted : (h.arena.base :: free).Pairwise (· < ·)
  roving : h.arena.freep ∈ h.arena.base :: free
  disjoint : (free ++ h.live).Pairwise fun a b => Disjoint (h.arena.block a) (h.arena.block b)
  cover : { x | ∃ a ∈ free ++ h.live, x ∈ h.arena.block a } = h.arena.memory
  /-- No free block ends where another one starts. -/
  gaps : ∀ a ∈ free, ∀ b ∈ free, h.arena.fin a ≠ b

/-- The request can be rounded up and given a header without wrapping. -/
def Fits (_ : Heap) : Call → Prop
  | .malloc _ nbytes => nbytes.toNat + 15 < 2 ^ 32
  | .free _ _ => True

instance (h : Heap) : ∀ c, Decidable (h.Fits c)
  | .malloc _ nbytes => inferInstanceAs (Decidable (nbytes.toNat + 15 < 2 ^ 32))
  | .free _ _ => inferInstanceAs (Decidable True)

end Heap

end Xv6.User.Umalloc
