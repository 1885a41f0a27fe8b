/-
Xv6.Mem.Vm — page allocation and page tables: `kalloc.c` and the part of
`vm.c` that system calls reach.

A `Page` is a page `kalloc` manages; its two bounds are what `kfree`
checks, so `kfree`'s panic cannot be expressed here. A page directory is
an OBJECT with its own number (`space d`), never reused: `freevm` empties
it and records the call in `freed`, and `setupkvm` always makes a new one.
Its user half is kept flat. `pde` says which of the 512 user page tables
exist, `pte` gives the entry of a virtual page number (address divided by
`PGSIZE`). The kernel half is the same in every directory and no
function writes it after `setupkvm`, so only the pages of its page tables
are kept (`kpt`): one for every 4 MiB that `kmap` covers.

A panic is `Except.error` with the source's message.
-/
import Xv6.Param

namespace Xv6.Mem

/-! ## Pages -/

/-- A physical page of the allocator, by number. -/
structure Page where
  num : Nat
  pos : 0 < num
  lt : num < phystop / pgsize
  deriving DecidableEq

instance : Inhabited Page := ⟨⟨1, by decide, by decide⟩⟩

/-- The first `n` pages of the allocator, for runs on a small machine. -/
def firstPages (n : Nat) : List Page :=
  (List.range n).filterMap fun i =>
    if h : i + 1 < phystop / pgsize then some ⟨i + 1, by omega, h⟩ else none

/-- Pages needed for `sz` bytes, `PGROUNDUP(sz) / PGSIZE`. -/
def npages (sz : Nat) : Nat := pgroundup sz / pgsize

/-- A present page-table entry: the page and the bits `PTE_W`, `PTE_U`. -/
structure Pte where
  page : Page
  w : Bool
  u : Bool
  deriving DecidableEq

structure Space where
  dir : Page
  pde : Nat → Option Page
  kpt : List Page
  pte : Nat → Option Pte

instance : Inhabited Space :=
  ⟨{ dir := default, pde := fun _ => none, kpt := [], pte := fun _ => none }⟩

namespace Space

/-- A cleared page table is put at directory index `pdx`. -/
def addTable (s : Space) (pdx : Nat) (p : Page) : Space :=
  { s with
    pde := Function.update s.pde pdx (some p)
    pte := fun n => if n / nptentries = pdx then none else s.pte n }

def setPte (s : Space) (vpn : Nat) (e : Option Pte) : Space :=
  { s with pte := Function.update s.pte vpn e }

/-- The entry `walkpgdir` finds for a virtual page, if it is present. -/
def entry (s : Space) (vpn : Nat) : Option Pte :=
  match s.pde (vpn / nptentries) with
  | none => none
  | some _ => s.pte vpn

/-- `PTE_P` of a virtual page: its table exists and its entry is present. -/
def mapped (s : Space) (vpn : Nat) : Bool :=
  (s.pde (vpn / nptentries)).isSome && (s.pte vpn).isSome

end Space

/-- Physical memory, the free list and the page directories. `freed`
lists the directories `freevm` was called on, the latest first. -/
structure Vm where
  freelist : List Page
  space : Nat → Space
  nspace : Nat
  freed : List Nat
  data : Page → Nat → UInt8

namespace Vm

/-- Memory after `kinit2`: the free pages, and no page directory yet. -/
def kinit (freelist : List Page) : Vm :=
  { freelist := freelist, space := fun _ => default, nspace := 0, freed := [],
    data := fun _ _ => 0 }

def setSpace (v : Vm) (d : Nat) (s : Space) : Vm :=
  { v with space := Function.update v.space d s }

def setPte (v : Vm) (d vpn : Nat) (e : Option Pte) : Vm :=
  v.setSpace d ((v.space d).setPte vpn e)

/-! ## `kalloc.c` -/

def kalloc (v : Vm) : Option Page × Vm :=
  match v.freelist with
  | [] => (none, v)
  | p :: rest => (some p, { v with freelist := rest })

/-- `kfree`, which fills the page with junk. -/
def kfree (v : Vm) (p : Page) : Vm :=
  { v with
    freelist := p :: v.freelist
    data := Function.update v.data p (fun _ => 1) }

/-- `memset(mem, 0, PGSIZE)`. -/
def zeroPage (v : Vm) (p : Page) : Vm :=
  { v with data := Function.update v.data p (fun _ => 0) }

/-- `memmove(dst, src, PGSIZE)` between two pages. -/
def copyPage (v : Vm) (dst src : Page) : Vm :=
  { v with data := Function.update v.data dst (v.data src) }

/-- Store `bytes` in a page from offset `off`. -/
def storeBytes (v : Vm) (p : Page) (off : Nat) (bytes : List UInt8) : Vm :=
  { v with
    data := Function.update v.data p fun i =>
      if off ≤ i then (bytes[i - off]?).getD (v.data p i) else v.data p i }

/-! ## `vm.c` -/

/-- `walkpgdir` on a user page: does the entry's table exist, after it
was made if `alloc` asks for it? -/
def walkpgdir (v : Vm) (d vpn : Nat) (alloc : Bool) : Bool × Vm :=
  match (v.space d).pde (vpn / nptentries) with
  | some _ => (true, v)
  | none =>
    if alloc then
      match v.kalloc with
      | (none, v) => (false, v)
      | (some p, v) => (true, v.setSpace d ((v.space d).addTable (vpn / nptentries) p))
    else (false, v)

/-- `mappages` of one user page; `false` is its return value `-1`. -/
def mappages (v : Vm) (d vpn : Nat) (e : Pte) : Except String (Bool × Vm) :=
  match v.walkpgdir d vpn true with
  | (false, v) => .ok (false, v)
  | (true, v) =>
    if ((v.space d).pte vpn).isSome then .error "remap"
    else .ok (true, v.setPte d vpn (some e))

/-- The loop of `deallocuvm`. A missing table is skipped whole:
`a = PGADDR(PDX(a) + 1, 0, 0) - PGSIZE`, then `a += PGSIZE`. -/
def deallocLoop (d oldsz : Nat) : Nat → Nat → Vm → Vm
  | 0, _, v => v
  | fuel + 1, vpn, v =>
    if vpn * pgsize < oldsz then
      match (v.space d).pde (vpn / nptentries) with
      | none => deallocLoop d oldsz fuel ((vpn / nptentries + 1) * nptentries) v
      | some _ =>
        match (v.space d).pte vpn with
        | none => deallocLoop d oldsz fuel (vpn + 1) v
        | some e => deallocLoop d oldsz fuel (vpn + 1) ((v.kfree e.page).setPte d vpn none)
    else v

/-- `deallocuvm`: the size it returns. The loop looks at no more than the
pages of the range, which is the fuel it gets. -/
def deallocuvm (v : Vm) (d oldsz newsz : Nat) : Nat × Vm :=
  if oldsz ≤ newsz then (oldsz, v)
  else (newsz, deallocLoop d oldsz (npages oldsz - npages newsz) (npages newsz) v)

/-- The loop of `allocuvm` over `n` pages from `vpn` on. On failure
`deallocuvm(pgdir, newsz, oldsz)` undoes the call's work. -/
def allocLoop (d oldsz newsz : Nat) : Nat → Nat → Vm → Except String (Bool × Vm)
  | 0, _, v => .ok (true, v)
  | n + 1, vpn, v =>
    match v.kalloc with
    | (none, v) => .ok (false, (v.deallocuvm d newsz oldsz).2)
    | (some mem, v) =>
      match (v.zeroPage mem).mappages d vpn { page := mem, w := true, u := true } with
      | .error e => .error e
      | .ok (false, v) => .ok (false, (v.deallocuvm d newsz oldsz).2.kfree mem)
      | .ok (true, v) => allocLoop d oldsz newsz n (vpn + 1) v

/-- `allocuvm`: the new size, or 0 on error. -/
def allocuvm (v : Vm) (d oldsz newsz : Nat) : Except String (Nat × Vm) :=
  if kernbase ≤ newsz then .ok (0, v)
  else if newsz < oldsz then .ok (oldsz, v)
  else
    match allocLoop d oldsz newsz (npages newsz - npages oldsz) (npages oldsz) v with
    | .error e => .error e
    | .ok (false, v) => .ok (0, v)
    | .ok (true, v) => .ok (newsz, v)

/-- Free the user page tables of a directory, in index order. -/
def freeTables (d : Nat) (v : Vm) : Vm :=
  (List.range (nptentries / 2)).foldl
    (fun v i => match (v.space d).pde i with
      | some p => v.kfree p
      | none => v) v

/-- `freevm`. The directory keeps no entry afterwards. -/
def freevm (v : Vm) (d : Nat) : Vm :=
  let v := (v.deallocuvm d kernbase 0).2
  let v := freeTables d v
  let v := (v.space d).kpt.foldl kfree v
  let v := v.kfree (v.space d).dir
  { v.setSpace d default with freed := d :: v.freed }

/-- The 4 MiB regions the four ranges of `kmap` touch: physical memory
from `KERNBASE` to `KERNBASE + PHYSTOP`, and the devices at the top. -/
def kmapTables : Nat :=
  phystop / (pgsize * nptentries) + (2 ^ 32 - devspace) / (pgsize * nptentries)

/-- The `mappages` calls of `setupkvm`: a page table per region. -/
def mapKernel (d : Nat) : Nat → Vm → Bool × Vm
  | 0, v => (true, v)
  | n + 1, v =>
    match v.kalloc with
    | (none, v) => (false, v)
    | (some p, v) =>
      mapKernel d n (v.setSpace d { v.space d with kpt := (v.space d).kpt ++ [p] })

/-- `setupkvm`: the new directory, or `none` when memory runs out. -/
def setupkvm (v : Vm) : Option Nat × Vm :=
  match v.kalloc with
  | (none, v) => (none, v)
  | (some dir, v) =>
    let d := v.nspace
    let v := { v.setSpace d { (default : Space) with dir := dir } with nspace := d + 1 }
    match mapKernel d kmapTables v with
    | (false, v) => (none, v.freevm d)
    | (true, v) => (some d, v)

/-- `inituvm`: load a program of less than a page at address 0. A failing
`kalloc` is not noticed and the page is cleared through a null pointer; a
failing `mappages` is not noticed either. -/
def inituvm (v : Vm) (d : Nat) (init : List UInt8) : Except String Vm :=
  if pgsize ≤ init.length then .error "inituvm: more than a page"
  else
    match v.kalloc with
    | (none, _) => .error "inituvm: null page"
    | (some mem, v) =>
      match (v.zeroPage mem).mappages d 0 { page := mem, w := true, u := true } with
      | .error e => .error e
      | .ok (_, v) => .ok (v.storeBytes mem 0 init)

/-- `clearpteu`: take `PTE_U` off a page. -/
def clearpteu (v : Vm) (d vpn : Nat) : Except String Vm :=
  match (v.space d).pde (vpn / nptentries) with
  | none => .error "clearpteu"
  | some _ => .ok (v.setPte d vpn (((v.space d).pte vpn).map fun e => { e with u := false }))

/-- The common part of `copyuvm`'s two page copies: find the parent's
entry, take a new page and copy the contents into it. -/
def copyFrom (v : Vm) (d vpn : Nat) : Except String (Option Pte × Vm) :=
  match (v.space d).pde (vpn / nptentries) with
  | none => .error "copyuvm: pte should exist"
  | some _ =>
    match (v.space d).pte vpn with
    | none => .error "copyuvm: page not present"
    | some e =>
      match v.kalloc with
      | (none, v) => .ok (none, v)
      | (some mem, v) => .ok (some { e with page := mem }, v.copyPage mem e.page)

/-- The loop of `copyuvm` over the pages below the size. -/
def copyLoop (d d' : Nat) : Nat → Nat → Vm → Except String (Bool × Vm)
  | 0, _, v => .ok (true, v)
  | n + 1, vpn, v =>
    match v.copyFrom d vpn with
    | .error e => .error e
    | .ok (none, v) => .ok (false, v)
    | .ok (some e, v) =>
      match v.mappages d' vpn e with
      | .error msg => .error msg
      | .ok (false, v) => .ok (false, v.kfree e.page)
      | .ok (true, v) => copyLoop d d' n (vpn + 1) v

/-- The top page of stack slot `slindex`, as a virtual page number. -/
def stackPage (slindex : Int) : Nat :=
  toU32 (stackbottom - slindex * 2 * pgsize - pgsize) / pgsize

/-- The user-stack part of `copyuvm`: the page of slot `slindex` becomes
the page of slot 0. A failing `mappages` leaves the new page allocated,
unlike in the loop. -/
def copyStack (d d' : Nat) (slindex : Int) (v : Vm) : Except String (Bool × Vm) :=
  match v.copyFrom d (stackPage slindex) with
  | .error e => .error e
  | .ok (none, v) => .ok (false, v)
  | .ok (some e, v) => v.mappages d' (stackPage 0) e

/-- `copyuvm`: the child's directory, or `none` (0 in the source). -/
def copyuvm (v : Vm) (d sz : Nat) (slindex : Int) : Except String (Option Nat × Vm) :=
  match v.setupkvm with
  | (none, v) => .ok (none, v)
  | (some d', v) =>
    match copyLoop d d' (npages sz) 0 v with
    | .error e => .error e
    | .ok (false, v) => .ok (none, v.freevm d')
    | .ok (true, v) =>
      match copyStack d d' slindex v with
      | .error e => .error e
      | .ok (false, v) => .ok (none, v.freevm d')
      | .ok (true, v) => .ok (some d', v)

/-- Is a kernel-half page covered by `kmap`? All its entries lack `PTE_U`. -/
def kernelMapped (vpn : Nat) : Bool :=
  (kernbase / pgsize ≤ vpn && vpn < (kernbase + phystop) / pgsize)
    || (devspace / pgsize ≤ vpn && vpn < 2 ^ 32 / pgsize)

/-- `uva2ka`. It does not check that `walkpgdir` found a table, so a
missing one is a read through a null pointer. -/
def uva2ka (v : Vm) (d vpn : Nat) : Except String (Option Page) :=
  if vpn < kernbase / pgsize then
    match (v.space d).pde (vpn / nptentries) with
    | none => .error "uva2ka: null pte"
    | some _ =>
      match (v.space d).pte vpn with
      | none => .ok none
      | some e => .ok (if e.u then some e.page else none)
  else if kernelMapped vpn then .ok none
  else .error "uva2ka: null pte"

/-- The loop of `copyout`; every round copies at least one byte, so the
length is enough fuel. -/
def copyoutLoop (d : Nat) : Nat → Nat → List UInt8 → Vm → Except String (Bool × Vm)
  | 0, _, _, v => .ok (true, v)
  | fuel + 1, va, bytes, v =>
    if bytes = [] then .ok (true, v)
    else
      match v.uva2ka d (va / pgsize) with
      | .error e => .error e
      | .ok none => .ok (false, v)
      | .ok (some p) =>
        let n := min (pgsize - va % pgsize) bytes.length
        copyoutLoop d fuel (toU32 (pgrounddown va + pgsize)) (bytes.drop n)
          (v.storeBytes p (va % pgsize) (bytes.take n))

/-- `copyout`; `false` is its return value `-1`. -/
def copyout (v : Vm) (d va : Nat) (bytes : List UInt8) : Except String (Bool × Vm) :=
  copyoutLoop d bytes.length va bytes v

end Vm

end Xv6.Mem
