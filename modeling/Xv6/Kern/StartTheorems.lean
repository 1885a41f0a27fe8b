/-
Xv6.Kern.StartTheorems — where a new thread starts, and what it disturbs.

`Starts` is what a `KT_Create` that returns a tid should have done: a new
`RUNNABLE` entry that shares the caller's page table and stack list, whose
saved registers are the caller's but for `eip` and `esp`, with a fake
return address and the argument on top of a stack of its own, and no byte
of user memory or permission bit changed that was there before.

The stack comes from free pages, so nothing that is mapped changes as long
as no free page is mapped (`FreeUnmapped`; a page table that is used after
`freevm` breaks it). One bit can change: for the first thread of a process
`KT_Create` takes `PTE_U` off the page four pages below the stack pointer,
which is not the guard page of slot 1 but the lower page of slot 2. Nothing
is mapped there unless the heap reaches that far, and it can: a
`growproc(-sz)` frees the heap and keeps the size, so the size grows with
hardly any memory in use (`guard_hits_heap`).
-/
import Xv6.Mem.Copyout
import Xv6.Mem.Pages
import Xv6.Kern.CreateTheorems
import Xv6.Kern.TidTheorems

namespace Xv6.Kern

open Xv6.Lib Xv6.Mem

variable {ncpu : Nat} {k₀ : Kernel 1} {x : Nat} {e : Pte} {tr₀ : List (Kernel 1 × Act 1)}

namespace Kernel

/-! ## The stack -/

variable {v v' : Vm} {d i sp fnc arg guard n : Nat} {k k' m m' : Kernel ncpu} {cur nt : ProcIdx}
  {slindex r : Int} {s : PslIdx} {b : Kernel 1}

/-- The stack of slot `i` is there, in pages that were free, and `PTE_U`
was taken off page `g`. -/
structure StackMade (v v' : Vm) (d i g : Nat) : Prop where
  was : v.entry d (slotLow i) = none
  top : ∃ e, v'.entry d (slotLow i + 1) = some e ∧ e.u = true ∧ e.page ∈ v.freelist
  keeps : ∀ d' x e, v.entry d' x = some e → d' ≠ d ∨ x ≠ g ∨ e.u = false → v'.entry d' x = some e
  guard : ∀ e, v.entry d g = some e → v'.entry d g = some { e with u := false }
  data : ∀ pg, pg ∉ v.freelist → v'.data pg = v.data pg

/-- The page `clearpteu` is called on: `guard` pages below the top. -/
def guardPage (i guard : Nat) : Nat := slotLow i + 2 - guard

theorem stackMade {k k' : Kernel ncpu} {guard sp : Nat} (hi : i < 8) (hg : guard = 2 ∨ guard = 4)
    (h : k.stackAlloc d i guard = .ok (some sp, k')) :
    sp = (slotLow i + 2) * pgsize ∧ k' = { k with vm := k'.vm } ∧
      StackMade k.vm k'.vm d i (guardPage i guard) := by
  have hlow := slotLow_eq i
  obtain ⟨hsp, v, hf, hc⟩ := stackAlloc_entries h
  rw [← guardPage] at hc
  obtain ⟨hself, hother, hdata, -, -⟩ := Vm.clearpteu_entry hc
  -- what is mapped is not on the stack
  have hkept : ∀ d' x e, k.vm.entry d' x = some e → v.entry d' x = some e := by
    intro d' x e he
    rw [hf.other d' x ?_, he]
    by_contra hin
    have hwas : k.vm.entry d x = none := hf.was x (by omega) (by omega)
    have hd : d' = d := by
      by_contra hd
      exact hin (.inl hd)
    rw [hd, hwas] at he
    cases he
  refine ⟨hsp, (stackAlloc_run h).1, ⟨hf.was _ (Nat.le_refl _) (by omega), ?_, ?_, ?_, ?_⟩⟩
  · obtain ⟨e, he, -, hu, hfree, -⟩ := hf.new (slotLow i + 1) (by omega) (by omega)
    refine ⟨e, ?_, hu, hfree⟩
    rw [hother d (slotLow i + 1) (.inr (by rw [guardPage]; omega)), he]
  · intro d' x e he hor
    by_cases hx : d' = d ∧ x = guardPage i guard
    · obtain ⟨rfl, rfl⟩ := hx
      have hu : e.u = false := by
        rcases hor with hd | hx | hu
        · exact absurd rfl hd
        · exact absurd rfl hx
        · exact hu
      rw [hself, hkept _ _ e he, Option.map_some, ← hu]
    · rw [hother d' x (by omega), hkept d' x e he]
  · intro e he
    rw [hself, hkept _ _ e he, Option.map_some]
  · intro pg hpg
    rw [hdata]
    exact (hf.data pg).resolve_right fun hin => hpg hin.1

/-- The two words on top of the stack: the fake return address, then the
argument. -/
theorem copyout_args {p : Page} {arg : Nat} (hi : i < 8) (he : v.entry d (slotLow i + 1) = some e)
    (hu : e.u = true) (hp : e.page = p)
    (h : v.copyout d (toU32 ((((slotLow i + 2) * pgsize : Nat) : Int) - 8))
      (wordBytes 0xffffffff ++ wordBytes arg) = .ok (true, v')) :
    v'.space = v.space ∧ (∀ pg, pg ≠ p → v'.data pg = v.data pg) ∧
      ∀ j < 8, v'.read d ((slotLow i + 1) * pgsize + 4088 + j)
        = (wordBytes 0xffffffff ++ wordBytes arg)[j]? := by
  have hva : toU32 ((((slotLow i + 2) * pgsize : Nat) : Int) - 8)
      = (slotLow i + 1) * pgsize + 4088 := by
    simp only [slotLow_eq, toU32, pgsize]
    omega
  rw [hva] at h
  have hlen : (wordBytes 0xffffffff ++ wordBytes arg).length = 8 := rfl
  have hpage : ∀ j < 8, ((slotLow i + 1) * pgsize + 4088 + j) / pgsize = slotLow i + 1 ∧
      ((slotLow i + 1) * pgsize + 4088 + j) % pgsize = 4088 + j := by
    intro j hj
    simp only [pgsize]
    omega
  have hloc : ∀ j < 8, v.loc d ((slotLow i + 1) * pgsize + 4088 + j) = some (p, 4088 + j) := by
    intro j hj
    rw [Vm.loc, (hpage j hj).1, (hpage j hj).2, he, ← hp]
    rfl
  have hacc : v.Accessible d ((slotLow i + 1) * pgsize + 4088)
      (wordBytes 0xffffffff ++ wordBytes arg).length := by
    intro j hj
    obtain ⟨hpde, hpte⟩ := Space.entry_eq_some.mp he
    rw [Vm.Reaches, (hpage j hj).1]
    exact ⟨hpde, e, hpte, hu⟩
  have hcons : v.Consistent d ((slotLow i + 1) * pgsize + 4088)
      (wordBytes 0xffffffff ++ wordBytes arg) := by
    intro a b ha hb heq
    rw [hloc a ha, hloc b hb, Option.some.injEq, Prod.mk.injEq] at heq
    have hab : a = b := by omega
    rw [hab]
  have hk : (slotLow i + 1) * pgsize + 4088 + (wordBytes 0xffffffff ++ wordBytes arg).length
      ≤ kernbase := by
    rw [hlen, slotLow_eq]
    simp only [pgsize, kernbase]
    omega
  obtain ⟨w, hrun, hsame, hframe, hread⟩ :=
    Vm.copyoutLoop_ok _ (Nat.le_refl _) hk hacc
  rw [Vm.copyout, hrun] at h
  cases h
  have hspace : v'.space = v.space := by rw [hsame]
  refine ⟨hspace, ?_, ?_⟩
  · intro pg hpg
    funext off
    refine hframe pg off fun j hj hl => hpg ?_
    rw [hloc j hj, Option.some.injEq, Prod.mk.injEq] at hl
    exact hl.1.symm
  · intro j hj
    rw [Vm.read_eq, Vm.loc_of_space hspace, hloc j hj, ← hread hcons j _ _ hj (hloc j hj)]
    rfl

/-! ## The entry -/

/-- `clone` returned a tid: entry `nt` is the new thread. -/
structure Born (k k' : Kernel ncpu) (cur nt : ProcIdx) (sp : Nat) (slindex : Int) (fnc : Nat) :
    Prop where
  unused : (k.proc nt).state = .unused
  others : ∀ q, q ≠ nt → k'.proc q = k.proc q
  lists : k'.psl = k.psl
  state : (k'.proc nt).state = .runnable
  pid : (k'.proc nt).pid = (k.proc cur).pid
  tid : (k'.proc nt).tid = toI32 ((k.proc cur).tid + 1)
  pgdir : (k'.proc nt).pgdir = (k.proc cur).pgdir
  sz : (k'.proc nt).sz = (k.proc cur).sz
  psl : (k'.proc nt).psl = (k.proc cur).psl
  slindex : (k'.proc nt).slindex = slindex
  tf : (k'.proc nt).tf = { (k.proc cur).tf with eip := fnc, esp := toU32 ((sp : Int) - 8) }

theorem clone_born (hcur : (k.proc cur).state ≠ .unused)
    (h : k.clone cur sp slindex fnc arg = .ok (r, k')) (hr : r ≠ -1) :
    ∃ (nt : ProcIdx) (d : Nat) (v : Vm), Born k k' cur nt sp slindex fnc ∧
      r = toI32 ((k.proc cur).tid + 1) ∧
      (k.proc cur).pgdir = some d ∧ v.space = k.vm.space ∧ v.data = k.vm.data ∧
      v.copyout d (toU32 ((sp : Int) - 8)) (wordBytes 0xffffffff ++ wordBytes arg)
        = .ok (true, k'.vm) := by
  rcases clone_eq h with ⟨rfl, -⟩ | ⟨nt, pg, v, v', file, iref, ofile, old, old', d, ok, hu, hk,
    hold, hd, hout, hres, rfl⟩
  · exact absurd rfl hr
  have hne : cur ≠ nt := by
    rintro rfl
    exact hcur hu
  obtain ⟨rfl, rfl⟩ := hold hne
  cases ok with
  | false => exact absurd hres hr
  | true =>
    refine ⟨nt, d, v, ?_, hres, hd, (Vm.kalloc_eq hk).1, Vm.kalloc_data hk, hout⟩
    refine ⟨hu, fun q hq => ?_, rfl, ?_, ?_, ?_, ?_, ?_, ?_, ?_, ?_⟩
    · rw [setProc_proc, if_neg hq]
    all_goals
      rw [setProc_proc_self]
      rfl

/-! ## `KT_Create` -/

/-- What a `KT_Create(fnc, arg)` by `cur` that returns `r` should have done. -/
def Starts (k k' : Kernel ncpu) (cur : ProcIdx) (fnc arg : Nat) (r : Int) : Prop :=
  ∃ (nt : ProcIdx) (d i : Nat) (s : PslIdx),
    -- a new entry, on the caller's page table, stack list, size and pid
    (k.proc nt).state = .unused ∧ (k'.proc nt).state = .runnable ∧ (k'.proc nt).tid = r ∧
    (k.proc cur).pgdir = some d ∧ (k'.proc nt).pgdir = some d ∧
    (k'.proc cur).psl = some s ∧ (k'.proc nt).psl = some s ∧
    (k'.proc nt).sz = (k.proc cur).sz ∧ (k'.proc nt).pid = (k.proc cur).pid ∧
    -- in a slot that nobody had
    (k'.proc nt).slindex = i ∧ i < 8 ∧ (k.psl s).stackz i = false ∧
    (∀ q, (k.proc q).state ≠ .unused → (k.proc q).psl = some s → (k.proc q).slindex ≠ i) ∧
    -- with the caller's registers, but for these two
    (k'.proc nt).tf =
      { (k.proc cur).tf with eip := fnc, esp := (slotLow i + 1) * pgsize + 4088 } ∧
    -- on the top page of the slot
    k'.vm.UserPage d (slotLow i + 1) ∧
    (∀ j < 4, k'.vm.read d ((k'.proc nt).tf.esp + j) = (wordBytes 0xffffffff)[j]?) ∧
    (∀ j < 4, k'.vm.read d ((k'.proc nt).tf.esp + 4 + j) = (wordBytes arg)[j]?) ∧
    -- and user memory is as it was
    ∀ d' x e, k.vm.entry d' x = some e →
      k'.vm.entry d' x = some e ∧ k'.vm.data e.page = k.vm.data e.page

/-- No free page is mapped by a page table. -/
def FreeUnmapped (k : Kernel ncpu) : Prop :=
  ∀ d x e, k.vm.entry d x = some e → e.page ∉ k.vm.freelist

/-- The page that loses `PTE_U` with the first thread of `p` does not have
it: `p` has threads already, or nothing of its heap is there. -/
def guardUnmapped (k : Kernel ncpu) (p : ProcIdx) : Bool :=
  (k.proc p).psl.isSome ||
    match (k.proc p).pgdir with
    | none => true
    | some d => !decide (k.vm.UserPage d (slotLow 2))

theorem slot_unowned (hk : k.world.SlotInv) (hc : k.Clean) (hz : (k.psl s).stackz i = false) :
    ∀ q, (k.proc q).state ≠ .unused → (k.proc q).psl = some s → (k.proc q).slindex ≠ i := by
  intro q hq hl hs
  obtain ⟨t, ht⟩ := exists_thread hc hq
  obtain ⟨-, -, -, -, hpsl, hsl⟩ := world_thread_eq_some.mp ht
  have hown : k.world.owners s q = some t.slindex :=
    World.owners_eq_some.mpr ⟨t, ht, hpsl.symm.trans hl, rfl⟩
  obtain ⟨j, hj, -, hmark⟩ := (hk s).slot q _ hown
  have hji : (j : Int) = i := by
    rw [← hj, ← hsl]
    exact hs
  rw [hji] at hmark
  have hmark' : (k.psl s).stackz i = true := hmark
  rw [hz] at hmark'
  cases hmark'

/-- **The rest of the call**, from the allocation of the stack on: `m` is
`k` with the stack list prepared. -/
theorem ktStack_starts (hi : i < 8) (hg : guard = 2 ∨ guard = 4)
    (hvm : m.vm = k.vm) (hp : ∀ q, q ≠ cur → m.proc q = k.proc q)
    (hcur : m.proc cur = { k.proc cur with psl := some s, slindex := (m.proc cur).slindex })
    (hst : (k.proc cur).state ≠ .unused) (hd : (k.proc cur).pgdir = some d)
    (hz : (k.psl s).stackz i = false)
    (hown : ∀ q, (k.proc q).state ≠ .unused → (k.proc q).psl = some s → (k.proc q).slindex ≠ i)
    (h : m.ktStack cur d s i guard fnc arg = .ok (r, k')) (hr : r ≠ -1) :
    k.vm.entry d (slotLow i) = none ∧
    (∀ e, k.vm.entry d (guardPage i guard) = some e →
      k'.vm.entry d (guardPage i guard) = some { e with u := false }) ∧
    (k.FreeUnmapped → (∀ e, k.vm.entry d (guardPage i guard) = some e → e.u = false) →
      Starts k k' cur fnc arg r) := by
  unfold ktStack at h
  split at h
  · cases h
  · cases h
    exact absurd rfl hr
  rename_i sp m₁ ha
  obtain ⟨hsp, hm₁, hmade⟩ := stackMade hi hg ha
  rw [hvm] at hmade
  generalize hm₂ : (m₁.setPsl s fun l =>
    { l with stackz := Function.update l.stackz i true }) = m₂ at h
  have hvm₂ : m₂.vm = m₁.vm := by
    rw [← hm₂]
    rfl
  have hproc₂ : m₂.proc = m.proc := by
    rw [← hm₂, hm₁]
    rfl
  have hst₂ : (m₂.proc cur).state ≠ .unused := by
    rw [hproc₂, hcur]
    exact hst
  obtain ⟨nt, d', v, hb, hres, hd', hspace, hdata, hout⟩ := clone_born hst₂ h hr
  have hd₂ : (m₂.proc cur).pgdir = some d := by
    rw [hproc₂, hcur]
    exact hd
  rw [hd₂] at hd'
  cases hd'
  -- the page of the two words was free
  obtain ⟨e, he, hu, hin⟩ := hmade.top
  have hev : v.entry d (slotLow i + 1) = some e := by
    rw [Vm.entry_of_space hspace, hvm₂]
    exact he
  rw [hsp] at hout
  obtain ⟨hspace', hdata', hread⟩ := copyout_args hi hev hu rfl hout
  have hent' : ∀ d' x, k'.vm.entry d' x = m₁.vm.entry d' x := by
    intro d' x
    rw [Vm.entry_of_space hspace', Vm.entry_of_space hspace, hvm₂]
  have hnt : cur ≠ nt := by
    rintro rfl
    exact hst₂ hb.unused
  have hcur' : k'.proc cur = m.proc cur := by
    rw [hb.others cur hnt, hproc₂]
  have hesp : (k'.proc nt).tf =
      { (k.proc cur).tf with eip := fnc, esp := (slotLow i + 1) * pgsize + 4088 } := by
    have hva : toU32 (((slotLow i + 2) * pgsize : Nat) - 8)
        = (slotLow i + 1) * pgsize + 4088 := by
      simp only [slotLow_eq, toU32, pgsize]
      omega
    rw [hb.tf, hproc₂, hcur, hsp, hva]
  refine ⟨hmade.was, fun e' he' => by rw [hent', hmade.guard e' he'], ?_⟩
  intro hfree hguard
  refine ⟨nt, d, i, s, ?_, hb.state, ?_, hd, ?_, ?_, ?_, ?_, ?_, hb.slindex, hi, hz, hown,
    hesp, ?_, ?_, ?_, ?_⟩
  · rw [← hp nt (Ne.symm hnt), ← hproc₂]
    exact hb.unused
  · rw [hb.tid, hres]
  · rw [hb.pgdir, hd₂]
  · rw [hcur', hcur]
  · rw [hb.psl, hproc₂, hcur]
  · rw [hb.sz, hproc₂, hcur]
  · rw [hb.pid, hproc₂, hcur]
  · have htop := hent' d (slotLow i + 1)
    rw [he] at htop
    obtain ⟨hpde, hpte⟩ := Space.entry_eq_some.mp htop
    exact ⟨hpde, e, hpte, hu⟩
  · intro j hj
    rw [hesp, hread j (by omega), List.getElem?_append_left hj]
  · intro j hj
    rw [hesp, Nat.add_assoc _ 4 j, hread (4 + j) (by omega),
      List.getElem?_append_right (by simp [wordBytes])]
    congr 1
    simp [wordBytes]
  · intro d' x e' he'
    have hout' := hfree d' x e' he'
    constructor
    · rw [hent']
      refine hmade.keeps d' x e' he' ?_
      by_cases hxg : d' = d ∧ x = guardPage i guard
      · obtain ⟨rfl, rfl⟩ := hxg
        exact .inr (.inr (hguard e' he'))
      · omega
    · have hne : e'.page ≠ e.page := by
        intro heq
        rw [heq] at hout'
        exact hout' hin
      rw [hdata' _ hne, hdata, hvm₂]
      exact hmade.data _ hout'

theorem userPage_iff {v : Vm} : v.UserPage d x ↔ ∃ e, v.entry d x = some e ∧ e.u = true := by
  constructor
  · rintro ⟨hpde, e, hpte, hu⟩
    exact ⟨e, Space.entry_eq_some.mpr ⟨hpde, hpte⟩, hu⟩
  · rintro ⟨e, he, hu⟩
    obtain ⟨hpde, hpte⟩ := Space.entry_eq_some.mp he
    exact ⟨hpde, e, hpte, hu⟩

theorem clone_null (hst : (k.proc cur).state ≠ .unused)
    (h : k.clone cur 0 (-1) fnc arg = .ok (r, k')) : r = -1 := by
  by_contra hr
  obtain ⟨nt, d, v, -, -, -, -, -, hout⟩ := clone_born hst h hr
  have hlen : (wordBytes 0xffffffff ++ wordBytes arg).length = 8 := rfl
  obtain ⟨v', hout'⟩ := copyout_at_null (v := v) (d := d) hlen
  rw [hout] at hout'
  cases hout'

theorem Starts.not_guarded (hs : Starts k k' cur fnc arg r) (he : k.vm.entry d x = some e)
    (hg : k'.vm.entry d x = some { e with u := false }) : e.u = false := by
  obtain ⟨-, -, -, -, -, -, -, -, -, -, -, -, -, -, -, -, -, -, -, -, -, hmem⟩ := hs
  have hkeep := (hmem d x e he).1
  rw [hg, Option.some.injEq] at hkeep
  rw [← hkeep]

theorem ktFirst_starts (hk : Kept k) (hst : (k.proc cur).state ≠ .unused)
    (hd : (k.proc cur).pgdir = some d) (hfs : k.findPsl = some s)
    (h : k.ktFirst cur d s fnc arg = .ok (r, k')) (hr : r ≠ -1) :
    (∀ e, k.vm.entry d (slotLow 2) = some e →
      k'.vm.entry d (slotLow 2) = some { e with u := false }) ∧
    (k.FreeUnmapped → (∀ e, k.vm.entry d (slotLow 2) = some e → e.u = false) →
      Starts k k' cur fnc arg r) := by
  have hunused : (k.psl s).state = .unused := by
    simpa using List.find?_some hfs
  have hz : (k.psl s).stackz 1 = false := (hk.slots s).unused hunused 1
  have hproc : ∀ q, q ≠ cur → (k.claimed cur s).proc q = k.proc q := by
    intro q hq
    rw [claimed, setProc_proc, if_neg hq]
    rfl
  have hcur : (k.claimed cur s).proc cur = { k.proc cur with
      psl := some s, slindex := ((k.claimed cur s).proc cur).slindex } := by
    rw [claimed_proc]
  have hpage : guardPage 1 4 = slotLow 2 := by decide
  rw [← hpage]
  exact (ktStack_starts (k := k) (m := k.claimed cur s) (i := 1) (by omega) (.inr rfl) rfl hproc
    hcur hst hd hz (slot_unowned hk.slots hk.clean hz) h hr).2

theorem ktCreate_starts (hk : Kept k) (hfree : k.FreeUnmapped) {c : Fin ncpu}
    (hcpu : k.cpu c = some cur) (h : k.ktCreate cur fnc arg = .ok (r, k')) (hr : r ≠ -1) :
    Starts k k' cur fnc arg r ↔ k.guardUnmapped cur = true := by
  obtain ⟨t, ht, -⟩ := caller hk.sched hk.clean hcpu
  have hst := state_ne_unused ht
  obtain ⟨-, -, hd, -, hl, -⟩ := world_thread_eq_some.mp ht
  cases ktCreate_path fnc arg hd with
  | refused _ hx =>
    rw [hx] at h
    cases h
    exact absurd rfl hr
  | noList _ _ _ hx =>
    rw [hx] at h
    exact absurd (clone_null hst h) hr
  | first s _ hs hfs hx =>
    rw [hx] at h
    have hdef : k.guardUnmapped cur = true ↔ ¬ k.vm.UserPage t.pgdir (slotLow 2) := by
      simp [guardUnmapped, hs, hd]
    obtain ⟨hguard, hstarts⟩ := ktFirst_starts hk hst hd hfs h hr
    rw [hdef, userPage_iff]
    constructor
    · rintro hst ⟨e, he, hu⟩
      rw [hst.not_guarded he (hguard e he)] at hu
      cases hu
    · intro hno
      refine hstarts hfree fun e he => ?_
      by_contra hu
      exact hno ⟨e, he, by simpa using hu⟩
  | noSlot s _ hs hcount hnone _ =>
    exact absurd hnone (hk.slots.findSlot_ne_none ht (hl.symm.trans hs) hcount)
  | next s i _ hs _ hslot hx =>
    rw [hx] at h
    obtain ⟨hi, hz⟩ := findSlot_some hslot
    have hcur : (k.counted s).proc cur = { k.proc cur with
        psl := some s, slindex := ((k.counted s).proc cur).slindex } := by
      rw [← hs]
      rfl
    obtain ⟨hwas, -, hstarts⟩ := ktStack_starts (k := k) (m := k.counted s) hi
      (.inl rfl) rfl (fun _ _ => rfl) hcur hst hd hz (slot_unowned hk.slots hk.clean hz) h hr
    refine iff_of_true (hstarts hfree fun e he => ?_) (by simp [guardUnmapped, hs])
    -- the guard page is the lower page of the slot
    have hpage : guardPage i 2 = slotLow i := by
      rw [guardPage]
      omega
    rw [hpage, hwas] at he
    cases he

/-- **A new thread starts in the right place**, and disturbs nobody: in
every run, a `KT_Create` that returns a tid while no free page is mapped
did what it should, if and only if the caller has threads already or
nothing of its heap is where the guard page of slot 2 would be. -/
theorem thread_starts {k₀ k k' : Kernel ncpu} {tr : List (Kernel ncpu × Act ncpu)} {c : Fin ncpu}
    {p : ProcIdx} {fnc arg : Nat} {r : Int} (h0 : Boot k₀) (hr : Run next k₀ tr k)
    (hcpu : k.cpu c = some p) (hfree : k.FreeUnmapped)
    (h : k.ktCreate p fnc arg = .ok (r, k')) (htid : r ≠ -1) :
    Starts k k' p fnc arg r ↔ k.guardUnmapped p = true := by
  have hk : Kept k := Run.always (kept_boot h0) (fun _ _ _ hi hn => hi.step hn) hr
  exact ktCreate_starts hk hfree hcpu h htid

theorem userinit_entries {freelist : List Page} {k : Kernel ncpu} {initcode : List UInt8}
    {root : InodeIdx} (h : (cleared ncpu (Vm.kinit freelist)).userinit initcode root = .ok k)
    {d : Nat} (hd : (k.proc initproc).pgdir = some d) :
    ∀ d' x, d' ≠ d ∨ 1 ≤ x → k.vm.entry d' x = none := by
  have hfind : (cleared ncpu (Vm.kinit freelist)).findUnused = some initproc := rfl
  unfold userinit at h
  split at h
  · cases h
  rename_i p k₁ ha
  obtain ⟨hp, hspace⟩ : p = initproc ∧ k₁.vm.space = (Vm.kinit freelist).space := by
    simp only [allocproc, hfind] at ha
    unfold allocKstack at ha
    split at ha
    · cases ha
    rename_i pg v hk
    cases ha
    exact ⟨rfl, (Vm.kalloc_eq hk).1⟩
  subst hp
  split at h
  · cases h
  rename_i d₁ v hs
  have hnew := Vm.newDir_setupkvm hs
  have hv : ∀ d' x, v.entry d' x = none := by
    intro d' x
    by_cases hd' : d' = d₁
    · rw [hd', hnew.empty]
    · rw [hnew.other d' x hd', Vm.entry_of_space hspace]
      exact Space.entry_default x
  split at h
  · cases h
  rename_i v₁ hi
  have hent : ∀ d' x, d' ≠ d₁ ∨ 1 ≤ x → v₁.entry d' x = none := by
    intro d' x hx
    unfold Vm.inituvm at hi
    split at hi
    · cases hi
    · split at hi
      · cases hi
      rename_i mem v₂ hk
      have hx₂ : (v₂.zeroPage mem).entry d' x = none := by
        rw [Vm.entry_zeroPage, Vm.entry_of_space (Vm.kalloc_eq hk).1, hv]
      split at hi
      · cases hi
      rename_i b v₃ hm
      cases hi
      rw [Vm.entry_storeBytes]
      cases b with
      | true => rw [(Vm.mappages_entry hm).2.2.1 d' x (by omega), hx₂]
      | false =>
        cases Vm.mappages_run hm
        exact hx₂
  cases h
  simp only [setProc_proc_self, Option.some.injEq] at hd
  subst hd
  exact hent

theorem schedule_vm {k k' : Kernel 1} {c : Fin 1} {i : ProcIdx}
    (h : k.next (.schedule c i) = some k') : k'.vm = k.vm := by
  cases stepped_of_next h with
  | schedule _ _ _ _ hs =>
    unfold scheduler at hs
    split at hs <;> cases hs
    rfl

/-- `initproc` is running, with one page. -/
def threadScheduled : Kernel 1 := (threadMachine.next (.schedule 0 0)).get (by decide +kernel)

theorem thread_starts_threadScheduled :
    ∃ k', threadScheduled.ktCreate initproc pgsize 9 = .ok (1, k') ∧
      Starts threadScheduled k' initproc pgsize 9 1 := by
  have hn : threadMachine.next (.schedule 0 0) = some threadScheduled := (Option.some_get _).symm
  have hr : Run next threadMachine [(threadMachine, .schedule 0 0)] threadScheduled :=
    Run.nil.snoc hn
  have hfacts : (threadMachine.proc initproc).pgdir = some 0 ∧
      (∀ e ∈ threadMachine.vm.entry 0 0, e.page ∉ threadMachine.vm.freelist) ∧
      threadScheduled.cpu 0 = some initproc ∧ threadScheduled.guardUnmapped initproc = true ∧
      ∃ k', threadScheduled.ktCreate initproc pgsize 9 = .ok (1, k') := by
    decide +kernel
  obtain ⟨hpd, hpage, hcpu, hguard, k', h⟩ := hfacts
  have hfree : threadScheduled.FreeUnmapped := by
    intro d x e he
    rw [schedule_vm hn] at he ⊢
    by_cases hx : d = 0 ∧ x = 0
    · obtain ⟨rfl, rfl⟩ := hx
      exact hpage e he
    · rw [userinit_entries userinit_threadMachine hpd d x (by omega)] at he
      cases he
  have hiff := thread_starts boot_threadMachine hr hcpu hfree h (by decide)
  exact ⟨k', h, hiff.mpr hguard⟩

/-! ## The heap gets there -/

/-- Directory 0 maps no page outside `lo, …, hi - 1`. Its page tables, the
kernel's and the free pages are at least 600. -/
structure Bare (v : Vm) (lo hi : Nat) : Prop where
  outside : ∀ x, x < lo ∨ hi ≤ x → v.entry 0 x = none
  held : 600 ≤ (v.held 0).length
  kernel : (v.space 0).kpt.length ≤ 64

theorem Bare.supply (h : Bare v 0 0) : 20 ≤ v.freelist.length := by
  have hnone : (v.space 0).userPages = [] := by
    refine List.filterMap_eq_nil_iff.mpr fun x _ => ?_
    have hx : (v.space 0).entry x = none := h.outside x (.inr (Nat.zero_le x))
    rw [hx]
    rfl
  have htables : (v.space 0).tables.length ≤ 512 := by
    refine Nat.le_trans (List.length_filterMap_le _ _) ?_
    rw [List.length_range]
    decide
  have hheld := h.held
  have hkpt := h.kernel
  rw [Vm.held, Space.pages, hnone] at hheld
  simp only [List.length_append, List.length_nil, List.length_singleton] at hheld
  omega

theorem Bare.grow (h : Bare v 0 0) (hn : n < 524282) :
    ∃ v', v.allocuvm 0 (n * pgsize) ((n + 1) * pgsize) = .ok ((n + 1) * pgsize, v') ∧
      Bare v' n (n + 1) ∧ v'.UserPage 0 n ∧ 18 ≤ v'.freelist.length := by
  have hlt : n * pgsize < (n + 1) * pgsize := Nat.mul_lt_mul_of_pos_right (Nat.lt_succ_self n)
    (by decide)
  have hk : (n + 1) * pgsize < kernbase :=
    Nat.lt_of_le_of_lt (Nat.mul_le_mul_right pgsize hn) (by decide)
  have hico : ∀ x ∈ Set.Ico (npages (n * pgsize)) (npages ((n + 1) * pgsize)),
      x / nptentries = n / nptentries := by
    intro x hx
    rw [npages_mul_pgsize, npages_mul_pgsize, Set.mem_Ico] at hx
    have hxn : x = n := by omega
    rw [hxn]
  have hsupply := h.supply
  have hcost : v.tableCost 0 (n / nptentries) ≤ 1 := by
    unfold Vm.tableCost
    split <;> omega
  cases ha : v.allocuvm 0 (n * pgsize) ((n + 1) * pgsize) with
  | error msg =>
    obtain ⟨x, -, hm, -⟩ := Vm.allocuvm_error_supply ha
    exact absurd (h.outside x (.inr (Nat.zero_le x))) (Vm.entry_ne_none.mpr hm)
  | ok x =>
    obtain ⟨r, v'⟩ := x
    have hr : r ≠ 0 := by
      rintro rfl
      have hshort := Vm.allocuvm_short hlt hk hico ha
      rw [npages_mul_pgsize, npages_mul_pgsize] at hshort
      omega
    have hpages : npages (n * pgsize) < npages ((n + 1) * pgsize) := by
      rw [npages_mul_pgsize, npages_mul_pgsize]
      omega
    obtain ⟨rfl, hfree, huser⟩ := Vm.allocuvm_supply hpages hico ha hr
    obtain ⟨-, hf⟩ := (Vm.allocuvm_entries (Nat.le_of_lt hlt) hk ha).resolve_right
      fun hfail => hr hfail.1
    rw [npages_mul_pgsize, npages_mul_pgsize] at hfree huser hf
    refine ⟨v', rfl, ⟨?_, ?_, ?_⟩, huser n (by simp), by omega⟩
    · intro x hx
      rw [hf.other 0 x (.inr hx)]
      exact h.outside x (.inr (Nat.zero_le x))
    · rw [(Vm.held_allocuvm ha).length_eq]
      exact h.held
    · rw [(Vm.kernelHalf_allocuvm ha).kpt]
      exact h.kernel

theorem Bare.shrink {lo : Nat} (h : Bare v lo n) (hn : n * pgsize ≤ kernbase) :
    Bare (v.deallocuvm 0 (n * pgsize) 0).2 0 0 := by
  have he := Vm.emptied_deallocuvm v 0 (n * pgsize) 0
  rw [npages_zero, npages_mul_pgsize] at he
  refine ⟨?_, ?_, ?_⟩
  · intro x _
    by_cases hx : x < n
    · exact he.gone x (Nat.zero_le x) hx
    · rw [he.other 0 x (.inr (.inr (Nat.le_of_not_lt hx)))]
      exact h.outside x (.inr (Nat.le_of_not_lt hx))
  · rw [(Vm.held_deallocuvm v 0 hn 0).length_eq]
    exact h.held
  · rw [(Vm.kernelHalf_deallocuvm v 0 _ 0).kpt]
    exact h.kernel

/-- What the climb needs to know of the kernel `b` it starts from: the
process of CPU 0 can make calls, has page table 0 and no thread, no open
file and a page of heap, and there is memory. -/
structure Climber (b : Kernel 1) : Prop where
  cpu : b.cpu 0 = some initproc
  pc : b.pc initproc = .outside
  pgdir : (b.proc initproc).pgdir = some 0
  kstack : (b.proc initproc).kstack ≠ none
  sz : (b.proc initproc).sz = 1 * pgsize
  psl : (b.proc initproc).psl = none
  tid : (b.proc initproc).tid = 0
  list : b.findPsl = some 0
  ofile : ∀ fd, (b.proc initproc).ofile fd = none
  entry : (b.proc 1).state = .unused
  memory : 600 ≤ b.vm.freelist.length
  kernel : (b.vm.space 0).kpt.length ≤ 64
  heap : ∀ x, 1 ≤ x → b.vm.entry 0 x = none

/-- `b` with memory `v` and a size of `n` pages. -/
def atSize (b : Kernel 1) (v : Vm) (n : Nat) : Kernel 1 :=
  { b with vm := v }.setProc initproc fun q => { q with sz := n * pgsize }

theorem atSize_proc (b : Kernel 1) (v : Vm) (n : Nat) :
    (atSize b v n).proc initproc = { b.proc initproc with sz := n * pgsize } := by
  simp [atSize]

theorem atSize_vm (b : Kernel 1) (v : Vm) (n : Nat) : (atSize b v n).vm = v := rfl

section
variable (hb : Climber b)
include hb

theorem Climber.start : atSize b b.vm 1 = b := by
  unfold atSize Kernel.setProc
  simp only
  rw [← hb.sz, Function.update_eq_self]

theorem Climber.grows {m : Int} {r : Int} {k' : Kernel 1}
    (h : (atSize b v n).growproc initproc m = .ok (r, k')) :
    (atSize b v n).next (.call 0 (.growproc m)) = some k' := by
  have hcpu : (atSize b v n).cpu 0 = some initproc := hb.cpu
  have hpc : (atSize b v n).pc initproc = .outside := hb.pc
  simp only [Kernel.next, step, hcpu, hpc, if_true, perform, h]
  rfl

theorem Climber.growFinish (v v' : Vm) (n m : Nat) :
    ({ atSize b v n with vm := v' } : Kernel 1).growFinish initproc (m * pgsize)
      = .ok (0, atSize b v' m) := by
  have hsw : switchuvm ((atSize b v n).proc initproc) = .ok () := by
    rw [switchuvm, atSize_proc, if_neg hb.kstack, if_neg (by simp [hb.pgdir])]
  unfold Kernel.growFinish
  simp only [hsw]
  unfold atSize Kernel.setProc
  simp only [Function.update_self, Function.update_idem]

theorem Climber.up (hn : n < 524282)
    (ha : v.allocuvm 0 (n * pgsize) ((n + 1) * pgsize) = .ok ((n + 1) * pgsize, v')) :
    (atSize b v n).growproc initproc (pgsize : Nat) = .ok (0, atSize b v' (n + 1)) := by
  have hnew : toU32 ((n * pgsize : Nat) + (pgsize : Nat)) = (n + 1) * pgsize := by
    simp only [toU32, pgsize]
    omega
  have hne : (n + 1) * pgsize ≠ 0 := Nat.mul_ne_zero (Nat.succ_ne_zero n) (by decide)
  unfold growproc
  simp only [atSize_proc, atSize_vm, hb.pgdir]
  rw [if_pos (by decide), hnew, ha]
  split
  · next heq => cases heq
  · next heq => exact absurd (congrArg Prod.fst (Except.ok.inj heq)) hne
  rename_i heq
  cases heq
  exact hb.growFinish v v' n (n + 1)

theorem Climber.down (h0 : 0 < n) :
    (atSize b v n).growproc initproc (-((n * pgsize : Nat) : Int))
      = .ok (-1, atSize b (v.deallocuvm 0 (n * pgsize) 0).2 n) := by
  have hpos : 0 < n * pgsize := Nat.mul_pos h0 (by decide)
  generalize hsz : n * pgsize = sz at hpos
  have hnew : toU32 ((sz : Int) + -(sz : Int)) = 0 := by
    rw [Int.add_right_neg]
    rfl
  have hde : v.deallocuvm 0 sz 0 = (0, (v.deallocuvm 0 sz 0).2) := by
    unfold Vm.deallocuvm
    rw [if_neg (by omega)]
  unfold growproc
  simp only [atSize_proc, atSize_vm, hb.pgdir, hsz]
  rw [if_neg (by omega), if_pos (by omega), hnew, hde]
  rfl

/-- **The climb**: with one page of heap at a time the size of `initproc`
reaches every number of pages below the stacks. -/
theorem Climber.reaches (hr₀ : Run next k₀ tr₀ b) (n : Nat) (hn : n < 524282) :
    ∃ tr v, Run next k₀ tr (atSize b v (n + 1)) ∧ Bare v 0 0 := by
  induction n with
  | zero =>
    have hbare : Bare b.vm 0 1 := by
      refine ⟨fun x hx => hb.heap x (by omega), ?_, hb.kernel⟩
      rw [Vm.held, List.length_append]
      exact Nat.le_trans hb.memory (Nat.le_add_right _ _)
    rw [← hb.start] at hr₀
    exact ⟨_, _, hr₀.snoc (hb.grows (hb.down (by omega))), hbare.shrink (by decide)⟩
  | succ n ih =>
    obtain ⟨tr, v, hr, hbare⟩ := ih (by omega)
    obtain ⟨v', ha, hbare', -, -⟩ := hbare.grow (n := n + 1) (by omega)
    have hr' := hr.snoc (hb.grows (hb.up (by omega) ha))
    have hle : (n + 1 + 1) * pgsize ≤ kernbase :=
      Nat.le_trans (Nat.mul_le_mul_right pgsize (show n + 2 ≤ 524283 by omega)) (by decide)
    exact ⟨_, _, hr'.snoc (hb.grows (hb.down (by omega))), hbare'.shrink hle⟩

theorem Climber.creates (hv : Bare v 524281 524282) (hfree : 18 ≤ v.freelist.length) {t : Thread}
    (hc : (atSize b v 524282).Clean) (ht : (atSize b v 524282).world.thread initproc = some t) :
    ∃ r k', (atSize b v 524282).ktFirst initproc 0 0 pgsize 0 = .ok (r, k') ∧ r ≠ -1 ∧
      (atSize b v 524282).ktCreate initproc pgsize 0 = .ok (r, k') := by
  have hproc := atSize_proc b v 524282
  have hvm := atSize_vm b v 524282
  have hone : ((atSize b v 524282).proc 1).state = .unused := hb.entry
  have hlist : (atSize b v 524282).findPsl = some 0 := hb.list
  generalize atSize b v 524282 = k at hc ht hproc hvm hone hlist
  have hst := state_ne_unused ht
  have hcreate : k.ktCreate initproc pgsize 0 = k.ktFirst initproc 0 0 pgsize 0 := by
    rw [ktCreate, if_neg (by decide)]
    simp only [hproc, hb.pgdir, hb.psl, hlist]
  rw [hcreate]
  show ∃ r k', (k.claimed initproc 0).ktStack initproc 0 0 1 4 pgsize 0 = .ok (r, k') ∧ _
  -- the two pages of slot 1 are not there
  have hlow : (k.vm.space 0).mapped (slotLow 1) = false := by
    have hnone := hv.outside (slotLow 1) (.inr (by decide))
    rw [← hvm] at hnone
    rw [← Space.isSome_entry]
    exact Option.isSome_eq_false_iff.mpr (Option.isNone_iff_eq_none.mpr hnone)
  have hhigh : (k.vm.space 0).mapped (slotLow 1 + 1) = false := by
    have hnone := hv.outside (slotLow 1 + 1) (.inr (by decide))
    rw [← hvm] at hnone
    rw [← Space.isSome_entry]
    exact Option.isSome_eq_false_iff.mpr (Option.isNone_iff_eq_none.mpr hnone)
  have hneed : stackNeed k.vm 0 1 < k.vm.freelist.length := by
    rw [hvm]
    unfold stackNeed Vm.tableCost
    split <;> omega
  have hsafe : (k.claimed initproc 0).stackSafe initproc 0 1 = true := by
    have hent : k.findUnused.isSome = true :=
      List.find?_isSome.mpr ⟨1, List.mem_finRange 1, by simpa using hone⟩
    have htid : toI32 ((k.proc initproc).tid + 1) ≠ -1 := by
      rw [hproc]
      show toI32 ((b.proc initproc).tid + 1) ≠ -1
      rw [hb.tid]
      decide
    rw [claimed_stackSafe, stackSafe, hlow, hhigh]
    simp [hneed, hent, htid]
  have hst' : ((k.claimed initproc 0).proc initproc).state ≠ .unused := by
    rw [claimed_proc]
    exact hst
  have hd' : ((k.claimed initproc 0).proc initproc).pgdir = some 0 := by
    rw [claimed_proc, hproc]
    exact hb.pgdir
  have hfiles : (k.claimed initproc 0).FilesOk initproc := by
    intro fd f hf
    rw [claimed_proc, hproc] at hf
    rw [show (b.proc initproc).ofile fd = none from hb.ofile fd] at hf
    cases hf
  cases ha : (k.claimed initproc 0).stackAlloc 0 1 4 with
  | error msg =>
    rcases stackAlloc_error (by omega) (.inr rfl) ha with ⟨hm, -⟩ | ⟨hm, -⟩
    · have hm' : (k.vm.space 0).mapped (slotLow 1) = true := hm
      rw [hlow] at hm'
      cases hm'
    · have hm' : (k.vm.space 0).mapped (slotLow 1 + 1) = true := hm
      rw [hhigh] at hm'
      cases hm'
  | ok x =>
    obtain ⟨o, k₁⟩ := x
    cases o with
    | none => exact absurd (Nat.le_of_lt hneed) (stackAlloc_none (by omega) ha).2.1
    | some sp =>
      obtain ⟨r, k', h⟩ := ktStack_total (s := 0) pgsize 0 (by omega) (.inr rfl) hst' hd'
        hfiles ha
      exact ⟨r, k', h, ktStack_safe (by omega) (.inr rfl) (claimed_clean hc ht) hst' hd' hsafe
        h, h⟩

/-- `initproc` climbs to the stacks, takes one more page of heap and starts
a thread: that page is not the user's any more. -/
theorem Climber.hits (h0 : Boot k₀) (hr₀ : Run next k₀ tr₀ b) :
    ∃ tr k k' r, Run next k₀ tr k ∧ k.cpu 0 = some initproc ∧
      k.ktCreate initproc pgsize 0 = .ok (r, k') ∧ r ≠ -1 ∧
      (k.proc initproc).sz = (slotLow 2 + 1) * pgsize ∧ k.vm.UserPage 0 (slotLow 2) ∧
      ¬ k'.vm.UserPage 0 (slotLow 2) ∧ ¬ Starts k k' initproc pgsize 0 r := by
  obtain ⟨tr, v, hr, hbare⟩ := hb.reaches hr₀ 524280 (by omega)
  obtain ⟨v', ha, hbare', huser, hfree⟩ := hbare.grow (n := 524281) (by omega)
  have hr' := hr.snoc (hb.grows (hb.up (by omega) ha))
  have hk : Kept (atSize b v' 524282) :=
    Run.always (kept_boot h0) (fun _ _ _ hi hn => hi.step hn) hr'
  have hcpu : (atSize b v' 524282).cpu 0 = some initproc := hb.cpu
  have hd : ((atSize b v' 524282).proc initproc).pgdir = some 0 := by
    rw [atSize_proc]
    exact hb.pgdir
  obtain ⟨t, ht, -⟩ := caller hk.sched hk.clean hcpu
  obtain ⟨r, k', hfirst, htid, hcreate⟩ := hb.creates hbare' hfree hk.clean ht
  obtain ⟨hguard, -⟩ := ktFirst_starts hk (state_ne_unused ht) hd hb.list hfirst htid
  have hpage : slotLow 2 = 524281 := by decide
  obtain ⟨e, he, hu⟩ := userPage_iff.mp huser
  rw [hpage] at hguard ⊢
  refine ⟨_, atSize b v' 524282, k', r, hr', hcpu, hcreate, htid, ?_, huser, ?_, ?_⟩
  · rw [atSize_proc]
  · rw [userPage_iff]
    rintro ⟨e', he', hu'⟩
    rw [hguard e he] at he'
    cases he'
    cases hu'
  · intro hs
    rw [hs.not_guarded he (hguard e he)] at hu
    cases hu

end

/-- One CPU and 700 pages. -/
def largeMachine : Kernel 1 := (machine 1 700).get (by decide +kernel)

theorem userinit_largeMachine :
    (cleared 1 (Vm.kinit (firstPages 700))).userinit [] 0 = .ok largeMachine :=
  eq_ok_of_toOption (Option.some_get _).symm

/-- `initproc` is running on it. -/
def largeScheduled : Kernel 1 := (largeMachine.next (.schedule 0 0)).get (by decide +kernel)

theorem largeScheduled_eq : largeMachine.next (.schedule 0 0) = some largeScheduled :=
  (Option.some_get _).symm

theorem climber_largeScheduled : Climber largeScheduled := by
  have hfacts : largeScheduled.cpu 0 = some initproc ∧
      largeScheduled.pc initproc = .outside ∧
      (largeScheduled.proc initproc).pgdir = some 0 ∧
      (largeScheduled.proc initproc).kstack ≠ none ∧
      (largeScheduled.proc initproc).sz = 1 * pgsize ∧
      (largeScheduled.proc initproc).psl = none ∧ (largeScheduled.proc initproc).tid = 0 ∧
      largeScheduled.findPsl = some 0 ∧
      (∀ fd, (largeScheduled.proc initproc).ofile fd = none) ∧
      (largeScheduled.proc 1).state = .unused ∧
      600 ≤ largeScheduled.vm.freelist.length ∧
      (largeScheduled.vm.space 0).kpt.length ≤ 64 := by
    decide +kernel
  have hpd : (largeMachine.proc initproc).pgdir = some 0 := by decide +kernel
  obtain ⟨h1, h2, h3, h4, h5, h6, h7, h8, h9, h10, h11, h12⟩ := hfacts
  refine ⟨h1, h2, h3, h4, h5, h6, h7, h8, h9, h10, h11, h12, ?_⟩
  intro x hx
  rw [schedule_vm largeScheduled_eq]
  exact userinit_entries userinit_largeMachine hpd 0 x (.inr hx)

/-- The heap of `initproc` reaches the lower page of slot 2, and loses it
to the guard of its first thread. -/
theorem guard_hits_heap : ∃ tr k k' r, Run next largeMachine tr k ∧ k.cpu 0 = some initproc ∧
    k.ktCreate initproc pgsize 0 = .ok (r, k') ∧ r ≠ -1 ∧
    (k.proc initproc).sz = (slotLow 2 + 1) * pgsize ∧ k.vm.UserPage 0 (slotLow 2) ∧
    ¬ k'.vm.UserPage 0 (slotLow 2) ∧ ¬ Starts k k' initproc pgsize 0 r := by
  have hr₀ : Run next largeMachine [(largeMachine, .schedule 0 0)] largeScheduled :=
    Run.nil.snoc largeScheduled_eq
  exact climber_largeScheduled.hits (boot_userinit userinit_largeMachine) hr₀

end Kernel

end Xv6.Kern
