/-
Xv6.User.Sbrk — the sizes `malloc` computes, over the kernel's `sbrk`.

`malloc` rounds a request up to units, multiplies the units by 8 and gives
the product to `sbrk`, which takes an `int`. The three steps are exact for
requests up to 2^31 - 16 bytes, and only for these: above, `sys_sbrk` is
asked to shrink the process, and the last seven requests wrap before they
are divided.

`malloc` relies on `sbrk` to return, and to leave the process as it was
when it returns -1. The kernel does so just where no page that is mapped
lies between the size of the caller and the new one (`sysSbrk_iff`).
Otherwise it panics, or it unmaps that page when memory runs out.
`malloc_exact_iff` puts the two conditions together.
-/
import Xv6.Kern.GrowTheorems
import Xv6.User.UmallocTheorems

namespace Xv6.Kern.Kernel

open Xv6.Mem

variable {ncpu : Nat} {k k' : Kernel ncpu} {p : ProcIdx} {d : Nat} {n : Int} {o : Option Nat}

/-- `sys_sbrk` with the argument `n`: the old size, or nothing for -1. -/
def sysSbrk (k : Kernel ncpu) (cur : ProcIdx) (n : Int) :
    Except String (Option Nat × Kernel ncpu) :=
  match k.growproc cur n with
  | .error e => .error e
  | .ok (r, k') => .ok (if r < 0 then none else some (k.proc cur).sz, k')

theorem sysSbrk_ok (h : k.sysSbrk p n = .ok (o, k')) : ∃ r, k.growproc p n = .ok (r, k') ∧
    o = if r < 0 then none else some (k.proc p).sz := by
  unfold sysSbrk at h
  split at h
  · cases h
  · next r l hg =>
    cases h
    exact ⟨r, hg, rfl⟩

theorem sysSbrk_grows (hd : (k.proc p).pgdir = some d) (hn : 0 < n) (hmax : n < 2 ^ 31)
    (hsz : (k.proc p).sz ≤ kernbase) (h : k.sysSbrk p n = .ok (o, k')) :
    o = none ∨ o = some (k.proc p).sz ∧ (k'.proc p).sz = (k.proc p).sz + n ∧
      (k'.proc p).sz < kernbase := by
  obtain ⟨r, hg, rfl⟩ := sysSbrk_ok h
  rcases growproc_grows hd hn hmax hsz hg with ⟨-, rfl, -⟩ | ⟨hlt, newsz, hnew, ⟨rfl, hk, -⟩ |
    ⟨rfl, -⟩⟩
  · exact .inl rfl
  · refine .inr ⟨rfl, ?_, ?_⟩ <;> omega
  · exact .inl rfl

/-- All that was mapped is there as it was, and so is the heap up to the
size of the process. -/
structure KeepsSpace (k k' : Kernel ncpu) (p : ProcIdx) (d : Nat) : Prop where
  mapped : ∀ x e, k.vm.entry d x = some e →
    k'.vm.entry d x = some e ∧ k'.vm.data e.page = k.vm.data e.page
  heap : ∀ x, x < npages (k'.proc p).sz → k'.vm.entry d x ≠ none

/-- `growproc` returns if no page above the heap is in its way. -/
theorem growproc_returns (hd : (k.proc p).pgdir = some d) (hks : (k.proc p).kstack ≠ none)
    (hn : 0 < n) (hmax : n < 2 ^ 31) (hsz : (k.proc p).sz ≤ kernbase)
    (hsafe : growSafe k.vm d (k.proc p).sz n) : ∃ r, k.growproc p n = .ok r := by
  have hnew : ((toU32 ((k.proc p).sz + n) : Nat) : Int) = (k.proc p).sz + n := by
    simp only [toU32, kernbase] at hsz ⊢
    omega
  have hfin : ∀ (vm : Vm) (sz : Nat), ∃ r, ({ k with vm := vm } : Kernel ncpu).growFinish p sz
      = .ok r := by
    intro vm sz
    simp [growFinish, switchuvm, hks, hd]
  unfold growproc
  simp only [hd, if_pos hn]
  split
  · next e ha =>
    -- the panic is over a page that is mapped
    obtain ⟨-, hk, x, ⟨hx, hlt⟩, hmap⟩ := Vm.allocuvm_error ha
    rcases hsafe with h0 | ⟨-, hk' | hstack⟩ | ⟨hneg, -⟩
    · omega
    · omega
    · have hle := hstack x ⟨hx, Vm.entry_ne_none.mpr hmap⟩
      rw [← hnew, Int.toNat_natCast] at hle
      omega
    · omega
  · exact ⟨_, rfl⟩
  · exact hfin _ _

/-- **`sys_sbrk` that grows** returns and keeps what is mapped just where
`growproc` is safe. -/
theorem sysSbrk_iff (hd : (k.proc p).pgdir = some d) (hks : (k.proc p).kstack ≠ none)
    (hok : k.vm.HeapOk d (k.proc p).sz) (hn : 0 < n) (hmax : n < 2 ^ 31) :
    (∃ o k', k.sysSbrk p n = .ok (o, k') ∧ KeepsSpace k k' p d) ↔
      growSafe k.vm d (k.proc p).sz n := by
  constructor
  · rintro ⟨o, k', h, hkeep⟩
    obtain ⟨r, hg, -⟩ := sysSbrk_ok h
    refine .inr (.inl ⟨hn, ?_⟩)
    rcases growproc_grows hd hn hmax hok.size hg with ⟨hk, -⟩ | ⟨-, newsz, hnew, hcase⟩
    · exact .inl hk
    · refine .inr fun x hx => ?_
      rw [← hnew, Int.toNat_natCast]
      by_contra hlt
      obtain ⟨e, he⟩ := Option.ne_none_iff_exists'.mp hx.2
      rcases hcase with ⟨-, -, hf⟩ | ⟨-, -, hem⟩
      · exact hx.2 (hf.was x hx.1 (by omega))
      · have hgone := hem.gone x hx.1 (by omega)
        rw [(hkeep.mapped x e he).1] at hgone
        cases hgone
  · intro hsafe
    obtain ⟨⟨r, k'⟩, hg⟩ := growproc_returns hd hks hn hmax hok.size hsafe
    refine ⟨if r < 0 then none else some (k.proc p).sz, k', by simp only [sysSbrk, hg], ?_⟩
    have hcon : GrowContract k k' p d n r := by
      refine (contract_of_pos hd hok hn hmax hg).mpr ?_
      rcases hsafe with h0 | ⟨-, hor⟩ | ⟨hneg, -⟩
      · omega
      · exact hor
      · omega
    have hr : r = -1 ∨ r = 0 := by
      rcases growproc_grows hd hn hmax hok.size hg with ⟨-, h, -⟩ | ⟨-, -, -, ⟨h, -⟩ | ⟨h, -⟩⟩
      · exact .inl h
      · exact .inr h
      · exact .inl h
    rcases hr with hr | hr
    · obtain ⟨hsz, hent, hdata⟩ := hcon.1 hr
      refine ⟨fun x e he => ⟨(hent x).trans he, hdata x e he⟩, fun x hx => ?_⟩
      rw [hent]
      exact hok.heap x (hsz ▸ hx)
    · obtain ⟨hsz, hent, -, hold⟩ := hcon.2 hr
      refine ⟨fun x e he => hold x e he ?_, fun x hx => (hent x).mpr (.inl hx)⟩
      by_cases hlt : x < npages (k.proc p).sz
      · exact .inl (Nat.lt_of_lt_of_le hlt (npages_mono (by omega)))
      · exact .inr ⟨by omega, by simp [he]⟩

end Xv6.Kern.Kernel

namespace Xv6.User.Umalloc

open Xv6.Lib Xv6.Kern

variable {ncpu : Nat} {k k' : Kernel ncpu} {p : ProcIdx} {d fuel n : Nat} {o : Option Nat}
  {nbytes : UInt32} {h : Heap}

/-- `nu * sizeof(Header)` in `morecore`, before it wraps. -/
def bytes (nunits : Nat) : Nat := (if nunits < 4096 then 4096 else nunits) * headerSize

namespace Arena

theorem bytes_range (h : nbytes.toNat + 16 ≤ 2 ^ 31) :
    0 < bytes (units nbytes) ∧ bytes (units nbytes) < 2 ^ 31 := by
  have hunits : units nbytes < 2 ^ 28 := by
    simp only [units, headerSize]
    omega
  unfold bytes
  split <;> simp only [headerSize] <;> omega

/-- What `malloc` passes to `sbrk`: the loop comes to a block that is large
enough, or to `freep` first and calls `morecore`. -/
def asks (s : Arena) (nbytes : UInt32) (fuel : Nat) : Option (Option Nat) :=
  let s := s.start
  (seek s.ptr (fun p => decide (s.size p ≥ units nbytes) || decide (p = s.freep)) fuel
    (s.ptr s.freep)).map fun p =>
      if s.size p ≥ units nbytes then none else some (bytes (units nbytes) % 2 ^ 32)

theorem asks_eq {s : Arena} (h : s.asks nbytes fuel = some (some n)) :
    n = bytes (units nbytes) % 2 ^ 32 := by
  obtain ⟨p, -, hp⟩ := Option.map_eq_some_iff.mp h
  split at hp
  · cases hp
  · exact (Option.some.inj hp).symm

/-- The loop ends; if all blocks are too small, with a call of `sbrk`. -/
theorem Linked.asks {s : Arena} {L live : List Nat} (hs : Linked s.start L live)
    (nbytes : UInt32) : ∃ a, Yields (fun n => s.asks nbytes n) a ∧
      ((∀ c ∈ L, s.start.size c < units nbytes) → a = some (bytes (units nbytes) % 2 ^ 32)) := by
  obtain ⟨us, vs, hsplit⟩ := List.append_of_mem hs.roving
  have hpath := (hsplit ▸ hs.circular).rotate.2
  let test := fun p => decide (s.start.size p ≥ units nbytes) || decide (p = s.start.freep)
  have hseek := hpath.seek_yields (show test s.start.freep = true by simp [test])
  refine ⟨_, hseek.map _, fun hsmall => if_neg ?_⟩
  have hmem : ((vs ++ us).find? test).getD s.start.freep ∈ L := by
    cases hf : (vs ++ us).find? test with
    | none => exact hs.roving
    | some c =>
      have hc := List.mem_of_find?_eq_some hf
      rw [hsplit]
      simp only [List.mem_append, List.mem_cons] at hc ⊢
      exact hc.elim (fun h => .inr (.inr h)) .inl
  have := hsmall _ hmem
  omega

/-- A block is no larger than the memory below the top. -/
theorem Linked.size_lt {s : Arena} {L live : List Nat} {a : Nat} (hs : Linked s L live)
    (ha : a ∈ L) (htop : s.top ≤ kernbase) : s.size a < 2 ^ 28 := by
  by_cases hb : a = s.base
  · rw [hb, hs.empty]
    decide
  · have hle := hs.base_le ha
    have hpos := hs.pos a (List.mem_append_left _ ha) hb
    have hlast : s.holds (s.fin a - 1) a = true := by
      rw [holds_iff]
      simp only [fin, headerSize]
      omega
    have := (hs.range _ (hs.owns_of_holds (List.mem_append_left _ ha) hlast)).2
    simp only [fin, headerSize, kernbase] at this htop
    omega

end Arena

namespace Heap

open Arena

/-- What `sys_sbrk` of process `p` answers when `malloc(nbytes)` calls it,
if it does: `o`, and the kernel is `k'` then. `sbrk` gives the answer on. -/
def Answers (s : Arena) (k : Kernel ncpu) (p : ProcIdx) (nbytes : UInt32) (o : Option Nat)
    (k' : Kernel ncpu) : Prop :=
  ∃ fuel, (s.asks nbytes fuel = some none ∧ k' = k) ∨
    ∃ n s', s.asks nbytes fuel = some (some n) ∧ k.sysSbrk p (toI32 n) = .ok (o, k') ∧
      { s with answers := [o] }.sbrk n = (o, s') ∧ (o ≠ none → s'.top = (k'.proc p).sz)

/-- `malloc(nbytes)` called `sbrk` once at most, the heap is sound and its
blocks as they were; and a pointer is to enough bytes, all of them from
`sbrk`. -/
structure Served (h : Heap) (nbytes : UInt32) (r : Option Nat × Arena) : Prop where
  once : h.arena.answers.tail <:+ r.2.answers
  sound : ∃ free, Sound ⟨r.2, (r.1.map (· - headerSize)).toList ++ h.live⟩ free
  kept : ∀ a ∈ h.live, r.2.size a = h.arena.size a
  block : ∀ ap, r.1 = some ap → headerSize ≤ ap ∧ ap + nbytes.toNat ≤ r.2.fin (ap - headerSize) ∧
    r.2.block (ap - headerSize) ⊆ r.2.memory

/-- The heap, with other answers of `sbrk` to come. -/
def answered (h : Heap) (answers : List (Option Nat)) : Heap :=
  { h with arena := { h.arena with answers := answers } }

/-- `malloc(nbytes)` by process `p` with page directory `d` does what it
should: neither the count of units nor the count of bytes wraps or turns
negative; `sys_sbrk` returns if it is called, and all memory that was
mapped is kept; and then `malloc` returns and has served the request. -/
structure Exact (h : Heap) (k : Kernel ncpu) (p : ProcIdx) (d : Nat) (nbytes : UInt32) :
    Prop where
  units : units nbytes = (nbytes.toNat + (headerSize - 1)) / headerSize + 1
  bytes : ∀ fuel n, h.arena.asks nbytes fuel = some (some n) →
    toI32 n = bytes (Arena.units nbytes)
  returns : ∃ o k', Answers h.arena k p nbytes o k' ∧ k.KeepsSpace k' p d ∧
    ∀ rest, ∃ r N, (∀ fuel, N ≤ fuel →
      (h.answered (o :: rest)).arena.malloc fuel nbytes = some r) ∧
      (h.answered (o :: rest)).Served nbytes r

/-- What `malloc` asks for does not depend on the turns it may take. -/
theorem asks_yields (hi : h.New ∨ h.Good) (nbytes : UInt32) :
    ∃ a, Yields (fun n => h.arena.asks nbytes n) a ∧
      (h.arena.top ≤ kernbase → 2 ^ 28 ≤ Arena.units nbytes →
        a = some (Umalloc.bytes (Arena.units nbytes) % 2 ^ 32)) := by
  obtain ⟨L, live, hL⟩ : ∃ L live, Linked h.arena.start L live := by
    rcases hi with hn | hg
    · have hbelow := hn.below
      simp only [headerSize] at hbelow
      exact ⟨_, _, (start_linked hn.freep hn.obtained (by omega)).1⟩
    · obtain ⟨L, hL, -⟩ := hg.ready
      exact ⟨L, h.live, hg.start.symm ▸ hL⟩
  obtain ⟨a, hy, hsmall⟩ := hL.asks nbytes
  refine ⟨a, hy, fun htop hbig => hsmall fun c hc => ?_⟩
  have htop' : h.arena.start.top ≤ kernbase := by
    unfold start
    split <;> exact htop
  have := hL.size_lt hc htop'
  omega

/-- An exact `malloc` that calls `sbrk` gets an answer, and memory is kept. -/
theorem Exact.keeps (hex : h.Exact k p d nbytes) (hi : h.New ∨ h.Good)
    (hn : h.arena.asks nbytes fuel = some (some n)) :
    ∃ o k', k.sysSbrk p (toI32 n) = .ok (o, k') ∧ k.KeepsSpace k' p d := by
  obtain ⟨o, k', ⟨fuel', hans⟩, hkeep, -⟩ := hex.returns
  obtain ⟨a, hy, -⟩ := asks_yields hi nbytes
  have ha := hy.eq_of_eq_some hn
  rcases hans with ⟨hnone, -⟩ | ⟨m, s', hm, hsys, -⟩
  · rw [← hy.eq_of_eq_some hnone] at ha
    cases ha
  · rw [← hy.eq_of_eq_some hm] at ha
    cases ha
    exact ⟨o, k', hsys, hkeep⟩

/-- The bytes of a larger request are negative as an `int`. -/
theorem Exact.nbytes_le (hex : h.Exact k p d nbytes) (hi : h.New ∨ h.Good)
    (htop : h.arena.top ≤ kernbase) : nbytes.toNat + 16 ≤ 2 ^ 31 := by
  by_contra hgt
  obtain ⟨a, hy, hbig⟩ := asks_yields hi nbytes
  have hlarge : 2 ^ 28 ≤ Arena.units nbytes := by
    rw [hex.units]
    simp only [headerSize]
    omega
  rw [hbig htop hlarge] at hy
  obtain ⟨N, hN⟩ := hy.returns
  have hint := hex.bytes N _ (hN N (Nat.le_refl N))
  have hbytes : 2 ^ 31 ≤ Umalloc.bytes (Arena.units nbytes) := by
    simp only [Umalloc.bytes, headerSize]
    split <;> omega
  have hlt : toI32 (Umalloc.bytes (Arena.units nbytes) % 2 ^ 32 : Nat) < 2 ^ 31 :=
    Int.bmod_lt (by decide)
  omega

/-- `malloc` returns for every list of answers. -/
theorem served (hi : h.New ∨ h.Good) (hle : nbytes.toNat + 15 < 2 ^ 32) :
    ∃ r N, (∀ fuel, N ≤ fuel → h.arena.malloc fuel nbytes = some r) ∧ h.Served nbytes r := by
  obtain ⟨r, s, hr, hbase, hs, hsize, hans⟩ : ∃ r s, Yields (fun n => h.arena.malloc n nbytes) r ∧
      0 < r.2.base ∧ Serves s h.live (Arena.units nbytes) r ∧
      (∀ a ∈ h.live, s.size a = h.arena.size a) ∧ s.answers = h.arena.answers := by
    rcases hi with hn | hg
    · obtain ⟨r, hr, hbase, hs⟩ := hn.malloc hle
      refine ⟨r, _, hr, hbase ▸ hn.base, hs, by simp [hn.live], ?_⟩
      rw [start, if_pos hn.freep]
    · obtain ⟨r, hr, hs⟩ := hg.malloc hle
      exact ⟨r, _, hr, hs.kept.base ▸ hg.base, hs, fun _ _ => rfl, rfl⟩
  obtain ⟨N, hN⟩ := hr.returns
  have hgood : Good ⟨r.2, (r.1.map (· - headerSize)).toList ++ h.live⟩ := ⟨hbase, hs.ready⟩
  obtain ⟨free, hsound⟩ := hgood.sound
  refine ⟨r, N, hN, hans ▸ hs.once, ⟨free, hsound⟩,
    fun a ha => (hs.kept.size a ha).trans (hsize a ha), fun ap hap => ?_⟩
  obtain ⟨hge, hfin, -⟩ := serves_block hs hle hap
  refine ⟨hge, hfin, fun x hx => ?_⟩
  rw [← hsound.cover]
  exact ⟨ap - headerSize, by simp [hap], hx⟩

theorem good_answered (hi : h.New ∨ h.Good) (answers : List (Option Nat)) :
    (h.answered answers).New ∨ (h.answered answers).Good := by
  refine hi.imp (fun hn => ⟨hn.freep, hn.live, hn.obtained, hn.base, hn.below⟩)
    fun hg => ⟨hg.base, ?_⟩
  obtain ⟨L, hL, hap⟩ := hg.ready
  exact ⟨L, { hL with }, hap⟩

/-- **`malloc` never returns a block that is too small**, and neither loses
memory nor stops the machine, for exactly these requests: they have at most
2^31 - 16 bytes, and no mapped page lies between the size of the process
and the size `sbrk` is asked for. -/
theorem malloc_exact_iff (hi : h.New ∨ h.Good) (hheap : h.arena.heap ≤ h.arena.top)
    (htop : h.arena.top ≤ (k.proc p).sz) (hd : (k.proc p).pgdir = some d)
    (hks : (k.proc p).kstack ≠ none) (hok : k.vm.HeapOk d (k.proc p).sz) (nbytes : UInt32) :
    h.Exact k p d nbytes ↔ nbytes.toNat + 16 ≤ 2 ^ 31 ∧
      ∀ fuel n, h.arena.asks nbytes fuel = some (some n) →
        Kernel.growSafe k.vm d (k.proc p).sz n := by
  have hsz := hok.size
  constructor
  · intro hex
    have hle := hex.nbytes_le hi (htop.trans hsz)
    refine ⟨hle, fun fuel n hn => ?_⟩
    obtain ⟨hpos, hlt⟩ := bytes_range hle
    obtain ⟨o, k', hsys, hkeep⟩ := hex.keeps hi hn
    have hint := hex.bytes fuel n hn
    have hn' := asks_eq hn
    rw [Nat.mod_eq_of_lt (by omega)] at hn'
    rw [hint, ← hn'] at hsys
    exact (Kernel.sysSbrk_iff hd hks hok (by omega) (by omega)).mp ⟨o, k', hsys, hkeep⟩
  · rintro ⟨hle, hsafe⟩
    obtain ⟨hpos, hlt⟩ := bytes_range hle
    have hint : ∀ fuel n, h.arena.asks nbytes fuel = some (some n) →
        n = Umalloc.bytes (Arena.units nbytes) ∧ toI32 n = n := by
      intro fuel n hn
      have hn' := asks_eq hn
      rw [Nat.mod_eq_of_lt (by omega)] at hn'
      exact ⟨hn', toI32_of_range (by omega) (by omega)⟩
    obtain ⟨a, hy, -⟩ := asks_yields hi nbytes
    obtain ⟨N, hN⟩ := hy.returns
    have hless : nbytes.toNat + 15 < 2 ^ 32 := by omega
    have hserved := fun answers => served (good_answered hi answers) hless
    refine ⟨?_, fun fuel n hn => ?_, ?_⟩
    · simp only [Arena.units, headerSize]
      omega
    · rw [(hint fuel n hn).2, (hint fuel n hn).1]
    · have hask := hN N (Nat.le_refl N)
      cases a with
      | none =>
        exact ⟨none, k, ⟨N, .inl ⟨hask, rfl⟩⟩, ⟨fun _ _ he => ⟨he, rfl⟩, hok.heap⟩,
          fun rest => hserved _⟩
      | some n =>
        obtain ⟨rfl, htoI⟩ := hint N n hask
        obtain ⟨o, k', hsys, hkeep⟩ :=
          (Kernel.sysSbrk_iff hd hks hok (by omega) (by omega)).mpr (hsafe N _ hask)
        refine ⟨o, k', ⟨N, .inr ⟨Umalloc.bytes (Arena.units nbytes), ?_⟩⟩, hkeep,
          fun rest => hserved _⟩
        rw [htoI]
        rcases Kernel.sysSbrk_grows hd (by omega) (by omega) hsz hsys with rfl | ⟨rfl, hnew, hlt'⟩
        · exact ⟨_, hask, hsys, rfl, fun hne => absurd rfl hne⟩
        · simp only [kernbase] at hlt'
          refine ⟨_, hask, hsys, if_pos (by simp only; omega), fun _ => ?_⟩
          simp only
          omega

/-- A heap above one page of program. -/
def onePageUp : Heap where
  arena :=
    { base := 0x800, freep := 0, ptr := fun _ => 0, size := fun _ => 0, top := 0x1000, heap := 0
      obtained := [], answers := [] }
  live := []

theorem onePageUp_new : onePageUp.New := ⟨rfl, rfl, rfl, by decide, by decide⟩

/-- 100 bytes in a new heap. -/
theorem malloc_exact_hundred : onePageUp.New ∧
    onePageUp.Exact Kernel.initLoaded initproc 1 100 := by
  have hfacts : onePageUp.arena.top ≤ (Kernel.initLoaded.proc initproc).sz ∧
      (Kernel.initLoaded.proc initproc).pgdir = some 1 ∧
      (Kernel.initLoaded.proc initproc).kstack ≠ none := by
    decide +kernel
  obtain ⟨htop, hd, hks⟩ := hfacts
  refine ⟨onePageUp_new, (malloc_exact_iff (.inl onePageUp_new) (by decide) htop hd hks
    Kernel.heapOk_initLoaded 100).mpr ⟨by decide, fun fuel n hn => ?_⟩⟩
  rw [asks_eq hn]
  exact Kernel.growSafe_initLoaded (by decide) (by decide +kernel)

/-- For 2^31 bytes `sbrk` is passed 8 - 2^31, and `sys_sbrk` answers as if it
had found memory; for 2^32 - 1 bytes there is a block without a byte. For
2^31 - 12288 bytes, without memory, the process loses its stack; and in a
thread beside one that grew, 100 bytes stop the machine. -/
theorem malloc_inexact : onePageUp.New ∧
    (onePageUp.arena.asks 0x80000000 1 = some (some 0x80000008) ∧
      ¬ onePageUp.Exact Kernel.initLoaded initproc 1 0x80000000 ∧
      ∃ k', Kernel.initLoaded.sysSbrk initproc (toI32 0x80000008) = .ok (some 4096, k') ∧
        (k'.proc initproc).sz = 4096) ∧
    (∃ r, fresh.arena.malloc 9 0xFFFFFFFF = some (some (0x9ff8 + headerSize), r) ∧
      r.fin 0x9ff8 = 0x9ff8 + headerSize) ∧
    (¬ onePageUp.Exact Kernel.crowded.2 initproc 1 0x7FFFD000 ∧
      ∃ k', Kernel.crowded.2.sysSbrk initproc 0x7FFFD008 = .ok (none, k') ∧
        k'.vm.entry 1 (Mem.Vm.stackPage 0) = none) ∧
    ¬ onePageUp.Exact Kernel.grownBesideThread.2 1 1 100 ∧
    Kernel.grownBesideThread.2.sysSbrk 1 32768 = .error "remap" := by
  have hasks : onePageUp.arena.asks 0x80000000 1 = some (some 0x80000008) := by decide
  obtain ⟨k', hsys, hgone⟩ : ∃ k', Kernel.crowded.2.sysSbrk initproc 0x7FFFD008 = .ok (none, k') ∧
      k'.vm.entry 1 (Mem.Vm.stackPage 0) = none := by
    decide +kernel
  have hstack : Kernel.crowded.2.vm.entry 1 (Mem.Vm.stackPage 0) ≠ none := by decide +kernel
  have hremap : Kernel.grownBesideThread.2.sysSbrk 1 32768 = .error "remap" := by
    decide +kernel
  refine ⟨onePageUp_new, ⟨hasks, ?_, by decide +kernel⟩, ⟨_, rfl, by decide⟩,
    ⟨?_, k', hsys, hgone⟩, ?_, hremap⟩
  · intro hex
    have := hex.bytes 1 _ hasks
    revert this
    decide
  · intro hex
    have hasks' : onePageUp.arena.asks 0x7FFFD000 1 = some (some 0x7FFFD008) := by decide
    obtain ⟨o, k₂, hsys', hkeep⟩ := hex.keeps (.inl onePageUp_new) hasks'
    rw [show toI32 (0x7FFFD008 : Nat) = 0x7FFFD008 by decide, hsys] at hsys'
    cases hsys'
    obtain ⟨e, he⟩ := Option.ne_none_iff_exists'.mp hstack
    rw [(hkeep.mapped _ e he).1] at hgone
    cases hgone
  · intro hex
    have hasks' : onePageUp.arena.asks 100 1 = some (some 32768) := by decide
    obtain ⟨o, k₂, hsys', -⟩ := hex.keeps (.inl onePageUp_new) hasks'
    rw [show toI32 (32768 : Nat) = 32768 by decide, hremap] at hsys'
    cases hsys'

end Heap

end Xv6.User.Umalloc
