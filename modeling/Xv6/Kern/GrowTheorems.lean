/-
Xv6.Kern.GrowTheorems — what is left of a process when `growproc` fails.

`growproc(n)` keeps its contract except in three places, all of them in
how it uses `allocuvm` and `deallocuvm`:

* a request that reaches a stack page fails only after memory ran out,
  and the rollback `deallocuvm(pgdir, newsz, oldsz)` then unmaps the whole
  range, the stack included;
* shrinking to size 0 unmaps the heap, and the 0 that `deallocuvm` returns
  is taken for its failure;
* below `-sz` the new size wraps around, `deallocuvm` sees nothing to do
  and `growproc` reports success.

`growSafe` is the complement of the three, and the theorem is an
equivalence.
-/
import Xv6.Kern.ForkTheorems

namespace Xv6.Mem.Vm

/-- A user address space with a heap of `sz` bytes: the heap pages are
mapped, mapped pages are distinct and not free. Whatever else is mapped
is the stack. -/
structure HeapOk (v : Vm) (d sz : Nat) : Prop where
  size : sz ≤ kernbase
  heap : ∀ x, x < npages sz → v.entry d x ≠ none
  free : v.FreeOk d
  distinct : ∀ x y e e', v.entry d x = some e → v.entry d y = some e' → e.page = e'.page → x = y

/-- The mapped pages above the heap. -/
def StackAt (v : Vm) (d sz x : Nat) : Prop := npages sz ≤ x ∧ v.entry d x ≠ none

end Xv6.Mem.Vm

namespace Xv6.Kern

open Xv6.Lib Xv6.Mem

variable {ncpu : Nat}

namespace Kernel

/-- The size `growproc(n)` asks for exists, and growing to it does not run
into the stack. -/
def growSafe (v : Vm) (d sz : Nat) (n : Int) : Prop :=
  n = 0 ∨
  (0 < n ∧ (kernbase ≤ sz + n ∨ ∀ x, v.StackAt d sz x → npages (sz + n).toNat ≤ x)) ∨
  (n < 0 ∧ (0 < sz + n ∨ sz = 0))

/-- What a failing `growproc` leaves. -/
def Intact (k k' : Kernel ncpu) (p : ProcIdx) (d : Nat) : Prop :=
  (k'.proc p).sz = (k.proc p).sz ∧ (∀ x, k'.vm.entry d x = k.vm.entry d x) ∧
    ∀ x e, k.vm.entry d x = some e → k'.vm.data e.page = k.vm.data e.page

/-- What a successful `growproc(n)` leaves: the new size, the heap pages
below it beside the stack, new pages of zeros, and the contents of every
page that is still there. -/
def Resized (k k' : Kernel ncpu) (p : ProcIdx) (d : Nat) (n : Int) : Prop :=
  (k'.proc p).sz = (k.proc p).sz + n ∧
  (∀ x, k'.vm.entry d x ≠ none ↔
    x < npages (k'.proc p).sz ∨ k.vm.StackAt d (k.proc p).sz x) ∧
  (∀ x e, k.vm.entry d x = none → k'.vm.entry d x = some e → k'.vm.data e.page = fun _ => 0) ∧
  (∀ x e, k.vm.entry d x = some e →
    x < npages (k'.proc p).sz ∨ k.vm.StackAt d (k.proc p).sz x →
    k'.vm.entry d x = some e ∧ k'.vm.data e.page = k.vm.data e.page)

/-- The contract of `growproc(n)`. -/
def GrowContract (k k' : Kernel ncpu) (p : ProcIdx) (d : Nat) (n r : Int) : Prop :=
  (r = -1 → Intact k k' p d) ∧ (r = 0 → Resized k k' p d n)

/-! ## What `growproc` does -/

theorem growFinish_eq {k k' : Kernel ncpu} {p : ProcIdx} {sz : Nat} {r : Int} (vm : Vm)
    (h : ({ k with vm := vm } : Kernel ncpu).growFinish p sz = .ok (r, k')) :
    r = 0 ∧ k'.vm = vm ∧ (k'.proc p).sz = sz := by
  unfold growFinish at h
  split at h
  · cases h
  · cases h
    exact ⟨rfl, rfl, by simp⟩

section
variable {k k' : Kernel ncpu} {p : ProcIdx} {d : Nat} {r n : Int}

theorem growproc_grows (hd : (k.proc p).pgdir = some d) (hn : 0 < n) (hmax : n < 2 ^ 31)
    (hsz : (k.proc p).sz ≤ kernbase) (h : k.growproc p n = .ok (r, k')) :
    (kernbase ≤ (k.proc p).sz + n ∧ r = -1 ∧ k'.vm = k.vm ∧ (k'.proc p).sz = (k.proc p).sz) ∨
    ((k.proc p).sz + n < kernbase ∧ ∃ newsz : Nat, (newsz : Int) = (k.proc p).sz + n ∧
      ((r = 0 ∧ (k'.proc p).sz = newsz ∧
          k.vm.Filled k'.vm d (npages (k.proc p).sz) (npages newsz)) ∨
        (r = -1 ∧ (k'.proc p).sz = (k.proc p).sz ∧
          k.vm.Emptied k'.vm d (npages (k.proc p).sz) (npages newsz)))) := by
  have hnew : ((toU32 ((k.proc p).sz + n) : Nat) : Int) = (k.proc p).sz + n := by
    simp only [toU32, kernbase] at hsz ⊢
    omega
  unfold growproc at h
  simp only [hd, if_pos hn] at h
  by_cases hk : kernbase ≤ (k.proc p).sz + n
  · have hk' : kernbase ≤ toU32 ((k.proc p).sz + n) := by omega
    rw [Vm.allocuvm, if_pos hk'] at h
    cases h
    exact .inl ⟨hk, rfl, rfl, rfl⟩
  · refine .inr ⟨by omega, _, hnew, ?_⟩
    split at h
    · cases h
    · next vm ha =>
      cases h
      obtain ⟨hr, -⟩ | ⟨-, he⟩ := Vm.allocuvm_entries (by omega) (by omega) ha
      · omega
      · exact .inr ⟨rfl, rfl, he⟩
    rename_i sz vm hne ha
    obtain ⟨rfl, hf⟩ | ⟨hr, -⟩ := Vm.allocuvm_entries (by omega) (by omega) ha
    · obtain ⟨hr, hvm, hsz'⟩ := growFinish_eq _ h
      rw [hvm]
      exact .inl ⟨hr, hsz', hf⟩
    · subst hr
      exact (hne rfl).elim

theorem growproc_shrinks (hd : (k.proc p).pgdir = some d) (hn : n < 0) (hmin : -2 ^ 31 ≤ n)
    (hsz : (k.proc p).sz ≤ kernbase) (h : k.growproc p n = .ok (r, k')) :
    ((k.proc p).sz + n < 0 ∧ k'.vm = k.vm ∧ (k'.proc p).sz = (k.proc p).sz ∧
      r = if (k.proc p).sz = 0 then -1 else 0) ∨
    (∃ newsz : Nat, (newsz : Int) = (k.proc p).sz + n ∧
      k.vm.Emptied k'.vm d (npages newsz) (npages (k.proc p).sz) ∧
      ((newsz = 0 ∧ r = -1 ∧ (k'.proc p).sz = (k.proc p).sz) ∨
        (0 < newsz ∧ r = 0 ∧ (k'.proc p).sz = newsz))) := by
  have hpos : ¬ 0 < n := by omega
  unfold growproc at h
  simp only [hd, if_neg hpos, if_pos hn] at h
  by_cases hneg : (k.proc p).sz + n < 0
  · have hwrap : (k.proc p).sz ≤ toU32 ((k.proc p).sz + n) := by
      simp only [toU32, kernbase] at hsz ⊢
      omega
    rw [Vm.deallocuvm, if_pos hwrap] at h
    refine .inl ⟨hneg, ?_⟩
    split at h
    · next vm heq =>
      obtain ⟨h0, rfl⟩ := Prod.mk.inj heq
      cases h
      rw [if_pos h0]
      exact ⟨rfl, rfl, rfl⟩
    rename_i sz vm hne heq
    cases heq
    obtain ⟨hr, hvm, hsz'⟩ := growFinish_eq _ h
    rw [if_neg hne]
    exact ⟨hvm, hsz', hr⟩
  · have hnew : ((toU32 ((k.proc p).sz + n) : Nat) : Int) = (k.proc p).sz + n := by
      simp only [toU32, kernbase] at hsz ⊢
      omega
    refine .inr ⟨_, hnew, ?_⟩
    have hem := Vm.emptied_deallocuvm k.vm d (k.proc p).sz (toU32 ((k.proc p).sz + n))
    have hret : (k.vm.deallocuvm d (k.proc p).sz (toU32 ((k.proc p).sz + n))).1
        = toU32 ((k.proc p).sz + n) := by
      rw [Vm.deallocuvm, if_neg (by omega)]
    generalize k.vm.deallocuvm d (k.proc p).sz (toU32 ((k.proc p).sz + n)) = res at h hem hret
    obtain ⟨sz, vm⟩ := res
    simp only at hem hret
    subst hret
    split at h
    · next vm' heq =>
      cases h
      obtain ⟨h0, rfl⟩ := Prod.mk.inj heq
      exact ⟨hem, .inl ⟨h0, rfl, rfl⟩⟩
    rename_i sz' vm' hne heq
    obtain ⟨rfl, rfl⟩ := Prod.mk.inj heq
    obtain ⟨hr, hvm, hsz'⟩ := growFinish_eq _ h
    rw [hvm]
    refine ⟨hem, .inr ⟨?_, hr, hsz'⟩⟩
    exact Nat.pos_of_ne_zero hne

/-! ## The contract -/

theorem contract_failed (h : Intact k k' p d) : GrowContract k k' p d n (-1) :=
  ⟨fun _ => h, by simp⟩

theorem contract_done (h : Resized k k' p d n) : GrowContract k k' p d n 0 :=
  ⟨by simp, fun _ => h⟩

section
variable (hok : k.vm.HeapOk d (k.proc p).sz)
include hok

theorem contract_grown {newsz : Nat} (hnew : (newsz : Int) = (k.proc p).sz + n)
    (hle : (k.proc p).sz ≤ newsz) (hsz : (k'.proc p).sz = newsz)
    (hf : k.vm.Filled k'.vm d (npages (k.proc p).sz) (npages newsz)) : Resized k k' p d n := by
  have hmono := npages_mono hle
  have hkeep : ∀ x e, k.vm.entry d x = some e → k'.vm.entry d x = some e := by
    intro x e hx
    rw [hf.other d x (.inr ?_), hx]
    by_contra hin
    simp only [not_or, Nat.not_lt, Nat.not_le] at hin
    rw [hf.was x hin.1 hin.2] at hx
    cases hx
  refine ⟨by omega, ?_, ?_, ?_⟩
  · intro x
    rw [hsz]
    constructor
    · intro hx
      by_cases hlt : x < npages newsz
      · exact .inl hlt
      · rw [hf.other d x (by omega)] at hx
        exact .inr ⟨by omega, hx⟩
    · intro hor
      by_cases hlt : x < npages (k.proc p).sz
      · obtain ⟨e, he⟩ := Option.ne_none_iff_exists'.mp (hok.heap x hlt)
        simp [hkeep x e he]
      · rcases hor with hx | hx
        · obtain ⟨e, he, -⟩ := hf.new x (by omega) hx
          simp [he]
        · obtain ⟨e, he⟩ := Option.ne_none_iff_exists'.mp hx.2
          simp [hkeep x e he]
  · intro x e hx hx'
    by_cases hin : npages (k.proc p).sz ≤ x ∧ x < npages newsz
    · obtain ⟨e', he', -, -, -, hz⟩ := hf.new x hin.1 hin.2
      rw [hx'] at he'
      cases he'
      exact hz
    · rw [hf.other d x (by omega), hx] at hx'
      cases hx'
  · intro x e hx _
    refine ⟨hkeep x e hx, ?_⟩
    exact (hf.data e.page).resolve_right fun h => hok.free.apart x e hx h.1

theorem intact_emptied {a b : Nat} (hnone : ∀ x, a ≤ x → x < b → k.vm.entry d x = none)
    (hsz : (k'.proc p).sz = (k.proc p).sz) (he : k.vm.Emptied k'.vm d a b) : Intact k k' p d := by
  refine ⟨hsz, ?_, ?_⟩
  · intro x
    by_cases hin : a ≤ x ∧ x < b
    · rw [he.gone x hin.1 hin.2, hnone x hin.1 hin.2]
    · exact he.other d x (by omega)
  · intro x e hx
    rcases he.data e.page with hd | hfree | ⟨y, e', hay, hyb, hy, -⟩
    · exact hd
    · exact absurd hfree (hok.free.apart x e hx)
    · rw [hnone y hay hyb] at hy
      cases hy

theorem contract_shrunk {newsz : Nat} (hnew : (newsz : Int) = (k.proc p).sz + n)
    (hle : newsz ≤ (k.proc p).sz) (hsz : (k'.proc p).sz = newsz)
    (he : k.vm.Emptied k'.vm d (npages newsz) (npages (k.proc p).sz)) : Resized k k' p d n := by
  have hmono := npages_mono hle
  have hother : ∀ x, x < npages newsz ∨ k.vm.StackAt d (k.proc p).sz x →
      k'.vm.entry d x = k.vm.entry d x := by
    intro x hor
    rcases hor with hx | hx
    · exact he.other d x (.inr (.inl hx))
    · exact he.other d x (.inr (.inr hx.1))
  refine ⟨by omega, ?_, ?_, ?_⟩
  · intro x
    rw [hsz]
    constructor
    · intro hx
      by_cases hlt : x < npages newsz
      · exact .inl hlt
      · have hge : npages (k.proc p).sz ≤ x := by
          by_contra hlt'
          exact hx (he.gone x (by omega) (by omega))
        rw [he.other d x (.inr (.inr hge))] at hx
        exact .inr ⟨hge, hx⟩
    · intro hor
      rw [hother x hor]
      rcases hor with hx | hx
      · exact hok.heap x (by omega)
      · exact hx.2
  · intro x e hx hx'
    by_cases hin : npages newsz ≤ x ∧ x < npages (k.proc p).sz
    · rw [he.gone x hin.1 hin.2] at hx'
      cases hx'
    · rw [he.other d x (by omega), hx] at hx'
      cases hx'
  · intro x e hx hor
    rw [hsz] at hor
    refine ⟨(hother x hor).trans hx, ?_⟩
    rcases he.data e.page with hd | hfree | ⟨y, e', hay, hyb, hy, hpage⟩
    · exact hd
    · exact absurd hfree (hok.free.apart x e hx)
    · -- a page that went is no page that stays
      obtain rfl := hok.distinct y x e' e hy hx hpage
      rcases hor with hlt | hst
      · omega
      · have := hst.1
        omega

end

section
variable (hd : (k.proc p).pgdir = some d) (hok : k.vm.HeapOk d (k.proc p).sz)
include hd hok

theorem contract_of_pos (hn : 0 < n) (hmax : n < 2 ^ 31) (h : k.growproc p n = .ok (r, k')) :
    GrowContract k k' p d n r ↔
      kernbase ≤ (k.proc p).sz + n ∨
        ∀ x, k.vm.StackAt d (k.proc p).sz x → npages ((k.proc p).sz + n).toNat ≤ x := by
  obtain ⟨hk, rfl, hvm, hsz⟩ | ⟨hk, newsz, hnew, hcase⟩ := growproc_grows hd hn hmax hok.size h
  · have hintact : Intact k k' p d := by
      simp [Intact, hvm, hsz]
    exact ⟨fun _ => .inl hk, fun _ => contract_failed hintact⟩
  · have hto : ((k.proc p).sz + n).toNat = newsz := by omega
    rw [hto]
    obtain ⟨rfl, hsz, hf⟩ | ⟨rfl, hsz, he⟩ := hcase
    · have hres := contract_grown hok hnew (by omega) hsz hf
      refine ⟨fun _ => .inr ?_, fun _ => contract_done hres⟩
      intro x hx
      by_contra hlt
      exact hx.2 (hf.was x hx.1 (by omega))
    · constructor
      · rintro ⟨hint, -⟩
        refine .inr fun x hx => ?_
        by_contra hlt
        -- the rollback went over this page
        have hgone := he.gone x hx.1 (by omega)
        rw [(hint rfl).2.1 x] at hgone
        exact hx.2 hgone
      · intro hor
        have hsafe := hor.resolve_left (by omega)
        refine contract_failed (intact_emptied hok ?_ hsz he)
        intro x hax hxb
        by_contra hne
        have := hsafe x ⟨hax, hne⟩
        omega

/-- Shrinking keeps the contract if something is left, or if there was
nothing. -/
theorem contract_of_neg (hn : n < 0) (hmin : -2 ^ 31 ≤ n) (h : k.growproc p n = .ok (r, k')) :
    GrowContract k k' p d n r ↔ 0 < (k.proc p).sz + n ∨ (k.proc p).sz = 0 := by
  obtain ⟨hneg, hvm, hsz, hr⟩ | ⟨newsz, hnew, he, hcase⟩ :=
    growproc_shrinks hd hn hmin hok.size h
  · constructor
    · rintro ⟨-, hres⟩
      by_contra hno
      rw [if_neg (by omega)] at hr
      have hsz' := (hres hr).1
      omega
    · intro hor
      have h0 : (k.proc p).sz = 0 := by omega
      rw [if_pos h0] at hr
      subst hr
      have hintact : Intact k k' p d := by
        simp [Intact, hvm, hsz]
      exact contract_failed hintact
  · obtain ⟨rfl, rfl, hsz⟩ | ⟨hpos, rfl, hsz⟩ := hcase
    · constructor
      · rintro ⟨hint, -⟩
        by_contra hno
        -- page 0 was there and is not any more
        have hpage : 0 < npages (k.proc p).sz := by
          rw [npages_eq]
          omega
        have hgone := he.gone 0 (by simp [npages_zero]) hpage
        rw [(hint rfl).2.1 0] at hgone
        exact hok.heap 0 hpage hgone
      · intro hor
        omega
    · have hres := contract_shrunk hok hnew (by omega) hsz he
      exact ⟨fun _ => .inl (by omega), fun _ => contract_done hres⟩

theorem contract_of_zero (h : k.growproc p 0 = .ok (r, k')) : GrowContract k k' p d 0 r := by
  unfold growproc at h
  simp only [hd, Int.lt_irrefl, if_false] at h
  obtain ⟨rfl, hvm, hsz⟩ := growFinish_eq (k := k) k.vm h
  refine contract_done ⟨by simp [hsz], ?_, ?_, ?_⟩
  · intro x
    rw [hvm, hsz]
    constructor
    · intro hx
      by_cases hlt : x < npages (k.proc p).sz
      · exact .inl hlt
      · exact .inr ⟨by omega, hx⟩
    · intro hor
      exact hor.elim (hok.heap x) (·.2)
  · intro x e hx hx'
    rw [hvm, hx] at hx'
    cases hx'
  · intro x e hx _
    rw [hvm]
    exact ⟨hx, rfl⟩

end

end

/-- **`growproc` keeps its contract exactly when it is safe.** For every
`int n`, every free list and every call that returns: a call that returns
-1 left size, mappings and contents alone, and one that returns 0 made
the size `sz + n` with the heap to match. -/
theorem growproc_contract {k k' : Kernel ncpu} {p : ProcIdx} {d : Nat} {r : Int} (n : Int32)
    (hd : (k.proc p).pgdir = some d) (hok : k.vm.HeapOk d (k.proc p).sz)
    (h : k.growproc p n.toInt = .ok (r, k')) :
    GrowContract k k' p d n.toInt r ↔ growSafe k.vm d (k.proc p).sz n.toInt := by
  have hmax : n.toInt < 2 ^ 31 := n.toInt_lt
  have hmin : -2 ^ 31 ≤ n.toInt := n.le_toInt
  generalize n.toInt = n at h hmax hmin ⊢
  unfold growSafe
  rcases Int.lt_trichotomy n 0 with hn | rfl | hn
  · rw [contract_of_neg hd hok hn hmin h]
    constructor
    · exact fun hor => .inr (.inr ⟨hn, hor⟩)
    · rintro (h0 | ⟨hpos, -⟩ | ⟨-, hor⟩)
      · omega
      · omega
      · exact hor
  · exact ⟨fun _ => .inl rfl, fun _ => contract_of_zero hd hok h⟩
  · rw [contract_of_pos hd hok hn hmax h]
    constructor
    · exact fun hor => .inr (.inl ⟨hn, hor⟩)
    · rintro (h0 | ⟨-, hor⟩ | ⟨hneg, -⟩)
      · omega
      · exact hor
      · omega

theorem heapOk_initLoaded : initLoaded.vm.HeapOk 1 (initLoaded.proc initproc).sz := by
  have hfacts : (initLoaded.proc initproc).sz ≤ kernbase ∧
      npages (initLoaded.proc initproc).sz = 1 ∧ initLoaded.vm.entry 1 0 ≠ none ∧
      ∀ x ∈ [0, slotLow 0, slotLow 0 + 1], ∀ y ∈ [0, slotLow 0, slotLow 0 + 1],
        ∀ e ∈ initLoaded.vm.entry 1 x, ∀ e' ∈ initLoaded.vm.entry 1 y,
          e.page = e'.page → x = y := by
    decide +kernel
  obtain ⟨hsz, hn, h0, hinj⟩ := hfacts
  refine ⟨hsz, ?_, freeOk_initLoaded, ?_⟩
  · intro x hx
    obtain rfl : x = 0 := by omega
    exact h0
  · intro x y e e' hx hy
    exact hinj x (entry_initLoaded hx) y (entry_initLoaded hy) e hx e' hy

theorem growSafe_initLoaded {n : Int} (hn : 0 < n)
    (hroom : npages ((initLoaded.proc initproc).sz + n).toNat ≤ slotLow 0) :
    growSafe initLoaded.vm 1 (initLoaded.proc initproc).sz n := by
  refine .inr (.inl ⟨hn, .inr fun x hx => hroom.trans ?_⟩)
  obtain ⟨e, he⟩ := Option.ne_none_iff_exists'.mp hx.2
  have hmem := entry_initLoaded he
  have hone : npages (initLoaded.proc initproc).sz = 1 := by decide +kernel
  have hge := hx.1
  simp only [List.mem_cons, List.not_mem_nil, or_false] at hmem
  omega

/-- `initproc` grows by a page. -/
theorem growproc_contract_initLoaded :
    ∃ k', initLoaded.growproc initproc 4096 = .ok (0, k') ∧
      Resized initLoaded k' initproc 1 4096 := by
  have hd : (initLoaded.proc initproc).pgdir = some 1 := by decide +kernel
  obtain ⟨k', hgrow⟩ : ∃ k', initLoaded.growproc initproc 4096 = .ok (0, k') := by decide +kernel
  have hsafe := growSafe_initLoaded (n := (4096 : Int32).toInt) (by decide) (by decide +kernel)
  exact ⟨k', hgrow, ((growproc_contract 4096 hd heapOk_initLoaded hgrow).mpr hsafe).2 rfl⟩

/-- A machine whose memory is used up when `initproc` has loaded a program
of one page and forked. -/
def crowdedMachine : Kernel 1 := (machine 1 142).get (by decide +kernel)

def crowded : List (Kernel 1 × Act 1) × Kernel 1 :=
  (follow next crowdedMachine [.schedule 0 0, .call 0 (.exec onePage), .call 0 .fork]).get
    (by decide +kernel)

/-- Three calls of `growproc` by `initproc`, which has one heap page. By
`-sz`: -1, and the heap is unmapped. By one less: 0, and the size is as it
was. Up to the stack: -1, and the stack is unmapped. -/
theorem growproc_not_intact : Boot crowdedMachine ∧
    Run next crowdedMachine crowded.1 crowded.2 ∧ crowded.2.cpu 0 = some initproc ∧
    (crowded.2.proc initproc).pgdir = some 1 ∧ (crowded.2.proc initproc).sz = 4096 ∧
    crowded.2.vm.entry 1 0 ≠ none ∧ crowded.2.vm.entry 1 (Vm.stackPage 0) ≠ none ∧
    (∃ k', crowded.2.growproc initproc (-4096) = .ok (-1, k') ∧ k'.vm.entry 1 0 = none) ∧
    (∃ k', crowded.2.growproc initproc (-4097) = .ok (0, k') ∧ (k'.proc initproc).sz = 4096) ∧
    (∃ k', crowded.2.growproc initproc (stackbottom - 4096) = .ok (-1, k') ∧
      k'.vm.entry 1 (Vm.stackPage 0) = none) := by
  refine ⟨boot_machine (Option.some_get _).symm, run_get _, ?_⟩
  decide +kernel

end Kernel

end Xv6.Kern
