/-
Xv6.Mem.CopyTheorems — `copyuvm` copies and isolates.

`Copy v v' d d' R` says that directory `d'` got copies of pages of `d`:
where `R y x` holds, page `y` of `d'` is a new page with the permissions
and the contents of page `x` of `d`. A copy of one page is a `Copy`
(`CopyRound.copy`), copies compose (`Copy.trans`), and the two parts of
`copyuvm` are the loop over the heap, with `y = x`, and the stack page,
which moves from slot `k` to slot 0.

A free list is good for directory `d` (`FreeOk`) if no page is in it
twice and none is mapped by `d`. That is all `copyuvm` needs: a page it
takes is then no page of the parent, and no page it took before.
-/
import Xv6.Mem.Entries

namespace Xv6.Mem

variable {b : Bool} {i : Int} {d d' x : Nat} {v v' v₁ : Vm}

namespace Vm

/-- What an access to user address `va` reads. -/
def read (v : Vm) (d va : Nat) : Option UInt8 :=
  (v.entry d (va / pgsize)).map fun e => v.data e.page (va % pgsize)

/-- The permission bits `PTE_W` and `PTE_U` at user address `va`. -/
def perm (v : Vm) (d va : Nat) : Option (Bool × Bool) :=
  (v.entry d (va / pgsize)).map fun e => (e.w, e.u)

/-- No page is free twice, and none that `d` maps is free. -/
structure FreeOk (v : Vm) (d : Nat) : Prop where
  nodup : v.freelist.Nodup
  apart : ∀ x e, v.entry d x = some e → e.page ∉ v.freelist

/-- Copies of pages of `d` in `d'`. -/
structure Copy (v v' : Vm) (d d' : Nat) (R : Nat → Nat → Prop) : Prop where
  was : ∀ y x, R y x → v.entry d' y = none
  copy : ∀ y x, R y x → ∃ e e', v.entry d x = some e ∧ v'.entry d' y = some e' ∧
    e'.w = e.w ∧ e'.u = e.u ∧ e'.page ∈ v.freelist ∧ e'.page ∉ v'.freelist ∧
    v'.data e'.page = v.data e.page
  distinct : ∀ y x y₂ x₂ e e₂, R y x → R y₂ x₂ → v'.entry d' y = some e →
    v'.entry d' y₂ = some e₂ → e.page = e₂.page → y = y₂
  other : ∀ d₂ y, d₂ ≠ d' ∨ (∀ x, ¬ R y x) → v'.entry d₂ y = v.entry d₂ y
  data : ∀ pg, pg ∉ v.freelist → v'.data pg = v.data pg
  took : Took v v'

section
variable {v v₁ v' : Vm} {d d' : Nat} {R R' : Nat → Nat → Prop}

theorem Copy.refl (v : Vm) (d d' : Nat) : Copy v v d d' fun _ _ => False :=
  ⟨fun _ _ h => h.elim, fun _ _ h => h.elim, fun _ _ _ _ _ _ h => h.elim, fun _ _ _ => rfl,
    fun _ _ => rfl, .refl v⟩

theorem Copy.congr (h : Copy v v' d d' R) (hR : ∀ y x, R' y x ↔ R y x) : Copy v v' d d' R' := by
  have heq : R' = R := by
    funext y x
    exact propext (hR y x)
  rw [heq]
  exact h

theorem FreeOk.of_took (h : FreeOk v d) (ht : Took v v₁)
    (he : ∀ x, v₁.entry d x = v.entry d x) : FreeOk v₁ d := by
  refine ⟨h.nodup.sublist ht.free.sublist, ?_⟩
  intro x e hx hmem
  rw [he] at hx
  exact h.apart x e hx (ht.free.subset hmem)

theorem FreeOk.of_newDir (h : FreeOk v d) (hn : NewDir v v₁ d') (hne : d ≠ d') : FreeOk v₁ d := by
  refine ⟨h.nodup.sublist hn.free.sublist, ?_⟩
  intro x e hx hmem
  rw [hn.other d x hne] at hx
  exact h.apart x e hx (hn.free.subset hmem)

theorem FreeOk.copied (h : FreeOk v d) (hd : d ≠ d') (hc : Copy v v₁ d d' R) : FreeOk v₁ d :=
  h.of_took hc.took fun x => hc.other d x (.inl hd)

/-- **Copies compose.** What was copied first stays as it is: its pages are
off the free list. -/
theorem Copy.trans (hf : FreeOk v d) (hd : d ≠ d') (h : Copy v v₁ d d' R)
    (h' : Copy v₁ v' d d' R') : Copy v v' d d' fun y x => R y x ∨ R' y x := by
  -- a page of the first part is not copied to again
  have hkeep : ∀ y x, R y x → ∀ x', ¬ R' y x' := by
    intro y x hR x' hR'
    obtain ⟨-, e', -, he', -⟩ := h.copy y x hR
    rw [h'.was y x' hR'] at he'
    cases he'
  have hsame : ∀ y x, R y x → v'.entry d' y = v₁.entry d' y := fun y x hR =>
    h'.other d' y (.inr (hkeep y x hR))
  have hsub : ∀ pg ∈ v₁.freelist, pg ∈ v.freelist := fun pg hpg => h.took.free.subset hpg
  -- pages of the two parts differ
  have hdiff : ∀ y x y₂ x₂ e e₂, R y x → R' y₂ x₂ → v'.entry d' y = some e →
      v'.entry d' y₂ = some e₂ → e.page ≠ e₂.page := by
    intro y x y₂ x₂ e e₂ hR hR' he he₂ heq
    obtain ⟨-, e', -, he', -, -, -, hout, -⟩ := h.copy y x hR
    obtain ⟨-, e₂', -, he₂', -, -, hin, -⟩ := h'.copy y₂ x₂ hR'
    rw [hsame y x hR, he'] at he
    rw [he₂'] at he₂
    cases he
    cases he₂
    exact hout (heq ▸ hin)
  refine ⟨?_, ?_, ?_, ?_, ?_, h.took.trans h'.took⟩
  · rintro y x (hR | hR')
    · exact h.was y x hR
    · by_contra hne
      have hno : ∀ x', ¬ R y x' := fun x' hR => hne (h.was y x' hR)
      rw [← h.other d' y (.inr hno)] at hne
      exact hne (h'.was y x hR')
  · rintro y x (hR | hR')
    · obtain ⟨e, e', he, he', hw, hu, hin, hout, hdata⟩ := h.copy y x hR
      refine ⟨e, e', he, (hsame y x hR).trans he', hw, hu, hin, ?_, ?_⟩
      · exact fun hmem => hout (h'.took.free.subset hmem)
      · rw [h'.data _ hout, hdata]
    · obtain ⟨e, e', he, he', hw, hu, hin, hout, hdata⟩ := h'.copy y x hR'
      rw [h.other d x (.inl hd)] at he
      refine ⟨e, e', he, he', hw, hu, hsub _ hin, hout, ?_⟩
      rw [hdata, h.data _ (hf.apart x e he)]
  · rintro y x y₂ x₂ e e₂ (hR | hR') (hR₂ | hR₂') he he₂ heq
    · rw [hsame y x hR] at he
      rw [hsame y₂ x₂ hR₂] at he₂
      exact h.distinct y x y₂ x₂ e e₂ hR hR₂ he he₂ heq
    · exact absurd heq (hdiff y x y₂ x₂ e e₂ hR hR₂' he he₂)
    · exact absurd heq.symm (hdiff y₂ x₂ y x e₂ e hR₂ hR' he₂ he)
    · exact h'.distinct y x y₂ x₂ e e₂ hR' hR₂' he he₂ heq
  · intro d₂ y hor
    rw [h'.other d₂ y (hor.imp id fun hno x hR' => hno x (.inr hR')),
      h.other d₂ y (hor.imp id fun hno x hR => hno x (.inl hR))]
  · intro pg hpg
    rw [h'.data pg fun hmem => hpg (hsub pg hmem), h.data pg hpg]

end

/-! ## One page -/

/-- **A round copies one page.** -/
theorem CopyRound.copy {y : Nat} (hf : FreeOk v d) (h : CopyRound d d' x v y v') :
    Copy v v' d d' fun y' x' => y' = y ∧ x' = x := by
  obtain ⟨e, mem, l, he, hl, hp⟩ := h
  obtain ⟨hwas, hnew, hother, hdata, htook⟩ := mappages_entry hp
  have hnodup : mem ∉ l := by
    have := hf.nodup
    rw [hl] at this
    exact (List.nodup_cons.mp this).1
  have htook₁ : Took v { v with freelist := l } := ⟨rfl, hl ▸ List.suffix_cons _ _⟩
  refine ⟨?_, ?_, ?_, ?_, ?_, htook₁.trans ⟨htook.nspace, htook.free⟩⟩
  · rintro y' x' ⟨rfl, -⟩
    exact hwas
  · rintro y' x' ⟨rfl, rfl⟩
    refine ⟨e, _, he, hnew, rfl, rfl, ?_, fun hmem => hnodup (htook.free.subset hmem), ?_⟩
    · rw [hl]
      exact List.mem_cons_self
    · rw [hdata]
      simp [copyPage]
  · rintro y' x' y₂ x₂ e₁ e₂ ⟨rfl, -⟩ ⟨rfl, -⟩ _ _ _
    rfl
  · intro d₂ y' hor
    exact hother d₂ y' (hor.imp id fun hno heq => hno x ⟨heq, rfl⟩)
  · intro pg hpg
    rw [hdata]
    refine Function.update_of_ne ?_ _ _
    rintro rfl
    exact hpg (hl ▸ List.mem_cons_self)

theorem copy_rounds {n : Nat} (hd : d ≠ d') (hf : FreeOk v d)
    (hr : Rounds (HeapRound d d') 0 v n v') : Copy v v' d d' fun y x => y < n ∧ x = y := by
  induction hr with
  | nil => exact (Copy.refl v d d').congr fun y x => by simp
  | snoc _ hone ih =>
    refine (ih.trans hf hd (CopyRound.copy (hf.copied hd ih) hone)).congr fun y x => ?_
    constructor
    · rintro ⟨hy, rfl⟩
      omega
    · rintro (⟨hy, rfl⟩ | ⟨rfl, rfl⟩)
      · exact ⟨by omega, rfl⟩
      · exact ⟨by omega, rfl⟩

/-! ## The kernel half -/

/-- The pages `setupkvm` put in, and no user table beside them. -/
structure KernelHalf (s s' : Space) : Prop where
  dir : s'.dir = s.dir
  kpt : s'.kpt = s.kpt
  pde : ∀ i, nptentries / 2 ≤ i → s'.pde i = s.pde i

theorem KernelHalf.refl (s : Space) : KernelHalf s s := ⟨rfl, rfl, fun _ _ => rfl⟩

theorem KernelHalf.trans {s s₁ s' : Space} (h : KernelHalf s s₁) (h' : KernelHalf s₁ s') :
    KernelHalf s s' :=
  ⟨h'.dir.trans h.dir, h'.kpt.trans h.kpt, fun i hi => (h'.pde i hi).trans (h.pde i hi)⟩

/-- Only the user half of directory `d` changes. -/
structure UserOnly (d : Nat) (v v' : Vm) : Prop where
  other : ∀ d₁, d₁ ≠ d → v'.space d₁ = v.space d₁
  half : KernelHalf (v.space d) (v'.space d)

theorem UserOnly.refl (d : Nat) (v : Vm) : UserOnly d v v := ⟨fun _ _ => rfl, .refl _⟩

theorem UserOnly.trans (h : UserOnly d v v₁) (h' : UserOnly d v₁ v') : UserOnly d v v' :=
  ⟨fun d₁ hd => (h'.other d₁ hd).trans (h.other d₁ hd), h.half.trans h'.half⟩

theorem userOnly_setSpace {s : Space} (h : KernelHalf (v.space d) s) :
    UserOnly d v (v.setSpace d s) := by
  refine ⟨fun _ hd => Function.update_of_ne hd _ _, ?_⟩
  simpa only [setSpace, Function.update_self] using h

theorem userOnly_mappages {vpn : Nat} {e : Pte} (hvpn : vpn < kernbase / pgsize)
    (h : v.mappages d vpn e = .ok (true, v')) : UserOnly d v v' := by
  have hpdx : vpn / nptentries < nptentries / 2 := by
    simp only [kernbase, pgsize, nptentries] at hvpn ⊢
    omega
  cases mappages_run h with
  | set hw =>
    refine UserOnly.trans ?_ (userOnly_setSpace ⟨rfl, rfl, fun _ _ => rfl⟩)
    cases hw with
    | found => exact .refl d v
    | @made p l =>
      have hhalf : KernelHalf (v.space d) ((v.space d).addTable (vpn / nptentries) p) :=
        ⟨rfl, rfl, fun i hi => Function.update_of_ne (by omega) _ _⟩
      have hset := userOnly_setSpace (v := { v with freelist := l }) hhalf
      exact ⟨hset.other, hset.half⟩

theorem CopyRound.userOnly {y : Nat} (hy : y < kernbase / pgsize) (h : CopyRound d d' x v y v') :
    UserOnly d' v v' := by
  obtain ⟨e, mem, l, -, -, hp⟩ := h
  have hmap := userOnly_mappages hy hp
  exact ⟨hmap.other, hmap.half⟩

theorem AllocRound.userOnly (hx : x < kernbase / pgsize) (h : AllocRound d v x v') :
    UserOnly d v v' := by
  obtain ⟨mem, l, -, hp⟩ := h
  have hmap := userOnly_mappages hx hp
  exact ⟨hmap.other, hmap.half⟩

theorem Rounds.userOnly {R : Vm → Nat → Vm → Prop} {a b : Nat} (hb : b ≤ kernbase / pgsize)
    (hR : ∀ {x u u'}, x < kernbase / pgsize → R u x u' → UserOnly d u u')
    (hr : Rounds R a v b v') : UserOnly d v v' :=
  hr.keeps (.refl d v) fun _ _ _ hx hone h => h.trans (hR (Nat.lt_of_lt_of_le hx hb) hone)

theorem kernelHalf_deallocuvm (v : Vm) (d oldsz newsz : Nat) :
    KernelHalf (v.space d) ((v.deallocuvm d oldsz newsz).2.space d) := by
  obtain ⟨-, f, hf⟩ := deallocuvm_space v d oldsz newsz
  rw [hf]
  exact ⟨rfl, rfl, fun _ _ => rfl⟩

theorem kernelHalf_allocuvm {oldsz newsz r : Nat} (h : v.allocuvm d oldsz newsz = .ok (r, v')) :
    KernelHalf (v.space d) (v'.space d) := by
  cases allocuvm_run h with
  | refused => exact .refl _
  | kept => exact .refl _
  | grown _ hk hr => exact (hr.userOnly (npages_le_kernbase hk.le) AllocRound.userOnly).half
  | @failed _ w _ _ hk hx hr hfail =>
    have hw := hr.userOnly (hx.le.trans (npages_le_kernbase hk.le)) AllocRound.userOnly
    refine hw.half.trans ?_
    cases hfail with
    | page => exact kernelHalf_deallocuvm w d newsz oldsz
    | table => exact kernelHalf_deallocuvm ({ w with freelist := [] }.zeroPage _) d newsz oldsz

/-! ## `copyuvm` -/

theorem copy_copyuvm {sz : Nat} (hd : d < v.nspace) (hsz : sz ≤ kernbase) (hf : FreeOk v d)
    (h : v.copyuvm d sz i = .ok (some d', v')) :
    ∃ v₁, v.setupkvm = (some d', v₁) ∧ NewDir v v₁ d' ∧ KernelHalf (v₁.space d') (v'.space d') ∧
      Copy v₁ v' d d' fun y x => (y < npages sz ∧ x = y) ∨ (y = stackPage 0 ∧ x = stackPage i) := by
  cases copyuvm_run h with
  | @done v₁ w _ _ hs hr hst =>
    have hnew := newDir_setupkvm hs
    have hne : d ≠ d' := by
      rw [hnew.num]
      exact Nat.ne_of_lt hd
    have hf₁ := hf.of_newDir hnew hne
    have hheap := copy_rounds hne hf₁ hr
    have huser := hr.userOnly (npages_le_kernbase hsz) CopyRound.userOnly
    exact ⟨v₁, hs, hnew, (huser.trans (hst.userOnly (by decide))).half,
      hheap.trans hf₁ hne (hst.copy (hf₁.copied hne hheap))⟩

theorem Copy.read_eq {R : Nat → Nat → Prop} (h : Copy v v' d d' R) (va va₀ : Nat)
    (hR : R (va / pgsize) (va₀ / pgsize)) (hoff : va % pgsize = va₀ % pgsize) :
    (v'.read d' va).isSome ∧ v'.read d' va = v.read d va₀ ∧ v'.perm d' va = v.perm d va₀ := by
  obtain ⟨e, e', he, he', hw, hu, -, -, hdata⟩ := h.copy _ _ hR
  simp [read, perm, he, he', hw, hu, hdata, hoff]

/-- **`fork` copies and isolates memory.** Let `copyuvm` succeed for a
directory with a good free list. Every address below `sz` reads the byte
it reads in the parent, with the same permissions; the addresses of the
page below `STACKBOTTOM` read what the parent has two pages per slot
lower. No other page is mapped and the kernel half is what `setupkvm` put
there. The pages behind the new mappings are distinct, and none is a page
of the parent, whose page table and pages stay as they are. -/
theorem copyuvm_isolates {v v' : Vm} {d d' sz k : Nat} (hk : k < 8) (hd : d < v.nspace)
    (hsz : sz ≤ kernbase) (hf : FreeOk v d) (h : v.copyuvm d sz k = .ok (some d', v')) :
    (∀ va, va < sz → (v'.read d' va).isSome ∧ v'.read d' va = v.read d va ∧
      v'.perm d' va = v.perm d va) ∧
    (∀ va, stackbottom - pgsize ≤ va → va < stackbottom →
      (v'.read d' va).isSome ∧ v'.read d' va = v.read d (va - 2 * k * pgsize)) ∧
    (∀ x, npages sz ≤ x → x ≠ stackPage 0 → v'.entry d' x = none) ∧
    (∃ v₁, v.setupkvm = (some d', v₁) ∧ KernelHalf (v₁.space d') (v'.space d')) ∧
    (∀ x y e₁ e₂, v'.entry d' x = some e₁ → v'.entry d' y = some e₂ → e₁.page = e₂.page → x = y) ∧
    (∀ x y e₁ e₂, v'.entry d' x = some e₁ → v.entry d y = some e₂ → e₁.page ≠ e₂.page) ∧
    (∀ x, v'.entry d x = v.entry d x) ∧
    (∀ x e, v.entry d x = some e → v'.data e.page = v.data e.page) := by
  obtain ⟨v₁, hs, hnew, hkern, hcopy⟩ := copy_copyuvm hd hsz hf h
  have hne : d ≠ d' := by
    rw [hnew.num]
    exact Nat.ne_of_lt hd
  have hsp : stackPage k = stackPage 0 - 2 * k := by
    simp only [stackPage, stackbottom_eq, toU32, pgsize]
    omega
  have hread : ∀ va, v₁.read d va = v.read d va ∧ v₁.perm d va = v.perm d va := by
    intro va
    simp [read, perm, hnew.other d _ hne, hnew.data]
  -- where there is an entry, it is a copy
  have hsome : ∀ x e, v'.entry d' x = some e →
      ∃ y, (x < npages sz ∧ y = x) ∨ (x = stackPage 0 ∧ y = stackPage k) := by
    intro x e hx
    by_contra hno
    rw [hcopy.other d' x (.inr fun y hR => hno ⟨y, hR⟩), hnew.empty] at hx
    cases hx
  have hparent : ∀ x e, v.entry d x = some e → e.page ∉ v₁.freelist := by
    intro x e hx hmem
    exact hf.apart x e hx (hnew.free.subset hmem)
  refine ⟨?_, ?_, ?_, ⟨v₁, hs, hkern⟩, ?_, ?_, ?_, ?_⟩
  · intro va hva
    have hlt : va / pgsize < npages sz := by
      rw [lt_npages_iff]
      simp only [pgsize]
      omega
    rw [← (hread va).1, ← (hread va).2]
    exact hcopy.read_eq va va (.inl ⟨hlt, rfl⟩) rfl
  · intro va hlo hhi
    have h0 : va / pgsize = stackPage 0 := by
      simp only [stackPage, stackbottom_eq, toU32, pgsize] at hlo hhi ⊢
      omega
    have hmem : (va - 2 * k * pgsize) / pgsize = stackPage k := by
      rw [hsp, ← h0]
      simp only [pgsize]
      omega
    have hle : 2 * k * pgsize ≤ va := by
      simp only [stackbottom_eq, pgsize] at hlo ⊢
      omega
    rw [← (hread _).1]
    obtain ⟨h1, h2, -⟩ := hcopy.read_eq va (va - 2 * k * pgsize) (.inr ⟨h0, hmem⟩)
      (by simp only [pgsize] at hle ⊢; omega)
    exact ⟨h1, h2⟩
  · intro x hx hne0
    by_contra hx'
    obtain ⟨e, he⟩ := Option.ne_none_iff_exists'.mp hx'
    obtain ⟨y, hy | hy⟩ := hsome x e he
    · omega
    · exact hne0 hy.1
  · intro x y e₁ e₂ he₁ he₂ heq
    obtain ⟨x₀, hx⟩ := hsome x e₁ he₁
    obtain ⟨y₀, hy⟩ := hsome y e₂ he₂
    exact hcopy.distinct x x₀ y y₀ e₁ e₂ hx hy he₁ he₂ heq
  · intro x y e₁ e₂ he₁ he₂ heq
    obtain ⟨x₀, hx⟩ := hsome x e₁ he₁
    obtain ⟨-, e', -, he', -, -, hin, -⟩ := hcopy.copy x x₀ hx
    rw [he₁] at he'
    cases he'
    exact hparent y e₂ he₂ (heq ▸ hin)
  · intro x
    rw [hcopy.other d x (.inl hne), hnew.other d x hne]
  · intro x e hx
    rw [hcopy.data _ (hparent x e hx), hnew.data]

/-- A directory with one heap page and the stack page of slot 1. -/
def twoPages : Option Vm :=
  match (kinit (firstPages 200)).setupkvm with
  | (some d, v) =>
    match v.allocuvm d 0 pgsize with
    | .ok (_, v) =>
      match v.allocuvm d (stackPage 1 * pgsize) ((stackPage 1 + 1) * pgsize) with
      | .ok (_, v) => some v
      | .error _ => none
    | .error _ => none
  | (none, _) => none

def parentVm : Vm := twoPages.get (by decide +kernel)

theorem freeOk_parentVm : FreeOk parentVm 0 := by
  have hv : twoPages = some parentVm := (Option.some_get _).symm
  have hnodup : parentVm.freelist.Nodup := by decide +kernel
  have hapart : ∀ x ∈ [0, stackPage 1], ∀ e ∈ parentVm.entry 0 x, e.page ∉ parentVm.freelist := by
    decide +kernel
  refine ⟨hnodup, fun x e hx => hapart x ?_ e hx⟩
  unfold twoPages at hv
  split at hv
  · next d v₁ hs =>
    have hnew := newDir_setupkvm hs
    obtain rfl : d = 0 := hnew.num
    split at hv
    · next r v₂ ha =>
      split at hv
      · next r' v₃ hb =>
        cases hv
        -- each call only changes its own page
        by_contra hnot
        simp only [List.mem_cons, List.not_mem_nil, or_false, not_or] at hnot
        have h2 := allocuvm_other (by decide) (by decide) hb 0 x
        have h1 := allocuvm_other (by decide) (by decide) ha 0 x
        rw [npages_mul_pgsize, npages_mul_pgsize] at h2
        rw [← Nat.one_mul pgsize, npages_mul_pgsize] at h1
        rw [h2 (by omega), h1 (by omega), hnew.empty] at hx
        cases hx
      · cases hv
    · cases hv
  · cases hv

theorem copyuvm_isolates_parentVm :
    ∃ v', parentVm.copyuvm 0 pgsize 1 = .ok (some 1, v') ∧
      v'.read 1 (stackbottom - 1) = parentVm.read 0 (stackbottom - 1 - 2 * pgsize) ∧
      v'.entry 1 (stackPage 1) = none := by
  have hok : (parentVm.copyuvm 0 pgsize 1).toOption.bind (·.1) = some 1 := by decide +kernel
  cases hr : parentVm.copyuvm 0 pgsize 1 with
  | error msg =>
    rw [hr] at hok
    cases hok
  | ok r =>
    obtain ⟨o, v'⟩ := r
    rw [hr] at hok
    obtain rfl : o = some 1 := hok
    obtain ⟨-, hstack, hnone, -⟩ := copyuvm_isolates (k := 1) (by decide) (by decide) (by decide)
      freeOk_parentVm hr
    exact ⟨v', rfl, (hstack _ (by decide) (by decide)).2, hnone _ (by decide) (by decide)⟩

end Vm

end Xv6.Mem
