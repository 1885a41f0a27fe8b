/-
Xv6.Mem.CopyPages — what a `copyuvm` that fails leaves behind.

`copyuvm` can run out of pages in `setupkvm`, at a page or a page table of
the heap, and at the page or the page table of the stack. In all cases but
the last it gives back every page it took (`held_rounds` and
`held_freevm`). When the page table of the stack cannot be made, the page
that was to be mapped by it is in no page table and is not freed.

Which case it is depends on the number of free pages alone: a new
directory costs `spaceCost` pages, a heap of `n` pages costs `n` and its
page tables, `ntables n`. `copyuvm_failed` says that nothing is lost unless
the free pages are just enough for the page of the stack and its table is
still missing then (`Leaks`).
-/
import Xv6.Mem.Pages
import Xv6.Mem.CopyTheorems
import Xv6.Mem.Supply

namespace Xv6.Mem

open Xv6.Lib

variable {b : Bool}

namespace Vm

variable {v v₁ v' : Vm} {d d' vpn sz : Nat} {e : Pte}

/-! ## The parent is left alone -/

theorem freevm_other {d₁ : Nat} (v : Vm) (hd : d₁ ≠ d) : (v.freevm d).space d₁ = v.space d₁ := by
  rw [freevm_space, Function.update_of_ne hd]
  exact (deallocuvm_space v d _ _).1 d₁ hd

theorem setupkvm_other {o : Option Nat} (h : v.setupkvm = (o, v')) (hd : d ≠ v.nspace) :
    v'.space d = v.space d := by
  cases o with
  | some d' =>
    obtain ⟨-, dir, l, -, -, rfl⟩ := setupkvm_some h
    rw [withDir_space, if_neg hd]
  | none =>
    obtain ⟨-, rfl⟩ | ⟨dir, l, -, -, rfl⟩ := setupkvm_none h
    · rfl
    · rw [freevm_other _ hd, withDir_space, if_neg hd]

/-! ## Pages held -/

theorem CopyRound.held {x y : Nat} (hy : y < kernbase / pgsize) (h : CopyRound d d' x v y v') :
    (v'.held d').Perm (v.held d') := by
  obtain ⟨e, mem, l, -, hf, hp⟩ := h
  rw [held_cons hf]
  exact held_mappages hy hp

theorem held_rounds (hn : n ≤ kernbase / pgsize) (hr : Rounds (HeapRound d d') 0 v n v') :
    (v'.held d').Perm (v.held d') :=
  hr.keeps (P := fun u => (u.held d').Perm (v.held d')) (.refl _) fun _ _ _ hx hone hp =>
    (CopyRound.held (Nat.lt_of_lt_of_le hx hn) hone).trans hp

theorem CopyStops.held_eq {y : Nat} (h : CopyStops d' v y v') (hf : v'.freelist = v.freelist) :
    v'.held d' = v.held d' := by
  rw [held, held, h.space, hf]

/-! ## Pages needed -/

/-- The page tables of a heap of `n` pages. -/
def ntables (n : Nat) : Nat := (n + (nptentries - 1)) / nptentries

/-- The pages of a directory without a user half. -/
def spaceCost : Nat := kmapTables + 1

/-- The page tables there are those of the pages below `n`. -/
def HeapTables (v : Vm) (d n : Nat) : Prop :=
  ∀ i, (v.space d).pde i ≠ none ↔ i * nptentries < n

theorem HeapTables.tableCost (h : HeapTables v d n) :
    v.tableCost d (n / nptentries) + ntables n = ntables (n + 1) := by
  have hi := h (n / nptentries)
  unfold Vm.tableCost ntables
  simp only [nptentries] at *
  split
  · next hnone =>
    have : ¬ n / 1024 * 1024 < n := fun hlt => hi.mpr hlt hnone
    omega
  rename_i hsome
  have := hi.mp hsome
  omega

theorem mappages_pde (h : v.mappages d vpn e = .ok (true, v')) (i : Nat) :
    (v'.space d).pde i ≠ none ↔ (v.space d).pde i ≠ none ∨ i = vpn / nptentries := by
  cases mappages_run h with
  | set hw =>
    cases hw with
    | found hp =>
      simp only [setPte, setSpace, Space.setPte, Function.update_self]
      exact ⟨.inl, fun h => h.elim id fun hi => hi ▸ hp⟩
    | made =>
      by_cases hi : i = vpn / nptentries <;>
        simp [setPte, setSpace, Space.setPte, Space.addTable, hi]

theorem HeapTables.mappages (ht : HeapTables v d n) (h : v.mappages d n e = .ok (true, v')) :
    HeapTables v' d (n + 1) := by
  intro i
  rw [mappages_pde h, ht i]
  simp only [nptentries]
  omega

theorem ntables_mono {m n : Nat} (h : m ≤ n) : ntables m ≤ ntables n := by
  simp only [ntables, nptentries]
  omega

theorem rounds_cost (ht : HeapTables v d' 0) (hr : Rounds (HeapRound d d') 0 v n v') :
    v'.freelist.length + n + ntables n = v.freelist.length ∧ HeapTables v' d' n := by
  induction hr with
  | nil => exact ⟨rfl, ht⟩
  | @snoc n w w' _ hone ih =>
    obtain ⟨ihlen, iht⟩ := ih
    obtain ⟨e, mem, l, -, hf, hp⟩ := hone
    have hlen := congrArg List.length hf
    have hsupply : w'.freelist.length + w.tableCost d' (n / nptentries) = l.length :=
      (mappages_supply hp).1
    have hcost := iht.tableCost
    have ht₁ : HeapTables ({ w with freelist := l }.copyPage mem e.page) d' n := iht
    rw [List.length_cons] at hlen
    exact ⟨by omega, ht₁.mappages hp⟩

theorem CopyStops.length_le (h : CopyStops d' v n v') (ht : HeapTables v d' n) :
    v.freelist.length + ntables n ≤ ntables (n + 1) := by
  have hcost := ht.tableCost
  rcases h.short with hf | ⟨mem, hf, hpde⟩
  · have := ntables_mono (Nat.le_succ n)
    simp only [hf, List.length_nil]
    omega
  · rw [tableCost, if_pos hpde] at hcost
    simp only [hf, List.length_singleton]
    omega

theorem setupkvm_cost (h : v.setupkvm = (some d, v')) :
    v'.freelist.length + spaceCost = v.freelist.length ∧ HeapTables v' d 0 := by
  obtain ⟨rfl, dir, l, hf, hl, rfl⟩ := setupkvm_some h
  refine ⟨?_, fun i => ?_⟩
  · simp only [hf, withDir, spaceCost, List.length_drop, List.length_cons]
    omega
  · simp [withDir_space, default, Inhabited.default]

theorem setupkvm_short (h : v.setupkvm = (none, v')) : v.freelist.length < spaceCost := by
  obtain ⟨hf, -⟩ | ⟨dir, l, hf, hl, -⟩ := setupkvm_none h
  · rw [hf]
    exact Nat.succ_pos _
  · rw [hf, List.length_cons]
    exact Nat.succ_lt_succ hl

/-! ## `copyuvm` -/

/-- The free pages are just enough for the page of the stack, and the heap
does not reach into the stack's page table. -/
def Leaks (v : Vm) (sz : Nat) : Prop :=
  v.freelist.length = spaceCost + npages sz + ntables (npages sz) + 1 ∧
    npages sz ≤ stackPage 0 / nptentries * nptentries
  deriving Decidable

/-- **A `copyuvm` that fails** leaves the parent's directory as it was, and
gives back all pages unless the stack's page table was what it had no page
for. -/
theorem copyuvm_failed {i : Int} (hd : d < v.nspace) (hsz : sz ≤ kernbase)
    (h : v.copyuvm d sz i = .ok (none, v')) :
    v'.space d = v.space d ∧ (v'.freelist.Perm v.freelist ↔ ¬ v.Leaks sz) := by
  have hn := npages_le_kernbase hsz
  -- the state after `n` rounds
  have hrounds : ∀ {d' n v₁ w}, n ≤ npages sz → v.setupkvm = (some d', v₁) →
      Rounds (HeapRound d d') 0 v₁ n w → d ≠ d' ∧ w.space d = v.space d ∧
      (w.held d').Perm v.freelist ∧ HeapTables w d' n ∧
      w.freelist.length + n + ntables n + spaceCost = v.freelist.length := by
    intro d' n v₁ w hle hs hr
    have hd' : d' = v.nspace := (newDir_setupkvm hs).num
    have hne : d ≠ d' := by omega
    have hheld : (v₁.held d').Perm v.freelist := held_setupkvm hs
    obtain ⟨hcost, ht⟩ := setupkvm_cost hs
    obtain ⟨hcost', ht'⟩ := rounds_cost ht hr
    refine ⟨hne, ?_, (held_rounds (hle.trans hn) hr).trans hheld, ht', by omega⟩
    rw [(hr.userOnly (hle.trans hn) CopyRound.userOnly).other d hne]
    exact setupkvm_other hs (hd' ▸ hne)
  cases copyuvm_run h with
  | nothing hs =>
    refine ⟨setupkvm_other hs hd.ne, iff_of_true (held_setupkvm hs) ?_⟩
    rintro ⟨hlen, -⟩
    have := setupkvm_short hs
    omega
  | @heap v₁ w w' d' x hs hx hr hstop =>
    obtain ⟨hne, hpar, hheld, ht, hcost⟩ := hrounds hx.le hs hr
    refine ⟨?_, iff_of_true ?_ ?_⟩
    · rw [freevm_other w' hne, hstop.1.space, hpar]
    · exact (held_freevm w' d').trans (hstop.1.held_eq hstop.2 ▸ hheld)
    · rintro ⟨hlen, -⟩
      have := hstop.1.length_le ht
      have := ntables_mono (show x + 1 ≤ npages sz from hx)
      omega
  | @stack v₁ w w' d' hs hr hstop hnil =>
    obtain ⟨hne, hpar, hheld, ht, hcost⟩ := hrounds le_rfl hs hr
    refine ⟨by rw [freevm_other w' hne, hstop.space, hpar], ?_⟩
    rcases hstop.short with hf | ⟨p, hf, hpde⟩
    · refine iff_of_true ((held_freevm w' d').trans ?_) ?_
      · rw [hstop.held_eq (hnil.trans hf.symm)]
        exact hheld
      · rintro ⟨hlen, -⟩
        rw [hf, List.length_nil] at hcost
        omega
    · refine iff_of_false ?_ (not_not.mpr ⟨?_, ?_⟩)
      · -- the page of the stack is missing
        intro hperm
        have h1 := hheld.length_eq
        have h2 := (hperm.symm.trans (held_freevm w' d')).length_eq
        rw [held, hf] at h1
        rw [held, hnil, hstop.space] at h2
        simp only [List.length_append, List.length_singleton, List.length_nil] at h1 h2
        omega
      · rw [hf, List.length_singleton] at hcost
        omega
      · exact Nat.le_of_not_lt (mt (ht _).mpr (not_not.mpr hpde))

/-- The parent with one heap page and the stack page of slot 1, and `n`
free pages. -/
def parentWith (n : Nat) : Vm := { parentVm with freelist := parentVm.freelist.take n }

/-- One page short of the stack page: all is given back. -/
theorem copyuvm_failed_before_stack :
    ∃ v', (parentWith 67).copyuvm 0 pgsize 1 = .ok (none, v') ∧
      v'.freelist.Perm (parentWith 67).freelist := by
  obtain ⟨v', hcopy⟩ : ∃ v', (parentWith 67).copyuvm 0 pgsize 1 = .ok (none, v') := by
    decide +kernel
  exact ⟨v', hcopy, (copyuvm_failed (by decide +kernel) (by decide) hcopy).2.mpr
    (by decide +kernel)⟩

/-- With 68 free pages the child has its directory, its heap page and a
page for the stack, but no page table for it: one page is lost. -/
theorem copyuvm_leaks_stack_page :
    (∀ x ∈ [0, stackPage 1], (((parentWith 68).space 0).mapped x) = true) ∧
    ∃ v', (parentWith 68).copyuvm 0 pgsize 1 = .ok (none, v') ∧
      (parentWith 68).freelist.length = 68 ∧ v'.freelist.length = 67 := by
  decide +kernel

end Vm

end Xv6.Mem
