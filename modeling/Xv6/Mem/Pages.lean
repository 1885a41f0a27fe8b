/-
Xv6.Mem.Pages — address spaces return the pages they took.

`Space.pages` lists every page a directory uses: the pages mapped in its
user half, the page tables of the two halves, and the directory. Whatever
`vm.c` does to one directory, the free pages together with the pages it
uses stay the same up to their order: that is one permutation lemma per
function, from `walkpgdir` up to `freevm`. With no page twice in the free
list at the start, the permutation is a partition.

The calls of `kfree` that a function makes are listed by a second function
beside it (`deallocuvmFrees`, `allocuvmFrees` and so on), each
with the state it is made in; what is pushed on the free list is exactly
these pages in this order (`deallocuvmFrees_freelist` and the like). A call
is `Proper` if the page is not free and has no other use than the one that
is being given up.
-/
import Xv6.Lib.Census
import Xv6.Lib.Fold
import Xv6.Lib.Run
import Xv6.Mem.Entries

namespace Xv6.Mem

open Xv6.Lib

variable {b : Bool} {c : Call} {v : Vm} {r : Nat} {o : Option Nat} {dir : Page} {l : List Page}

theorem firstPages_nodup (n : Nat) : (firstPages n).Nodup := by
  refine List.Nodup.filterMap ?_ List.nodup_range
  intro i j p hi hj
  simp only [Option.mem_def] at hi hj
  grind

/-! ## The pages of a directory -/

namespace Space

/-- The pages mapped in the user half. -/
def userPages (s : Space) : List Page :=
  census (kernbase / pgsize) fun x => (s.entry x).map Pte.page

/-- The page tables of the user half. -/
def tables (s : Space) : List Page := census (nptentries / 2) s.pde

def pages (s : Space) : List Page := s.userPages ++ (s.tables ++ s.kpt ++ [s.dir])

variable {s : Space} {x pdx : Nat} {p : Page} {e : Pte}

theorem pages_addTable (h : s.pde pdx = none) (hlt : pdx < nptentries / 2) :
    (s.addTable pdx p).pages.Perm (p :: s.pages) := by
  have hu : (s.addTable pdx p).userPages = s.userPages :=
    census_congr fun x _ => by rw [entry_addTable p h]
  have ht : (s.addTable pdx p).tables.Perm (p :: s.tables) :=
    census_set hlt h (Function.update_self _ _ _) fun j hj => Function.update_of_ne hj _ _
  have hrest := ((ht.append_right s.kpt).append_right [s.dir]).append_left s.userPages
  rw [List.cons_append, List.cons_append] at hrest
  rw [pages, hu]
  exact hrest.trans List.perm_middle

theorem pages_setPte_some (hpde : s.pde (x / nptentries) ≠ none) (hx : x < kernbase / pgsize)
    (h : s.entry x = none) : (s.setPte x (some e)).pages.Perm (e.page :: s.pages) := by
  have hu : (s.setPte x (some e)).userPages.Perm (e.page :: s.userPages) := by
    refine census_set hx (by rw [h]; rfl) ?_ ?_
    · rw [entry_setPte_self _ hpde]
      rfl
    · intro j hj
      rw [entry_setPte_of_ne _ hj]
  have hpages := hu.append_right (s.tables ++ s.kpt ++ [s.dir])
  rw [List.cons_append] at hpages
  exact hpages

theorem pages_setPte_none (hx : x < kernbase / pgsize) (h : s.entry x = some e) :
    s.pages.Perm (e.page :: (s.setPte x none).pages) := by
  have hpde : s.pde (x / nptentries) ≠ none := fun hn => by
    rw [entry_of_pde_none hn] at h
    cases h
  have hu : s.userPages.Perm (e.page :: (s.setPte x none).userPages) := by
    refine census_clear hx (by rw [h]; rfl) ?_ ?_
    · rw [entry_setPte_self _ hpde]
      rfl
    · intro j hj
      rw [entry_setPte_of_ne _ hj]
  have hpages := hu.append_right (s.tables ++ s.kpt ++ [s.dir])
  rw [List.cons_append] at hpages
  exact hpages

end Space

namespace Vm

variable {v v' : Vm} {d vpn oldsz newsz : Nat} {e : Pte}

/-- The free pages and the pages of a directory. -/
def held (v : Vm) (d : Nat) : List Page := v.freelist ++ (v.space d).pages

theorem held_cons {p : Page} (h : v.freelist = p :: l) (d : Nat) :
    v.held d = p :: { v with freelist := l }.held d := by
  simp [held, h]

theorem held_setSpace (v : Vm) (d : Nat) (s : Space) :
    (v.setSpace d s).held d = v.freelist ++ s.pages := by
  simp [held, setSpace]

theorem table_lt (h : vpn < kernbase / pgsize) : vpn / nptentries < nptentries / 2 := by
  simp only [kernbase, pgsize, nptentries] at h ⊢
  omega

theorem Walked.held (hx : vpn < kernbase / pgsize) (h : Walked v d vpn v') :
    (v'.held d).Perm (v.held d) := by
  cases h with
  | found => exact .refl _
  | made hp hf =>
    rw [held_cons hf, held_setSpace]
    exact ((Space.pages_addTable hp (table_lt hx)).append_left _).trans List.perm_middle

theorem held_mappages (hx : vpn < kernbase / pgsize) (h : v.mappages d vpn e = .ok (true, v')) :
    (v'.held d).Perm (e.page :: v.held d) := by
  cases mappages_run h with
  | @set w hw hn =>
    have hentry : (w.space d).entry vpn = none := (Space.entry_of_pde hw.pde).trans hn
    refine List.Perm.trans ?_ ((hw.held hx).cons e.page)
    rw [setPte, held_setSpace]
    exact ((Space.pages_setPte_some hw.pde hx hentry).append_left _).trans List.perm_middle

/-! ## `deallocuvm` -/

theorem held_unmap (hx : vpn < kernbase / pgsize) (he : (v.space d).entry vpn = some e) :
    (((v.kfree e.page).setPte d vpn none).held d).Perm (v.held d) := by
  have hfree : (v.kfree e.page).freelist = e.page :: v.freelist := rfl
  have hpages := (Space.pages_setPte_none hx he).append_left v.freelist
  rw [setPte, held_setSpace, hfree, List.cons_append]
  exact List.perm_middle.symm.trans hpages.symm

theorem lt_of_mul_lt (h : vpn * pgsize < oldsz) (hk : oldsz ≤ kernbase) :
    vpn < kernbase / pgsize := by
  simp only [kernbase, pgsize] at *
  omega

theorem held_deallocuvm (v : Vm) (d : Nat) {oldsz : Nat} (hk : oldsz ≤ kernbase) (newsz : Nat) :
    ((v.deallocuvm d oldsz newsz).2.held d).Perm (v.held d) := by
  refine deallocuvm_rec (P := fun w => (w.held d).Perm (v.held d)) (.refl _) fun w x hx hw => ?_
  unfold unmap
  split
  · exact hw
  · next he => exact (held_unmap (lt_of_mul_lt ((lt_npages_iff _ _).mp hx) hk) he).trans hw

/-! ## `allocuvm` -/

theorem AllocRound.held {x : Nat} (hx : x < kernbase / pgsize) (h : AllocRound d v x v') :
    (v'.held d).Perm (v.held d) := by
  obtain ⟨mem, l, hf, hp⟩ := h
  rw [held_cons hf]
  exact held_mappages hx hp

theorem AllocFails.held {x : Nat} (hk : newsz ≤ kernbase) (h : AllocFails d oldsz newsz v x v') :
    (v'.held d).Perm (v.held d) := by
  cases h with
  | page => exact held_deallocuvm v d hk oldsz
  | table hf =>
    rw [held_cons hf]
    exact (held_deallocuvm _ d hk oldsz).cons _

theorem held_allocuvm (h : v.allocuvm d oldsz newsz = .ok (r, v')) :
    (v'.held d).Perm (v.held d) := by
  have hrounds : ∀ {b w}, b ≤ kernbase / pgsize → Rounds (AllocRound d) (npages oldsz) v b w →
      (w.held d).Perm (v.held d) := fun hb hr =>
    hr.keeps (.refl _) fun x _ _ hx hone hp => (hone.held (Nat.lt_of_lt_of_le hx hb)).trans hp
  cases allocuvm_run h with
  | refused => exact .refl _
  | kept => exact .refl _
  | grown _ hk hr => exact hrounds (npages_le_kernbase hk.le) hr
  | failed _ hk hx hr hfail =>
    exact (hfail.held hk.le).trans (hrounds (hx.le.trans (npages_le_kernbase hk.le)) hr)

/-! ## `freevm` and `setupkvm` -/

theorem foldl_kfree_freelist (ps : List Page) (v : Vm) :
    (ps.foldl kfree v).freelist = ps.reverse ++ v.freelist := by
  induction ps generalizing v with
  | nil => rfl
  | cons p ps ih =>
    rw [List.foldl_cons, ih]
    simp [kfree]

theorem freeTables_eq (d : Nat) (v : Vm) :
    freeTables d v = (v.space d).tables.foldl kfree v := by
  have key : ∀ (l : List Nat) (w : Vm), w.space = v.space →
      l.foldl (fun v i => ((v.space d).pde i).elim v v.kfree) w =
        (l.filterMap (v.space d).pde).foldl kfree w := by
    intro l
    induction l with
    | nil =>
      intro w _
      rfl
    | cons i l ih =>
      intro w hw
      rw [List.foldl_cons, hw]
      cases hp : (v.space d).pde i with
      | none =>
        rw [List.filterMap_cons_none hp]
        exact ih w hw
      | some p =>
        rw [List.filterMap_cons_some hp]
        exact ih (w.kfree p) hw
  have hstep : freeTables d v = (List.range (nptentries / 2)).foldl
      (fun v i => ((v.space d).pde i).elim v v.kfree) v := by
    refine congrArg (List.foldl · v _) (funext fun w => funext fun i => ?_)
    cases (w.space d).pde i <;> rfl
  exact hstep.trans (key _ v rfl)

theorem freevm_freelist (v : Vm) (d : Nat) :
    (v.freevm d).freelist =
      (((v.deallocuvm d kernbase 0).2.space d).tables
        ++ ((v.deallocuvm d kernbase 0).2.space d).kpt
        ++ [((v.deallocuvm d kernbase 0).2.space d).dir]).reverse
        ++ (v.deallocuvm d kernbase 0).2.freelist := by
  simp only [freevm, freeTables_eq, foldl_kfree_space, kfree, setSpace, foldl_kfree_freelist]
  simp

theorem userPages_deallocuvm (v : Vm) (d : Nat) :
    ((v.deallocuvm d kernbase 0).2.space d).userPages = [] := by
  refine census_eq_nil.mpr fun x hx => ?_
  have hnone : (v.deallocuvm d kernbase 0).2.entry d x = none := by
    rw [entry_eq_none, maps_deallocuvm, Maps.mapped_cut_self]
    rintro ⟨-, hnot⟩
    refine hnot ⟨?_, ?_⟩
    · rw [npages_zero]
      exact Nat.zero_le _
    · rw [npages_eq]
      simp only [kernbase, pgsize] at *
      omega
  rw [← entry, hnone]
  rfl

/-- **`freevm` gives back every page of the directory.** -/
theorem held_freevm (v : Vm) (d : Nat) : (v.freevm d).freelist.Perm (v.held d) := by
  refine List.Perm.trans ?_ (held_deallocuvm v d (Nat.le_refl kernbase) 0)
  rw [freevm_freelist, held, Space.pages, userPages_deallocuvm, List.nil_append]
  exact ((List.reverse_perm _).append_right _).trans List.perm_append_comm

theorem held_withDir (hf : v.freelist = dir :: l) :
    ((v.withDir dir l).held v.nspace).Perm v.freelist := by
  have hu : ({ (default : Space) with dir := dir, kpt := l.take kmapTables }).userPages = [] :=
    census_eq_nil.mpr fun x _ => rfl
  have ht : ({ (default : Space) with dir := dir, kpt := l.take kmapTables }).tables = [] :=
    census_eq_nil.mpr fun x _ => rfl
  rw [held, withDir_space, if_pos rfl, Space.pages, hu, ht, hf, List.nil_append, List.nil_append]
  show (l.drop kmapTables ++ (l.take kmapTables ++ [dir])).Perm (dir :: l)
  refine List.perm_append_comm.trans ?_
  rw [List.append_assoc, List.singleton_append]
  exact List.perm_middle.trans (by rw [List.take_append_drop])

/-- `setupkvm` takes the pages of its directory from the free list, or
nothing. -/
theorem held_setupkvm (h : v.setupkvm = (o, v')) :
    (match o with
      | none => v'.freelist
      | some d => v'.held d).Perm v.freelist := by
  cases o with
  | some d =>
    obtain ⟨rfl, dir, l, hf, -, rfl⟩ := setupkvm_some h
    exact held_withDir hf
  | none =>
    obtain ⟨-, rfl⟩ | ⟨dir, l, hf, -, rfl⟩ := setupkvm_none h
    · exact .refl _
    · exact (held_freevm _ _).trans (held_withDir hf)

/-! ## The calls of `kfree` -/

/-- What `kfree` is called on, in order, by the loop of `deallocuvm`: the
state before the call, and the page. -/
def deallocLoopFrees (d oldsz : Nat) : Nat → Nat → Vm → List (Vm × Page)
  | 0, _, _ => []
  | fuel + 1, vpn, v =>
    if vpn * pgsize < oldsz then
      match (v.space d).pde (vpn / nptentries) with
      | none => deallocLoopFrees d oldsz fuel ((vpn / nptentries + 1) * nptentries) v
      | some _ =>
        match (v.space d).pte vpn with
        | none => deallocLoopFrees d oldsz fuel (vpn + 1) v
        | some e =>
          (v, e.page) ::
            deallocLoopFrees d oldsz fuel (vpn + 1) ((v.kfree e.page).setPte d vpn none)
    else []

def deallocuvmFrees (v : Vm) (d oldsz newsz : Nat) : List (Vm × Page) :=
  if oldsz ≤ newsz then []
  else deallocLoopFrees d oldsz (npages oldsz - npages newsz) (npages newsz) v

def allocLoopFrees (d oldsz newsz : Nat) : Nat → Nat → Vm → List (Vm × Page)
  | 0, _, _ => []
  | n + 1, vpn, v =>
    match v.kalloc with
    | (none, v) => v.deallocuvmFrees d newsz oldsz
    | (some mem, v) =>
      match (v.zeroPage mem).mappages d vpn { page := mem, w := true, u := true } with
      | .error _ => []
      | .ok (false, v) =>
        v.deallocuvmFrees d newsz oldsz ++ [((v.deallocuvm d newsz oldsz).2, mem)]
      | .ok (true, v) => allocLoopFrees d oldsz newsz n (vpn + 1) v

def allocuvmFrees (v : Vm) (d oldsz newsz : Nat) : List (Vm × Page) :=
  if kernbase ≤ newsz then []
  else if newsz < oldsz then []
  else allocLoopFrees d oldsz newsz (npages newsz - npages oldsz) (npages oldsz) v

/-- `kfree` of one page after the other. -/
def kfrees : List Page → Vm → List (Vm × Page)
  | [], _ => []
  | p :: ps, v => (v, p) :: kfrees ps (v.kfree p)

def freevmFrees (v : Vm) (d : Nat) : List (Vm × Page) :=
  let v₁ := (v.deallocuvm d kernbase 0).2
  v.deallocuvmFrees d kernbase 0 ++
    kfrees ((v₁.space d).tables ++ (v₁.space d).kpt ++ [(v₁.space d).dir]) v₁

def setupkvmFrees (v : Vm) : List (Vm × Page) :=
  match v.kalloc with
  | (none, _) => []
  | (some dir, v) =>
    let d := v.nspace
    match mapKernel d kmapTables
        { v.setSpace d { (default : Space) with dir := dir } with nspace := d + 1 } with
    | (false, v) => v.freevmFrees d
    | (true, _) => []

/-- A call takes pages from the free list, and then frees `fs` in order. -/
def Pushes (v v' : Vm) (fs : List (Vm × Page)) : Prop :=
  ∃ rest, rest <:+ v.freelist ∧ v'.freelist = (fs.map Prod.snd).reverse ++ rest

/-- A call of `kfree` on a page that is not free, and that the directory
uses nowhere or in the one place that is being given up. -/
def Proper (d : Nat) (f : Vm × Page) : Prop :=
  f.2 ∉ f.1.freelist ∧ (f.1.space d).pages.count f.2 ≤ 1

theorem deallocLoopFrees_freelist (fuel vpn : Nat) (v : Vm) :
    (deallocLoop d oldsz fuel vpn v).freelist =
      ((deallocLoopFrees d oldsz fuel vpn v).map Prod.snd).reverse ++ v.freelist := by
  induction fuel generalizing vpn v with
  | zero => rfl
  | succ fuel ih =>
    simp only [deallocLoop, deallocLoopFrees]
    split
    · cases (v.space d).pde (vpn / nptentries) with
      | none => exact ih _ _
      | some tbl =>
        cases (v.space d).pte vpn with
        | none => exact ih _ _
        | some e =>
          simp only [ih, List.map_cons, List.reverse_cons, List.append_assoc]
          rfl
    · rfl

theorem deallocuvmFrees_freelist (v : Vm) (d oldsz newsz : Nat) :
    (v.deallocuvm d oldsz newsz).2.freelist =
      ((v.deallocuvmFrees d oldsz newsz).map Prod.snd).reverse ++ v.freelist := by
  unfold deallocuvm deallocuvmFrees
  split
  · rfl
  · exact deallocLoopFrees_freelist _ _ _

theorem kfrees_map (ps : List Page) (v : Vm) : (kfrees ps v).map Prod.snd = ps := by
  induction ps generalizing v with
  | nil => rfl
  | cons p ps ih => simp [kfrees, ih]

theorem freevmFrees_freelist (v : Vm) (d : Nat) :
    (v.freevm d).freelist = ((v.freevmFrees d).map Prod.snd).reverse ++ v.freelist := by
  rw [freevm_freelist, deallocuvmFrees_freelist]
  simp [freevmFrees, kfrees_map]

theorem pushes_allocLoop (n vpn : Nat) (h : allocLoop d oldsz newsz n vpn v = .ok (b, v')) :
    Pushes v v' (allocLoopFrees d oldsz newsz n vpn v) := by
  induction n generalizing vpn v with
  | zero =>
    cases h
    exact ⟨_, List.suffix_refl _, rfl⟩
  | succ n ih =>
    unfold allocLoop at h
    split at h
    · next v₁ hk =>
      cases h
      simp only [allocLoopFrees, hk]
      exact ⟨v₁.freelist, (took_kalloc hk).free, deallocuvmFrees_freelist _ _ _ _⟩
    rename_i mem v₁ hk
    have htook := (took_kalloc hk).free
    split at h
    · cases h
    · next v₂ hp =>
      cases h
      simp only [allocLoopFrees, hk, hp]
      cases mappages_run hp
      refine ⟨v₁.freelist, htook, ?_⟩
      simp only [kfree, deallocuvmFrees_freelist]
      simp [zeroPage]
    rename_i v₂ hp
    simp only [allocLoopFrees, hk, hp]
    obtain ⟨rest, hrest, hpush⟩ := ih (vpn + 1) h
    have htook₂ := (mappages_entry hp).2.2.2.2.free
    exact ⟨rest, hrest.trans (htook₂.trans htook), hpush⟩

theorem pushes_allocuvm (h : v.allocuvm d oldsz newsz = .ok (r, v')) :
    Pushes v v' (v.allocuvmFrees d oldsz newsz) := by
  unfold allocuvm at h
  unfold allocuvmFrees
  split at h
  · next hk =>
    cases h
    rw [if_pos hk]
    exact ⟨v.freelist, List.suffix_refl _, rfl⟩
  rename_i hk
  rw [if_neg hk]
  split at h
  · next hlt =>
    cases h
    rw [if_pos hlt]
    exact ⟨v.freelist, List.suffix_refl _, rfl⟩
  rename_i hge
  rw [if_neg hge]
  split at h
  · cases h
  · next hl =>
    cases h
    exact pushes_allocLoop _ _ hl
  rename_i hl
  cases h
  exact pushes_allocLoop _ _ hl

theorem setupkvmFrees_eq (hf : v.freelist = dir :: l) :
    v.setupkvmFrees = if kmapTables ≤ l.length then []
      else (v.withDir dir l).freevmFrees v.nspace := by
  have hd : (default : Space).kpt = [] := rfl
  simp only [setupkvmFrees, kalloc, hf, mapKernel_eq, setSpace, Function.update_self,
    Function.update_idem, hd, List.nil_append]
  by_cases hl : kmapTables ≤ l.length
  · simp only [decide_true, hl, if_true]
  · simp only [decide_false, hl, if_false]
    rfl

theorem pushes_setupkvm (h : v.setupkvm = (o, v')) : Pushes v v' v.setupkvmFrees := by
  cases hf : v.freelist with
  | nil =>
    simp only [setupkvm, setupkvmFrees, kalloc, hf] at h ⊢
    cases h
    exact ⟨_, List.suffix_refl _, rfl⟩
  | cons dir l =>
    have hsuf : l.drop kmapTables <:+ v.freelist := by
      rw [hf]
      exact (List.drop_suffix _ l).trans (List.suffix_cons dir l)
    rw [setupkvm_eq hf] at h
    rw [setupkvmFrees_eq hf]
    split at h
    · next hl =>
      cases h
      rw [if_pos hl]
      exact ⟨_, hsuf, rfl⟩
    · next hl =>
      cases h
      rw [if_neg hl]
      exact ⟨_, hsuf, freevmFrees_freelist _ _⟩

/-! ### Every call is proper -/

/-- With no page held twice, a page of the directory is not free, and used
once. -/
theorem proper_of_mem {p : Page} (hn : (v.held d).Nodup) (hp : p ∈ (v.space d).pages) :
    Proper d (v, p) := by
  obtain ⟨-, hpages, hdisj⟩ := List.nodup_append.mp hn
  exact ⟨fun hfree => hdisj p hfree p hp rfl, List.nodup_iff_count_le_one.mp hpages p⟩

theorem mem_pages_of_entry (hx : vpn < kernbase / pgsize) (he : (v.space d).entry vpn = some e) :
    e.page ∈ (v.space d).pages :=
  List.mem_append_left _ (mem_census.mpr ⟨vpn, hx, by rw [he]; rfl⟩)

theorem proper_deallocLoop (hk : oldsz ≤ kernbase) (fuel vpn : Nat) (hn : (v.held d).Nodup) :
    ∀ f ∈ deallocLoopFrees d oldsz fuel vpn v, Proper d f := by
  induction fuel generalizing vpn v with
  | zero =>
    intro f hf
    cases hf
  | succ fuel ih =>
    intro f hf
    unfold deallocLoopFrees at hf
    split at hf
    · next hlt =>
      split at hf
      · exact ih _ hn f hf
      rename_i hpde
      split at hf
      · exact ih _ hn f hf
      rename_i e hpte
      have hx := lt_of_mul_lt hlt hk
      have he : (v.space d).entry vpn = some e :=
        Space.entry_eq_some.mpr ⟨by simp [hpde], hpte⟩
      rcases List.mem_cons.mp hf with rfl | hf
      · exact proper_of_mem hn (mem_pages_of_entry hx he)
      · exact ih _ ((held_unmap hx he).nodup_iff.mpr hn) f hf
    · cases hf

theorem proper_deallocuvm (hk : oldsz ≤ kernbase) (hn : (v.held d).Nodup) :
    ∀ f ∈ v.deallocuvmFrees d oldsz newsz, Proper d f := by
  unfold deallocuvmFrees
  split
  · intro f hf
    cases hf
  · exact proper_deallocLoop hk _ _ hn

theorem proper_allocLoop (hk : newsz ≤ kernbase) (n vpn : Nat) (hle : vpn + n ≤ kernbase / pgsize)
    (hn : (v.held d).Nodup) : ∀ f ∈ allocLoopFrees d oldsz newsz n vpn v, Proper d f := by
  induction n generalizing vpn v with
  | zero =>
    intro f hf
    cases hf
  | succ n ih =>
    intro f hf
    unfold allocLoopFrees at hf
    split at hf
    · next v₁ hka =>
      obtain ⟨-, rfl⟩ := kalloc_none hka
      exact proper_deallocuvm hk hn f hf
    rename_i mem v₁ hka
    obtain ⟨l, hl, rfl⟩ := kalloc_some hka
    rw [held_cons hl] at hn
    split at hf
    · cases hf
    · next v₂ hp =>
      cases mappages_run hp
      rcases List.mem_append.mp hf with hf | hf
      · have hn₂ : (({ v with freelist := l }.zeroPage mem).held d).Nodup := hn.of_cons
        exact proper_deallocuvm hk hn₂ f hf
      · -- the page that could not be mapped
        rw [List.mem_singleton] at hf
        subst hf
        have hde := (held_deallocuvm ({ v with freelist := l }.zeroPage mem) d hk oldsz).cons mem
        have hn₃ := List.nodup_cons.mp (hde.nodup_iff.mpr hn)
        have hnot := mt List.mem_append.mpr hn₃.1
        rw [not_or] at hnot
        refine ⟨hnot.1, ?_⟩
        rw [List.count_eq_zero_of_not_mem hnot.2]
        exact Nat.zero_le _
    rename_i v₂ hp
    exact ih _ (by omega) ((held_mappages (by omega) hp).nodup_iff.mpr hn) f hf

theorem proper_allocuvm (hn : (v.held d).Nodup) :
    ∀ f ∈ v.allocuvmFrees d oldsz newsz, Proper d f := by
  intro f hf
  unfold allocuvmFrees at hf
  split at hf
  · cases hf
  · split at hf
    · cases hf
    rename_i hlt hge
    have hk : newsz ≤ kernbase := by omega
    have hmono := npages_mono (Nat.le_of_not_lt hge)
    have hle := npages_le_kernbase hk
    exact proper_allocLoop hk _ _ (by omega) hn f hf

/-- Pages of the directory are freed one after the other, with the
directory as it is. -/
theorem proper_kfrees (ps : List Page) (hn : (v.freelist ++ ps).Nodup)
    (hpages : (v.space d).pages.Nodup) : ∀ f ∈ kfrees ps v, Proper d f := by
  induction ps generalizing v with
  | nil =>
    intro f hf
    cases hf
  | cons p ps ih =>
    intro f hf
    have hn' := List.nodup_middle.mp hn
    rcases List.mem_cons.mp hf with rfl | hf
    · refine ⟨fun hfree => ?_, List.nodup_iff_count_le_one.mp hpages p⟩
      exact (List.nodup_cons.mp hn').1 (List.mem_append_left _ hfree)
    · exact ih (v := v.kfree p) hn' hpages f hf

theorem proper_freevm (hn : (v.held d).Nodup) : ∀ f ∈ v.freevmFrees d, Proper d f := by
  intro f hf
  have hle := Nat.le_refl kernbase
  rcases List.mem_append.mp hf with hf | hf
  · exact proper_deallocuvm hle hn f hf
  · have hn₁ := (held_deallocuvm v d hle 0).nodup_iff.mpr hn
    have hpages := (List.nodup_append.mp hn₁).2.1
    rw [held, Space.pages, userPages_deallocuvm, List.nil_append] at hn₁
    exact proper_kfrees _ hn₁ hpages f hf

/-- The directory `setupkvm` made and gave up is the one with number
`nspace`. -/
theorem proper_setupkvm (hn : v.freelist.Nodup) :
    ∀ f ∈ v.setupkvmFrees, Proper v.nspace f := by
  intro f hf
  cases hl : v.freelist with
  | nil =>
    simp only [setupkvmFrees, kalloc, hl] at hf
    cases hf
  | cons dir l =>
    rw [setupkvmFrees_eq hl] at hf
    split at hf
    · cases hf
    · exact proper_freevm ((held_withDir hl).nodup_iff.mpr hn) f hf

/-! ## `deallocuvm` on 32-bit addresses -/

/-- The loop of `deallocuvm` over addresses, as it is written. `fit` reads
a computed address as a `uint`; without a result the fuel ran out. -/
def deallocAddrs (fit : Int → Option Nat) (d oldsz : Nat) : Nat → Nat → Vm → Option Vm
  | 0, _, _ => none
  | fuel + 1, a, v =>
    if a < oldsz then
      match (v.space d).pde (a / pgsize / nptentries) with
      | none => do
        -- `a = PGADDR(PDX(a) + 1, 0, 0) - PGSIZE`
        let top ← fit ((a / pgsize / nptentries + 1) * nptentries * pgsize : Nat)
        let a ← fit (top - pgsize)
        deallocAddrs fit d oldsz fuel (← fit (a + pgsize)) v
      | some _ => do
        let next ← fit (a + pgsize)
        match (v.space d).pte (a / pgsize) with
        | none => deallocAddrs fit d oldsz fuel next v
        | some e =>
          deallocAddrs fit d oldsz fuel next ((v.kfree e.page).setPte d (a / pgsize) none)
    else some v

def deallocuvmAddrs (fit : Int → Option Nat) (fuel : Nat) (v : Vm) (d oldsz newsz : Nat) :
    Option (Nat × Vm) :=
  if oldsz ≤ newsz then some (oldsz, v)
  else do
    let a ← fit (newsz + pgsize - 1)
    let v ← deallocAddrs fit d oldsz fuel (pgrounddown a) v
    return (newsz, v)

section Addresses

variable {fit : Int → Option Nat} (hfit : ∀ n : Nat, n < 2 ^ 32 → fit n = some n)
include hfit

theorem fit_eq {i : Int} (n : Nat) (hi : i = n) (hn : n ≤ kernbase) : fit i = some n := by
  rw [hi]
  exact hfit n (Nat.lt_of_le_of_lt hn (by decide))

theorem deallocAddrs_eq (hk : oldsz ≤ kernbase) (fuel vpn : Nat) (v : Vm)
    (hf : npages oldsz - vpn < fuel) :
    deallocAddrs fit d oldsz fuel (vpn * pgsize) v = some (sweep d vpn (npages oldsz) v) := by
  induction fuel generalizing vpn v with
  | zero => exact absurd hf (Nat.not_lt_zero _)
  | succ fuel ih =>
    have hpage : vpn * pgsize / pgsize = vpn := Nat.mul_div_cancel vpn (by decide)
    simp only [deallocAddrs, hpage]
    split
    · next hlt =>
      have hv := (lt_npages_iff vpn oldsz).mpr hlt
      have hkb := lt_of_mul_lt hlt hk
      have hstep : fit (↑(vpn * pgsize) + ↑pgsize) = some ((vpn + 1) * pgsize) := by
        refine fit_eq hfit _ ?_ ?_ <;> simp only [kernbase, pgsize] at * <;> omega
      cases hpde : (v.space d).pde (vpn / nptentries) with
      | none =>
        have hnext : (vpn / nptentries + 1) * nptentries * pgsize ≤ kernbase := by
          simp only [kernbase, pgsize, nptentries] at *
          omega
        have hpos : pgsize ≤ (vpn / nptentries + 1) * nptentries * pgsize := by
          simp only [pgsize, nptentries]
          omega
        have hgt : vpn < (vpn / nptentries + 1) * nptentries := by
          simp only [nptentries]
          omega
        have htop := fit_eq hfit _ rfl hnext
        have hback : fit (↑((vpn / nptentries + 1) * nptentries * pgsize) - ↑pgsize)
            = some ((vpn / nptentries + 1) * nptentries * pgsize - pgsize) :=
          fit_eq hfit _ (Int.ofNat_sub hpos).symm (by omega)
        have hon : fit (↑((vpn / nptentries + 1) * nptentries * pgsize - pgsize) + ↑pgsize)
            = some ((vpn / nptentries + 1) * nptentries * pgsize) :=
          fit_eq hfit _ (by rw [Int.ofNat_sub hpos, Int.sub_add_cancel]) hnext
        simp only [htop, hback, hon, Option.bind_eq_bind, Option.bind_some]
        rw [ih _ v (by omega), sweep_skip hpde]
      | some p =>
        simp only [hstep, Option.bind_eq_bind, Option.bind_some]
        rw [sweep_of_lt hv, unmap_of_pde hpde]
        cases (v.space d).pte vpn with
        | none => exact ih (vpn + 1) _ (by omega)
        | some e => exact ih (vpn + 1) _ (by omega)
    · next hge =>
      rw [sweep_of_le (Nat.le_of_not_lt (mt (lt_npages_iff vpn oldsz).mp hge))]

theorem deallocuvmAddrs_eq (hk : oldsz ≤ kernbase) {fuel : Nat} (hf : npages oldsz < fuel) :
    deallocuvmAddrs fit fuel v d oldsz newsz = some (v.deallocuvm d oldsz newsz) := by
  unfold deallocuvmAddrs
  split
  · next hle => rw [deallocuvm, if_pos hle]
  · next hgt =>
    have hround : fit (↑newsz + ↑pgsize - 1) = some (newsz + pgsize - 1) := by
      rw [show (newsz : Int) + pgsize - 1 = ((newsz + pgsize - 1 : Nat) : Int) by
        simp only [pgsize]
        omega]
      refine hfit _ ?_
      simp only [kernbase, pgsize] at *
      omega
    have hup : pgrounddown (newsz + pgsize - 1) = npages newsz * pgsize := (npages_mul newsz).symm
    simp only [hround, hup, Option.bind_eq_bind, Option.bind_some]
    rw [deallocAddrs_eq hfit hk _ _ _ (by omega), Option.bind_some, ← deallocuvm_eq, deallocuvm,
      if_neg hgt]
    rfl

end Addresses

theorem freelist_sweep (n a : Nat) (v : Vm) : (sweep d a (a + n) v).freelist =
    ((List.range' a n).filterMap fun x => ((v.space d).entry x).map Pte.page).reverse
      ++ v.freelist := by
  induction n generalizing a v with
  | zero => simp [sweep_of_le]
  | succ n ih =>
    rw [show a + (n + 1) = a + 1 + n by omega, sweep_of_lt (by omega), ih, List.range'_succ]
    unfold unmap
    split
    · next he => rw [List.filterMap_cons_none (by rw [he]; rfl)]
    · next e he =>
      have hrest : ∀ x ∈ List.range' (a + 1) n,
          ((((v.kfree e.page).setPte d a none).space d).entry x).map Pte.page
            = ((v.space d).entry x).map Pte.page := by
        intro x hx
        have hne : x ≠ a := by
          have := List.mem_range'_1.mp hx
          omega
        rw [← entry, setPte, entry_setSpace_self, Space.entry_setPte_of_ne _ hne]
        rfl
      rw [List.filterMap_congr hrest, List.filterMap_cons_some (by rw [he]; rfl),
        List.reverse_cons, List.append_assoc]
      rfl

/-- **`deallocuvm`'s skipping loop is the page-by-page one**: it ends, its
addresses fit in 32 bits, and the pages of the range are freed once each. -/
theorem deallocuvm_page_by_page {fit : Int → Option Nat} {fuel : Nat} (hk : oldsz ≤ kernbase)
    (hn : (v.space d).userPages.Nodup) (hfit : ∀ n : Nat, n < 2 ^ 32 → fit n = some n)
    (hfuel : npages oldsz < fuel) : ∃ w freed,
      deallocuvmAddrs fit fuel v d oldsz newsz
        = some (if oldsz ≤ newsz then oldsz else newsz, w) ∧
      w = (v.deallocuvm d oldsz newsz).2 ∧ w = sweep d (npages newsz) (npages oldsz) v ∧
      w.freelist = freed ++ v.freelist ∧ freed.Nodup ∧
      (∀ p, p ∈ freed ↔ ∃ x e, pgroundup newsz ≤ x * pgsize ∧ x * pgsize < oldsz ∧
        (v.space d).entry x = some e ∧ e.page = p) ∧
      (∀ x, (w.space d).entry x =
        if pgroundup newsz ≤ x * pgsize ∧ x * pgsize < oldsz then none
        else (v.space d).entry x) ∧
      (w.space d).pde = (v.space d).pde ∧ ∀ d₁, d₁ ≠ d → w.space d₁ = v.space d₁ := by
  have hrange : ∀ x, pgroundup newsz ≤ x * pgsize ∧ x * pgsize < oldsz ↔
      npages newsz ≤ x ∧ x < npages oldsz := by
    intro x
    rw [← lt_npages_iff, ← npages_mul newsz, Nat.mul_le_mul_right_iff (by decide)]
  have hemptied := emptied_deallocuvm v d oldsz newsz
  obtain ⟨hspace, f, hf⟩ := deallocuvm_space v d oldsz newsz
  refine ⟨_, ((List.range' (npages newsz) (npages oldsz - npages newsz)).filterMap fun x =>
    ((v.space d).entry x).map Pte.page).reverse, ?_, rfl, deallocuvm_eq v d oldsz newsz, ?_, ?_,
    ?_, ?_, by rw [hf], hspace⟩
  · rw [deallocuvmAddrs_eq hfit hk hfuel, ← deallocuvm_fst]
  · rw [deallocuvm_eq, ← freelist_sweep]
    rcases Nat.le_total (npages newsz) (npages oldsz) with hle | hle
    · rw [Nat.add_sub_cancel' hle]
    · rw [sweep_of_le hle, sweep_of_le (by omega)]
  · refine List.nodup_reverse.mpr (hn.sublist (List.Sublist.filterMap _ ?_))
    have hle := npages_le_kernbase hk
    rcases Nat.le_total (npages newsz) (npages oldsz) with hnp | hnp
    · obtain ⟨k, hk⟩ := Nat.exists_eq_add_of_le
        (show npages newsz + (npages oldsz - npages newsz) ≤ kernbase / pgsize by omega)
      rw [hk, Nat.add_assoc, List.range_eq_range', ← List.range'_append_1 (s := 0), Nat.zero_add,
        ← List.range'_append_1 (s := npages newsz)]
      exact (List.sublist_append_left _ _).trans (List.sublist_append_right _ _)
    · rw [Nat.sub_eq_zero_of_le hnp]
      exact List.nil_sublist _
  · intro p
    simp only [List.mem_reverse, List.mem_filterMap, List.mem_range'_1, Option.map_eq_some_iff]
    refine exists_congr fun x => ?_
    have hx := hrange x
    constructor
    · rintro ⟨h, e, he, hp⟩
      obtain ⟨h1, h2⟩ := hx.mpr (by omega)
      exact ⟨e, h1, h2, he, hp⟩
    · rintro ⟨e, h1, h2, he, hp⟩
      have := hx.mp ⟨h1, h2⟩
      exact ⟨by omega, e, he, hp⟩
  · intro x
    simp only [hrange]
    split
    · next h => exact hemptied.gone x h.1 h.2
    · next h => exact hemptied.other d x (by omega)

/-- A size of two pages is cut down to 100 bytes, on machine integers. -/
theorem deallocuvm_page_by_page_hundred : ∃ v w freed,
    deallocuvmAddrs (fun x => some (toU32 x)) 3 v 0 8192 100 = some (100, w) ∧
      w.freelist = freed ++ v.freelist ∧ freed ≠ [] ∧ freed.Nodup ∧
      (w.space 0).entry 1 = none ∧ (w.space 0).entry 0 ≠ none := by
  have hall : ∀ r ∈ ((kinit (firstPages 70)).setupkvm.2.allocuvm 0 0 8192).toOption,
      ((r.2.space 0).entry 0).isSome ∧ ((r.2.space 0).entry 1).isSome := by decide +kernel
  have hsome : ((kinit (firstPages 70)).setupkvm.2.allocuvm 0 0 8192).toOption.isSome := by
    decide +kernel
  have hset : (kinit (firstPages 70)).setupkvm = (some 0, (kinit (firstPages 70)).setupkvm.2) :=
    Prod.ext (show (kinit (firstPages 70)).setupkvm.1 = some 0 by decide +kernel) rfl
  obtain ⟨r, hr⟩ := Option.isSome_iff_exists.mp hsome
  obtain ⟨h0, h1⟩ := hall r hr
  have hheld := (held_allocuvm (eq_ok_of_toOption hr)).trans (held_setupkvm hset)
  have hn := (List.nodup_append.mp (hheld.nodup_iff.mpr (firstPages_nodup 70))).2.1
  have hfit : ∀ n : Nat, n < 2 ^ 32 → some (toU32 n) = some n := by
    intro n hn
    simp only [toU32, Option.some.injEq]
    omega
  obtain ⟨w, freed, hw, -, -, hfree, hnd, hmem, hentry, -, -⟩ := @deallocuvm_page_by_page
    r.2 0 8192 100 (fun x => some (toU32 x)) 3 (by decide) (List.nodup_append.mp hn).1
    hfit (by decide)
  obtain ⟨e, he⟩ := Option.isSome_iff_exists.mp h1
  have hin : e.page ∈ freed := (hmem e.page).mpr ⟨1, e, by decide, by decide, he, rfl⟩
  refine ⟨r.2, w, freed, hw, hfree, List.ne_nil_of_mem hin, hnd, ?_, ?_⟩
  · rw [hentry, if_pos (by decide)]
  · rw [hentry, if_neg (by decide)]
    exact Option.isSome_iff_ne_none.mp h0

/-! ## The life of an address space -/

/-- A call on an address space between `setupkvm` and `freevm`. -/
inductive Call where
  | allocuvm (oldsz newsz : Nat)
  | deallocuvm (oldsz newsz : Nat)
  deriving DecidableEq

/-- The call on directory `d`; a panic is no state. -/
def call (d : Nat) (v : Vm) : Call → Option Vm
  | .allocuvm oldsz newsz => (v.allocuvm d oldsz newsz).toOption.map Prod.snd
  | .deallocuvm oldsz newsz => some (v.deallocuvm d oldsz newsz).2

def callFrees (d : Nat) (v : Vm) : Call → List (Vm × Page)
  | .allocuvm oldsz newsz => v.allocuvmFrees d oldsz newsz
  | .deallocuvm oldsz newsz => v.deallocuvmFrees d oldsz newsz

/-- `allocuvm` on a range that is not mapped yet, or of a size that it
refuses, and `deallocuvm` in the user half. -/
def Below (d : Nat) (v : Vm) : Call → Prop
  | .allocuvm oldsz newsz =>
    newsz < kernbase → ∀ x ∈ Set.Ico (npages oldsz) (npages newsz), x ∉ v.maps.mapped d
  | .deallocuvm oldsz _ => oldsz ≤ kernbase

instance (d : Nat) (v : Vm) : ∀ c, Decidable (Below d v c)
  | .allocuvm oldsz newsz =>
    decidable_of_iff (newsz < kernbase → ∀ x < npages newsz, npages oldsz ≤ x →
        (v.space d).mapped x = false) (by
      simp only [Below, Set.mem_Ico, maps, Set.mem_ofPred_eq, Bool.not_eq_true]
      exact ⟨fun h hk x hx => h hk x hx.2 hx.1, fun h hk x hlt hle => h hk x ⟨hle, hlt⟩⟩)
  | .deallocuvm oldsz _ => inferInstanceAs (Decidable (oldsz ≤ kernbase))

theorem held_call (hc : Below d v c) (h : v.call d c = some v') : (v'.held d).Perm (v.held d) := by
  cases c with
  | allocuvm oldsz newsz =>
    rw [call, Option.map_eq_some_iff] at h
    obtain ⟨⟨r, w⟩, hr, rfl⟩ := h
    exact held_allocuvm (eq_ok_of_toOption hr)
  | deallocuvm oldsz newsz =>
    cases h
    exact held_deallocuvm v d hc newsz

theorem pushes_call (h : v.call d c = some v') : Pushes v v' (v.callFrees d c) := by
  cases c with
  | allocuvm oldsz newsz =>
    rw [call, Option.map_eq_some_iff] at h
    obtain ⟨⟨r, w⟩, hr, rfl⟩ := h
    exact pushes_allocuvm (eq_ok_of_toOption hr)
  | deallocuvm oldsz newsz =>
    cases h
    exact ⟨v.freelist, List.suffix_refl _, deallocuvmFrees_freelist _ _ _ _⟩

theorem proper_call (hc : Below d v c) (hn : (v.held d).Nodup) :
    ∀ f ∈ v.callFrees d c, Proper d f := by
  cases c with
  | allocuvm oldsz newsz => exact proper_allocuvm hn
  | deallocuvm oldsz newsz => exact proper_deallocuvm hc hn

theorem call_isSome (hc : Below d v c) : ∃ v', v.call d c = some v' := by
  cases c with
  | allocuvm oldsz newsz =>
    cases h : v.allocuvm d oldsz newsz with
    | error msg =>
      obtain ⟨-, hk, x, hx, hmem⟩ := allocuvm_error h
      exact absurd hmem (hc hk x hx)
    | ok r => exact ⟨r.2, by rw [call, h]; rfl⟩
  | deallocuvm oldsz newsz => exact ⟨_, rfl⟩

/-- **An address space returns what it took**: the free pages and the pages
it uses are the pages that were free before `setupkvm`, after every call,
and `freevm` frees them all; no page is freed twice or while it has a use. -/
theorem address_space_returns {v₀ v₁ : Vm} {o : Option Nat} (hn : v₀.freelist.Nodup)
    (hset : v₀.setupkvm = (o, v₁)) :
    (Pushes v₀ v₁ v₀.setupkvmFrees ∧ ∀ f ∈ v₀.setupkvmFrees, Proper v₀.nspace f) ∧
    (o = none → v₁.freelist.Perm v₀.freelist) ∧
    ∀ d, o = some d → ∀ tr v, Run (call d) v₁ tr v → Meets (Below d) tr →
      (v.freelist ++ (v.space d).userPages ++ (v.space d).tables ++ (v.space d).kpt
        ++ [(v.space d).dir]).Perm v₀.freelist ∧
      (∀ c, Below d v c → ∃ v', v.call d c = some v' ∧ Pushes v v' (v.callFrees d c) ∧
        ∀ f ∈ v.callFrees d c, Proper d f) ∧
      (v.freevm d).freelist.Perm v₀.freelist ∧
      Pushes v (v.freevm d) (v.freevmFrees d) ∧ ∀ f ∈ v.freevmFrees d, Proper d f := by
  have hheld := held_setupkvm hset
  refine ⟨⟨pushes_setupkvm hset, proper_setupkvm hn⟩, ?_, ?_⟩
  · rintro rfl
    exact hheld
  · rintro d rfl tr v hrun hmeets
    have hinv : (v.held d).Perm v₀.freelist := by
      refine Run.invariant (I := fun v => (v.held d).Perm v₀.freelist) hheld ?_ hrun hmeets
      intro v c v' hv hc hstep
      exact (held_call hc hstep).trans hv
    have hnv := hinv.nodup_iff.mpr hn
    refine ⟨?_, ?_, (held_freevm v d).trans hinv, ?_, proper_freevm hnv⟩
    · simpa only [held, Space.pages, List.append_assoc] using hinv
    · intro c hc
      obtain ⟨v', hv'⟩ := call_isSome hc
      exact ⟨v', hv', pushes_call hv', proper_call hc hnv⟩
    · exact ⟨v.freelist, List.suffix_refl _, freevmFrees_freelist v d⟩

/-- With two pages more than `setupkvm` takes: a page is mapped and
unmapped, and an allocation of two pages fails half way. -/
theorem address_space_returns_after_failure :
    ∃ d v₁ tr v, (kinit (firstPages 67)).setupkvm = (some d, v₁) ∧ Run (call d) v₁ tr v ∧
      tr.length = 3 ∧ v.freelist.length = 1 ∧ (v.freevm d).freelist.Perm (firstPages 67) := by
  obtain ⟨v₁, hv₁⟩ : ∃ v₁, (kinit (firstPages 67)).setupkvm.2 = v₁ := ⟨_, rfl⟩
  have hset : (kinit (firstPages 67)).setupkvm = (some 0, v₁) :=
    Prod.ext (show (kinit (firstPages 67)).setupkvm.1 = some 0 by decide +kernel) hv₁
  have hn : (kinit (firstPages 67)).freelist.Nodup := firstPages_nodup 67
  have hsome : (follow (call 0) (kinit (firstPages 67)).setupkvm.2
      [.allocuvm 0 4096, .deallocuvm 4096 0, .allocuvm 0 8192]).isSome := by decide +kernel
  have hall : ∀ r ∈ follow (call 0) (kinit (firstPages 67)).setupkvm.2
      [.allocuvm 0 4096, .deallocuvm 4096 0, .allocuvm 0 8192],
      r.1.length = 3 ∧ r.2.freelist.length = 1 ∧ Meets (Below 0) r.1 := by decide +kernel
  obtain ⟨r, hr⟩ := Option.isSome_iff_exists.mp hsome
  obtain ⟨hlen, hfree, hmeets⟩ := hall r hr
  rw [hv₁] at hr
  have h := (address_space_returns hn hset).2.2 0 rfl r.1 r.2 (run_follow hr) hmeets
  exact ⟨0, v₁, r.1, r.2, hset, run_follow hr, hlen, hfree, h.2.2.1⟩

end Vm

end Xv6.Mem
