/-
Xv6.Mem.Entries — page-table entries and page contents.

`Xv6.Mem.Maps` only says WHICH pages a directory maps. Here is what is
behind them: `v.entry d x` is the page and the permission bits of virtual
page `x` in directory `d`. For every function of `vm.c` one structure says
which entries and which page contents it changes, and that it leaves all
others alone: `Filled` for an `allocuvm` that succeeds, `Emptied` for one
that fails and for `deallocuvm`.

Contents can only change in a page of the free list, or in a page that is
unmapped by the call. Nothing here assumes that pages are not shared;
where that matters (`copyuvm`) the free list must be good: no page twice,
and none that the parent maps.
-/
import Xv6.Mem.Maps

namespace Xv6.Mem

open Function

variable {a b d newsz oldsz vpn x : Nat} {e : Pte} {s : Space} {v v' v₁ : Vm}

/-! ## One directory -/

namespace Space

theorem entry_of_pde_none (h : s.pde (x / nptentries) = none) : s.entry x = none := by
  simp [entry, h]

theorem entry_of_pde (h : s.pde (x / nptentries) ≠ none) : s.entry x = s.pte x := by
  obtain ⟨p, hp⟩ := Option.ne_none_iff_exists'.mp h
  simp [entry, hp]

theorem isSome_entry (s : Space) (x : Nat) : (s.entry x).isSome = s.mapped x := by
  unfold entry mapped
  cases s.pde (x / nptentries) <;> simp

@[simp] theorem entry_default (x : Nat) : (default : Space).entry x = none :=
  entry_of_pde_none rfl

theorem entry_setPte_self (o : Option Pte) (h : s.pde (x / nptentries) ≠ none) :
    (s.setPte x o).entry x = o := by
  have hp : (s.setPte x o).pde (x / nptentries) ≠ none := h
  rw [entry_of_pde hp]
  simp [setPte]

theorem entry_setPte_of_ne {y : Nat} (o : Option Pte) (h : y ≠ x) :
    (s.setPte x o).entry y = s.entry y := by
  simp [entry, setPte, h]

theorem entry_addTable {pdx : Nat} (p : Page) (h : s.pde pdx = none) (x : Nat) :
    (s.addTable pdx p).entry x = s.entry x := by
  by_cases hx : x / nptentries = pdx
  · simp [entry, addTable, hx, h]
  · simp [entry, addTable, hx]

end Space

namespace Vm

/-- The present entry of virtual page `x` in directory `d`. -/
def entry (v : Vm) (d x : Nat) : Option Pte := (v.space d).entry x

theorem entry_ne_none : v.entry d x ≠ none ↔ x ∈ v.maps.mapped d := by
  rw [← Option.isSome_iff_ne_none, entry, Space.isSome_entry]
  exact Iff.rfl

theorem entry_eq_none : v.entry d x = none ↔ x ∉ v.maps.mapped d := by
  rw [← entry_ne_none, not_not]

@[simp] theorem entry_zeroPage (v : Vm) (p : Page) (d x : Nat) :
    (v.zeroPage p).entry d x = v.entry d x := rfl

@[simp] theorem entry_storeBytes (v : Vm) (p : Page) (off : Nat) (bytes : List UInt8) (d x : Nat) :
    (v.storeBytes p off bytes).entry d x = v.entry d x := rfl

theorem entry_of_space (h : v'.space = v.space) (d x : Nat) : v'.entry d x = v.entry d x := by
  rw [entry, entry, h]

@[simp] theorem entry_setSpace_self (v : Vm) (d : Nat) (s : Space) (x : Nat) :
    (v.setSpace d s).entry d x = s.entry x := by
  simp [entry, setSpace]

theorem entry_setSpace_of_ne (v : Vm) {d' : Nat} (s : Space) (x : Nat) (h : d' ≠ d) :
    (v.setSpace d s).entry d' x = v.entry d' x := by
  simp [entry, setSpace, h]

theorem data_kfree (v : Vm) (p q : Page) :
    (v.kfree p).data q = v.data q ∨ q = p := by
  by_cases h : q = p
  · exact .inr h
  · exact .inl (by simp [kfree, h])

/-! ## `mappages` -/

/-- Directories are made with `setupkvm` only, and pages are only taken off
the free list. -/
structure Took (v v' : Vm) : Prop where
  nspace : v'.nspace = v.nspace
  free : v'.freelist <:+ v.freelist

theorem Took.refl (v : Vm) : Took v v := ⟨rfl, List.suffix_refl _⟩

theorem Took.trans (h : Took v v₁) (h' : Took v₁ v') : Took v v' :=
  ⟨h'.nspace.trans h.nspace, h'.free.trans h.free⟩

theorem took_kalloc {o : Option Page} (h : v.kalloc = (o, v')) : Took v v' := by
  cases o with
  | none => exact (kalloc_none h).2 ▸ .refl v
  | some p =>
    obtain ⟨l, hf, rfl⟩ := kalloc_some h
    exact ⟨rfl, hf ▸ List.suffix_cons p l⟩

theorem kalloc_data {o : Option Page} (h : v.kalloc = (o, v')) : v'.data = v.data := by
  unfold kalloc at h
  split at h <;> cases h <;> rfl

theorem entry_setPte_of_ne (v : Vm) {d' : Nat} (o : Option Pte) (h : d' ≠ d ∨ x ≠ vpn) :
    (v.setPte d vpn o).entry d' x = v.entry d' x := by
  by_cases hd : d' = d
  · subst hd
    rw [setPte, entry_setSpace_self,
      Space.entry_setPte_of_ne _ (h.resolve_left fun hn => hn rfl)]
    rfl
  · rw [setPte, entry_setSpace_of_ne _ _ _ hd]

theorem entry_setPte_self (v : Vm) (o : Option Pte)
    (h : (v.space d).pde (vpn / nptentries) ≠ none) : (v.setPte d vpn o).entry d vpn = o := by
  rw [setPte, entry_setSpace_self, Space.entry_setPte_self _ h]

theorem Walked.entry (h : Walked v d vpn v') (d' x : Nat) : v'.entry d' x = v.entry d' x := by
  cases h with
  | found => rfl
  | made hp =>
    by_cases hd : d' = d
    · subst hd
      exact (entry_setSpace_self ..).trans (Space.entry_addTable _ hp x)
    · exact entry_setSpace_of_ne _ _ _ hd

theorem Walked.took (h : Walked v d vpn v') : v'.data = v.data ∧ Took v v' := by
  cases h with
  | found => exact ⟨rfl, .refl v⟩
  | made _ hf => exact ⟨rfl, rfl, hf ▸ List.suffix_cons _ _⟩

/-- **`mappages` sets one entry**, where there was none. -/
theorem mappages_entry (h : v.mappages d vpn e = .ok (true, v')) :
    v.entry d vpn = none ∧ v'.entry d vpn = some e ∧
    (∀ d' x, d' ≠ d ∨ x ≠ vpn → v'.entry d' x = v.entry d' x) ∧
    v'.data = v.data ∧ Took v v' := by
  cases mappages_run h with
  | @set w hw hn =>
    obtain ⟨hdata, htook⟩ := hw.took
    refine ⟨?_, entry_setPte_self w _ hw.pde, fun d' x hor => ?_, hdata, htook.nspace, htook.free⟩
    · rw [← hw.entry, Vm.entry, Space.entry_of_pde hw.pde, hn]
    · rw [entry_setPte_of_ne w _ hor, hw.entry]

/-! ## `deallocuvm` -/

/-- The pages from `a` to `b` of directory `d` are gone. A page whose
contents changed was free, or was one of them. -/
structure Emptied (v v' : Vm) (d a b : Nat) : Prop where
  gone : ∀ x, a ≤ x → x < b → v'.entry d x = none
  other : ∀ d' x, d' ≠ d ∨ x < a ∨ b ≤ x → v'.entry d' x = v.entry d' x
  data : ∀ pg, v'.data pg = v.data pg ∨ pg ∈ v.freelist ∨
    ∃ x e, a ≤ x ∧ x < b ∧ v.entry d x = some e ∧ e.page = pg
  nspace : v'.nspace = v.nspace

theorem Emptied.of_none (h : ∀ x, a ≤ x → x < b → v.entry d x = none) : Emptied v v d a b :=
  ⟨h, fun _ _ _ => rfl, fun _ => .inl rfl, rfl⟩

theorem Emptied.skip {c : Nat} (h : Emptied v v' d c b) (hac : a ≤ c)
    (hn : ∀ x, a ≤ x → x < c → x < b → v.entry d x = none) : Emptied v v' d a b := by
  refine ⟨?_, ?_, ?_, h.nspace⟩
  · intro x hax hxb
    rcases Nat.lt_or_ge x c with hxc | hxc
    · rw [h.other d x (.inr (.inl hxc))]
      exact hn x hax hxc hxb
    · exact h.gone x hxc hxb
  · intro d' x hor
    exact h.other d' x (by omega)
  · intro pg
    rcases h.data pg with hd | hf | ⟨x, e, hcx, hxb, he⟩
    · exact .inl hd
    · exact .inr (.inl hf)
    · exact .inr (.inr ⟨x, e, by omega, hxb, he⟩)

theorem Emptied.cons (hab : a < b) (hpde : (v.space d).pde (a / nptentries) ≠ none)
    (he : v.entry d a = some e) (h : Emptied ((v.kfree e.page).setPte d a none) v' d (a + 1) b) :
    Emptied v v' d a b := by
  have hself : ((v.kfree e.page).setPte d a none).entry d a = none := entry_setPte_self _ _ hpde
  have hold : ∀ d' x, d' ≠ d ∨ x ≠ a →
      ((v.kfree e.page).setPte d a none).entry d' x = v.entry d' x := fun d' x hor =>
    entry_setPte_of_ne _ _ hor
  refine ⟨?_, ?_, ?_, h.nspace⟩
  · intro x hax hxb
    by_cases hxa : x = a
    · subst hxa
      rw [h.other d x (by omega), hself]
    · exact h.gone x (by omega) hxb
  · intro d' x hor
    rw [h.other d' x (by omega), hold d' x (by omega)]
  · intro pg
    by_cases hpg : pg = e.page
    · exact .inr (.inr ⟨a, e, Nat.le_refl a, hab, he, hpg.symm⟩)
    · have hkeep : ((v.kfree e.page).setPte d a none).data pg = v.data pg :=
        (data_kfree v e.page pg).resolve_right hpg
      rcases h.data pg with hd | hf | ⟨x, e', hax, hxb, he', hp'⟩
      · exact .inl (hd.trans hkeep)
      · exact .inr (.inl ((List.mem_cons.mp hf).resolve_left hpg))
      · rw [hold d x (.inr (by omega))] at he'
        exact .inr (.inr ⟨x, e', by omega, hxb, he', hp'⟩)

theorem emptied_sweep (n a : Nat) (v : Vm) (hn : b ≤ a + n) : Emptied v (sweep d a b v) d a b := by
  induction n generalizing a v with
  | zero =>
    rw [sweep_of_le (show b ≤ a from hn)]
    exact .of_none fun x h1 h2 => by omega
  | succ n ih =>
    rcases Nat.lt_or_ge a b with hab | hab
    · have hrest := ih (a + 1) (unmap d v a) (by omega)
      rw [sweep_of_lt hab]
      unfold unmap at hrest ⊢
      split at hrest
      · next he =>
        refine hrest.skip (by omega) fun x hx hxs _ => ?_
        obtain rfl : x = a := by omega
        exact he
      · next he => exact .cons hab (Space.entry_eq_some.mp he).1 he hrest
    · rw [sweep_of_le hab]
      exact .of_none fun x h1 h2 => by omega

/-- **`deallocuvm` empties an interval.** -/
theorem emptied_deallocuvm (v : Vm) (d oldsz newsz : Nat) :
    Emptied v (v.deallocuvm d oldsz newsz).2 d (npages newsz) (npages oldsz) := by
  rw [deallocuvm_eq]
  exact emptied_sweep (npages oldsz) _ _ (by omega)

theorem deallocuvm_space (v : Vm) (d oldsz newsz : Nat) :
    (∀ d₁, d₁ ≠ d → (v.deallocuvm d oldsz newsz).2.space d₁ = v.space d₁) ∧
      ∃ f, (v.deallocuvm d oldsz newsz).2.space d = { v.space d with pte := f } := by
  refine deallocuvm_rec (P := fun w => (∀ d₁, d₁ ≠ d → w.space d₁ = v.space d₁) ∧
    ∃ f, w.space d = { v.space d with pte := f }) ⟨fun _ _ => rfl, _, rfl⟩ fun w x _ hw => ?_
  unfold unmap
  split
  · exact hw
  · obtain ⟨hother, f, hf⟩ := hw
    refine ⟨fun d₁ hd => ?_, update f x none, ?_⟩
    · simpa only [setPte, setSpace, kfree, update_of_ne hd] using hother d₁ hd
    · simp only [setPte, setSpace, kfree, Space.setPte, update_self, hf]

/-! ## `allocuvm` -/

/-- The pages from `a` to `b` of directory `d` are new, user-writable and
zero. A page whose contents changed was free, and is zero. -/
structure Filled (v v' : Vm) (d a b : Nat) : Prop where
  was : ∀ x, a ≤ x → x < b → v.entry d x = none
  new : ∀ x, a ≤ x → x < b → ∃ e, v'.entry d x = some e ∧ e.w = true ∧ e.u = true ∧
    e.page ∈ v.freelist ∧ v'.data e.page = fun _ => 0
  other : ∀ d' x, d' ≠ d ∨ x < a ∨ b ≤ x → v'.entry d' x = v.entry d' x
  data : ∀ pg, v'.data pg = v.data pg ∨ (pg ∈ v.freelist ∧ v'.data pg = fun _ => 0)
  took : Took v v'

theorem Filled.refl (v : Vm) (d : Nat) (h : b ≤ a) : Filled v v d a b :=
  ⟨fun x _ _ => by omega, fun x _ _ => by omega, fun _ _ _ => rfl, fun _ => .inl rfl, .refl v⟩

/-- One round of `allocuvm`: a page is taken, cleared and mapped. -/
structure Mapped (v v' : Vm) (d x : Nat) (mem : Page) : Prop where
  was : v.entry d x = none
  new : v'.entry d x = some { page := mem, w := true, u := true }
  other : ∀ d' y, d' ≠ d ∨ y ≠ x → v'.entry d' y = v.entry d' y
  zero : v'.data mem = fun _ => 0
  data : ∀ pg, pg ≠ mem → v'.data pg = v.data pg
  mem : mem ∈ v.freelist
  took : Took v v'

theorem AllocRound.mapped (h : AllocRound d v x v') : ∃ mem, Mapped v v' d x mem := by
  obtain ⟨mem, l, hf, hp⟩ := h
  obtain ⟨hwas, hnew, hother, hdata, htook⟩ := mappages_entry hp
  refine ⟨mem, hwas, hnew, hother, ?_, ?_, ?_, htook.nspace, ?_⟩
  · rw [hdata]
    simp [zeroPage]
  · intro pg hpg
    rw [hdata]
    simp [zeroPage, hpg]
  · rw [hf]
    exact List.mem_cons_self
  · rw [hf]
    exact htook.free.trans (List.suffix_cons mem l)

theorem Filled.snoc {mem : Page} (hab : a ≤ b) (h : Filled v v₁ d a b)
    (hm : Mapped v₁ v' d b mem) : Filled v v' d a (b + 1) := by
  have hmem : mem ∈ v.freelist := h.took.free.subset hm.mem
  refine ⟨?_, ?_, ?_, ?_, h.took.trans hm.took⟩
  · intro x hax hxb
    by_cases hx : x = b
    · rw [hx, ← h.other d b (.inr (.inr (Nat.le_refl b)))]
      exact hm.was
    · exact h.was x hax (by omega)
  · intro x hax hxb
    by_cases hx : x = b
    · subst hx
      exact ⟨_, hm.new, rfl, rfl, hmem, hm.zero⟩
    · obtain ⟨e, he, hw, hu, hf, hz⟩ := h.new x hax (by omega)
      refine ⟨e, (hm.other d x (.inr hx)).trans he, hw, hu, hf, ?_⟩
      by_cases hpg : e.page = mem
      · exact hpg ▸ hm.zero
      · exact (hm.data _ hpg).trans hz
  · intro d' x hor
    rw [hm.other d' x (by omega), h.other d' x (by omega)]
  · intro pg
    by_cases hpg : pg = mem
    · exact .inr ⟨hpg ▸ hmem, hpg ▸ hm.zero⟩
    · rw [hm.data pg hpg]
      exact h.data pg

theorem filled_rounds (hr : Rounds (AllocRound d) a v b v') : Filled v v' d a b := by
  induction hr with
  | nil => exact .refl v d (Nat.le_refl a)
  | snoc hr hone ih =>
    obtain ⟨mem, hm⟩ := hone.mapped
    exact ih.snoc hr.le hm

theorem Emptied.of_filled (hxb : x ≤ b) (hf : Filled v v₁ d a x) (h : Emptied v₁ v' d a b) :
    Emptied v v' d a b := by
  refine ⟨h.gone, ?_, ?_, h.nspace.trans hf.took.nspace⟩
  · intro d' y hor
    rw [h.other d' y hor, hf.other d' y (by omega)]
  · intro pg
    rcases h.data pg with hd | hfree | ⟨y, e, hay, hyb, he, hpe⟩
    · rw [hd]
      exact (hf.data pg).imp id fun hp => .inl hp.1
    · exact .inr (.inl (hf.took.free.subset hfree))
    · by_cases hyx : y < x
      · obtain ⟨e', he', -, -, hmem, -⟩ := hf.new y hay hyx
        rw [he] at he'
        cases he'
        exact .inr (.inl (hpe ▸ hmem))
      · rw [hf.other d y (by omega)] at he
        exact .inr (.inr ⟨y, e, hay, hyb, he, hpe⟩)

theorem AllocFails.emptied (h : AllocFails d oldsz newsz v x v') :
    Emptied v v' d (npages oldsz) (npages newsz) := by
  cases h with
  | page => exact emptied_deallocuvm v d newsz oldsz
  | @table mem hf =>
    have h := emptied_deallocuvm ({ v with freelist := [] }.zeroPage mem) d newsz oldsz
    refine ⟨h.gone, h.other, fun pg => ?_, h.nspace⟩
    by_cases hpg : pg = mem
    · exact .inr (.inl (by simp [hf, hpg]))
    · have hd := h.data pg
      simp only [zeroPage, update_of_ne hpg, List.not_mem_nil, false_or] at hd
      rw [(data_kfree _ mem pg).resolve_right hpg]
      exact hd.imp id .inr

/-- **`allocuvm` fills an interval with zero pages, or leaves it empty.** -/
theorem allocuvm_entries {r : Nat} (hle : oldsz ≤ newsz) (hk : newsz < kernbase)
    (h : v.allocuvm d oldsz newsz = .ok (r, v')) :
    (r = newsz ∧ Filled v v' d (npages oldsz) (npages newsz)) ∨
    (r = 0 ∧ Emptied v v' d (npages oldsz) (npages newsz)) := by
  cases allocuvm_run h with
  | refused => omega
  | kept => omega
  | grown _ _ hr => exact .inl ⟨rfl, filled_rounds hr⟩
  | failed _ _ hx hr hfail => exact .inr ⟨rfl, hfail.emptied.of_filled hx.le (filled_rounds hr)⟩

theorem allocuvm_other {r : Nat} (hle : oldsz ≤ newsz) (hk : newsz < kernbase)
    (h : v.allocuvm d oldsz newsz = .ok (r, v')) (d' x : Nat)
    (hx : d' ≠ d ∨ x < npages oldsz ∨ npages newsz ≤ x) : v'.entry d' x = v.entry d' x := by
  obtain ⟨-, hf⟩ | ⟨-, he⟩ := allocuvm_entries hle hk h
  · exact hf.other d' x hx
  · exact he.other d' x hx

/-! ## `freevm` and `setupkvm` -/

theorem foldl_kfree_space (ps : List Page) (v : Vm) : (ps.foldl kfree v).space = v.space := by
  induction ps generalizing v with
  | nil => rfl
  | cons p ps ih =>
    rw [List.foldl_cons, ih]
    rfl

theorem freeTables_space (d : Nat) (v : Vm) : (freeTables d v).space = v.space := by
  unfold freeTables
  induction List.range (nptentries / 2) generalizing v with
  | nil => rfl
  | cons i is ih =>
    rw [List.foldl_cons, ih]
    split <;> rfl

theorem freevm_space (v : Vm) (d : Nat) :
    (v.freevm d).space = update (v.deallocuvm d kernbase 0).2.space d default := by
  simp only [freevm, setSpace, kfree, foldl_kfree_space, freeTables_space]

/-- **`freevm` removes the entries of one directory.** -/
theorem freevm_entry (v : Vm) (d d' x : Nat) :
    (v.freevm d).entry d' x = if d' = d then none else v.entry d' x := by
  rw [entry, freevm_space]
  split
  · next hd =>
    subst hd
    rw [update_self, Space.entry_default]
  rename_i hd
  rw [update_of_ne hd]
  exact (emptied_deallocuvm v d kernbase 0).other d' x (.inl hd)

theorem entry_withDir (v : Vm) (dir : Page) (l : List Page) (d x : Nat) :
    (v.withDir dir l).entry d x = if d = v.nspace then none else v.entry d x := by
  rw [entry, withDir_space]
  split
  · exact Space.entry_of_pde_none rfl
  · rfl

/-- A new directory, with the kernel half only. -/
structure NewDir (v v' : Vm) (d : Nat) : Prop where
  num : d = v.nspace
  empty : ∀ x, v'.entry d x = none
  other : ∀ d' x, d' ≠ d → v'.entry d' x = v.entry d' x
  data : v'.data = v.data
  nspace : v'.nspace = v.nspace + 1
  free : v'.freelist <:+ v.freelist

theorem newDir_setupkvm (h : v.setupkvm = (some d, v')) : NewDir v v' d := by
  obtain ⟨rfl, dir, l, hf, -, rfl⟩ := setupkvm_some h
  refine ⟨rfl, fun x => ?_, fun d' x hd => ?_, rfl, rfl, ?_⟩
  · rw [entry_withDir, if_pos rfl]
  · rw [entry_withDir, if_neg hd]
  · rw [hf]
    exact (List.drop_suffix _ l).trans (List.suffix_cons dir l)

theorem setupkvm_none_entry (h : v.setupkvm = (none, v')) (d x : Nat) (hd : d ≠ v.nspace) :
    v'.entry d x = v.entry d x := by
  obtain ⟨-, rfl⟩ | ⟨dir, l, -, -, rfl⟩ := setupkvm_none h
  · rfl
  · rw [freevm_entry, if_neg hd, entry_withDir, if_neg hd]

/-! ## `clearpteu` -/

/-- **`clearpteu` takes `PTE_U` off one entry**, if it is there. -/
theorem clearpteu_entry (h : v.clearpteu d vpn = .ok v') :
    v'.entry d vpn = (v.entry d vpn).map (fun e => { e with u := false }) ∧
    (∀ d' x, d' ≠ d ∨ x ≠ vpn → v'.entry d' x = v.entry d' x) ∧
    v'.data = v.data ∧ v'.nspace = v.nspace ∧ v'.freelist = v.freelist := by
  unfold clearpteu at h
  split at h
  · cases h
  rename_i p hp
  cases h
  have hpde : (v.space d).pde (vpn / nptentries) ≠ none := by simp [hp]
  refine ⟨?_, fun d' x hor => entry_setPte_of_ne v _ hor, rfl, rfl, rfl⟩
  rw [entry_setPte_self v _ hpde, entry, Space.entry_of_pde hpde]

end Vm

end Xv6.Mem
