/-
Xv6.Mem.Maps — page directories as sets of mapped pages.

`Maps` is what the functions of `vm.c` are for: every directory maps a set
of user pages, a new directory maps none, and `freevm` is called on a
directory at most as often as `freed` lists it. `Vm.maps` reads a `Maps`
off the page tables. Each function of `vm.c` is then ONE operation on
sets: `deallocuvm` cuts an interval out, `allocuvm` fills one in or, when
it fails, cuts it out, `copyuvm` makes a directory with the parent's
pages. Tables that are missing, tables made on the way and the order of
the loops are gone.
-/
import Mathlib.Order.Interval.Set.LinearOrder
import Xv6.Mem.Rounds

namespace Xv6.Mem

open Function

variable {i : Int} {m' : Maps} {a b newsz oldsz r sz vpn x y : Nat} {o : Option Nat} {msg : String}
  {v v' w : Vm}

/-- The pages each directory maps, the number of directories made, and the
directories `freevm` was called on, the latest first. -/
@[ext] structure Maps where
  mapped : Nat → Set Nat
  nspace : Nat
  freed : List Nat

namespace Maps

/-- Map more pages. -/
def fill (m : Maps) (d : Nat) (S : Set Nat) : Maps :=
  { m with mapped := update m.mapped d (m.mapped d ∪ S) }

/-- Map fewer pages. -/
def cut (m : Maps) (d : Nat) (S : Set Nat) : Maps :=
  { m with mapped := update m.mapped d (m.mapped d \ S) }

/-- `freevm`. -/
def free (m : Maps) (d : Nat) : Maps :=
  { m with mapped := update m.mapped d ∅, freed := d :: m.freed }

/-- `setupkvm`; the new directory is number `nspace`. -/
def new (m : Maps) : Maps :=
  { m with mapped := update m.mapped m.nspace ∅, nspace := m.nspace + 1 }

section
variable (m : Maps) (d d' : Nat) (S T : Set Nat)

@[simp] theorem new_nspace : m.new.nspace = m.nspace + 1 := rfl
@[simp] theorem new_freed : m.new.freed = m.freed := rfl

@[simp] theorem mapped_fill_self : (m.fill d S).mapped d = m.mapped d ∪ S := by simp [fill]
@[simp] theorem mapped_cut_self : (m.cut d S).mapped d = m.mapped d \ S := by simp [cut]
@[simp] theorem mapped_new_self : m.new.mapped m.nspace = ∅ := by simp [new]

variable {d d'}

theorem mapped_fill_of_ne (h : d' ≠ d) : (m.fill d S).mapped d' = m.mapped d' := by
  simp [fill, h]

theorem mapped_cut_of_ne (h : d' ≠ d) : (m.cut d S).mapped d' = m.mapped d' := by
  simp [cut, h]

theorem mapped_free_of_ne (h : d' ≠ d) : (m.free d).mapped d' = m.mapped d' := by
  simp [free, h]

theorem mapped_new_of_ne (h : d' ≠ m.nspace) : m.new.mapped d' = m.mapped d' := by
  simp [new, h]

variable (d)

@[simp] theorem fill_empty : m.fill d ∅ = m := by simp [fill]

theorem fill_fill : (m.fill d S).fill d T = m.fill d (S ∪ T) := by
  simp [fill, Set.union_assoc]

theorem cut_congr {S T : Set Nat} (h : ∀ x ∈ m.mapped d, x ∈ S ↔ x ∈ T) :
    m.cut d S = m.cut d T := by
  have hs : m.mapped d \ S = m.mapped d \ T := by
    ext x
    simp only [Set.mem_sdiff]
    constructor
    · rintro ⟨hx, hn⟩
      exact ⟨hx, fun ht => hn ((h x hx).mpr ht)⟩
    · rintro ⟨hx, hn⟩
      exact ⟨hx, fun ht => hn ((h x hx).mp ht)⟩
  simp only [cut, hs]

theorem cut_of_disjoint {S : Set Nat} (h : ∀ x ∈ m.mapped d, x ∉ S) : m.cut d S = m := by
  rw [cut_congr m d (T := ∅) (fun x hx => by simp [h x hx])]
  simp [cut]

theorem cut_cut : (m.cut d S).cut d T = m.cut d (S ∪ T) := by
  simp [cut, Set.sdiff_sdiff]

theorem cut_fill {S T : Set Nat} (h : S ⊆ T) : (m.fill d S).cut d T = m.cut d T := by
  have hs : (m.mapped d ∪ S) \ T = m.mapped d \ T := by
    rw [Set.union_sdiff_distrib, Set.sdiff_eq_empty.mpr h, Set.union_empty]
  simp only [cut, fill, update_self, update_idem, hs]

@[simp] theorem free_fill : (m.fill d S).free d = m.free d := by simp [free, fill]
@[simp] theorem free_cut : (m.cut d S).free d = m.free d := by simp [free, cut]

end

end Maps

/-! ## Intervals of pages -/

theorem ico_succ_left (h : a < b) : Set.Ico a b = {a} ∪ Set.Ico (a + 1) b := by
  ext x
  simp only [Set.mem_Ico, Set.mem_union, Set.mem_singleton_iff]
  omega

namespace Vm

variable {d : Nat}

/-- The sets of mapped pages the page tables hold. -/
def maps (v : Vm) : Maps where
  mapped := fun d => {vpn | (v.space d).mapped vpn = true}
  nspace := v.nspace
  freed := v.freed

theorem mem_mapped : vpn ∈ v.maps.mapped d ↔
    (v.space d).pde (vpn / nptentries) ≠ none ∧ (v.space d).pte vpn ≠ none := by
  simp [maps, Space.mapped, Option.isSome_iff_ne_none]

/-! ## Page contents and the free list -/

@[simp] theorem maps_kfree (v : Vm) (p : Page) : (v.kfree p).maps = v.maps := rfl
@[simp] theorem maps_storeBytes (v : Vm) (p : Page) (off : Nat) (bytes : List UInt8) :
    (v.storeBytes p off bytes).maps = v.maps := rfl

theorem kalloc_eq {o : Option Page} (h : v.kalloc = (o, v')) :
    v'.space = v.space ∧ v'.maps = v.maps ∧
      (o = none → v.freelist = [] ∧ v' = v) ∧
      (∀ p, o = some p → v.freelist = p :: v'.freelist) := by
  cases o with
  | none =>
    obtain ⟨hf, rfl⟩ := kalloc_none h
    exact ⟨rfl, rfl, fun _ => ⟨hf, rfl⟩, fun p hp => by cases hp⟩
  | some p =>
    obtain ⟨l, hf, rfl⟩ := kalloc_some h
    exact ⟨rfl, rfl, fun hp => (by cases hp), fun q hq => by cases hq; exact hf⟩

theorem foldl_kfree_maps (ps : List Page) (v : Vm) : (ps.foldl kfree v).maps = v.maps := by
  induction ps generalizing v with
  | nil => rfl
  | cons p ps ih =>
    rw [List.foldl_cons, ih]
    rfl

/-! ## One entry -/

theorem maps_setSpace (v : Vm) (d : Nat) (s : Space) :
    (v.setSpace d s).maps
      = { v.maps with mapped := update v.maps.mapped d {vpn | s.mapped vpn = true} } := by
  ext d' x
  · by_cases hd : d' = d
    · subst hd
      simp [maps, setSpace]
    · simp [maps, setSpace, hd]
  all_goals rfl

theorem maps_setPte_none (v : Vm) (d vpn : Nat) :
    (v.setPte d vpn none).maps = v.maps.cut d {vpn} := by
  unfold setPte
  rw [maps_setSpace]
  have hs : {x | ((v.space d).setPte vpn none).mapped x = true} = v.maps.mapped d \ {vpn} := by
    ext x
    by_cases hx : x = vpn
    · subst hx
      simp [Space.setPte, Space.mapped]
    · simp [Space.setPte, Space.mapped, maps, hx]
  rw [hs]
  rfl

theorem maps_setPte_some (e : Pte) (h : (v.space d).pde (vpn / nptentries) ≠ none) :
    (v.setPte d vpn (some e)).maps = v.maps.fill d {vpn} := by
  unfold setPte
  rw [maps_setSpace]
  have hs : {x | ((v.space d).setPte vpn (some e)).mapped x = true} = v.maps.mapped d ∪ {vpn} := by
    ext x
    by_cases hx : x = vpn
    · subst hx
      simp [Space.setPte, Space.mapped, Option.isSome_iff_ne_none, h]
    · simp [Space.setPte, Space.mapped, maps, hx]
  rw [hs]
  rfl

theorem maps_addTable {d pdx : Nat} (p : Page) (h : (v.space d).pde pdx = none) :
    (v.setSpace d ((v.space d).addTable pdx p)).maps = v.maps := by
  rw [maps_setSpace]
  have hs : {x | ((v.space d).addTable pdx p).mapped x = true} = v.maps.mapped d := by
    ext x
    by_cases hx : x / nptentries = pdx
    · simp [Space.addTable, Space.mapped, maps, hx, h]
    · simp [Space.addTable, Space.mapped, maps, hx]
  rw [hs, update_eq_self]

theorem Walked.maps (h : Walked v d vpn w) : w.maps = v.maps := by
  cases h with
  | found => rfl
  | @made p l hp => exact maps_addTable (v := { v with freelist := l }) p hp

theorem mappages_maps {e : Pte} (h : v.mappages d vpn e = .ok (true, v')) :
    vpn ∉ v.maps.mapped d ∧ v'.maps = v.maps.fill d {vpn} := by
  cases mappages_run h with
  | set hw hn =>
    rw [← hw.maps, mem_mapped, maps_setPte_some e hw.pde]
    exact ⟨fun hm => hm.2 hn, rfl⟩

/-! ## `deallocuvm` -/

/-- What the loop does to one page, looked at on its own. -/
def unmap (d : Nat) (v : Vm) (vpn : Nat) : Vm :=
  match (v.space d).entry vpn with
  | none => v
  | some e => (v.kfree e.page).setPte d vpn none

/-- The loop that looks at every page from `a` to `b`. -/
def sweep (d a b : Nat) (v : Vm) : Vm := (List.range' a (b - a)).foldl (unmap d) v

theorem sweep_of_le (h : b ≤ a) (v : Vm) : sweep d a b v = v := by
  rw [sweep, Nat.sub_eq_zero_of_le h]
  rfl

theorem sweep_of_lt (h : a < b) (v : Vm) : sweep d a b v = sweep d (a + 1) b (unmap d v a) := by
  rw [sweep, show b - a = (b - (a + 1)) + 1 by omega, List.range'_succ]
  rfl

theorem sweep_skip (hpde : (v.space d).pde (a / nptentries) = none) (b : Nat) :
    sweep d a b v = sweep d ((a / nptentries + 1) * nptentries) b v := by
  have hnext : a < (a / nptentries + 1) * nptentries := by
    simp only [nptentries]
    omega
  have hto : ∀ k, a ≤ k → k ≤ (a / nptentries + 1) * nptentries →
      sweep d a b v = sweep d k b v := by
    intro k hk
    induction k, hk using Nat.le_induction with
    | base => exact fun _ => rfl
    | succ k hk ih =>
      intro hlt
      rw [ih (by omega)]
      have hsame : k / nptentries = a / nptentries := by
        simp only [nptentries] at hlt ⊢
        omega
      rcases Nat.lt_or_ge k b with hkb | hkb
      · rw [sweep_of_lt hkb]
        simp [unmap, Space.entry, hsame, hpde]
      · rw [sweep_of_le hkb, sweep_of_le (by omega)]
  exact hto _ (by omega) le_rfl

theorem unmap_of_pde {p : Page} (hpde : (v.space d).pde (vpn / nptentries) = some p) :
    unmap d v vpn = match (v.space d).pte vpn with
      | none => v
      | some e => (v.kfree e.page).setPte d vpn none := by
  simp [unmap, Space.entry, hpde]

theorem deallocLoop_eq (fuel vpn : Nat) (v : Vm) (hf : npages oldsz ≤ vpn + fuel) :
    deallocLoop d oldsz fuel vpn v = sweep d vpn (npages oldsz) v := by
  induction fuel generalizing vpn v with
  | zero => exact (sweep_of_le hf v).symm
  | succ fuel ih =>
    unfold deallocLoop
    split
    · next hlt =>
      split
      · next hpde =>
        have : vpn < (vpn / nptentries + 1) * nptentries := by
          simp only [nptentries]
          omega
        rw [ih _ _ (by omega), sweep_skip hpde]
      · next hpde =>
        rw [sweep_of_lt ((lt_npages_iff vpn oldsz).mpr hlt), unmap_of_pde hpde]
        cases (v.space d).pte vpn with
        | none => exact ih (vpn + 1) _ (by omega)
        | some e => exact ih (vpn + 1) _ (by omega)
    · next hge => exact (sweep_of_le (Nat.le_of_not_lt (mt (lt_npages_iff _ _).mp hge)) v).symm

theorem deallocuvm_eq (v : Vm) (d oldsz newsz : Nat) :
    (v.deallocuvm d oldsz newsz).2 = sweep d (npages newsz) (npages oldsz) v := by
  unfold deallocuvm
  split
  · next hle => exact (sweep_of_le (npages_mono hle) v).symm
  · exact deallocLoop_eq _ _ _ (by omega)

/-- What holds before and is kept for every page of the range holds after
`deallocuvm`. -/
theorem deallocuvm_rec {P : Vm → Prop} (h : P v)
    (hstep : ∀ w x, x < npages oldsz → P w → P (unmap d w x)) :
    P (v.deallocuvm d oldsz newsz).2 := by
  rw [deallocuvm_eq]
  refine List.foldlRecOn _ _ h fun w hw x hx => hstep w x ?_ hw
  have := List.mem_range'_1.mp hx
  omega

theorem maps_unmap (d : Nat) (v : Vm) (vpn : Nat) :
    (unmap d v vpn).maps = v.maps.cut d {vpn} := by
  unfold unmap
  split
  · next he =>
    refine (Maps.cut_of_disjoint _ _ ?_).symm
    rintro x hx rfl
    obtain ⟨hpde, hpte⟩ := mem_mapped.mp hx
    obtain ⟨p, hp⟩ := Option.ne_none_iff_exists'.mp hpde
    exact hpte (by simpa [Space.entry, hp] using he)
  · rw [maps_setPte_none, maps_kfree]

theorem maps_sweep_of_le (h : b ≤ a) (v : Vm) :
    (sweep d a b v).maps = v.maps.cut d (Set.Ico a b) := by
  rw [sweep_of_le h, Set.Ico_eq_empty (Nat.not_lt.mpr h),
    Maps.cut_of_disjoint _ _ fun _ _ => Set.notMem_empty _]

theorem maps_sweep (n a : Nat) (v : Vm) (hn : b ≤ a + n) :
    (sweep d a b v).maps = v.maps.cut d (Set.Ico a b) := by
  induction n generalizing a v with
  | zero => exact maps_sweep_of_le hn v
  | succ n ih =>
    rcases Nat.lt_or_ge a b with hab | hab
    · rw [sweep_of_lt hab, ih _ _ (by omega), maps_unmap, Maps.cut_cut, ← ico_succ_left hab]
    · exact maps_sweep_of_le hab v

/-- **`deallocuvm` cuts an interval out.** -/
theorem maps_deallocuvm (v : Vm) (d oldsz newsz : Nat) :
    (v.deallocuvm d oldsz newsz).2.maps
      = v.maps.cut d (Set.Ico (npages newsz) (npages oldsz)) := by
  rw [deallocuvm_eq, maps_sweep (npages oldsz) _ _ (by omega)]

theorem deallocuvm_fst (v : Vm) (d oldsz newsz : Nat) :
    (v.deallocuvm d oldsz newsz).1 = if oldsz ≤ newsz then oldsz else newsz := by
  unfold deallocuvm
  split <;> rfl

/-! ## `allocuvm` -/

theorem ico_succ_right (h : a ≤ b) : Set.Ico a (b + 1) = Set.Ico a b ∪ {b} := by
  ext x
  simp only [Set.mem_Ico, Set.mem_union, Set.mem_singleton_iff]
  omega

theorem Rounds.maps {R : Vm → Nat → Vm → Prop}
    (hR : ∀ u x u', R u x u' → x ∉ u.maps.mapped d ∧ u'.maps = u.maps.fill d {x})
    (hr : Rounds R a v b w) :
    (∀ x ∈ Set.Ico a b, x ∉ v.maps.mapped d) ∧ w.maps = v.maps.fill d (Set.Ico a b) := by
  induction hr with
  | nil => simp
  | snoc hr hone ih =>
    obtain ⟨hnot, hfill⟩ := hR _ _ _ hone
    obtain ⟨ihnot, ihfill⟩ := ih
    rw [ico_succ_right hr.le, hfill, ihfill, Maps.fill_fill]
    refine ⟨?_, rfl⟩
    rintro x (hx | rfl)
    · exact ihnot x hx
    · rw [ihfill, Maps.mapped_fill_self] at hnot
      exact fun hm => hnot (.inl hm)

theorem AllocRound.maps (h : AllocRound d v x w) :
    x ∉ v.maps.mapped d ∧ w.maps = v.maps.fill d {x} := by
  obtain ⟨mem, l, -, hp⟩ := h
  have hm := mappages_maps hp
  exact hm

/-- What `allocuvm` returns and does. -/
inductive Allocated (m : Maps) (d oldsz newsz : Nat) : Nat → Maps → Prop
  | refused : kernbase ≤ newsz → Allocated m d oldsz newsz 0 m
  | kept : newsz < oldsz → Allocated m d oldsz newsz oldsz m
  | grown : oldsz ≤ newsz → newsz < kernbase →
      (∀ x ∈ Set.Ico (npages oldsz) (npages newsz), x ∉ m.mapped d) →
      Allocated m d oldsz newsz newsz (m.fill d (Set.Ico (npages oldsz) (npages newsz)))
  | failed : oldsz ≤ newsz → newsz < kernbase →
      Allocated m d oldsz newsz 0 (m.cut d (Set.Ico (npages oldsz) (npages newsz)))

theorem Allocated.of_le {m : Maps} (h : Allocated m d oldsz newsz r m')
    (hle : oldsz ≤ newsz) (hk : newsz < kernbase) :
    (r = newsz ∧ (∀ x ∈ Set.Ico (npages oldsz) (npages newsz), x ∉ m.mapped d) ∧
      m' = m.fill d (Set.Ico (npages oldsz) (npages newsz))) ∨
    (r = 0 ∧ m' = m.cut d (Set.Ico (npages oldsz) (npages newsz))) := by
  cases h with
  | refused hk' => omega
  | kept hlt => omega
  | grown _ _ hfree => exact .inl ⟨rfl, hfree, rfl⟩
  | failed => exact .inr ⟨rfl, rfl⟩

theorem Allocated.free {m : Maps} (h : Allocated m d oldsz newsz r m') : m'.free d = m.free d := by
  cases h with
  | refused => rfl
  | kept => rfl
  | grown => exact Maps.free_fill m d _
  | failed => exact Maps.free_cut m d _

theorem Allocated.of_ne_zero {m : Maps} (h : Allocated m d oldsz newsz r m') (hr : r ≠ 0) :
    (r = oldsz ∧ newsz < oldsz ∧ m' = m) ∨
    (r = newsz ∧ oldsz ≤ newsz ∧ newsz < kernbase ∧
      m' = m.fill d (Set.Ico (npages oldsz) (npages newsz))) := by
  cases h with
  | refused => exact absurd rfl hr
  | kept hlt => exact .inl ⟨rfl, hlt, rfl⟩
  | grown hle hk => exact .inr ⟨rfl, hle, hk, rfl⟩
  | failed => exact absurd rfl hr

/-- **`allocuvm` fills an interval in, or leaves nothing in it.** -/
theorem allocated (h : v.allocuvm d oldsz newsz = .ok (r, v')) :
    Allocated v.maps d oldsz newsz r v'.maps := by
  cases allocuvm_run h with
  | refused hk => exact .refused hk
  | kept _ hlt => exact .kept hlt
  | grown hle hk hr =>
    obtain ⟨hfree, hfill⟩ := hr.maps fun _ _ _ => AllocRound.maps
    rw [hfill]
    exact .grown hle hk hfree
  | @failed _ w x hle hk hx hr hfail =>
    have hcut : v'.maps = w.maps.cut d (Set.Ico (npages oldsz) (npages newsz)) := by
      cases hfail with
      | page => exact maps_deallocuvm ..
      | table =>
        rw [maps_kfree, maps_deallocuvm]
        rfl
    rw [hcut, (hr.maps fun _ _ _ => AllocRound.maps).2,
      Maps.cut_fill _ _ (Set.Ico_subset_Ico_right hx.le)]
    exact .failed hle hk

theorem AllocPanics.mem (hp : AllocPanics d w x msg) (hr : Rounds (AllocRound d) a v x w)
    : x ∈ v.maps.mapped d := by
  have hmem : x ∈ w.maps.mapped d := hp.2.1
  rw [(hr.maps fun _ _ _ => AllocRound.maps).2, Maps.mapped_fill_self] at hmem
  exact hmem.resolve_right fun hm => Nat.lt_irrefl x hm.2

theorem allocuvm_error (h : v.allocuvm d oldsz newsz = .error msg) :
    msg = "remap" ∧ newsz < kernbase ∧
      ∃ x ∈ Set.Ico (npages oldsz) (npages newsz), x ∈ v.maps.mapped d := by
  cases allocuvm_run h with
  | panic hk hx hr hp => exact ⟨hp.2.2, hk, _, ⟨hr.le, hx⟩, hp.mem hr⟩

/-! ## `freevm` and `setupkvm` -/

theorem maps_freeTables (d : Nat) (v : Vm) : (freeTables d v).maps = v.maps := by
  unfold freeTables
  induction List.range (nptentries / 2) generalizing v with
  | nil => rfl
  | cons i is ih =>
    rw [List.foldl_cons, ih]
    split <;> rfl

/-- **`freevm` leaves nothing mapped.** -/
theorem maps_freevm (v : Vm) (d : Nat) : (v.freevm d).maps = v.maps.free d := by
  have hm : ∀ (w : Vm) (l : List Nat), ({ w.setSpace d default with freed := l }).maps
      = { mapped := update w.maps.mapped d ∅, nspace := w.nspace, freed := l } := by
    intro w l
    have hs := maps_setSpace w d default
    have he : {vpn | (default : Space).mapped vpn = true} = ∅ := by
      ext x
      simp [Space.mapped, default]
    rw [he] at hs
    ext d' x
    · exact Set.ext_iff.mp (congrFun (congrArg Maps.mapped hs) d') x
    all_goals rfl
  unfold freevm
  simp only [hm]
  generalize hw : ((((v.deallocuvm d kernbase 0).2.freeTables d).space d).kpt.foldl kfree
    ((v.deallocuvm d kernbase 0).2.freeTables d)) = w
  have hmaps : w.maps = v.maps.cut d (Set.Ico (npages 0) (npages kernbase)) := by
    rw [← hw, foldl_kfree_maps, maps_freeTables, maps_deallocuvm]
  have hcut := Maps.free_cut v.maps d (Set.Ico (npages 0) (npages kernbase))
  rw [← hmaps] at hcut
  exact hcut

theorem maps_withDir (v : Vm) (dir : Page) (l : List Page) :
    (v.withDir dir l).maps = v.maps.new := by
  ext d x
  · by_cases hd : d = v.nspace
    · subst hd
      simp [maps, withDir, Maps.new, Space.mapped, default]
    · simp [maps, withDir, Maps.new, hd]
  all_goals rfl

/-- What `setupkvm` returns and does. -/
inductive SetUp (m : Maps) : Option Nat → Maps → Prop
  | done : SetUp m (some m.nspace) m.new
  | nothing : SetUp m none m
  | undone : SetUp m none (m.new.free m.nspace)

theorem setUp (h : v.setupkvm = (o, v')) : SetUp v.maps o v'.maps := by
  cases o with
  | some d =>
    obtain ⟨rfl, dir, l, -, -, rfl⟩ := setupkvm_some h
    rw [maps_withDir]
    exact .done
  | none =>
    obtain ⟨-, rfl⟩ | ⟨dir, l, -, -, rfl⟩ := setupkvm_none h
    · exact .nothing
    · rw [maps_freevm, maps_withDir]
      exact .undone

/-! ## `copyuvm` -/

theorem CopyRound.maps {d d' : Nat} (h : CopyRound d d' x v y w) :
    y ∉ v.maps.mapped d' ∧ w.maps = v.maps.fill d' {y} := by
  obtain ⟨e, mem, l, -, -, hp⟩ := h
  have hm := mappages_maps hp
  exact hm

theorem CopyStops.maps_eq (h : CopyStops d v y w) : w.maps = v.maps := by
  simp only [maps, h.space, h.counts]

theorem heap_maps {v₁ : Vm} {d d' n : Nat} (hs : v.setupkvm = (some d', v₁))
    (hr : Rounds (HeapRound d d') 0 v₁ n w) :
    d' = v.nspace ∧ w.maps = v.maps.new.fill v.nspace (Set.Ico 0 n) := by
  obtain ⟨rfl, dir, l, -, -, rfl⟩ := setupkvm_some hs
  exact ⟨rfl, (maps_withDir v dir l) ▸ (hr.maps fun _ _ _ => CopyRound.maps).2⟩

/-- What `copyuvm` returns and does. -/
inductive Copied (m : Maps) (sz : Nat) : Option Nat → Maps → Prop
  | done : Copied m sz (some m.nspace)
      (m.new.fill m.nspace (Set.Ico 0 (npages sz) ∪ {stackPage 0}))
  | nothing : Copied m sz none m
  | undone : Copied m sz none (m.new.free m.nspace)

/-- **`copyuvm` makes a directory with the parent's pages.** -/
theorem copied (h : v.copyuvm d sz i = .ok (o, v')) : Copied v.maps sz o v'.maps := by
  cases copyuvm_run h with
  | nothing hs =>
    have hup := setUp hs
    generalize v'.maps = m₁ at hup
    cases hup with
    | nothing => exact .nothing
    | undone => exact .undone
  | heap hs _ hr hstop =>
    obtain ⟨rfl, hm⟩ := heap_maps hs hr
    rw [maps_freevm, hstop.1.maps_eq, hm, Maps.free_fill]
    exact .undone
  | stack hs hr hstop =>
    obtain ⟨rfl, hm⟩ := heap_maps hs hr
    rw [maps_freevm, hstop.maps_eq, hm, Maps.free_fill]
    exact .undone
  | done hs hr hst =>
    obtain ⟨rfl, hm⟩ := heap_maps hs hr
    rw [hst.maps.2, hm, Maps.fill_fill]
    exact .done

/-- `copyuvm` panics only over a parent's page that is not mapped, or when
the heap reaches the stack. -/
theorem copyuvm_error (hd : d < v.nspace) (h : v.copyuvm d sz i = .error msg) :
    (∃ x < npages sz, x ∉ v.maps.mapped d) ∨ stackPage i ∉ v.maps.mapped d ∨
      stackPage 0 < npages sz := by
  have hne : d ≠ v.maps.nspace := Nat.ne_of_lt hd
  -- what the panic says of the state it happens in, said of `v`
  have hpanic : ∀ {d' n x y v₁ w}, v.setupkvm = (some d', v₁) → Rounds (HeapRound d d') 0 v₁ n w →
      CopyPanics d d' x w y msg → x ∉ v.maps.mapped d ∨ y < n := by
    intro d' n x y v₁ w hs hr hp
    obtain ⟨rfl, hm⟩ := heap_maps hs hr
    have hself : w.maps.mapped v.nspace = Set.Ico 0 n := by
      rw [hm]
      exact (Maps.mapped_fill_self ..).trans (by simp [Maps.new, maps])
    have hother : w.maps.mapped d = v.maps.mapped d := by
      rw [hm]
      exact (Maps.mapped_fill_of_ne _ _ hne).trans (Maps.mapped_new_of_ne _ hne)
    refine hp.imp (fun hx => ?_) fun hy => ?_
    · rw [← hother]
      exact Bool.eq_false_iff.mp hx.1
    · exact (hself ▸ (show y ∈ w.maps.mapped v.nspace from hy.1) : y ∈ Set.Ico 0 n).2
  cases copyuvm_run h with
  | heapPanic hs hx hr hp =>
    exact .inl ⟨_, hx, (hpanic hs hr hp).resolve_right (Nat.lt_irrefl _)⟩
  | stackPanic hs hr hp => exact .inr (hpanic hs hr hp)

/-! ## The rest of `vm.c` -/

theorem clearpteu_ok (h : v.clearpteu d vpn = .ok v') : v'.maps = v.maps := by
  unfold clearpteu at h
  split at h
  · cases h
  · cases h
    unfold setPte
    rw [maps_setSpace]
    have hs : {x | ((v.space d).setPte vpn (((v.space d).pte vpn).map
        fun e => { e with u := false })).mapped x = true} = v.maps.mapped d := by
      ext x
      by_cases hx : x = vpn
      · subst hx
        simp [Space.setPte, Space.mapped, maps]
      · simp [Space.setPte, Space.mapped, maps, hx]
    rw [hs, update_eq_self]

theorem inituvm_maps {init : List UInt8} (h : v.inituvm d init = .ok v') :
    v'.maps.nspace = v.maps.nspace ∧ v'.maps.freed = v.maps.freed := by
  unfold inituvm at h
  split at h
  · cases h
  · split at h
    · cases h
    rename_i mem v₁ hk
    have hm := (kalloc_eq hk).2.1
    split at h
    · cases h
    rename_i b v₂ hp
    cases h
    rw [maps_storeBytes, ← hm]
    cases b with
    | true =>
      rw [(mappages_maps hp).2]
      exact ⟨rfl, rfl⟩
    | false =>
      cases mappages_run hp
      exact ⟨rfl, rfl⟩

theorem copyoutLoop_maps (fuel va : Nat) (bytes : List UInt8) {b : Bool}
    (h : copyoutLoop d fuel va bytes v = .ok (b, v')) : v'.maps = v.maps := by
  induction fuel generalizing va bytes v with
  | zero =>
    cases h
    rfl
  | succ fuel ih =>
    unfold copyoutLoop at h
    split at h
    · cases h
      rfl
    · split at h
      · cases h
      · cases h
        rfl
      · rw [ih _ _ h, maps_storeBytes]

theorem copyout_maps {d va : Nat} {bytes : List UInt8} {b : Bool}
    (h : v.copyout d va bytes = .ok (b, v')) : v'.maps = v.maps :=
  copyoutLoop_maps _ _ _ h

end Vm

end Xv6.Mem
