/-
Xv6.Mem.Supply — how many pages an allocation takes, and what a user may
then write to.

`allocuvm` over pages of ONE page table takes a page for each of them and
one more if the table is missing; it fails exactly when the free list is
shorter. The pages it maps are user pages, so `copyout` to them succeeds.
-/
import Xv6.Mem.Entries

namespace Xv6.Mem

variable {va vpn x : Nat} {v' : Vm} {bytes : List UInt8}

namespace Vm

variable {v : Vm} {d : Nat}

/-- The page a missing table will cost. -/
def tableCost (v : Vm) (d pdx : Nat) : Nat := if (v.space d).pde pdx = none then 1 else 0

theorem tableCost_of_ne_none {d pdx : Nat} (h : (v.space d).pde pdx ≠ none) :
    v.tableCost d pdx = 0 := by
  rw [tableCost, if_neg h]

/-- The page is mapped, and user code may use it. -/
def UserPage (v : Vm) (d vpn : Nat) : Prop :=
  (v.space d).pde (vpn / nptentries) ≠ none ∧ ∃ e, (v.space d).pte vpn = some e ∧ e.u = true

theorem userPage_iff : v.UserPage d x ↔ ∃ e, v.entry d x = some e ∧ e.u = true := by
  simp only [UserPage, entry, Space.entry_eq_some]
  constructor
  · rintro ⟨h, e, h', hu⟩
    exact ⟨e, ⟨h, h'⟩, hu⟩
  · rintro ⟨e, h, hu⟩
    exact ⟨h.1, e, h.2, hu⟩

/-! ## `mappages` -/

theorem mappages_supply {e : Pte} (h : v.mappages d vpn e = .ok (true, v')) :
    v'.freelist.length + v.tableCost d (vpn / nptentries) = v.freelist.length ∧
    (v'.space d).pde (vpn / nptentries) ≠ none := by
  cases mappages_run h with
  | set hw =>
    refine ⟨?_, by simpa [setPte, setSpace, Space.setPte] using hw.pde⟩
    cases hw with
    | found hp => rw [tableCost_of_ne_none hp]; rfl
    | made hp hf => rw [tableCost, if_pos hp, hf]; rfl

/-! ## `allocuvm` within one table -/

theorem AllocRound.supply {v w : Vm} (h : AllocRound d v x w) :
    w.freelist.length + 1 + v.tableCost d (x / nptentries) = v.freelist.length ∧
    w.tableCost d (x / nptentries) = 0 := by
  obtain ⟨mem, l, hf, hp⟩ := h
  obtain ⟨hlen, hpde⟩ := mappages_supply hp
  have hlen' : w.freelist.length + v.tableCost d (x / nptentries) = l.length := hlen
  rw [hf, List.length_cons]
  exact ⟨by omega, tableCost_of_ne_none hpde⟩

section
variable {a b d oldsz newsz pdx : Nat} {v w : Vm}

theorem rounds_length (hr : Rounds (AllocRound d) a v b w) :
    w.freelist.length + (b - a) ≤ v.freelist.length := by
  induction hr with
  | nil => omega
  | snoc hr hone ih =>
    have := hone.supply.1
    have := hr.le
    omega

theorem rounds_supply (hpdx : ∀ x ∈ Set.Ico a b, x / nptentries = pdx)
    (hr : Rounds (AllocRound d) a v b w) :
    w.freelist.length + (b - a) + v.tableCost d pdx = v.freelist.length + w.tableCost d pdx ∧
    (a < b → w.tableCost d pdx = 0) := by
  induction hr with
  | nil => exact ⟨by omega, fun h => absurd h (Nat.lt_irrefl a)⟩
  | @snoc b w w' hr hone ih =>
    have hle := hr.le
    obtain ⟨hlen, hzero⟩ := hone.supply
    rw [hpdx b ⟨hle, Nat.lt_succ_self b⟩] at hlen hzero
    have hrest := (ih fun x hx => hpdx x ⟨hx.1, Nat.lt_succ_of_lt hx.2⟩).1
    exact ⟨by omega, fun _ => hzero⟩

theorem AllocFails.supply (hx : x / nptentries = pdx) (h : AllocFails d oldsz newsz w x v') :
    w.freelist.length ≤ w.tableCost d pdx := by
  cases h with
  | page hf => simp [hf]
  | table hf hpde => simp [hf, tableCost, ← hx, hpde]

theorem allocuvm_short (hlt : oldsz < newsz) (hk : newsz < kernbase)
    (hpdx : ∀ x ∈ Set.Ico (npages oldsz) (npages newsz), x / nptentries = pdx)
    (h : v.allocuvm d oldsz newsz = .ok (0, v')) :
    v.freelist.length < npages newsz - npages oldsz + v.tableCost d pdx := by
  cases allocuvm_run h with
  | refused => omega
  | kept => omega
  | grown => omega
  | failed _ _ hx hr hfail =>
    have hlen := (rounds_supply (fun y hy => hpdx y (Set.Ico_subset_Ico_right hx.le hy)) hr).1
    have := hfail.supply (hpdx _ ⟨hr.le, hx⟩)
    have := hr.le
    omega

theorem allocuvm_short_mapped (hlt : oldsz < newsz) (hk : newsz < kernbase)
    (hpdx : ∀ x ∈ Set.Ico (npages oldsz) (npages newsz), x / nptentries = pdx)
    (h : v.allocuvm d oldsz newsz = .ok (0, v')) (hx : x ∈ Set.Ico (npages oldsz) (npages newsz))
    (hm : x ∈ v.maps.mapped d) : v.freelist.length ≤ x - npages oldsz := by
  have hcost : v.tableCost d pdx = 0 :=
    tableCost_of_ne_none (hpdx x hx ▸ (mem_mapped.mp hm).1)
  cases allocuvm_run h with
  | refused => omega
  | kept => omega
  | grown => omega
  | @failed _ _ y _ _ hy hr hfail =>
    have hlen := (rounds_supply (fun z hz => hpdx z (Set.Ico_subset_Ico_right hy.le hz)) hr).1
    have := hfail.supply (hpdx _ ⟨hr.le, hy⟩)
    -- the rounds ended before `x`
    have hyx : y ≤ x := by
      by_contra hlt
      exact (hr.maps fun _ _ _ => AllocRound.maps).1 x ⟨hx.1, Nat.lt_of_not_le hlt⟩ hm
    have := hr.le
    omega

theorem allocuvm_error_supply {msg : String} (h : v.allocuvm d oldsz newsz = .error msg) :
    ∃ x ∈ Set.Ico (npages oldsz) (npages newsz),
      x ∈ v.maps.mapped d ∧ x - npages oldsz < v.freelist.length := by
  cases allocuvm_run h with
  | panic _ hx hr hp =>
    refine ⟨_, ⟨hr.le, hx⟩, hp.mem hr, ?_⟩
    have := rounds_length hr
    have := List.length_pos_iff.mpr hp.1
    omega

theorem allocuvm_supply {r : Nat} (hlt : npages oldsz < npages newsz)
    (hpdx : ∀ x ∈ Set.Ico (npages oldsz) (npages newsz), x / nptentries = pdx)
    (h : v.allocuvm d oldsz newsz = .ok (r, v')) (hr : r ≠ 0) :
    r = newsz ∧
    npages newsz - npages oldsz + v.tableCost d pdx + v'.freelist.length = v.freelist.length ∧
    ∀ x ∈ Set.Ico (npages oldsz) (npages newsz), v'.UserPage d x := by
  cases allocuvm_run h with
  | refused => exact absurd rfl hr
  | kept _ hlt' =>
    have := npages_mono hlt'.le
    omega
  | grown _ _ hrs =>
    obtain ⟨hlen, hzero⟩ := rounds_supply hpdx hrs
    refine ⟨rfl, by have := hzero hlt; omega, fun x hx => ?_⟩
    obtain ⟨e, he, -, hu, -⟩ := (filled_rounds hrs).new x hx.1 hx.2
    exact userPage_iff.mpr ⟨e, he, hu⟩
  | failed => exact absurd rfl hr

end

/-! ## `clearpteu` and `copyout` -/

theorem clearpteu_supply (h : v.clearpteu d vpn = .ok v') :
    v'.freelist = v.freelist ∧ ∀ x, x ≠ vpn → v.UserPage d x → v'.UserPage d x := by
  obtain ⟨-, hother, -, -, hf⟩ := clearpteu_entry h
  refine ⟨hf, fun x hx hu => ?_⟩
  rw [userPage_iff, hother d x (.inr hx)]
  exact userPage_iff.mp hu

theorem copyout_userPage (hva : va / pgsize < kernbase / pgsize)
    (hfit : va % pgsize + bytes.length ≤ pgsize) (hu : v.UserPage d (va / pgsize)) :
    ∃ v', v.copyout d va bytes = .ok (true, v') := by
  obtain ⟨hpde, e, hpte, heu⟩ := hu
  obtain ⟨tbl, htbl⟩ := Option.ne_none_iff_exists'.mp hpde
  unfold copyout
  cases hb : bytes with
  | nil => exact ⟨v, rfl⟩
  | cons x xs =>
    rw [← hb]
    have hne : bytes ≠ [] := by simp [hb]
    have huva : v.uva2ka d (va / pgsize) = .ok (some e.page) := by
      simp [uva2ka, hva, htbl, hpte, heu]
    have hmin : min (pgsize - va % pgsize) bytes.length = bytes.length := by omega
    have hlen : bytes.length = xs.length + 1 := by simp [hb]
    rw [hlen]
    unfold copyoutLoop
    simp only [hne, if_false, huva, hmin, List.drop_length]
    cases xs.length with
    | zero => exact ⟨_, rfl⟩
    | succ n =>
      unfold copyoutLoop
      simp only [if_true]
      exact ⟨_, rfl⟩

theorem copyout_kernel (hb : bytes ≠ []) (hk : kernbase / pgsize ≤ va / pgsize)
    (hm : kernelMapped (va / pgsize) = true) : v.copyout d va bytes = .ok (false, v) := by
  obtain ⟨x, xs, rfl⟩ := List.exists_cons_of_ne_nil hb
  have huva : v.uva2ka d (va / pgsize) = .ok none := by
    simp only [uva2ka, Nat.not_lt.mpr hk, if_false, hm, if_true]
  simp only [copyout, List.length_cons, copyoutLoop, hb, if_false, huva]

end Vm

end Xv6.Mem
