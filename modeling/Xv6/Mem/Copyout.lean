/-
Xv6.Mem.Copyout — `copyout` writes exactly its range, where the page
tables exist.

`loc` is where an address of a directory is in physical memory. A round of
the loop writes one stretch of a page; the loop as a whole writes the bytes
of the buffer at the places of its addresses (`copyoutLoop_ok`), up to the
first page that is not accessible to the user (`copyoutLoop_stops`). There
the answer is -1 if the page table exists. If it does not, `uva2ka` reads
through the null pointer that `walkpgdir` returned.

`Exact` is what `copyout` is for. `copyout_exact` says when it does it:
every page it comes to has a page table, and no two bytes of the buffer
that differ are for the same place in memory.
-/
import Xv6.Mem.CopyTheorems
import Xv6.Mem.Supply
import Mathlib.Data.Nat.Find

namespace Xv6.Mem

variable {x : Nat}

namespace Vm

variable {v v' : Vm} {d va : Nat} {bytes : List UInt8}

/-- The place of a user address in physical memory. -/
def loc (v : Vm) (d a : Nat) : Option (Page × Nat) :=
  (v.entry d (a / pgsize)).map fun e => (e.page, a % pgsize)

/-- The page of the `i`-th address from `va` on is there for the user. -/
def Reaches (v : Vm) (d va i : Nat) : Prop := v.UserPage d ((va + i) / pgsize)

/-- The whole range is there for the user. -/
def Accessible (v : Vm) (d va len : Nat) : Prop := ∀ i < len, v.Reaches d va i

/-- **What `copyout` should do**: it returns, 0 if and only if the range is
accessible, and then the range holds the bytes and nothing else changed. -/
def Exact (v : Vm) (d va : Nat) (bytes : List UInt8) : Prop :=
  ∃ b v', v.copyout d va bytes = .ok (b, v') ∧
    (b = true ↔ v.Accessible d va bytes.length) ∧
    (b = true → v' = { v with data := v'.data } ∧
      (∀ i, i < bytes.length → v'.read d (va + i) = bytes[i]?) ∧
      ∀ p off, (∀ i, i < bytes.length → v.loc d (va + i) ≠ some (p, off)) →
        v'.data p off = v.data p off)

/-- Every page that `copyout` comes to has a page table. -/
def Tabled (v : Vm) (d va len : Nat) : Prop :=
  ∀ i < len, (∀ j < i, v.Reaches d va j) →
    (v.space d).pde ((va + i) / pgsize / nptentries) ≠ none

/-- Bytes for the same place are the same. -/
def Consistent (v : Vm) (d va : Nat) (bytes : List UInt8) : Prop :=
  ∀ i j, i < bytes.length → j < bytes.length → v.loc d (va + i) = v.loc d (va + j) →
    bytes[i]? = bytes[j]?

/-! ## One round -/

theorem read_eq (v : Vm) (d a : Nat) :
    v.read d a = (v.loc d a).map fun l => v.data l.1 l.2 := by
  rw [read, loc, Option.map_map]
  rfl

theorem loc_of_space (h : v'.space = v.space) (a : Nat) : v'.loc d a = v.loc d a := by
  rw [loc, loc, entry_of_space h]

theorem userPage_of_space (h : v'.space = v.space) (x : Nat) :
    v'.UserPage d x ↔ v.UserPage d x := by
  rw [UserPage, UserPage, h]

theorem uva2ka_userPage (hx : x < kernbase / pgsize) (h : v.UserPage d x) :
    ∃ e, v.entry d x = some e ∧ v.uva2ka d x = .ok (some e.page) := by
  obtain ⟨hpde, e, hpte, hu⟩ := h
  obtain ⟨tbl, htbl⟩ := Option.ne_none_iff_exists'.mp hpde
  refine ⟨e, Space.entry_eq_some.mpr ⟨hpde, hpte⟩, ?_⟩
  simp [uva2ka, hx, htbl, hpte, hu]

theorem uva2ka_null (hx : x < kernbase / pgsize) (h : (v.space d).pde (x / nptentries) = none) :
    v.uva2ka d x = .error "uva2ka: null pte" := by
  simp [uva2ka, hx, h]

theorem uva2ka_refused (hx : x < kernbase / pgsize) (h : (v.space d).pde (x / nptentries) ≠ none)
    (hu : ¬ v.UserPage d x) : v.uva2ka d x = .ok none := by
  obtain ⟨tbl, htbl⟩ := Option.ne_none_iff_exists'.mp h
  cases hpte : (v.space d).pte x with
  | none => simp [uva2ka, hx, htbl, hpte]
  | some e =>
    have heu : e.u = false := by
      by_contra htrue
      exact hu ⟨h, e, hpte, by simpa using htrue⟩
    simp [uva2ka, hx, htbl, hpte, heu]

theorem data_storeBytes (v : Vm) (p q : Page) (off k : Nat) (bytes : List UInt8) :
    (v.storeBytes p off bytes).data q k =
      if q = p ∧ off ≤ k then (bytes[k - off]?).getD (v.data q k) else v.data q k := by
  by_cases hq : q = p
  · subst hq
    simp [storeBytes]
  · simp [storeBytes, hq]

theorem page_of_chunk {i : Nat} (hi : i < pgsize - va % pgsize) :
    (va + i) / pgsize = va / pgsize ∧ (va + i) % pgsize = va % pgsize + i := by
  simp only [pgsize] at *
  omega

theorem next_va (h : pgsize - va % pgsize < bytes.length) (hk : va + bytes.length ≤ kernbase) :
    toU32 (pgrounddown va + pgsize) = va + (pgsize - va % pgsize) := by
  simp only [toU32, pgrounddown, pgsize, kernbase] at *
  omega

theorem va_lt (h : bytes ≠ []) (hk : va + bytes.length ≤ kernbase) :
    va / pgsize < kernbase / pgsize := by
  have := List.length_pos_iff.mpr h
  simp only [pgsize, kernbase] at *
  omega

theorem copyoutLoop_succ {e : Pte} (fuel : Nat) (hb : bytes ≠ [])
    (hua : v.uva2ka d (va / pgsize) = .ok (some e.page)) :
    copyoutLoop d (fuel + 1) va bytes v =
      copyoutLoop d fuel (toU32 (pgrounddown va + pgsize))
        (bytes.drop (pgsize - va % pgsize))
        (v.storeBytes e.page (va % pgsize) (bytes.take (pgsize - va % pgsize))) := by
  have hdrop : bytes.drop (min (pgsize - va % pgsize) bytes.length) =
      bytes.drop (pgsize - va % pgsize) := by
    rcases Nat.le_total (pgsize - va % pgsize) bytes.length with h | h
    · rw [Nat.min_eq_left h]
    · rw [Nat.min_eq_right h, List.drop_length, List.drop_eq_nil_of_le h]
  have htake : bytes.take (min (pgsize - va % pgsize) bytes.length) =
      bytes.take (pgsize - va % pgsize) := by
    rw [← List.take_take, List.take_length]
  rw [copyoutLoop, if_neg hb, hua]
  simp only [hdrop, htake]

theorem copyoutLoop_nil (d fuel va : Nat) (v : Vm) :
    copyoutLoop d fuel va [] v = .ok (true, v) := by
  cases fuel with
  | zero => rfl
  | succ fuel => simp [copyoutLoop]

theorem data_round {e : Pte} (he : v.entry d (va / pgsize) = some e) (p : Page) (off : Nat) :
    (∀ i, i < bytes.length → i < pgsize - va % pgsize → v.loc d (va + i) = some (p, off) →
      some ((v.storeBytes e.page (va % pgsize) (bytes.take (pgsize - va % pgsize))).data p off)
        = bytes[i]?) ∧
    ((∀ i, i < bytes.length → i < pgsize - va % pgsize → v.loc d (va + i) ≠ some (p, off)) →
      (v.storeBytes e.page (va % pgsize) (bytes.take (pgsize - va % pgsize))).data p off
        = v.data p off) := by
  have hloc : ∀ i, i < pgsize - va % pgsize →
      v.loc d (va + i) = some (e.page, va % pgsize + i) := by
    intro i hi
    obtain ⟨h1, h2⟩ := page_of_chunk hi
    rw [loc, h1, h2, he]
    rfl
  rw [data_storeBytes]
  constructor
  · intro i hlen hi heq
    rw [hloc i hi, Option.some.injEq, Prod.mk.injEq] at heq
    obtain ⟨rfl, rfl⟩ := heq
    rw [if_pos ⟨rfl, Nat.le_add_right _ _⟩, Nat.add_sub_cancel_left, List.getElem?_take_of_lt hi,
      List.getElem?_eq_getElem hlen]
    rfl
  · intro hno
    split
    · next hin =>
      obtain ⟨rfl, hle⟩ := hin
      -- past the end of the stretch
      have hge : (bytes.take (pgsize - va % pgsize)).length ≤ off - va % pgsize := by
        by_contra hlt
        rw [List.length_take] at hlt
        refine hno (off - va % pgsize) (by omega) (by omega) ?_
        rw [hloc _ (by omega), Nat.add_sub_cancel' hle]
      rw [List.getElem?_eq_none hge]
      rfl
    · rfl

/-! ## The loop -/

section
variable (fuel : Nat) (hfuel : bytes.length ≤ fuel) (hk : va + bytes.length ≤ kernbase)
include fuel hfuel hk

theorem copyoutLoop_ok (hacc : v.Accessible d va bytes.length) :
    ∃ v', copyoutLoop d fuel va bytes v = .ok (true, v') ∧ v' = { v with data := v'.data } ∧
      (∀ p off, (∀ i, i < bytes.length → v.loc d (va + i) ≠ some (p, off)) →
        v'.data p off = v.data p off) ∧
      (v.Consistent d va bytes → ∀ i p off, i < bytes.length → v.loc d (va + i) = some (p, off) →
        some (v'.data p off) = bytes[i]?) := by
  induction fuel generalizing va bytes v with
  | zero =>
    obtain rfl := List.length_eq_zero_iff.mp (Nat.le_zero.mp hfuel)
    exact ⟨v, rfl, rfl, fun _ _ _ => rfl, fun _ i _ _ hi => absurd hi (Nat.not_lt_zero i)⟩
  | succ fuel ih =>
    by_cases hb : bytes = []
    · subst hb
      exact ⟨v, copyoutLoop_nil _ _ _ _, rfl, fun _ _ _ => rfl,
        fun _ i _ _ hi => absurd hi (Nat.not_lt_zero i)⟩
    have hpos := List.length_pos_iff.mpr hb
    have hreach : v.UserPage d (va / pgsize) := hacc 0 hpos
    obtain ⟨e, he, hua⟩ := uva2ka_userPage (va_lt hb hk) hreach
    rw [copyoutLoop_succ fuel hb hua]
    have hround := @data_round _ _ _ bytes _ he
    obtain ⟨v₁, hv₁⟩ : ∃ v₁, v.storeBytes e.page (va % pgsize)
        (bytes.take (pgsize - va % pgsize)) = v₁ := ⟨_, rfl⟩
    have hspace : v₁.space = v.space := hv₁ ▸ rfl
    have hsame : v₁ = { v with data := v₁.data } := hv₁ ▸ rfl
    rw [hv₁] at hround ⊢
    rcases Nat.lt_or_ge (pgsize - va % pgsize) bytes.length with hlt | hge
    · -- there is more on the next page
      rw [next_va hlt hk]
      have hmod : va % pgsize < pgsize := Nat.mod_lt _ (by decide)
      have hlen : (bytes.drop (pgsize - va % pgsize)).length =
          bytes.length - (pgsize - va % pgsize) := List.length_drop
      have hidx : ∀ i, va + (pgsize - va % pgsize) + i = va + (pgsize - va % pgsize + i) :=
        fun i => Nat.add_assoc _ _ _
      have hrest : v₁.Accessible d (va + (pgsize - va % pgsize))
          (bytes.drop (pgsize - va % pgsize)).length := by
        intro i hi
        rw [Reaches, userPage_of_space hspace, hidx]
        exact hacc _ (by omega)
      obtain ⟨v', hrun, hsame', hframe, hread⟩ := ih (by omega) (by omega) hrest
      refine ⟨v', hrun, ?_, ?_, ?_⟩
      · rw [hsame', hsame]
      · intro p off hno
        rw [hframe p off fun i hi => by
          rw [loc_of_space hspace, hidx]
          exact hno _ (by omega)]
        exact (hround p off).2 fun i hi _ => hno i hi
      · intro hcons i p off hi hloc
        have hcons' : v₁.Consistent d (va + (pgsize - va % pgsize))
            (bytes.drop (pgsize - va % pgsize)) := by
          intro a b ha hb' heq
          rw [loc_of_space hspace, loc_of_space hspace, hidx, hidx] at heq
          rw [List.getElem?_drop, List.getElem?_drop]
          exact hcons _ _ (by omega) (by omega) heq
        -- a later byte for the same place, or none
        by_cases hlater : ∃ j, j < (bytes.drop (pgsize - va % pgsize)).length ∧
            v₁.loc d (va + (pgsize - va % pgsize) + j) = some (p, off)
        · obtain ⟨j, hj, hlocj⟩ := hlater
          rw [hread hcons' j p off hj hlocj, List.getElem?_drop]
          rw [loc_of_space hspace, hidx] at hlocj
          exact hcons _ _ (by omega) hi (hlocj.trans hloc.symm)
        · rw [hframe p off fun j hj hlocj => hlater ⟨j, hj, hlocj⟩]
          rcases Nat.lt_or_ge i (pgsize - va % pgsize) with hin | hout
          · exact (hround p off).1 i hi hin hloc
          · refine absurd ⟨i - (pgsize - va % pgsize), by omega, ?_⟩ hlater
            rw [loc_of_space hspace, hidx, Nat.add_sub_cancel' hout]
            exact hloc
    · rw [List.drop_eq_nil_of_le hge, copyoutLoop_nil]
      refine ⟨v₁, rfl, hsame, ?_, ?_⟩
      · intro p off hno
        exact (hround p off).2 fun i hi _ => hno i hi
      · intro _ i p off hi hloc
        exact (hround p off).1 i hi (by omega) hloc

theorem copyoutLoop_stops {i : Nat} (hi : i < bytes.length) (hbefore : ∀ j < i, v.Reaches d va j)
    (hnot : ¬ v.Reaches d va i) :
    ((v.space d).pde ((va + i) / pgsize / nptentries) = none →
      copyoutLoop d fuel va bytes v = .error "uva2ka: null pte") ∧
    ((v.space d).pde ((va + i) / pgsize / nptentries) ≠ none →
      ∃ v', copyoutLoop d fuel va bytes v = .ok (false, v')) := by
  induction fuel generalizing va bytes v i with
  | zero => omega
  | succ fuel ih =>
    have hb : bytes ≠ [] := List.length_pos_iff.mp (by omega)
    rcases Nat.lt_or_ge i (pgsize - va % pgsize) with hin | hout
    · -- the page of `va` itself
      obtain ⟨hpage, -⟩ := page_of_chunk hin
      rw [Reaches, hpage] at hnot
      rw [hpage]
      constructor
      · intro hnone
        rw [copyoutLoop, if_neg hb, uva2ka_null (va_lt hb hk) hnone]
      · intro hsome
        refine ⟨v, ?_⟩
        rw [copyoutLoop, if_neg hb, uva2ka_refused (va_lt hb hk) hsome hnot]
    · have hmod : va % pgsize < pgsize := Nat.mod_lt _ (by decide)
      have hreach : v.UserPage d (va / pgsize) := hbefore 0 (by omega)
      obtain ⟨e, he, hua⟩ := uva2ka_userPage (va_lt hb hk) hreach
      rw [copyoutLoop_succ fuel hb hua, next_va (by omega) hk]
      obtain ⟨v₁, hv₁⟩ : ∃ v₁, v.storeBytes e.page (va % pgsize)
          (bytes.take (pgsize - va % pgsize)) = v₁ := ⟨_, rfl⟩
      have hspace : v₁.space = v.space := hv₁ ▸ rfl
      rw [hv₁]
      have hlen : (bytes.drop (pgsize - va % pgsize)).length =
          bytes.length - (pgsize - va % pgsize) := List.length_drop
      have hidx : ∀ j, va + (pgsize - va % pgsize) + j = va + (pgsize - va % pgsize + j) :=
        fun j => Nat.add_assoc _ _ _
      have hi' : i - (pgsize - va % pgsize) < (bytes.drop (pgsize - va % pgsize)).length := by
        omega
      have hnot' : ¬ v₁.Reaches d (va + (pgsize - va % pgsize)) (i - (pgsize - va % pgsize)) := by
        rw [Reaches, userPage_of_space hspace, hidx, Nat.add_sub_cancel' hout]
        exact hnot
      have h := ih (by omega) (by omega) hi' (fun j hj => by
        rw [Reaches, userPage_of_space hspace, hidx]
        exact hbefore _ (by omega)) hnot'
      rw [hidx, Nat.add_sub_cancel' hout, hspace] at h
      exact h

end

/-- **`copyout` is exact** if and only if it meets no missing page table,
and the buffer does not ask for two values at one place. -/
theorem copyout_exact (hk : va + bytes.length ≤ kernbase) :
    v.Exact d va bytes ↔
      v.Tabled d va bytes.length ∧ (v.Accessible d va bytes.length → v.Consistent d va bytes) := by
  have hfuel := Nat.le_refl bytes.length
  constructor
  · rintro ⟨b, v', hrun, hb, hpost⟩
    constructor
    · intro i hi hbefore hnone
      have hnot : ¬ v.Reaches d va i := fun hu => hu.1 hnone
      have herr := (copyoutLoop_stops _ hfuel hk hi hbefore hnot).1 hnone
      rw [copyout, herr] at hrun
      cases hrun
    · intro hacc i j hi hj heq
      obtain ⟨hsame, hread, -⟩ := hpost (hb.mpr hacc)
      have hspace : v'.space = v.space := by rw [hsame]
      rw [← hread i hi, ← hread j hj, read_eq, read_eq, loc_of_space hspace,
        loc_of_space hspace, heq]
  · rintro ⟨htabled, hcons⟩
    by_cases hacc : v.Accessible d va bytes.length
    · obtain ⟨v', hrun, hsame, hframe, hread⟩ := copyoutLoop_ok _ hfuel hk hacc
      have hspace : v'.space = v.space := by rw [hsame]
      refine ⟨true, v', hrun, iff_of_true rfl hacc, fun _ => ⟨hsame, ?_, hframe⟩⟩
      intro i hi
      have hreach : v.UserPage d ((va + i) / pgsize) := hacc i hi
      obtain ⟨hpde, e, hpte, -⟩ := hreach
      have hloc : v.loc d (va + i) = some (e.page, (va + i) % pgsize) := by
        rw [loc, entry, Space.entry_eq_some.mpr ⟨hpde, hpte⟩]
        rfl
      rw [read_eq, loc_of_space hspace, hloc, ← hread (hcons hacc) i _ _ hi hloc]
      rfl
    · -- the first page that is not accessible has a table
      have hex : ∃ i, i < bytes.length ∧ ¬ v.Reaches d va i := by
        by_contra hno
        exact hacc fun i hi => by_contra fun hn => hno ⟨i, hi, hn⟩
      classical
      have hspec := Nat.find_spec hex
      have hbefore : ∀ j < Nat.find hex, v.Reaches d va j := by
        intro j hj
        by_contra hn
        exact Nat.find_min hex hj ⟨hj.trans hspec.1, hn⟩
      obtain ⟨v', hrun⟩ := (copyoutLoop_stops _ hfuel hk hspec.1 hbefore hspec.2).2
        (htabled _ hspec.1 hbefore)
      exact ⟨false, v', hrun, iff_of_false Bool.false_ne_true hacc, fun hb => by cases hb⟩

instance (v : Vm) (d x : Nat) : Decidable (v.UserPage d x) :=
  decidable_of_iff ((v.space d).pde (x / nptentries) ≠ none ∧
      ((v.space d).pte x).any (fun e => e.u) = true) (by
    simp [UserPage, Option.any_eq_true])

/-- Two bytes into the heap page of the parent: they are there. -/
theorem copyout_exact_parentVm : parentVm.Exact 0 7 [65, 66] := by
  have hreach : ∀ i < 2, parentVm.UserPage 0 ((7 + i) / pgsize) := by decide +kernel
  have hcons : ∀ i < 2, ∀ j < 2, parentVm.loc 0 (7 + i) = parentVm.loc 0 (7 + j) →
      ([65, 66] : List UInt8)[i]? = ([65, 66] : List UInt8)[j]? := by decide +kernel
  exact (copyout_exact (by decide)).mpr
    ⟨fun i hi _ => (hreach i hi).1, fun _ i j hi hj heq => hcons i hi j hj heq⟩

/-- `copyout` to an address whose page table does not exist. -/
theorem copyout_null :
    (parentVm.space 0).pde (0x1000000 / pgsize / nptentries) = none ∧
      ¬ parentVm.Exact 0 0x1000000 [65] := by
  refine ⟨by decide +kernel, ?_⟩
  rintro ⟨b, v', hrun, -⟩
  have herr : (parentVm.copyout 0 0x1000000 [65]).toOption.isNone := by decide +kernel
  rw [hrun] at herr
  cases herr

end Vm

end Xv6.Mem
