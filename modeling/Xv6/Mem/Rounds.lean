/-
Xv6.Mem.Rounds — what the functions of `kalloc.c` and `vm.c` that take
pages can do, said once.

`walkpgdir` finds a page table or makes one (`Walked`), and `mappages`
sets one entry behind it. The loops of `allocuvm` and `copyuvm` are
`Rounds`: the same relation between the states before and after a page,
for one page after the other. `AllocRun` and `CopyRun` list the ways the
two functions return, with the state that a failure leaves. What is true
of a round then carries over to the loop (`Rounds.keeps`), and nothing
after this module takes the loops apart again.
-/
import Xv6.Mem.Vm

namespace Xv6.Mem

/-! ## Numbers of pages -/

theorem npages_eq (sz : Nat) : npages sz = (sz + 4095) / 4096 := by
  unfold npages pgroundup pgrounddown
  simp only [pgsize]
  omega

theorem npages_zero : npages 0 = 0 := by
  rw [npages_eq]

theorem npages_mono {a b : Nat} (h : a ≤ b) : npages a ≤ npages b := by
  rw [npages_eq, npages_eq]
  omega

theorem lt_npages_iff (vpn sz : Nat) : vpn < npages sz ↔ vpn * pgsize < sz := by
  rw [npages_eq]
  simp only [pgsize]
  omega

theorem npages_mul (sz : Nat) : npages sz * pgsize = pgroundup sz := by
  simp only [npages, pgroundup, pgrounddown, pgsize]
  omega

theorem npages_mul_pgsize (n : Nat) : npages (n * pgsize) = n := by
  rw [npages_eq]
  simp only [pgsize]
  omega

theorem npages_pgroundup (sz : Nat) : npages (pgroundup sz) = npages sz := by
  rw [npages_eq, npages_eq]
  unfold pgroundup pgrounddown
  simp only [pgsize]
  omega

theorem npages_le_kernbase {sz : Nat} (h : sz ≤ kernbase) : npages sz ≤ kernbase / pgsize := by
  rw [npages_eq]
  simp only [kernbase, pgsize] at *
  omega

variable {a b d d' i n oldsz newsz sz vpn x y : Nat} {e : Pte} {v v' w : Vm}

theorem Space.entry_eq_some {s : Space} :
    s.entry x = some e ↔ s.pde (x / nptentries) ≠ none ∧ s.pte x = some e := by
  unfold entry
  cases s.pde (x / nptentries) <;> simp

namespace Vm

/-! ## One page -/

theorem kalloc_some {p : Page} (h : v.kalloc = (some p, v')) :
    ∃ l, v.freelist = p :: l ∧ v' = { v with freelist := l } := by
  unfold kalloc at h
  split at h <;> cases h
  next rest hf => exact ⟨rest, hf, rfl⟩

theorem kalloc_none (h : v.kalloc = (none, v')) : v.freelist = [] ∧ v' = v := by
  unfold kalloc at h
  split at h <;> cases h
  next hf => exact ⟨hf, rfl⟩

/-- The table of page `vpn` was there, or is made from a free page. -/
inductive Walked (v : Vm) (d vpn : Nat) : Vm → Prop
  | found : (v.space d).pde (vpn / nptentries) ≠ none → Walked v d vpn v
  | made {p : Page} {l : List Page} : (v.space d).pde (vpn / nptentries) = none →
      v.freelist = p :: l → Walked v d vpn
        ({ v with freelist := l }.setSpace d ((v.space d).addTable (vpn / nptentries) p))

theorem Walked.pde (h : Walked v d vpn w) : (w.space d).pde (vpn / nptentries) ≠ none := by
  cases h with
  | found hp => exact hp
  | made => simp [setSpace, Space.addTable]

/-- The ways `mappages` returns. -/
inductive MapRun (v : Vm) (d vpn : Nat) (e : Pte) : Except String (Bool × Vm) → Prop
  | set {w : Vm} : Walked v d vpn w → (w.space d).pte vpn = none →
      MapRun v d vpn e (.ok (true, w.setPte d vpn (some e)))
  | short : (v.space d).pde (vpn / nptentries) = none → v.freelist = [] →
      MapRun v d vpn e (.ok (false, v))
  | remap : (v.space d).mapped vpn = true → MapRun v d vpn e (.error "remap")

theorem mappages_run {r : Except String (Bool × Vm)} (h : v.mappages d vpn e = r) :
    MapRun v d vpn e r := by
  subst h
  unfold mappages walkpgdir
  cases hp : (v.space d).pde (vpn / nptentries) with
  | some p =>
    cases hs : (v.space d).pte vpn with
    | some e' => simpa [hs] using MapRun.remap (by simp [Space.mapped, hp, hs])
    | none => simpa [hs] using MapRun.set (.found (by simp [hp])) hs
  | none =>
    cases hf : v.freelist with
    | nil => simpa [kalloc, hf] using MapRun.short hp hf
    | cons p l =>
      have hn : ((v.space d).addTable (vpn / nptentries) p).pte vpn = none := by
        simp [Space.addTable]
      simpa [kalloc, hf, setSpace, hn] using
        MapRun.set (e := e) (.made hp hf) (by simpa [setSpace] using hn)

/-! ## Rounds -/

/-- One page after the other from `a` on, each by a round of `R`. -/
inductive Rounds (R : Vm → Nat → Vm → Prop) (a : Nat) (v : Vm) : Nat → Vm → Prop
  | nil : Rounds R a v a v
  | snoc {b : Nat} {w w' : Vm} : Rounds R a v b w → R w b w' → Rounds R a v (b + 1) w'

/-- How a loop over the pages from `a` to `b` ends: after the last round,
or in a round that fails or panics. -/
inductive LoopRun (R F : Vm → Nat → Vm → Prop) (E : Vm → Nat → String → Prop) (a b : Nat)
    (v : Vm) : Except String (Bool × Vm) → Prop
  | done {v' : Vm} : Rounds R a v b v' → LoopRun R F E a b v (.ok (true, v'))
  | stop {w v' : Vm} {x : Nat} : x < b → Rounds R a v x w → F w x v' →
      LoopRun R F E a b v (.ok (false, v'))
  | panic {w : Vm} {x : Nat} {msg : String} : x < b → Rounds R a v x w → E w x msg →
      LoopRun R F E a b v (.error msg)

section
variable {R F : Vm → Nat → Vm → Prop} {E : Vm → Nat → String → Prop} {w' : Vm}
  {r : Except String (Bool × Vm)}

theorem Rounds.cons (h : R v a w) (hr : Rounds R (a + 1) w b w') : Rounds R a v b w' := by
  induction hr with
  | nil => exact .snoc .nil h
  | snoc _ hR ih => exact .snoc ih hR

theorem LoopRun.cons (h : R v a w) (hl : LoopRun R F E (a + 1) b w r) : LoopRun R F E a b v r := by
  cases hl with
  | done hr => exact .done (hr.cons h)
  | stop hx hr hF => exact .stop hx (hr.cons h) hF
  | panic hx hr hE => exact .panic hx (hr.cons h) hE

theorem Rounds.le (hr : Rounds R a v b w) : a ≤ b := by
  induction hr with
  | nil => exact Nat.le_refl a
  | snoc _ _ ih => exact Nat.le_succ_of_le ih

theorem Rounds.keeps {P : Vm → Prop} (hr : Rounds R a v b w) (hv : P v)
    (hstep : ∀ x u u', x < b → R u x u' → P u → P u') : P w := by
  induction hr with
  | nil => exact hv
  | snoc _ hR ih =>
    exact hstep _ _ _ (Nat.lt_succ_self _) hR
      (ih fun x u u' hx => hstep x u u' (Nat.lt_succ_of_lt hx))

end

/-! ## `allocuvm` -/

/-- A round of `allocuvm`: a page is taken, cleared and mapped. -/
def AllocRound (d : Nat) (v : Vm) (x : Nat) (w : Vm) : Prop :=
  ∃ mem l, v.freelist = mem :: l ∧ ({ v with freelist := l }.zeroPage mem).mappages d x
    { page := mem, w := true, u := true } = .ok (true, w)

/-- A round that fails, with no page left or no page for the table. -/
inductive AllocFails (d oldsz newsz : Nat) (v : Vm) (x : Nat) : Vm → Prop
  | page : v.freelist = [] → AllocFails d oldsz newsz v x (v.deallocuvm d newsz oldsz).2
  | table {mem : Page} : v.freelist = [mem] → (v.space d).pde (x / nptentries) = none →
      AllocFails d oldsz newsz v x
        ((({ v with freelist := [] }.zeroPage mem).deallocuvm d newsz oldsz).2.kfree mem)

/-- A round that panics over a page that is mapped. -/
def AllocPanics (d : Nat) (v : Vm) (x : Nat) (msg : String) : Prop :=
  v.freelist ≠ [] ∧ (v.space d).mapped x = true ∧ msg = "remap"

theorem allocLoop_run (n a : Nat) (v : Vm) :
    LoopRun (AllocRound d) (AllocFails d oldsz newsz) (AllocPanics d) a (a + n) v
      (allocLoop d oldsz newsz n a v) := by
  induction n generalizing a v with
  | zero => exact .done .nil
  | succ n ih =>
    have ha : a < a + (n + 1) := by omega
    unfold allocLoop
    split
    · next hk =>
      obtain ⟨hf, rfl⟩ := kalloc_none hk
      exact .stop ha .nil (.page hf)
    rename_i mem v₁ hk
    obtain ⟨l, hf, rfl⟩ := kalloc_some hk
    split
    · next hp =>
      cases mappages_run hp with
      | remap hm => exact .panic ha .nil ⟨by simp [hf], hm, rfl⟩
    · next hp =>
      cases mappages_run hp with
      | short hpde hnil =>
        cases hnil
        exact .stop ha .nil (.table hf hpde)
    · next hp =>
      rw [show a + (n + 1) = a + 1 + n by omega]
      exact (ih _ _).cons ⟨mem, l, hf, hp⟩

/-- The ways `allocuvm` returns. -/
inductive AllocRun (v : Vm) (d oldsz newsz : Nat) : Except String (Nat × Vm) → Prop
  | refused : kernbase ≤ newsz → AllocRun v d oldsz newsz (.ok (0, v))
  | kept : newsz < kernbase → newsz < oldsz → AllocRun v d oldsz newsz (.ok (oldsz, v))
  | grown {v' : Vm} : oldsz ≤ newsz → newsz < kernbase →
      Rounds (AllocRound d) (npages oldsz) v (npages newsz) v' →
      AllocRun v d oldsz newsz (.ok (newsz, v'))
  | failed {v' w : Vm} {x : Nat} : oldsz ≤ newsz → newsz < kernbase → x < npages newsz →
      Rounds (AllocRound d) (npages oldsz) v x w → AllocFails d oldsz newsz w x v' →
      AllocRun v d oldsz newsz (.ok (0, v'))
  | panic {w : Vm} {x : Nat} {msg : String} : newsz < kernbase → x < npages newsz →
      Rounds (AllocRound d) (npages oldsz) v x w → AllocPanics d w x msg →
      AllocRun v d oldsz newsz (.error msg)

theorem allocuvm_run {r : Except String (Nat × Vm)} (h : v.allocuvm d oldsz newsz = r) :
    AllocRun v d oldsz newsz r := by
  subst h
  unfold allocuvm
  split
  · next hk => exact .refused hk
  rename_i hk
  have hk := Nat.lt_of_not_le hk
  split
  · next hlt => exact .kept hk hlt
  rename_i hge
  have hle := Nat.le_of_not_lt hge
  have hl := @allocLoop_run d oldsz newsz (npages newsz - npages oldsz) (npages oldsz) v
  rw [Nat.add_sub_cancel' (npages_mono hle)] at hl
  generalize allocLoop d oldsz newsz _ _ v = r at hl
  cases hl with
  | done hr => exact .grown hle hk hr
  | stop hx hr hfail => exact .failed hle hk hx hr hfail
  | panic hx hr hp => exact .panic hk hx hr hp

/-! ## `setupkvm` -/

theorem mapKernel_eq (d n : Nat) (v : Vm) : mapKernel d n v =
    (decide (n ≤ v.freelist.length), { v with freelist := v.freelist.drop n }.setSpace d
      { v.space d with kpt := (v.space d).kpt ++ v.freelist.take n }) := by
  induction n generalizing v with
  | zero => simp [mapKernel, setSpace]
  | succ n ih =>
    unfold mapKernel
    cases hf : v.freelist with
    | nil =>
      have hv : { v with freelist := [] } = v := by rw [← hf]
      simp [kalloc, hf, setSpace, hv]
    | cons p l => simp [kalloc, hf, ih, setSpace]

/-- A new directory with the kernel half only, on page `dir` and the first
pages of `l`. -/
def withDir (v : Vm) (dir : Page) (l : List Page) : Vm :=
  { v with
    freelist := l.drop kmapTables
    nspace := v.nspace + 1
    space := Function.update v.space v.nspace
      { (default : Space) with dir := dir, kpt := l.take kmapTables } }

theorem withDir_space (v : Vm) (dir : Page) (l : List Page) (d : Nat) :
    (v.withDir dir l).space d = if d = v.nspace then
      { (default : Space) with dir := dir, kpt := l.take kmapTables } else v.space d := by
  simp [withDir, Function.update_apply]

theorem setupkvm_eq {dir : Page} {l : List Page} (hf : v.freelist = dir :: l) :
    v.setupkvm = if kmapTables ≤ l.length then (some v.nspace, v.withDir dir l)
      else (none, (v.withDir dir l).freevm v.nspace) := by
  have hd : (default : Space).kpt = [] := rfl
  simp only [setupkvm, kalloc, hf, mapKernel_eq, setSpace, Function.update_self,
    Function.update_idem, hd, List.nil_append]
  by_cases hl : kmapTables ≤ l.length
  · simp only [decide_true, hl, if_true]
    rfl
  · simp only [decide_false, hl, if_false]
    rfl

theorem setupkvm_some (h : v.setupkvm = (some d, v')) :
    d = v.nspace ∧ ∃ dir l, v.freelist = dir :: l ∧ kmapTables ≤ l.length ∧
      v' = v.withDir dir l := by
  cases hf : v.freelist with
  | nil => simp [setupkvm, kalloc, hf] at h
  | cons dir l =>
    rw [setupkvm_eq hf] at h
    split at h <;> cases h
    next hl => exact ⟨rfl, dir, l, rfl, hl, rfl⟩

theorem setupkvm_none (h : v.setupkvm = (none, v')) :
    (v.freelist = [] ∧ v' = v) ∨ ∃ dir l, v.freelist = dir :: l ∧ l.length < kmapTables ∧
      v' = (v.withDir dir l).freevm v.nspace := by
  cases hf : v.freelist with
  | nil =>
    simp only [setupkvm, kalloc, hf] at h
    cases h
    exact .inl ⟨rfl, rfl⟩
  | cons dir l =>
    rw [setupkvm_eq hf] at h
    split at h <;> cases h
    next hl => exact .inr ⟨dir, l, rfl, Nat.lt_of_not_le hl, rfl⟩

/-! ## `copyuvm` -/

/-- The ways `copyFrom` returns. -/
inductive FromRun (v : Vm) (d x : Nat) : Except String (Option Pte × Vm) → Prop
  | absent {msg : String} : (v.space d).mapped x = false →
      (msg = "copyuvm: pte should exist" ∨ msg = "copyuvm: page not present") →
      FromRun v d x (.error msg)
  | short : v.freelist = [] → FromRun v d x (.ok (none, v))
  | taken {mem : Page} {l : List Page} {e : Pte} : (v.space d).entry x = some e →
      v.freelist = mem :: l → FromRun v d x
        (.ok (some { e with page := mem }, { v with freelist := l }.copyPage mem e.page))

theorem copyFrom_run {r : Except String (Option Pte × Vm)} (h : v.copyFrom d x = r) :
    FromRun v d x r := by
  subst h
  unfold copyFrom
  split
  · next hp => exact .absent (by simp [Space.mapped, hp]) (.inl rfl)
  rename_i hp
  split
  · next he => exact .absent (by simp [Space.mapped, he]) (.inr rfl)
  rename_i e he
  split
  · next hk =>
    obtain ⟨hf, rfl⟩ := kalloc_none hk
    exact .short hf
  · next hk =>
    obtain ⟨l, hf, rfl⟩ := kalloc_some hk
    exact .taken (Space.entry_eq_some.mpr ⟨by simp [hp], he⟩) hf

/-- Page `x` of `d` is copied to page `y` of `d'`. -/
def CopyRound (d d' x : Nat) (v : Vm) (y : Nat) (w : Vm) : Prop :=
  ∃ e mem l, (v.space d).entry x = some e ∧ v.freelist = mem :: l ∧
    ({ v with freelist := l }.copyPage mem e.page).mappages d' y { e with page := mem }
      = .ok (true, w)

/-- There was no page for page `y` of `d'`, or none for its table. -/
structure CopyStops (d' : Nat) (v : Vm) (y : Nat) (v' : Vm) : Prop where
  space : v'.space = v.space
  short : v.freelist = [] ∨
    ∃ mem, v.freelist = [mem] ∧ (v.space d').pde (y / nptentries) = none
  counts : v'.nspace = v.nspace ∧ v'.freed = v.freed

/-- A copy panics over a page that is not there, or where there is one. -/
def CopyPanics (d d' x : Nat) (v : Vm) (y : Nat) (msg : String) : Prop :=
  ((v.space d).mapped x = false ∧
    (msg = "copyuvm: pte should exist" ∨ msg = "copyuvm: page not present")) ∨
  ((v.space d').mapped y = true ∧ msg = "remap")

/-- A round of the loop over the heap. -/
def HeapRound (d d' : Nat) (v : Vm) (x : Nat) (w : Vm) : Prop := CopyRound d d' x v x w

def HeapStops (d' : Nat) (v : Vm) (x : Nat) (w : Vm) : Prop :=
  CopyStops d' v x w ∧ w.freelist = v.freelist

def HeapPanics (d d' : Nat) (v : Vm) (x : Nat) (msg : String) : Prop := CopyPanics d d' x v x msg

theorem copyLoop_run (n a : Nat) (v : Vm) :
    LoopRun (HeapRound d d') (HeapStops d') (HeapPanics d d') a (a + n) v
      (copyLoop d d' n a v) := by
  induction n generalizing a v with
  | zero => exact .done .nil
  | succ n ih =>
    have ha : a < a + (n + 1) := by omega
    unfold copyLoop
    generalize hc : v.copyFrom d a = r
    cases copyFrom_run hc with
    | absent hm hmsg => exact .panic ha .nil (.inl ⟨hm, hmsg⟩)
    | short hf => exact .stop ha .nil ⟨⟨rfl, .inl hf, rfl, rfl⟩, rfl⟩
    | taken he hf =>
      simp only
      split
      · next hp =>
        cases mappages_run hp with
        | remap hm => exact .panic ha .nil (.inr ⟨hm, rfl⟩)
      · next hp =>
        cases mappages_run hp with
        | short hpde hnil =>
          cases hnil
          exact .stop ha .nil ⟨⟨rfl, .inr ⟨_, hf, hpde⟩, rfl, rfl⟩, hf.symm⟩
      · next hp =>
        rw [show a + (n + 1) = a + 1 + n by omega]
        exact (ih _ _).cons ⟨_, _, _, he, hf, hp⟩

/-- The ways `copyuvm` returns. A page taken for a stack whose table
cannot be made is not given back. -/
inductive CopyRun (v : Vm) (d sz : Nat) (i : Int) : Except String (Option Nat × Vm) → Prop
  | nothing {v' : Vm} : v.setupkvm = (none, v') → CopyRun v d sz i (.ok (none, v'))
  | heap {v₁ w w' : Vm} {d' x : Nat} : v.setupkvm = (some d', v₁) → x < npages sz →
      Rounds (HeapRound d d') 0 v₁ x w → HeapStops d' w x w' →
      CopyRun v d sz i (.ok (none, w'.freevm d'))
  | stack {v₁ w w' : Vm} {d' : Nat} : v.setupkvm = (some d', v₁) →
      Rounds (HeapRound d d') 0 v₁ (npages sz) w → CopyStops d' w (stackPage 0) w' →
      w'.freelist = [] → CopyRun v d sz i (.ok (none, w'.freevm d'))
  | done {v₁ w v' : Vm} {d' : Nat} : v.setupkvm = (some d', v₁) →
      Rounds (HeapRound d d') 0 v₁ (npages sz) w →
      CopyRound d d' (stackPage i) w (stackPage 0) v' → CopyRun v d sz i (.ok (some d', v'))
  | heapPanic {v₁ w : Vm} {d' x : Nat} {msg : String} : v.setupkvm = (some d', v₁) →
      x < npages sz → Rounds (HeapRound d d') 0 v₁ x w → CopyPanics d d' x w x msg →
      CopyRun v d sz i (.error msg)
  | stackPanic {v₁ w : Vm} {d' : Nat} {msg : String} : v.setupkvm = (some d', v₁) →
      Rounds (HeapRound d d') 0 v₁ (npages sz) w →
      CopyPanics d d' (stackPage i) w (stackPage 0) msg → CopyRun v d sz i (.error msg)

theorem copyuvm_run {i : Int} {r : Except String (Option Nat × Vm)} (h : v.copyuvm d sz i = r) :
    CopyRun v d sz i r := by
  subst h
  unfold copyuvm
  split
  · next hs => exact .nothing hs
  rename_i d' v₁ hs
  have hl := @copyLoop_run d d' (npages sz) 0 v₁
  rw [Nat.zero_add] at hl
  generalize copyLoop d d' (npages sz) 0 v₁ = r at hl
  cases hl with
  | stop hx hr hstop => exact .heap hs hx hr hstop
  | panic hx hr hp => exact .heapPanic hs hx hr hp
  | @done w hr =>
    simp only [copyStack]
    generalize hc : w.copyFrom d (stackPage i) = r
    cases copyFrom_run hc with
    | absent hm hmsg => exact .stackPanic hs hr (.inl ⟨hm, hmsg⟩)
    | short hf => exact .stack hs hr ⟨rfl, .inl hf, rfl, rfl⟩ hf
    | taken he hf =>
      simp only
      generalize hp : Vm.mappages _ d' (stackPage 0) _ = r
      cases mappages_run hp with
      | remap hm => exact .stackPanic hs hr (.inr ⟨hm, rfl⟩)
      | short hpde hnil =>
        cases hnil
        exact .stack hs hr ⟨rfl, .inr ⟨_, hf, hpde⟩, rfl, rfl⟩ rfl
      | set => exact .done hs hr ⟨_, _, _, he, hf, hp⟩

end Vm

end Xv6.Mem
