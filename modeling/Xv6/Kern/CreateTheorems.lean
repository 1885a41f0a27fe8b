/-
Xv6.Kern.CreateTheorems — what `KT_Create` leaves behind when it fails.

`KT_Create` changes the stack list BEFORE it knows that there is memory,
and undoes nothing. It is all-or-nothing only where it refuses at once (no
function, a full list, neither a list nor an entry) or cannot fail any
more. `createSafe` is that condition, on the state before the call; it is
exact.

The stack is two pages of one page table. What `allocuvm` does with them
depends on how many pages are free and on whether one of the two is mapped
already, which is a panic if the loop gets that far (`stackAlloc_error`,
`stackAlloc_short`, `stackAlloc_some`).
-/
import Xv6.Kern.SpaceTheorems

namespace Xv6.Kern

open Xv6.Lib Xv6.Mem

variable {ncpu : Nat} {k k₁ : Kernel ncpu} {sp : Nat} {cur : ProcIdx} {t : Thread}

namespace Kernel

/-! ## The stack -/

variable {k k' : Kernel ncpu} {d i guard fnc arg : Nat} {cur : ProcIdx} {s : PslIdx} {r : Int}

theorem stackAlloc_short {x : Nat} (hi : i < 8) (h : k.stackAlloc d i guard = .ok (none, k'))
    (hx : x ∈ slot i) (hm : x ∈ k.vm.maps.mapped d) :
    k.vm.freelist.length ≤ x - slotLow i := by
  obtain ha | _ := (stackAlloc_run h).2
  rw [← slot_ico] at hx
  have hle := Vm.allocuvm_short_mapped (slot_lt i) slot_lt_kernbase
    (by rw [slot_ico]; exact slot_table hi) ha hx hm
  rwa [npages_mul_pgsize] at hle

/-- What a stack allocation does to the entries of its directory: the two
pages of the slot are new, then `PTE_U` goes from one page. -/
theorem stackAlloc_entries (h : k.stackAlloc d i guard = .ok (some sp, k')) :
    sp = (slotLow i + 2) * pgsize ∧ ∃ vm, k.vm.Filled vm d (slotLow i) (slotLow i + 2) ∧
      vm.clearpteu d (slotLow i + 2 - guard) = .ok k'.vm := by
  obtain _ | ⟨hne, ha, hc⟩ := (stackAlloc_run h).2
  obtain ⟨hsp, hf⟩ := (Vm.allocuvm_entries (Nat.le_of_lt (slot_lt i)) slot_lt_kernbase
    ha).resolve_right fun hfail => hne hfail.1
  rw [npages_mul_pgsize, npages_mul_pgsize] at hf
  rw [hsp, Nat.mul_div_cancel _ (by decide)] at hc
  exact ⟨hsp, _, hf, hc⟩

/-- A panic: the free list reached to a page that is mapped. The entry
`clearpteu` looks up is in the page table of the stack, so it is there. -/
theorem stackAlloc_error {msg : String} (hi : i < 8) (hg : guard = 2 ∨ guard = 4)
    (h : k.stackAlloc d i guard = .error msg) :
    (slotLow i ∈ k.vm.maps.mapped d ∧ 1 ≤ k.vm.freelist.length) ∨
    (slotLow i + 1 ∈ k.vm.maps.mapped d ∧ 2 ≤ k.vm.freelist.length) := by
  unfold stackAlloc at h
  split at h
  · next e ha =>
    obtain ⟨x, hx, hm, hlt⟩ := Vm.allocuvm_error_supply ha
    rw [slot_ico] at hx
    rw [npages_mul_pgsize] at hlt
    simp only [slot, Set.mem_Ico] at hx
    obtain rfl | rfl : x = slotLow i ∨ x = slotLow i + 1 := by omega
    · exact .inl ⟨hm, by omega⟩
    · exact .inr ⟨hm, by omega⟩
  · cases h
  rename_i sp vm hne ha
  have hlt : npages (slotLow i * pgsize) < npages ((slotLow i + 2) * pgsize) := by
    rw [npages_mul_pgsize, npages_mul_pgsize]
    omega
  obtain ⟨hsp, -, huser⟩ := Vm.allocuvm_supply hlt
    (by rw [slot_ico]; exact slot_table hi) ha hne
  have hpde := (huser (slotLow i) (by rw [slot_ico]; exact low_mem_slot i)).1
  have htable : (sp / pgsize - guard) / nptentries = slotLow i / nptentries := by
    rw [hsp]
    simp only [slotLow_eq, pgsize, nptentries]
    omega
  obtain ⟨tbl, htbl⟩ := Option.ne_none_iff_exists'.mp hpde
  rw [Vm.clearpteu, htable, htbl] at h
  cases h

/-! ## Open files -/

/-- The files `p` has open are counted, and the counts do not overflow when
all descriptors are copied once more. -/
def FilesOk (k : Kernel ncpu) (p : ProcIdx) : Prop :=
  ∀ fd f, (k.proc p).ofile fd = some f →
    1 ≤ (k.file f).ref ∧ (k.file f).ref + nofile < 2 ^ 31

theorem filedup_ok {f : FileIdx} (h1 : 1 ≤ (k.file f).ref) (h2 : (k.file f).ref + 1 < 2 ^ 31) :
    ∃ k', k.filedup f = .ok k' ∧ k'.proc = k.proc ∧
      ∀ g, 1 ≤ (k.file g).ref →
        1 ≤ (k'.file g).ref ∧ (k'.file g).ref ≤ (k.file g).ref + 1 := by
  refine ⟨_, if_neg (show ¬ (k.file f).ref < 1 by omega), rfl, fun g hg => ?_⟩
  by_cases hgf : g = f
  · subst hgf
    simp only [Function.update_self, toI32_of_range (x := (k.file g).ref + 1) (by omega) h2]
    omega
  · simp only [Function.update_of_ne hgf]
    omega

theorem dupFiles_loop {np : ProcIdx} (hne : cur ≠ np) (l : List (Fin nofile))
    (h : ∀ fd f, (k.proc cur).ofile fd = some f →
      1 ≤ (k.file f).ref ∧ (k.file f).ref + l.length < 2 ^ 31) :
    ∃ k', l.foldlM (fun (k : Kernel ncpu) fd =>
      match (k.proc cur).ofile fd with
      | none => .ok k
      | some f =>
        match k.filedup f with
        | .error e => .error e
        | .ok k => .ok (k.setProc np fun q =>
          { q with ofile := Function.update q.ofile fd (some f) })) k
      = (.ok k' : Except String (Kernel ncpu)) := by
  induction l generalizing k with
  | nil => exact ⟨k, rfl⟩
  | cons fd l ih =>
    simp only [List.length_cons] at h
    simp only [List.foldlM_cons]
    cases hfd : (k.proc cur).ofile fd with
    | none => exact ih fun fd' f hf => by have := h fd' f hf; omega
    | some f =>
      have hf := h fd f hfd
      obtain ⟨k₁, hdup, hproc, href⟩ := filedup_ok hf.1 (by omega)
      simp only [hdup]
      refine ih fun fd' f' hf' => ?_
      rw [setProc_proc, if_neg hne, hproc] at hf'
      have hold := h fd' f' hf'
      have hnew := href f' hold.1
      show 1 ≤ (k₁.file f').ref ∧ (k₁.file f').ref + l.length < 2 ^ 31
      omega

theorem dupFiles_total {np : ProcIdx} (hne : cur ≠ np) (h : k.FilesOk cur) :
    ∃ k', k.dupFiles cur np = .ok k' :=
  dupFiles_loop hne _ fun fd f hf => by
    rw [List.length_finRange]
    exact h fd f hf

/-! ## `clone` -/

theorem clone_total {d : Nat} {b : Bool} (slindex : Int) (fnc arg : Nat)
    (hcur : (k.proc cur).state ≠ .unused) (hd : (k.proc cur).pgdir = some d) (hf : k.FilesOk cur)
    (hout : ∀ (v : Vm) (bytes : List UInt8), v.space = k.vm.space → bytes.length = 8 →
      ∃ v', v.copyout d (toU32 (sp - 8)) bytes = .ok (b, v')) :
    ∃ r k', k.clone cur sp slindex fnc arg = .ok (r, k') := by
  unfold clone
  split
  · exact ⟨_, _, rfl⟩
  rename_i nt k1 ht
  have hne : cur ≠ nt := by
    rintro rfl
    exact hcur (tallocproc_allocs ht).unused
  obtain ⟨hothers, hfile1, hspace1⟩ : k1.proc cur = k.proc cur ∧ k1.file = k.file ∧
      k1.vm.space = k.vm.space := by
    cases tallocproc_allocs ht with
    | taken _ hk => exact ⟨by rw [setProc_proc, if_neg hne], rfl, (Vm.kalloc_eq hk).1⟩
  generalize hk2 : k1.setProc nt (cloneFields cur slindex (k1.proc cur)) = k2
  have hproc2 : k2.proc cur = k.proc cur := by
    rw [← hk2, setProc_proc, if_neg hne, hothers]
  have hf2 : k2.FilesOk cur := by
    intro fd f hfd
    rw [hproc2] at hfd
    have hfile : k2.file = k.file := by
      rw [← hk2, ← hfile1]
      rfl
    rw [hfile]
    exact hf fd f hfd
  obtain ⟨k3, hdup⟩ := dupFiles_total hne hf2
  obtain ⟨hvm3, hproc3⟩ := dupFiles_proc hdup
  have hvm : k3.vm.space = k.vm.space := by
    rw [hvm3, ← hk2]
    exact hspace1
  simp only [hdup, hproc3 cur hne, hproc2, hd]
  have hspace : ((k3.idup (k.proc cur).cwd).setProc nt fun q =>
      { q with
        cwd := (k.proc cur).cwd
        name := (k.proc cur).name
        pid := (k.proc cur).pid
        tid := toI32 ((k.proc cur).tid + 1) }).vm.space = k.vm.space := by
    rw [← hvm]
    cases (k.proc cur).cwd <;> rfl
  obtain ⟨v', hv'⟩ := hout _ (wordBytes 0xffffffff ++ wordBytes arg) hspace rfl
  rw [hv']
  cases b <;> exact ⟨_, _, rfl⟩

/-! ## The common end of the two branches -/

/-- The stack of slot `i` and its thread are there for the taking, or the
call panics on a page that is mapped already. -/
def stackSafe (k : Kernel ncpu) (p : ProcIdx) (d i : Nat) : Bool :=
  if (k.vm.space d).mapped (slotLow i) then decide (1 ≤ k.vm.freelist.length)
  else if (k.vm.space d).mapped (slotLow i + 1) then decide (2 ≤ k.vm.freelist.length)
  else decide (stackNeed k.vm d i < k.vm.freelist.length) && k.findUnused.isSome
    && decide (toI32 ((k.proc p).tid + 1) ≠ -1)

/-- A stack was allocated: `clone` is called on it, and it returns the new
tid when there is an entry and one more page. -/
theorem ktStack_some (hi : i < 8) (hg : guard = 2 ∨ guard = 4) (hc : k.Clean)
    (hcur : (k.proc cur).state ≠ .unused) (hd : (k.proc cur).pgdir = some d)
    (ha : k.stackAlloc d i guard = .ok (some sp, k₁))
    (h : k.ktStack cur d s i guard fnc arg = .ok (r, k')) :
    (∀ s', (k'.psl s').state = (k.psl s').state ∧
      (k'.psl s').threadCount = (k.psl s').threadCount) ∧
    (r = -1 ↔ k.stackSafe cur d i = false) := by
  obtain ⟨hk₁, hst⟩ := stackAlloc_some hi hg ha
  have hlow : (k.vm.space d).mapped (slotLow i) = false := by
    simpa [Vm.maps] using hst.unmapped _ (low_mem_slot i)
  have hhigh : (k.vm.space d).mapped (slotLow i + 1) = false := by
    simpa [Vm.maps] using hst.unmapped (slotLow i + 1) (by simp [slot])
  simp only [ktStack, ha] at h
  generalize hm : (k₁.setPsl s fun l => { l with stackz := Function.update l.stackz i true }) = m
    at h
  have hproc : m.proc = k.proc := by
    rw [← hm, hk₁]
    rfl
  have hvm : m.vm = k₁.vm := by
    rw [← hm]
    rfl
  have hfind : m.findUnused = k.findUnused := by
    unfold findUnused
    rw [hproc]
  have hpsl : ∀ s', (m.psl s').state = (k.psl s').state ∧
      (m.psl s').threadCount = (k.psl s').threadCount := by
    intro s'
    rw [← hm, setPsl_psl, hk₁]
    split
    · next hs =>
      subst hs
      exact ⟨rfl, rfl⟩
    · exact ⟨rfl, rfl⟩
  have hmc : m.Clean := by
    intro p
    have := hc p
    unfold Kernel.core at this ⊢
    rwa [hproc]
  rcases clone_cases hmc (by rwa [hproc]) h with ⟨rfl, rfl, hno⟩ | ⟨nt, ok, hcl, rfl⟩
  · refine ⟨hpsl, iff_of_true rfl ?_⟩
    rw [hfind, hvm] at hno
    rcases hno with hno | hno
    · simp [stackSafe, hlow, hhigh, hno]
    · have hsup := hst.supply
      rw [hno, List.length_nil] at hsup
      simp [stackSafe, hlow, hhigh, ← hsup]
  · rw [hcl.psl]
    refine ⟨hpsl, ?_⟩
    have hok : ok = true := by
      obtain ⟨d', v, v', hd', hs, ho⟩ := hcl.out
      rw [hproc, hd] at hd'
      cases hd'
      have hu : v.UserPage d (slotLow i + 1) := by
        have := hst.user
        unfold Vm.UserPage at this ⊢
        rwa [hs, hvm]
      have hlen : (wordBytes 0xffffffff ++ wordBytes arg).length = 8 := rfl
      obtain ⟨v'', ho'⟩ := copyout_stack hi hlen hu
      rw [← hst.top, ho] at ho'
      cases ho'
      rfl
    have hpage : 0 < k₁.vm.freelist.length := by
      rw [← hvm]
      exact List.length_pos_iff.mpr hcl.page
    have hneed : stackNeed k.vm d i < k.vm.freelist.length := by
      have := hst.supply
      omega
    have hent : k.findUnused.isSome = true := by
      rw [← hfind]
      apply List.find?_isSome.mpr
      exact ⟨nt, List.mem_finRange nt, by simp [hcl.unused]⟩
    subst hok
    simp [stackSafe, hlow, hhigh, hneed, hent, hproc]

theorem stackSafe_of_none (hi : i < 8) (ha : k.stackAlloc d i guard = .ok (none, k₁)) :
    k.stackSafe cur d i = false := by
  have hnot := (stackAlloc_none hi ha).2.1
  unfold stackSafe
  split
  · next hm =>
    have := stackAlloc_short hi ha (low_mem_slot i) hm
    simp only [decide_eq_false_iff_not]
    omega
  · split
    · next hm =>
      have := stackAlloc_short (x := slotLow i + 1) hi ha (by simp [slot]) hm
      simp only [decide_eq_false_iff_not]
      omega
    · unfold StackFits at hnot
      simp only [Bool.and_eq_false_iff, decide_eq_false_iff_not]
      exact .inl (.inl (by omega))

theorem stackSafe_of_error {msg : String} (hi : i < 8) (hg : guard = 2 ∨ guard = 4)
    (ha : k.stackAlloc d i guard = .error msg) : k.stackSafe cur d i = true := by
  unfold stackSafe
  rcases stackAlloc_error hi hg ha with ⟨hm, hle⟩ | ⟨hm, hle⟩
  · rw [if_pos (show (k.vm.space d).mapped (slotLow i) = true from hm)]
    simpa using hle
  · split
    · simp only [decide_eq_true_eq]
      omega
    · rw [if_pos (show (k.vm.space d).mapped (slotLow i + 1) = true from hm)]
      simpa using hle

theorem ktStack_safe (hi : i < 8) (hg : guard = 2 ∨ guard = 4) (hc : k.Clean)
    (hcur : (k.proc cur).state ≠ .unused) (hd : (k.proc cur).pgdir = some d)
    (hsafe : k.stackSafe cur d i = true)
    (h : k.ktStack cur d s i guard fnc arg = .ok (r, k')) : r ≠ -1 := by
  intro hr
  cases ha : k.stackAlloc d i guard with
  | error msg => simp [ktStack, ha] at h
  | ok x =>
    obtain ⟨o, k₁⟩ := x
    cases o with
    | none => simp [stackSafe_of_none hi ha] at hsafe
    | some sp => simp [((ktStack_some hi hg hc hcur hd ha h).2.mp hr)] at hsafe

theorem ktStack_total (fnc arg : Nat) (hi : i < 8) (hg : guard = 2 ∨ guard = 4)
    (hcur : (k.proc cur).state ≠ .unused) (hd : (k.proc cur).pgdir = some d) (hf : k.FilesOk cur)
    (ha : k.stackAlloc d i guard = .ok (some sp, k₁)) :
    ∃ r k', k.ktStack cur d s i guard fnc arg = .ok (r, k') := by
  obtain ⟨hk₁, hst⟩ := stackAlloc_some hi hg ha
  simp only [ktStack, ha]
  apply clone_total (d := d) (b := true)
  · rw [setPsl_proc, hk₁]
    exact hcur
  · rw [setPsl_proc, hk₁]
    exact hd
  · intro fd f hfd
    rw [setPsl_proc, hk₁] at hfd
    have := hf fd f hfd
    rw [hk₁]
    exact this
  · intro v bytes hs hb
    rw [hst.top]
    apply copyout_stack hi hb
    have hu := hst.user
    unfold Vm.UserPage at hu ⊢
    rw [hs]
    exact hu

/-- Where it is not, the rest of the call returns `-1` and the list is left
as it was prepared. -/
theorem ktStack_unsafe (fnc arg : Nat) (hi : i < 8) (hg : guard = 2 ∨ guard = 4) (hc : k.Clean)
    (hcur : (k.proc cur).state ≠ .unused) (hd : (k.proc cur).pgdir = some d)
    (hf : k.FilesOk cur) (hun : k.stackSafe cur d i = false) :
    ∃ k', k.ktStack cur d s i guard fnc arg = .ok (-1, k') ∧
      (k'.psl s).state = (k.psl s).state ∧ (k'.psl s).threadCount = (k.psl s).threadCount := by
  cases ha : k.stackAlloc d i guard with
  | error msg => simp [stackSafe_of_error hi hg ha] at hun
  | ok x =>
    obtain ⟨o, k₁⟩ := x
    cases o with
    | none =>
      obtain ⟨hk₁, -⟩ := stackAlloc_none hi ha
      have hpsl : k₁.psl = k.psl := by rw [hk₁]
      refine ⟨(k₁.ktBad d).2, by simp only [ktStack, ha]; rfl, ?_⟩
      show (k₁.psl s).state = _ ∧ (k₁.psl s).threadCount = _
      simp [hpsl]
    | some sp =>
      obtain ⟨r, k', h⟩ := ktStack_total (s := s) fnc arg hi hg hcur hd hf ha
      obtain ⟨hpsl, hr⟩ := ktStack_some hi hg hc hcur hd ha h
      obtain rfl := hr.mpr hun
      exact ⟨k', h, hpsl s⟩

/-! ## `KT_Create` -/

/-- What a `KT_Create` that fails should leave alone: the process table,
the stack lists, every user mapping, the reference counts and the set of
free pages. -/
structure Unchanged (k k' : Kernel ncpu) : Prop where
  proc : k'.proc = k.proc
  psl : k'.psl = k.psl
  entry : ∀ d vpn, (k'.vm.space d).entry vpn = (k.vm.space d).entry vpn
  file : k'.file = k.file
  iref : k'.iref = k.iref
  free : ∀ pg, pg ∈ k'.vm.freelist ↔ pg ∈ k.vm.freelist

theorem Unchanged.refl (k : Kernel ncpu) : Unchanged k k :=
  ⟨rfl, rfl, fun _ _ => rfl, rfl, rfl, fun _ => Iff.rfl⟩

/-- The condition, on the state before the call: there is nothing to do, or
no list to change, or nothing that can fail after the list was changed. -/
def createSafe (k : Kernel ncpu) (p : ProcIdx) (fnc : Nat) : Bool :=
  if fnc = 0 then true
  else
    match (k.proc p).pgdir with
    | none => true
    | some d =>
      match (k.proc p).psl with
      | some s =>
        if (k.psl s).threadCount = 8 then true
        else
          match findSlot (k.psl s) with
          | none => false
          | some i => k.stackSafe p d i
      | none =>
        match k.findPsl with
        | none => k.findUnused.isNone || k.vm.freelist.isEmpty
        | some _ => k.stackSafe p d 1

theorem claimed_proc (k : Kernel ncpu) (cur : ProcIdx) (s : PslIdx) :
    ((k.claimed cur s).proc cur) = { k.proc cur with psl := some s, slindex := 0 } := by
  simp [claimed]

theorem claimed_stackSafe (k : Kernel ncpu) (cur : ProcIdx) (s : PslIdx) (d i : Nat) :
    (k.claimed cur s).stackSafe cur d i = k.stackSafe cur d i := by
  have hfind : (k.claimed cur s).findUnused = k.findUnused := by
    unfold findUnused
    congr 1
    funext q
    rw [claimed, setProc_proc]
    split
    · next hq => rw [hq]; rfl
    · rfl
  unfold stackSafe
  rw [hfind, claimed_proc]
  rfl

theorem claimed_clean (hc : k.Clean) (ht : k.world.thread cur = some t) : (k.claimed cur s).Clean :=
  (claim_refines hc ht).1

theorem ktCreate_safe (hc : k.Clean) (ht : k.world.thread cur = some t)
    (hsafe : k.createSafe cur fnc = true) (h : k.ktCreate cur fnc arg = .ok (-1, k')) : k' = k := by
  have hcur := state_ne_unused ht
  obtain ⟨-, -, hd, -⟩ := world_thread_eq_some.mp ht
  cases ktCreate_path fnc arg hd with
  | refused _ hx =>
    rw [hx] at h
    cases h
    rfl
  | noList hf hs hfull hx =>
    rw [hx] at h
    simp only [createSafe, if_neg hf, hd, hs, hfull, Bool.or_eq_true] at hsafe
    rcases clone_cases hc hcur h with ⟨-, rfl, -⟩ | ⟨nt, ok, hcl, -⟩
    · rfl
    · rcases hsafe with hnone | hempty
      · have := List.find?_eq_none.mp (Option.isNone_iff_eq_none.mp hnone) nt
          (List.mem_finRange nt)
        simp [hcl.unused] at this
      · exact absurd (List.isEmpty_iff.mp hempty) hcl.page
  | first s hf hs hfree hx =>
    rw [hx] at h
    simp only [createSafe, if_neg hf, hd, hs, hfree] at hsafe
    rw [← claimed_stackSafe k cur s] at hsafe
    exact absurd rfl (ktStack_safe (by omega) (.inr rfl) (claimed_clean hc ht)
      (by rw [claimed_proc]; exact hcur) (by rw [claimed_proc]; exact hd) hsafe h)
  | noSlot s hf hs hcount hnone _ => simp [createSafe, hf, hd, hs, hcount, hnone] at hsafe
  | next s i hf hs hcount hslot hx =>
    rw [hx] at h
    simp only [createSafe, if_neg hf, hd, hs, if_neg hcount, hslot] at hsafe
    exact absurd rfl (ktStack_safe (k := k.counted s) (findSlot_some hslot).1 (.inl rfl) hc hcur
      hd hsafe h)

/-- In any other state the call returns `-1` and has changed a stack list,
or has left an entry behind. -/
theorem ktCreate_unsafe (arg : Nat) (hc : k.Clean) (ht : k.world.thread cur = some t)
    (hslots : k.world.SlotInv) (hf' : k.FilesOk cur) (hun : k.createSafe cur fnc = false) :
    ∃ k', k.ktCreate cur fnc arg = .ok (-1, k') ∧ ¬ Unchanged k k' := by
  have hcur := state_ne_unused ht
  obtain ⟨-, -, hd, -, hl, -⟩ := world_thread_eq_some.mp ht
  cases ktCreate_path fnc arg hd with
  | refused hr _ =>
    rcases hr with hf | ⟨s, hs, hcount⟩
    · simp [createSafe, hf] at hun
    · simp [createSafe, hd, hs, hcount] at hun
  | noList hf hs hfull hx =>
    simp only [createSafe, if_neg hf, hd, hs, hfull, Bool.or_eq_false_iff] at hun
    obtain ⟨hent, hpage⟩ := hun
    rw [hx]
    obtain ⟨r, k', h⟩ := clone_total (-1) fnc arg hcur hd hf'
      fun v bytes _ hb => copyout_at_null (v := v) (d := t.pgdir) hb
    rcases clone_cases hc hcur h with ⟨-, -, hno⟩ | ⟨nt, ok, hcl, rfl⟩
    · rcases hno with hno | hno
      · simp [hno] at hent
      · simp [hno] at hpage
    · have hok : ok = false := by
        obtain ⟨d', v, v', hd', -, ho⟩ := hcl.out
        have hlen : (wordBytes 0xffffffff ++ wordBytes arg).length = 8 := rfl
        obtain ⟨v'', ho'⟩ := copyout_at_null (v := v) (d := d') hlen
        rw [ho] at ho'
        cases ho'
        rfl
      subst hok
      refine ⟨k', h, fun hu => ?_⟩
      -- the entry is `EMBRYO` now
      obtain ⟨pg, hcore⟩ := hcl.core
      have hnt := congrArg Core.life (congrFun hcore nt)
      rw [Function.update_self] at hnt
      have hl : (k.proc nt).state.life = some .embryo := by
        rw [← hu.proc]
        exact hnt
      rw [hcl.unused] at hl
      cases hl
  | first s hf hs hfree hx =>
    simp only [createSafe, if_neg hf, hd, hs, hfree] at hun
    rw [← claimed_stackSafe k cur s] at hun
    rw [hx]
    obtain ⟨k', h, hst, -⟩ := ktStack_unsafe (k := k.claimed cur s) (s := s)
      fnc arg (by omega) (.inr rfl) (claimed_clean hc ht)
      (by rw [claimed_proc]; exact hcur) (by rw [claimed_proc]; exact hd)
      (by intro fd f hfd; rw [claimed_proc] at hfd; exact hf' fd f hfd) hun
    refine ⟨k', h, fun hu => ?_⟩
    have hunused : (k.psl s).state = .unused := by
      simpa using List.find?_some hfree
    have hused : ((k.claimed cur s).psl s).state = .used := by
      simp [claimed, setPsl]
    rw [hu.psl, hunused, hused] at hst
    cases hst
  | noSlot s _ hs hcount hnone _ =>
    exact absurd hnone (hslots.findSlot_ne_none ht (hl.symm.trans hs) hcount)
  | next s i hf hs hcount hslot hx =>
    simp only [createSafe, if_neg hf, hd, hs, if_neg hcount, hslot] at hun
    rw [hx]
    obtain ⟨k', h, -, hn⟩ := ktStack_unsafe (k := k.counted s) (s := s)
      fnc arg (findSlot_some hslot).1 (.inl rfl) hc hcur hd hf' hun
    refine ⟨k', h, fun hu => ?_⟩
    rw [hu.psl, counted, setPsl_psl, if_pos rfl] at hn
    simp at hn

/-- **`KT_Create` is all-or-nothing exactly where it is safe.** By the
process a CPU runs, in any state a run reaches: where `createSafe` holds a
call that returns `-1` changed nothing, and where it does not hold the call
does return `-1` and did. The converse needs the counts of the caller's
open files to be right, or the call would panic in `filedup`. -/
theorem create_all_or_nothing {k₀ k : Kernel ncpu} {tr : List (Kernel ncpu × Act ncpu)}
    {c : Fin ncpu} {p : ProcIdx} (h0 : Boot k₀) (hr : Run next k₀ tr k) (hcpu : k.cpu c = some p)
    (fnc arg : Nat) :
    (k.createSafe p fnc = true → ∀ k', k.ktCreate p fnc arg = .ok (-1, k') → Unchanged k k') ∧
    (k.FilesOk p → (∀ k', k.ktCreate p fnc arg = .ok (-1, k') → Unchanged k k') →
      k.createSafe p fnc = true) := by
  have hk : Kept k := Run.always (kept_boot h0) (fun _ _ _ hi hn => hi.step hn) hr
  obtain ⟨t, ht, -⟩ := caller hk.sched hk.clean hcpu
  constructor
  · intro hsafe k' h
    rw [ktCreate_safe hk.clean ht hsafe h]
    exact .refl k
  · intro hf hall
    by_contra hun
    obtain ⟨k', h, hnot⟩ := ktCreate_unsafe arg hk.clean ht hk.slots hf
      (Bool.eq_false_iff.mpr hun)
    exact hnot (hall k' h)

/-- `initproc` starts as many threads as its stack list has slots. -/
def listFilled : List (Kernel 1 × Act 1) × Kernel 1 :=
  (follow next threadMachine
    (.schedule 0 0 :: List.replicate 7 (.call 0 (.ktCreate pgsize 0)))).get (by decide +kernel)

theorem create_all_or_nothing_listFilled :
    ∃ k', listFilled.2.ktCreate initproc pgsize 0 = .ok (-1, k') ∧
      Unchanged listFilled.2 k' := by
  have hr : Run next threadMachine listFilled.1 listFilled.2 := run_get _
  obtain ⟨hcpu, hsafe, k', h⟩ : listFilled.2.cpu 0 = some initproc ∧
      listFilled.2.createSafe initproc pgsize = true ∧
      ∃ k', listFilled.2.ktCreate initproc pgsize 0 = .ok (-1, k') := by decide +kernel
  exact ⟨k', h, (create_all_or_nothing boot_threadMachine hr hcpu pgsize 0).1 hsafe k' h⟩

/-- `initproc` of a machine without a free page is running. -/
def noMemory : List (Kernel 2 × Act 2) × Kernel 2 :=
  (follow next smallMachine [.schedule 0 0]).get smallMachine_runs

/-- `KT_Create` fails for want of memory. The caller is left with a stack
list of two threads, and with the page table it runs on freed. -/
theorem create_not_undone :
    Boot smallMachine ∧ Run next smallMachine noMemory.1 noMemory.2 ∧
    noMemory.2.cpu 0 = some initproc ∧
    ∃ k', noMemory.2.ktCreate initproc pgsize 0 = .ok (-1, k') ∧
      (noMemory.2.psl 0).state = .unused ∧ (k'.psl 0).state = .used ∧
      (k'.psl 0).threadCount = 2 ∧ (noMemory.2.proc initproc).psl = none ∧
      (k'.proc initproc).psl = some 0 ∧ k'.vm.freed = [0] ∧
      (noMemory.2.vm.space 0).entry 0 ≠ none ∧ (k'.vm.space 0).entry 0 = none := by
  refine ⟨boot_smallMachine, run_get _, ?_⟩
  decide +kernel

end Kernel

end Xv6.Kern
