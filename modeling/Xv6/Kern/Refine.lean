/-
Xv6.Kern.Refine — every action of the kernel is a step of the world of
threads and address spaces.

Each function of `Thread.lean` and `Process.lean` gets one lemma that says
which entry it changes and how; `refines` puts them together: an action
either leaves the world as it is, or is a system call whose effect is a
`World.Step`. What later theorems prove about worlds holds for the kernel
through it.
-/
import Xv6.Mem.Supply
import Xv6.Kern.SchedTheorems

namespace Xv6.Kern

open Xv6.Lib Xv6.Mem Function

variable {ncpu : Nat}
  {a : Act ncpu} {cpu : Fin ncpu} {slindex : Int} {m m' : Kernel ncpu} {sp sz : Nat}
  {fits : Nat → Nat → Prop} {o : Option Int} {v v' : Vm}

theorem Core.eq_of_thread {c : Core} {t : Thread} (h : c.thread = some t) :
    c = ⟨some t.life, t.sz, some t.pgdir, c.kstack, t.pthread, t.psl, t.slindex⟩ := by
  obtain ⟨h1, h2, h3, h4, h5, h6⟩ := Core.thread_eq_some.mp h
  ext <;> simp_all

theorem Core.clean_of_used {c : Core} {l : Life} {d : Nat} (hl : c.life = some l)
    (hd : c.pgdir = some d) : c.Clean := by
  refine ⟨?_, ?_⟩
  · intro h
    rw [hl] at h
    cases h
  · intro _
    simp [hd]

namespace Kernel

variable {k k' : Kernel ncpu} {cur p q z : ProcIdx} {t : Thread} {s : PslIdx} {r : Int}
  {d i guard fnc arg : Nat} {c : Core} {pid : Proc → Int} {n : Int}

/-! ## One entry changes -/

theorem world_of_update (h : k'.core = update k.core p c) :
    k'.world
      = { thread := update k.world.thread p c.thread, psl := k'.psl, mem := k'.vm.maps } := by
  unfold world
  rw [h]
  congr 1
  funext q
  by_cases hq : q = p
  · subst hq
    simp
  · simp [hq]

theorem clean_of_update (hc : k.Clean) (h : k'.core = update k.core p c)
    (hcl : c.Clean) : k'.Clean := by
  intro q
  rw [h]
  by_cases hq : q = p
  · subst hq
    simpa using hcl
  · simpa [hq] using hc q

theorem schedOut_core (k : Kernel ncpu) (cpu : Fin ncpu) (p : ProcIdx) (st : ProcState) :
    (k.schedOut cpu p st).core
      = update k.core p { k.core p with life := st.life } :=
  setProc_core k p fun q => { q with state := st }

theorem frame_schedOut {st : ProcState} (hst : st.life = some .live)
    (hl : (k.core p).life = some .live) : Frame k (k.schedOut cpu p st) := by
  refine ⟨?_, rfl, rfl⟩
  rw [schedOut_core, hst, ← hl]
  exact update_eq_self p k.core

theorem frame_sleep {chan : Chan} (hl : (k.core p).life = some .live) :
    Frame k (k.sleep cpu p chan) := by
  have h1 : Frame k (k.setProc p fun q => { q with chan := chan }) := .setProc rfl
  refine h1.trans (frame_schedOut rfl ?_)
  rw [h1.core]
  exact hl

/-! ## Entries handed out -/

theorem Allocs.frame (hc : k.Clean) (h : Allocs k pid n none k') : Frame k k' := by
  cases h with
  | full => exact .refl k
  | @short p v hp hk =>
    obtain ⟨-, hmaps, -, -⟩ := Vm.kalloc_eq hk
    have hl := ProcState.life_eq_none.mpr (findUnused_state hp)
    refine ⟨(setProc_core ..).trans (update_eq_self_iff.mpr ?_), rfl, hmaps⟩
    show ({ k.core p with kstack := none, life := none } : Core) = k.core p
    rw [← ((hc p).unused hl).1, ← hl]
    rfl

theorem tallocproc_none (hc : k.Clean) (h : k.tallocproc = (none, k')) :
    k' = k ∧ (k.findUnused = none ∨ k.vm.freelist = []) := by
  cases tallocproc_allocs h with
  | full hf => exact ⟨rfl, .inl hf⟩
  | @short p v hp hk =>
    obtain ⟨-, -, hn, -⟩ := Vm.kalloc_eq hk
    obtain ⟨hnil, rfl⟩ := hn rfl
    have hu := findUnused_state hp
    have hks : (k.proc p).kstack = none := ((hc p).unused (ProcState.life_eq_none.mpr hu)).1
    have hsame : ({ k.proc p with kstack := none, state := .unused } : Proc) = k.proc p := by
      rw [← hks, ← hu]
    refine ⟨?_, .inr hnil⟩
    simp only [setProc, hsame, update_eq_self]

/-! ## `clone` -/

theorem dupFiles_proc {cur np : ProcIdx} (h : k.dupFiles cur np = .ok k') :
    k'.vm = k.vm ∧ ∀ q, q ≠ np → k'.proc q = k.proc q := by
  obtain ⟨file, ofile, rfl⟩ := dupFiles_eq h
  exact ⟨rfl, fun q hq => by rw [setProc_proc, if_neg hq]⟩

/-- The entry `clone` fills. -/
def clonedCore (cur : ProcIdx) (c : Core) (pg : Page) (slindex : Int) (l : Life) : Core where
  life := some l
  sz := c.sz
  pgdir := c.pgdir
  kstack := some pg
  pthread := some cur
  psl := c.psl
  slindex := slindex

/-- `clone` found the entry `nt`; `ok` says whether `copyout` succeeded. -/
structure Cloned (k k' : Kernel ncpu) (cur nt : ProcIdx) (sp : Nat) (slindex : Int) (arg : Nat)
    (ok : Bool) : Prop where
  unused : (k.proc nt).state = .unused
  core : ∃ pg, k'.core = update k.core nt
    (clonedCore cur (k.core cur) pg slindex (if ok then .live else .embryo))
  psl : k'.psl = k.psl
  maps : k'.vm.maps = k.vm.maps
  page : k.vm.freelist ≠ []
  out : ∃ (d : Nat) (v v' : Vm), (k.proc cur).pgdir = some d ∧ v.space = k.vm.space ∧
    v.copyout d (toU32 (sp - 8)) (wordBytes 0xffffffff ++ wordBytes arg) = .ok (ok, v')

theorem clone_cases {fnc arg : Nat} (hc : k.Clean)
    (hcur : (k.proc cur).state ≠ .unused) (h : k.clone cur sp slindex fnc arg = .ok (r, k')) :
    (r = -1 ∧ k' = k ∧ (k.findUnused = none ∨ k.vm.freelist = [])) ∨
    ∃ nt ok, Cloned k k' cur nt sp slindex arg ok ∧
      r = if ok then toI32 ((k.proc cur).tid + 1) else -1 := by
  rcases clone_eq h with ⟨rfl, ht⟩ | ⟨nt, pg, v, v', file, iref, ofile, old, old', d, ok, hu, hk,
    hold, hd, hout, hr, rfl⟩
  · exact .inl ⟨rfl, tallocproc_none hc ht⟩
  have hne : cur ≠ nt := by
    rintro rfl
    exact hcur hu
  obtain ⟨rfl, rfl⟩ := hold hne
  obtain ⟨hspace, hmaps, -, hfree⟩ := Vm.kalloc_eq hk
  refine .inr ⟨nt, ok, ⟨hu, ⟨pg, ?_⟩, rfl, (Vm.copyout_maps hout).trans hmaps, ?_,
    d, v, v', hd, hspace, hout⟩, hr⟩
  · refine (setProc_core _ nt _).trans ?_
    cases ok <;> rfl
  · rw [hfree pg rfl]
    exact List.cons_ne_nil _ _

theorem clone_refines {fnc arg : Nat} {b : Bool} (hc : k.Clean) (ht : k.world.thread cur = some t)
    (hout : ∀ (v : Vm) (bytes : List UInt8), v.space = k.vm.space → bytes.length = 8 →
      ∃ v', v.copyout t.pgdir (toU32 (sp - 8)) bytes = .ok (b, v'))
    (h : k.clone cur sp slindex fnc arg = .ok (r, k')) :
    k'.Clean ∧ (r = -1 ∧ k' = k ∨ ∃ nt, k.world.thread nt = none ∧
      k'.world = k.world.spawn cur t nt slindex (if b then .live else .embryo) ∧
      (b = false → r = -1)) := by
  obtain ⟨-, -, hpd, -⟩ := world_thread_eq_some.mp ht
  rcases clone_cases hc (state_ne_unused ht) h with ⟨hr, rfl, -⟩ | ⟨nt, ok, hcl, hr⟩
  · exact ⟨hc, .inl ⟨hr, rfl⟩⟩
  · obtain ⟨d, v, v', hd, hs, ho⟩ := hcl.out
    rw [hpd] at hd
    cases hd
    obtain ⟨v'', ho'⟩ := hout v (wordBytes 0xffffffff ++ wordBytes arg) hs rfl
    rw [ho] at ho'
    cases ho'
    obtain ⟨pg, hcore⟩ := hcl.core
    have hth := Core.eq_of_thread ht
    refine ⟨clean_of_update hc hcore (Core.clean_of_used rfl (congrArg Core.pgdir hth)),
      .inr ⟨nt, (world_thread_eq_none hc).mpr hcl.unused, ?_, ?_⟩⟩
    · rw [world_of_update hcore, hcl.psl, hcl.maps, hth]
      rfl
    · rintro rfl
      exact hr

/-! ## `KT_Create` -/

/-- The pages the stack of slot `i` takes. -/
def stackNeed (v : Vm) (d i : Nat) : Nat := 2 + v.tableCost d (slotLow i / nptentries)

/-- The allocator has them. -/
def StackFits (v : Vm) (d i : Nat) : Prop := stackNeed v d i ≤ v.freelist.length
  deriving Decidable

/-- The stack of slot `i` was allocated, and its pointer is `sp`. -/
structure Stacked (v v' : Vm) (d i sp : Nat) : Prop where
  top : sp = (slotLow i + 2) * pgsize
  maps : v'.maps = v.maps.fill d (slot i)
  user : v'.UserPage d (slotLow i + 1)
  supply : stackNeed v d i + v'.freelist.length = v.freelist.length
  unmapped : ∀ x ∈ slot i, x ∉ v.maps.mapped d

theorem slot_ico (i : Nat) : Set.Ico (npages (slotLow i * pgsize))
    (npages ((slotLow i + 2) * pgsize)) = slot i := by
  rw [npages_mul_pgsize, npages_mul_pgsize]
  rfl

theorem slot_table (hi : i < 8) : ∀ x ∈ slot i, x / nptentries = slotLow i / nptentries := by
  intro x hx
  simp only [slot, slotLow_eq, Set.mem_Ico, nptentries] at hx ⊢
  omega

theorem slot_lt (i : Nat) : slotLow i * pgsize < (slotLow i + 2) * pgsize := by
  simp only [pgsize]
  omega

theorem slot_lt_kernbase : (slotLow i + 2) * pgsize < kernbase := by
  simp only [slotLow_eq, pgsize, kernbase]
  omega

theorem stackAlloc_none (hi : i < 8) (h : k.stackAlloc d i guard = .ok (none, k')) :
    k' = { k with vm := k'.vm } ∧ ¬ StackFits k.vm d i ∧
      k'.vm.maps = k.vm.maps.cut d (slot i) := by
  obtain ⟨hk, hrun⟩ := stackAlloc_run h
  cases hrun with
  | short ha =>
    refine ⟨hk, ?_, ?_⟩
    · have := Vm.allocuvm_short (slot_lt i) slot_lt_kernbase
        (by rw [slot_ico]; exact slot_table hi) ha
      rw [npages_mul_pgsize, npages_mul_pgsize] at this
      unfold StackFits stackNeed
      omega
    · rcases (Vm.allocated ha).of_le (Nat.le_of_lt (slot_lt i)) slot_lt_kernbase with
        ⟨h0, -⟩ | ⟨-, hm⟩
      · exact absurd h0.symm (Nat.ne_of_gt (Nat.zero_lt_of_lt (slot_lt i)))
      · rw [hm, slot_ico]

theorem stackAlloc_some (hi : i < 8) (hg : guard = 2 ∨ guard = 4)
    (h : k.stackAlloc d i guard = .ok (some sp, k')) :
    k' = { k with vm := k'.vm } ∧ Stacked k.vm k'.vm d i sp := by
  obtain ⟨hk, hrun⟩ := stackAlloc_run h
  refine ⟨hk, ?_⟩
  obtain _ | ⟨hne, ha, hcl⟩ := hrun
  have hlt : npages (slotLow i * pgsize) < npages ((slotLow i + 2) * pgsize) := by
    rw [npages_mul_pgsize, npages_mul_pgsize]
    omega
  obtain ⟨hsp, hsup, huser⟩ := Vm.allocuvm_supply hlt
    (by rw [slot_ico]; exact slot_table hi) ha hne
  rw [npages_mul_pgsize, npages_mul_pgsize] at hsup
  obtain ⟨hfl, hkeep⟩ := Vm.clearpteu_supply hcl
  have hvpn : slotLow i + 1 ≠ sp / pgsize - guard := by
    rw [hsp]
    simp only [slotLow_eq, pgsize]
    omega
  have hgrown := ((Vm.allocated ha).of_le (Nat.le_of_lt (slot_lt i)) slot_lt_kernbase).resolve_right
    fun hfail => hne hfail.1
  rw [slot_ico] at hgrown
  obtain ⟨-, hunmapped, hm⟩ := hgrown
  refine ⟨hsp, ?_, ?_, ?_, hunmapped⟩
  · rw [Vm.clearpteu_ok hcl, hm]
  · apply hkeep _ hvpn
    apply huser
    rw [slot_ico]
    simp [slot]
  · rw [hfl]
    unfold stackNeed
    omega

theorem copyout_stack {d i : Nat} {bytes : List UInt8} (hi : i < 8) (hb : bytes.length = 8)
    (hu : v.UserPage d (slotLow i + 1)) :
    ∃ v', v.copyout d (toU32 (((slotLow i + 2) * pgsize : Nat) - 8)) bytes = .ok (true, v') := by
  have hva : toU32 (((slotLow i + 2) * pgsize : Nat) - 8) = (slotLow i + 1) * pgsize + 4088 := by
    simp only [slotLow_eq, toU32, pgsize]
    omega
  have hpg : ((slotLow i + 1) * pgsize + 4088) / pgsize = slotLow i + 1 := by
    simp only [pgsize]
    omega
  rw [hva]
  apply Vm.copyout_userPage
  · rw [hpg]
    simp only [slotLow_eq, kernbase, pgsize]
    omega
  · rw [hb]
    simp only [pgsize]
    omega
  · rw [hpg]
    exact hu

/-- `copyout` below a null stack pointer fails. -/
theorem copyout_at_null {v : Vm} {d : Nat} {bytes : List UInt8} (hb : bytes.length = 8) :
    ∃ v', v.copyout d (toU32 (((0 : Nat) : Int) - 8)) bytes = .ok (false, v') := by
  refine ⟨v, Vm.copyout_kernel ?_ (by decide) (by decide)⟩
  rintro rfl
  cases hb

theorem claim_refines (hc : k.Clean) (ht : k.world.thread cur = some t) :
    (k.claimed cur s).Clean ∧ (k.claimed cur s).world = k.world.claim cur t s := by
  have hth := Core.eq_of_thread ht
  have hcore := setProc_core (k.setPsl s fun l =>
    { stackz := update l.stackz 0 true, threadCount := 2, state := .used }) cur
      fun q => { q with psl := some s, slindex := 0 }
  have hnew : ({ (k.core cur) with psl := some s, slindex := 0 } : Core).thread
      = some (t.claimed s) := by
    rw [hth]
    rfl
  constructor
  · refine clean_of_update hc hcore ?_
    show ({ (k.core cur) with psl := some s, slindex := 0 } : Core).Clean
    rw [hth]
    exact Core.clean_of_used rfl rfl
  · refine (world_of_update hcore).trans ?_
    show World.mk (update k.world.thread cur
      (Core.thread { k.core cur with psl := some s, slindex := 0 })) _ _ = _
    rw [hnew]
    rfl

theorem stack_refines {i : Nat} (hi : i < 8) (hc : m.Clean) (ht : m.world.thread cur = some t)
    (hm : m' = { m with vm := m'.vm }) (hst : Stacked m.vm m'.vm t.pgdir i sp)
    (h : (m'.setPsl s fun l => { l with stackz := update l.stackz i true }).clone cur sp i fnc arg =
      .ok (r, k')) :
    k'.Clean ∧ World.Spawned (m.world.stack s t.pgdir i) cur t i k'.world ∧
      (r ≠ -1 → World.Created m.world k'.world) := by
  have hcore : m'.core = m.core := by
    rw [hm]
    rfl
  have hpsl : m'.psl = m.psl := by
    rw [hm]
  have hw : (m'.setPsl s fun l => { l with stackz := update l.stackz i true }).world
      = m.world.stack s t.pgdir i := by
    simp only [world, setPsl, World.stack, World.setPsl, World.setMem, hpsl, hst.maps]
    congr 1
    funext p
    exact congrArg Core.thread (congrFun hcore p)
  have hc' : (m'.setPsl s fun l => { l with stackz := update l.stackz i true }).Clean := by
    intro p
    have := hc p
    rw [← hcore] at this
    exact this
  have ht' : (m'.setPsl s fun l => { l with stackz := update l.stackz i true }).world.thread
      cur = some t := by
    rw [hw]
    exact ht
  have hcl := clone_refines (b := true) hc' ht' (by
    intro v bytes hs hb
    rw [hst.top]
    apply copyout_stack hi hb
    have hu := hst.user
    unfold Vm.UserPage at hu ⊢
    rw [hs]
    exact hu) h
  refine ⟨hcl.1, ?_⟩
  rcases hcl.2 with ⟨hr, rfl⟩ | ⟨nt, hnt, hk, -⟩
  · rw [hw]
    exact ⟨.none, fun hne => absurd hr hne⟩
  · rw [hw] at hnt hk
    rw [hk]
    exact ⟨.thread nt hnt, fun _ => ⟨nt, _, hnt, World.set_thread_self _ _ _, rfl⟩⟩

theorem ktBad_world {d i : Nat} (hm : m' = { m with vm := m'.vm })
    (hmaps : m'.vm.maps = m.vm.maps.cut d (slot i)) :
    (m'.ktBad d).2.core = m.core ∧ (m'.ktBad d).2.world = m.world.setMem (m.vm.maps.free d) := by
  have hcore : (m'.ktBad d).2.core = m.core := by
    rw [hm]
    rfl
  refine ⟨hcore, ?_⟩
  have hpsl : m'.psl = m.psl := by
    rw [hm]
  have hfree : (m'.vm.freevm d).maps = m.vm.maps.free d := by
    rw [Vm.maps_freevm, hmaps, Maps.free_cut]
  show ({ thread := fun p => ((m'.ktBad d).2.core p).thread, psl := m'.psl,
          mem := (m'.vm.freevm d).maps } : World) = _
  rw [hcore, hpsl, hfree]
  rfl

theorem ktStack_refines {i guard : Nat} (hi : i < 8) (hg : guard = 2 ∨ guard = 4) (hc : m.Clean)
    (ht : m.world.thread cur = some t) (h : m.ktStack cur t.pgdir s i guard fnc arg = .ok (r, k')) :
    k'.Clean ∧ ((r = -1 ∧ ¬ StackFits m.vm t.pgdir i ∧
        k'.world = m.world.setMem (m.vm.maps.free t.pgdir)) ∨
      (World.Spawned (m.world.stack s t.pgdir i) cur t i k'.world ∧
        (r ≠ -1 → World.Created m.world k'.world))) := by
  unfold ktStack at h
  split at h
  · cases h
  · next m₁ ha =>
    obtain ⟨hm, hnot, hmaps⟩ := stackAlloc_none hi ha
    obtain ⟨hcore, hw⟩ := ktBad_world hm hmaps
    obtain rfl : (m₁.ktBad t.pgdir).2 = k' := congrArg Prod.snd (Except.ok.inj h)
    have hr : -1 = r := congrArg Prod.fst (Except.ok.inj h)
    refine ⟨fun p => ?_, .inl ⟨hr.symm, hnot, hw⟩⟩
    rw [hcore]
    exact hc p
  rename_i sp m₁ ha
  obtain ⟨hm, hst⟩ := stackAlloc_some hi hg ha
  obtain ⟨hc', hsp⟩ := stack_refines hi hc ht hm hst h
  exact ⟨hc', .inr hsp⟩

theorem ktCreate_refines (hc : k.Clean) (ht : k.world.thread cur = some t)
    (h : k.ktCreate cur fnc arg = .ok (r, k')) :
    k'.Clean ∧ World.Step (StackFits k.vm) k.world cur t (.ktCreate fnc arg) k'.world ∧
      (r ≠ -1 → World.Created k.world k'.world) := by
  obtain ⟨-, -, hd, -, hl, -⟩ := world_thread_eq_some.mp ht
  cases ktCreate_path fnc arg hd with
  | refused _ hx =>
    rw [hx] at h
    cases h
    exact ⟨hc, .stay _, fun hne => absurd rfl hne⟩
  | noList hf hs hnone hx =>
    rw [hx] at h
    obtain ⟨hc', hor⟩ := clone_refines (b := false) hc ht
      (fun v bytes _ hb => copyout_at_null hb) h
    refine ⟨hc', ?_⟩
    rcases hor with ⟨hr, rfl⟩ | ⟨nt, hnt, hk, hr⟩
    · exact ⟨.stay _, fun hne => absurd hr hne⟩
    · rw [hk]
      refine ⟨.ktEmbryo fnc arg nt hf (hl.symm.trans hs) (fun s hu => ?_) hnt,
        fun hne => absurd (hr rfl) hne⟩
      have := List.find?_eq_none.mp hnone s (List.mem_finRange s)
      simp [show (k.psl s).state = .unused from hu] at this
  | first s hf hs hsome hx =>
    rw [hx] at h
    have hpsl := hl.symm.trans hs
    have hfree : (k.psl s).state = .unused := by simpa using List.find?_some hsome
    obtain ⟨hc1, hw1⟩ := claim_refines (s := s) hc ht
    have ht1 : (k.claimed cur s).world.thread cur = some (t.claimed s) := by
      rw [hw1]
      exact World.set_thread_self _ _ _
    obtain ⟨hc', hbad | ⟨hsp, hcr⟩⟩ := ktStack_refines (by omega) (.inr rfl) hc1 ht1 h
    · obtain ⟨hr, hnot, hw⟩ := hbad
      rw [hw, hw1]
      exact ⟨hc', .ktFirstBad fnc arg s hf hpsl hfree hnot, fun hne => absurd hr hne⟩
    · rw [hw1] at hsp hcr
      refine ⟨hc', .ktFirst fnc arg s _ hf hpsl hfree hsp, fun hne => ?_⟩
      obtain ⟨nt, u, hnt, hu⟩ := hcr hne
      refine ⟨nt, u, ?_, hu⟩
      rw [World.claim, World.set_thread] at hnt
      split at hnt
      · cases hnt
      · exact hnt
  | noSlot s hf hs hcount hnone hx =>
    rw [hx] at h
    obtain ⟨hc', hor⟩ := clone_refines (k := k.counted s) (b := false) hc ht
      (fun v bytes _ hb => copyout_at_null hb) h
    have hstep : _ → World.Step (StackFits k.vm) k.world cur t (.ktCreate fnc arg) k'.world :=
      .ktNoSlot fnc arg s k'.world hf (hl.symm.trans hs) hcount hnone
    rcases hor with ⟨hr, rfl⟩ | ⟨nt, hnt, hk, hr⟩
    · exact ⟨hc', hstep (.inl rfl), fun hne => absurd hr hne⟩
    · exact ⟨hc', hstep (.inr ⟨nt, hnt, hk⟩), fun hne => absurd (hr rfl) hne⟩
  | next s i hf hs hcount hsome hx =>
    rw [hx] at h
    have hpsl := hl.symm.trans hs
    obtain ⟨hc', hbad | ⟨hsp, hcr⟩⟩ := ktStack_refines (m := k.counted s)
      (findSlot_some hsome).1 (.inl rfl) hc ht h
    · obtain ⟨hr, hnot, hw⟩ := hbad
      rw [hw]
      exact ⟨hc', .ktNextBad fnc arg s i hf hpsl hcount hsome hnot, fun hne => absurd hr hne⟩
    · exact ⟨hc', .ktNext fnc arg s i _ hf hpsl hcount hsome hsp, hcr⟩

/-! ## `fork` -/

theorem freeKstack_core (h : k.freeKstack p = .ok k') :
    k'.core = update k.core p { k.core p with kstack := none } ∧ k'.psl = k.psl ∧
      k'.vm.maps = k.vm.maps := by
  obtain ⟨pg, -, rfl⟩ := freeKstack_eq h
  exact ⟨setProc_core k p fun q => { q with kstack := none }, rfl, rfl⟩

theorem fork_refines (hc : k.Clean) (ht : k.world.thread cur = some t)
    (h : k.fork cur = .ok (r, k')) : k'.Clean ∧ World.Step fits k.world cur t .fork k'.world := by
  rcases fork_made (state_ne_unused ht) h with ⟨-, ha⟩ |
    ⟨np, pg, v, d, o, v', hp, hk, hd, hcp, hk'⟩
  · have hf := (allocproc_allocs ha).frame hc
    refine ⟨hf.clean hc, ?_⟩
    rw [hf.world]
    exact .stay _
  have hu := findUnused_state hp
  have hnone : k.world.thread np = none := (world_thread_eq_none hc).mpr hu
  obtain ⟨-, hpt, hpl, hsl⟩ := (hc np).unused (ProcState.life_eq_none.mpr hu)
  obtain ⟨-, hsz, hpd, -⟩ := world_thread_eq_some.mp ht
  rw [hpd] at hd
  cases hd
  have hcopy := Vm.copied hcp
  rw [(Vm.kalloc_eq hk).2.1, hsz] at hcopy
  rcases hk' with ⟨-, rfl, hk'⟩ | ⟨d', file, iref, ofile, rfl, hk'⟩
  · -- the new entry is `UNUSED` and clean again
    have hcore : k'.core = update k.core np
        { k.core np with life := none, pgdir := none, kstack := none } := by
      rw [hk']
      exact setProc_core _ np _
    refine ⟨clean_of_update hc hcore ⟨fun _ => ⟨rfl, hpt, hpl, hsl⟩, fun hl => absurd rfl hl⟩, ?_⟩
    have hth : update k.world.thread np none = k.world.thread := update_eq_self_iff.mpr hnone.symm
    rw [world_of_update hcore, hk']
    show World.Step _ _ _ _ _ (World.mk (update k.world.thread np none) k.psl v'.maps)
    rw [hth]
    generalize v'.maps = m at hcopy
    cases hcopy with
    | nothing => exact .stay _
    | undone => exact .forkFailed
  · have hcore : k'.core
        = update k.core np ⟨some .live, t.sz, some d', some pg, none, none, 0⟩ := by
      rw [hk', ← hsz, ← hpt, ← hpl, ← hsl]
      exact setProc_core _ np _
    refine ⟨clean_of_update hc hcore (Core.clean_of_used rfl rfl), ?_⟩
    rw [world_of_update hcore, hk']
    show World.Step _ _ _ _ _ ((World.mk k.world.thread k.psl v'.maps).set np (some (t.child d')))
    generalize v'.maps = m at hcopy
    cases hcopy
    exact .fork np hnone

/-! ## `exit`, `wait` and `KT_Join` -/

section
variable (hc : k.Clean)
include hc

theorem exit_refines {c : Fin ncpu} (ht : k.world.thread cur = some t) (h : k.exit c cur = .ok k') :
    k'.Clean ∧ World.Step fits k.world cur t .exit k'.world := by
  obtain ⟨hne, k1, hcalm, rfl⟩ := exit_effect h
  have hcore : (k1.schedOut c cur .zombie).core
      = update k.core cur { k.core cur with life := some .zombie } := by
    rw [schedOut_core, hcalm.core]
    rfl
  have hth := Core.eq_of_thread ht
  constructor
  · refine clean_of_update hc hcore ?_
    rw [hth]
    exact Core.clean_of_used rfl rfl
  · rw [world_of_update hcore, hth]
    show World.Step _ _ _ _ _ (World.mk _ k1.psl k1.vm.maps)
    rw [hcalm.psl, hcalm.maps]
    exact .exit hne

theorem freeKstack_refines (ht : k.world.thread z = some t) (h : k.freeKstack z = .ok k') :
    k'.Clean ∧ k'.world = k.world ∧ (k'.core z).kstack = none := by
  obtain ⟨hcore, hpsl, hmaps⟩ := freeKstack_core h
  have hth := Core.eq_of_thread ht
  refine ⟨clean_of_update hc hcore ?_, ?_, ?_⟩
  · rw [hth]
    exact Core.clean_of_used rfl rfl
  · rw [world_of_update hcore, hpsl, hmaps, hth]
    show World.mk (update k.world.thread z (some t)) _ _ = _
    rw [← ht, update_eq_self]
    rfl
  · rw [hcore, update_self]

theorem clearPsl?_refines (ht : k.world.thread z = some t) (h : k.clearPsl? z = .ok k') :
    k'.Clean ∧ (k'.core z).kstack = (k.core z).kstack ∧ (k'.proc z).psl = (k.proc z).psl ∧
      (k'.proc z).pgdir = (k.proc z).pgdir ∧
      ∃ u, k'.world = (k.world.clear t).set z (some u) := by
  obtain ⟨-, -, hpd, -, hpsl, hsl⟩ := world_thread_eq_some.mp ht
  have hth := Core.eq_of_thread ht
  unfold clearPsl? at h
  split at h
  · next hs =>
    cases h
    refine ⟨hc, rfl, rfl, rfl, t, ?_⟩
    rw [hs] at hpsl
    rw [World.clear, ← hpsl]
    show _ = World.mk (update k.world.thread z (some t)) _ _
    rw [← ht, update_eq_self]
  rename_i s hs
  rw [hs] at hpsl
  unfold clearPsl at h
  simp only [hpd, hsl] at h
  have hk := (Except.ok.inj h).symm
  have hcore : k'.core = update k.core z { k.core z with slindex := 0 } := by
    rw [hk]
    exact setProc_core { k with vm := _ } z fun q => { q with slindex := 0 }
  have hpsl' : k'.psl = update k.psl s ((k.psl s).clear t.slindex) := by
    rw [hk]
    rfl
  have hmaps : k'.vm.maps = k.vm.maps.cut t.pgdir (slotPages t.slindex) := by
    rw [hk]
    exact Vm.maps_deallocuvm _ _ _ _
  have hproc : k'.proc z = { k.proc z with slindex := 0 } := by
    rw [hk, setPsl_proc, setProc_proc_self]
  refine ⟨?_, ?_, by rw [hproc], by rw [hproc], { t with slindex := 0 }, ?_⟩
  · refine clean_of_update hc hcore ?_
    rw [hth]
    exact Core.clean_of_used rfl rfl
  · rw [hcore, update_self]
  · rw [world_of_update hcore, hth, hpsl', hmaps, World.clear, ← hpsl]
    rfl

theorem freevmOf_refines (ht : k.world.thread z = some t) (h : k.freevmOf z = .ok k') :
    k'.Clean ∧ k'.core = k.core ∧ k'.world = k.world.setMem (k.world.mem.free t.pgdir) := by
  obtain ⟨-, -, hpd, -⟩ := world_thread_eq_some.mp ht
  unfold freevmOf at h
  rw [hpd] at h
  cases h
  refine ⟨hc, rfl, ?_⟩
  show World.mk _ _ (Vm.freevm _ _).maps = _
  rw [Vm.maps_freevm]
  rfl

theorem release_refines (hks : (k.core z).kstack = none) :
    (k.release z).Clean ∧ (k.release z).world = k.world.set z none := by
  have hcore : (k.release z).core = update k.core z
      { k.core z with life := none, pthread := none, psl := none, slindex := 0 } :=
    setProc_core k z _
  constructor
  · refine clean_of_update hc hcore ⟨fun _ => ⟨hks, rfl, rfl, rfl⟩, fun hl => absurd rfl hl⟩
  · rw [world_of_update hcore]
    rfl

theorem waitReap_refines (ht : k.world.thread z = some t) (h : k.waitReap z = .ok (r, k')) :
    k'.Clean ∧ k'.world = k.world.waitReap z t := by
  unfold waitReap at h
  simp only at h
  split at h
  · cases h
  rename_i k1 h1
  obtain ⟨hc1, hw1, hks1⟩ := freeKstack_refines hc ht h1
  have ht1 : k1.world.thread z = some t := by rw [hw1]; exact ht
  obtain ⟨-, -, -, -, hpsl, -⟩ := world_thread_eq_some.mp ht1
  split at h
  · cases h
  rename_i k2 h2
  obtain ⟨hc2, hks2, hpsl2, hpd2, u, hw2⟩ := clearPsl?_refines hc1 ht1 h2
  rw [hks1] at hks2
  split at h
  · cases h
  rename_i k3 h3
  cases h
  split at h3
  · next hnone =>
    rw [hpsl2, hpsl] at hnone
    -- without a list `clear_psl` was not called
    have ht2 : k2.world.thread z = some u := by
      rw [hw2]
      exact World.set_thread_self _ _ _
    have hpd : u.pgdir = t.pgdir := by
      have h4 := (world_thread_eq_some.mp ht2).2.2.1
      rw [hpd2, (world_thread_eq_some.mp ht1).2.2.1] at h4
      exact (Option.some.inj h4).symm
    obtain ⟨hc3, hcore3, hw3⟩ := freevmOf_refines hc2 ht2 h3
    obtain ⟨hc4, hw4⟩ := release_refines hc3 (by rw [hcore3]; exact hks2)
    refine ⟨hc4, ?_⟩
    rw [hw4, hw3, hw2, hpd, World.waitReap, hnone, World.clear, hnone, hw1]
    simp only [World.set, World.setMem, update_idem]
  rename_i hsome
  cases h3
  rw [hpsl2, hpsl] at hsome
  obtain ⟨s, hs⟩ := Option.ne_none_iff_exists'.mp hsome
  obtain ⟨hc4, hw4⟩ := release_refines hc2 hks2
  refine ⟨hc4, ?_⟩
  rw [hw4, hw2, World.set_set, World.waitReap, hs, hw1]

end

theorem lastOfPsl_world (ht : k.world.thread z = some t) :
    k.lastOfPsl z = k.world.lastOfPsl t := by
  obtain ⟨-, -, -, -, hpsl, -⟩ := world_thread_eq_some.mp ht
  unfold lastOfPsl World.lastOfPsl
  rw [hpsl]
  rfl

theorem joinReap_refines (hc : k.Clean) (ht : k.world.thread z = some t)
    (h : k.joinReap z = .ok (r, k')) : k'.Clean ∧ k'.world = k.world.joinReap z t := by
  unfold joinReap at h
  simp only at h
  split at h
  · cases h
  rename_i k1 h1
  obtain ⟨hc1, hw1, hks1⟩ := freeKstack_refines hc ht h1
  have ht1 : k1.world.thread z = some t := by rw [hw1]; exact ht
  split at h
  · cases h
  rename_i k2 h2
  -- the page table is freed or not; the thread is still there
  have hk2 : k2.Clean ∧ (k2.core z).kstack = none ∧ k2.world.thread z = some t ∧
      k2.world = if k.world.lastOfPsl t then k.world.setMem (k.world.mem.free t.pgdir)
        else k.world := by
    rw [lastOfPsl_world ht1, hw1] at h2
    split at h2
    · next hlast =>
      obtain ⟨hc2, hcore2, hw2⟩ := freevmOf_refines hc1 ht1 h2
      rw [hw1] at hw2
      refine ⟨hc2, by rw [hcore2]; exact hks1, by rw [hw2]; exact ht, ?_⟩
      rw [hw2, if_pos hlast]
    rename_i hlast
    cases h2
    exact ⟨hc1, hks1, ht1, by rw [hw1, if_neg hlast]⟩
  obtain ⟨hc2, hks2, ht2, hw2⟩ := hk2
  split at h
  · cases h
  rename_i k3 h3
  cases h
  obtain ⟨hc3, hks3, -, -, u, hw3⟩ := clearPsl?_refines hc2 ht2 h3
  rw [hks2] at hks3
  obtain ⟨hc4, hw4⟩ := release_refines hc3 hks3
  refine ⟨hc4, ?_⟩
  rw [hw4, hw3, World.set_set, hw2]
  rfl

theorem wait_refines {c : Fin ncpu} (hc : k.Clean) (ht : k.world.thread cur = some t)
    (hl : t.life = .live) (h : k.wait c cur = .ok (o, k')) :
    k'.Clean ∧ World.Step fits k.world cur t .wait k'.world := by
  have hlife : (k.core cur).life = some .live := by
    rw [← hl]
    exact (world_thread_eq_some.mp ht).1
  unfold wait at h
  simp only at h
  split at h
  · next z hz =>
    obtain ⟨-, hzst⟩ := findZombie_state hz
    obtain ⟨u, hu⟩ := exists_thread hc (p := z) (by rw [hzst]; simp)
    have hul : u.life = .zombie := by
      have := (world_thread_eq_some.mp hu).1
      rw [hzst] at this
      exact (Option.some.inj this).symm
    split at h
    · cases h
    rename_i pid k1 hr
    cases h
    obtain ⟨hc', hw⟩ := waitReap_refines hc hu hr
    refine ⟨hc', ?_⟩
    rw [hw]
    exact .wait z u hu hul
  · split at h
    · cases h
      exact ⟨hc, .stay _⟩
    · cases h
      have hf : Frame k (k.sleep c cur (.proc cur)) := frame_sleep hlife
      refine ⟨hf.clean hc, ?_⟩
      rw [hf.world]
      exact .stay _

theorem ktJoin_refines {c : Fin ncpu} (hc : k.Clean) (ht : k.world.thread cur = some t)
    (hl : t.life = .live) (h : k.ktJoin c cur = .ok (o, k')) :
    k'.Clean ∧ World.Step fits k.world cur t .ktJoin k'.world := by
  have hlife : (k.core cur).life = some .live := by
    rw [← hl]
    exact (world_thread_eq_some.mp ht).1
  unfold ktJoin at h
  simp only at h
  split at h
  · next z hz =>
    obtain ⟨hmine, hzst⟩ := findZombie_state hz
    obtain ⟨u, hu⟩ := exists_thread hc (p := z) (by rw [hzst]; simp)
    obtain ⟨hul, -, -, hpt, -, -⟩ := world_thread_eq_some.mp hu
    rw [hzst] at hul
    split at h
    · cases h
    rename_i tid k1 hr
    cases h
    obtain ⟨hc', hw⟩ := joinReap_refines hc hu hr
    refine ⟨hc', ?_⟩
    rw [hw]
    refine .ktJoin z u hu (Option.some.inj hul).symm ?_
    rw [← hpt]
    simpa using hmine
  · split at h
    · cases h
      exact ⟨hc, .stay _⟩
    · cases h
      have hf : Frame k (k.sleep c cur (.ofPsl (k.proc cur).psl)) := frame_sleep hlife
      refine ⟨hf.clean hc, ?_⟩
      rw [hf.world]
      exact .stay _

/-! ## `growproc` and `exec` -/

theorem growFinish_refines (hc : k.Clean) (ht : k.world.thread cur = some t)
    (h : k.growFinish cur sz = .ok (r, k')) :
    k'.Clean ∧ k'.world = k.world.set cur (some { t with sz := sz }) := by
  have hth := Core.eq_of_thread ht
  unfold growFinish at h
  split at h
  · cases h
  · cases h
    have hcore : (k.setProc cur fun q => { q with sz := sz }).core
        = update k.core cur { k.core cur with sz := sz } := setProc_core k cur _
    constructor
    · refine clean_of_update hc hcore ?_
      rw [hth]
      exact Core.clean_of_used rfl rfl
    · rw [world_of_update hcore, hth]
      rfl

theorem growproc_refines {n : Int} (hc : k.Clean) (ht : k.world.thread cur = some t)
    (h : k.growproc cur n = .ok (r, k')) :
    k'.Clean ∧ World.Step fits k.world cur t (.growproc n) k'.world := by
  obtain ⟨-, hsz, hpd, -, -, -⟩ := world_thread_eq_some.mp ht
  -- a size that does not change leaves the world as it is
  have hkeep : k.world.set cur (some { t with sz := t.sz }) = k.world := World.set_self _ _ _ ht
  unfold growproc at h
  simp only [hpd, hsz] at h
  split at h
  · next hn =>
    split at h
    · cases h
    · next vm ha =>
      cases h
      refine ⟨hc, ?_⟩
      show World.Step _ _ _ _ _ (k.world.setMem vm.maps)
      have hal := Vm.allocated ha
      generalize hz : (0 : Nat) = z at hal
      generalize vm.maps = m at hal
      cases hal with
      | refused => exact .stay _
      | kept hlt => omega
      | grown hle _ _ =>
        -- growing from 0 to 0 fills nothing
        have h0 : Set.Ico (npages t.sz) (npages (toU32 (t.sz + n))) = ∅ := by
          apply Set.Ico_eq_empty
          have h1 : npages (toU32 (t.sz + n)) ≤ npages t.sz := npages_mono (by omega)
          omega
        rw [h0, Maps.fill_empty]
        exact .stay _
      | failed hle hk => exact .growFailed n hn hle hk
    rename_i sz vm hne ha
    have ht' : ({ k with vm := vm } : Kernel ncpu).world.thread cur = some t := ht
    obtain ⟨hc', hw⟩ := growFinish_refines (k := { k with vm := vm }) hc ht' h
    refine ⟨hc', ?_⟩
    rw [hw]
    show World.Step _ _ _ _ _ ((k.world.setMem vm.maps).set cur (some { t with sz := sz }))
    rcases (Vm.allocated ha).of_ne_zero hne with ⟨rfl, -, hm⟩ | ⟨rfl, hle, hk, hm⟩
    · rw [hm]
      show World.Step _ _ _ _ _ (k.world.set cur (some { t with sz := t.sz }))
      rw [hkeep]
      exact .stay _
    · rw [hm]
      exact .grow n hn hle hk
  · split at h
    · next hneg =>
      have hfst := Vm.deallocuvm_fst k.vm t.pgdir t.sz (toU32 (t.sz + n))
      have hmaps := Vm.maps_deallocuvm k.vm t.pgdir t.sz (toU32 (t.sz + n))
      have hsame : t.sz ≤ toU32 (t.sz + n) → (k.vm.deallocuvm t.pgdir t.sz
          (toU32 (t.sz + n))).2.maps = k.vm.maps := by
        intro hle
        simp only [Vm.deallocuvm, hle, if_true]
      split at h
      · next vm hd =>
        cases h
        rw [hd] at hfst hmaps hsame
        refine ⟨hc, ?_⟩
        show World.Step _ _ _ _ _ (k.world.setMem vm.maps)
        split at hfst
        · next hle =>
          rw [hsame hle]
          exact .stay _
        rename_i hlt
        simp only at hfst hmaps
        rw [← hfst, npages_zero] at hmaps
        rw [hmaps]
        exact .shrinkFailed n hneg (by omega) hfst.symm
      rename_i sz vm hne hd
      rw [hd] at hfst hmaps hsame
      have ht' : ({ k with vm := vm } : Kernel ncpu).world.thread cur = some t := ht
      obtain ⟨hc', hw⟩ := growFinish_refines (k := { k with vm := vm }) hc ht' h
      refine ⟨hc', ?_⟩
      rw [hw]
      show World.Step _ _ _ _ _ ((k.world.setMem vm.maps).set cur (some { t with sz := sz }))
      split at hfst
      · next hle =>
        simp only at hfst
        rw [hsame hle, hfst]
        show World.Step _ _ _ _ _ (k.world.set cur (some { t with sz := t.sz }))
        rw [hkeep]
        exact .stay _
      rename_i hlt
      simp only at hfst hmaps
      rw [hmaps, hfst]
      exact .shrink n hneg (by omega) (by rw [← hfst]; exact hne)
    · obtain ⟨hc', hw⟩ := growFinish_refines hc ht h
      refine ⟨hc', ?_⟩
      rw [hw, hkeep]
      exact .stay _

theorem execLoad_maps {d : Nat} (segs : List (Nat × Bool)) {o : Option Nat}
    (h : execLoad d segs sz v = .ok (o, v')) :
    v'.maps.free d = v.maps.free d ∧
    ∀ sz', o = some sz' → sz ≤ sz' ∧
      v'.maps = v.maps.fill d (Set.Ico (npages sz) (npages sz')) := by
  induction segs generalizing sz v with
  | nil =>
    cases h
    refine ⟨rfl, ?_⟩
    intro sz' hsz
    cases hsz
    exact ⟨Nat.le_refl _, by simp⟩
  | cons seg rest ih =>
    obtain ⟨newsz, ok⟩ := seg
    unfold execLoad at h
    split at h
    · cases h
    · next v₁ ha =>
      cases h
      exact ⟨(Vm.allocated ha).free, fun _ hsz => by cases hsz⟩
    rename_i sz₁ v₁ hne ha
    have hfree := (Vm.allocated ha).free
    split at h
    · obtain ⟨ihf, ihs⟩ := ih h
      refine ⟨ihf.trans hfree, ?_⟩
      intro sz' hsz
      obtain ⟨hle, hm⟩ := ihs sz' hsz
      rcases (Vm.allocated ha).of_ne_zero hne with ⟨rfl, -, hm₁⟩ | ⟨rfl, hle₁, -, hm₁⟩
      · rw [hm₁] at hm
        exact ⟨hle, hm⟩
      · refine ⟨Nat.le_trans hle₁ hle, ?_⟩
        rw [hm, hm₁, Maps.fill_fill,
          Set.Ico_union_Ico_eq_Ico (npages_mono hle₁) (npages_mono hle)]
    · cases h
      exact ⟨hfree, fun _ hsz => by cases hsz⟩

theorem execBuild_maps {d : Nat} {segs : List (Nat × Bool)} {argsFit : Bool} {o : Option Nat}
    (h : execBuild d segs argsFit v = .ok (o, v')) :
    v'.maps.free d = v.maps.free d ∧
    ∀ x, o = some x → ∃ sz, x = pgroundup sz ∧
      v'.maps = v.maps.fill d (Set.Ico 0 (npages sz) ∪ slot 0) := by
  unfold execBuild at h
  split at h
  · cases h
  · next v₁ hl =>
    cases h
    exact ⟨(execLoad_maps segs hl).1, fun _ hx => by cases hx⟩
  rename_i sz v₁ hl
  obtain ⟨hf₁, hs₁⟩ := execLoad_maps segs hl
  obtain ⟨-, hm₁⟩ := hs₁ sz rfl
  split at h
  · cases h
  · next v₂ ha =>
    cases h
    exact ⟨(Vm.allocated ha).free.trans hf₁, fun _ hx => by cases hx⟩
  rename_i r₂ v₂ hne ha
  have hf₂ := (Vm.allocated ha).free.trans hf₁
  split at h
  · cases h
  rename_i v₃ hcl
  cases h
  rw [Vm.clearpteu_ok hcl]
  refine ⟨hf₂, ?_⟩
  intro x hx
  split at hx
  · refine ⟨sz, (Option.some.inj hx).symm, ?_⟩
    have hle : slotLow 0 * pgsize ≤ (slotLow 0 + 2) * pgsize := by
      simp only [pgsize]
      omega
    rcases (Vm.allocated ha).of_le hle slot_lt_kernbase with ⟨-, -, hm⟩ | ⟨h0, -⟩
    · rw [hm, hm₁, Maps.fill_fill, slot_ico, npages_zero]
    · exact absurd h0 hne
  · cases hx

theorem exec_refines {f : ExecFile} (hc : k.Clean) (ht : k.world.thread cur = some t)
    (h : k.exec cur f = .ok (r, k')) :
    k'.Clean ∧ World.Step fits k.world cur t (.exec f) k'.world := by
  obtain ⟨-, -, hpd, -⟩ := world_thread_eq_some.mp ht
  have hth := Core.eq_of_thread ht
  unfold exec at h
  split at h
  · cases h
    exact ⟨hc, .stay _⟩
  rename_i segs argsFit entry sp name
  split at h
  · next vm hs =>
    cases h
    refine ⟨hc, ?_⟩
    show World.Step _ _ _ _ _ (k.world.setMem vm.maps)
    have hup := Vm.setUp hs
    generalize vm.maps = m at hup
    cases hup with
    | nothing => exact .stay _
    | undone => exact .execFailed _
  rename_i d vm hs
  have hup := Vm.setUp hs
  generalize hm : vm.maps = m at hup
  cases hup
  split at h
  · cases h
  · next vm₁ hb =>
    cases h
    refine ⟨hc, ?_⟩
    show World.Step _ _ _ _ _ (k.world.setMem (Vm.freevm _ _).maps)
    rw [Vm.maps_freevm, (execBuild_maps hb).1, hm]
    exact .execFailed _
  rename_i sz vm₁ hb
  obtain ⟨sz', hsz, hm₁⟩ := (execBuild_maps hb).2 sz rfl
  rw [hpd, hsz] at h
  simp only at h
  split at h
  · cases h
  · have hk := (Prod.mk.inj (Except.ok.inj h)).2.symm
    have hcore : k'.core = update k.core cur
        { k.core cur with pgdir := some k.vm.maps.nspace, sz := pgroundup sz' } := by
      rw [hk]
      exact setProc_core { k with vm := _ } cur _
    constructor
    · refine clean_of_update hc hcore ?_
      rw [hth]
      exact Core.clean_of_used rfl rfl
    · have hmaps : k'.vm.maps = (k.vm.maps.new.fill k.vm.maps.nspace
          (Set.Ico 0 (npages sz') ∪ slot 0)).free t.pgdir := by
        rw [hk, setProc_vm, Vm.maps_freevm, hm₁, hm]
      have hpsl : k'.psl = k.psl := by
        rw [hk]
        rfl
      rw [world_of_update hcore, hth, hmaps, hpsl]
      exact .exec _ sz'

/-! ## Scheduling and semaphores -/

section
variable {c : Fin ncpu} {i : SemIdx}

theorem frame_scheduler (hst : (k.proc p).state = .runnable) (h : k.scheduler c p = .ok k') :
    Frame k k' := by
  obtain rfl := scheduler_eq h
  refine ⟨?_, rfl, rfl⟩
  show (k.setProc p fun q => { q with state := .running, chan := .null }).core = _
  apply Frame.core (Frame.setProc _)
  simp [Proc.core, hst, ProcState.life]

theorem frame_semWaitEnter (hst : (k.proc p).state = .running) :
    Frame k (k.semWaitEnter c p i) := by
  unfold semWaitEnter
  simp only
  split
  · unfold semSleep
    have hl : ((k.setSem i fun s => { s with count := toI32 (s.count - 1) }).core p).life
        = some .live := by
      show (k.proc p).state.life = _
      rw [hst]
      rfl
    exact Frame.trans (l := ((k.setSem i fun s => { s with count := toI32 (s.count - 1) }).setSem i
      fun s => { s with queue := s.queue.pushBack p }).setPc p (.waiting i))
      ⟨rfl, rfl, rfl⟩ (frame_schedOut rfl hl)
  · exact ⟨rfl, rfl, rfl⟩

theorem frame_semWakeup (hi : SchedInv k) : Frame k (k.semWakeup i) := by
  have hst : ∀ w, ((k.semWakeup i).proc w).state ≠ (k.proc w).state →
      (k.proc w).state = .semSleeping := fun w hw => hi.semWakeup_state hw
  unfold semWakeup at hst ⊢
  generalize (k.sem i).queue.popFront = r at hst ⊢
  obtain ⟨o, que⟩ := r
  cases o with
  | none => exact ⟨rfl, rfl, rfl⟩
  | some w =>
    refine Frame.trans (l := k.setState w .runnable) (.setProc ?_) ⟨rfl, rfl, rfl⟩
    by_cases hw : (k.proc w).state = .runnable
    · rw [← hw]
    · have hsl := hst w (by simpa [semWake, setState] using Ne.symm hw)
      simp [Proc.core, hsl, ProcState.life]

end

/-! ## All actions -/

/-- What an action does to the world. -/
inductive Refined (k k' : Kernel ncpu) : Act ncpu → Prop
  | same (a : Act ncpu) : k'.world = k.world → Refined k k' a
  | call (c : Fin ncpu) (p : ProcIdx) (t : Thread) (op : Call) : k.cpu c = some p →
      k.world.thread p = some t → t.life = .live →
      World.Step (StackFits k.vm) k.world p t op k'.world → Refined k k' (.call c op)

theorem Frame.refined (h : Frame k k') (hc : k.Clean) (a : Act ncpu) : k'.Clean ∧ Refined k k' a :=
  ⟨h.clean hc, .same a h.world⟩

theorem perform_refines {c : Fin ncpu} {op : Call}
    (hc : k.Clean) (ht : k.world.thread p = some t) (hl : t.life = .live)
    (h : k.perform c p op = .ok k') :
    k'.Clean ∧ World.Step (StackFits k.vm) k.world p t op k'.world := by
  have hlife : (k.core p).life = some .live := by
    rw [← hl]
    exact (world_thread_eq_some.mp ht).1
  have hframe : ∀ {m : Kernel ncpu}, Frame k m →
      m.Clean ∧ World.Step (StackFits k.vm) k.world p t op m.world := by
    intro m hf
    refine ⟨hf.clean hc, ?_⟩
    rw [hf.world]
    exact .stay _
  cases op with
  | yield =>
    cases h
    exact hframe (frame_schedOut rfl hlife)
  | sleep chan =>
    cases h
    exact hframe (frame_sleep hlife)
  | kill pid =>
    cases h
    exact hframe (kill_calm k pid).toFrame
  | exit => exact exit_refines hc ht h
  | wait =>
    obtain ⟨r, hr⟩ := map_snd_ok h
    exact wait_refines hc ht hl hr
  | ktJoin =>
    obtain ⟨r, hr⟩ := map_snd_ok h
    exact ktJoin_refines hc ht hl hr
  | fork =>
    obtain ⟨r, hr⟩ := map_snd_ok h
    exact fork_refines hc ht hr
  | ktCreate fnc arg =>
    obtain ⟨r, hr⟩ := map_snd_ok h
    have hkt := ktCreate_refines hc ht hr
    exact ⟨hkt.1, hkt.2.1⟩
  | growproc n =>
    obtain ⟨r, hr⟩ := map_snd_ok h
    exact growproc_refines hc ht hr
  | exec f =>
    obtain ⟨r, hr⟩ := map_snd_ok h
    exact exec_refines hc ht hr
  | semInitialize n =>
    cases h
    obtain ⟨s, hs⟩ := sysSemInitialize_eq k n.toInt
    rw [hs]
    exact hframe ⟨rfl, rfl, rfl⟩
  | semWait i =>
    cases h
    obtain ⟨q, hq⟩ := semWait_eq k p i
    rw [hq]
    exact hframe ⟨rfl, rfl, rfl⟩
  | semSignal i =>
    cases h
    obtain ⟨q, hq⟩ := semSignal_eq k p i
    rw [hq]
    exact hframe ⟨rfl, rfl, rfl⟩
  | semFree i =>
    cases h
    exact hframe ⟨rfl, rfl, rfl⟩

theorem caller {c : Fin ncpu} (hi : SchedInv k) (hc : k.Clean)
    (hcpu : k.cpu c = some p) : ∃ t, k.world.thread p = some t ∧ t.life = .live := by
  have hrun := hi.onCpu c p hcpu
  obtain ⟨t, ht⟩ := exists_thread hc (p := p) (by rw [hrun]; simp)
  have hl := (world_thread_eq_some.mp ht).1
  rw [hrun] at hl
  exact ⟨t, ht, (Option.some.inj hl).symm⟩

/-- **Every action of the kernel is a step of the world, or none.** -/
theorem refines (hi : SchedInv k) (hc : k.Clean) (h : k.next a = some k') :
    k'.Clean ∧ Refined k k' a := by
  cases stepped_of_next h with
  | schedule c p _ hst hs => exact (frame_scheduler hst hs).refined hc _
  | wakeup chan hk =>
    rw [hk]
    exact (wakeup1_still k chan).calm.toFrame.refined hc _
  | call c p op hcpu _ hp =>
    obtain ⟨t, ht, hl⟩ := caller hi hc hcpu
    obtain ⟨hc', hstep⟩ := perform_refines hc ht hl hp
    exact ⟨hc', .call c p t op hcpu ht hl hstep⟩
  | waitEnter c p i hcpu _ hk =>
    rw [hk]
    exact (frame_semWaitEnter (hi.onCpu c p hcpu)).refined hc _
  | signalEnter c p i hcpu hpc hk =>
    rw [hk]
    have hinc := schedInv_sameQueues hi (i := i)
      (f := fun s => { s with count := toI32 (s.count + 1) }) rfl id
    have h1 : SchedInv ((k.setSem i fun s => { s with count := toI32 (s.count + 1) }).setPc p
        .outside) := schedInv_setPc hinc hcpu (by simp) (by simp)
    have hf : Frame k (((k.setSem i fun s => { s with count := toI32 (s.count + 1) }).setPc p
        .outside).semWakeup i) :=
      Frame.trans (l := (k.setSem i fun s => { s with count := toI32 (s.count + 1) }).setPc p
        .outside) ⟨rfl, rfl, rfl⟩ (frame_semWakeup h1)
    exact hf.refined hc _

/-- What every state of a run has: the invariants the refinement rests on. -/
structure Sound (k : Kernel ncpu) : Prop where
  sched : SchedInv k
  clean : k.Clean

theorem Sound.step (hs : Sound k) (h : k.next a = some k') : Sound k' :=
  ⟨schedInv_step hs.sched h, (refines hs.sched hs.clean h).1⟩

theorem Sound.refined (hs : Sound k) (h : k.next a = some k') : Refined k k' a :=
  (refines hs.sched hs.clean h).2

theorem sound_boot (h : Boot k) : Sound k := by
  refine ⟨schedInv_boot h, ?_⟩
  intro p
  by_cases hp : p = initproc
  · subst hp
    obtain ⟨d, hd, -⟩ := h.initPgdir
    refine Core.clean_of_used (l := .live) (d := d) ?_ hd
    show (k.proc initproc).state.life = _
    rw [h.init]
    rfl
  · show (k.proc p).core.Clean
    rw [h.rest p hp]
    exact ⟨fun _ => ⟨rfl, rfl, rfl, rfl⟩, fun hl => absurd rfl hl⟩

theorem Sound.run {k₀ k : Kernel ncpu} {tr : List (Kernel ncpu × Act ncpu)} (h0 : Sound k₀)
    (h : Run next k₀ tr k) : Sound k :=
  Run.always h0 (fun _ _ _ hs hn => hs.step hn) h

end Kernel

end Xv6.Kern
