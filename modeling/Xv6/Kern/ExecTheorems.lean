/-
Xv6.Kern.ExecTheorems — `exec` and the stack slots.

`exec` gives its caller a new page table with a heap and stack slot 0, and
leaves `psl` and `slindex` as they were. That fits the caller only if it
is the thread of slot 0 and no other slot is in use (`execSettled`). Then
the layout of every address space (`Laid`) survives an `exec` too, and
each process has its own stack where its `slindex` says: `fork` finds the
page it copies, and `KT_Create` never takes a slot that is mapped.
-/
import Xv6.Kern.SizeTheorems
import Xv6.Kern.CreateTheorems

namespace Xv6.Kern

open Xv6.Lib Xv6.Mem

variable {ncpu : Nat} {arg d fnc : Nat} {msg : String} {v : Vm}

/-! ## `exec` in a world -/

namespace World

section
variable {w w' : World} {p q : ProcIdx} {t u : Thread}

/-- A process without a stack list is in slot 0. -/
def Unlisted (w : World) : Prop := ∀ p t, w.thread p = some t → t.psl = none → t.slindex = 0

theorem Unlisted.set (h : Unlisted w) (hu : u.psl = none → u.slindex = 0) :
    Unlisted (w.set p (some u)) := by
  intro q v hq hv
  rcases thread_of_set hq with ⟨-, rfl⟩ | ⟨-, hq⟩
  · exact hu hv
  · exact h q v hq hv

theorem Unlisted.unset (h : Unlisted w) : Unlisted (w.set p none) := by
  intro q v hq
  exact h q v (thread_of_unset hq).2

theorem Unlisted.spawned {i : Int} (h : Unlisted w) (hl : t.psl ≠ none)
    (hs : Spawned w p t i w') : Unlisted w' := by
  cases hs with
  | none => exact h
  | thread nt _ => exact h.set fun hn => absurd hn hl

theorem Unlisted.waitReap (h : Unlisted w) : Unlisted (w.waitReap p u) := by
  cases hu : u.psl with
  | none =>
    rw [waitReap_of_none hu]
    exact Unlisted.unset (w := w.setMem _) h
  | some s =>
    rw [waitReap_of_some hu]
    refine Unlisted.unset ?_
    intro q v hq
    rw [clear_thread] at hq
    exact h q v hq

theorem Unlisted.step {fits : Nat → Nat → Prop} {op : Call} (hi : SlotInv w) (h : Unlisted w)
    (ht : w.thread p = some t)
    (hkt : ∀ fnc arg, op = .ktCreate fnc arg → fnc = 0 ∨ StackReady fits w t)
    (hstep : Step fits w p t op w') : Unlisted w' := by
  have hself := h p t ht
  cases hstep with
  | stay => exact h
  | exit => exact h.set hself
  | wait z u _ _ => exact h.waitReap
  | ktJoin z u hz _ _ =>
    rw [joinReap_eq_waitReap hi hz]
    exact h.waitReap
  | fork np _ => exact Unlisted.set (w := w.setMem _) h fun _ => rfl
  | grow | shrink | exec => exact Unlisted.set (w := w.setMem _) h hself
  | forkFailed | growFailed | shrinkFailed | execFailed => exact h
  | ktEmbryo fnc arg nt hf hpsl hno _ =>
    obtain ⟨⟨s, hs⟩, -⟩ := StackReady.first (hkt fnc arg rfl) hf hpsl
    exact absurd hs (hno s)
  | ktFirst _ _ s w' _ _ _ hsp =>
    have hc : Unlisted (w.claim p t s) := Unlisted.set (w := w.setPsl _ _) h fun _ => rfl
    have hst : Unlisted ((w.claim p t s).stack s t.pgdir 1) := hc
    exact hst.spawned (by simp [Thread.claimed]) hsp
  | ktFirstBad _ _ s => exact Unlisted.set (w := w.setPsl _ _) h fun _ => rfl
  | ktNext _ _ s i w' _ hpsl _ _ hsp =>
    have hst : Unlisted ((w.count s).stack s t.pgdir i) := h
    exact hst.spawned (by simp [hpsl]) hsp
  | ktNextBad => exact h
  | ktNoSlot _ _ s w' _ hpsl hc hf _ => exact absurd hf (hi.findSlot_ne_none ht hpsl hc)

end

end World

/-! ## Runs with `exec` -/

namespace Kernel

/-- The segments of the file end below the stacks. -/
def ExecFile.room : ExecFile → Bool
  | .absent => true
  | .image segs _ _ _ _ => segs.all fun seg => npages seg.1 ≤ heapTop

/-- Slot 0 is the only stack slot in use in the address space of `p`. -/
def onlySlotZero (k : Kernel ncpu) (p : ProcIdx) : Bool :=
  match (k.proc p).psl with
  | none => true
  | some s => (List.range 8).all fun i => (k.psl s).stackz i == decide (i = 0)

/-- An `exec` is called by a process that is alone on its page table, with
no stack slot but 0, and loads a program that ends below the stacks. -/
def execSettled (k : Kernel ncpu) : Act ncpu → Bool
  | .call c (.exec f) =>
    match k.cpu c with
    | none => true
    | some p => k.aloneOn p && k.onlySlotZero p && f.room
  | _ => true

section
variable {k k' k₀ : Kernel ncpu} {p : ProcIdx} {t : Thread} {a : Act ncpu}

theorem execAlone_of_settled (h : k.execSettled a = true) : k.execAlone a = true := by
  unfold execSettled at h
  unfold execAlone
  split
  · split
    · rfl
    rename_i p hp
    simp only [hp, Bool.and_eq_true] at h
    exact h.1.1
  · rfl

theorem allocuvm_result {v' : Vm} {oldsz newsz r : Nat}
    (h : v.allocuvm d oldsz newsz = .ok (r, v')) : r = 0 ∨ r = oldsz ∨ r = newsz := by
  cases Vm.allocuvm_run h with
  | refused => exact .inl rfl
  | kept => exact .inr (.inl rfl)
  | grown => exact .inr (.inr rfl)
  | failed => exact .inl rfl

theorem execLoad_room {segs : List (Nat × Bool)} {sz sz' : Nat} {v' : Vm}
    (hroom : ∀ seg ∈ segs, npages seg.1 ≤ heapTop) (hsz : npages sz ≤ heapTop)
    (h : execLoad d segs sz v = .ok (some sz', v')) : npages sz' ≤ heapTop := by
  induction segs generalizing sz v with
  | nil =>
    cases h
    exact hsz
  | cons seg segs ih =>
    obtain ⟨newsz, ok⟩ := seg
    have hnew : npages newsz ≤ heapTop := hroom (newsz, ok) List.mem_cons_self
    unfold execLoad at h
    split at h
    · cases h
    · cases h
    rename_i r v₁ hne ha
    have hr : npages r ≤ heapTop := by
      rcases allocuvm_result ha with rfl | rfl | rfl
      · exact absurd rfl hne
      · exact hsz
      · exact hnew
    split at h
    · exact ih (fun seg hseg => hroom seg (List.mem_cons_of_mem _ hseg)) hr h
    · cases h

theorem exec_room {f : ExecFile} {r : Int} (hroom : f.room = true)
    (h : k.exec p f = .ok (r, k')) :
    (k'.proc p).sz = (k.proc p).sz ∨ npages (k'.proc p).sz ≤ heapTop := by
  unfold exec at h
  split at h
  · cases h
    exact .inl rfl
  rename_i segs argsFit entry sp name
  simp only [ExecFile.room, List.all_eq_true, decide_eq_true_eq] at hroom
  split at h
  · cases h
    exact .inl rfl
  · split at h
    · cases h
    · cases h
      exact .inl rfl
    rename_i d vm _ sz vm' hbuild
    split at h
    · cases h
    · split at h
      · cases h
      · cases h
        right
        rw [setProc_proc_self]
        unfold execBuild at hbuild
        split at hbuild
        · cases hbuild
        · cases hbuild
        rename_i sz₀ v₀ hload
        have hsz : npages sz₀ ≤ heapTop :=
          execLoad_room hroom (by rw [npages_zero]; exact Nat.zero_le _) hload
        split at hbuild
        · cases hbuild
        · cases hbuild
        · split at hbuild
          · cases hbuild
          · simp only [Except.ok.injEq, Prod.mk.injEq] at hbuild
            obtain ⟨hfit, -⟩ := hbuild
            split at hfit
            · obtain rfl := Option.some.inj hfit
              rw [npages_pgroundup]
              exact hsz
            · cases hfit

theorem onlySlotZero_world (ht : k.world.thread p = some t) (h : k.onlySlotZero p = true) :
    ∀ i, i < 8 → (k.world.slotUsed t i ↔ i = 0) := by
  obtain ⟨-, -, -, -, hl, -⟩ := world_thread_eq_some.mp ht
  intro i hi
  unfold onlySlotZero at h
  unfold World.slotUsed
  rw [hl] at h
  cases hpsl : t.psl with
  | none => exact Iff.rfl
  | some s =>
    simp only [hpsl, List.all_eq_true, List.mem_range] at h
    have := h i hi
    simp only [beq_iff_eq] at this
    show (k.psl s).stackz i = true ↔ i = 0
    rw [this]
    exact decide_eq_true_iff

theorem Laid.execNext (h : Laid k) (hx : k.execSettled a = true) (hg : k.growsOk a = true)
    (hkt : k.ktReady a = true) (hn : k.next a = some k') : Laid k' := by
  have hxa := execAlone_of_settled hx
  by_cases hexec : a.execs = false
  · exact h.next hexec hg hkt hn
  refine ⟨h.toKept.step hn, DirInv.next h.toKept h.dirs hxa hkt hn, ?_⟩
  cases stepped_of_next hn with
  | call c p op hcpu hpc hp =>
    cases op with
    | exec f =>
      obtain ⟨t, ht, hl⟩ := caller h.sched h.clean hcpu
      obtain ⟨-, hstep⟩ := perform_refines h.clean ht hl hp
      simp only [execSettled, hcpu, Bool.and_eq_true] at hx
      obtain ⟨⟨halone, hslot⟩, hroom⟩ := hx
      have hsz : (k'.proc p).sz = (k.proc p).sz ∨ npages (k'.proc p).sz ≤ heapTop := by
        have hp' : (k.exec p f).map Prod.snd = .ok k' := hp
        cases hex : k.exec p f with
        | error e =>
          rw [hex] at hp'
          cases hp'
        | ok x =>
          rw [hex] at hp'
          obtain ⟨r, k''⟩ := x
          obtain rfl : k'' = k' := Except.ok.inj hp'
          exact exec_room hroom hex
      generalize hw : k'.world = w' at hstep
      cases hstep with
      | stay => exact h.sizes
      | execFailed => exact h.sizes.undone h.dirs
      | exec _ sz =>
        have ht' : k'.world.thread p = some { t with
            pgdir := k.world.mem.nspace, sz := pgroundup sz } := by
          rw [hw]
          exact World.set_thread_self _ _ _
        obtain ⟨-, hsz', -⟩ := world_thread_eq_some.mp ht'
        obtain ⟨-, hsz₀, -⟩ := world_thread_eq_some.mp ht
        have ha := aloneOn_world ht halone
        refine h.sizes.unset.exec h.dirs ht ha (h.sizes.aloneList ht ha)
          (onlySlotZero_world ht hslot) ?_
        rw [hsz', hsz₀] at hsz
        rcases hsz with heq | hle
        · rw [← npages_pgroundup, show pgroundup sz = t.sz from heq]
          exact (h.sizes.layout p t ht).below
        · rwa [show npages (pgroundup sz) = npages sz from npages_pgroundup sz] at hle
    | _ => exact absurd rfl hexec
  | _ => exact absurd rfl hexec

theorem Unlisted.next (h : Kept k) (hu : k.world.Unlisted) (hkt : k.ktReady a = true)
    (hn : k.next a = some k') : k'.world.Unlisted := by
  cases h.toSound.refined hn with
  | same _ hw =>
    rw [hw]
    exact hu
  | call c p t op hcpu ht _ hstep => exact hu.step h.slots ht (ktReady_world hcpu ht hkt) hstep

theorem unlisted_boot (h : Boot k) : k.world.Unlisted := by
  intro p t ht _
  obtain ⟨-, -, -, -, -, hs⟩ := world_thread_eq_some.mp ht
  rw [← hs, thread_boot h ht]
  exact h.initSlindex

/-- What the runs of this section keep. -/
structure Settled (k : Kernel ncpu) : Prop extends Laid k where
  unlisted : k.world.Unlisted

theorem Settled.next (h : Settled k) (hx : k.execSettled a = true) (hg : k.growsOk a = true)
    (hkt : k.ktReady a = true) (hn : k.next a = some k') : Settled k' :=
  ⟨h.toLaid.execNext hx hg hkt hn, Unlisted.next h.toKept h.unlisted hkt hn⟩

theorem Started.settled (h : Started k) : Settled k := by
  refine ⟨h.laid, ?_⟩
  obtain ⟨h0, hr, hok, -, -, hn, -, -⟩ := h
  next k₀ k₁ tr c f =>
    have hk : Kept k₁ ∧ k₁.world.Unlisted := by
      refine Run.invariant (I := fun k => Kept k ∧ k.world.Unlisted)
        ⟨kept_boot h0, unlisted_boot h0⟩ ?_ hr hok
      intro k a k' hi ha hn
      exact ⟨hi.1.step hn, Unlisted.next hi.1 hi.2 ha.2 hn⟩
    exact Unlisted.next hk.1 hk.2 rfl hn

theorem settled_run {tr : List (Kernel ncpu × Act ncpu)} (h0 : Started k₀) (hr : Run next k₀ tr k)
    (hok : Meets (fun k a => k.execSettled a = true ∧ k.growsOk a = true ∧ k.ktReady a = true) tr) :
    Settled k :=
  Run.invariant h0.settled (fun _ _ _ h ha hn => h.next ha.1 ha.2.1 ha.2.2 hn) hr hok

/-! ## No slot is mapped twice -/

theorem uva2ka_error {vpn : Nat} (h : v.uva2ka d vpn = .error msg) : msg = "uva2ka: null pte" := by
  unfold Vm.uva2ka at h
  split at h
  · split at h
    · cases h
      rfl
    · split at h <;> cases h
  · split at h <;> cases h
    rfl

theorem copyoutLoop_error {fuel va : Nat} {bytes : List UInt8}
    (h : Vm.copyoutLoop d fuel va bytes v = .error msg) : msg = "uva2ka: null pte" := by
  induction fuel generalizing va bytes v with
  | zero => cases h
  | succ fuel ih =>
    unfold Vm.copyoutLoop at h
    split at h
    · cases h
    · split at h
      · next e hu =>
        cases h
        exact uva2ka_error hu
      · cases h
      · exact ih h

theorem clone_error {sp : Nat} {slindex : Int} (h : k.clone p sp slindex fnc arg = .error msg) :
    msg ≠ "remap" := by
  unfold clone at h
  split at h
  · cases h
  · split at h
    · next e hd =>
      cases h
      rw [dupFiles_error hd]
      decide
    · simp only at h
      split at h
      · cases h
        decide
      · split at h
        · next e hc =>
          cases h
          rw [copyoutLoop_error hc]
          decide
        · cases h
        · cases h

theorem stackAlloc_ne_error {i guard : Nat} (h : Laid k) (ht : k.world.thread p = some t)
    (hi : i < 8) (hg : guard = 2 ∨ guard = 4) (hfree : ¬ k.world.slotUsed t i) {m : Kernel ncpu}
    (hm : m.vm = k.vm) : m.stackAlloc t.pgdir i guard ≠ .error msg := by
  intro he
  have hlay := h.sizes.layout p t ht
  have hno : ∀ x ∈ slot i, x ∉ k.vm.maps.mapped t.pgdir := by
    intro x hx hmap
    rcases hlay.only x hmap with hlt | ⟨j, hj, hu, hxj⟩
    · exact absurd (lt_of_mem_slot hlay.below hi hx) (Nat.not_le_of_lt hlt)
    · rw [slot_inj hi hj hx hxj] at hfree
      exact hfree hu
  rcases stackAlloc_error hi hg he with ⟨hmap, -⟩ | ⟨hmap, -⟩
  · rw [hm] at hmap
    exact hno _ (low_mem_slot i) hmap
  · rw [hm] at hmap
    exact hno _ (top_mem_slot i) hmap

theorem ktStack_error {i guard : Nat} {s : PslIdx} (h : Laid k) (ht : k.world.thread p = some t)
    (hi : i < 8) (hg : guard = 2 ∨ guard = 4) (hfree : ¬ k.world.slotUsed t i) {m : Kernel ncpu}
    (hm : m.vm = k.vm) (he : m.ktStack p t.pgdir s i guard fnc arg = .error msg) :
    msg ≠ "remap" := by
  unfold ktStack at he
  split at he
  · next e ha => exact absurd ha (stackAlloc_ne_error h ht hi hg hfree hm)
  · cases he
  · exact clone_error he

/-- **`KT_Create` never maps a slot twice.** -/
theorem ktCreate_error {c : Fin ncpu} (h : Laid k) (hcpu : k.cpu c = some p)
    (he : k.ktCreate p fnc arg = .error msg) : msg ≠ "remap" := by
  obtain ⟨t, ht, -⟩ := caller h.sched h.clean hcpu
  obtain ⟨-, -, hd, -, hl, -⟩ := world_thread_eq_some.mp ht
  cases ktCreate_path fnc arg hd with
  | refused _ hx =>
    rw [hx] at he
    cases he
  | noList _ _ _ hx =>
    rw [hx] at he
    exact clone_error he
  | first s _ hs _ hx =>
    rw [hx] at he
    refine ktStack_error (m := k.claimed p s) h ht (by omega) (.inr rfl) ?_ rfl he
    simp [World.slotUsed, hl.symm.trans hs]
  | noSlot s _ hs hcount hnone _ =>
    exact absurd hnone (h.slots.findSlot_ne_none ht (hl.symm.trans hs) hcount)
  | next s i _ hs _ hslot hx =>
    obtain ⟨hi, hz⟩ := findSlot_some hslot
    rw [hx] at he
    refine ktStack_error (m := k.counted s) h ht hi (.inl rfl) ?_ rfl he
    simp only [World.slotUsed, hl.symm.trans hs]
    intro hu
    rw [show (k.psl s).stackz i = true from hu] at hz
    cases hz

/-- **Each process has its stack.** In a run from the start of `init` in
which `exec` is only called by the one thread of its address space, in
slot 0, and `KT_Create` gets its stacks: the top page of the slot of every
process is mapped in its page table, `fork` finds every page it copies, and
`KT_Create` never takes a slot that is mapped already. -/
theorem own_slot_mapped {tr : List (Kernel ncpu × Act ncpu)} (h0 : Started k₀)
    (hr : Run next k₀ tr k)
    (hok : Meets (fun k a => k.execSettled a = true ∧ k.growsOk a = true ∧ k.ktReady a = true) tr) :
    (∀ p, (k.proc p).state ≠ .unused → (k.proc p).state ≠ .embryo →
      ∃ d, (k.proc p).pgdir = some d ∧
        (k.vm.space d).mapped (Vm.stackPage (k.proc p).slindex) = true) ∧
    (∀ c p, k.cpu c = some p → k.fork p ≠ .error "copyuvm: pte should exist" ∧
      k.fork p ≠ .error "copyuvm: page not present" ∧ k.fork p ≠ .error "remap") ∧
    (∀ c p fnc arg, k.cpu c = some p → k.ktCreate p fnc arg ≠ .error "remap") := by
  have h := settled_run h0 hr hok
  refine ⟨?_, ?_, ?_⟩
  · intro p hp _
    obtain ⟨t, ht⟩ := exists_thread h.clean hp
    obtain ⟨-, -, hd, -, hl, hs⟩ := world_thread_eq_some.mp ht
    refine ⟨t.pgdir, hd, ?_⟩
    have hmap := stackPage_mapped h.toLaid ht
    rw [hs]
    cases hpsl : t.psl with
    | none =>
      rw [if_pos hpsl] at hmap
      rw [h.unlisted p t ht hpsl]
      exact hmap
    | some s =>
      rw [if_neg (by simp [hpsl])] at hmap
      exact hmap
  · intro c p hcpu
    have hne : ∀ {msg : String}, msg ≠ "kfree" → msg ≠ "filedup" → k.fork p ≠ .error msg := by
      intro msg h1 h2 he
      rcases fork_error h.toLaid hcpu he with h | h
      · exact h1 h
      · exact h2 h
    exact ⟨hne (by decide) (by decide), hne (by decide) (by decide), hne (by decide) (by decide)⟩
  · intro c p fnc arg hcpu he
    exact ktCreate_error h.toLaid hcpu he rfl

end

/-- `initproc` starts a thread, joins it, and loads another program; the
new one starts a thread and forks. -/
def loadedAgain : List (Kernel 1 × Act 1) × Kernel 1 :=
  (follow next initLoaded
    [.call 0 (.ktCreate pgsize 0), .call 0 .yield, .schedule 0 1, .call 0 .exit, .schedule 0 0,
      .call 0 .ktJoin, .call 0 (.exec onePage), .call 0 (.ktCreate pgsize 0), .call 0 .fork]).get
    (by decide +kernel)

theorem own_slot_mapped_loadedAgain :
    Meets (fun k a => k.execSettled a = true ∧ k.growsOk a = true ∧ k.ktReady a = true)
      loadedAgain.1 ∧
    (loadedAgain.2.proc 1).slindex = 1 ∧
    ∃ d, (loadedAgain.2.proc 1).pgdir = some d ∧
      (loadedAgain.2.vm.space d).mapped (Vm.stackPage (loadedAgain.2.proc 1).slindex) = true := by
  have hr : Run next initLoaded loadedAgain.1 loadedAgain.2 := run_get _
  have hfacts : Meets (fun k a => k.execSettled a = true ∧ k.growsOk a = true ∧
        k.ktReady a = true) loadedAgain.1 ∧ (loadedAgain.2.proc 1).slindex = 1 ∧
      (loadedAgain.2.proc 1).state ≠ .unused ∧ (loadedAgain.2.proc 1).state ≠ .embryo := by
    decide +kernel
  obtain ⟨hok, hsl, h1, h2⟩ := hfacts
  exact ⟨hok, hsl, (own_slot_mapped started_initLoaded hr hok).1 1 h1 h2⟩

/-- A child of `initproc` starts a thread and exits. The thread, now alone
on its page table, loads a program. -/
def threadLoaded : List (Kernel 1 × Act 1) × Kernel 1 :=
  (follow next initLoaded
    [.call 0 .fork, .call 0 .yield, .schedule 0 1, .call 0 (.ktCreate pgsize 0), .call 0 .exit,
      .schedule 0 0, .call 0 .wait, .call 0 .yield, .schedule 0 2, .call 0 (.exec onePage)]).get
    (by decide +kernel)

/-- The thread's `slindex` is still 1. The page there is not mapped, `fork`
panics, and `KT_Create`, for which slot 0 is free, maps it twice. -/
theorem own_slot_missing : Started initLoaded ∧
    Run next initLoaded threadLoaded.1 threadLoaded.2 ∧
    (threadLoaded.2.proc 2).state = .running ∧ threadLoaded.2.cpu 0 = some 2 ∧
    (∃ d, (threadLoaded.2.proc 2).pgdir = some d ∧
      (threadLoaded.2.vm.space d).mapped (Vm.stackPage (threadLoaded.2.proc 2).slindex) = false) ∧
    threadLoaded.2.fork 2 = .error "copyuvm: page not present" ∧
    threadLoaded.2.ktCreate 2 pgsize 0 = .error "remap" := by
  refine ⟨started_initLoaded, run_get _, ?_⟩
  decide +kernel

end Kernel

end Xv6.Kern
