/-
Xv6.Kern.GuardTheorems — stack pages and guard pages.

The lower page of a stack slot, `slotLow i`, is to be its guard: mapped
without `PTE_U`. `exec` and the later-thread branch of `KT_Create` clear
the bit there. The first-thread branch clears it two pages further down,
in slot 2, which is not mapped then: the guard of slot 1 stays
user-accessible until the slot is given out again.

`PermOk` is what holds of every entry: writable, and user-accessible
unless it is a guard page. The exception is the lower page of slot 1 in a
directory that is `opened`, which is a fold over the trace: set by the
first-thread branch, reset when slot 1 is given out by the other.
-/
import Xv6.Mem.Perms
import Xv6.Kern.ExecTheorems
import Xv6.Kern.ForkTheorems

namespace Xv6.Kern

open Xv6.Lib Xv6.Mem

variable {ncpu : Nat} {u w : Bool} {n : Int} {d' g : Nat} {np q : ProcIdx}
  {fit o : Bool} {f : ExecFile} {c : Fin ncpu} {r : Int} {segs : List (Nat × Bool)}
  {arg d₁ fnc i sp sz x : Nat} {P : Nat → Bool → Bool → Prop} {p : ProcIdx} {t : Thread}
  {v v' : Vm}

/-- The lower page of a stack slot. -/
def GuardPage (x : Nat) : Prop := ∃ i, i < 8 ∧ x = Kernel.slotLow i

/-- The permission bits page `x` should have. -/
def PermOk (opened : Bool) (x : Nat) (w u : Bool) : Prop :=
  w = true ∧ (u = true ↔ (GuardPage x → x = Kernel.slotLow 1 ∧ opened = true))

theorem not_guardPage_of_lt (h : x < heapTop) : ¬ GuardPage x := by
  rintro ⟨i, hi, rfl⟩
  simp only [heapTop, slotLow_eq] at h
  omega

theorem not_guardPage_top (hi : i < 8) : ¬ GuardPage (Kernel.slotLow i + 1) := by
  rintro ⟨j, hj, heq⟩
  simp only [slotLow_eq] at heq
  omega

theorem guardPage_slotLow (hi : i < 8) : GuardPage (Kernel.slotLow i) := ⟨i, hi, rfl⟩

theorem permOk_of_not_guard (h : ¬ GuardPage x) : PermOk o x true true :=
  ⟨rfl, by simp [h]⟩

theorem PermOk.user (h : PermOk o x w u) (hx : ¬ GuardPage x) : u = true :=
  h.2.mpr fun hg => absurd hg hx

/-! ## Directories of a world -/

namespace World

/-- A thread is on a directory that was in use before, or on the new one of
a `fork` or an `exec`. -/
theorem Step.dirs {fits : Nat → Nat → Prop} {w w' : World} {u : Thread} {op : Call}
    (ht : w.thread p = some t) (hs : Step fits w p t op w') (hq : w'.thread q = some u) :
    (∃ r v, w.thread r = some v ∧ v.pgdir = u.pgdir) ∨
    (u.pgdir = w.mem.nspace ∧ ((op = .fork ∧ w.thread q = none ∧ u.psl = none) ∨
      ∃ f, op = .exec f ∧ q = p)) := by
  -- an entry that is set to a thread on directory `t.pgdir`, and the others as they were
  have hset : ∀ {w₁ : World} {z : ProcIdx} {v : Thread}, (w₁.set z (some v)).thread q = some u →
      w₁.thread = w.thread → v.pgdir = t.pgdir →
      ∃ r v, w.thread r = some v ∧ v.pgdir = u.pgdir := by
    intro w₁ z v hz hw hv
    rcases thread_of_set hz with ⟨-, rfl⟩ | ⟨-, hold⟩
    · exact ⟨p, t, ht, hv.symm⟩
    · exact ⟨q, u, hw ▸ hold, rfl⟩
  have hunset : ∀ {w₁ : World} {z : ProcIdx}, w₁.thread = w.thread →
      (w₁.set z none).thread q = some u → ∃ r v, w.thread r = some v ∧ v.pgdir = u.pgdir := by
    intro w₁ z hw hz
    exact ⟨q, u, hw ▸ (thread_of_unset hz).2, rfl⟩
  have hspawned : ∀ {w₁ : World} {v : Thread} {i : Int}, Spawned w₁ p v i w' →
      v.pgdir = t.pgdir → (∀ r x, w₁.thread r = some x →
        ∃ r' x', w.thread r' = some x' ∧ x'.pgdir = x.pgdir) →
      ∃ r v, w.thread r = some v ∧ v.pgdir = u.pgdir := by
    intro w₁ v i hsp hv hw
    cases hsp with
    | none => exact hw q u hq
    | thread nt _ =>
      rcases thread_of_set hq with ⟨-, rfl⟩ | ⟨-, hold⟩
      · exact ⟨p, t, ht, hv.symm⟩
      · exact hw q u hold
  cases hs with
  | stay | forkFailed | growFailed | shrinkFailed | execFailed | ktNextBad =>
    exact .inl ⟨q, u, hq, rfl⟩
  | exit | grow | shrink | ktEmbryo => exact .inl (hset hq rfl rfl)
  | wait z v hz _ =>
    unfold waitReap at hq
    refine .inl (hunset ?_ hq)
    split
    · rfl
    · exact clear_thread _ _
  | ktJoin z v hz _ _ =>
    unfold joinReap at hq
    refine .inl (hunset ?_ hq)
    rw [clear_thread]
    split <;> rfl
  | fork np hnp =>
    rcases thread_of_set hq with ⟨rfl, rfl⟩ | ⟨-, hold⟩
    · exact .inr ⟨rfl, .inl ⟨rfl, hnp, rfl⟩⟩
    · exact .inl ⟨q, u, hold, rfl⟩
  | exec f sz =>
    rcases thread_of_set hq with ⟨rfl, rfl⟩ | ⟨-, hold⟩
    · exact .inr ⟨rfl, .inr ⟨f, rfl, rfl⟩⟩
    · exact .inl ⟨q, u, hold, rfl⟩
  | ktFirst _ _ s w' _ _ _ hsp =>
    refine .inl (hspawned hsp rfl fun r x hr => ?_)
    rcases thread_of_set hr with ⟨-, rfl⟩ | ⟨-, hold⟩
    · exact ⟨p, t, ht, rfl⟩
    · exact ⟨r, x, hold, rfl⟩
  | ktFirstBad _ _ s =>
    have hq' : (w.claim p t s).thread q = some u := hq
    exact .inl (hset hq' rfl rfl)
  | ktNext _ _ s i w' _ _ _ _ hsp => exact .inl (hspawned hsp rfl fun r x hr => ⟨r, x, hr, rfl⟩)
  | ktNoSlot _ _ s w' _ _ _ _ hor =>
    rcases hor with rfl | ⟨nt, -, rfl⟩
    · exact .inl ⟨q, u, hq, rfl⟩
    · exact .inl (hset hq rfl rfl)

end World

namespace Kernel

/-! ## Calls that write no entry -/

section
variable {P : Nat → Bool → Bool → Prop} {k k' : Kernel ncpu} {d : Nat} {cur p : ProcIdx}

theorem freeKstack_space (h : k.freeKstack p = .ok k') : k'.vm.space = k.vm.space := by
  obtain ⟨pg, -, rfl⟩ := freeKstack_eq h
  rfl

theorem exit_space (h : k.exit c cur = .ok k') : k'.vm.space = k.vm.space := by
  obtain ⟨-, k₁, hc, rfl⟩ := exit_effect h
  exact hc.space

/-! ## Calls that remove entries -/

theorem clearPsl?_perms (h : k.clearPsl? p = .ok k') (hP : k.vm.PermsAt P d) :
    k'.vm.PermsAt P d := by
  unfold clearPsl? at h
  split at h
  · cases h
    exact hP
  · unfold clearPsl at h
    simp only at h
    split at h
    · cases h
    · cases h
      exact hP.deallocuvm _ _ _

theorem freevmOf_perms (h : k.freevmOf p = .ok k') (hP : k.vm.PermsAt P d) :
    k'.vm.PermsAt P d := by
  unfold freevmOf at h
  split at h
  · cases h
  · cases h
    exact hP.freevm _

theorem Frees.perms (h : Frees k p k') (hP : k.vm.PermsAt P d) : k'.vm.PermsAt P d := by
  induction h with
  | refl => exact hP
  | kstack _ hf ih => exact ih.of_space (freeKstack_space hf)
  | psl _ hf ih => exact clearPsl?_perms hf ih
  | vm _ hf ih => exact freevmOf_perms hf ih

theorem perms_of_effect (h : (∃ p, Reaps k k' p) ∨ k' = k ∨ ∃ chan, k' = k.sleep c cur chan)
    (hP : k.vm.PermsAt P d) : k'.vm.PermsAt P d := by
  rcases h with ⟨p, -, m, hm, rfl⟩ | rfl | ⟨chan, rfl⟩
  · exact (hm.perms hP :)
  · exact hP
  · exact hP

/-! ## Calls that write entries -/

theorem growproc_perms (h : k.growproc cur n = .ok (r, k')) (hP : k.vm.PermsAt P d)
    (hnew : 0 < n → toU32 ((k.proc cur).sz + n) < kernbase → ∀ x, npages (k.proc cur).sz ≤ x →
      x < npages (toU32 ((k.proc cur).sz + n)) → P x true true)
    : k'.vm.PermsAt P d := by
  have hfin : ∀ {vm : Vm} {sz : Nat}, vm.PermsAt P d →
      ({ k with vm := vm } : Kernel ncpu).growFinish cur sz = .ok (r, k') →
      k'.vm.PermsAt P d := by
    intro vm sz hvm hf
    unfold growFinish at hf
    split at hf
    · cases hf
    · cases hf
      exact hvm
  unfold growproc at h
  simp only at h
  split at h
  · cases h
  · split at h
    · next hn =>
      split at h
      · cases h
      · next vm ha =>
        cases h
        exact hP.allocuvm ha fun _ => hnew hn
      · next sz vm _ ha => exact hfin (hP.allocuvm ha fun _ => hnew hn) h
    · have hde : ∀ {d₁ : Nat} {o : Nat × Vm},
          k.vm.deallocuvm d₁ (k.proc cur).sz (toU32 ((k.proc cur).sz + n)) = o →
          o.2.PermsAt P d := by
        intro d₁ o ho
        rw [← ho]
        exact hP.deallocuvm _ _ _
      split at h
      · split at h
        · next vm heq =>
          cases h
          exact hde heq
        · next sz vm _ heq => exact hfin (hde heq) h
      · exact hfin hP h

theorem Allocs.space {pid : Proc → Int} {o : Option ProcIdx} (h : Allocs k pid n o k') :
    k'.vm.space = k.vm.space ∧ k'.vm.nspace = k.vm.nspace := by
  cases h with
  | full => exact ⟨rfl, rfl⟩
  | short _ hk | taken _ hk => exact ⟨(Vm.kalloc_eq hk).1, (Vm.took_kalloc hk).nspace⟩

theorem fork_perms (h : k.fork cur = .ok (r, k')) (hd : d < k.vm.nspace) (hP : k.vm.PermsAt P d) :
    k'.vm.PermsAt P d := by
  rcases fork_paths h with ⟨-, ha⟩ | ⟨np, k1, ha, hf⟩
  · exact hP.of_space (allocproc_allocs ha).space.1
  obtain ⟨hspace, hn⟩ := (allocproc_allocs ha).space
  have hfill : ∀ {b : Bool} {l : Kernel ncpu}, k1.forkFill cur np = .ok (b, l) →
      l.vm.PermsAt P d := by
    intro b l hl
    obtain ⟨_, _, v, -, hc, hk⟩ := forkFill_eq hl
    have hv := (hP.of_space hspace).copyuvm (hn ▸ hd) hc
    rcases hk with ⟨-, -, pg, -, rfl⟩ | ⟨_, _, _, _, _, -, -, -, rfl⟩
    · exact hv.of_space rfl
    · exact hv
  rcases hf with ⟨-, hf⟩ | ⟨k2, hf, -, rfl⟩
  · exact hfill hf
  · have hk2 := hfill hf
    exact hk2

theorem Forked.perms (h : Forked k k' cur np d d') (hd : d < k.vm.nspace) (hP : k.vm.PermsAt P d)
    (hstack : ∀ w u, P (Vm.stackPage (k.forkSlot cur)) w u → P (Vm.stackPage 0) w u) :
    k'.vm.PermsAt P d' := by
  obtain ⟨v, htook, -, hspace, hcp⟩ := h.copy
  exact (hP.of_space hspace).copyuvm_new (htook.nspace ▸ hd) hstack hcp

theorem Forked.new (h : Forked k k' cur np d d') : d' = k.vm.nspace := by
  obtain ⟨v, htook, -, -, hcp⟩ := h.copy
  cases Vm.copyuvm_run hcp with
  | done hs => exact (Vm.newDir_setupkvm hs).num.trans htook.nspace

theorem clone_perms {i : Int} (h : k.clone cur sp i fnc arg = .ok (r, k')) (hP : k.vm.PermsAt P d) :
    k'.vm.PermsAt P d := by
  rcases clone_eq h with ⟨-, ht⟩ | ⟨nt, pg, v, v', file, iref, ofile, old, old', d, ok, -, hk, -, -,
    hout, -, rfl⟩
  · exact hP.of_space (tallocproc_allocs ht).space.1
  · exact (hP.of_space (Vm.kalloc_eq hk).1).copyout hout

end

/-! ## New stacks -/

theorem PermOk.congr {o' : Bool} (h : PermOk o x w u) (hx : x = slotLow 1 → o' = o) :
    PermOk o' x w u := by
  refine ⟨h.1, h.2.trans ?_⟩
  by_cases h1 : x = slotLow 1
  · rw [hx h1]
  · simp [h1]

theorem permOk_guard (hi : i < 8) (ho : i = 1 → o = false) : PermOk o (slotLow i) true false := by
  refine ⟨rfl, ?_⟩
  simp only [Bool.false_eq_true, false_iff]
  intro h
  obtain ⟨heq, hopen⟩ := h (guardPage_slotLow hi)
  simp only [slotLow_eq] at heq
  have : i = 1 := by omega
  rw [ho this] at hopen
  cases hopen

section
variable {k k' : Kernel ncpu} {d : Nat} {cur p : ProcIdx}

theorem permsAt_guarded {v₁ v₂ : Vm} (hi : i < 8) (hf : v.Filled v₁ d (slotLow i) (slotLow i + 2))
    (hc : v₁.clearpteu d (slotLow i) = .ok v₂) (hP : v.PermsAt (PermOk o) d) :
    v₂.PermsAt (PermOk (if i = 1 then false else o)) d := by
  obtain ⟨hself, hother, -⟩ := Vm.clearpteu_entry hc
  intro x e hx
  by_cases hlow : x = slotLow i
  · subst hlow
    rw [hself] at hx
    obtain ⟨e₀, he₀, rfl⟩ := Option.map_eq_some_iff.mp hx
    obtain ⟨e₁, he₁, hw, -⟩ := hf.new (slotLow i) (Nat.le_refl _) (by omega)
    rw [he₀] at he₁
    cases he₁
    simp only [hw]
    exact permOk_guard hi fun h1 => by simp [h1]
  · rw [hother d x (.inr hlow)] at hx
    by_cases htop : x = slotLow i + 1
    · subst htop
      obtain ⟨e₁, he₁, hw, hu, -⟩ := hf.new (slotLow i + 1) (by omega) (by omega)
      rw [hx] at he₁
      cases he₁
      rw [hw, hu]
      exact permOk_of_not_guard (not_guardPage_top hi)
    · rw [hf.other d x (by omega)] at hx
      refine PermOk.congr (hP x e hx) fun h1 => ?_
      rw [if_neg]
      rintro rfl
      exact hlow h1

theorem stackAlloc_guarded (hi : i < 8) (h : k.stackAlloc d i 2 = .ok (some sp, k'))
    (hP : k.vm.PermsAt (PermOk o) d) : k'.vm.PermsAt (PermOk (if i = 1 then false else o)) d := by
  obtain ⟨-, vm, hf, hc⟩ := stackAlloc_entries h
  exact permsAt_guarded hi hf hc hP

theorem stackAlloc_unguarded (h : k.stackAlloc d 1 4 = .ok (some sp, k'))
    (hP : k.vm.PermsAt (PermOk o) d) : k'.vm.PermsAt (PermOk true) d := by
  obtain ⟨-, vm, hf, hc⟩ := stackAlloc_entries h
  obtain ⟨hself, hother, -⟩ := Vm.clearpteu_entry hc
  have hpage : slotLow 1 + 2 - 4 = slotLow 2 := by
    simp only [slotLow_eq]
  have hne : ¬ (slotLow 1 ≤ slotLow 2) := by
    simp only [slotLow_eq]
    omega
  rw [hpage] at hself hother
  intro x e hx
  by_cases hlow : x = slotLow 2
  · subst hlow
    rw [hself] at hx
    obtain ⟨e₀, he₀, rfl⟩ := Option.map_eq_some_iff.mp hx
    rw [hf.other d _ (by omega)] at he₀
    simp only [(hP _ e₀ he₀).1]
    exact permOk_guard (by omega) (by omega)
  · rw [hother d x (.inr hlow)] at hx
    by_cases hin : slotLow 1 ≤ x ∧ x < slotLow 1 + 2
    · obtain ⟨e₁, he₁, hw, hu, -⟩ := hf.new x hin.1 hin.2
      rw [hx] at he₁
      cases he₁
      rw [hw, hu]
      refine ⟨rfl, ?_⟩
      simp only [true_iff]
      intro hg
      refine ⟨?_, trivial⟩
      by_contra h1
      have htop : x = slotLow 1 + 1 := by omega
      subst htop
      exact not_guardPage_top (by omega) hg
    · rw [hf.other d x (by omega)] at hx
      refine PermOk.congr (hP x e hx) fun h1 => ?_
      omega

theorem stackAlloc_other {o : Option Nat} (hne : d ≠ d₁) (h : k.stackAlloc d₁ i g = .ok (o, k'))
    (hP : k.vm.PermsAt P d) : k'.vm.PermsAt P d := by
  obtain ha | ⟨-, ha, hc⟩ := (stackAlloc_run h).2
  · exact hP.allocuvm ha fun hd => absurd hd hne
  · have h1 := hP.allocuvm ha fun hd => absurd hd hne
    exact h1.clearpteu hc fun hd => absurd hd hne

theorem ktBad_perms (k : Kernel ncpu) (d : Nat) : (k.ktBad d).2.vm.PermsAt P d := by
  refine Vm.permsAt_of_none fun x => ?_
  show (k.vm.freevm d).entry d x = none
  rw [Vm.freevm_entry, if_pos rfl]

/-- Is the lower page of slot 1 user-accessible after `KT_Create` by `p`,
if it was before? -/
def openAfter (k : Kernel ncpu) (p : ProcIdx) (fnc : Nat) (o : Bool) : Bool :=
  if fnc = 0 then o
  else
    match (k.proc p).psl with
    | some s =>
      if (k.psl s).threadCount = 8 then o
      else if findSlot (k.psl s) = some 1 then false else o
    | none =>
      match k.findPsl with
      | none => o
      | some _ => true

theorem ktStack_perms {m : Kernel ncpu} {s : PslIdx}
    (h : m.ktStack p d₁ s i g fnc arg = .ok (r, k'))
    (hbad : ∀ m', m.stackAlloc d₁ i g = .ok (none, m') → (m'.ktBad d₁).2.vm.PermsAt P d)
    (hmade : ∀ sp m', m.stackAlloc d₁ i g = .ok (some sp, m') → m'.vm.PermsAt P d) :
    k'.vm.PermsAt P d := by
  unfold ktStack at h
  split at h
  · cases h
  · next m' ha =>
    cases h
    exact hbad m' ha
  · next sp m' ha => exact clone_perms h (hmade sp m' ha)

/-- **`KT_Create` keeps the bits of its caller's pages.** -/
theorem ktCreate_perms (h : k.ktCreate p fnc arg = .ok (r, k')) (hd : (k.proc p).pgdir = some d)
    (hP : k.vm.PermsAt (PermOk o) d) : k'.vm.PermsAt (PermOk (k.openAfter p fnc o)) d := by
  cases ktCreate_path fnc arg hd with
  | refused hr hx =>
    rw [hx] at h
    cases h
    have ho : k.openAfter p fnc o = o := by
      rcases hr with hf | ⟨s, hs, hc⟩
      · rw [openAfter, if_pos hf]
      · simp [openAfter, hs, hc]
    rwa [ho]
  | noList hf hs hn hx =>
    rw [hx] at h
    simp only [openAfter, if_neg hf, hs, hn]
    exact clone_perms h hP
  | first s hf hs hn hx =>
    rw [hx] at h
    simp only [openAfter, if_neg hf, hs, hn]
    exact ktStack_perms h (fun m' _ => ktBad_perms m' d) fun _ _ ha => stackAlloc_unguarded ha hP
  | noSlot s hf hs hc hn hx =>
    rw [hx] at h
    have ho : k.openAfter p fnc o = o := by simp [openAfter, hf, hs, hc, hn]
    rw [ho]
    exact clone_perms h hP
  | next s i hf hs hc hi hx =>
    rw [hx] at h
    have ho : k.openAfter p fnc o = if i = 1 then false else o := by
      simp [openAfter, hf, hs, hc, hi]
    rw [ho]
    exact ktStack_perms h (fun m' _ => ktBad_perms m' d) fun _ _ ha =>
      stackAlloc_guarded (findSlot_some hi).1 ha hP

theorem ktCreate_perms_other (h : k.ktCreate p fnc arg = .ok (r, k'))
    (hd : (k.proc p).pgdir = some d₁) (hne : d ≠ d₁) (hP : k.vm.PermsAt P d) :
    k'.vm.PermsAt P d := by
  have hstack : ∀ {m : Kernel ncpu} {s i g}, m.vm.PermsAt P d →
      m.ktStack p d₁ s i g fnc arg = .ok (r, k') → k'.vm.PermsAt P d := fun hm h =>
    ktStack_perms h (fun _ ha => (stackAlloc_other hne ha hm).freevm d₁)
      fun _ _ ha => stackAlloc_other hne ha hm
  cases ktCreate_path fnc arg hd with
  | refused _ hx =>
    rw [hx] at h
    cases h
    exact hP
  | noList _ _ _ hx => exact clone_perms (hx ▸ h) hP
  | first s _ _ _ hx => exact hstack (m := k.claimed p s) hP (hx ▸ h)
  | noSlot s _ _ _ _ hx => exact clone_perms (k := k.counted s) (hx ▸ h) hP
  | next s i _ _ _ _ hx => exact hstack (m := k.counted s) hP (hx ▸ h)

/-! ## `exec` -/

theorem execLoad_perms {o : Option Nat} (h : execLoad d₁ segs sz v = .ok (o, v'))
    (hnew : d = d₁ → ∀ seg ∈ segs, ∀ x, x < npages seg.1 → P x true true) (hP : v.PermsAt P d) :
    v'.PermsAt P d := by
  induction segs generalizing sz v with
  | nil =>
    cases h
    exact hP
  | cons seg segs ih =>
    obtain ⟨newsz, ok⟩ := seg
    unfold execLoad at h
    have hone : ∀ {r : Nat} {v₁ : Vm}, v.allocuvm d₁ sz newsz = .ok (r, v₁) →
        v₁.PermsAt P d := by
      intro r v₁ ha
      exact hP.allocuvm ha fun hd _ x _ hx => hnew hd (newsz, ok) List.mem_cons_self x hx
    split at h
    · cases h
    · next v₁ ha =>
      cases h
      exact hone ha
    rename_i r v₁ _ ha
    split at h
    · exact ih h (fun hd seg hseg => hnew hd seg (List.mem_cons_of_mem _ hseg)) (hone ha)
    · cases h
      exact hone ha

theorem execBuild_perms (h : execBuild d segs fit v = .ok (some sz, v'))
    (hroom : ∀ seg ∈ segs, npages seg.1 ≤ heapTop) (hP : v.PermsAt (PermOk o) d) :
    v'.PermsAt (PermOk o) d := by
  unfold execBuild at h
  split at h
  · cases h
  · cases h
  rename_i sz₀ v₀ hl
  have h0 : v₀.PermsAt (PermOk o) d := by
    refine execLoad_perms hl (fun _ seg hseg x hx => ?_) hP
    exact permOk_of_not_guard (not_guardPage_of_lt (Nat.lt_of_lt_of_le hx (hroom seg hseg)))
  split at h
  · cases h
  · cases h
  rename_i r v₁ hne ha
  obtain ⟨-, hf⟩ | ⟨hr, -⟩ := Vm.allocuvm_entries (by decide) (by decide) ha
  · rw [npages_mul_pgsize, npages_mul_pgsize] at hf
    split at h
    · cases h
    rename_i v₂ hc
    simp only [Except.ok.injEq, Prod.mk.injEq] at h
    obtain ⟨-, rfl⟩ := h
    exact permsAt_guarded (by omega) hf hc h0
  · subst hr
    exact (hne rfl).elim

theorem allocuvm_max {oldsz newsz r : Nat} (h : v.allocuvm d oldsz newsz = .ok (r, v'))
    (hr : r ≠ 0) : oldsz ≤ r ∧ newsz ≤ r := by
  cases Vm.allocuvm_run h with
  | refused => exact absurd rfl hr
  | kept _ hlt => exact ⟨le_rfl, hlt.le⟩
  | grown hle => exact ⟨hle, le_rfl⟩
  | failed => exact absurd rfl hr

theorem execLoad_le {sz' : Nat} (h : execLoad d segs sz v = .ok (some sz', v')) :
    sz ≤ sz' ∧ ∀ seg ∈ segs, seg.1 ≤ sz' := by
  induction segs generalizing sz v with
  | nil =>
    cases h
    simp
  | cons seg segs ih =>
    obtain ⟨newsz, ok⟩ := seg
    unfold execLoad at h
    split at h
    · cases h
    · cases h
    rename_i r v₁ hne ha
    split at h
    · obtain ⟨hold, hnew⟩ := allocuvm_max ha fun h0 => hne h0
      obtain ⟨hle, hall⟩ := ih h
      refine ⟨by omega, fun seg hseg => ?_⟩
      rcases List.mem_cons.mp hseg with rfl | hseg
      · exact Nat.le_trans hnew hle
      · exact hall seg hseg
    · cases h

theorem execBuild_sz (h : execBuild d segs fit v = .ok (some sz, v')) :
    ∀ seg ∈ segs, npages seg.1 ≤ npages sz := by
  unfold execBuild at h
  split at h
  · cases h
  · cases h
  rename_i sz₀ v₀ hl
  obtain ⟨-, hall⟩ := execLoad_le hl
  split at h
  · cases h
  · cases h
  · split at h
    · cases h
    · simp only [Except.ok.injEq, Prod.mk.injEq] at h
      obtain ⟨hfit, -⟩ := h
      split at hfit
      · obtain rfl := Option.some.inj hfit
        intro seg hseg
        rw [npages_pgroundup]
        exact npages_mono (hall seg hseg)
      · cases hfit

theorem execBuild_other {o : Option Nat} (hne : d ≠ d₁)
    (h : execBuild d₁ segs fit v = .ok (o, v')) (hP : v.PermsAt P d) : v'.PermsAt P d := by
  unfold execBuild at h
  split at h
  · cases h
  · next v₀ hl =>
    cases h
    exact execLoad_perms hl (fun hd => absurd hd hne) hP
  rename_i sz₀ v₀ hl
  have h0 : v₀.PermsAt P d := execLoad_perms hl (fun hd => absurd hd hne) hP
  split at h
  · cases h
  · next v₁ ha =>
    cases h
    exact h0.allocuvm ha fun hd => absurd hd hne
  rename_i r v₁ _ ha
  have h1 := h0.allocuvm ha fun hd => absurd hd hne
  split at h
  · cases h
  rename_i v₂ hc
  cases h
  exact h1.clearpteu hc fun hd => absurd hd hne

theorem exec_perms (h : k.exec p f = .ok (r, k')) (hd : d < k.vm.nspace) (hP : k.vm.PermsAt P d) :
    k'.vm.PermsAt P d := by
  unfold exec at h
  split at h
  · cases h
    exact hP
  rename_i segs fit entry sp name
  split at h
  · next vm hs =>
    cases h
    exact hP.setupkvm hd hs
  rename_i d₁ vm hs
  have h1 := hP.setupkvm hd hs
  have hne : d ≠ d₁ := (Vm.newDir_setupkvm hs).num ▸ Nat.ne_of_lt hd
  split at h
  · cases h
  · next vm' hb =>
    cases h
    exact (execBuild_other hne hb h1).freevm d₁
  rename_i sz vm' hb
  have h2 := execBuild_other hne hb h1
  split at h
  · cases h
  · split at h
    · cases h
    · cases h
      exact h2.freevm _

theorem exec_other (h : k.exec p f = .ok (r, k')) (hq : q ≠ p) : k'.proc q = k.proc q := by
  unfold exec at h
  split at h
  · cases h
    rfl
  · split at h
    · cases h
      rfl
    · split at h
      · cases h
      · cases h
        rfl
      · split at h
        · cases h
        · split at h
          · cases h
          · cases h
            rw [setProc_proc, if_neg hq]

/-- **The directory `exec` gives its caller** has the bits it should. -/
theorem exec_perms_new (h : k.exec p f = .ok (r, k')) (hb : npages (k'.proc p).sz ≤ heapTop)
    (o : Bool) (hd : (k'.proc p).pgdir = some d) :
    (k.proc p).pgdir = some d ∨ k'.vm.PermsAt (PermOk o) d := by
  unfold exec at h
  split at h
  · cases h
    exact .inl hd
  rename_i segs fit entry sp name
  split at h
  · cases h
    exact .inl hd
  rename_i d₁ vm hs
  split at h
  · cases h
  · cases h
    exact .inl hd
  rename_i sz vm' hbuild
  split at h
  · cases h
  · split at h
    · cases h
    · cases h
      simp only [setProc_proc_self, Option.some.injEq] at hd hb
      subst hd
      have hnew : vm.PermsAt (PermOk o) d₁ := (Vm.newDir_setupkvm hs).permsAt
      refine .inr (Vm.PermsAt.freevm ?_ _)
      refine execBuild_perms hbuild (fun seg hseg => ?_) hnew
      exact Nat.le_trans (execBuild_sz hbuild seg hseg) hb

end

/-! ## Runs -/

/-- What a step does to the set of directories whose slot 1 has no guard. -/
def openStep (o : Nat → Bool) (e : Kernel ncpu × Act ncpu) : Nat → Bool :=
  match e.2 with
  | .call c (.ktCreate fnc _) =>
    match e.1.cpu c with
    | none => o
    | some p =>
      match (e.1.proc p).pgdir with
      | none => o
      | some d => Function.update o d (e.1.openAfter p fnc (o d))
  | _ => o

/-- In directory `d` slot 1 was last given out by the first-thread branch
of `KT_Create`. -/
def opened (tr : List (Kernel ncpu × Act ncpu)) : Nat → Bool :=
  tr.foldl openStep fun _ => false

@[simp] theorem opened_snoc (tr : List (Kernel ncpu × Act ncpu)) (e : Kernel ncpu × Act ncpu) :
    opened (tr ++ [e]) = openStep (opened tr) e := by
  simp [opened]

section
variable {k k' : Kernel ncpu} {a : Act ncpu} {o : Nat → Bool} {d : Nat}

/-- **An action keeps the bits of the directories there were.** -/
theorem perms_step (h : Settled k) (hg : k.growsOk a = true) (hn : k.next a = some k')
    (hd : d < k.vm.nspace) (hP : k.vm.PermsAt (PermOk (o d)) d) :
    k'.vm.PermsAt (PermOk (openStep o (k, a) d)) d := by
  have hheld : ∀ l : Kernel ncpu, l.holdings = k.holdings → l.vm.PermsAt (PermOk (o d)) d :=
    fun l hl => hP.of_space (congrArg (fun k : Kernel ncpu => k.vm.space) hl :)
  cases stepped_of_next hn with
  | schedule c p _ _ hs =>
    obtain rfl := scheduler_eq hs
    exact hP
  | wakeup chan hk =>
    subst hk
    exact hP
  | waitEnter c p i _ _ hk =>
    subst hk
    exact hheld _ (semWaitEnter_holdings k c p i)
  | signalEnter c p i _ _ hk =>
    subst hk
    exact hheld _ (semSignalEnter_holdings k p i)
  | call c p op hcpu _ hp =>
    obtain ⟨t, ht, -⟩ := caller h.sched h.clean hcpu
    obtain ⟨-, hsz, hpd, -⟩ := world_thread_eq_some.mp ht
    cases op with
    | yield =>
      cases hp
      exact hP
    | sleep chan =>
      cases hp
      exact hP
    | kill pid =>
      cases hp
      exact hheld _ (kill_holdings k pid)
    | exit => exact hP.of_space (exit_space hp)
    | wait =>
      obtain ⟨r, hr⟩ := map_snd_ok hp
      exact perms_of_effect (wait_effect hr) hP
    | ktJoin =>
      obtain ⟨r, hr⟩ := map_snd_ok hp
      exact perms_of_effect (ktJoin_effect hr) hP
    | fork =>
      obtain ⟨r, hr⟩ := map_snd_ok hp
      exact fork_perms hr hd hP
    | ktCreate fnc arg =>
      obtain ⟨r, hr⟩ := map_snd_ok hp
      simp only [openStep, hcpu, hpd]
      by_cases hdp : d = t.pgdir
      · subst hdp
        rw [Function.update_self]
        exact ktCreate_perms hr hpd hP
      · rw [Function.update_of_ne hdp]
        exact ktCreate_perms_other hr hpd hdp hP
    | growproc n =>
      obtain ⟨r, hr⟩ := map_snd_ok hp
      refine growproc_perms hr hP fun hpos hlt x hlo hhi => ?_
      rw [hsz] at hlt hlo hhi
      rcases (growOk_world hcpu ht hg n rfl).1 hpos with hk | hk | ⟨-, hb⟩
      · omega
      · have := npages_mono (Nat.le_of_lt hk)
        omega
      · exact permOk_of_not_guard (not_guardPage_of_lt (Nat.lt_of_lt_of_le hhi hb))
    | exec f =>
      obtain ⟨r, hr⟩ := map_snd_ok hp
      exact exec_perms hr hd hP
    | semInitialize n =>
      cases hp
      obtain ⟨s, hs⟩ := sysSemInitialize_eq k n.toInt
      exact hheld _ (congrArg holdings hs :)
    | semWait i =>
      cases hp
      obtain ⟨q, hq⟩ := semWait_eq k p i
      exact hheld _ (congrArg holdings hq :)
    | semSignal i =>
      cases hp
      obtain ⟨q, hq⟩ := semSignal_eq k p i
      exact hheld _ (congrArg holdings hq :)
    | semFree i =>
      cases hp
      exact hP

/-- Every thread's directory has the bits it should. -/
def Guarded (k : Kernel ncpu) (o : Nat → Bool) : Prop :=
  ∀ p t, k.world.thread p = some t → k.vm.PermsAt (PermOk (o t.pgdir)) t.pgdir

theorem permsAt_of_unused {b b' : Bool} (h : Laid k) (ht : k.world.thread p = some t)
    (hu : ¬ k.world.slotUsed t 1) (hP : k.vm.PermsAt (PermOk b) t.pgdir) :
    k.vm.PermsAt (PermOk b') t.pgdir := by
  refine hP.imp fun x e hx hok => PermOk.congr hok fun h1 => ?_
  subst h1
  exfalso
  have hmap : slotLow 1 ∈ k.vm.maps.mapped t.pgdir := Vm.entry_ne_none.mp (by simp [hx])
  have hlay := h.sizes.layout p t ht
  rcases hlay.only _ hmap with hlt | ⟨i, hi, hui, hslot⟩
  · have hb := hlay.below
    have := lt_of_mem_slot hb (by omega) (low_mem_slot 1)
    omega
  · obtain rfl : i = 1 := slot_inj hi (by omega) hslot (low_mem_slot 1)
    exact hu hui

theorem not_guardPage_stackPage (hi : i < 8) : ¬ GuardPage (Vm.stackPage i) := by
  rw [stackPage_eq hi]
  exact not_guardPage_top hi

theorem forkSlot_eq (h : Laid k) (ht : k.world.thread p = some t) :
    ∃ i : Nat, k.forkSlot p = i ∧ i < 8 := by
  obtain ⟨-, -, -, -, hl, hsl⟩ := world_thread_eq_some.mp ht
  unfold forkSlot
  rw [hl, hsl]
  cases hpsl : t.psl with
  | none => exact ⟨0, by simp, by omega⟩
  | some s =>
    obtain ⟨i, hi, hi8, -⟩ := (h.slots s).slot p _ (World.owners_eq_some.mpr ⟨t, ht, hpsl, rfl⟩)
    exact ⟨i, by simpa using hi, hi8⟩

/-- **`Guarded` is kept by every action** of the runs of `Settled`. -/
theorem Guarded.next (h : Settled k) (hgd : Guarded k o) (hx : k.execSettled a = true)
    (hg : k.growsOk a = true) (hkt : k.ktReady a = true) (hn : k.next a = some k') :
    Guarded k' (openStep o (k, a)) := by
  have h' := h.next hx hg hkt hn
  intro q u hq
  have hold : ∀ r v, k.world.thread r = some v → v.pgdir = u.pgdir →
      k'.vm.PermsAt (PermOk (openStep o (k, a) u.pgdir)) u.pgdir := by
    intro r v hr hd
    have hP := hgd r v hr
    rw [hd] at hP
    exact perms_step h hg hn (hd ▸ h.dated.fresh r v hr) hP
  cases h.toSound.refined hn with
  | same _ hw =>
    rw [hw] at hq
    exact hold q u hq rfl
  | call c p t op hcpu ht hlive hstep =>
    rcases hstep.dirs ht hq with ⟨r, v, hr, hd⟩ | ⟨hnew, ⟨rfl, hnone, hpsl⟩ | ⟨f, rfl, rfl⟩⟩
    · exact hold r v hr hd
    · -- the child of a `fork`
      cases stepped_of_next hn with
      | call _ p' _ hcpu' _ hp =>
        obtain rfl : p = p' := Option.some.inj (hcpu.symm.trans hcpu')
        obtain ⟨r, hr⟩ := map_snd_ok hp
        obtain ⟨-, -, hpd, -, hl, hsl⟩ := world_thread_eq_some.mp ht
        rcases fork_cases (state_ne_unused ht) hpd hr with ⟨np, d', hf⟩ | ⟨-, hsame⟩
        · have hd' : d' = u.pgdir := by
            rw [hnew]
            exact hf.new
          refine permsAt_of_unused (b := o t.pgdir) h'.toLaid hq ?_ ?_
          · simp [World.slotUsed, hpsl]
          · rw [← hd']
            refine hf.perms (h.dated.fresh p t ht) (hgd p t ht) fun w u hok => ?_
            obtain ⟨i, hi, hi8⟩ := forkSlot_eq h.toLaid ht
            rw [hi] at hok
            have hu := hok.user (not_guardPage_stackPage hi8)
            rw [hok.1, hu]
            exact permOk_of_not_guard (not_guardPage_stackPage (i := 0) (by omega))
        · have hst := state_ne_unused hq
          rw [hsame q hst] at hst
          exact absurd ((world_thread_eq_none h.clean).mp hnone) hst
    · -- the caller of an `exec`
      cases stepped_of_next hn with
      | call _ p' _ hcpu' _ hp =>
        obtain rfl : q = p' := Option.some.inj (hcpu.symm.trans hcpu')
        obtain ⟨r, hr⟩ := map_snd_ok hp
        obtain ⟨-, hsz, hpd, -⟩ := world_thread_eq_some.mp hq
        have hb : npages (k'.proc q).sz ≤ heapTop := by
          rw [hsz]
          exact (h'.sizes.layout q u hq).below
        refine (exec_perms_new hr hb _ hpd).resolve_left fun hsame => ?_
        obtain ⟨-, -, hpd₀, -⟩ := world_thread_eq_some.mp ht
        rw [hpd₀] at hsame
        have hlt := h.dated.fresh q t ht
        rw [Option.some.inj hsame, hnew] at hlt
        exact Nat.lt_irrefl _ hlt

theorem Started.guarded (h : Started k) : Guarded k fun _ => false := by
  have hlaid := h.laid
  obtain ⟨h0, hr, hok, honly, hpsl, hn, hne, hb⟩ := h
  next k₀ k₁ tr c f =>
    obtain ⟨hk, -⟩ := dirInv_run h0 hr hok
    cases stepped_of_next hn with
    | call _ p _ hcpu _ hp =>
      obtain ⟨r, hr⟩ := map_snd_ok hp
      obtain ⟨t, ht, -⟩ := caller hk.sched hk.clean hcpu
      obtain rfl : p = initproc := by
        by_contra hpi
        exact state_ne_unused ht (honly p hpi)
      intro q u hq
      obtain rfl : q = initproc := by
        by_contra hqi
        have hst := state_ne_unused hq
        rw [exec_other hr hqi] at hst
        exact hst (honly q hqi)
      obtain ⟨-, -, hpd, -⟩ := world_thread_eq_some.mp hq
      refine (exec_perms_new hr hb _ hpd).resolve_left fun hsame => ?_
      exact hne (hpd.trans hsame.symm)

/-- **Bits along runs**: they are what they should be in every state. -/
theorem guarded_run {k₀ : Kernel ncpu} {tr : List (Kernel ncpu × Act ncpu)} (h0 : Started k₀)
    (hr : Run next k₀ tr k)
    (hok : Meets (fun k a => k.execSettled a = true ∧ k.growsOk a = true ∧ k.ktReady a = true) tr) :
    Settled k ∧ Guarded k (opened tr) := by
  refine hr.history (I := fun tr k => Settled k ∧ Guarded k (opened tr))
    ⟨h0.settled, h0.guarded⟩ ?_ hok
  rintro tr k a k' - ⟨hs, hg⟩ ⟨hx, hgr, hkt⟩ hn
  rw [opened_snoc]
  exact ⟨hs.next hx hgr hkt hn, hg.next hs hx hgr hkt hn⟩

/-- **Stacks and guards.** In every run from the first `exec` of `init`
whose steps meet the conditions of `settled_run`: the top page of the slot
of every thread is there, writable and user-accessible; its lower page is
user-accessible exactly if it is the lower page of slot 1, given out by
the first-thread branch of `KT_Create` and not again since; and of a slot
that is not marked nothing is mapped. -/
theorem stack_guarded {k₀ : Kernel ncpu} {tr : List (Kernel ncpu × Act ncpu)} (h0 : Started k₀)
    (hr : Run next k₀ tr k)
    (hok : Meets (fun k a => k.execSettled a = true ∧ k.growsOk a = true ∧ k.ktReady a = true) tr)
    {s : PslIdx} {p : ProcIdx} (hst : (k.proc p).state ≠ .unused)
    (hpsl : (k.proc p).psl = some s) (hd : (k.proc p).pgdir = some d) :
    (∀ i : Nat, (k.proc p).slindex = i → (k.psl s).stackz i = true →
      (∃ e, k.vm.entry d (Vm.stackPage i) = some e ∧ e.w = true ∧ e.u = true) ∧
      ((∃ e, k.vm.entry d (slotLow i) = some e ∧ e.u = true) ↔ i = 1 ∧ opened tr d = true)) ∧
    (∀ i : Nat, i < 8 → (k.psl s).stackz i = false →
      k.vm.entry d (Vm.stackPage i) = none ∧ k.vm.entry d (slotLow i) = none) := by
  obtain ⟨h, hg⟩ := guarded_run h0 hr hok
  obtain ⟨t, ht⟩ := exists_thread h.clean hst
  obtain ⟨-, -, hpd, -, hl, hsl⟩ := world_thread_eq_some.mp ht
  obtain rfl : t.pgdir = d := Option.some.inj (hpd.symm.trans hd)
  have htl : t.psl = some s := hl.symm.trans hpsl
  have hlay := h.sizes.layout p t ht
  have hP := hg p t ht
  have hused : ∀ i : Nat, k.world.slotUsed t i ↔ (k.psl s).stackz i = true := by
    intro i
    simp only [World.slotUsed, htl]
    exact Iff.rfl
  constructor
  · intro i hi hz
    obtain ⟨j, hj, hj8, -⟩ := (h.slots s).slot p _ (World.owners_eq_some.mpr ⟨t, ht, htl, rfl⟩)
    obtain rfl : j = i := by
      rw [← hsl, hi] at hj
      exact (Int.natCast_inj.mp hj).symm
    have hui := (hused j).mpr hz
    constructor
    · obtain ⟨e, he⟩ := Option.ne_none_iff_exists'.mp
        (Vm.entry_ne_none.mpr (hlay.top j hj8 hui))
      rw [stackPage_eq hj8]
      have hok := hP _ e he
      exact ⟨e, he, hok.1, hok.user (not_guardPage_top hj8)⟩
    · constructor
      · rintro ⟨e, he, hu⟩
        obtain ⟨heq, hopen⟩ := (hP _ e he).2.mp hu (guardPage_slotLow hj8)
        exact ⟨slot_inj hj8 (by omega) (low_mem_slot j) (heq ▸ low_mem_slot 1), hopen⟩
      · rintro ⟨rfl, hopen⟩
        obtain ⟨e, he⟩ := Option.ne_none_iff_exists'.mp
          (Vm.entry_ne_none.mpr (hlay.low 1 (by omega) hj8 hui))
        exact ⟨e, he, (hP _ e he).2.mpr fun _ => ⟨rfl, hopen⟩⟩
  · intro i hi hz
    have hnot : ∀ x ∈ slot i, k.vm.entry t.pgdir x = none := by
      intro x hx
      refine Vm.entry_eq_none.mpr fun hmap => ?_
      rcases hlay.only x hmap with hlt | ⟨j, hj, huj, hxj⟩
      · have := lt_of_mem_slot hlay.below hi hx
        omega
      · obtain rfl : i = j := slot_inj hi hj hx hxj
        rw [(hused i).mp huj] at hz
        cases hz
    rw [stackPage_eq hi]
    exact ⟨hnot _ (top_mem_slot i), hnot _ (low_mem_slot i)⟩

end

/-- `initproc` starts two threads, in slots 1 and 2. -/
def twoThreads : List (Kernel 1 × Act 1) × Kernel 1 :=
  (follow next initLoaded [.call 0 (.ktCreate pgsize 0), .call 0 (.ktCreate pgsize 0)]).get
    (by decide +kernel)

theorem stack_guarded_twoThreads :
    Meets (fun k a => k.execSettled a = true ∧ k.growsOk a = true ∧ k.ktReady a = true)
      twoThreads.1 ∧
    ¬ (∃ e, twoThreads.2.vm.entry 1 (slotLow 2) = some e ∧ e.u = true) ∧
    twoThreads.2.vm.entry 1 (slotLow 3) = none := by
  have hr : Run next initLoaded twoThreads.1 twoThreads.2 := run_get _
  have hfacts : Meets (fun k a => k.execSettled a = true ∧ k.growsOk a = true ∧
        k.ktReady a = true) twoThreads.1 ∧ (twoThreads.2.proc 2).state ≠ .unused ∧
      (twoThreads.2.proc 2).psl = some 0 ∧ (twoThreads.2.proc 2).pgdir = some 1 ∧
      (twoThreads.2.proc 2).slindex = (2 : Nat) ∧ (twoThreads.2.psl 0).stackz (2 : Nat) = true ∧
      (twoThreads.2.psl 0).stackz (3 : Nat) = false := by
    decide +kernel
  obtain ⟨hok, hst, hpsl, hd, hsl, h2, h3⟩ := hfacts
  obtain ⟨hused, hfree⟩ := stack_guarded started_initLoaded hr hok hst hpsl hd
  refine ⟨hok, fun hu => ?_, (hfree 3 (by omega) h3).2⟩
  exact absurd ((hused 2 hsl h2).2.mp hu).1 (by omega)

/-- `initproc` starts a thread. -/
def oneThread : List (Kernel 1 × Act 1) × Kernel 1 :=
  (follow next initLoaded [.call 0 (.ktCreate pgsize 0)]).get (by decide +kernel)

/-- The page below its stack page is user-accessible. -/
theorem guard_missing : Started initLoaded ∧ Run next initLoaded oneThread.1 oneThread.2 ∧
    (oneThread.2.psl 0).state = .used ∧ (oneThread.2.psl 0).stackz 1 = true ∧
    (oneThread.2.proc 1).state = .runnable ∧ (oneThread.2.proc 1).psl = some 0 ∧
    (oneThread.2.proc 1).slindex = 1 ∧ (oneThread.2.proc 1).pgdir = some 1 ∧
    ∃ e, oneThread.2.vm.entry 1 (slotLow 1) = some e ∧ e.u = true := by
  refine ⟨started_initLoaded, run_get _, ?_⟩
  decide +kernel

end Kernel

end Xv6.Kern
