/-
Xv6.Kern.SpaceTheorems — who uses an address space, and when `freevm` is
called on it.

A page directory has no reference count. `wait` and `KT_Join` call
`freevm` for a process WITHOUT a stack list and only take a thread with
one off its list, so a directory is shared safely exactly when all its
sharers are on one stack list (`DirInv.shared`). `exec` and the error
path of `KT_Create` do not look: both free the caller's directory, and a
`KT_Create` that finds no stack list leaves an `EMBRYO` that shares it.
Runs that avoid the three never free a directory in use.

The price is a leak: the directory of a process that ever had a stack
list is freed by nobody. Without one it is freed once.
-/
import Xv6.Kern.SlotTheorems

namespace Xv6.Kern

open Xv6.Lib Xv6.Mem

variable {ncpu : Nat} (k : Kernel ncpu)
  {op : Call} {c : Fin ncpu} {i : Int} {m : Maps} {fits : Nat → Nat → Prop} {z : ProcIdx}
  {u : Thread} {w : World}

namespace World

variable {w w' : World} {p q z nt : ProcIdx} {t t' u : Thread} {s : PslIdx}

@[simp] theorem clear_thread (w : World) (t : Thread) : (w.clear t).thread = w.thread := by
  unfold clear
  split <;> rfl

@[simp] theorem clear_nspace (w : World) (t : Thread) :
    (w.clear t).mem.nspace = w.mem.nspace := by
  unfold clear
  split <;> rfl

@[simp] theorem clear_freed (w : World) (t : Thread) : (w.clear t).mem.freed = w.mem.freed := by
  unfold clear
  split <;> rfl

/-- A thread on a list is counted there, so `KT_Join` never finds the
count 0: it reaps as `wait` does. -/
theorem joinReap_eq_waitReap (hi : SlotInv w) (hz : w.thread z = some u) :
    w.joinReap z u = w.waitReap z u := by
  unfold joinReap waitReap
  cases hu : u.psl with
  | none => simp [lastOfPsl, clear, hu]
  | some s =>
    have hown := owners_eq_some.mpr ⟨u, hz, hu, rfl⟩
    obtain ⟨j, -, hj, hjz⟩ := (hi s).slot z _ hown
    have hpos := Finset.card_pos.mpr ⟨j, Psl.mem_slots.mpr ⟨hj, hjz⟩⟩
    have hle := (hi s).le_count ((hi s).used z _ hown)
    have hlast : w.lastOfPsl u = false := by
      simp only [lastOfPsl, hu, decide_eq_false_iff_not]
      omega
    rw [hlast]
    rfl

theorem waitReap_of_none (hu : u.psl = none) :
    w.waitReap z u = (w.setMem (w.mem.free u.pgdir)).set z none := by
  rw [waitReap, hu]

theorem waitReap_of_some {s : PslIdx} (hu : u.psl = some s) :
    w.waitReap z u = (w.clear u).set z none := by
  rw [waitReap, hu]

/-! ## Who keeps a directory -/

/-- Every thread was there before, with its directory and stack list. -/
def Inherits (w w' : World) : Prop :=
  ∀ q u', w'.thread q = some u' →
    ∃ u, w.thread q = some u ∧ u'.pgdir = u.pgdir ∧ u'.psl = u.psl

theorem Inherits.of_eq (h : w'.thread = w.thread) : Inherits w w' := by
  intro q u' hq
  rw [h] at hq
  exact ⟨u', hq, rfl, rfl⟩

theorem Inherits.set (ht : w.thread p = some t) (hw : w'.thread = w.thread)
    (hd : t'.pgdir = t.pgdir) (hl : t'.psl = t.psl) : Inherits w (w'.set p (some t')) := by
  intro q u' hq
  rcases thread_of_set hq with ⟨rfl, rfl⟩ | ⟨-, hq⟩
  · exact ⟨t, ht, hd, hl⟩
  · rw [hw] at hq
    exact ⟨u', hq, rfl, rfl⟩

theorem Inherits.drop (hw : w'.thread = w.thread) : Inherits w (w'.set z none) := by
  intro q u' hq
  exact ⟨u', hw ▸ (thread_of_unset hq).2, rfl, rfl⟩

/-! ## Directories are numbered as they are made -/

/-- Directories in use and freed directories were made before. -/
structure Dated (w : World) : Prop where
  fresh : ∀ p t, w.thread p = some t → t.pgdir < w.mem.nspace
  bound : ∀ d ∈ w.mem.freed, d < w.mem.nspace

section
variable (h : Dated w)
include h

theorem Dated.of (hin : Inherits w w') (hn : w'.mem.nspace = w.mem.nspace)
    (hf : ∀ d ∈ w'.mem.freed, d ∈ w.mem.freed ∨ d < w.mem.nspace) : Dated w' := by
  constructor
  · intro q u' hq
    obtain ⟨u, hu, hd, -⟩ := hin q u' hq
    rw [hd, hn]
    exact h.fresh q u hu
  · intro d hd
    rw [hn]
    rcases hf d hd with hd | hd
    · exact h.bound d hd
    · exact hd

theorem Dated.undone : Dated w.undone := by
  constructor
  · intro q u hq
    exact Nat.lt_succ_of_lt (h.fresh q u hq)
  · intro d hd
    rcases List.mem_cons.mp hd with rfl | hd
    · exact Nat.lt_succ_self _
    · exact Nat.lt_succ_of_lt (h.bound d hd)

theorem Dated.set (ht : t.pgdir < w.mem.nspace) : Dated (w.set p (some t)) := by
  constructor
  · intro q u hq
    rcases thread_of_set hq with ⟨-, rfl⟩ | ⟨-, hq⟩
    · exact ht
    · exact h.fresh q u hq
  · exact h.bound

theorem Dated.new (hn : m.nspace = w.mem.nspace + 1)
    (hf : ∀ d ∈ m.freed, d ∈ w.mem.freed ∨ d < w.mem.nspace) (ht : t.pgdir = w.mem.nspace) :
    Dated ((w.setMem m).set p (some t)) := by
  refine Dated.set ⟨?_, ?_⟩ ?_
  · intro q u hq
    rw [setMem_mem, hn]
    exact Nat.lt_succ_of_lt (h.fresh q u hq)
  · intro d hd
    rw [setMem_mem, hn]
    rcases hf d hd with hd | hd
    · exact Nat.lt_succ_of_lt (h.bound d hd)
    · exact Nat.lt_succ_of_lt hd
  · rw [setMem_mem, hn, ht]
    exact Nat.lt_succ_self _

theorem Dated.spawned (ht : t.pgdir < w.mem.nspace) (hs : Spawned w p t i w') : Dated w' := by
  cases hs with
  | none => exact h
  | thread nt _ => exact Dated.set h ht

theorem Dated.waitReap (hz : w.thread z = some u) : Dated (w.waitReap z u) := by
  cases hu : u.psl with
  | none =>
    rw [waitReap_of_none hu]
    refine h.of (.drop rfl) rfl fun d hd => ?_
    rcases List.mem_cons.mp hd with rfl | hd
    · exact .inr (h.fresh z u hz)
    · exact .inl hd
  | some s =>
    rw [waitReap_of_some hu]
    exact h.of (.drop (clear_thread w u)) (clear_nspace w u)
      fun d hd => .inl (clear_freed w u ▸ hd)

end

theorem Dated.step (hi : SlotInv w) (h : Dated w) (ht : w.thread p = some t)
    (hstep : Step fits w p t op w') : Dated w' := by
  have hd := h.fresh p t ht
  have hfree : ∀ d ∈ t.pgdir :: w.mem.freed, d ∈ w.mem.freed ∨ d < w.mem.nspace := by
    intro d hmem
    rcases List.mem_cons.mp hmem with rfl | hmem
    · exact .inr hd
    · exact .inl hmem
  have hclaim : ∀ s, Dated (w.claim p t s) := fun s =>
    Dated.set (w := w.setPsl s _) (h.of (.of_eq rfl) rfl fun _ => .inl) hd
  cases hstep with
  | stay => exact h
  | exit => exact h.set hd
  | wait z u hz _ => exact h.waitReap hz
  | ktJoin z u hz _ _ =>
    rw [joinReap_eq_waitReap hi hz]
    exact h.waitReap hz
  | fork np _ => exact h.new rfl (fun _ => .inl) rfl
  | grow | shrink => exact h.of (.set ht rfl rfl rfl) rfl fun _ => .inl
  | growFailed | shrinkFailed => exact h.of (.of_eq rfl) rfl fun _ => .inl
  | exec f sz => exact h.new rfl hfree rfl
  | forkFailed | execFailed => exact h.undone
  | ktEmbryo _ _ nt => exact h.set hd
  | ktFirst _ _ s w' _ _ _ hsp =>
    have hst : Dated ((w.claim p t s).stack s t.pgdir 1) :=
      (hclaim s).of (.of_eq rfl) rfl fun _ => .inl
    exact hst.spawned (t := t.claimed s) hd hsp
  | ktFirstBad _ _ s _ _ _ _ => exact (hclaim s).of (.of_eq rfl) rfl hfree
  | ktNext _ _ s i w' _ _ _ _ hsp =>
    have hst : Dated ((w.count s).stack s t.pgdir i) := h.of (.of_eq rfl) rfl fun _ => .inl
    exact hst.spawned hd hsp
  | ktNextBad _ _ s i _ _ _ _ _ => exact h.of (.of_eq rfl) rfl hfree
  | ktNoSlot _ _ s w' _ hpsl hc hf _ => exact absurd hf (hi.findSlot_ne_none ht hpsl hc)

/-! ## No directory is freed in use -/

/-- A directory in use is not freed, and only threads of one stack list
share one. -/
structure DirInv (w : World) : Prop extends Dated w where
  live : ∀ p t, w.thread p = some t → t.pgdir ∉ w.mem.freed
  nodup : w.mem.freed.Nodup
  shared : ∀ p q t u, p ≠ q → w.thread p = some t → w.thread q = some u → t.pgdir = u.pgdir →
    t.psl ≠ none ∧ u.psl = t.psl

/-- `KT_Create` by `t` gets a stack, or is refused because the list is full. -/
def StackReady (fits : Nat → Nat → Prop) (w : World) (t : Thread) : Prop :=
  match t.psl with
  | none => (∃ s, (w.psl s).state = .unused) ∧ fits t.pgdir 1
  | some s => (w.psl s).threadCount = 8 ∨
      ∀ i, Kernel.findSlot (w.psl s) = some i → fits t.pgdir i

theorem StackReady.first {t : Thread} {fnc : Nat} (h : fnc = 0 ∨ StackReady fits w t)
    (hf : fnc ≠ 0) (hpsl : t.psl = none) : (∃ s, (w.psl s).state = .unused) ∧ fits t.pgdir 1 := by
  rcases h with h0 | h
  · exact absurd h0 hf
  · rwa [StackReady, hpsl] at h

theorem StackReady.next {t : Thread} {s : PslIdx} {fnc i : Nat}
    (h : fnc = 0 ∨ StackReady fits w t) (hf : fnc ≠ 0) (hpsl : t.psl = some s)
    (hc : (w.psl s).threadCount ≠ 8) (hs : Kernel.findSlot (w.psl s) = some i) :
    fits t.pgdir i := by
  rcases h with h0 | h
  · exact absurd h0 hf
  · rw [StackReady, hpsl] at h
    rcases h with h8 | h
    · exact absurd h8 hc
    · exact h i hs

/-- No other thread has the directory of `p`. -/
def AloneOn (w : World) (p : ProcIdx) (t : Thread) : Prop :=
  ∀ q u, q ≠ p → w.thread q = some u → u.pgdir ≠ t.pgdir

section
variable (h : DirInv w)
include h

theorem DirInv.of (hin : Inherits w w') (hn : w'.mem.nspace = w.mem.nspace)
    (hf : w'.mem.freed = w.mem.freed) : DirInv w' := by
  refine ⟨h.toDated.of hin hn fun d hd => .inl (hf ▸ hd), ?_, hf ▸ h.nodup, ?_⟩
  · intro q u' hq
    obtain ⟨u, hu, hd, -⟩ := hin q u' hq
    rw [hd, hf]
    exact h.live q u hu
  · intro q q' u' v' hne hq hq' hd
    obtain ⟨u, hu, hdu, hlu⟩ := hin q u' hq
    obtain ⟨v, hv, hdv, hlv⟩ := hin q' v' hq'
    rw [hdu, hdv] at hd
    rw [hlu, hlv]
    exact h.shared q q' u v hne hu hv hd

theorem DirInv.aloneOn (ht : w.thread p = some t) (hpsl : t.psl = none) : AloneOn w p t :=
  fun q u hne hq hd => (h.shared p q t u hne.symm ht hq hd.symm).1 hpsl

theorem DirInv.free (hz : w.thread z = some u) (ha : AloneOn w z u) :
    DirInv ((w.setMem (w.mem.free u.pgdir)).set z none) := by
  have hthread : ∀ q v, ((w.setMem (w.mem.free u.pgdir)).set z none).thread q = some v →
      q ≠ z ∧ w.thread q = some v := fun _ _ => thread_of_unset
  refine ⟨⟨?_, ?_⟩, ?_, ?_, ?_⟩
  · intro q v hq
    exact h.fresh q v (hthread q v hq).2
  · intro d hd
    rcases List.mem_cons.mp hd with rfl | hd
    · exact h.fresh z u hz
    · exact h.bound d hd
  · intro q v hq hd
    obtain ⟨hne, hq⟩ := hthread q v hq
    rcases List.mem_cons.mp hd with hd | hd
    · exact ha q v hne hq hd
    · exact h.live q v hq hd
  · exact List.nodup_cons.mpr ⟨h.live z u hz, h.nodup⟩
  · intro q q' v v' hne hq hq' hd
    exact h.shared q q' v v' hne (hthread q v hq).2 (hthread q' v' hq').2 hd

theorem DirInv.waitReap (hz : w.thread z = some u) : DirInv (w.waitReap z u) := by
  cases hu : u.psl with
  | none =>
    rw [waitReap_of_none hu]
    exact h.free hz (h.aloneOn hz hu)
  | some s =>
    rw [waitReap_of_some hu]
    exact h.of (.drop (clear_thread w u)) (clear_nspace w u) (clear_freed w u)

theorem DirInv.undone : DirInv w.undone := by
  refine ⟨h.toDated.undone, ?_, ?_, h.shared⟩
  · intro q u hq hd
    rcases List.mem_cons.mp hd with hd | hd
    · exact Nat.ne_of_lt (h.fresh q u hq) hd
    · exact h.live q u hq hd
  · exact List.nodup_cons.mpr ⟨fun hd => Nat.lt_irrefl _ (h.bound _ hd), h.nodup⟩

theorem DirInv.put (hw : Dated w') (hthread : w'.thread = (w.set p (some t)).thread)
    (hf : w'.mem.freed = w.mem.freed) (hlive : t.pgdir ∉ w.mem.freed) (ha : AloneOn w p t) :
    DirInv w' := by
  have hold : ∀ q u, w'.thread q = some u →
      (q = p ∧ u = t) ∨ (q ≠ p ∧ w.thread q = some u) := fun q u hq => thread_of_set (hthread ▸ hq)
  refine ⟨hw, ?_, hf ▸ h.nodup, ?_⟩
  · intro q u hq
    rw [hf]
    rcases hold q u hq with ⟨-, rfl⟩ | ⟨-, hq⟩
    · exact hlive
    · exact h.live q u hq
  · intro q q' u u' hne hq hq' hd
    rcases hold q u hq with ⟨rfl, rfl⟩ | ⟨-, h1⟩ <;>
      rcases hold q' u' hq' with ⟨rfl, rfl⟩ | ⟨hne', h2⟩
    · exact absurd rfl hne
    · exact absurd hd.symm (ha q' u' hne' h2)
    · exact absurd hd (ha q u hne h1)
    · exact h.shared q q' u u' hne h1 h2 hd

theorem DirInv.new (hn : m.nspace = w.mem.nspace + 1) (hf : m.freed = w.mem.freed)
    (ht : t.pgdir = w.mem.nspace) : DirInv ((w.setMem m).set p (some t)) := by
  refine h.put (h.toDated.new hn (fun d hd => .inl (hf ▸ hd)) ht) rfl hf ?_ ?_
  · rw [ht]
    exact fun hd => Nat.lt_irrefl _ (h.bound _ hd)
  · intro q u _ hq
    rw [ht]
    exact Nat.ne_of_lt (h.fresh q u hq)

theorem DirInv.claim (ht : w.thread p = some t) (hpsl : t.psl = none) : DirInv (w.claim p t s) := by
  have ha := h.aloneOn ht hpsl
  exact h.put (.set ⟨h.fresh, h.bound⟩ (h.fresh p t ht)) rfl rfl (h.live p t ht) ha

theorem DirInv.spawn {l : Life} (ht : w.thread p = some t) (hpsl : t.psl ≠ none) :
    DirInv (w.spawn p t nt i l) := by
  -- as far as directories go, the new thread is a copy of its creator
  have hold : ∀ q u, (w.spawn p t nt i l).thread q = some u →
      ∃ q' u', w.thread q' = some u' ∧ u.pgdir = u'.pgdir ∧ u.psl = u'.psl ∧
        (q' = q ∨ (q' = p ∧ u' = t)) := by
    intro q u hq
    rcases thread_of_set hq with ⟨-, rfl⟩ | ⟨-, hq⟩
    · exact ⟨p, t, ht, rfl, rfl, .inr ⟨rfl, rfl⟩⟩
    · exact ⟨q, u, hq, rfl, rfl, .inl rfl⟩
  refine ⟨⟨?_, h.bound⟩, ?_, h.nodup, ?_⟩
  · intro q u hq
    obtain ⟨q', u', hq', hd, -, -⟩ := hold q u hq
    rw [hd]
    exact h.fresh q' u' hq'
  · intro q u hq
    obtain ⟨q', u', hq', hd, -, -⟩ := hold q u hq
    rw [hd]
    exact h.live q' u' hq'
  · intro q r u v hne hq hr hd
    obtain ⟨q', u', hq', hdu, hlu, hcq⟩ := hold q u hq
    obtain ⟨r', v', hr', hdv, hlv, hcr⟩ := hold r v hr
    rw [hdu, hdv] at hd
    rw [hlu, hlv]
    by_cases hqr : q' = r'
    · -- one of the two is the new thread, the other its creator
      subst hqr
      rw [hq'] at hr'
      cases hr'
      rcases hcq with rfl | ⟨rfl, rfl⟩
      · rcases hcr with rfl | ⟨rfl, rfl⟩
        · exact absurd rfl hne
        · exact ⟨hpsl, rfl⟩
      · exact ⟨hpsl, rfl⟩
    · exact h.shared q' r' u' v' hqr hq' hr' hd

theorem DirInv.spawned (ht : w.thread p = some t) (hpsl : t.psl ≠ none) (hs : Spawned w p t i w') :
    DirInv w' := by
  cases hs with
  | none => exact h
  | thread nt _ => exact h.spawn ht hpsl

end

/-- **A directory in use is never freed**, if `exec` is called by a process
alone on its directory and `KT_Create` when there is a stack for it. -/
theorem DirInv.step (hi : SlotInv w) (h : DirInv w) (ht : w.thread p = some t)
    (hexec : ∀ f, op = .exec f → AloneOn w p t)
    (hkt : ∀ fnc arg, op = .ktCreate fnc arg → fnc = 0 ∨ StackReady fits w t)
    (hstep : Step fits w p t op w') : DirInv w' := by
  cases hstep with
  | stay => exact h
  | exit | grow | shrink => exact h.of (.set ht rfl rfl rfl) rfl rfl
  | wait z u hz _ => exact h.waitReap hz
  | ktJoin z u hz _ _ =>
    rw [joinReap_eq_waitReap hi hz]
    exact h.waitReap hz
  | fork np _ => exact h.new rfl rfl rfl
  | forkFailed => exact h.undone
  | growFailed | shrinkFailed => exact h.of (.of_eq rfl) rfl rfl
  | exec f sz =>
    -- as if the caller had gone and come back on the new directory
    have hgone := h.free ht (hexec f rfl)
    have hnew := hgone.new (p := p) (t := { t with pgdir := w.mem.nspace, sz := pgroundup sz })
      (m := (w.mem.new.fill w.mem.nspace (Set.Ico 0 (npages sz) ∪ slot 0)).free t.pgdir)
      rfl rfl rfl
    refine hnew.of (.of_eq ?_) rfl rfl
    funext q
    simp only [exec, set_thread, setMem_thread]
    split <;> rfl
  | execFailed f => exact h.undone
  | ktEmbryo fnc arg nt hf hpsl hno _ =>
    obtain ⟨⟨s, hs⟩, -⟩ := StackReady.first (hkt fnc arg rfl) hf hpsl
    exact absurd hs (hno s)
  | ktFirst _ _ s w' _ hpsl _ hsp =>
    have hst : DirInv ((w.claim p t s).stack s t.pgdir 1) :=
      (h.claim ht hpsl).of (.of_eq rfl) rfl rfl
    exact hst.spawned (set_thread_self _ _ _) (by simp [Thread.claimed]) hsp
  | ktFirstBad fnc arg s hf hpsl _ hno =>
    exact absurd (StackReady.first (hkt fnc arg rfl) hf hpsl).2 hno
  | ktNext _ _ s i w' _ hpsl _ _ hsp =>
    have hst : DirInv ((w.count s).stack s t.pgdir i) := h.of (.of_eq rfl) rfl rfl
    exact hst.spawned ht (by simp [hpsl]) hsp
  | ktNextBad fnc arg s i hf hpsl hc hs hno =>
    exact absurd (StackReady.next (hkt fnc arg rfl) hf hpsl hc hs) hno
  | ktNoSlot _ _ s w' _ hpsl hc hf _ => exact absurd hf (hi.findSlot_ne_none ht hpsl hc)

/-! ## Without stack lists a directory is freed once -/

/-- A thread has directory `d`. -/
def Holds (w : World) (d : Nat) : Prop := ∃ p t, w.thread p = some t ∧ t.pgdir = d

/-- The account of directory `d`, which some thread has had if `held`: no
thread on it has a stack list, and unless an `EMBRYO` keeps it for ever it
has one user and is not freed, or had one and was freed once. -/
structure Once (d : Nat) (held : Prop) (w : World) : Prop where
  made : held → d < w.mem.nspace
  noList : ∀ p t, w.thread p = some t → t.pgdir = d → t.psl = none
  account : (∃ p t, w.thread p = some t ∧ t.pgdir = d ∧ t.life = .embryo) ∨
    ((∀ p q t u, w.thread p = some t → w.thread q = some u → t.pgdir = d → u.pgdir = d → p = q) ∧
      (w.Holds d → d ∉ w.mem.freed) ∧ (held → ¬ w.Holds d → w.mem.freed.count d = 1))

/-- The threads on directory `d` stay, and none comes. -/
structure SameOn (d : Nat) (w w' : World) : Prop where
  old : ∀ p t', w'.thread p = some t' → t'.pgdir = d →
    ∃ t, w.thread p = some t ∧ t.pgdir = d ∧ t'.psl = t.psl
  stays : ∀ p t, w.thread p = some t → t.pgdir = d →
    ∃ t', w'.thread p = some t' ∧ t'.pgdir = d ∧ (t.life = .embryo → t'.life = .embryo)

section
variable {w w' w'' : World} {p z nt : ProcIdx} {t t' u : Thread} {s : PslIdx} {d : Nat}
  {held : Prop}

theorem SameOn.of_eq (h : w'.thread = w.thread) : SameOn d w w' := by
  constructor
  · intro p t' ht' hd
    rw [h] at ht'
    exact ⟨t', ht', hd, rfl⟩
  · intro p t ht hd
    rw [← h] at ht
    exact ⟨t, ht, hd, id⟩

theorem SameOn.set_other {o o' : Option Thread} (hw : w'.thread = w.thread) (ho : w.thread p = o)
    (hne : ∀ t, o = some t → t.pgdir ≠ d) (hne' : ∀ t, o' = some t → t.pgdir ≠ d) :
    SameOn d w (w'.set p o') := by
  constructor
  · intro q t' ht' hd
    rcases (set_thread_eq_some ..).mp ht' with ⟨-, h⟩ | ⟨-, h⟩
    · exact absurd hd (hne' t' h)
    · rw [hw] at h
      exact ⟨t', h, hd, rfl⟩
  · intro q t ht hd
    refine ⟨t, (set_thread_eq_some ..).mpr (.inr ⟨?_, hw ▸ ht⟩), hd, id⟩
    rintro rfl
    exact hne t (ho.symm.trans ht) hd

theorem SameOn.set_same (hw : w'.thread = w.thread) (ht : w.thread p = some t)
    (hl : t.life = .live) (hd : t'.pgdir = t.pgdir) (hpsl : t'.psl = t.psl) :
    SameOn d w (w'.set p (some t')) := by
  constructor
  · intro q u hu hdu
    rcases thread_of_set hu with ⟨rfl, rfl⟩ | ⟨-, h⟩
    · exact ⟨t, ht, hd.symm.trans hdu, hpsl⟩
    · rw [hw] at h
      exact ⟨u, h, hdu, rfl⟩
  · intro q u hu hdu
    by_cases hq : q = p
    · subst hq
      rw [ht] at hu
      cases hu
      refine ⟨t', set_thread_self _ _ _, hd.trans hdu, ?_⟩
      rw [hl]
      exact fun h => by cases h
    · exact ⟨u, (set_thread_eq_some ..).mpr (.inr ⟨hq, hw ▸ hu⟩), hdu, id⟩

theorem SameOn.trans (h : SameOn d w w') (h' : SameOn d w' w'') : SameOn d w w'' := by
  constructor
  · intro p t'' ht'' hd
    obtain ⟨t', ht', hd', hl'⟩ := h'.old p t'' ht'' hd
    obtain ⟨t, ht, hd, hl⟩ := h.old p t' ht' hd'
    exact ⟨t, ht, hd, hl'.trans hl⟩
  · intro p t ht hd
    obtain ⟨t', ht', hd', hl'⟩ := h.stays p t ht hd
    obtain ⟨t'', ht'', hd'', hl''⟩ := h'.stays p t' ht' hd'
    exact ⟨t'', ht'', hd'', hl'' ∘ hl'⟩

theorem Once.same (h : Once d held w) (hs : SameOn d w w')
    (hm : held ∨ w.Holds d → d < w'.mem.nspace)
    (hf : held ∨ w.Holds d → w'.mem.freed.count d = w.mem.freed.count d) :
    Once d (held ∨ w.Holds d) w' := by
  have hback : w'.Holds d → w.Holds d := by
    rintro ⟨p, t', ht', hd⟩
    obtain ⟨t, ht, hd, -⟩ := hs.old p t' ht' hd
    exact ⟨p, t, ht, hd⟩
  have hstay : w.Holds d → w'.Holds d := by
    rintro ⟨p, t, ht, hd⟩
    obtain ⟨t', ht', hd, -⟩ := hs.stays p t ht hd
    exact ⟨p, t', ht', hd⟩
  refine ⟨hm, ?_, ?_⟩
  · intro p t' ht' hd
    obtain ⟨t, ht, hd, hl⟩ := hs.old p t' ht' hd
    rw [hl]
    exact h.noList p t ht hd
  · rcases h.account with ⟨p, t, ht, hd, he⟩ | ⟨huniq, hlive, hgone⟩
    · obtain ⟨t', ht', hd', he'⟩ := hs.stays p t ht hd
      exact .inl ⟨p, t', ht', hd', he' he⟩
    · refine .inr ⟨?_, ?_, ?_⟩
      · intro p q t' u' ht' hu' hdt hdu
        obtain ⟨t, ht, hdt, -⟩ := hs.old p t' ht' hdt
        obtain ⟨u, hu, hdu, -⟩ := hs.old q u' hu' hdu
        exact huniq p q t u ht hu hdt hdu
      · intro hh
        have := hlive (hback hh)
        rw [← List.count_eq_zero] at this ⊢
        rw [hf (.inr (hback hh)), this]
      · rintro (hheld | hh) hn
        · rw [hf (.inl hheld)]
          exact hgone hheld fun hh => hn (hstay hh)
        · exact absurd (hstay hh) hn

theorem Once.gone (h : Once d held w) (hz : w.thread z = some u) (hd : u.pgdir = d)
    (hl : u.life ≠ .embryo)
    (hold : ∀ q v, w'.thread q = some v → v.pgdir = d → q ≠ z ∧ w.thread q = some v)
    (hstays : ∀ q v, q ≠ z → w.thread q = some v → w'.thread q = some v)
    (hn : w.mem.nspace ≤ w'.mem.nspace) (hm : d < w.mem.nspace)
    (hf : w'.mem.freed = d :: w.mem.freed) : Once d (held ∨ w.Holds d) w' := by
  refine ⟨fun _ => Nat.lt_of_lt_of_le hm hn, ?_, ?_⟩
  · intro q v hq hdv
    exact h.noList q v (hold q v hq hdv).2 hdv
  · rcases h.account with ⟨p, t, ht, hdt, he⟩ | ⟨huniq, hlive, -⟩
    · have hne : p ≠ z := by
        rintro rfl
        rw [hz] at ht
        cases ht
        exact hl he
      exact .inl ⟨p, t, hstays p t hne ht, hdt, he⟩
    · have hnone : ¬ w'.Holds d := by
        rintro ⟨q, v, hq, hdv⟩
        obtain ⟨hne, hq⟩ := hold q v hq hdv
        exact hne (huniq q z v u hq hz hdv hd)
      refine .inr ⟨?_, fun hh => absurd hh hnone, ?_⟩
      · intro p q t v ht hv hdt hdv
        exact absurd ⟨p, t, ht, hdt⟩ hnone
      · intro _ _
        have := List.count_eq_zero.mpr (hlive ⟨z, u, hz, hd⟩)
        rw [hf, List.count_cons_self, this]

theorem Once.born (hn : ¬ held) (hw : Dated w) (hd : d = w.mem.nspace) (hf : d ∉ m.freed)
    (hpsl : t.psl = none) : Once d (held ∨ w.Holds d) ((w.setMem m).set p (some t)) := by
  have hnone : ¬ w.Holds d := by
    rintro ⟨q, v, hq, hdv⟩
    exact Nat.ne_of_lt (hw.fresh q v hq) (hdv.trans hd)
  have hold : ∀ q v, ((w.setMem m).set p (some t)).thread q = some v → v.pgdir = d →
      q = p ∧ v = t := by
    intro q v hq hdv
    rcases thread_of_set hq with h | ⟨-, h⟩
    · exact h
    · exact absurd ⟨q, v, h, hdv⟩ hnone
  refine ⟨?_, ?_, .inr ⟨?_, ?_, ?_⟩⟩
  · rintro (h | h)
    · exact absurd h hn
    · exact absurd h hnone
  · intro q v hq hdv
    rw [(hold q v hq hdv).2]
    exact hpsl
  · intro q q' v v' hq hq' hdv hdv'
    rw [(hold q v hq hdv).1, (hold q' v' hq' hdv').1]
  · intro _
    exact hf
  · rintro (h | h)
    · exact absurd h hn
    · exact absurd h hnone

theorem Spawned.mem (hs : Spawned w p t i w') : w'.mem = w.mem := by
  cases hs <;> rfl

theorem SameOn.spawned (hd : t.pgdir ≠ d) (hs : Spawned w p t i w') : SameOn d w w' := by
  cases hs with
  | none => exact .of_eq rfl
  | thread nt hnt =>
    refine .set_other rfl hnt (fun u hu => by cases hu) fun u hu => ?_
    cases hu
    exact hd

theorem SameOn.claim (ht : w.thread p = some t) (hd : t.pgdir ≠ d) :
    SameOn d w (w.claim p t s) := by
  refine .set_other rfl ht (fun u hu => ?_) fun u hu => ?_
  · cases hu
    exact hd
  · cases hu
    exact hd

theorem Once.waitReap (hw : Dated w) (h : Once d held w) (hz : w.thread z = some u)
    (hl : u.life = .zombie) : Once d (held ∨ w.Holds d) (w.waitReap z u) := by
  have hmade : held ∨ w.Holds d → d < w.mem.nspace := by
    rintro (hh | ⟨q, v, hq, rfl⟩)
    · exact h.made hh
    · exact hw.fresh q v hq
  cases hu : u.psl with
  | none =>
    rw [waitReap_of_none hu]
    by_cases hd : u.pgdir = d
    · refine h.gone hz hd (by simp [hl]) ?_ ?_ (Nat.le_refl _) (hd ▸ hw.fresh z u hz) (hd ▸ rfl)
      · intro q v hq _
        exact thread_of_unset hq
      · intro q v hne hq
        exact (set_thread_eq_some ..).mpr (.inr ⟨hne, hq⟩)
    · refine h.same (.set_other rfl hz (fun v hv => ?_) fun v hv => ?_) hmade fun _ => ?_
      · cases hv
        exact hd
      · cases hv
      · exact List.count_cons_of_ne hd
  | some s =>
    rw [waitReap_of_some hu]
    have hd : u.pgdir ≠ d := by
      intro hd
      rw [h.noList z u hz hd] at hu
      cases hu
    refine h.same (.set_other (clear_thread w u) hz (fun v hv => ?_) fun v hv => ?_) ?_
      fun _ => ?_
    · cases hv
      exact hd
    · cases hv
    · rw [set_mem, clear_nspace]
      exact hmade
    · rw [set_mem, clear_freed]

/-- **A directory is freed once**, if a thread on it does not take a stack
list: it calls `KT_Create` only with nothing to run, or when no list is
free. -/
theorem Once.step (hi : SlotInv w) (hw : Dated w) (h : Once d held w) (ht : w.thread p = some t)
    (hl : t.life = .live) (hexec : ∀ f, op = .exec f → t.psl = none)
    (hkt : ∀ fnc arg, op = .ktCreate fnc arg → t.pgdir = d →
      fnc = 0 ∨ ∀ s, (w.psl s).state ≠ .unused) (hstep : Step fits w p t op w') :
    Once d (held ∨ w.Holds d) w' := by
  have hmade : held ∨ w.Holds d → d < w.mem.nspace := by
    rintro (hh | ⟨q, v, hq, rfl⟩)
    · exact h.made hh
    · exact hw.fresh q v hq
  have hunmade : d = w.mem.nspace → ¬ held := fun hd hh => Nat.ne_of_lt (h.made hh) hd
  have hsame : ∀ {w'}, SameOn d w w' → w'.mem.nspace = w.mem.nspace →
      w'.mem.freed = w.mem.freed → Once d (held ∨ w.Holds d) w' := fun hs hn hf =>
    h.same hs (fun hh => hn ▸ hmade hh) fun _ => by rw [hf]
  have hundone : Once d (held ∨ w.Holds d) w.undone := by
    refine h.same (.of_eq rfl) (fun hh => Nat.lt_succ_of_lt (hmade hh)) fun hh => ?_
    exact List.count_cons_of_ne (Nat.ne_of_gt (hmade hh))
  have hlist : ∀ {s}, t.psl = some s → t.pgdir ≠ d := by
    intro s hs hd
    rw [h.noList p t ht hd] at hs
    cases hs
  -- the condition keeps threads on `d` from taking a list
  have hfirst : ∀ {fnc arg s}, op = .ktCreate fnc arg → fnc ≠ 0 → (w.psl s).state = .unused →
      t.pgdir ≠ d := by
    intro fnc arg s hop hf hs hd
    rcases hkt fnc arg hop hd with h0 | hno
    · exact hf h0
    · exact hno s hs
  cases hstep with
  | stay | growFailed | shrinkFailed => exact hsame (.of_eq rfl) rfl rfl
  | exit | grow | shrink => exact hsame (.set_same rfl ht hl rfl rfl) rfl rfl
  | wait z u hz hzl => exact h.waitReap hw hz hzl
  | ktJoin z u hz hzl _ =>
    rw [joinReap_eq_waitReap hi hz]
    exact h.waitReap hw hz hzl
  | fork np hnp =>
    by_cases hd : d = w.mem.nspace
    · exact .born (hunmade hd) hw hd (fun hf => Nat.ne_of_lt (hw.bound d hf) hd) rfl
    · refine h.same (.set_other rfl hnp (fun v hv => by cases hv) fun v hv => ?_)
        (fun hh => Nat.lt_succ_of_lt (hmade hh)) fun _ => rfl
      cases hv
      exact fun hv => hd hv.symm
  | forkFailed => exact hundone
  | exec f sz =>
    by_cases hdt : t.pgdir = d
    · have hlt : d < w.mem.nspace := hdt ▸ hw.fresh p t ht
      refine h.gone ht hdt (by simp [hl]) ?_ ?_ (Nat.le_succ _) hlt (hdt ▸ rfl)
      · intro q v hq hdv
        rcases thread_of_set hq with ⟨-, rfl⟩ | hq
        · exact absurd hdv (Nat.ne_of_gt hlt)
        · exact hq
      · intro q v hne hq
        exact (set_thread_eq_some ..).mpr (.inr ⟨hne, hq⟩)
    · by_cases hd : d = w.mem.nspace
      · refine .born (hunmade hd) hw hd (fun hf => ?_) (hexec f rfl)
        rcases List.mem_cons.mp hf with hf | hf
        · exact hdt hf.symm
        · exact Nat.ne_of_lt (hw.bound d hf) hd
      · refine h.same (.set_other rfl ht (fun v hv => ?_) fun v hv => ?_)
          (fun hh => Nat.lt_succ_of_lt (hmade hh)) fun _ => ?_
        · rw [← Option.some.inj hv]
          exact hdt
        · rw [← Option.some.inj hv]
          exact fun hv => hd hv.symm
        · exact List.count_cons_of_ne hdt
  | execFailed f => exact hundone
  | ktEmbryo fnc arg nt hf hpsl hno hnt =>
    by_cases hd : t.pgdir = d
    · refine ⟨hmade, ?_, .inl ⟨nt, _, set_thread_self _ _ _, hd, rfl⟩⟩
      intro q v hq hdv
      rcases thread_of_set hq with ⟨-, rfl⟩ | ⟨-, hq⟩
      · exact hpsl
      · exact h.noList q v hq hdv
    · refine hsame (.set_other rfl hnt (fun v hv => by cases hv) fun v hv => ?_) rfl rfl
      cases hv
      exact hd
  | ktFirst fnc arg s w' hf hpsl hs hsp =>
    have hd := hfirst rfl hf hs
    have hstack : SameOn d (w.claim p t s) ((w.claim p t s).stack s t.pgdir 1) := .of_eq rfl
    refine hsame
      (((SameOn.claim ht hd).trans hstack).trans (.spawned (t := t.claimed s) hd hsp)) ?_ ?_
    · rw [hsp.mem]
      rfl
    · rw [hsp.mem]
      rfl
  | ktFirstBad fnc arg s hf hpsl hs hno =>
    have hd := hfirst rfl hf hs
    exact h.same ((SameOn.claim ht hd).trans (.of_eq rfl)) hmade
      fun _ => List.count_cons_of_ne hd
  | ktNext _ _ s i w' _ hpsl _ _ hsp =>
    have hstack : SameOn d w ((w.count s).stack s t.pgdir i) := .of_eq rfl
    refine hsame (hstack.trans (.spawned (hlist hpsl) hsp)) ?_ ?_
    · rw [hsp.mem]
      rfl
    · rw [hsp.mem]
      rfl
  | ktNextBad fnc arg s i hf hpsl hc hs hno =>
    exact h.same (.of_eq rfl) hmade fun _ => List.count_cons_of_ne (hlist hpsl)
  | ktNoSlot _ _ s w' _ hpsl hc hf _ => exact absurd hf (hi.findSlot_ne_none ht hpsl hc)

end

end World

namespace Kernel

/-- No other entry in use has the directory of `p`. -/
def aloneOn (p : ProcIdx) : Bool :=
  decide (∀ q, q ≠ p → (k.proc q).state ≠ .unused → (k.proc q).pgdir ≠ (k.proc p).pgdir)

/-- `KT_Create` by `p` gets a stack, or is refused because the list is full. -/
def stackReady (p : ProcIdx) : Bool :=
  match (k.proc p).pgdir, (k.proc p).psl with
  | none, _ => false
  | some d, none => k.findPsl.isSome && StackFits k.vm d 1
  | some d, some s =>
    (k.psl s).threadCount = 8 ||
      match findSlot (k.psl s) with
      | none => true
      | some i => StackFits k.vm d i

/-- A `KT_Create` with a function to run gets a stack or finds its list full. -/
def ktReady : Act ncpu → Bool
  | .call c (.ktCreate fnc _) =>
    match k.cpu c with
    | none => true
    | some p => fnc = 0 || k.stackReady p
  | _ => true

/-- An `exec` is called by a process alone on its directory. -/
def execAlone : Act ncpu → Bool
  | .call c (.exec _) =>
    match k.cpu c with
    | none => true
    | some p => k.aloneOn p
  | _ => true

variable {k k' k₀ : Kernel ncpu} {p : ProcIdx} {t : Thread} {a : Act ncpu} {d : Nat}

theorem aloneOn_world (ht : k.world.thread p = some t) (h : k.aloneOn p = true) :
    k.world.AloneOn p t := by
  intro q u hne hq hd
  obtain ⟨-, -, hdp, -⟩ := world_thread_eq_some.mp ht
  obtain ⟨-, -, hdq, -⟩ := world_thread_eq_some.mp hq
  refine of_decide_eq_true h q hne (state_ne_unused hq) ?_
  rw [hdp, hdq, hd]

theorem stackReady_world (ht : k.world.thread p = some t) (h : k.stackReady p = true) :
    k.world.StackReady (StackFits k.vm) t := by
  obtain ⟨-, -, hd, -, hl, -⟩ := world_thread_eq_some.mp ht
  unfold stackReady at h
  rw [hd, hl] at h
  unfold World.StackReady
  cases hpsl : t.psl with
  | none =>
    simp only [hpsl, Bool.and_eq_true, decide_eq_true_eq] at h
    obtain ⟨s, hs⟩ := Option.isSome_iff_exists.mp h.1
    have hu : (k.psl s).state = .unused := by simpa using List.find?_some hs
    exact ⟨⟨s, hu⟩, h.2⟩
  | some s =>
    simp only [hpsl, Bool.or_eq_true, decide_eq_true_eq] at h
    rcases h with h | h
    · exact .inl h
    · right
      intro i hi
      rw [show findSlot (k.psl s) = some i from hi] at h
      exact of_decide_eq_true h

theorem ktReady_world (hcpu : k.cpu c = some p) (ht : k.world.thread p = some t)
    (h : k.ktReady (.call c op) = true) :
    ∀ fnc arg, op = .ktCreate fnc arg → fnc = 0 ∨ k.world.StackReady (StackFits k.vm) t := by
  rintro fnc arg rfl
  simp only [ktReady, hcpu, Bool.or_eq_true, decide_eq_true_eq] at h
  exact h.imp id (stackReady_world ht)

theorem execAlone_world (hcpu : k.cpu c = some p) (ht : k.world.thread p = some t)
    (h : k.execAlone (.call c op) = true) : ∀ f, op = .exec f → k.world.AloneOn p t := by
  rintro f rfl
  simp only [execAlone, hcpu] at h
  exact aloneOn_world ht h

/-- What every run keeps: a sound kernel with its books. -/
structure Kept (k : Kernel ncpu) : Prop extends Sound k where
  slots : k.world.SlotInv
  dated : k.world.Dated

theorem Kept.step (h : Kept k) (hn : k.next a = some k') : Kept k' := by
  refine ⟨h.toSound.step hn, SlotInv.next h.toSound h.slots hn, ?_⟩
  cases h.toSound.refined hn with
  | same _ hw =>
    rw [hw]
    exact h.dated
  | call c p t op _ ht _ hstep => exact h.dated.step h.slots ht hstep

theorem thread_boot (h : Boot k) (ht : k.world.thread p = some t) : p = initproc := by
  by_contra hp
  have := state_ne_unused ht
  rw [h.rest p hp] at this
  exact this rfl

theorem dirInv_boot (h : Boot k) : k.world.DirInv := by
  have hfreed : k.world.mem.freed = [] := h.freed
  refine ⟨⟨?_, ?_⟩, ?_, ?_, ?_⟩
  · intro p t ht
    obtain ⟨d, hd, hlt⟩ := h.initPgdir
    obtain ⟨-, -, hpd, -⟩ := world_thread_eq_some.mp ht
    rw [thread_boot h ht, hd] at hpd
    cases hpd
    exact hlt
  · simp [hfreed]
  · simp [hfreed]
  · simp [hfreed]
  · intro p q t u hne ht hu
    exact absurd ((thread_boot h ht).trans (thread_boot h hu).symm) hne

theorem kept_boot (h : Boot k) : Kept k :=
  ⟨sound_boot h, slotInv_boot h, (dirInv_boot h).toDated⟩

theorem DirInv.next (h : Kept k) (hd : k.world.DirInv) (hx : k.execAlone a = true)
    (hkt : k.ktReady a = true) (hn : k.next a = some k') : k'.world.DirInv := by
  cases h.toSound.refined hn with
  | same _ hw =>
    rw [hw]
    exact hd
  | call c p t op hcpu ht _ hstep =>
    exact hd.step h.slots ht (execAlone_world hcpu ht hx) (ktReady_world hcpu ht hkt) hstep

theorem dirInv_run {tr : List (Kernel ncpu × Act ncpu)} (h0 : Boot k₀) (hr : Run next k₀ tr k)
    (hok : Meets (fun k a => k.execAlone a = true ∧ k.ktReady a = true) tr) :
    Kept k ∧ k.world.DirInv := by
  refine Run.invariant (I := fun k => Kept k ∧ k.world.DirInv) ⟨kept_boot h0, dirInv_boot h0⟩ ?_
    hr hok
  rintro k a k' ⟨hk, hd⟩ ⟨hx, hkt⟩ hn
  exact ⟨hk.step hn, DirInv.next hk hd hx hkt hn⟩

/-- **No page table is freed while in use.** In a run in which `exec` is
only called by a process alone on its page table, and `KT_Create` only
when it gets a stack (or is refused at once), no entry in use ever has a
page table that `freevm` was called on, and `freevm` is called at most
once on each. -/
theorem no_freed_in_use {tr : List (Kernel ncpu × Act ncpu)} (h0 : Boot k₀)
    (hr : Run next k₀ tr k)
    (hok : Meets (fun k a => k.execAlone a = true ∧ k.ktReady a = true) tr) :
    (∀ p, (k.proc p).state ≠ .unused → ∃ d, (k.proc p).pgdir = some d ∧ d ∉ k.vm.freed) ∧
      k.vm.freed.Nodup := by
  have h := dirInv_run h0 hr hok
  refine ⟨?_, h.2.nodup⟩
  intro p hp
  obtain ⟨t, ht⟩ := exists_thread h.1.clean hp
  obtain ⟨-, -, hd, -⟩ := world_thread_eq_some.mp ht
  exact ⟨t.pgdir, hd, h.2.live p t ht⟩

/-- One CPU and room for three address spaces. -/
def processMachine : Kernel 1 := (machine 1 260).get (by decide +kernel)

theorem boot_processMachine : Boot processMachine := boot_machine (Option.some_get _).symm

/-- A program of one page. -/
def onePage : ExecFile := .image [(pgsize, true)] true 0 0 "init"

/-- `initproc` loads a program, forks a child and waits for it. -/
def childReaped : List (Kernel 1 × Act 1) × Kernel 1 :=
  (follow next processMachine
    [.schedule 0 0, .call 0 (.exec onePage), .call 0 .fork, .call 0 .yield, .schedule 0 1,
      .call 0 .exit, .schedule 0 0, .call 0 .wait]).get (by decide +kernel)

theorem no_freed_in_use_childReaped :
    Meets (fun k a => k.execAlone a = true ∧ k.ktReady a = true) childReaped.1 ∧
    childReaped.2.vm.freed = [2, 0] ∧
    ∃ d, (childReaped.2.proc 0).pgdir = some d ∧ d ∉ childReaped.2.vm.freed := by
  have hr : Run next processMachine childReaped.1 childReaped.2 := run_get _
  have hok : Meets (fun k a => k.execAlone a = true ∧ k.ktReady a = true) childReaped.1 := by
    decide +kernel
  exact ⟨hok, by decide +kernel,
    (no_freed_in_use boot_processMachine hr hok).1 0 (by decide +kernel)⟩

/-- `initproc` starts a thread and calls `exec`. -/
def execWithThread : List (Kernel 1 × Act 1) × Kernel 1 :=
  (follow next processMachine
    [.schedule 0 0, .call 0 (.ktCreate pgsize 0), .call 0 (.exec onePage)]).get (by decide +kernel)

/-- `initproc` calls `KT_Create` when no page is free. -/
def createWithoutMemory : List (Kernel 2 × Act 2) × Kernel 2 :=
  (follow next smallMachine [.schedule 0 0, .call 0 (.ktCreate pgsize 0)]).get (by decide +kernel)

/-- `exec` frees the page table under a runnable thread; `KT_Create`, when
it gets no stack, frees the one it runs on. -/
theorem freed_in_use :
    (Boot processMachine ∧ Run next processMachine execWithThread.1 execWithThread.2 ∧
      (execWithThread.2.proc 1).state = .runnable ∧
      (execWithThread.2.proc 1).pgdir = some 0 ∧ 0 ∈ execWithThread.2.vm.freed) ∧
    (Boot smallMachine ∧ Run next smallMachine createWithoutMemory.1 createWithoutMemory.2 ∧
      createWithoutMemory.2.cpu 0 = some initproc ∧
      (createWithoutMemory.2.proc initproc).pgdir = some 0 ∧
      0 ∈ createWithoutMemory.2.vm.freed) := by
  refine ⟨⟨boot_processMachine, run_get _, ?_⟩,
    boot_smallMachine, run_get _, ?_⟩
  · decide +kernel
  · decide +kernel

/-! ## No directory is leaked without stack lists -/

/-- An entry in use has directory `d`. -/
def Uses (k : Kernel ncpu) (d : Nat) : Prop :=
  ∃ p, (k.proc p).state ≠ .unused ∧ (k.proc p).pgdir = some d
  deriving Decidable

/-- An `exec` is called by a process without a stack list. -/
def execUnlisted (k : Kernel ncpu) : Act ncpu → Bool
  | .call c (.exec _) =>
    match k.cpu c with
    | none => true
    | some p => (k.proc p).psl = none
  | _ => true

/-- A `KT_Create` on directory `d` has nothing to run, or finds no stack
list free. -/
def takesNoList (d : Nat) (k : Kernel ncpu) : Act ncpu → Bool
  | .call c (.ktCreate fnc _) =>
    match k.cpu c with
    | none => true
    | some p => (k.proc p).pgdir ≠ some d || fnc = 0 || k.findPsl = none
  | _ => true

theorem uses_iff (hc : k.Clean) : k.Uses d ↔ k.world.Holds d := by
  constructor
  · rintro ⟨p, hp, hd⟩
    obtain ⟨t, ht⟩ := exists_thread hc hp
    obtain ⟨-, -, hpd, -⟩ := world_thread_eq_some.mp ht
    rw [hd] at hpd
    exact ⟨p, t, ht, (Option.some.inj hpd).symm⟩
  · rintro ⟨p, t, ht, rfl⟩
    obtain ⟨-, -, hpd, -⟩ := world_thread_eq_some.mp ht
    exact ⟨p, state_ne_unused ht, hpd⟩

theorem execUnlisted_world (hcpu : k.cpu c = some p) (ht : k.world.thread p = some t)
    (h : k.execUnlisted (.call c op) = true) : ∀ f, op = .exec f → t.psl = none := by
  rintro f rfl
  obtain ⟨-, -, -, -, hl, -⟩ := world_thread_eq_some.mp ht
  simp only [execUnlisted, hcpu, decide_eq_true_eq] at h
  exact hl.symm.trans h

theorem takesNoList_world (hcpu : k.cpu c = some p) (ht : k.world.thread p = some t)
    (h : k.takesNoList d (.call c op) = true) : ∀ fnc arg, op = .ktCreate fnc arg → t.pgdir = d →
      fnc = 0 ∨ ∀ s, (k.world.psl s).state ≠ .unused := by
  rintro fnc arg rfl rfl
  obtain ⟨-, -, hd, -⟩ := world_thread_eq_some.mp ht
  simp only [takesNoList, hcpu, hd, ne_eq, not_true_eq_false, decide_false, Bool.false_or,
    Bool.or_eq_true, decide_eq_true_eq] at h
  refine h.imp id fun hno s hs => ?_
  have := List.find?_eq_none.mp hno s (List.mem_finRange s)
  simp [show (k.psl s).state = .unused from hs] at this

theorem Once.next {held : Prop} (h : Kept k) (ho : k.world.Once d held)
    (hx : k.execUnlisted a = true) (hkt : k.takesNoList d a = true) (hn : k.next a = some k') :
    k'.world.Once d (held ∨ k.world.Holds d) := by
  cases h.toSound.refined hn with
  | same _ hw =>
    rw [hw]
    refine ho.same (.of_eq rfl) ?_ fun _ => rfl
    rintro (hh | ⟨q, v, hq, rfl⟩)
    · exact ho.made hh
    · exact h.dated.fresh q v hq
  | call c p t op hcpu ht hl hstep =>
    exact ho.step h.slots h.dated ht hl (execUnlisted_world hcpu ht hx)
      (takesNoList_world hcpu ht hkt) hstep

/-- **No page table is leaked, without stack lists.** If no process on
directory `d` takes a stack list, then once an entry had `d` and none has
it any more, `freevm` was called on it exactly once. -/
theorem freed_once {tr : List (Kernel ncpu × Act ncpu)} (h0 : Boot k₀) (hr : Run next k₀ tr k)
    (hok : Meets (fun k a => k.execUnlisted a = true ∧ k.takesNoList d a = true) tr)
    (hheld : ∃ e ∈ tr, e.1.Uses d) (hgone : ¬ k.Uses d) : k.vm.freed.count d = 1 := by
  have h : Kept k ∧ k.world.Once d (∃ e ∈ tr, e.1.Uses d) := by
    refine Run.history (I := fun tr k => Kept k ∧ k.world.Once d (∃ e ∈ tr, e.1.Uses d))
      ⟨kept_boot h0, ?_⟩ ?_ hr hok
    · refine ⟨?_, ?_, .inr ⟨?_, ?_, ?_⟩⟩
      · simp
      · intro p t ht _
        obtain ⟨-, -, -, -, hl, -⟩ := world_thread_eq_some.mp ht
        rw [← hl, thread_boot h0 ht]
        exact h0.initPsl
      · intro p q t u ht hu _ _
        exact (thread_boot h0 ht).trans (thread_boot h0 hu).symm
      · intro _
        rw [show k₀.world.mem.freed = [] from h0.freed]
        exact List.not_mem_nil
      · simp
    · rintro tr k a k' - ⟨hk, ho⟩ ⟨hx, hkt⟩ hn
      have hh : (∃ e ∈ tr ++ [(k, a)], e.1.Uses d)
          ↔ (∃ e ∈ tr, e.1.Uses d) ∨ k.world.Holds d := by
        rw [← uses_iff hk.clean]
        simp [or_and_right, exists_or]
      rw [hh]
      exact ⟨hk.step hn, Once.next hk ho hx hkt hn⟩
  have hnone : ¬ k.world.Holds d := fun hh => hgone ((uses_iff h.1.clean).mpr hh)
  rcases h.2.account with ⟨p, t, ht, hd, -⟩ | ⟨-, -, hcount⟩
  · exact absurd ⟨p, t, ht, hd⟩ hnone
  · exact hcount hheld hnone

theorem freed_once_childReaped :
    (Meets (fun k a => k.execUnlisted a = true ∧ k.takesNoList 2 a = true) childReaped.1 ∧
      (∃ e ∈ childReaped.1, e.1.Uses 2) ∧ ¬ childReaped.2.Uses 2) ∧
    childReaped.2.vm.freed.count 2 = 1 := by
  have hr : Run next processMachine childReaped.1 childReaped.2 := run_get _
  have h : Meets (fun k a => k.execUnlisted a = true ∧ k.takesNoList 2 a = true) childReaped.1 ∧
      (∃ e ∈ childReaped.1, e.1.Uses 2) ∧ ¬ childReaped.2.Uses 2 := by
    decide +kernel
  exact ⟨h, freed_once boot_processMachine hr h.1 h.2.1 h.2.2⟩

/-- `initproc` forks a child. The child starts a thread, which exits; it
joins the thread and exits; `initproc` waits for it. -/
def threadedChildReaped : List (Kernel 1 × Act 1) × Kernel 1 :=
  (follow next processMachine
    [.schedule 0 0, .call 0 (.exec onePage), .call 0 .fork, .call 0 .yield,
      .schedule 0 1, .call 0 (.ktCreate pgsize 0), .call 0 .yield, .schedule 0 2, .call 0 .exit,
      .schedule 0 1, .call 0 .ktJoin, .call 0 .exit, .schedule 0 0, .call 0 .wait]).get
    (by decide +kernel)

/-- Everybody on directory 2 exited and was reaped, and it was not freed. -/
theorem directory_leaked : Boot processMachine ∧
    Run next processMachine threadedChildReaped.1 threadedChildReaped.2 ∧
    (∃ e ∈ threadedChildReaped.1, e.1.Uses 2) ∧ ¬ threadedChildReaped.2.Uses 2 ∧
    2 ∉ threadedChildReaped.2.vm.freed := by
  refine ⟨boot_processMachine, run_get _, ?_⟩
  decide +kernel

end Kernel

end Xv6.Kern
