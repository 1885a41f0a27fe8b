/-
Xv6.Kern.TidTheorems — when the threads of a process have different tids.

`clone` gives a thread the pid of its creator and a tid one above the
creator's own, so a tid is the depth of the thread in the tree of
creations: two threads of one creator have the same one.

`ids_unique` is about runs from `userinit` with fewer than 2^31 pids
issued (so that `nextpid` does not wrap). If `KT_Create` is only called
while no entry of the caller's process has the next tid, no two entries
ever have the same pid and tid; and that condition is exactly what makes
the tid `KT_Create` returns name one thread.
-/
import Xv6.Kern.Roster

namespace Xv6.Kern

open Xv6.Lib Xv6.Mem Function

variable {ncpu : Nat}
  {root : InodeIdx} {np : ProcIdx} {freelist : List Page} {initcode : List UInt8}
  {e : Entry} {k k' : Kernel ncpu} {n : Nat} {p : ProcIdx}

/-- Neither `UNUSED` nor `EMBRYO`. -/
def Entry.Present (e : Entry) : Prop := e.state ≠ .unused ∧ e.state ≠ .embryo
  deriving Decidable

theorem Entry.present_iff_life (e : Entry) :
    e.Present ↔ e.state.life = some .live ∨ e.state.life = some .zombie := by
  unfold Present
  cases e.state <;> simp [ProcState.life]

theorem Entry.present_of_life {e' : Entry} (h : e'.state.life = e.state.life) (he : e'.Present) :
    e.Present := by
  rw [present_iff_life] at he ⊢
  rwa [h] at he

namespace Kernel

/-- The action makes `allocproc` take an entry and issue a pid. -/
def issuesPid (k : Kernel ncpu) : Act ncpu → Bool
  | .call _ .fork => k.findUnused.isSome
  | _ => false

/-- The pids issued in a run, the one of `initproc` included. -/
def pidsIssued (tr : List (Kernel ncpu × Act ncpu)) : Nat :=
  1 + tr.countP fun e => e.1.issuesPid e.2

/-- No entry of the process of `p` has the tid `clone` would give. -/
def TidFree (k : Kernel ncpu) (p : ProcIdx) : Prop :=
  ∀ q, (k.roster q).Present → (k.roster q).pid = (k.roster p).pid →
    (k.roster q).tid ≠ toI32 ((k.roster p).tid + 1)
  deriving Decidable

/-- The caller of `KT_Create`. -/
def creator (k : Kernel ncpu) : Act ncpu → Option ProcIdx
  | .call c (.ktCreate _ _) => k.cpu c
  | _ => none

/-- `KT_Create` is called only when that tid is free. -/
def CreatesFree (k : Kernel ncpu) (a : Act ncpu) : Prop :=
  ∀ p ∈ k.creator a, k.TidFree p
  deriving Decidable

/-- No two entries have the same pid and tid. -/
def IdsUnique (k : Kernel ncpu) : Prop :=
  ∀ p q, (k.roster p).Present → (k.roster q).Present → (k.roster p).pid = (k.roster q).pid →
    (k.roster p).tid = (k.roster q).tid → p = q

/-- What holds after at most `n` pids were issued. -/
structure Issued (n : Nat) (k : Kernel ncpu) : Prop where
  next : ∃ m : Nat, m ≤ n ∧ k.nextpid = toI32 (m + 1) ∧
    ∀ p, (k.roster p).Present → (k.roster p).pid ≤ m
  unique : IdsUnique k

/-- An entry that appears with a name nobody has. -/
theorem IdsUnique.update (h : IdsUnique k) (hr : k'.roster = Function.update k.roster p e)
    (he : e.Present → ∀ q, q ≠ p → (k.roster q).Present → (k.roster q).pid = e.pid →
      (k.roster q).tid ≠ e.tid) : IdsUnique k' := by
  intro a b ha hb hpid htid
  rw [hr] at ha hb hpid htid
  by_cases hap : a = p <;> by_cases hbp : b = p
  · rw [hap, hbp]
  · subst hap
    rw [update_self] at ha hpid htid
    rw [update_of_ne hbp] at hb hpid htid
    exact absurd htid.symm (he ha b hbp hb hpid.symm)
  · subst hbp
    rw [update_self] at hb hpid htid
    rw [update_of_ne hap] at ha hpid htid
    exact absurd htid (he hb a hap ha hpid)
  · rw [update_of_ne hap] at ha hpid htid
    rw [update_of_ne hbp] at hb hpid htid
    exact h a b ha hb hpid htid

/-- Entries keep their names, and none appears. -/
theorem IdsUnique.of_kept (h : IdsUnique k)
    (hk : ∀ q, (k'.roster q).pid = (k.roster q).pid ∧ (k'.roster q).tid = (k.roster q).tid ∧
      ((k'.roster q).Present → (k.roster q).Present)) : IdsUnique k' := by
  intro a b ha hb hpid htid
  rw [(hk a).1, (hk b).1] at hpid
  rw [(hk a).2.1, (hk b).2.1] at htid
  exact h a b ((hk a).2.2 ha) ((hk b).2.2 hb) hpid htid

/-! ## One action -/

theorem issuesPid_fork {c : Fin ncpu} (h : (k.roster np).state = .unused) :
    k.issuesPid (.call c .fork) = true := by
  show (entries.find? fun p => decide ((k.proc p).state = .unused)).isSome = true
  rw [List.find?_isSome]
  exact ⟨np, List.mem_finRange np, decide_eq_true h⟩

/-- An action that issues no pid and makes no entry present. -/
theorem Issued.of_kept (h : Issued n k) (hn : k'.nextpid = k.nextpid)
    (hk : ∀ q, (k'.roster q).pid = (k.roster q).pid ∧ (k'.roster q).tid = (k.roster q).tid ∧
      ((k'.roster q).Present → (k.roster q).Present)) : Issued n k' := by
  obtain ⟨m, hm, hnext, hpids⟩ := h.next
  refine ⟨⟨m, hm, hn.trans hnext, fun p hp => ?_⟩, h.unique.of_kept hk⟩
  rw [(hk p).1]
  exact hpids p ((hk p).2.2 hp)

/-- An entry changes, and is present with a pid that was issued only under
a name nobody has. -/
theorem Issued.update (h : Issued n k) (hr : k'.roster = Function.update k.roster p e)
    (hn : k'.nextpid = k.nextpid)
    (hpid : e.Present → ∃ q, (k.roster q).Present ∧ (k.roster q).pid = e.pid)
    (he : e.Present → ∀ q, q ≠ p → (k.roster q).Present → (k.roster q).pid = e.pid →
      (k.roster q).tid ≠ e.tid) : Issued n k' := by
  obtain ⟨m, hm, hnext, hpids⟩ := h.next
  refine ⟨⟨m, hm, hn.trans hnext, fun q hq => ?_⟩, h.unique.update hr he⟩
  rw [hr] at hq ⊢
  by_cases hqp : q = p
  · subst hqp
    rw [update_self] at hq ⊢
    obtain ⟨o, ho, heq⟩ := hpid hq
    rw [← heq]
    exact hpids o ho
  · rw [update_of_ne hqp] at hq ⊢
    exact hpids q hq

/-- `allocproc` gives the entry it takes the next pid, which nobody has. -/
theorem Issued.issue (h : Issued n k) (hb : n + 1 < 2 ^ 31)
    (hr : k'.roster = Function.update k.roster np e) (he : e.pid = k.nextpid)
    (hn : k'.nextpid = toI32 (k.nextpid + 1)) : Issued (n + 1) k' := by
  obtain ⟨m, hm, hnext, hpids⟩ := h.next
  have hpid : e.pid = m + 1 := by
    rw [he, hnext]
    exact toI32_of_range (by omega) (by omega)
  refine ⟨⟨m + 1, by omega, ?_, fun q hq => ?_⟩, h.unique.update hr fun _ q _ hq heq => ?_⟩
  · rw [hn, hnext, toI32_add_toI32]
    norm_cast
  · rw [hr] at hq ⊢
    by_cases hqp : q = np
    · subst hqp
      rw [update_self, hpid]
      norm_cast
    · rw [update_of_ne hqp] at hq ⊢
      have := hpids q hq
      push_cast
      omega
  · have := hpids q hq
    omega

theorem Issued.step {a : Act ncpu} (h : Issued n k) (hi : SchedInv k) (hok : k.CreatesFree a)
    (hn : k.next a = some k') (hb : n + (if k.issuesPid a then 1 else 0) < 2 ^ 31) :
    Issued (n + if k.issuesPid a then 1 else 0) k' := by
  -- Actions that issue no pid are proved for `n`.
  have hmono : Issued n k' → Issued (n + if k.issuesPid a then 1 else 0) k' := by
    rintro ⟨⟨m, hm, hnext⟩, hunique⟩
    exact ⟨⟨m, by omega, hnext⟩, hunique⟩
  cases recorded hi hn with
  | kept a hk =>
    exact hmono (h.of_kept hk.nextpid fun q =>
      ⟨(hk.entry q).pid, (hk.entry q).tid, Entry.present_of_life (hk.entry q).life⟩)
  | kill c pid hk =>
    subst hk
    refine hmono (h.of_kept (kill_nextpid k pid) fun q => ?_)
    obtain ⟨hpid, htid, -, -, hlife, -⟩ := kill_entry k pid q
    exact ⟨hpid, htid, Entry.present_of_life hlife⟩
  | exit c p k₁ hcpu _ hw hk =>
    obtain ⟨l, hl, hnl, -⟩ := exitFinish_left k₁ c p
    refine hmono (h.of_kept ?_ fun q => ?_)
    · rw [hk, hl]
      exact hnl.trans hw.nextpid
    · obtain ⟨hpid, htid, -, hlife⟩ := exitFinish_entry hw c p q
      rw [hk]
      refine ⟨hpid, htid, fun hq => ?_⟩
      split at hlife
      · next hqp =>
        rw [hqp, Entry.present_iff_life]
        left
        rw [show (k.roster p).state = .running from hi.onCpu c p hcpu]
        rfl
      · exact Entry.present_of_life hlife hq
  | reap c p z op _ _ _ hr hnext =>
    exact hmono (h.update hr hnext (fun hp => absurd rfl hp.1) (fun hp => absurd rfl hp.1))
  | forkFailed c np hu hr hnext | fork c p np _ hu hr hnext =>
    simp only [issuesPid_fork hu, if_true] at hb ⊢
    exact h.issue hb hr rfl hnext
  | spawn c p nt fnc arg st hcpu hu hst hr hnext =>
    have hrun : (k.roster p).state = .running := hi.onCpu c p hcpu
    refine hmono (h.update hr hnext (fun _ => ⟨p, ?_, rfl⟩) fun _ q _ hq hpid => ?_)
    · rw [Entry.Present, hrun]
      simp
    · exact hok p hcpu q hq hpid

/-! ## Runs -/

theorem issued_userinit (h : (cleared ncpu (Vm.kinit freelist)).userinit initcode root = .ok k) :
    Issued 1 k := by
  have hboot := boot_userinit h
  obtain ⟨hroster, hnext⟩ := userinit_roster h
  have hinit : ∀ p, (k.roster p).Present → p = initproc := by
    intro p hp
    by_contra hne
    exact hp.1 (congrArg Proc.state (hboot.rest p hne))
  refine ⟨⟨1, Nat.le_refl 1, hnext, fun p hp => ?_⟩, fun p q hp hq _ _ => ?_⟩
  · rw [hinit p hp, hroster]
    exact Int.le_refl 1
  · rw [hinit p hp, hinit q hq]

theorem pidsIssued_snoc (tr : List (Kernel ncpu × Act ncpu)) (k : Kernel ncpu) (a : Act ncpu) :
    pidsIssued (tr ++ [(k, a)]) = pidsIssued tr + if k.issuesPid a then 1 else 0 := by
  simp [pidsIssued, List.countP_append, List.countP_singleton, Nat.add_assoc]

theorem issued_run {k₀ : Kernel ncpu} {tr : List (Kernel ncpu × Act ncpu)}
    (h0 : (cleared ncpu (Vm.kinit freelist)).userinit initcode root = .ok k₀)
    (hr : Run next k₀ tr k) (hb : pidsIssued tr < 2 ^ 31) (hok : Meets CreatesFree tr) :
    Issued (pidsIssued tr) k := by
  induction hr with
  | nil => exact issued_userinit h0
  | snoc hr hn ih =>
    rw [pidsIssued_snoc] at hb ⊢
    obtain ⟨hok, ha⟩ := (meets_snoc _ _ _ _).mp hok
    exact (ih (by omega) hok).step (schedInv_run (boot_userinit h0) hr) ha hn hb

/-- The tid `KT_Create` returns names one thread of the caller's process
exactly if nobody in it had that tid. -/
theorem ktCreate_names {fnc arg : Nat} {t : Int} (hp : (k.roster p).state = .running)
    (h : k.ktCreate p fnc arg = .ok (t, k')) (ht : t ≠ -1) :
    (∃! q, (k'.roster q).Present ∧ (k'.roster q).pid = (k.roster p).pid ∧
      (k'.roster q).tid = t) ↔ k.TidFree p := by
  cases ktCreate_spawned (by rw [hp]; simp) h with
  | none _ => exact absurd rfl ht
  | embryo nt _ _ _ => exact absurd rfl ht
  | thread nt hu hr _ =>
    have hother : ∀ q, (k.roster q).Present → q ≠ nt := by
      rintro q hq rfl
      exact hq.1 hu
    have hnew : (k'.roster nt).Present ∧ (k'.roster nt).pid = (k.roster p).pid ∧
        (k'.roster nt).tid = toI32 ((k.roster p).tid + 1) := by
      rw [hr, update_self]
      simp [Entry.Present]
    constructor
    · rintro ⟨o, -, huniq⟩ q hq hpid htid
      have hqnt := hother q hq
      have hq' : (k'.roster q) = k.roster q := by rw [hr, update_of_ne hqnt]
      refine hqnt ((huniq q ?_).trans (huniq nt hnew).symm)
      simp only [hq']
      exact ⟨hq, hpid, htid⟩
    · intro hfree
      refine ⟨nt, hnew, ?_⟩
      rintro q ⟨hq, hpid, htid⟩
      by_contra hqnt
      rw [hr, update_of_ne hqnt] at hq hpid htid
      exact hfree q hq hpid htid

/-- **Thread identifiers**: in every run from `userinit` that issues fewer
than 2^31 pids and in which `KT_Create` is only called while no entry of
the caller's process has the next tid, no two entries that are neither
`UNUSED` nor `EMBRYO` have the same pid and tid. From such a state, the tid
a `KT_Create` returns names one thread of the process if and only if the
condition is met. -/
theorem ids_unique {freelist : List Page} {k₀ k : Kernel ncpu} {initcode : List UInt8}
    {root : InodeIdx} {tr : List (Kernel ncpu × Act ncpu)}
    (h0 : (cleared ncpu (Vm.kinit freelist)).userinit initcode root = .ok k₀)
    (hr : Run next k₀ tr k) (hb : pidsIssued tr < 2 ^ 31) (hok : Meets CreatesFree tr) :
    (∀ p q, (k.proc p).state ≠ .unused → (k.proc p).state ≠ .embryo →
      (k.proc q).state ≠ .unused → (k.proc q).state ≠ .embryo →
      (k.proc p).pid = (k.proc q).pid → (k.proc p).tid = (k.proc q).tid → p = q) ∧
    ∀ c p fnc arg t k', k.cpu c = some p → k.ktCreate p fnc arg = .ok (t, k') → t ≠ -1 →
      ((∃! q, (k'.roster q).Present ∧ (k'.roster q).pid = (k.roster p).pid ∧
        (k'.roster q).tid = t) ↔ k.TidFree p) := by
  have h := (issued_run h0 hr hb hok).unique
  refine ⟨fun p q h1 h2 h3 h4 => h p q ⟨h1, h2⟩ ⟨h3, h4⟩, ?_⟩
  intro c p fnc arg t k' hcpu hk ht
  exact ktCreate_names ((schedInv_run (boot_userinit h0) hr).onCpu c p hcpu) hk ht

/-- `initproc` creates a thread, which creates another. -/
def threadChain : List (Kernel 1 × Act 1) × Kernel 1 :=
  (follow next threadMachine [.schedule 0 0, .call 0 (.ktCreate pgsize 0), .call 0 .yield,
    .schedule 0 1, .call 0 (.ktCreate pgsize 0)]).get (by decide +kernel)

theorem ids_unique_threadChain :
    (threadChain.2.proc 0).tid = 0 ∧ (threadChain.2.proc 1).tid = 1 ∧
    (threadChain.2.proc 2).tid = 2 ∧
    ∀ p q, (threadChain.2.proc p).state ≠ .unused → (threadChain.2.proc p).state ≠ .embryo →
      (threadChain.2.proc q).state ≠ .unused → (threadChain.2.proc q).state ≠ .embryo →
      (threadChain.2.proc p).pid = (threadChain.2.proc q).pid →
      (threadChain.2.proc p).tid = (threadChain.2.proc q).tid → p = q :=
  ⟨by decide +kernel, by decide +kernel, by decide +kernel,
    (ids_unique userinit_threadMachine (run_get _) (by decide +kernel)
      (by decide +kernel)).1⟩

/-- `initproc` creates two threads. -/
def siblings : List (Kernel 1 × Act 1) × Kernel 1 :=
  (follow next threadMachine
    [.schedule 0 0, .call 0 (.ktCreate pgsize 0), .call 0 (.ktCreate pgsize 0)]).get
    (by decide +kernel)

/-- Both have pid 1 and tid 1. -/
theorem tids_equal :
    (cleared 1 (Vm.kinit (firstPages 100))).userinit [] 0 = .ok threadMachine ∧
    Run next threadMachine siblings.1 siblings.2 ∧ pidsIssued siblings.1 = 1 ∧
    (siblings.2.proc 1).state = .runnable ∧ (siblings.2.proc 2).state = .runnable ∧
    (siblings.2.proc 1).pid = (siblings.2.proc 2).pid ∧
    (siblings.2.proc 1).tid = (siblings.2.proc 2).tid := by
  refine ⟨userinit_threadMachine, run_get _, ?_, ?_, ?_, ?_, ?_⟩ <;>
    decide +kernel

end Kernel

end Xv6.Kern
