/-
Xv6.Kern.SchedTheorems — scheduling states, CPUs and semaphore queues
stay in step, along every run of the kernel.

`SchedInv` is the invariant. A process is `RUNNING` exactly while one CPU
runs it, it is `SEM_SLEEPING` exactly while it sits inside `sem_wait`, and
a queue stores only processes that sleep in `sem_wait` on ITS semaphore,
each once. The last point is what keeps a pointer in a queue from going
stale: only `sem_wakeup` ends `SEM_SLEEPING`, and it takes the pointer out.

A semaphore that was never initialised has `back = 0` and its queue is
not well formed, so the invariant also says which semaphores can be
pushed to: those in use, and those a thread has already tested.

Most calls are covered by `Quiet` (`Effects.lean`); the cases left are a
process leaving or getting a CPU and the semaphore functions.
-/
import Xv6.Kern.Effects

namespace Xv6.Kern

open Xv6.Lib Xv6.Mem

variable {ncpu : Nat} {c : Fin ncpu} {k k' : Kernel ncpu} {p : ProcIdx} {i : SemIdx}

namespace Kernel

/-- Scheduling states, CPUs and semaphore queues agree. -/
structure SchedInv (k : Kernel ncpu) : Prop where
  onCpu : ∀ c p, k.cpu c = some p → (k.proc p).state = .running
  running : ∀ p, (k.proc p).state = .running → ∃ c, k.cpu c = some p
  oneCpu : ∀ c c' p, k.cpu c = some p → k.cpu c' = some p → c = c'
  sleeper : ∀ p, (k.proc p).state = .semSleeping ↔ ∃ i, k.pc p = .waiting i
  queueWf : ∀ i, (k.sem i).queue.Wf ∨ (k.sem i).queue.count = 0
  usedWf : ∀ i, (k.sem i).state = .used → (k.sem i).queue.Wf
  checkedWf : ∀ p i, k.pc p = .waitChecked i ∨ k.pc p = .signalChecked i →
    (k.sem i).queue.Wf
  queued : ∀ i, ∀ p ∈ (k.sem i).queue.toList, k.pc p = .waiting i
  nodup : ∀ i, (k.sem i).queue.toList.Nodup

theorem schedInv_boot (h : Boot k) : SchedInv k := by
  have hst : ∀ p, (k.proc p).state = .runnable ∨ (k.proc p).state = .unused := by
    intro p
    by_cases hp : p = initproc
    · subst hp
      exact .inl h.init
    · rw [h.rest p hp]
      exact .inr rfl
  have hsem : ∀ i, (k.sem i).queue = Queue.zero := fun i => by rw [h.sem i]
  constructor
  · intro c p hc
    rw [h.cpu c] at hc
    cases hc
  · intro p hp
    rcases hst p with h1 | h1 <;> rw [h1] at hp <;> cases hp
  · intro c c' p hc
    rw [h.cpu c] at hc
    cases hc
  · intro p
    constructor
    · intro hp
      rcases hst p with h1 | h1 <;> rw [h1] at hp <;> cases hp
    · rintro ⟨i, hi⟩
      rw [h.pc p] at hi
      cases hi
  · intro i
    rw [hsem i]
    exact .inr rfl
  · intro i hi
    rw [h.sem i] at hi
    cases hi
  · intro p i hi
    rw [h.pc p] at hi
    rcases hi with hi | hi <;> cases hi
  · intro i p hp
    rw [hsem i] at hp
    cases hp
  · intro i
    rw [hsem i]
    exact List.nodup_nil

/-! ## Quiet changes and switches -/

theorem schedInv_quiet (hi : SchedInv k) (h : Quiet k k') : SchedInv k' := by
  have hrun : ∀ p, (k'.proc p).state = .running ↔ (k.proc p).state = .running := by
    intro p
    rcases h.state p with h1 | ⟨h1, h2⟩
    · rw [h1]
    · exact ⟨fun h3 => absurd h3 h2.1, fun h3 => absurd h3 h1.1⟩
  have hsem : ∀ p, (k'.proc p).state = .semSleeping ↔ (k.proc p).state = .semSleeping := by
    intro p
    rcases h.state p with h1 | ⟨h1, h2⟩
    · rw [h1]
    · exact ⟨fun h3 => absurd h3 h2.2, fun h3 => absurd h3 h1.2⟩
  constructor
  · intro c p hc
    rw [h.cpu] at hc
    exact (hrun p).mpr (hi.onCpu c p hc)
  · intro p hp
    rw [h.cpu]
    exact hi.running p ((hrun p).mp hp)
  · intro c c' p h1 h2
    rw [h.cpu] at h1 h2
    exact hi.oneCpu c c' p h1 h2
  · intro p
    rw [hsem p, h.pc]
    exact hi.sleeper p
  · rw [h.sem]; exact hi.queueWf
  · rw [h.sem]; exact hi.usedWf
  · rw [h.sem, h.pc]; exact hi.checkedWf
  · rw [h.sem, h.pc]; exact hi.queued
  · rw [h.sem]; exact hi.nodup

theorem SchedInv.not_waiting (hi : SchedInv k) (hc : k.cpu c = some p) (i : SemIdx) :
    k.pc p ≠ .waiting i := by
  intro hw
  have h1 := hi.onCpu c p hc
  rw [(hi.sleeper p).mpr ⟨i, hw⟩] at h1
  cases h1

theorem SchedInv.cpus_schedOut {m : Kernel ncpu} (hi : SchedInv k) (hc : k.cpu c = some p)
    {s : ProcState} (hst : s ≠ .running) (hcpu : m.cpu = (k.schedOut c p s).cpu)
    (hproc : ∀ q, (m.proc q).state = if q = p then s else (k.proc q).state) :
    (∀ c' q, m.cpu c' = some q → (m.proc q).state = .running) ∧
    (∀ q, (m.proc q).state = .running → ∃ c', m.cpu c' = some q) ∧
    (∀ c₁ c₂ q, m.cpu c₁ = some q → m.cpu c₂ = some q → c₁ = c₂) := by
  have hout : ∀ c' q, m.cpu c' = some q → k.cpu c' = some q ∧ c' ≠ c := by
    intro c' q h
    rw [hcpu, schedOut_cpu] at h
    split at h
    · cases h
    · next hne => exact ⟨h, hne⟩
  refine ⟨?_, ?_, ?_⟩
  · intro c' q hq
    obtain ⟨h1, hne⟩ := hout c' q hq
    have hqp : q ≠ p := by
      intro h
      subst h
      exact hne (hi.oneCpu c' c q h1 hc)
    rw [hproc, if_neg hqp]
    exact hi.onCpu c' q h1
  · intro q hq
    rw [hproc] at hq
    split at hq
    · exact absurd hq hst
    rename_i hqp
    obtain ⟨c', hc'⟩ := hi.running q hq
    have hne : c' ≠ c := by
      intro h
      subst h
      rw [hc] at hc'
      exact hqp (Option.some.inj hc').symm
    exact ⟨c', by rw [hcpu, schedOut_cpu, if_neg hne, hc']⟩
  · intro c₁ c₂ q h1 h2
    exact hi.oneCpu c₁ c₂ q (hout c₁ q h1).1 (hout c₂ q h2).1

theorem schedInv_schedOut (hi : SchedInv k) (hc : k.cpu c = some p) {st : ProcState}
    (hst : st.idle) : SchedInv (k.schedOut c p st) := by
  obtain ⟨h1, h2, h3⟩ := hi.cpus_schedOut hc hst.1 rfl (fun q => schedOut_state k c p q st)
  refine ⟨h1, h2, h3, ?_, hi.queueWf, hi.usedWf, hi.checkedWf, hi.queued, hi.nodup⟩
  intro q
  rw [schedOut_state]
  split
  · next hqp =>
    subst hqp
    refine ⟨fun h => absurd h hst.2, ?_⟩
    rintro ⟨i, hw⟩
    exact absurd hw (hi.not_waiting hc i)
  · exact hi.sleeper q

theorem schedInv_scheduler (hi : SchedInv k) (hc : k.cpu c = none)
    (hp : (k.proc p).state = .runnable) (h : k.scheduler c p = .ok k') : SchedInv k' := by
  unfold scheduler at h
  split at h
  · cases h
  · cases h
    have hst : ∀ q,
        ((k.setProc p fun q => { q with state := .running, chan := .null }).proc q).state
        = if q = p then .running else (k.proc q).state := by
      intro q
      rw [setProc_proc]
      split <;> rfl
    -- no CPU ran `p` so far, since it was not `RUNNING`
    have hfree : ∀ c', k.cpu c' ≠ some p := by
      intro c' h'
      have := hi.onCpu c' p h'
      rw [hp] at this
      cases this
    refine ⟨?_, ?_, ?_, ?_, hi.queueWf, hi.usedWf, hi.checkedWf, hi.queued, hi.nodup⟩
    · intro c' q hq
      rw [hst]
      simp only [Function.update_apply] at hq
      split at hq
      · cases hq
        rw [if_pos rfl]
      · split
        · rfl
        · exact hi.onCpu c' q hq
    · intro q hq
      rw [hst] at hq
      by_cases hqp : q = p
      · subst hqp
        exact ⟨c, by simp⟩
      · rw [if_neg hqp] at hq
        obtain ⟨c', hc'⟩ := hi.running q hq
        have hne : c' ≠ c := by
          intro h'
          subst h'
          rw [hc] at hc'
          cases hc'
        exact ⟨c', by simp [hne, hc']⟩
    · intro c₁ c₂ q h1 h2
      simp only [Function.update_apply] at h1 h2
      split at h1 <;> split at h2
      · next e1 e2 => rw [e1, e2]
      · cases h1
        exact absurd h2 (hfree c₂)
      · cases h2
        exact absurd h1 (hfree c₁)
      · exact hi.oneCpu c₁ c₂ q h1 h2
    · intro q
      rw [hst]
      split
      · next hqp =>
        subst hqp
        constructor
        · intro h
          cases h
        · intro hw
          rw [(hi.sleeper q).mpr hw] at hp
          cases hp
      · exact hi.sleeper q

/-! ## Semaphore functions -/

section
variable (hi : SchedInv k)
include hi

theorem schedInv_setPc (hc : k.cpu c = some p) {pc : Pc} (hw : ∀ i, pc ≠ .waiting i)
    (hwf : ∀ i, pc = .waitChecked i ∨ pc = .signalChecked i → (k.sem i).queue.Wf) :
    SchedInv (k.setPc p pc) := by
  refine ⟨hi.onCpu, hi.running, hi.oneCpu, ?_, hi.queueWf, hi.usedWf, ?_, ?_, hi.nodup⟩
  · intro q
    rw [setPc_pc]
    split
    · next hqp =>
      subst hqp
      simp only [setPc_proc, hi.onCpu c q hc]
      constructor
      · intro h
        cases h
      · rintro ⟨i, h⟩
        exact absurd h (hw i)
    · exact hi.sleeper q
  · intro q i hq
    rw [setPc_pc] at hq
    split at hq
    · exact hwf i hq
    · exact hi.checkedWf q i hq
  · intro i q hq
    rw [setPc_pc, if_neg]
    · exact hi.queued i q hq
    · intro hqp
      subst hqp
      exact hi.not_waiting hc i (hi.queued i q hq)

theorem schedInv_sameQueues {f : Semaphore → Semaphore} (hq : (f (k.sem i)).queue = (k.sem i).queue)
    (hs : (f (k.sem i)).state = .used → (k.sem i).state = .used) : SchedInv (k.setSem i f) := by
  have hq' : ∀ j, ((k.setSem i f).sem j).queue = (k.sem j).queue := by
    intro j
    rw [setSem_sem]
    split
    · next h => rw [h, hq]
    · rfl
  refine ⟨hi.onCpu, hi.running, hi.oneCpu, hi.sleeper, ?_, ?_, ?_, ?_, ?_⟩
  · intro j
    rw [hq']
    exact hi.queueWf j
  · intro j hj
    rw [hq']
    rw [setSem_sem] at hj
    split at hj
    · next h =>
      rw [h]
      exact hi.usedWf i (hs hj)
    · exact hi.usedWf j hj
  · intro p j
    rw [hq']
    exact hi.checkedWf p j
  · intro j
    rw [hq']
    exact hi.queued j
  · intro j
    rw [hq']
    exact hi.nodup j

theorem schedInv_semSleep (hc : k.cpu c = some p) (hwf : (k.sem i).queue.Wf) :
    SchedInv (k.semSleep c p i) := by
  obtain ⟨h1, h2, h3⟩ := hi.cpus_schedOut hc (s := .semSleeping) (by simp)
    (m := k.semSleep c p i) rfl (fun q => semSleep_state k c p q i)
  have hout : p ∉ (k.sem i).queue.toList := fun h => hi.not_waiting hc i (hi.queued i p h)
  obtain ⟨hmem, hnd⟩ := Queue.pushBack_mem_nodup hwf (hi.nodup i) hout
  have hq : ∀ j, ((k.semSleep c p i).sem j).queue
      = if j = i then (k.sem i).queue.pushBack p else (k.sem j).queue := by
    intro j
    rw [semSleep_sem]
    split <;> rfl
  refine ⟨h1, h2, h3, ?_, ?_, ?_, ?_, ?_, ?_⟩
  · intro q
    rw [semSleep_state, semSleep_pc]
    split
    · simp
    · exact hi.sleeper q
  · intro j
    rw [hq]
    split
    · exact .inl (Queue.wf_pushBack hwf p)
    · exact hi.queueWf j
  · intro j hj
    rw [hq]
    split
    · exact Queue.wf_pushBack hwf p
    rename_i hji
    rw [semSleep_sem, if_neg hji] at hj
    exact hi.usedWf j hj
  · intro q j hpc
    rw [hq]
    split
    · exact Queue.wf_pushBack hwf p
    · rw [semSleep_pc] at hpc
      split at hpc
      · rcases hpc with h | h <;> cases h
      · exact hi.checkedWf q j hpc
  · intro j q hmq
    rw [semSleep_pc]
    rw [hq] at hmq
    -- a process stored before is not `p`, which was running
    have hold : ∀ j', q ∈ (k.sem j').queue.toList → q ≠ p ∧ k.pc q = .waiting j' := by
      intro j' hm
      refine ⟨?_, hi.queued j' q hm⟩
      intro h
      subst h
      exact hi.not_waiting hc j' (hi.queued j' q hm)
    split at hmq
    · next hji =>
      subst hji
      rcases hmem q hmq with hm | hm
      · rw [if_neg (hold j hm).1, (hold j hm).2]
      · rw [if_pos hm]
    · rw [if_neg (hold j hmq).1, (hold j hmq).2]
  · intro j
    rw [hq]
    split
    · exact hnd
    · exact hi.nodup j

theorem schedInv_semWaitEnter (hc : k.cpu c = some p) (hpc : k.pc p = .waitChecked i) :
    SchedInv (k.semWaitEnter c p i) := by
  have hdec := schedInv_sameQueues hi (i := i)
    (f := fun s => { s with count := toI32 (s.count - 1) }) rfl id
  have hwf := hdec.checkedWf p i (.inl hpc)
  unfold semWaitEnter
  simp only
  split
  · exact schedInv_semSleep hdec hc hwf
  · exact schedInv_setPc hdec hc (by simp) (by simp)

theorem schedInv_semWakeup (hwf : (k.sem i).queue.Wf) : SchedInv (k.semWakeup i) := by
  cases hl : (k.sem i).queue.toList with
  | nil =>
    rw [semWakeup_none k i (Queue.popFront_empty hwf hl)]
    exact hi
  | cons w rest =>
    obtain ⟨hp, hwf', hrest⟩ := Queue.popFront_cons hwf hl
    rw [semWakeup_some k i hp]
    have hw : k.pc w = .waiting i := hi.queued i w (by rw [hl]; simp)
    have hws : (k.proc w).state = .semSleeping := (hi.sleeper w).mpr ⟨i, hw⟩
    have hnd := hi.nodup i
    rw [hl, List.nodup_cons] at hnd
    have hq : ∀ j, ((k.setSem i fun s => { s with queue := (k.sem i).queue.popFront.2 }).sem
        j).queue = if j = i then (k.sem i).queue.popFront.2 else (k.sem j).queue := by
      intro j
      rw [setSem_sem]
      split <;> rfl
    have hst := fun q => setState_state
      (k.setSem i fun s => { s with queue := (k.sem i).queue.popFront.2 }) w q .runnable
    refine ⟨?_, ?_, hi.oneCpu, ?_, ?_, ?_, ?_, ?_, ?_⟩
    · intro c q hcq
      have h1 := hi.onCpu c q hcq
      rw [setPc_proc, hst, if_neg]
      · exact h1
      · intro h
        subst h
        rw [hws] at h1
        cases h1
    · intro q hrun
      rw [setPc_proc, hst] at hrun
      split at hrun
      · cases hrun
      · exact hi.running q hrun
    · intro q
      rw [setPc_proc, hst, setPc_pc]
      split
      · simp
      · exact hi.sleeper q
    · intro j
      show Queue.Wf (Semaphore.queue _) ∨ _
      simp only [setPc_sem, setState, setProc_sem, hq]
      split
      · exact .inl hwf'
      · exact hi.queueWf j
    · intro j hj
      simp only [setPc_sem, setState, setProc_sem, hq] at hj ⊢
      split
      · exact hwf'
      rename_i hji
      rw [setSem_sem, if_neg hji] at hj
      exact hi.usedWf j hj
    · intro q j hpc
      simp only [setPc_sem, setState, setProc_sem, hq]
      split
      · exact hwf'
      · rw [setPc_pc] at hpc
        split at hpc
        · rcases hpc with h | h <;> cases h
        · exact hi.checkedWf q j hpc
    · intro j q hmq
      simp only [setPc_sem, setState, setProc_sem, hq] at hmq
      rw [setPc_pc]
      split at hmq
      · next hji =>
        subst hji
        rw [hrest] at hmq
        have hqw : q ≠ w := fun h => hnd.1 (h ▸ hmq)
        rw [if_neg hqw]
        exact hi.queued j q (by rw [hl]; exact List.mem_cons_of_mem _ hmq)
      rename_i hji
      have hjq := hi.queued j q hmq
      rw [if_neg]
      · exact hjq
      · intro h
        subst h
        rw [hw] at hjq
        exact hji (Pc.waiting.inj hjq).symm
    · intro j
      simp only [setPc_sem, setState, setProc_sem, hq]
      split
      · rw [hrest]
        exact hnd.2
      · exact hi.nodup j

theorem schedInv_semSignalEnter (hc : k.cpu c = some p) (hpc : k.pc p = .signalChecked i) :
    SchedInv (k.semSignalEnter p i) := by
  have hinc := schedInv_sameQueues hi (i := i)
    (f := fun s => { s with count := toI32 (s.count + 1) }) rfl id
  have hwf := hinc.checkedWf p i (.inr hpc)
  exact schedInv_semWakeup (schedInv_setPc hinc hc (by simp) (by simp)) hwf

/-- `sem_init` starts an entry afresh; a process that sleeps on its
previous use is forgotten, not woken. -/
theorem schedInv_semInitialize (n : Int) : SchedInv (k.semInitialize n).2 := by
  unfold semInitialize
  split
  · exact hi
  rename_i i _
  have hq : ∀ j, ((k.setSem i fun _ => semInit n).sem j).queue
      = if j = i then Queue.init else (k.sem j).queue := by
    intro j
    rw [setSem_sem]
    split <;> rfl
  refine ⟨hi.onCpu, hi.running, hi.oneCpu, hi.sleeper, ?_, ?_, ?_, ?_, ?_⟩
  · intro j
    rw [hq]
    split
    · exact .inl Queue.wf_init
    · exact hi.queueWf j
  · intro j hj
    rw [hq]
    split
    · exact Queue.wf_init
    rename_i hji
    rw [setSem_sem, if_neg hji] at hj
    exact hi.usedWf j hj
  · intro p j hp
    rw [hq]
    split
    · exact Queue.wf_init
    · exact hi.checkedWf p j hp
  · intro j p hp
    rw [hq] at hp
    split at hp
    · cases hp
    · exact hi.queued j p hp
  · intro j
    rw [hq]
    split
    · exact List.nodup_nil
    · exact hi.nodup j

theorem schedInv_sysSemInitialize (n : Int) : SchedInv (k.sysSemInitialize n).2 := by
  unfold sysSemInitialize
  split
  · exact hi
  · exact schedInv_semInitialize hi n

theorem schedInv_check (hc : k.cpu c = some p) (i : SemIdx) :
    SchedInv (k.semWait p i) ∧ SchedInv (k.semSignal p i) := by
  unfold semWait semSignal
  cases hs : (k.sem i).state with
  | unused => exact ⟨hi, hi⟩
  | used =>
    have hwf := hi.usedWf i hs
    constructor
    · refine schedInv_setPc hi hc (by simp) ?_
      intro j hj
      rcases hj with h | h <;> cases h
      exact hwf
    · refine schedInv_setPc hi hc (by simp) ?_
      intro j hj
      rcases hj with h | h <;> cases h
      exact hwf

end

/-! ## Every action -/

theorem schedInv_perform (hi : SchedInv k) (hc : k.cpu c = some p) {op : Call}
    (h : k.perform c p op = .ok k') : SchedInv k' := by
  cases performed h with
  | quiet _ hq => exact schedInv_quiet hi hq
  | leave _ k1 st hq hst hk =>
    rw [hk]
    exact schedInv_schedOut (schedInv_quiet hi hq) (by rw [hq.cpu, hc]) hst
  | semInitialize n hk =>
    rw [hk]
    exact schedInv_sysSemInitialize hi n.toInt
  | semWait i hk =>
    rw [hk]
    exact (schedInv_check hi hc i).1
  | semSignal i hk =>
    rw [hk]
    exact (schedInv_check hi hc i).2
  | semFree i hk =>
    rw [hk]
    exact schedInv_sameQueues hi rfl (by simp)

/-- **The invariant is kept by every action.** -/
theorem schedInv_step {a : Act ncpu} (hi : SchedInv k) (h : k.next a = some k') : SchedInv k' := by
  cases stepped_of_next h with
  | schedule c p hc hp hs => exact schedInv_scheduler hi hc hp hs
  | wakeup chan hk =>
    rw [hk]
    exact schedInv_quiet hi (wakeup1_still k chan).calm.toQuiet
  | call c p op hc _ hp => exact schedInv_perform hi hc hp
  | waitEnter c p i hc hpc hk =>
    rw [hk]
    exact schedInv_semWaitEnter hi hc hpc
  | signalEnter c p i hc hpc hk =>
    rw [hk]
    exact schedInv_semSignalEnter hi hc hpc

theorem schedInv_run {k₀ : Kernel ncpu} {tr : List (Kernel ncpu × Act ncpu)} (h0 : Boot k₀)
    (h : Run next k₀ tr k) : SchedInv k :=
  h.always (schedInv_boot h0) (fun _ _ _ hi hs => schedInv_step hi hs)

/-! ## Reading the invariant -/

/-- Process `p` is stored in the queue of semaphore `i`, `j` places
behind the front. -/
def Stored (k : Kernel ncpu) (i : SemIdx) (j : Nat) (p : ProcIdx) : Prop :=
  (j : Int) < (k.sem i).queue.count ∧
    (k.sem i).queue.q (((k.sem i).queue.front.toNat + j) % maxq) = some p

theorem SchedInv.getElem?_of_stored (hi : SchedInv k) {j : Nat} (h : Stored k i j p) :
    (k.sem i).queue.toList[j]? = some p := by
  obtain ⟨hj, hq⟩ := h
  rcases hi.queueWf i with hwf | h0
  · have hcell : (k.sem i).queue.cells[j]? = some (some p) := by
      rw [Queue.getElem?_cells hj, hq]
    rw [hwf.stored, List.getElem?_map] at hcell
    simpa using hcell
  · omega

theorem SchedInv.semWakeup_state (hi : SchedInv k)
    (h : ((k.semWakeup i).proc p).state ≠ (k.proc p).state) : (k.proc p).state = .semSleeping := by
  rcases hi.queueWf i with hwf | h0
  · cases hl : (k.sem i).queue.toList with
    | nil =>
      rw [semWakeup_none k i (Queue.popFront_empty hwf hl)] at h
      exact absurd rfl h
    | cons w rest =>
      rw [semWakeup_some k i (Queue.popFront_cons hwf hl).1, setPc_proc, setState_state] at h
      split at h
      · next hpw =>
        rw [hpw]
        exact (hi.sleeper w).mpr ⟨i, hi.queued i w (by rw [hl]; simp)⟩
      · exact absurd rfl h
  · rw [semWakeup_none k i (by simp [Queue.popFront, Queue.isEmpty, h0])] at h
    exact absurd rfl h

/-- **Scheduling states are consistent in every reachable state.** A
process is `RUNNING` exactly when one CPU, and no other, runs it; a
process in a semaphore queue is `SEM_SLEEPING` and is stored at that one
place only; so `sem_wakeup` never touches a process in another state. -/
theorem run_sched_consistent {k₀ k : Kernel ncpu} {tr : List (Kernel ncpu × Act ncpu)}
    (h0 : Boot k₀) (h : Run next k₀ tr k) :
    (∀ p, (k.proc p).state = .running ↔ ∃! c, k.cpu c = some p) ∧
    (∀ i j p, Stored k i j p → (k.proc p).state = .semSleeping ∧
      ∀ i' j', Stored k i' j' p → i' = i ∧ j' = j) ∧
    (∀ i p, ((k.semWakeup i).proc p).state ≠ (k.proc p).state →
      (k.proc p).state = .semSleeping) := by
  have hi := schedInv_run h0 h
  refine ⟨?_, ?_, fun i p => hi.semWakeup_state⟩
  · intro p
    constructor
    · intro hr
      obtain ⟨c, hc⟩ := hi.running p hr
      exact ⟨c, hc, fun c' hc' => hi.oneCpu c' c p hc' hc⟩
    · rintro ⟨c, hc, -⟩
      exact hi.onCpu c p hc
  · intro i j p hs
    have hat := hi.getElem?_of_stored hs
    have hw := hi.queued i p (List.mem_of_getElem? hat)
    refine ⟨(hi.sleeper p).mpr ⟨i, hw⟩, ?_⟩
    intro i' j' hs'
    have hat' := hi.getElem?_of_stored hs'
    have hw' := hi.queued i' p (List.mem_of_getElem? hat')
    rw [hw] at hw'
    obtain rfl := Pc.waiting.inj hw'
    have hlt := (List.getElem?_eq_some_iff.mp hat).1
    exact ⟨rfl, ((List.getElem?_inj hlt (hi.nodup i)).mp (hat.trans hat'.symm)).symm⟩

/-- Two CPUs and as many pages as booting takes. -/
def smallMachine : Kernel 2 := (machine 2 68).get (by decide +kernel)

theorem boot_smallMachine : Boot smallMachine := boot_machine (Option.some_get _).symm

theorem smallMachine_runs : (follow next smallMachine [.schedule 0 0]).isSome := by decide +kernel

/-- One CPU and enough memory for eight threads. -/
def threadMachine : Kernel 1 := (machine 1 100).get (by decide +kernel)

theorem boot_threadMachine : Boot threadMachine := boot_machine (Option.some_get _).symm

theorem userinit_threadMachine :
    (cleared 1 (Vm.kinit (firstPages 100))).userinit [] 0 = .ok threadMachine :=
  eq_ok_of_toOption (Option.some_get _).symm

/-- A run in which `initproc` sleeps on a semaphore with count 0. -/
def initSleeps : List (Kernel 2 × Act 2) × Kernel 2 :=
  (follow next smallMachine
    [.schedule 0 0, .call 0 (.semInitialize 0), .call 0 (.semWait 0), .enter 0]).get
    (by decide +kernel)

theorem run_sched_consistent_initSleeps : Stored initSleeps.2 0 0 0 ∧
    (initSleeps.2.proc 0).state = .semSleeping ∧
    ∀ i j, Stored initSleeps.2 i j 0 → i = 0 ∧ j = 0 := by
  have hr : Run next smallMachine initSleeps.1 initSleeps.2 := run_get _
  have hs : Stored initSleeps.2 0 0 0 := by
    constructor <;> decide +kernel
  obtain ⟨-, hq, -⟩ := run_sched_consistent boot_smallMachine hr
  exact ⟨hs, hq 0 0 0 hs⟩

end Kernel

end Xv6.Kern
