/-
Xv6.Kern.SemCalls — `sys_sem_wait`, `sys_sem_signal` and `sys_sem_free`
of `sysproc.c`, with the index as the user passes it.

`semtable.sem` has `KT_TABLESIZE` entries, but the three range checks
compare with `NPROC`, which is twice as large, and two of them let
`NPROC` itself through. An access outside the array is an error here: the
source reads, locks and writes whatever lies behind the table.

* `handedOut_iff`: in every reachable state the entries in use are the
  ones `sem_initialize` handed out and nobody freed since.
* `sem_calls_own`: a call keeps to its own semaphore EXACTLY WHEN its
  index is refused or inside the table and, for `sys_sem_free`, which
  never looks at the state, names a semaphore in use.
-/
import Xv6.Kern.SemaphoreTheorems

namespace Xv6.Kern

open Xv6.Lib

variable {ncpu : Nat} {a : Act ncpu} {index : Int} {k₀ : Kernel ncpu} {call : SemCall}
  {tr : List (Kernel ncpu × Act ncpu)}

/-- `&semtable.sem[index]`. -/
def semEntry (index : Int) : Except String SemIdx :=
  if h : 0 ≤ index ∧ index.toNat < ktTablesize then .ok ⟨index.toNat, h.2⟩
  else .error "semtable.sem: no such entry"

/-- The three calls that take the index of a semaphore. -/
inductive SemCall where
  | wait | signal | free
  deriving DecidableEq, Repr

/-- The range check of a call. -/
def SemCall.refuses : SemCall → Int → Prop
  | wait, index => index < 0 ∨ index ≥ nproc
  | signal, index => index < 0 ∨ index > nproc
  | free, index => index < 0 ∨ index > nproc

instance (call : SemCall) (index : Int) : Decidable (call.refuses index) :=
  match call with
  | .wait => inferInstanceAs (Decidable (index < 0 ∨ index ≥ nproc))
  | .signal => inferInstanceAs (Decidable (index < 0 ∨ index > nproc))
  | .free => inferInstanceAs (Decidable (index < 0 ∨ index > nproc))

namespace Kernel

/-- `sys_sem_wait` by process `p` up to the lock: what it returns, or
`none` if it goes on to take the lock. -/
def sysSemWait (k : Kernel ncpu) (p : ProcIdx) (index : Int) :
    Except String (Option Int × Kernel ncpu) :=
  if SemCall.wait.refuses index then .ok (some (-1), k)
  else
    (semEntry index).map fun i =>
      (if (k.sem i).state = .unused then some (-1) else none, k.semWait p i)

/-- `sys_sem_signal` up to the lock. -/
def sysSemSignal (k : Kernel ncpu) (p : ProcIdx) (index : Int) :
    Except String (Option Int × Kernel ncpu) :=
  if SemCall.signal.refuses index then .ok (some (-1), k)
  else
    (semEntry index).map fun i =>
      (if (k.sem i).state = .unused then some (-1) else none, k.semSignal p i)

/-- `sys_sem_free`; whatever the entry holds, it returns 0. -/
def sysSemFree (k : Kernel ncpu) (index : Int) : Except String (Option Int × Kernel ncpu) :=
  if SemCall.free.refuses index then .ok (some (-1), k)
  else (semEntry index).map fun i => (some 0, k.semFree i)

/-- A semaphore call with the index of the user. -/
def semCall (k : Kernel ncpu) (p : ProcIdx) : SemCall → Int →
    Except String (Option Int × Kernel ncpu)
  | .wait, index => k.sysSemWait p index
  | .signal, index => k.sysSemSignal p index
  | .free, index => k.sysSemFree index

end Kernel

/-- The call on an entry of the table, as an action of the machine. -/
def SemCall.op : SemCall → SemIdx → Call
  | wait, i => .semWait i
  | signal, i => .semSignal i
  | free, i => .semFree i

namespace Kernel

variable {i : SemIdx} {c : Fin ncpu} {p : ProcIdx} {k k' : Kernel ncpu}

theorem semEntry_val (i : SemIdx) : semEntry i.val = .ok i := by
  unfold semEntry
  rw [dif_pos ⟨by omega, by simp⟩]
  congr

theorem semEntry_outside (h : (ktTablesize : Int) ≤ index) :
    semEntry index = .error "semtable.sem: no such entry" := by
  unfold semEntry
  rw [dif_neg]
  rintro ⟨h0, hlt⟩
  omega

theorem not_refuses (call : SemCall) (i : SemIdx) : ¬ call.refuses i.val := by
  have h : i.val < 64 := i.isLt
  cases call <;> simp only [SemCall.refuses, nproc] <;> omega

theorem semCall_refused (h : call.refuses index) (k : Kernel ncpu) (p : ProcIdx) :
    k.semCall p call index = .ok (some (-1), k) := by
  cases call with
  | wait => exact if_pos h
  | signal => exact if_pos h
  | free => exact if_pos h

theorem semCall_outside (h : ¬ call.refuses index) (hlen : (ktTablesize : Int) ≤ index)
    (k : Kernel ncpu) (p : ProcIdx) :
    k.semCall p call index = .error "semtable.sem: no such entry" := by
  cases call with
  | wait => simp only [semCall, sysSemWait, if_neg h, semEntry_outside hlen, Except.map]
  | signal => simp only [semCall, sysSemSignal, if_neg h, semEntry_outside hlen, Except.map]
  | free => simp only [semCall, sysSemFree, if_neg h, semEntry_outside hlen, Except.map]

/-- What a call on an entry of the table returns before it takes the lock. -/
def semAnswer (k : Kernel ncpu) (i : SemIdx) : SemCall → Option Int
  | .free => some 0
  | _ => if (k.sem i).state = .unused then some (-1) else none

/-- **On an entry of the table the system call is the machine's call.** -/
theorem semCall_entry (k : Kernel ncpu) (c : Fin ncpu) (p : ProcIdx) (call : SemCall)
    (i : SemIdx) : ∃ k', k.semCall p call i.val = .ok (k.semAnswer i call, k') ∧
      k.perform c p (call.op i) = .ok k' := by
  have h := not_refuses call i
  cases call with
  | wait =>
    refine ⟨k.semWait p i, ?_, rfl⟩
    simp only [semCall, sysSemWait, if_neg h, semEntry_val, Except.map, semAnswer]
  | signal =>
    refine ⟨k.semSignal p i, ?_, rfl⟩
    simp only [semCall, sysSemSignal, if_neg h, semEntry_val, Except.map, semAnswer]
  | free =>
    refine ⟨k.semFree i, ?_, rfl⟩
    simp only [semCall, sysSemFree, if_neg h, semEntry_val, Except.map, semAnswer]

/-! ## The life of an entry -/

/-- `sem_initialize` handed out entry `i` and nobody freed it since. -/
def HandedOut (i : SemIdx) (tr : List (Kernel ncpu × Act ncpu)) : Prop :=
  ∃ tr₁ e tr₂, tr = tr₁ ++ e :: tr₂ ∧ Inits i e.1 e.2 ∧ ∀ f ∈ tr₂, ¬ f.2.frees i

theorem not_handedOut_nil (i : SemIdx) :
    ¬ HandedOut i ([] : List (Kernel ncpu × Act ncpu)) := by
  rintro ⟨tr₁, e, tr₂, h, -⟩
  simp at h

theorem handedOut_snoc :
    HandedOut i (tr ++ [(k, a)]) ↔ Inits i k a ∨ (HandedOut i tr ∧ ¬ a.frees i) := by
  constructor
  · rintro ⟨tr₁, e, tr₂, h, hi, hf⟩
    rcases List.eq_nil_or_concat tr₂ with rfl | ⟨tr₃, e', rfl⟩
    · obtain ⟨-, h2⟩ := List.append_inj' h rfl
      cases h2
      exact .inl hi
    · have hcut : tr ++ [(k, a)] = (tr₁ ++ e :: tr₃) ++ [e'] := by simpa using h
      obtain ⟨h1, h2⟩ := List.append_inj' hcut rfl
      cases h2
      refine .inr ⟨⟨tr₁, e, tr₃, h1, hi, fun f hf' => hf f ?_⟩, hf (k, a) ?_⟩
      · simp [hf']
      · simp
  · rintro (hi | ⟨⟨tr₁, e, tr₂, rfl, hi, hf⟩, ha⟩)
    · exact ⟨tr, (k, a), [], rfl, hi, by simp⟩
    · refine ⟨tr₁, e, tr₂ ++ [(k, a)], by simp, hi, ?_⟩
      intro f hf'
      rcases List.mem_append.mp hf' with h | h
      · exact hf f h
      · rw [List.mem_singleton] at h
        subst h
        exact ha

theorem next_sem_state (i : SemIdx) (hi : SchedInv k) (h : k.next a = some k') :
    (k'.sem i).state = .used ↔ Inits i k a ∨ ((k.sem i).state = .used ∧ ¬ a.frees i) := by
  by_cases hn : Inits i k a
  · obtain ⟨n, hn', hf⟩ := hn
    obtain ⟨rfl, -⟩ := next_semInitialize hn' h
    rcases sysSemInitialize_cases k n.toInt i with ⟨-, -, hs⟩ | ⟨hne, -⟩
    · simp only [hs, semInit, true_iff]
      exact .inl ⟨n, hn', hf⟩
    · exact absurd hf hne
  · by_cases hf : a.frees i
    · cases a with
      | call c op =>
        cases op with
        | semFree j =>
          cases hf
          cases stepped_of_next h with
          | call _ p _ _ _ hp =>
            obtain rfl := Except.ok.inj hp
            simp [hn, semFree, setSem, Act.frees, Act.freed]
        | _ => cases hf
      | _ => cases hf
    · rw [(semStep hi hn hf h).state]
      simp [hn, hf]

/-- **The entries in use are those handed out and not freed.** -/
theorem handedOut_iff (h0 : Boot k₀) (h : Run next k₀ tr k) (i : SemIdx) :
    HandedOut i tr ↔ (k.sem i).state = .used := by
  induction h with
  | nil =>
    rw [h0.sem i]
    simp [not_handedOut_nil]
  | snoc hr hs ih =>
    rw [handedOut_snoc, next_sem_state i (schedInv_run h0 hr) hs, ih]

/-! ## What a call may touch -/

/-- From `k` to `k'`, for a process on CPU `c`, only semaphore `i`, the
state of threads that wait or waited on it and the place of process `p`
in the code change. -/
structure OnlySem (i : SemIdx) (c : Fin ncpu) (p : ProcIdx) (k k' : Kernel ncpu) : Prop where
  sem : ∀ j, j ≠ i → k'.sem j = k.sem j
  proc : ∀ q, k'.proc q = { k.proc q with state := (k'.proc q).state }
  waiter : ∀ q, (k'.proc q).state ≠ (k.proc q).state → k.pc q = .waiting i ∨ k'.pc q = .waiting i
  pc : ∀ q, k'.pc q ≠ k.pc q → q = p ∨ k.pc q = .waiting i
  cpu : ∀ c', c' ≠ c → k'.cpu c' = k.cpu c'
  rest : k'.psl = k.psl ∧ k'.nextpid = k.nextpid ∧ k'.vm = k.vm ∧ k'.file = k.file ∧
    k'.pipe = k.pipe ∧ k'.iref = k.iref

namespace OnlySem

theorem refl : OnlySem i c p k k :=
  ⟨fun _ _ => rfl, fun _ => rfl, fun _ h => absurd rfl h, fun _ h => absurd rfl h, fun _ _ => rfl,
    rfl, rfl, rfl, rfl, rfl, rfl⟩

theorem setSem (h : OnlySem i c p k k') (f : Semaphore → Semaphore) :
    OnlySem i c p k (k'.setSem i f) := by
  refine ⟨?_, h.proc, h.waiter, h.pc, h.cpu, h.rest⟩
  intro j hj
  rw [setSem_sem, if_neg hj, h.sem j hj]

theorem setPc (h : OnlySem i c p k k') (hs : k'.proc = k.proc) (pc : Pc) :
    OnlySem i c p k (k'.setPc p pc) := by
  refine ⟨h.sem, h.proc, ?_, ?_, h.cpu, h.rest⟩
  · intro q hq
    rw [setPc_proc, hs] at hq
    exact absurd rfl hq
  · intro q hq
    by_cases hqp : q = p
    · exact .inl hqp
    · rw [setPc_pc, if_neg hqp] at hq
      exact h.pc q hq

end OnlySem

theorem onlySem_perform (h : k.perform c p (call.op i) = .ok k') : OnlySem i c p k k' := by
  cases call with
  | wait =>
    obtain rfl := Except.ok.inj h
    unfold semWait
    split
    · exact .refl
    · exact OnlySem.refl.setPc rfl _
  | signal =>
    obtain rfl := Except.ok.inj h
    unfold semSignal
    split
    · exact .refl
    · exact OnlySem.refl.setPc rfl _
  | free =>
    obtain rfl := Except.ok.inj h
    exact OnlySem.refl.setSem _

theorem onlySem_waitEnter (k : Kernel ncpu) (c : Fin ncpu) (p : ProcIdx) (i : SemIdx) :
    OnlySem i c p k (k.semWaitEnter c p i) := by
  unfold semWaitEnter
  split
  · refine ⟨?_, ?_, ?_, ?_, ?_, by simp [semSleep, schedOut, setState, setProc, setPc, setSem]⟩
    · intro j hj
      rw [semSleep_sem, if_neg hj, setSem_sem, if_neg hj]
    · intro q
      rw [semSleep, schedOut_proc]
      by_cases hq : q = p
      · subst hq
        simp
      · simp [hq]
    · intro q hq
      rw [semSleep_state] at hq
      by_cases hqp : q = p
      · exact .inr (by rw [semSleep_pc, if_pos hqp])
      · rw [if_neg hqp] at hq
        exact absurd rfl hq
    · intro q hq
      by_contra hne
      rw [not_or] at hne
      rw [semSleep_pc, if_neg hne.1] at hq
      exact hq rfl
    · intro c' hc'
      rw [semSleep, schedOut_cpu, if_neg hc']
      rfl
  · exact (OnlySem.refl.setSem _).setPc rfl _

theorem onlySem_signalEnter (hi : SchedInv k) (hpc : k.pc p = .signalChecked i) :
    OnlySem i c p k (k.semSignalEnter p i) := by
  have hwf := hi.checkedWf p i (.inr hpc)
  unfold semSignalEnter
  generalize hm : (k.setSem i fun s => { s with count := toI32 (s.count + 1) }).setPc p .outside = m
  have hq : (m.sem i).queue = (k.sem i).queue := by
    rw [← hm, setPc_sem, setSem_sem, if_pos rfl]
  have h1 : OnlySem i c p k m := by
    rw [← hm]
    exact (OnlySem.refl.setSem _).setPc rfl _
  cases hl : (k.sem i).queue.toList with
  | nil =>
    rw [semWakeup_none m i (by rw [hq]; exact Queue.popFront_empty hwf hl)]
    exact h1
  | cons w rest =>
    have hw : k.pc w = .waiting i := hi.queued i w (by simp [hl])
    rw [semWakeup_some m i (by rw [hq]; exact (Queue.popFront_cons hwf hl).1)]
    refine ⟨?_, ?_, ?_, ?_, ?_, ?_⟩
    · intro j hj
      rw [setPc_sem, setState, setProc_sem, setSem_sem, if_neg hj, h1.sem j hj]
    · intro q
      have hp := h1.proc q
      rw [← hm] at hp ⊢
      by_cases hqw : q = w
      · subst hqw
        simp [setState]
      · simp [setState, setProc_proc, hqw]
    · intro q hs
      by_cases hqw : q = w
      · exact .inl (hqw ▸ hw)
      · rw [setPc_proc, setState_state, if_neg hqw, ← hm] at hs
        exact absurd rfl hs
    · intro q hs
      by_cases hqw : q = w
      · exact .inr (hqw ▸ hw)
      · rw [setPc_pc, if_neg hqw] at hs
        exact h1.pc q hs
    · intro c' hc'
      exact h1.cpu c' hc'
    · exact h1.rest

theorem onlySem_enter (hi : SchedInv k) (hc : k.cpu c = some p)
    (hpc : k.pc p = .waitChecked i ∨ k.pc p = .signalChecked i)
    (h : k.next (.enter c) = some k') : OnlySem i c p k k' := by
  cases stepped_of_next h with
  | waitEnter _ q j hq hpq hk =>
    obtain rfl : p = q := Option.some.inj (hc.symm.trans hq)
    obtain rfl : i = j := by
      rw [hpq] at hpc
      simpa [eq_comm] using hpc
    rw [hk]
    exact onlySem_waitEnter k c p i
  | signalEnter _ q j hq hpq hk =>
    obtain rfl : p = q := Option.some.inj (hc.symm.trans hq)
    obtain rfl : i = j := by
      rw [hpq] at hpc
      simpa [eq_comm] using hpc
    rw [hk]
    exact onlySem_signalEnter hi hpq

/-! ## The calls of a reachable kernel -/

/-- A semaphore call in `k`, reached by `tr`, by process `p` on CPU `c`
keeps to the semaphore its index names: it stays inside the table; an
index that names no semaphore handed out and not yet freed makes it
return -1 and changes nothing; any other call changes that semaphore
only, in its first step and, if it goes on, in its second, which may come
much later. -/
structure OwnSemaphore (tr : List (Kernel ncpu × Act ncpu)) (k : Kernel ncpu) (c : Fin ncpu)
    (p : ProcIdx) (call : SemCall) (index : Int32) : Prop where
  within : ∃ r, k.semCall p call index.toInt = .ok r
  invalid : (∀ i : SemIdx, index.toInt = i.val → ¬ HandedOut i tr) →
    k.semCall p call index.toInt = .ok (some (-1), k)
  valid : ∀ i : SemIdx, index.toInt = i.val → HandedOut i tr →
    ∃ r k', k.semCall p call index.toInt = .ok (r, k') ∧ r ≠ some (-1) ∧ OnlySem i c p k k' ∧
      (r = none → ∀ tr' m m' c', Run next k' tr' m → m.cpu c' = some p → m.pc p = k'.pc p →
        m.next (.enter c') = some m' → OnlySem i c' p m m')

/-- The indices a call treats as the table has them: those it refuses and
the entries of the table, for `sys_sem_free` those in use. -/
def Safe (k : Kernel ncpu) (call : SemCall) (index : Int) : Prop :=
  call.refuses index ∨ ∃ i : SemIdx, index = i.val ∧ (call = .free → (k.sem i).state = .used)

theorem semCall_goes_on (hn : k.semAnswer i call = none) (h : k.perform c p (call.op i) = .ok k') :
    k'.pc p = .waitChecked i ∨ k'.pc p = .signalChecked i := by
  cases call with
  | wait =>
    obtain rfl := Except.ok.inj h
    simp only [semAnswer, ite_eq_right_iff, reduceCtorEq, imp_false] at hn
    exact .inl (by rw [semWait, if_neg hn, setPc_pc, if_pos rfl])
  | signal =>
    obtain rfl := Except.ok.inj h
    simp only [semAnswer, ite_eq_right_iff, reduceCtorEq, imp_false] at hn
    exact .inr (by rw [semSignal, if_neg hn, setPc_pc, if_pos rfl])
  | free => cases hn

/-- An entry that is not in use is left as it is; only `sys_sem_free` says
otherwise. -/
theorem semCall_unused {c : Fin ncpu} (hu : (k.sem i).state ≠ .used) (hc : call ≠ .free) :
    k.semCall p call i.val = .ok (some (-1), k) := by
  have hun : (k.sem i).state = .unused := by
    cases hs : (k.sem i).state with
    | unused => rfl
    | used => exact absurd hs hu
  obtain ⟨k', h, hp⟩ := semCall_entry k c p call i
  cases call with
  | wait =>
    obtain rfl := Except.ok.inj hp
    rw [h]
    simp [semAnswer, semWait, hun]
  | signal =>
    obtain rfl := Except.ok.inj hp
    rw [h]
    simp [semAnswer, semSignal, hun]
  | free => exact absurd rfl hc

theorem next_semCall {op : Call}
    (hc : k.cpu c = some p) (hpc : k.pc p = .outside) (h : k.perform c p op = .ok k') :
    k.next (.call c op) = some k' := by
  simp only [next, step, hc, if_pos hpc, h]

theorem not_own_outside {index : Int32}
    (hnr : ¬ call.refuses index.toInt) (hlen : (ktTablesize : Int) ≤ index.toInt) :
    ¬ OwnSemaphore tr k c p call index := by
  intro hown
  obtain ⟨r, hr⟩ := hown.within
  rw [semCall_outside hnr hlen] at hr
  cases hr

theorem not_own_unused (h0 : Boot k₀) (hr : Run next k₀ tr k)
    {index : Int32} (hidx : index.toInt = i.val)
    (hu : (k.sem i).state ≠ .used) : ¬ OwnSemaphore tr k c p .free index := by
  intro hown
  have hinv := hown.invalid (fun j hj => by
    obtain rfl : i = j := Fin.ext (by omega)
    rw [handedOut_iff h0 hr]
    exact hu)
  obtain ⟨k', hk, -⟩ := semCall_entry k c p .free i
  rw [hidx, hk] at hinv
  simp [semAnswer] at hinv

/-- **A semaphore call keeps to its own semaphore**, in every reachable
state and for every index, exactly when the index is refused by the
call's range check or is an entry of the table, in use if the call is
`sys_sem_free`. Any other index that passes the check is behind the table,
and freeing an entry that is not in use is answered with 0. -/
theorem sem_calls_own {k₀ k : Kernel ncpu} {tr : List (Kernel ncpu × Act ncpu)} (h0 : Boot k₀)
    (hr : Run next k₀ tr k) {c : Fin ncpu} {p : ProcIdx} (hc : k.cpu c = some p)
    (hpc : k.pc p = .outside) (call : SemCall) (index : Int32) :
    OwnSemaphore tr k c p call index ↔ Safe k call index.toInt := by
  constructor
  · intro hown
    by_contra hns
    obtain ⟨hnr, hni⟩ := not_or.mp hns
    by_cases hlen : (ktTablesize : Int) ≤ index.toInt
    · exact not_own_outside hnr hlen hown
    · -- inside the table: the call frees an entry that is not in use
      have hpos : 0 ≤ index.toInt := by
        by_contra hneg
        exact hnr (by cases call <;> exact .inl (by omega))
      have hlt : index.toInt.toNat < ktTablesize := by omega
      obtain ⟨i, hidx⟩ : ∃ i : SemIdx, index.toInt = i.val :=
        ⟨⟨index.toInt.toNat, hlt⟩, (Int.toNat_of_nonneg hpos).symm⟩
      refine hni ⟨i, hidx, fun hcall => ?_⟩
      by_contra hu
      exact not_own_unused h0 hr hidx hu (hcall ▸ hown)
  · rintro (href | ⟨i, hidx, hused⟩)
    · refine ⟨⟨_, semCall_refused href k p⟩, fun _ => semCall_refused href k p, ?_⟩
      intro i hidx
      exact absurd (hidx ▸ href) (not_refuses call i)
    · obtain ⟨k', hk, hp⟩ := semCall_entry k c p call i
      rw [← hidx] at hk
      refine ⟨⟨_, hk⟩, ?_, ?_⟩
      · intro hno
        have hu := mt (handedOut_iff h0 hr i).mpr (hno i hidx)
        rw [hidx]
        exact semCall_unused (c := c) hu (fun hcall => hu (hused hcall))
      · intro j hj hlive
        obtain rfl : i = j := Fin.ext (by omega)
        refine ⟨_, k', hk, ?_, onlySem_perform hp, ?_⟩
        · have hs := (handedOut_iff h0 hr i).mp hlive
          cases call <;> simp [semAnswer, hs]
        · intro hn tr' m m' c' hrun hcm hpm hm
          have hrun' : Run next k₀ ((tr ++ [(k, .call c (call.op i))]) ++ tr') m :=
            (hr.snoc (next_semCall hc hpc hp)).append hrun
          refine onlySem_enter (schedInv_run h0 hrun') hcm ?_ hm
          rw [hpm]
          exact semCall_goes_on hn hp

/-- `initproc` runs and has initialised entry 0. -/
def oneSemaphore : List (Kernel 2 × Act 2) × Kernel 2 :=
  (follow next smallMachine [.schedule 0 0, .call 0 (.semInitialize 1)]).get (by decide +kernel)

theorem run_oneSemaphore : Run next smallMachine oneSemaphore.1 oneSemaphore.2 := run_get _

theorem sem_calls_own_oneSemaphore : OwnSemaphore oneSemaphore.1 oneSemaphore.2 0 0 .free 0 ∧
    OwnSemaphore oneSemaphore.1 oneSemaphore.2 0 0 .wait 128 ∧
    OwnSemaphore oneSemaphore.1 oneSemaphore.2 0 0 .signal 5 := by
  have hc : oneSemaphore.2.cpu 0 = some 0 := by decide +kernel
  have hpc : oneSemaphore.2.pc 0 = .outside := by decide +kernel
  refine ⟨?_, ?_, ?_⟩
  · exact (sem_calls_own boot_smallMachine run_oneSemaphore hc hpc .free 0).mpr
      (.inr ⟨0, by decide, fun _ => by decide +kernel⟩)
  · exact (sem_calls_own boot_smallMachine run_oneSemaphore hc hpc .wait 128).mpr
      (.inl (by decide))
  · exact (sem_calls_own boot_smallMachine run_oneSemaphore hc hpc .signal 5).mpr
      (.inr ⟨5, by decide, fun h => by cases h⟩)

/-- Each of the three calls lets the first index behind the table through,
two of them even `NPROC`; and `sys_sem_free` of an entry nobody was handed
returns 0. -/
theorem sem_calls_leave_table :
    (∀ call, ¬ OwnSemaphore oneSemaphore.1 oneSemaphore.2 0 0 call 64) ∧
    ¬ OwnSemaphore oneSemaphore.1 oneSemaphore.2 0 0 .signal 128 ∧
    ¬ OwnSemaphore oneSemaphore.1 oneSemaphore.2 0 0 .free 128 ∧
    ¬ OwnSemaphore oneSemaphore.1 oneSemaphore.2 0 0 .free 1 := by
  refine ⟨fun call => ?_, ?_, ?_, ?_⟩
  · exact not_own_outside (by cases call <;> decide) (by decide)
  · exact not_own_outside (by decide) (by decide)
  · exact not_own_outside (by decide) (by decide)
  · exact not_own_unused (i := 1) boot_smallMachine run_oneSemaphore (by decide)
      (by decide +kernel)

end Kernel

end Xv6.Kern
