/-
Xv6.Kern.SemaphoreTheorems — what a semaphore guarantees over whole runs.

What a run did to semaphore `i` is read off its trace: `semEvent` names
the pass, the arrival in the queue or the signal a step is, and the lists
`passers`, `signalers`, `arrivals` and `signalled` collect them in order.

`SemStep` says what each event does to the semaphore and to the set of
processes waiting on it; every theorem below is an induction over the run
with that case analysis as its step. Two results follow.

* Safety (`passes_le`): passes never outnumber the initial count and the
  signals, waiters lost by a full queue included.
* No lost waiter (`no_waiter_lost`): the queue holds exactly the blocked
  threads in order of arrival, AS LONG AS no count is negative at the
  start, no thread arrives at a full queue and the count does not overflow.
-/
import Xv6.Kern.SchedTheorems
import Mathlib.Algebra.Order.BigOperators.Group.Finset
import Mathlib.Algebra.BigOperators.Group.Finset.Piecewise

namespace Xv6.Kern

open Xv6.Lib Xv6.Mem

variable {ncpu : Nat}
  {a : Act ncpu} {c : Fin ncpu} {k k' : Kernel ncpu} {tr : List (Kernel ncpu × Act ncpu)}
  {p : ProcIdx} {i : SemIdx}

/-- If no element occurs more often in `ys` than in `xs`, then the number
of those that occur LESS often is at most the difference in length. -/
theorem card_excess_le {α : Type} [Fintype α] [DecidableEq α] {xs ys : List α}
    (h : ∀ a, ys.count a ≤ xs.count a) :
    (Finset.univ.filter fun a => ys.count a < xs.count a).card + ys.length ≤ xs.length := by
  have hsum : ∀ l : List α, ∑ a, l.count a = l.length := by
    intro l
    simpa using Multiset.sum_count_eq_card (s := Finset.univ) (m := (l : Multiset α))
      (fun _ _ => Finset.mem_univ _)
  rw [Finset.card_filter, ← hsum ys, ← hsum xs, ← Finset.sum_add_distrib]
  refine Finset.sum_le_sum fun a _ => ?_
  have := h a
  split <;> omega

/-! ## Events -/

/-- What a critical section of `sem_wait` or `sem_signal` does. -/
inductive SemEvent where
  /-- `p` found a positive count. -/
  | pass (p : ProcIdx)
  /-- `p` goes to sleep. -/
  | block (p : ProcIdx)
  /-- `p` signals; `pop_front` returned `woken`. -/
  | signal (p : ProcIdx) (woken : Option ProcIdx)
  deriving DecidableEq

namespace SemEvent

/-- The process whose `sem_wait` the event lets pass. -/
def passer : SemEvent → Option ProcIdx
  | pass p => some p
  | block _ => none
  | signal _ woken => woken

def signaler : SemEvent → Option ProcIdx
  | signal p _ => some p
  | _ => none

def arrival : SemEvent → Option ProcIdx
  | block p => some p
  | _ => none

/-- What a signal popped, if the event is one. -/
def popped : SemEvent → Option (Option ProcIdx)
  | signal _ woken => some woken
  | _ => none

end SemEvent

/-- The semaphore an action frees. -/
def Act.freed : Act ncpu → Option SemIdx
  | .call _ (.semFree i) => some i
  | _ => none

/-- The action is `sem_free(i)`. -/
abbrev Act.frees (i : SemIdx) (a : Act ncpu) : Prop := a.freed = some i

/-- The initial count of an action that is a `sem_initialize`. -/
def Act.initCount : Act ncpu → Option Int32
  | .call _ (.semInitialize n) => some n
  | _ => none

namespace Kernel

/-- What process `p`, at its place in the code, is about to do to
semaphore `i`. -/
def semEventOf (i : SemIdx) (k : Kernel ncpu) (p : ProcIdx) : Option SemEvent :=
  if k.pc p = .waitChecked i then
    some (if (k.sem i).count ≤ 0 then .block p else .pass p)
  else if k.pc p = .signalChecked i then
    some (.signal p (k.sem i).queue.popFront.1)
  else none

/-- The process that goes on with its semaphore call. -/
def entering (k : Kernel ncpu) : Act ncpu → Option ProcIdx
  | .enter c => k.cpu c
  | _ => none

/-- What an action taken in `k` is to semaphore `i`. -/
def semEvent (i : SemIdx) (k : Kernel ncpu) (a : Act ncpu) : Option SemEvent :=
  (k.entering a).bind (k.semEventOf i)

/-- The events of a trace, in order. -/
def semEvents (i : SemIdx) (tr : List (Kernel ncpu × Act ncpu)) : List SemEvent :=
  tr.filterMap fun e => semEvent i e.1 e.2

/-- The processes that passed, one entry for every pass. -/
def passers (i : SemIdx) (tr : List (Kernel ncpu × Act ncpu)) : List ProcIdx :=
  (semEvents i tr).filterMap SemEvent.passer

/-- The processes that signalled. -/
def signalers (i : SemIdx) (tr : List (Kernel ncpu × Act ncpu)) : List ProcIdx :=
  (semEvents i tr).filterMap SemEvent.signaler

/-- The processes that went to sleep, in order of arrival. -/
def arrivals (i : SemIdx) (tr : List (Kernel ncpu × Act ncpu)) : List ProcIdx :=
  (semEvents i tr).filterMap SemEvent.arrival

/-- What the signals popped, in order. -/
def signalled (i : SemIdx) (tr : List (Kernel ncpu × Act ncpu)) : List (Option ProcIdx) :=
  (semEvents i tr).filterMap SemEvent.popped

section
variable (i : SemIdx) (tr : List (Kernel ncpu × Act ncpu)) (k : Kernel ncpu) (a : Act ncpu)

theorem semEvents_snoc : semEvents i (tr ++ [(k, a)])
    = semEvents i tr ++ (semEvent i k a).toList := by
  simp only [semEvents, List.filterMap_append, List.filterMap_cons, List.filterMap_nil]
  cases semEvent i k a <;> rfl

/-- What a list of the events gains with an action. -/
theorem filterMap_snoc {α : Type} (f : SemEvent → Option α) :
    (semEvents i (tr ++ [(k, a)])).filterMap f
      = (semEvents i tr).filterMap f ++ ((semEvent i k a).bind f).toList := by
  rw [semEvents_snoc, List.filterMap_append]
  cases semEvent i k a with
  | none => rfl
  | some e => cases h : f e <;> simp [h]

theorem passers_snoc : passers i (tr ++ [(k, a)])
    = passers i tr ++ ((semEvent i k a).bind SemEvent.passer).toList := filterMap_snoc ..

theorem signalers_snoc : signalers i (tr ++ [(k, a)])
    = signalers i tr ++ ((semEvent i k a).bind SemEvent.signaler).toList := filterMap_snoc ..

theorem arrivals_snoc : arrivals i (tr ++ [(k, a)])
    = arrivals i tr ++ ((semEvent i k a).bind SemEvent.arrival).toList := filterMap_snoc ..

theorem signalled_snoc : signalled i (tr ++ [(k, a)])
    = signalled i tr ++ ((semEvent i k a).bind SemEvent.popped).toList := filterMap_snoc ..

end

/-! ## One step, seen from one semaphore -/

/-- What a step that is event `e` of semaphore `i` does to `i` and to the
processes waiting on it. -/
inductive SemStep (i : SemIdx) (k k' : Kernel ncpu) : Option SemEvent → Prop
  | other : k'.sem i = k.sem i → (∀ q, k'.pc q = .waiting i ↔ k.pc q = .waiting i) →
      SemStep i k k' none
  | pass (p : ProcIdx) : 0 < (k.sem i).count →
      k'.sem i = { k.sem i with count := toI32 ((k.sem i).count - 1) } →
      (∀ q, k'.pc q = .waiting i ↔ k.pc q = .waiting i) → SemStep i k k' (some (.pass p))
  | block (p : ProcIdx) : (k.sem i).count ≤ 0 →
      k'.sem i = { k.sem i with
        count := toI32 ((k.sem i).count - 1)
        queue := (k.sem i).queue.pushBack p } →
      k.pc p ≠ .waiting i →
      (∀ q, k'.pc q = .waiting i ↔ q = p ∨ k.pc q = .waiting i) →
      SemStep i k k' (some (.block p))
  | signal (p : ProcIdx) : (k.sem i).queue.toList = [] →
      k'.sem i = { k.sem i with count := toI32 ((k.sem i).count + 1) } →
      (∀ q, k'.pc q = .waiting i ↔ k.pc q = .waiting i) →
      (∀ q, (k'.proc q).state = (k.proc q).state) → SemStep i k k' (some (.signal p none))
  | wake (p w : ProcIdx) (rest : List ProcIdx) : (k.sem i).queue.toList = w :: rest →
      k'.sem i = { k.sem i with
        count := toI32 ((k.sem i).count + 1)
        queue := (k.sem i).queue.popFront.2 } →
      (∀ q, k'.pc q = .waiting i ↔ q ≠ w ∧ k.pc q = .waiting i) →
      (∀ q, (k'.proc q).state = if q = w then .runnable else (k.proc q).state) →
      SemStep i k k' (some (.signal p (some w)))

/-- A step that leaves semaphores and positions alone is no event. -/
theorem SemStep.same (hs : k'.sem i = k.sem i) (hpc : k'.pc = k.pc) : SemStep i k k' none :=
  .other hs fun q => by rw [hpc]

/-- Moving one thread between places other than `waiting` is no event. -/
theorem SemStep.move {pc : Pc} (hs : k'.sem i = k.sem i)
    (hpc : ∀ q, k'.pc q = if q = p then pc else k.pc q) (h : k.pc p ≠ .waiting i)
    (h' : pc ≠ .waiting i) : SemStep i k k' none := by
  refine .other hs fun q => ?_
  rw [hpc]
  split
  · next hq =>
    subst hq
    exact ⟨fun hw => absurd hw h', fun hw => absurd hw h⟩
  · rfl

/-- The action is a `sem_initialize` that hands out entry `i`. -/
def Inits (i : SemIdx) (k : Kernel ncpu) (a : Act ncpu) : Prop :=
  ∃ n ∈ a.initCount, (k.sysSemInitialize n.toInt).1 = some i

/-- What `sem_initialize` does to entry `i`. -/
theorem sysSemInitialize_cases (k : Kernel ncpu) (n : Int) (i : SemIdx) :
    ((k.sysSemInitialize n).1 = some i ∧ (k.sem i).state = .unused ∧
      (k.sysSemInitialize n).2.sem i = semInit n) ∨
    ((k.sysSemInitialize n).1 ≠ some i ∧ (k.sysSemInitialize n).2.sem i = k.sem i) := by
  unfold sysSemInitialize
  split
  · exact .inr ⟨by simp, rfl⟩
  · unfold semInitialize
    split
    · exact .inr ⟨by simp, rfl⟩
    rename_i j hj
    have hu : (k.sem j).state = .unused := by simpa using List.find?_some hj
    by_cases hij : i = j
    · subst hij
      exact .inl ⟨rfl, hu, by rw [setSem_sem, if_pos rfl]⟩
    · refine .inr ⟨?_, by rw [setSem_sem, if_neg hij]⟩
      intro h
      exact hij (Option.some.inj h).symm

theorem sysSemInitialize_pc (k : Kernel ncpu) (n : Int) : (k.sysSemInitialize n).2.pc = k.pc := by
  unfold sysSemInitialize semInitialize
  split
  · rfl
  · split <;> rfl

/-- The state after a `sem_initialize`, and that it is no event. -/
theorem next_semInitialize {n : Int32} (ha : n ∈ a.initCount) (h : k.next a = some k') :
    k' = (k.sysSemInitialize n.toInt).2 ∧ ∀ i, semEvent i k a = none := by
  cases a with
  | call c op =>
    cases op with
    | semInitialize m =>
      cases ha
      refine ⟨?_, fun i => rfl⟩
      cases stepped_of_next h with
      | call _ p _ _ _ hp => exact (Except.ok.inj hp).symm
    | _ => cases ha
  | _ => cases ha

/-- An entry in use is not handed out again. -/
theorem not_inits_of_used (hs : (k.sem i).state = .used) (a : Act ncpu) : ¬ Inits i k a := by
  rintro ⟨n, -, hn⟩
  rcases sysSemInitialize_cases k n.toInt i with ⟨-, hu, -⟩ | ⟨hne, -⟩
  · rw [hs] at hu
    cases hu
  · exact hne hn

/-- The event of the step by which the process of CPU `c` goes on. -/
theorem semEvent_enter (hc : k.cpu c = some p) (i : SemIdx) :
    semEvent i k (.enter c) = k.semEventOf i p := by
  simp [semEvent, entering, hc]

theorem semStep_perform {op : Call} (hi : SchedInv k) (hn : ¬ Inits i k (.call c op))
    (hf : ¬ Act.frees i (.call c op)) (hc : k.cpu c = some p) (h : k.perform c p op = .ok k') :
    SemStep i k k' none := by
  have hp := hi.not_waiting hc i
  cases performed h with
  | quiet _ hq => exact .same (by rw [hq.sem]) hq.pc
  | leave _ k1 st hq _ hk =>
    rw [hk]
    exact .same (by rw [schedOut_sem, hq.sem]) hq.pc
  | semInitialize n hk =>
    rw [hk]
    rcases sysSemInitialize_cases k n.toInt i with ⟨h1, -⟩ | ⟨-, h2⟩
    · exact absurd ⟨n, rfl, h1⟩ hn
    · exact .same h2 (sysSemInitialize_pc k n.toInt)
  | semWait j hk =>
    rw [hk]
    unfold semWait
    split
    · exact .same rfl rfl
    · exact .move rfl (fun q => setPc_pc k p q _) hp (by simp)
  | semSignal j hk =>
    rw [hk]
    unfold semSignal
    split
    · exact .same rfl rfl
    · exact .move rfl (fun q => setPc_pc k p q _) hp (by simp)
  | semFree j hk =>
    rw [hk]
    have hij : i ≠ j := fun h => hf (congrArg some h.symm)
    exact .same (by rw [semFree, setSem_sem, if_neg hij]) rfl

theorem semStep_waitEnter {j : SemIdx} (hi : SchedInv k) (hc : k.cpu c = some p)
    (hpc : k.pc p = .waitChecked j) : SemStep i k (k.semWaitEnter c p j) (k.semEventOf i p) := by
  have hp := hi.not_waiting hc i
  unfold semWaitEnter
  by_cases hij : i = j
  · subst hij
    simp only [semEventOf, hpc, if_true]
    split
    · next hle =>
      refine .block p hle ?_ hp fun q => ?_
      · rw [semSleep_sem, if_pos rfl, setSem_sem, if_pos rfl]
      · rw [semSleep_pc]
        by_cases hq : q = p
        · simp [hq]
        · simp [hq]
    rename_i hle
    refine .pass p (by omega) ?_ fun q => ?_
    · rw [setPc_sem, setSem_sem, if_pos rfl]
    · rw [setPc_pc]
      split
      · next hq => simp [hq, hp]
      · rfl
  · have hne : k.semEventOf i p = none := by
      simp [semEventOf, hpc, Ne.symm hij]
    rw [hne]
    split
    · refine .move ?_ (fun q => semSleep_pc _ c p q j) hp (by simp [Ne.symm hij])
      rw [semSleep_sem, if_neg hij, setSem_sem, if_neg hij]
    · refine .move ?_ (fun q => setPc_pc _ p q .outside) hp (by simp)
      rw [setPc_sem, setSem_sem, if_neg hij]

theorem semStep_signalEnter {j : SemIdx} (hi : SchedInv k) (hc : k.cpu c = some p)
    (hpc : k.pc p = .signalChecked j) : SemStep i k (k.semSignalEnter p j) (k.semEventOf i p) := by
  have hp := fun i => hi.not_waiting hc i
  have hwf := hi.checkedWf p j (.inr hpc)
  unfold semSignalEnter
  generalize hk1 : (k.setSem j fun s => { s with count := toI32 (s.count + 1) }).setPc p .outside
    = k1
  have hsem : ∀ l, k1.sem l = if l = j then { k.sem j with count := toI32 ((k.sem j).count + 1) }
      else k.sem l := by
    intro l
    rw [← hk1, setPc_sem, setSem_sem]
  have hpc1 : ∀ q, k1.pc q = if q = p then .outside else k.pc q := by
    intro q
    rw [← hk1, setPc_pc, setSem_pc]
  have hque : (k1.sem j).queue = (k.sem j).queue := by rw [hsem, if_pos rfl]
  have hproc : k1.proc = k.proc := by rw [← hk1, setPc_proc, setSem_proc]
  -- leaving the call does not move `p` in or out of the waiting processes
  have hout : ∀ q, k1.pc q = .waiting i ↔ k.pc q = .waiting i := by
    intro q
    rw [hpc1]
    split
    · next hq => simp [hq, hp i]
    · rfl
  have hev : k.semEventOf i p
      = if i = j then some (.signal p (k.sem j).queue.popFront.1) else none := by
    by_cases hij : i = j
    · simp [semEventOf, hpc, hij]
    · simp [semEventOf, hpc, hij, Ne.symm hij]
  rw [hev]
  cases hl : (k.sem j).queue.toList with
  | nil =>
    have hpop := Queue.popFront_empty hwf hl
    rw [semWakeup_none k1 j (by rw [hque]; exact hpop), hpop]
    by_cases hij : i = j
    · subst hij
      rw [if_pos rfl]
      refine .signal p hl ?_ hout fun q => by rw [hproc]
      rw [hsem, if_pos rfl]
    · rw [if_neg hij]
      exact .other (by rw [hsem, if_neg hij]) hout
  | cons w rest =>
    obtain ⟨hpop, -, -⟩ := Queue.popFront_cons hwf hl
    have hw : k.pc w = .waiting j := hi.queued j w (by rw [hl]; simp)
    rw [semWakeup_some k1 j (by rw [hque]; exact hpop), hpop]
    by_cases hij : i = j
    · subst hij
      rw [if_pos rfl]
      refine .wake p w rest hl ?_ (fun q => ?_) fun q => ?_
      · simp only [setPc_sem, setState, setProc_sem]
        rw [setSem_sem, if_pos rfl, hque, hsem, if_pos rfl]
      · rw [setPc_pc]
        split
        · next hq => simp [hq]
        rename_i hq
        simp only [setState, setProc_pc, setSem_pc, hout q]
        exact ⟨fun h => ⟨hq, h⟩, fun h => h.2⟩
      · rw [setPc_proc, setState_state, setSem_proc, hproc]
    · rw [if_neg hij]
      refine .other ?_ fun q => ?_
      · simp only [setPc_sem, setState, setProc_sem]
        rw [setSem_sem, if_neg hij, hsem, if_neg hij]
      · rw [setPc_pc]
        split
        · next hq => simp [hq, hw, Ne.symm hij]
        · exact hout q

/-- **What a step does to a semaphore it neither starts nor frees.** -/
theorem semStep (hi : SchedInv k) (hn : ¬ Inits i k a) (hf : ¬ a.frees i) (h : k.next a = some k') :
    SemStep i k k' (semEvent i k a) := by
  cases stepped_of_next h with
  | schedule c p _ _ hsch =>
    unfold scheduler at hsch
    split at hsch
    · cases hsch
    · cases hsch
      exact .same rfl rfl
  | wakeup chan hk =>
    rw [hk]
    exact .same rfl rfl
  | call c p op hc _ hp => exact semStep_perform hi hn hf hc hp
  | waitEnter c p j hc hpc hk =>
    rw [hk, semEvent_enter hc]
    exact semStep_waitEnter hi hc hpc
  | signalEnter c p j hc hpc hk =>
    rw [hk, semEvent_enter hc]
    exact semStep_signalEnter hi hc hpc

/-- A semaphore in use stays in use until it is freed. -/
theorem SemStep.state {e : Option SemEvent} (h : SemStep i k k' e) :
    (k'.sem i).state = (k.sem i).state := by
  cases h with
  | other hs _ => rw [hs]
  | pass p _ hs _ => rw [hs]
  | block p _ hs _ _ => rw [hs]
  | signal p _ hs _ _ => rw [hs]
  | wake p w rest _ hs _ _ => rw [hs]

/-! ## Safety -/

/-- The accounts of semaphore `i` after the run `tr` that began with its
`sem_init(n)`. `W` are the processes that went to sleep since and were
not popped; those the full queue dropped are in it, so the queue is only
a part. `sem_wait` takes one off the count on BOTH branches, so `count`
is what is left of `n` and the signals after the passes, less the
sleepers. -/
structure PassInv (n : Int) (i : SemIdx) (tr : List (Kernel ncpu × Act ncpu))
    (k : Kernel ncpu) (W : Finset ProcIdx) : Prop where
  used : (k.sem i).state = .used
  count : (k.sem i).count
    = toI32 (n + (signalers i tr).length - (passers i tr).length - W.card)
  enough : ((passers i tr).length : Int) ≤ n + (signalers i tr).length
  queue : ∀ p ∈ (k.sem i).queue.toList, p ∈ W
  waiting : ∀ p ∈ W, k.pc p = .waiting i
  blocked : ∀ p, (arrivals i tr).count p
    = (signalled i tr).count (some p) + if p ∈ W then 1 else 0

/-- Few processes can sleep, so a count that reads positive IS positive. -/
theorem PassInv.pos {n : Int} {W : Finset ProcIdx} (h : PassInv n i tr k W)
    (hc : 0 < (k.sem i).count) : (passers i tr).length + W.card < n + (signalers i tr).length := by
  have hcard : W.card ≤ nproc := by
    simpa using Finset.card_le_univ W
  have henough := h.enough
  rw [h.count] at hc
  have := pos_of_toI32_pos (by simp only [nproc] at hcard; omega) hc
  omega

theorem passInv_step {n : Int} {W : Finset ProcIdx} (hi : SchedInv k) (h : PassInv n i tr k W)
    (hf : ¬ a.frees i) (hn : k.next a = some k') : ∃ W', PassInv n i (tr ++ [(k, a)]) k' W' := by
  have hst := semStep hi (not_inits_of_used h.used a) hf hn
  have hused : (k'.sem i).state = .used := by rw [hst.state, h.used]
  have henough := h.enough
  have hwf := hi.usedWf i h.used
  have hp := passers_snoc i tr k a
  have hs := signalers_snoc i tr k a
  have ha := arrivals_snoc i tr k a
  have hd := signalled_snoc i tr k a
  generalize semEvent i k a = e at hst hp hs ha hd
  cases hst with
  | other hsem hw =>
    simp only [Option.bind_none, Option.toList_none, List.append_nil] at hp hs ha hd
    refine ⟨W, hused, ?_, ?_, ?_, ?_, by rw [ha, hd]; exact h.blocked⟩
    · rw [hsem, hp, hs, h.count]
    · rw [hp, hs]; exact henough
    · rw [hsem]; exact h.queue
    · exact fun q hq => (hw q).mpr (h.waiting q hq)
  | pass p hc hsem hw =>
    have hpos := h.pos hc
    simp only [Option.bind_some, SemEvent.passer, SemEvent.signaler, SemEvent.arrival,
      SemEvent.popped, Option.toList_some, Option.toList_none, List.append_nil] at hp hs ha hd
    refine ⟨W, hused, ?_, ?_, ?_, ?_, by rw [ha, hd]; exact h.blocked⟩
    · rw [hsem, hp, hs]
      simp only [h.count, List.length_append, List.length_singleton, toI32_sub_toI32]
      congr 1
      omega
    · rw [hp, hs, List.length_append, List.length_singleton]
      omega
    · rw [hsem]; exact h.queue
    · exact fun q hq => (hw q).mpr (h.waiting q hq)
  | block p hc hsem hpw hw =>
    simp only [Option.bind_some, SemEvent.passer, SemEvent.signaler, SemEvent.arrival,
      SemEvent.popped, Option.toList_some, Option.toList_none, List.append_nil] at hp hs ha hd
    have hnew : p ∉ W := fun hin => hpw (h.waiting p hin)
    refine ⟨insert p W, hused, ?_, ?_, ?_, ?_, fun q => ?_⟩
    · rw [hsem, hp, hs, Finset.card_insert_of_notMem hnew]
      simp only [h.count, toI32_sub_toI32]
      congr 1
      omega
    · rw [hp, hs]; exact henough
    · -- a dropped process is in `W` only
      rw [hsem]
      intro q hq
      cases hfull : (k.sem i).queue.isFull with
      | true =>
        simp only [Queue.pushBack_full hfull] at hq
        exact Finset.mem_insert_of_mem (h.queue q hq)
      | false =>
        simp only [Queue.toList_pushBack hwf hfull, List.mem_append,
          List.mem_singleton] at hq
        rcases hq with hq | hq
        · exact Finset.mem_insert_of_mem (h.queue q hq)
        · exact hq ▸ Finset.mem_insert_self p W
    · intro q hq
      rcases Finset.mem_insert.mp hq with hq | hq
      · exact (hw q).mpr (.inl hq)
      · exact (hw q).mpr (.inr (h.waiting q hq))
    · rw [ha, hd, List.count_append, h.blocked]
      by_cases hq : q = p
      · simp [hq, hnew]
      · simp [hq, Ne.symm hq]
  | signal p hl hsem hw _ =>
    simp only [Option.bind_some, SemEvent.passer, SemEvent.signaler, SemEvent.arrival,
      SemEvent.popped, Option.toList_some, Option.toList_none, List.append_nil] at hp hs ha hd
    refine ⟨W, hused, ?_, ?_, ?_, ?_, fun q => ?_⟩
    · rw [hsem, hp, hs]
      simp only [h.count, List.length_append, List.length_singleton, toI32_add_toI32]
      congr 1
      omega
    · rw [hp, hs, List.length_append, List.length_singleton]
      omega
    · rw [hsem]; exact h.queue
    · exact fun q hq => (hw q).mpr (h.waiting q hq)
    · rw [ha, hd, List.count_append, h.blocked]
      simp
  | wake p w rest hl hsem hw _ =>
    simp only [Option.bind_some, SemEvent.passer, SemEvent.signaler, SemEvent.arrival,
      SemEvent.popped, Option.toList_some, Option.toList_none, List.append_nil] at hp hs ha hd
    have hnd := hi.nodup i
    rw [hl, List.nodup_cons] at hnd
    have hin : w ∈ W := h.queue w (by rw [hl]; simp)
    have hcard : (W.erase w).card + 1 = W.card := Finset.card_erase_add_one hin
    obtain ⟨-, -, hrest⟩ := Queue.popFront_cons hwf hl
    refine ⟨W.erase w, hused, ?_, ?_, ?_, ?_, fun q => ?_⟩
    · rw [hsem, hp, hs]
      simp only [h.count, List.length_append, List.length_singleton, toI32_add_toI32]
      congr 1
      omega
    · rw [hp, hs, List.length_append, List.length_append, List.length_singleton,
        List.length_singleton]
      omega
    · rw [hsem]
      intro q hq
      simp only [hrest] at hq
      refine Finset.mem_erase.mpr ⟨fun hqw => hnd.1 (hqw ▸ hq), h.queue q ?_⟩
      rw [hl]
      exact List.mem_cons_of_mem w hq
    · intro q hq
      obtain ⟨hqw, hq⟩ := Finset.mem_erase.mp hq
      exact (hw q).mpr ⟨hqw, h.waiting q hq⟩
    · rw [ha, hd, List.count_append, h.blocked]
      by_cases hq : q = w
      · simp [hq, hin]
      · simp [hq, Ne.symm hq]

/-- `sem_initialize(n)` that returned `i` opens the accounts. -/
theorem passInv_init {n : Int32} (hn : 0 ≤ n.toInt) (h : (k.sysSemInitialize n.toInt).1 = some i) :
    PassInv n.toInt i [] (k.sysSemInitialize n.toInt).2 ∅ := by
  have hsem : (k.sysSemInitialize n.toInt).2.sem i = semInit n.toInt := by
    rcases sysSemInitialize_cases k n.toInt i with ⟨-, -, hs⟩ | ⟨hne, -⟩
    · exact hs
    · exact absurd h hne
  refine ⟨by rw [hsem]; rfl, ?_, by simpa [passers, signalers, semEvents] using hn, ?_, ?_,
    fun p => rfl⟩
  · have hint := toI32_of_range (Int32.le_toInt n) (Int32.toInt_lt n)
    rw [hsem]
    simp [semInit, passers, signalers, semEvents, hint]
  · rw [hsem]
    intro p hp
    cases hp
  · intro p hp
    cases hp

/-- Every signal comes from a process with a pass it has not yet
signalled for. -/
def SignalsAfterPass (i : SemIdx) (tr : List (Kernel ncpu × Act ncpu)) : Prop :=
  ∀ tr₁ k a tr₂ p w, tr = tr₁ ++ (k, a) :: tr₂ → semEvent i k a = some (.signal p w) →
    (signalers i tr₁).count p < (passers i tr₁).count p

/-- The processes inside the critical section. -/
def inside (i : SemIdx) (tr : List (Kernel ncpu × Act ncpu)) : Finset ProcIdx :=
  Finset.univ.filter fun p => (signalers i tr).count p < (passers i tr).count p

/-- The discipline keeps everybody's signals below their passes. -/
theorem signals_le_passes (h : SignalsAfterPass i tr) (p : ProcIdx) :
    (signalers i tr).count p ≤ (passers i tr).count p := by
  induction tr using List.reverseRecOn with
  | nil => simp [signalers, passers, semEvents]
  | append_singleton tr e ih =>
    obtain ⟨k, a⟩ := e
    have hpre : SignalsAfterPass i tr := by
      intro tr₁ k₁ a₁ tr₂ q w htr hev
      exact h tr₁ k₁ a₁ (tr₂ ++ [(k, a)]) q w (by simp [htr]) hev
    have hle := ih hpre
    rw [signalers_snoc, passers_snoc, List.count_append, List.count_append]
    -- only a signal by `p` itself needs the discipline
    cases hev : (semEvent i k a) with
    | none => simpa using hle
    | some ev =>
      cases ev with
      | pass q => simp only [Option.bind_some, SemEvent.signaler, Option.toList_none,
          List.count_nil]; omega
      | block q => simpa [SemEvent.signaler, SemEvent.passer] using hle
      | signal q w =>
        have hlt := h tr k a [] q w rfl hev
        simp only [Option.bind_some, SemEvent.signaler, Option.toList_some]
        by_cases hqp : q = p
        · subst hqp
          simp only [List.count_singleton_self]
          omega
        · rw [List.count_singleton, if_neg (by simpa using hqp)]
          omega

/-- **Semaphore safety.** After `sem_initialize(n)` returned `i`, and as
long as `i` is not freed, a call that found no count and was not popped
sleeps, and passes never outnumber `n` and the signals; so if processes
signal only for a pass of their own, at most `n` of them are inside at
once. The queue may overflow on the way. -/
theorem passes_le {k₀ k₁ k₂ k : Kernel ncpu} {tr₀ tr : List (Kernel ncpu × Act ncpu)}
    {c : Fin ncpu} {n : Int32} {i : SemIdx} (h0 : Boot k₀) (hr₀ : Run next k₀ tr₀ k₁)
    (hn : 0 ≤ n.toInt) (hret : (k₁.sysSemInitialize n.toInt).1 = some i)
    (hinit : k₁.next (.call c (.semInitialize n)) = some k₂)
    (hr : Run next k₂ tr k) (hfree : Meets (fun _ a => ¬ a.frees i) tr) :
    (∀ p, (arrivals i tr).count p ≤ (signalled i tr).count (some p) +
      if k.pc p = .waiting i ∧ (k.proc p).state = .semSleeping then 1 else 0) ∧
    ((passers i tr).length : Int) ≤ n.toInt + (signalers i tr).length ∧
    (SignalsAfterPass i tr → ((inside i tr).card : Int) ≤ n.toInt) := by
  have hi₂ := schedInv_step (schedInv_run h0 hr₀) hinit
  have hk₂ : k₂ = (k₁.sysSemInitialize n.toInt).2 := (next_semInitialize rfl hinit).1
  -- the accounts hold after every step since the initialisation
  have hinv : SchedInv k ∧ ∃ W, PassInv n.toInt i tr k W := by
    refine hr.history (I := fun tr k => SchedInv k ∧ ∃ W, PassInv n.toInt i tr k W)
      ⟨hi₂, ∅, hk₂ ▸ passInv_init hn hret⟩ ?_ hfree
    rintro tr s a s' - ⟨hi, W, hW⟩ hf hs
    exact ⟨schedInv_step hi hs, passInv_step hi hW hf hs⟩
  obtain ⟨hi, W, hW⟩ := hinv
  refine ⟨fun p => ?_, hW.enough, fun hd => ?_⟩
  · rw [hW.blocked]
    by_cases hp : p ∈ W
    · have hw := hW.waiting p hp
      rw [if_pos hp, if_pos ⟨hw, (hi.sleeper p).mpr ⟨i, hw⟩⟩]
    · simp [hp]
  have hcard := card_excess_le (signals_le_passes hd)
  have henough := hW.enough
  simp only [inside]
  omega

/-- `initproc` runs … -/
def initRuns : List (Kernel 2 × Act 2) × Kernel 2 :=
  (follow next smallMachine [.schedule 0 0]).get smallMachine_runs

/-- … starts a semaphore with count 1 … -/
def initStarts : Kernel 2 :=
  (initRuns.2.next (.call 0 (.semInitialize 1))).get (by decide +kernel)

/-- … and waits on it, signals, and waits on it twice more. -/
def initWaits : List (Kernel 2 × Act 2) × Kernel 2 :=
  (follow next initStarts
    [.call 0 (.semWait 0), .enter 0, .call 0 (.semSignal 0), .enter 0, .call 0 (.semWait 0),
      .enter 0, .call 0 (.semWait 0), .enter 0]).get (by decide +kernel)

theorem passes_le_initWaits : passers 0 initWaits.1 = [0, 0] ∧ signalers 0 initWaits.1 = [0] ∧
    arrivals 0 initWaits.1 = [0] ∧ initWaits.2.pc 0 = .waiting 0 ∧
    ((passers 0 initWaits.1).length : Int)
      ≤ (1 : Int32).toInt + (signalers 0 initWaits.1).length := by
  have hr₀ : Run next smallMachine initRuns.1 initRuns.2 := run_get _
  have hr : Run next initStarts initWaits.1 initWaits.2 := run_get _
  have hinit : initRuns.2.next (.call 0 (.semInitialize 1)) = some initStarts :=
    (Option.some_get _).symm
  obtain ⟨hb, hle, -⟩ := passes_le (i := 0) boot_smallMachine hr₀ (by decide) (by decide +kernel)
    hinit hr (by decide +kernel)
  have harr : arrivals 0 initWaits.1 = [0] := by decide +kernel
  refine ⟨by decide +kernel, by decide +kernel, harr, ?_, hle⟩
  -- it arrived, and no signal popped it
  by_contra hw
  have h0 := hb 0
  rw [harr, if_neg fun h => hw h.1] at h0
  revert h0
  decide +kernel

/-! ## No lost waiter -/

/-- The step does not run semaphore `i` out of its ranges: an initial
count is not negative, a thread that has to sleep finds room in the
queue, and a signal finds the count below the largest `int`. -/
def InRange (i : SemIdx) (k : Kernel ncpu) (a : Act ncpu) : Prop :=
  (∀ n ∈ a.initCount, (k.sysSemInitialize n.toInt).1 = some i → 0 ≤ n.toInt) ∧
  ∀ p ∈ k.entering a,
    (k.pc p = .waitChecked i → (k.sem i).count ≤ 0 → (k.sem i).queue.isFull = false) ∧
    (k.pc p = .signalChecked i → (k.sem i).count < intMax)

-- Deciding the first part over the finite type would try every `Int32`.
instance (i : SemIdx) (k : Kernel ncpu) (a : Act ncpu) : Decidable (InRange i k a) :=
  @instDecidableAnd _ _ (Option.decidableForallMem _) inferInstance

/-- The queue of semaphore `i` is exactly who waits on it, the count says
how many, and the queue is the part of the arrivals not yet popped. -/
structure QueueInv (i : SemIdx) (tr : List (Kernel ncpu × Act ncpu)) (k : Kernel ncpu) :
    Prop where
  unused : (k.sem i).state = .unused → (k.sem i).queue.toList = [] ∧
    ∀ p, k.pc p ≠ .waitChecked i ∧ k.pc p ≠ .signalChecked i
  waiting : ∀ p, k.pc p = .waiting i ↔ p ∈ (k.sem i).queue.toList
  count : ((k.sem i).queue.toList.length : Int) = max 0 (-(k.sem i).count)
  count_le : (k.sem i).count ≤ intMax
  order : (signalled i tr).filterMap id ++ (k.sem i).queue.toList = arrivals i tr

theorem queueInv_boot (h : Boot k) (i : SemIdx) : QueueInv i [] k := by
  have hq : (k.sem i).queue.toList = [] := by rw [h.sem i]; rfl
  have hc : (k.sem i).count = 0 := by rw [h.sem i]
  refine ⟨fun _ => ⟨hq, fun p => ?_⟩, fun p => ?_, ?_, ?_, ?_⟩
  · rw [h.pc p]
    exact ⟨by simp, by simp⟩
  · rw [h.pc p, hq]
    simp
  · rw [hq, hc]
    rfl
  · rw [hc]
    decide
  · rw [hq]
    rfl

/-- Where the two critical sections leave a process. -/
theorem semWaitEnter_pc (k : Kernel ncpu) (c : Fin ncpu) (p q : ProcIdx) (i : SemIdx) :
    (k.semWaitEnter c p i).pc q = k.pc q ∨ (k.semWaitEnter c p i).pc q = .outside ∨
      (k.semWaitEnter c p i).pc q = .waiting i := by
  unfold semWaitEnter
  simp only
  split
  · rw [semSleep_pc]
    split
    · exact .inr (.inr rfl)
    · exact .inl rfl
  · rw [setPc_pc]
    split
    · exact .inr (.inl rfl)
    · exact .inl rfl

theorem semSignalEnter_pc (k : Kernel ncpu) (p q : ProcIdx) (i : SemIdx) :
    (k.semSignalEnter p i).pc q = k.pc q ∨ (k.semSignalEnter p i).pc q = .outside := by
  have h1 : ∀ k1 : Kernel ncpu, (k1.semWakeup i).pc q = k1.pc q ∨
      (k1.semWakeup i).pc q = .outside := by
    intro k1
    unfold semWakeup
    simp only
    cases (k1.sem i).queue.popFront.1 with
    | none => exact .inl rfl
    | some w =>
      simp only [semWake]
      rw [setPc_pc]
      split
      · exact .inr rfl
      · exact .inl rfl
  rcases h1 ((k.setSem i fun s => { s with count := toI32 (s.count + 1) }).setPc p .outside)
    with h | h
  · rw [setPc_pc] at h
    split at h
    · exact .inr h
    · exact .inl h
  · exact .inr h

/-- A thread reaches the second half of a call only on a semaphore in use. -/
theorem checked_step {pc : Pc} (hpc : pc = .waitChecked i ∨ pc = .signalChecked i)
    (h : k.next a = some k') (hp : k'.pc p = pc) : k.pc p = pc ∨ (k.sem i).state ≠ .unused := by
  -- the lock-free test of both functions
  have htest : ∀ j q (pc' : Pc), (pc' = .waitChecked j ∨ pc' = .signalChecked j) →
      (if (k.sem j).state = .unused then k else k.setPc q pc').pc p = pc →
      k.pc p = pc ∨ (k.sem i).state ≠ .unused := by
    intro j q pc' hpc' ht
    split at ht
    · exact .inl ht
    rename_i hu
    rw [setPc_pc] at ht
    split at ht
    · right
      subst ht
      rcases hpc with h1 | h1 <;> rcases hpc' with h2 | h2 <;> rw [h1] at h2 <;> cases h2 <;>
        exact hu
    · exact .inl ht
  cases stepped_of_next h with
  | schedule c q _ _ hs =>
    unfold scheduler at hs
    split at hs
    · cases hs
    · cases hs
      exact .inl hp
  | wakeup chan hk =>
    rw [hk] at hp
    exact .inl hp
  | call c q op _ _ hperf =>
    cases performed hperf with
    | quiet _ hq => exact .inl (hq.pc ▸ hp)
    | leave _ k1 st hq _ hk =>
      rw [hk, schedOut_pc, hq.pc] at hp
      exact .inl hp
    | semInitialize n hk =>
      rw [hk, sysSemInitialize_pc] at hp
      exact .inl hp
    | semWait j hk =>
      rw [hk] at hp
      exact htest j q (.waitChecked j) (.inl rfl) hp
    | semSignal j hk =>
      rw [hk] at hp
      exact htest j q (.signalChecked j) (.inr rfl) hp
    | semFree j hk =>
      rw [hk] at hp
      exact .inl hp
  | waitEnter c q j _ _ hk =>
    rw [hk] at hp
    rcases semWaitEnter_pc k c q p j with h1 | h1 | h1 <;> rw [h1] at hp
    · exact .inl hp
    · rcases hpc with h2 | h2 <;> rw [h2] at hp <;> cases hp
    · rcases hpc with h2 | h2 <;> rw [h2] at hp <;> cases hp
  | signalEnter c q j _ _ hk =>
    rw [hk] at hp
    rcases semSignalEnter_pc k q p j with h1 | h1 <;> rw [h1] at hp
    · exact .inl hp
    · rcases hpc with h2 | h2 <;> rw [h2] at hp <;> cases hp

/-- The condition, for the event the step is. -/
theorem InRange.of_event (h : InRange i k a) :
    (∀ p, semEvent i k a = some (.block p) → (k.sem i).queue.isFull = false) ∧
    (∀ p w, semEvent i k a = some (.signal p w) → (k.sem i).count < intMax) := by
  unfold semEvent
  cases he : k.entering a with
  | none => exact ⟨by simp, by simp⟩
  | some q =>
    obtain ⟨hw, hs⟩ := h.2 q he
    simp only [Option.bind_some]
    unfold semEventOf
    constructor
    · intro p hev
      split at hev
      · next hpc =>
        split at hev
        · next hle => exact hw hpc hle
        · cases hev
      · split at hev <;> cases hev
    · intro p w hev
      split at hev
      · split at hev <;> cases hev
      · split at hev
        · next hpc => exact hs hpc
        · cases hev

/-- No event happens on a semaphore nobody has tested. -/
theorem semEvent_eq_none (h : ∀ p, k.pc p ≠ .waitChecked i ∧ k.pc p ≠ .signalChecked i)
    (a : Act ncpu) : semEvent i k a = none := by
  unfold semEvent
  cases k.entering a with
  | none => rfl
  | some q => simp [semEventOf, (h q).1, (h q).2]

/-- An entry not in use stays empty and untested until it is handed out. -/
theorem QueueInv.unused_step (h : QueueInv i tr k) (hnext : k.next a = some k')
    (hst : SemStep i k k' (semEvent i k a)) (hu : (k'.sem i).state = .unused) :
    (k'.sem i).queue.toList = [] ∧ ∀ p, k'.pc p ≠ .waitChecked i ∧ k'.pc p ≠ .signalChecked i := by
  rw [hst.state] at hu
  obtain ⟨hq, hno⟩ := h.unused hu
  rw [semEvent_eq_none hno] at hst
  cases hst with
  | other hsem _ =>
    refine ⟨by rw [hsem, hq], fun p => ⟨fun hp => ?_, fun hp => ?_⟩⟩
    · rcases checked_step (.inl rfl) hnext hp with h1 | h1
      · exact (hno p).1 h1
      · exact h1 hu
    · rcases checked_step (.inr rfl) hnext hp with h1 | h1
      · exact (hno p).2 h1
      · exact h1 hu

theorem queueInv_step (hi : SchedInv k) (h : QueueInv i tr k) (hn : ¬ Inits i k a)
    (hf : ¬ a.frees i) (hr : InRange i k a) (hnext : k.next a = some k') :
    QueueInv i (tr ++ [(k, a)]) k' := by
  have hst := semStep hi hn hf hnext
  have hun := h.unused_step hnext hst
  obtain ⟨hroom, hmax⟩ := hr.of_event
  have hcnt := h.count
  have hle := h.count_le
  have harr := arrivals_snoc i tr k a
  have hsig := signalled_snoc i tr k a
  -- the queue of an entry that sees an event is well formed
  have hwf : semEvent i k a ≠ none → (k.sem i).queue.Wf := by
    intro hev
    apply hi.usedWf i
    cases hu : (k.sem i).state with
    | used => rfl
    | unused => exact absurd (semEvent_eq_none (h.unused hu).2 a) hev
  generalize semEvent i k a = e at hst hroom hmax harr hsig hwf
  cases hst with
  | other hsem hw =>
    simp only [Option.bind_none, Option.toList_none, List.append_nil] at harr hsig
    refine ⟨hun, fun q => ?_, ?_, ?_, ?_⟩
    · rw [hw q, hsem]; exact h.waiting q
    · rw [hsem]; exact hcnt
    · rw [hsem]; exact hle
    · rw [hsem, harr, hsig]; exact h.order
  | pass p hc hsem hw =>
    simp only [Option.bind_some, SemEvent.arrival, SemEvent.popped, Option.toList_none,
      List.append_nil] at harr hsig
    have hdec : toI32 ((k.sem i).count - 1) = (k.sem i).count - 1 :=
      toI32_of_range (by omega) (by simp only [intMax] at hle; omega)
    refine ⟨hun, fun q => ?_, ?_, ?_, ?_⟩
    · rw [hw q, hsem]; exact h.waiting q
    · rw [hsem, hdec]
      simp only
      omega
    · rw [hsem, hdec]
      simp only
      omega
    · rw [hsem, harr, hsig]; exact h.order
  | block p hc hsem hpw hw =>
    have hwf := hwf (by simp)
    have hfree := hroom p rfl
    have hpush := Queue.toList_pushBack hwf hfree p
    have hlen := Queue.length_toList_le hwf
    simp only [Option.bind_some, SemEvent.arrival, SemEvent.popped, Option.toList_some,
      Option.toList_none, List.append_nil] at harr hsig
    have hdec : toI32 ((k.sem i).count - 1) = (k.sem i).count - 1 :=
      toI32_of_range (by simp only [maxq] at hlen; omega) (by omega)
    refine ⟨hun, fun q => ?_, ?_, ?_, ?_⟩
    · rw [hw q, hsem]
      simp only [hpush, List.mem_append, List.mem_singleton, h.waiting q]
      exact or_comm
    · rw [hsem, hdec]
      simp only [hpush, List.length_append, List.length_singleton]
      omega
    · rw [hsem, hdec]
      simp only
      omega
    · rw [hsem, harr, hsig]
      simp only [hpush]
      rw [← List.append_assoc, h.order]
  | signal p hl hsem hw _ =>
    have hlt := hmax p none rfl
    simp only [Option.bind_some, SemEvent.arrival, SemEvent.popped, Option.toList_some,
      Option.toList_none, List.append_nil] at harr hsig
    rw [hl, List.length_nil] at hcnt
    have hinc : toI32 ((k.sem i).count + 1) = (k.sem i).count + 1 :=
      toI32_of_range (by omega) (by simp only [intMax] at hlt; omega)
    refine ⟨hun, fun q => ?_, ?_, ?_, ?_⟩
    · rw [hw q, hsem]; exact h.waiting q
    · rw [hsem, hinc]
      simp only [hl, List.length_nil]
      omega
    · rw [hsem, hinc]
      simp only
      omega
    · rw [hsem, harr, hsig, List.filterMap_append]
      simpa using h.order
  | wake p w rest hl hsem hw _ =>
    have hwf := hwf (by simp)
    have hlt := hmax p (some w) rfl
    have hlen := Queue.length_toList_le hwf
    obtain ⟨-, -, hrest⟩ := Queue.popFront_cons hwf hl
    have hnd := hi.nodup i
    rw [hl, List.nodup_cons] at hnd
    rw [hl, List.length_cons] at hcnt hlen
    simp only [Option.bind_some, SemEvent.arrival, SemEvent.popped, Option.toList_some,
      Option.toList_none, List.append_nil] at harr hsig
    have hinc : toI32 ((k.sem i).count + 1) = (k.sem i).count + 1 :=
      toI32_of_range (by simp only [maxq] at hlen; omega) (by omega)
    refine ⟨hun, fun q => ?_, ?_, ?_, ?_⟩
    · rw [hw q, hsem]
      simp only [hrest, h.waiting q, hl, List.mem_cons]
      constructor
      · rintro ⟨hqw, hq | hq⟩
        · exact absurd hq hqw
        · exact hq
      · intro hq
        exact ⟨fun hqw => hnd.1 (hqw ▸ hq), .inr hq⟩
    · rw [hsem, hinc]
      simp only [hrest]
      omega
    · rw [hsem, hinc]
      simp only
      omega
    · rw [hsem, harr, hsig, List.filterMap_append]
      simp only [hrest]
      rw [← h.order, hl]
      simp

theorem queueInv_init (h : QueueInv i tr k) (hn : Inits i k a) (hr : InRange i k a)
    (hnext : k.next a = some k') : QueueInv i (tr ++ [(k, a)]) k' := by
  obtain ⟨n, hna, hret⟩ := hn
  have h0 : 0 ≤ n.toInt := hr.1 n hna hret
  have hlt := Int32.toInt_lt n
  rcases sysSemInitialize_cases k n.toInt i with ⟨-, hu, hsem⟩ | ⟨hne, -⟩
  · obtain ⟨hk, hev⟩ := next_semInitialize hna hnext
    rw [← hk] at hsem
    obtain ⟨hq, -⟩ := h.unused hu
    have hord := h.order
    rw [hq] at hord
    refine ⟨fun hu' => ?_, fun q => ?_, ?_, ?_, ?_⟩
    · rw [hsem] at hu'
      cases hu'
    · rw [hk, sysSemInitialize_pc, ← hk, h.waiting q, hsem, hq]
      rfl
    · rw [hsem]
      simp only [semInit, Queue.toList_init, List.length_nil]
      omega
    · rw [hsem]
      simp only [semInit, intMax]
      omega
    · rw [hsem, arrivals_snoc, signalled_snoc, hev]
      simpa [semInit] using hord
  · exact absurd hret hne

theorem queueInv_run {k₀ : Kernel ncpu} (h0 : Boot k₀) (hr : Run next k₀ tr k)
    (hfree : Meets (fun _ a => ¬ a.frees i) tr) (hok : Meets (InRange i) tr) :
    SchedInv k ∧ QueueInv i tr k := by
  refine hr.history (I := fun tr k => SchedInv k ∧ QueueInv i tr k)
    ⟨schedInv_boot h0, queueInv_boot h0 i⟩ ?_ (hfree.and hok)
  rintro tr s a s' - ⟨hi, hq⟩ ⟨hf, hin⟩ hs
  refine ⟨schedInv_step hi hs, ?_⟩
  by_cases hn : Inits i s a
  · exact queueInv_init hq hn hin hs
  · exact queueInv_step hi hq hn hf hin hs

/-- Whatever happens next, the signals pop the queue from its front: it
is a first part of what they pop followed by what is left. No bound on
the queue or the count is needed for that. -/
theorem queue_isPrefix_signalled (hi : SchedInv k) (hs : (k.sem i).state = .used)
    (hr : Run next k tr k') (hfree : Meets (fun _ a => ¬ a.frees i) tr) :
    (k.sem i).queue.toList.map some <+:
      signalled i tr ++ (k'.sem i).queue.toList.map some := by
  have hinv : SchedInv k' ∧ (k'.sem i).state = .used ∧
      (k.sem i).queue.toList.map some <+:
        signalled i tr ++ (k'.sem i).queue.toList.map some := by
    refine hr.history (I := fun tr k' => SchedInv k' ∧ (k'.sem i).state = .used ∧
      (k.sem i).queue.toList.map some <+: signalled i tr ++ (k'.sem i).queue.toList.map some)
      ⟨hi, hs, ?_⟩ ?_ hfree
    · exact List.prefix_refl _
    · rintro tr s a s' - ⟨hi, hs, hpre⟩ hf hnext
      have hst := semStep hi (not_inits_of_used hs a) hf hnext
      refine ⟨schedInv_step hi hnext, by rw [hst.state, hs], ?_⟩
      have hwf := hi.usedWf i hs
      rw [signalled_snoc]
      generalize semEvent i s a = e at hst
      cases hst with
      | other hsem _ =>
        rw [hsem]
        simpa using hpre
      | pass p _ hsem _ =>
        rw [hsem]
        simpa [SemEvent.popped] using hpre
      | block p _ hsem _ _ =>
        rw [hsem]
        cases hfull : (s.sem i).queue.isFull with
        | true => simpa [SemEvent.popped, Queue.pushBack_full hfull] using hpre
        | false =>
          simp only [Option.bind_some, SemEvent.popped, Option.toList_none, List.append_nil,
            Queue.toList_pushBack hwf hfull, List.map_append]
          rw [← List.append_assoc]
          exact hpre.trans (List.prefix_append _ _)
      | signal p hl hsem _ _ =>
        rw [hsem]
        rw [hl] at hpre
        simp only [Option.bind_some, SemEvent.popped, Option.toList_some, hl, List.map_nil,
          List.append_nil] at hpre ⊢
        exact hpre.trans (List.prefix_append _ _)
      | wake p w rest hl hsem _ _ =>
        obtain ⟨-, -, hrest⟩ := Queue.popFront_cons hwf hl
        rw [hsem]
        rw [hl] at hpre
        simpa [SemEvent.popped, hrest] using hpre
  exact hinv.2.2

/-- Who a signal makes runnable: the process it popped, and nobody else. -/
theorem signal_state {woken : Option ProcIdx} (hi : SchedInv k) (hn : ¬ Inits i k a)
    (hf : ¬ a.frees i) (hnext : k.next a = some k')
    (hev : semEvent i k a = some (.signal p woken)) (q : ProcIdx) :
    (k'.proc q).state = if woken = some q then .runnable else (k.proc q).state := by
  have hst := semStep hi hn hf hnext
  rw [hev] at hst
  cases hst with
  | signal _ _ _ _ hstate => simp [hstate q]
  | wake _ w rest _ _ _ hstate => simp [hstate q, eq_comm]

/-- Processes asleep in `sem_wait` on semaphore `i`. -/
def blocked (i : SemIdx) (k : Kernel ncpu) : Finset ProcIdx :=
  Finset.univ.filter fun p => (k.proc p).state = .semSleeping ∧ k.pc p = .waiting i

/-- **No waiter is lost** on a semaphore that is not freed, as long as
every step stays in range. The threads asleep on it are `-count` many and
are its queue, in order of arrival; the next `-count` signals of any
continuation pop exactly these, first come first served, and a signal
makes the process it popped runnable and changes no other. -/
theorem no_waiter_lost {k₀ k : Kernel ncpu} {tr : List (Kernel ncpu × Act ncpu)} {i : SemIdx}
    (h0 : Boot k₀) (hr : Run next k₀ tr k) (hfree : Meets (fun _ a => ¬ a.frees i) tr)
    (hok : Meets (InRange i) tr) :
    ((blocked i k).card : Int) = max 0 (-(k.sem i).count) ∧
    (∀ p, p ∈ blocked i k ↔ p ∈ (k.sem i).queue.toList) ∧
    (k.sem i).queue.toList.Nodup ∧
    (signalled i tr).filterMap id ++ (k.sem i).queue.toList = arrivals i tr ∧
    (∀ tr' k', Run next k tr' k' → Meets (fun _ a => ¬ a.frees i) tr' →
      (-(k.sem i).count).toNat ≤ (signalled i tr').length →
      (signalled i tr').take (-(k.sem i).count).toNat = (k.sem i).queue.toList.map some) ∧
    (∀ a k' p woken, ¬ a.frees i → k.next a = some k' →
      semEvent i k a = some (.signal p woken) →
      ∀ q, (k'.proc q).state = if woken = some q then .runnable else (k.proc q).state) := by
  obtain ⟨hi, hq⟩ := queueInv_run h0 hr hfree hok
  have hmem : ∀ p, p ∈ blocked i k ↔ p ∈ (k.sem i).queue.toList := by
    intro p
    rw [← hq.waiting p]
    simp only [blocked, Finset.mem_filter, Finset.mem_univ, true_and]
    exact ⟨fun h => h.2, fun h => ⟨(hi.sleeper p).mpr ⟨i, h⟩, h⟩⟩
  have hcard : (blocked i k).card = (k.sem i).queue.toList.length := by
    rw [← List.toFinset_card_of_nodup (hi.nodup i)]
    congr 1
    ext p
    rw [hmem p, List.mem_toFinset]
  have hlen : (k.sem i).queue.toList.length = (-(k.sem i).count).toNat := by
    have := hq.count
    omega
  refine ⟨by rw [hcard, hq.count], hmem, hi.nodup i, hq.order, ?_, ?_⟩
  · intro tr' k' hr' hfree' hle
    rw [← hlen] at hle ⊢
    cases hs : (k.sem i).state with
    | unused => simp [(hq.unused hs).1]
    | used =>
      -- both lists are first parts of one list, and the queue is the shorter one
      have hpre := List.prefix_of_prefix_length_le
        (queue_isPrefix_signalled hi hs hr' hfree') (List.prefix_append _ _)
        (by rw [List.length_map]; exact hle)
      have := List.prefix_iff_eq_take.mp hpre
      rw [List.length_map] at this
      exact this.symm
  · intro a k' p woken hf hnext hev
    refine signal_state hi ?_ hf hnext hev
    cases hs : (k.sem i).state with
    | used => exact not_inits_of_used hs a
    | unused =>
      rw [semEvent_eq_none (hq.unused hs).2 a] at hev
      cases hev

theorem no_waiter_lost_initSleeps : (initSleeps.2.sem 0).count = -1 ∧
    ((blocked 0 initSleeps.2).card : Int) = max 0 (-(initSleeps.2.sem 0).count) := by
  have hr : Run next smallMachine initSleeps.1 initSleeps.2 := run_get _
  exact ⟨by decide +kernel,
    (no_waiter_lost boot_smallMachine hr (by decide +kernel) (by decide +kernel)).1⟩

/-- `initproc` starts a semaphore with count -1. -/
def negativeCount : List (Kernel 2 × Act 2) × Kernel 2 :=
  (follow next smallMachine [.schedule 0 0, .call 0 (.semInitialize (-1))]).get (by decide +kernel)

/-- One round of a thread: run, and wait on semaphore 0. -/
def waitRound (p : ProcIdx) : List (Act 1) :=
  [.schedule 0 p, .call 0 (.semWait 0), .enter 0]

/-- `initproc` starts a semaphore with count 0 and seven threads, and all
eight wait on it. -/
def eightWait : List (Kernel 1 × Act 1) × Kernel 1 :=
  (follow next threadMachine
    ([.schedule 0 0, .call 0 (.semInitialize 0)]
      ++ List.replicate 7 (.call 0 (.ktCreate pgsize 0)) ++ [.call 0 (.semWait 0), .enter 0]
      ++ ([1, 2, 3, 4, 5, 6, 7].map waitRound).flatten)).get (by decide +kernel)

/-- A negative count is accepted and says that a thread waits when none
does; and the EIGHTH waiter is in no queue, so that no signal wakes it. -/
theorem waiter_lost :
    (Boot smallMachine ∧ Run next smallMachine negativeCount.1 negativeCount.2 ∧
      ((blocked 0 negativeCount.2).card : Int) ≠ max 0 (-(negativeCount.2.sem 0).count)) ∧
    (Boot threadMachine ∧ Run next threadMachine eightWait.1 eightWait.2 ∧
      Meets (fun _ a => ¬ a.frees 0) eightWait.1 ∧
      7 ∈ blocked 0 eightWait.2 ∧ 7 ∉ (eightWait.2.sem 0).queue.toList) := by
  refine ⟨⟨boot_smallMachine, run_get _, ?_⟩,
    boot_threadMachine, run_get _, ?_⟩
  · decide +kernel
  · decide +kernel

end Kernel

end Xv6.Kern
