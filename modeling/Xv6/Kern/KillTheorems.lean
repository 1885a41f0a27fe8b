/-
Xv6.Kern.KillTheorems — whom `kill` reaches.

`kill` marks the FIRST entry that holds the pid, whatever its state, and
wakes it only from `SLEEPING`. Entries keep pids while they are `UNUSED`
(0 from the start and after a reaping, the pid of a `fork` that failed),
and all threads of a process hold the same one.

`KillContract` is what one expects of `kill(pid)`; `kill_addresses` says
in exactly which tables it holds (`KillExact`), and that in runs whose
`kill`s all find such a table no `UNUSED` entry is ever marked, so that
no new process starts out killed. Where a `kill` may come between
`allocproc` and the end of a `fork`, it must not mark an `EMBRYO` entry
either: a `fork` that fails hands the entry back with its mark.
-/
import Xv6.Kern.FamilyTheorems

namespace Xv6.Kern

open Xv6.Lib Xv6.Mem

variable {ncpu : Nat} (k : Kernel ncpu)

/-- `SLEEPING` or `SEM_SLEEPING`. -/
def ProcState.asleep : ProcState → Bool
  | .sleeping | .semSleeping => true
  | _ => false

namespace Kernel

/-- Entry `p` is in use and holds `pid`. -/
def Named (pid : Int) (p : ProcIdx) : Prop :=
  (k.proc p).state ≠ .unused ∧ (k.proc p).pid = pid
  deriving Decidable

/-- `kill(pid)` addresses exactly the process named: it returns 0 if and
only if some entry in use holds the pid; then all of them are marked and
awake and every other entry is as it was; otherwise it returns -1 and the
table is as it was. -/
structure KillContract (k : Kernel ncpu) (pid : Int) : Prop where
  found : (k.kill pid).1 = 0 ↔ ∃ p, k.Named pid p
  marked : (k.kill pid).1 = 0 → ∀ p, k.Named pid p →
    ((k.kill pid).2.proc p).killed = true ∧ ((k.kill pid).2.proc p).state.asleep = false
  others : (k.kill pid).1 = 0 → ∀ p, ¬ k.Named pid p → (k.kill pid).2.proc p = k.proc p
  missing : (k.kill pid).1 ≠ 0 → (k.kill pid).1 = -1 ∧ (k.kill pid).2.proc = k.proc

/-- The first entry that holds `pid`. -/
def firstWithPid (pid : Int) : Option ProcIdx :=
  entries.find? fun p => (k.proc p).pid = pid

/-- If some entry holds `pid`: the first one is in use (or it is `UNUSED`,
already marked, and another one is in use) and not `SEM_SLEEPING`, and
every other one in use is already marked and awake. -/
def KillExact (pid : Int) : Prop :=
  ∀ p ∈ k.firstWithPid pid,
    ((k.proc p).state = .unused → (k.proc p).killed = true ∧ ∃ q, k.Named pid q) ∧
    (k.proc p).state ≠ .semSleeping ∧
    ∀ q, q ≠ p → k.Named pid q → (k.proc q).killed = true ∧ (k.proc q).state.asleep = false
  deriving Decidable

/-- The mark of `kill` on the entry it found. -/
def killed (q : Proc) : Proc :=
  { q with killed := true, state := if q.state = .sleeping then .runnable else q.state }

section
variable {k : Kernel ncpu} {pid : Int} {p q : ProcIdx}

theorem pid_of_firstWithPid (h : k.firstWithPid pid = some p) : (k.proc p).pid = pid := by
  simpa using List.find?_some h

theorem not_named_of_firstWithPid (h : k.firstWithPid pid = none) (q : ProcIdx) :
    (k.proc q).pid ≠ pid := by
  simpa using List.find?_eq_none.mp h q (List.mem_finRange q)

theorem kill_none (h : k.firstWithPid pid = none) : k.kill pid = (-1, k) := by
  rw [firstWithPid] at h
  simp only [kill, h]

theorem kill_some (h : k.firstWithPid pid = some p) : k.kill pid = (0, k.setProc p killed) := by
  rw [firstWithPid] at h
  simp only [kill, h]
  rfl

/-- The entry found is left asleep exactly if it was `SEM_SLEEPING`. -/
theorem killed_asleep (q : Proc) :
    (killed q).state.asleep = true ↔ q.state = .semSleeping := by
  cases h : q.state <;> simp [killed, h, ProcState.asleep]

/-- An `UNUSED` entry that is marked already is not changed by the mark. -/
theorem killed_eq_self {q : Proc} (hu : q.state = .unused) : killed q = q ↔ q.killed = true := by
  constructor
  · intro h
    rw [← h]
    rfl
  · intro h
    simp only [killed, hu, reduceCtorEq, if_false]
    rw [← h, ← hu]

theorem KillContract.exact (h : KillContract k pid) : KillExact k pid := by
  intro p hp
  have hkill := kill_some hp
  have hpid := pid_of_firstWithPid hp
  obtain ⟨hfound, hmarked, hothers, -⟩ := h
  rw [hkill] at hfound hmarked hothers
  refine ⟨?_, ?_, ?_⟩
  · intro hu
    have hself := hothers rfl p (fun hn => hn.1 hu)
    rw [setProc_proc_self] at hself
    exact ⟨(killed_eq_self hu).mp hself, hfound.mp rfl⟩
  · intro hs
    have hnamed : k.Named pid p := ⟨by simp [hs], hpid⟩
    have hawake := (hmarked rfl p hnamed).2
    rw [setProc_proc_self] at hawake
    simp [(killed_asleep _).mpr hs] at hawake
  · intro q hq hn
    simpa [setProc_proc, hq] using hmarked rfl q hn

theorem KillExact.contract (h : KillExact k pid) : KillContract k pid := by
  cases hp : k.firstWithPid pid with
  | none =>
    have hnone : ∀ p, ¬ k.Named pid p := fun p hn => not_named_of_firstWithPid hp p hn.2
    constructor <;> simp [kill_none hp, hnone]
  | some p =>
    obtain ⟨hunused, hsem, hrest⟩ := h p hp
    have hpid := pid_of_firstWithPid hp
    have hawake : (killed (k.proc p)).state.asleep = false := by
      by_contra hs
      exact hsem ((killed_asleep _).mp (by simpa using hs))
    constructor
    · simp only [kill_some hp, true_iff]
      by_cases hu : (k.proc p).state = .unused
      · exact (hunused hu).2
      · exact ⟨p, hu, hpid⟩
    · intro _ q hn
      rw [kill_some hp]
      by_cases hq : q = p
      · subst hq
        rw [setProc_proc_self]
        exact ⟨rfl, hawake⟩
      · simpa [setProc_proc, hq] using hrest q hq hn
    · intro _ q hn
      rw [kill_some hp]
      by_cases hq : q = p
      · subst hq
        have hu : (k.proc q).state = .unused := by
          by_contra hu
          exact hn ⟨hu, hpid⟩
        rw [setProc_proc_self]
        exact (killed_eq_self hu).mpr (hunused hu).1
      · simp [setProc_proc, hq]
    · simp [kill_some hp]

end

/-! ## Runs -/

/-- No entry that may be handed out is marked. -/
def FreshUnmarked : Prop :=
  ∀ p, (k.roster p).state = .unused → (k.roster p).killed = false

/-- The pid a `kill` is called with. -/
def killTarget : Act ncpu → Option Int
  | .call _ (.kill pid) => some pid
  | _ => none

/-- The table a `kill` finds is one it addresses exactly. -/
def KillsExactly (a : Act ncpu) : Prop :=
  ∀ pid ∈ killTarget a, k.KillExact pid
  deriving Decidable

/-- An entry that becomes or stays `UNUSED` is not marked. -/
theorem FreshUnmarked.update {k k' : Kernel ncpu} {p : ProcIdx} {e : Entry} (h : FreshUnmarked k)
    (hr : k'.roster = Function.update k.roster p e) (he : e.state = .unused → e.killed = false) :
    FreshUnmarked k' := by
  intro q hq
  rw [hr] at hq ⊢
  by_cases hqp : q = p
  · rw [hqp, Function.update_self] at hq ⊢
    exact he hq
  · rw [Function.update_of_ne hqp] at hq ⊢
    exact h q hq

theorem FreshUnmarked.step {k k' : Kernel ncpu} {a : Act ncpu} (h : FreshUnmarked k)
    (hi : SchedInv k) (hok : k.KillsExactly a) (hn : k.next a = some k') : FreshUnmarked k' := by
  cases recorded hi hn with
  | kept a hk =>
    intro q hq
    rw [(hk.entry q).killed]
    apply h q
    rw [← ProcState.life_eq_none, ← (hk.entry q).life, hq]
    rfl
  | kill c pid hk =>
    cases hp : k.firstWithPid pid with
    | none =>
      rw [hk, kill_none hp]
      exact h
    | some p =>
      rw [hk, kill_some hp]
      refine h.update (setProc_roster k p killed) fun hu => ?_
      -- The entry found cannot be `UNUSED`: it would be marked already.
      have hu' : (k.proc p).state = .unused := by
        cases hst : (k.proc p).state <;> simp [Proc.entry, killed, hst] at hu ⊢
      have hm := ((hok pid rfl p hp).1 hu').1
      have hf : (k.proc p).killed = false := h p hu'
      simp [hm] at hf
  | exit c p k₁ _ _ hw hk =>
    intro q hq
    rw [hk] at hq ⊢
    obtain ⟨-, -, hkilled, hlife⟩ := exitFinish_entry hw c p q
    rw [hq] at hlife
    split at hlife
    · cases hlife
    · rw [hkilled]
      exact h q (ProcState.life_eq_none.mp hlife.symm)
  | reap c p z op _ _ _ hr _ => exact h.update hr fun _ => rfl
  | forkFailed c np hu hr _ => exact h.update hr fun hu => h np hu
  | fork c p np _ _ hr _ => exact h.update hr fun hu => by cases hu
  | spawn c p nt fnc arg st _ _ hst hr _ =>
    refine h.update hr fun hu => ?_
    rcases hst with rfl | rfl <;> cases hu

theorem freshUnmarked_boot {k : Kernel ncpu} (h : Boot k) : FreshUnmarked k := by
  intro p hp
  by_cases hi : p = initproc
  · rw [hi] at hp
    cases hp.symm.trans h.init
  · show (k.proc p).killed = false
    rw [h.rest p hi]

theorem freshUnmarked_run {k₀ k : Kernel ncpu} {tr : List (Kernel ncpu × Act ncpu)}
    (h0 : Boot k₀) (hr : Run next k₀ tr k) (hok : Meets KillsExactly tr) : FreshUnmarked k :=
  hr.history (I := fun _ k => FreshUnmarked k) (freshUnmarked_boot h0)
    (fun _ _ _ _ hr h hok hn => h.step (schedInv_run h0 hr) hok hn) hok

end Kernel

namespace Family

open Kernel

/-- A `kill` finds a table it addresses exactly, and marks no `EMBRYO`
entry. -/
def KillsGrown (s : Family ncpu) : Move ncpu → Prop
  | .kern a => s.k.KillsExactly a ∧ ∀ p ∈ marked (s, .kern a), (s.k.proc p).state ≠ .embryo
  | .run .. => True

instance decidableKillsGrown (s : Family ncpu) : DecidablePred s.KillsGrown
  | .kern _ => inferInstanceAs (Decidable (_ ∧ _))
  | .run .. => .isTrue trivial

/-- No `UNUSED` or `EMBRYO` entry is marked. -/
def Unmarked (s : Family ncpu) : Prop :=
  ∀ p, young (s.k.roster p) = true → (s.k.roster p).killed = false

theorem marked_eq_some {e : Family ncpu × Move ncpu} {p : ProcIdx} (h : marked e = some p) :
    ∃ c pid, e.2 = .kern (.call c (.kill pid)) ∧ e.1.k.firstWithPid pid = some p := by
  unfold marked at h
  split at h
  · exact ⟨_, _, rfl, h⟩
  · cases h

theorem Unmarked.step {s s' : Family ncpu} {m : Move ncpu} (h : Unmarked s) (ht : Turn s m s')
    (hok : s.KillsGrown m) : Unmarked s' := by
  intro p hp
  rcases ht.young p hp with hy | hf
  · have hf := h p hy
    by_contra hk
    rcases ht.killed p (by simpa using hk) with hk | hm
    · simp [hf] at hk
    · obtain ⟨c, pid, rfl, hfirst⟩ := marked_eq_some hm
      have hy' : (s.k.proc p).state = .unused ∨ (s.k.proc p).state = .embryo := by
        cases hst : (s.k.proc p).state <;>
          simp [young, roster, Proc.entry, hst, ProcState.life] at hy ⊢
      -- An `UNUSED` entry would have been marked before.
      rcases hy' with hu | he
      · have hm' : (s.k.roster p).killed = true := ((hok.1 pid rfl p hfirst).1 hu).1
        simp [hf] at hm'
      · exact hok.2 p hm he
  · exact hf

theorem unmarked_run {freelist : List Page} {k₀ : Kernel ncpu} {initcode : List UInt8}
    {root : InodeIdx} {tr : List (Family ncpu × Move ncpu)} {s : Family ncpu}
    (h0 : (cleared ncpu (Vm.kinit freelist)).userinit initcode root = .ok k₀)
    (hr : Run next (start k₀) tr s) (hok : Meets KillsGrown tr) : Unmarked s := by
  refine hr.history (I := fun _ s => Unmarked s) ?_ ?_ hok
  · intro p hp
    by_cases hi : p = initproc
    · have hinit : (k₀.roster p).state = .runnable := hi ▸ (boot_userinit h0).init
      simp [young, start, hinit, ProcState.life] at hp
    · show (k₀.proc p).killed = false
      rw [(boot_userinit h0).rest p hi]
  · exact fun _ _ _ _ hr h hok hn => h.step (turn (past_run h0 hr).kin hn) hok

end Family

namespace Kernel

open Family (pairMachine userinit_pairMachine)

/-- **Whom `kill` reaches**: in every reachable table and for every pid,
`kill` addresses exactly the process named if and only if the table is as
`KillExact` says; and in a run whose `kill`s all found such a table, no
`UNUSED` entry is marked, nor in a run of the steps of the calls in which
they also mark no `EMBRYO` entry. -/
theorem kill_addresses {k₀ k : Kernel ncpu} {tr : List (Kernel ncpu × Act ncpu)}
    (h0 : Boot k₀) (hr : Run next k₀ tr k) :
    (∀ pid, k.KillContract pid ↔ k.KillExact pid) ∧
    (Meets KillsExactly tr → ∀ p, (k.proc p).state = .unused → (k.proc p).killed = false) ∧
    (∀ freelist initcode root,
      (cleared ncpu (Vm.kinit freelist)).userinit initcode root = .ok k₀ →
      ∀ tr s, Run Family.next (Family.start k₀) tr s → Meets Family.KillsGrown tr →
      ∀ p, (s.k.proc p).state = .unused → (s.k.proc p).killed = false) := by
  refine ⟨fun _ => ⟨KillContract.exact, KillExact.contract⟩,
    fun hok => freshUnmarked_run h0 hr hok, fun freelist initcode root hu tr s hs hok p hp => ?_⟩
  exact Family.unmarked_run hu hs hok p (by simp [Family.young, roster, Proc.entry, hp,
    ProcState.life])

/-- `initproc` kills itself. -/
def initKilled : List (Kernel 1 × Act 1) × Kernel 1 :=
  (follow next pairMachine [.schedule 0 0, .call 0 (.kill 1)]).get (by decide +kernel)

/-- `initproc` loads a program, kills itself and starts a `fork`. -/
def killedForks : List (Family 1 × Move 1) × Family 1 :=
  (follow Family.next (Family.start pairMachine)
    [.kern (.schedule 0 0), .kern (.call 0 (.exec onePage)), .kern (.call 0 (.kill 1)),
      .run 0 .forkAlloc]).get (by decide +kernel)

theorem kill_addresses_initKilled :
    (initKilled.2.proc 0).killed = true ∧ initKilled.2.KillContract 1 ∧
    (initKilled.2.proc 1).killed = false ∧
    (killedForks.2.k.proc 1).state = .embryo ∧ (killedForks.2.k.proc 0).killed = true ∧
    (killedForks.2.k.proc 2).killed = false := by
  have h := kill_addresses (boot_userinit userinit_pairMachine)
    (run_get _ : Run next pairMachine initKilled.1 initKilled.2)
  have hr : Run Family.next (Family.start pairMachine) killedForks.1 killedForks.2 := run_get _
  refine ⟨by decide +kernel, (h.1 1).mpr (by decide +kernel),
    h.2.1 (by decide +kernel) 1 (by decide +kernel), by decide +kernel, by decide +kernel, ?_⟩
  exact h.2.2 _ _ _ userinit_pairMachine _ _ hr (by decide +kernel) 2 (by decide +kernel)

/-- `initproc` loads a program; nobody has pid 0. -/
def beforeKill : List (Kernel 1 × Act 1) × Kernel 1 :=
  (follow next processMachine [.schedule 0 0, .call 0 (.exec onePage)]).get (by decide +kernel)

/-- It calls `kill(0)`, then `fork`. -/
def bornKilled : List (Kernel 1 × Act 1) × Kernel 1 :=
  (follow next beforeKill.2 [.call 0 (.kill 0), .call 0 .fork]).get (by decide +kernel)

/-- `kill(0)` returns 0 although no entry in use has pid 0, and marks the
`UNUSED` entry that `fork` hands out next: the child is born killed. -/
theorem kill_marks_unused :
    Boot processMachine ∧ Run next processMachine beforeKill.1 beforeKill.2 ∧
    (beforeKill.2.kill 0).1 = 0 ∧ (∀ p, ¬ beforeKill.2.Named 0 p) ∧
    ((beforeKill.2.kill 0).2.proc 1).state = .unused ∧
    ((beforeKill.2.kill 0).2.proc 1).killed = true ∧
    Run next beforeKill.2 bornKilled.1 bornKilled.2 ∧
    (bornKilled.2.proc 1).state = .runnable ∧ (bornKilled.2.proc 1).parent = some 0 ∧
    (bornKilled.2.proc 1).killed = true := by
  refine ⟨boot_processMachine, run_get _, ?_, ?_, ?_, ?_,
    run_get _, ?_, ?_, ?_⟩ <;> decide +kernel

end Kernel

end Xv6.Kern
