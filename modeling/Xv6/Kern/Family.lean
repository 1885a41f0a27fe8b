/-
Xv6.Kern.Family — `fork`, `exit` and `wait` cut at `ptable.lock`, and the
parents and children they leave.

In `Kernel.next` a process call is one action. Here `fork` is three
(`allocproc`, filling the entry, setting it `RUNNABLE`), `exit` is two (up
to `acquire(&ptable.lock)`, and from there) and `wait` is one for each scan
of the table. `stage` says where each process is inside such a call;
between two of its actions every other CPU may act. A process in the
middle of `fork` or `exit` can be preempted, one in `exit` can also sleep
in the file system. All other calls are actions of the kernel as before.

A process that is switched back in inside `wait` holds `ptable.lock` until
its next scan; here the two are separate actions, which only adds
interleavings.

`Kin` is what every action keeps: every parent is alive, and a process
asleep in `wait` has no `ZOMBIE` child.
-/
import Xv6.Kern.Roster

namespace Xv6.Kern

open Xv6.Lib Xv6.Mem Function

variable {ncpu : Nat} {c : Fin ncpu} {k k' : Kernel ncpu} {p : ProcIdx}

/-- Where a process is inside `fork`, `exit` or `wait`. -/
inductive Stage where
  /-- In none of them. -/
  | user
  /-- In `fork`, which has the entry `np` from `allocproc`. -/
  | forking (np : ProcIdx)
  /-- In `fork`, before the critical section that makes `np` runnable. -/
  | filled (np : ProcIdx)
  /-- In `exit`, before `acquire(&ptable.lock)`. -/
  | closed
  /-- In `wait`, before its next scan. -/
  | waiting
  deriving DecidableEq

/-- The entry a `fork` is still filling. -/
def Stage.newborn : Stage → Option ProcIdx
  | .forking np => some np
  | .filled np => some np
  | _ => none

/-- The calls of `Kernel.next` a process can make at a stage. -/
def Stage.permits : Stage → Call → Bool
  | .user, .fork => false
  | .user, .exit => false
  | .user, .wait => false
  | .user, _ => true
  | .closed, .sleep (.other _) => true
  | .forking _, .yield => true
  | .filled _, .yield => true
  | .closed, .yield => true
  | _, _ => false

/-- The kernel, and where its processes are. -/
structure Family (ncpu : Nat) where
  k : Kernel ncpu
  stage : ProcIdx → Stage

/-- A critical section of `fork`, `exit` or `wait`, or what lies between
two of them. -/
inductive Section where
  | forkAlloc
  | forkFill
  | forkPublish
  | exitClose
  | exitFinish
  | waitRound
  deriving DecidableEq

/-- An action of a kernel as before, or a section by the process CPU `c`
runs. -/
inductive Move (ncpu : Nat) where
  | kern (a : Act ncpu)
  | run (c : Fin ncpu) (x : Section)

namespace Family

/-- The table after `userinit`: nobody is in a call. -/
def start (k : Kernel ncpu) : Family ncpu := ⟨k, fun _ => .user⟩

/-- The process CPU `c` runs, if it is not inside `sem_wait` or
`sem_signal`. -/
def caller (s : Family ncpu) (c : Fin ncpu) : Option ProcIdx :=
  match s.k.cpu c with
  | none => none
  | some p => if s.k.pc p = .outside then some p else none

/-- A call is one its caller can make. A process inside `sem_wait` or
`sem_signal` is in none of the three; the scheduler and a wakeup need no
caller. -/
def permits (s : Family ncpu) : Act ncpu → Bool
  | .call c op =>
    match s.k.cpu c with
    | none => false
    | some p => (s.stage p).permits op
  | .enter c =>
    match s.k.cpu c with
    | none => false
    | some p => decide (s.stage p = .user)
  | _ => true

/-- Process `p` goes to stage `st`, the kernel to `k`. -/
def goTo (s : Family ncpu) (p : ProcIdx) (st : Stage) (k : Kernel ncpu) : Family ncpu :=
  ⟨k, update s.stage p st⟩

/-- A section by process `p` on CPU `c`. -/
def act (s : Family ncpu) (c : Fin ncpu) (p : ProcIdx) : Section → Option (Family ncpu)
  | .forkAlloc =>
    if s.stage p = .user then
      match s.k.allocproc with
      | (none, k) => some (s.goTo p .user k)
      | (some np, k) => some (s.goTo p (.forking np) k)
    else none
  | .forkFill =>
    match s.stage p with
    | .forking np =>
      match s.k.forkFill p np with
      | .error _ => none
      | .ok (false, k) => some (s.goTo p .user k)
      | .ok (true, k) => some (s.goTo p (.filled np) k)
    | _ => none
  | .forkPublish =>
    match s.stage p with
    | .filled np => some (s.goTo p .user (s.k.setState np .runnable))
    | _ => none
  | .exitClose =>
    if s.stage p = .user ∧ p ≠ initproc then
      match s.k.exitClose p with
      | .error _ => none
      | .ok k => some (s.goTo p .closed k)
    else none
  | .exitFinish =>
    if s.stage p = .closed then some (s.goTo p .user (s.k.exitFinish c p)) else none
  | .waitRound =>
    if s.stage p = .user ∨ s.stage p = .waiting then
      match s.k.wait c p with
      | .error _ => none
      | .ok (none, k) => some (s.goTo p .waiting k)
      | .ok (some _, k) => some (s.goTo p .user k)
    else none

def next (s : Family ncpu) : Move ncpu → Option (Family ncpu)
  | .kern a => if s.permits a then (s.k.next a).map fun k => ⟨k, s.stage⟩ else none
  | .run c x => (s.caller c).bind fun p => s.act c p x

/-! ## What an action can be -/

/-- The sections, with their guards. -/
inductive Acted (s : Family ncpu) (c : Fin ncpu) (p : ProcIdx) : Section → Family ncpu → Prop
  | noEntry (k : Kernel ncpu) : s.stage p = .user → s.k.allocproc = (none, k) →
      Acted s c p .forkAlloc (s.goTo p .user k)
  | alloc (np : ProcIdx) (k : Kernel ncpu) : s.stage p = .user → s.k.allocproc = (some np, k) →
      Acted s c p .forkAlloc (s.goTo p (.forking np) k)
  | unfilled (np : ProcIdx) (k : Kernel ncpu) : s.stage p = .forking np →
      s.k.forkFill p np = .ok (false, k) → Acted s c p .forkFill (s.goTo p .user k)
  | fill (np : ProcIdx) (k : Kernel ncpu) : s.stage p = .forking np →
      s.k.forkFill p np = .ok (true, k) → Acted s c p .forkFill (s.goTo p (.filled np) k)
  | publish (np : ProcIdx) : s.stage p = .filled np →
      Acted s c p .forkPublish (s.goTo p .user (s.k.setState np .runnable))
  | close (k : Kernel ncpu) : s.stage p = .user → p ≠ initproc → s.k.exitClose p = .ok k →
      Acted s c p .exitClose (s.goTo p .closed k)
  | finish : s.stage p = .closed →
      Acted s c p .exitFinish (s.goTo p .user (s.k.exitFinish c p))
  | slept (k : Kernel ncpu) : s.stage p = .user ∨ s.stage p = .waiting →
      s.k.wait c p = .ok (none, k) → Acted s c p .waitRound (s.goTo p .waiting k)
  | returned (r : Int) (k : Kernel ncpu) : s.stage p = .user ∨ s.stage p = .waiting →
      s.k.wait c p = .ok (some r, k) → Acted s c p .waitRound (s.goTo p .user k)

theorem acted_of_act {s s' : Family ncpu} {x : Section} (h : s.act c p x = some s') :
    Acted s c p x s' := by
  cases x with
  | forkAlloc =>
    simp only [act] at h
    split at h
    · next hu =>
      split at h
      · next k hk =>
        cases h
        exact .noEntry k hu hk
      rename_i np k hk
      cases h
      exact .alloc np k hu hk
    · cases h
  | forkFill =>
    simp only [act] at h
    split at h
    · next np hs =>
      split at h
      · cases h
      · next k hk =>
        cases h
        exact .unfilled np k hs hk
      rename_i k hk
      cases h
      exact .fill np k hs hk
    · cases h
  | forkPublish =>
    simp only [act] at h
    split at h
    · next np hs =>
      cases h
      exact .publish np hs
    · cases h
  | exitClose =>
    simp only [act] at h
    split at h
    · next hg =>
      split at h
      · cases h
      rename_i k hk
      cases h
      exact .close k hg.1 hg.2 hk
    · cases h
  | exitFinish =>
    simp only [act] at h
    split at h
    · next hs =>
      cases h
      exact .finish hs
    · cases h
  | waitRound =>
    simp only [act] at h
    split at h
    · next hs =>
      split at h
      · cases h
      · next k hk =>
        cases h
        exact .slept k hs hk
      rename_i r k hk
      cases h
      exact .returned r k hs hk
    · cases h

theorem caller_eq_some {s : Family ncpu} (h : s.caller c = some p) : s.k.cpu c = some p := by
  unfold caller at h
  split at h
  · cases h
  · split at h
    · next hp _ => rwa [h] at hp
    · cases h

/-- An action of the kernel, or a section of a process that runs. -/
inductive Moved (s : Family ncpu) : Move ncpu → Family ncpu → Prop
  | kern (a : Act ncpu) (k : Kernel ncpu) : s.permits a = true → s.k.next a = some k →
      Moved s (.kern a) ⟨k, s.stage⟩
  | run (c : Fin ncpu) (p : ProcIdx) (x : Section) (s' : Family ncpu) : s.caller c = some p →
      Acted s c p x s' → Moved s (.run c x) s'

theorem moved_of_next {s s' : Family ncpu} {m : Move ncpu} (h : s.next m = some s') :
    Moved s m s' := by
  cases m with
  | kern a =>
    simp only [next] at h
    split at h
    · next hp =>
      obtain ⟨k, hk, rfl⟩ := Option.map_eq_some_iff.mp h
      exact .kern a k hp hk
    · cases h
  | run c x =>
    obtain ⟨p, hp, hx⟩ := Option.bind_eq_some_iff.mp h
    exact .run c p x s' hp (acted_of_act hx)

/-! ## Scheduling -/

end Family

namespace Kernel

open ProcState

theorem next_cpu {a : Act ncpu} (h : k.next a = some k') (hc : k.cpu c = some p)
    (ha : ∀ op, a ≠ .call c op) (he : a ≠ .enter c) : k'.cpu c = some p := by
  have hout : ∀ (k₁ : Kernel ncpu) c' q st, k₁.cpu c = k.cpu c → c' ≠ c →
      (k₁.schedOut c' q st).cpu c = some p := by
    intro k₁ c' q st h1 hne
    rw [schedOut_cpu, if_neg hne.symm, h1, hc]
  cases stepped_of_next h with
  | schedule c' q hidle _ hs =>
    have hne : c ≠ c' := by
      rintro rfl
      rw [hc] at hidle
      cases hidle
    unfold scheduler at hs
    split at hs
    · cases hs
    · cases hs
      simp only [update_of_ne hne, hc]
  | wakeup chan hk =>
    rw [hk]
    exact hc
  | call c' q op hq _ hp =>
    have hne : c' ≠ c := by
      rintro rfl
      exact ha op rfl
    cases performed hp with
    | quiet _ hq => rw [hq.cpu, hc]
    | leave _ k₁ st hq _ hk =>
      rw [hk]
      exact hout k₁ c' q st (by rw [hq.cpu]) hne
    | semInitialize n hk =>
      rw [hk]
      unfold sysSemInitialize semInitialize
      split
      · exact hc
      · split <;> exact hc
    | semWait i hk =>
      rw [hk]
      unfold semWait
      split <;> exact hc
    | semSignal i hk =>
      rw [hk]
      unfold semSignal
      split <;> exact hc
    | semFree i hk =>
      rw [hk]
      exact hc
  | waitEnter c' q i _ _ hk =>
    have hne : c' ≠ c := by
      rintro rfl
      exact he rfl
    rw [hk]
    unfold semWaitEnter
    simp only
    split
    · exact hout _ c' q _ rfl hne
    · exact hc
  | signalEnter c' q i _ _ hk =>
    rw [hk]
    unfold semSignalEnter semWakeup semWake
    simp only
    split <;> exact hc

theorem schedInv_exitFinish (hi : SchedInv k) (hc : k.cpu c = some p) :
    SchedInv (k.exitFinish c p) := by
  obtain ⟨l, hl, -, heq⟩ := exitFinish_eq k c p
  rw [heq]
  exact schedInv_schedOut (schedInv_quiet hi hl.toQuiet) (by rw [hl.cpu, hc]) idle_zombie

theorem schedInv_wait (hi : SchedInv k) {r : Option Int} (hc : k.cpu c = some p)
    (h : k.wait c p = .ok (r, k')) : SchedInv k' := by
  have hp : k.perform c p .wait = .ok k' := by
    rw [perform, h]
    rfl
  exact schedInv_perform hi hc hp

end Kernel

namespace Family

open Kernel

/-! ## Parents and children -/

theorem life_eq_embryo {st : ProcState} : st.life = some .embryo ↔ st = .embryo := by
  cases st <;> simp [ProcState.life]

/-- The entries being filled are `EMBRYO`, each for one `fork`; `initproc`
does not exit. -/
structure Stages (stage : ProcIdx → Stage) (roster : ProcIdx → Entry) : Prop where
  embryo : ∀ p np, (stage p).newborn = some np → (roster np).state = .embryo
  alone : ∀ p q np, (stage p).newborn = some np → (stage q).newborn = some np → p = q
  closed : ∀ p, stage p = .closed → p ≠ initproc

namespace Stages

variable {stage : ProcIdx → Stage} {roster roster' : ProcIdx → Entry}

theorem keep (h : Stages stage roster)
    (hkeep : ∀ np, (roster np).state = .embryo → (roster' np).state = .embryo) :
    Stages stage roster' :=
  ⟨fun p np hp => hkeep np (h.embryo p np hp), h.alone, h.closed⟩

theorem goTo (h : Stages stage roster) {st : Stage}
    (hst : ∀ np, st.newborn = some np → (stage p).newborn = some np)
    (hclosed : st = .closed → p ≠ initproc)
    (hkeep : ∀ np, (roster np).state = .embryo →
      ((stage p).newborn = some np → st.newborn = some np) → (roster' np).state = .embryo) :
    Stages (update stage p st) roster' := by
  have hold : ∀ q np, (update stage p st q).newborn = some np →
      (stage q).newborn = some np := by
    intro q np hq
    by_cases hqp : q = p
    · subst hqp
      rw [update_self] at hq
      exact hst np hq
    · rwa [update_of_ne hqp] at hq
  refine ⟨fun q np hq => ?_, fun q r np hq hr => h.alone q r np (hold q np hq) (hold r np hr),
    fun q hq => ?_⟩
  · refine hkeep np (h.embryo q np (hold q np hq)) fun hp => ?_
    -- only one process fills `np`, so it is `p` that still does
    have hqp : q = p := h.alone q p np (hold q np hq) hp
    subst hqp
    rwa [update_self] at hq
  · by_cases hqp : q = p
    · subst hqp
      rw [update_self] at hq
      exact hclosed hq
    · rw [update_of_ne hqp] at hq
      exact h.closed q hq

theorem alloc (h : Stages stage roster) {np : ProcIdx} (hu : (roster np).state = .unused)
    (hnew : (roster' np).state = .embryo) (hrest : ∀ q, q ≠ np → roster' q = roster q) :
    Stages (update stage p (.forking np)) roster' := by
  have hne : ∀ q m, (stage q).newborn = some m → m ≠ np := by
    rintro q m hq rfl
    have := h.embryo q m hq
    rw [hu] at this
    cases this
  refine ⟨fun q m hq => ?_, fun q r m hq hr => ?_, fun q hq => ?_⟩
  · by_cases hqp : q = p
    · subst hqp
      rw [update_self] at hq
      cases hq
      exact hnew
    · rw [update_of_ne hqp] at hq
      rw [hrest m (hne q m hq)]
      exact h.embryo q m hq
  · by_cases hqp : q = p <;> by_cases hrp : r = p
    · rw [hqp, hrp]
    · subst hqp
      rw [update_self] at hq
      rw [update_of_ne hrp] at hr
      cases hq
      exact absurd rfl (hne r _ hr)
    · subst hrp
      rw [update_self] at hr
      rw [update_of_ne hqp] at hq
      cases hr
      exact absurd rfl (hne q _ hq)
    · rw [update_of_ne hqp] at hq
      rw [update_of_ne hrp] at hr
      exact h.alone q r m hq hr
  · by_cases hqp : q = p
    · subst hqp
      rw [update_self] at hq
      cases hq
    · rw [update_of_ne hqp] at hq
      exact h.closed q hq

end Stages

/-- **Parents and children.** -/
structure Kin (s : Family ncpu) : Prop where
  sched : SchedInv s.k
  stages : Stages s.stage s.k.roster
  init : (s.k.roster initproc).state.life = some .live
  orphan : (s.k.roster initproc).parent = none
  parent : ∀ q p, (s.k.roster q).parent = some p → (s.k.roster p).state.life = some .live ∧ p ≠ q
  asleep : ∀ p, s.stage p = .waiting → (s.k.roster p).state = .sleeping →
    (s.k.roster p).chan = .proc p ∧
    ∀ q, (s.k.roster q).parent = some p → (s.k.roster q).state ≠ .zombie

namespace Kin

variable {s s' : Family ncpu}

/-- Every life and every parent is what it was, and nobody falls asleep in
`wait`. -/
theorem mild (h : Kin s) (hi : SchedInv s'.k) (hst : Stages s'.stage s'.k.roster)
    (hlife : ∀ q, (s'.k.roster q).state.life = (s.k.roster q).state.life)
    (hparent : ∀ q, (s'.k.roster q).parent = (s.k.roster q).parent)
    (hsleep : ∀ p, s'.stage p = .waiting → (s'.k.roster p).state = .sleeping →
      s.stage p = .waiting ∧ (s.k.roster p).state = .sleeping ∧
      (s'.k.roster p).chan = (s.k.roster p).chan) : Kin s' := by
  refine ⟨hi, hst, ?_, ?_, fun q p hq => ?_, fun p hw hs => ?_⟩
  · rw [hlife]
    exact h.init
  · rw [hparent]
    exact h.orphan
  · rw [hparent] at hq
    rw [hlife]
    exact h.parent q p hq
  · obtain ⟨hw', hs', hchan⟩ := hsleep p hw hs
    obtain ⟨h1, h2⟩ := h.asleep p hw' hs'
    refine ⟨hchan.trans h1, fun q hq hz => ?_⟩
    rw [hparent] at hq
    rw [← ProcState.life_eq_zombie, hlife, ProcState.life_eq_zombie] at hz
    exact h2 q hq hz

/-- An entry that is not alive changes, to a state that is neither
`SLEEPING` nor `ZOMBIE`. -/
theorem update (h : Kin s) (hi : SchedInv s'.k) (hst : Stages s'.stage s'.k.roster)
    {x : ProcIdx} {e : Entry} (hr : s'.k.roster = update s.k.roster x e)
    (hdead : (s.k.roster x).state.life ≠ some .live)
    (hparent : ∀ p, e.parent = some p → (s.k.roster p).state.life = some .live)
    (hs : e.state ≠ .sleeping) (hz : e.state ≠ .zombie)
    (hwait : ∀ p, s'.stage p = .waiting → s.stage p = .waiting) : Kin s' := by
  have hother : ∀ q, q ≠ x → s'.k.roster q = s.k.roster q := fun q hq => by
    rw [hr, update_of_ne hq]
  have hx : s'.k.roster x = e := by rw [hr, update_self]
  -- nobody alive is the entry that changes
  have hne : ∀ q, (s.k.roster q).state.life = some .live → q ≠ x := by
    rintro q hq rfl
    exact hdead hq
  have hlife : ∀ q, (s.k.roster q).state.life = some .live →
      (s'.k.roster q).state.life = some .live := fun q hq => by
    rwa [hother q (hne q hq)]
  refine ⟨hi, hst, hlife _ h.init, ?_, fun q p hq => ?_, fun p hw hsp => ?_⟩
  · rw [hother _ (hne _ h.init)]
    exact h.orphan
  · by_cases hqx : q = x
    · subst hqx
      rw [hx] at hq
      exact ⟨hlife p (hparent p hq), hne p (hparent p hq)⟩
    · rw [hother q hqx] at hq
      exact ⟨hlife p (h.parent q p hq).1, (h.parent q p hq).2⟩
  · have hpx : p ≠ x := by
      rintro rfl
      rw [hx] at hsp
      exact hs hsp
    rw [hother p hpx] at hsp ⊢
    obtain ⟨h1, h2⟩ := h.asleep p (hwait p hw) hsp
    refine ⟨h1, fun q hq => ?_⟩
    by_cases hqx : q = x
    · subst hqx
      rw [hx]
      exact hz
    · rw [hother q hqx] at hq ⊢
      exact h2 q hq

end Kin

end Family

end Xv6.Kern
