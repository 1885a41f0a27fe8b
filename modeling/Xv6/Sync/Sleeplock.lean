/-
Xv6.Sync.Sleeplock — `acquiresleep`, `releasesleep` and `holdingsleep` of
`sleeplock.c` on one sleep lock, used by any number of kernel threads.

`lk->lk` is held from the test of `lk->locked` to the point where the
thread has the lock or is asleep, and `sleep` gives `lk->lk` up only when
no wakeup can be missed any more, so each of these stretches is one step.
A thread that was woken tests again (`retry`). `kill` may wake a sleeping
thread at any time (`wake`).

`holds` is not a field of the source: it says which threads are between
their `acquiresleep` and their `releasesleep` (`Calls` ties it to the calls
of a run). The source itself keeps only the PID of the holder, and the
threads of one process have the same one. `sleeplock_ownership` says what
that costs: exclusion and wakeups are right in every run, and
`holdingsleep` is right in exactly the states where no other thread has the
PID of the holder.
-/
import Xv6.Lib.Run

namespace Xv6.Sync

open Xv6.Lib Function

/-- `struct sleeplock`, without its spin lock and its name. -/
structure Sleeplock where
  locked : Bool := false
  pid : Int := 0

/-- Where a thread is: not in `acquiresleep`, about to test `lk->locked`
again, or asleep there. -/
inductive Mode where
  | outside
  | trying
  | sleeping
  deriving DecidableEq

/-- A sleep lock and the threads `T` that use it. -/
structure LockState (T : Type) where
  lock : Sleeplock := {}
  mode : T → Mode := fun _ => .outside
  holds : T → Bool := fun _ => false

inductive LockAct (T : Type) where
  | acquiresleep (t : T)
  | retry (t : T)
  | releasesleep (t : T)
  | holdingsleep (t : T)
  | wake (t : T)
  deriving DecidableEq

variable {T : Type} [DecidableEq T]

namespace LockState

/-- `acquiresleep` by `t` from the test of `lk->locked` on. -/
def tryLock (pid : T → Int) (s : LockState T) (t : T) : LockState T :=
  if s.lock.locked then { s with mode := update s.mode t .sleeping }
  else
    { lock := { locked := true, pid := pid t }
      mode := update s.mode t .outside
      holds := update s.holds t true }

/-- One thread of `wakeup(lk)`. -/
def wakeMode : Mode → Mode
  | .sleeping => .trying
  | m => m

/-- `releasesleep` by `t`. -/
def releasesleep (s : LockState T) (t : T) : LockState T where
  lock := { locked := false, pid := 0 }
  mode := fun u => wakeMode (s.mode u)
  holds := update s.holds t false

/-- The value of `holdingsleep` for `t`. -/
def holdingsleep (pid : T → Int) (s : LockState T) (t : T) : Bool :=
  s.lock.locked && s.lock.pid == pid t

/-- One step. A thread releases only what it acquired. -/
def next (pid : T → Int) (s : LockState T) : LockAct T → Option (LockState T)
  | .acquiresleep t => if s.mode t = .outside then some (s.tryLock pid t) else none
  | .retry t => if s.mode t = .trying then some (s.tryLock pid t) else none
  | .releasesleep t =>
    if s.mode t = .outside ∧ s.holds t = true then some (s.releasesleep t) else none
  | .holdingsleep t => if s.mode t = .outside then some s else none
  | .wake t => some { s with mode := update s.mode t (wakeMode (s.mode t)) }

/-! ## The invariant -/

/-- The lock is free and nobody has it or sleeps on it, or one thread has
it and its PID is recorded. -/
inductive Owned (pid : T → Int) (s : LockState T) : Prop
  | free : s.lock.locked = false → (∀ t, s.holds t = false) → (∀ t, s.mode t ≠ .sleeping) →
      Owned pid s
  | held (h : T) : s.lock.locked = true → s.lock.pid = pid h →
      (∀ t, s.holds t = true ↔ t = h) → Owned pid s

variable {pid : T → Int} {s s' : LockState T}

theorem wakeMode_ne_sleeping (m : Mode) : wakeMode m ≠ .sleeping := by
  cases m <;> simp [wakeMode]

/-- `acquiresleep` leaves a held lock held, and takes a free one. -/
theorem Owned.tryLock (h : Owned pid s) (t : T) : Owned pid (s.tryLock pid t) := by
  cases h with
  | free hl hh _ =>
    refine .held t ?_ ?_ ?_
    · simp [LockState.tryLock, hl]
    · simp [LockState.tryLock, hl]
    · intro u
      by_cases hu : u = t <;> simp [LockState.tryLock, hl, hu, hh]
  | held o hl hp hh =>
    refine .held o ?_ ?_ ?_ <;> simp [LockState.tryLock, hl, hp, hh]

/-- The holder's `releasesleep` frees the lock and wakes every sleeper. -/
theorem Owned.releasesleep (h : Owned pid s) {t : T} (ht : s.holds t = true) :
    Owned pid (s.releasesleep t) := by
  cases h with
  | free _ hh _ => simp [hh] at ht
  | held o _ _ hh =>
    obtain rfl := (hh t).mp ht
    refine .free rfl ?_ ?_
    · intro u
      by_cases hu : u = t
      · simp [LockState.releasesleep, hu]
      · simpa [LockState.releasesleep, update_of_ne hu] using fun hc => hu ((hh u).mp hc)
    · intro u
      exact wakeMode_ne_sleeping _

/-- Waking a thread changes nothing about the lock. -/
theorem Owned.wake (h : Owned pid s) (t : T) :
    Owned pid { s with mode := update s.mode t (wakeMode (s.mode t)) } := by
  cases h with
  | free hl hh hm =>
    refine .free hl hh ?_
    intro u
    by_cases hu : u = t
    · simpa [hu] using wakeMode_ne_sleeping _
    · simpa [update_of_ne hu] using hm u
  | held o hl hp hh => exact .held o hl hp hh

theorem Owned.next {a : LockAct T} (h : Owned pid s) (hn : s.next pid a = some s') :
    Owned pid s' := by
  cases a with
  | acquiresleep t | retry t =>
    simp only [LockState.next, Option.ite_none_right_eq_some, Option.some.injEq] at hn
    rw [← hn.2]
    exact h.tryLock t
  | releasesleep t =>
    simp only [LockState.next, Option.ite_none_right_eq_some, Option.some.injEq] at hn
    rw [← hn.2]
    exact h.releasesleep hn.1.2
  | holdingsleep t =>
    simp only [LockState.next, Option.ite_none_right_eq_some, Option.some.injEq] at hn
    rw [← hn.2]
    exact h
  | wake t =>
    simp only [LockState.next, Option.some.injEq] at hn
    rw [← hn]
    exact h.wake t

theorem owned_run {tr : List (LockState T × LockAct T)} (hr : Run (next pid) {} tr s) :
    Owned pid s :=
  hr.always (.free rfl (fun _ => rfl) (fun _ => by simp)) fun _ _ _ h hn => h.next hn

/-- Of every call of `acquiresleep`: the lock was released again, or the
caller holds it, or the call has not returned. -/
def Calls (l : List (LockAct T)) (s : LockState T) : Prop :=
  ∀ t, l.count (.acquiresleep t) =
    l.count (.releasesleep t) + (s.holds t).toNat + if s.mode t = .outside then 0 else 1

theorem wakeMode_outside {m : Mode} : wakeMode m = .outside ↔ m = .outside := by
  cases m <;> simp [wakeMode]

/-- The lock is tested: the caller holds it, or does not return. -/
theorem tryLock_owes (h : Owned pid s) (t u : T) :
    ((s.tryLock pid t).holds u).toNat + (if (s.tryLock pid t).mode u = .outside then 0 else 1) =
      (s.holds u).toNat + if t = u ∨ s.mode u ≠ .outside then 1 else 0 := by
  by_cases hu : u = t
  · subst hu
    cases h with
    | free hl hh _ => simp [tryLock, hl, hh]
    | held _ hl _ _ => simp [tryLock, hl]
  · cases hl : s.lock.locked <;> simp [tryLock, hl, hu, Ne.symm hu]

theorem Calls.next {a : LockAct T} {l : List (LockAct T)} (h : Calls l s) (ho : Owned pid s)
    (hn : s.next pid a = some s') : Calls (l ++ [a]) s' := by
  intro u
  have hu := h u
  rw [List.count_append, List.count_append]
  cases a with
  | acquiresleep t | retry t =>
    simp only [LockState.next, Option.ite_none_right_eq_some, Option.some.injEq] at hn
    obtain ⟨hm, rfl⟩ := hn
    have := tryLock_owes ho t u
    by_cases hut : t = u
    · subst hut
      simp_all
      omega
    · simp_all
      omega
  | releasesleep t =>
    simp only [LockState.next, Option.ite_none_right_eq_some, Option.some.injEq] at hn
    obtain ⟨⟨hm, ht⟩, rfl⟩ := hn
    by_cases hut : u = t
    · subst hut
      simp_all [LockState.releasesleep, wakeMode_outside]
    · simp_all [LockState.releasesleep, wakeMode_outside, Ne.symm hut]
  | holdingsleep t =>
    simp only [LockState.next, Option.ite_none_right_eq_some, Option.some.injEq] at hn
    obtain ⟨-, rfl⟩ := hn
    simpa using hu
  | wake t =>
    simp only [LockState.next, Option.some.injEq] at hn
    subst hn
    by_cases hut : u = t <;> simp_all [wakeMode_outside]

theorem calls_run {tr : List (LockState T × LockAct T)} (hr : Run (next pid) {} tr s) :
    Calls (tr.map Prod.snd) s := by
  induction hr with
  | nil => exact fun t => by simp
  | snoc hr hn ih =>
    rw [List.map_append]
    exact ih.next (owned_run hr) hn

/-! ## Ownership -/

omit [DecidableEq T] in
theorem Owned.holds_unique (h : Owned pid s) {t u : T} (ht : s.holds t = true)
    (hu : s.holds u = true) : t = u := by
  cases h with
  | free _ hh _ => simp [hh] at ht
  | held o _ _ hh => rw [(hh t).mp ht, (hh u).mp hu]

omit [DecidableEq T] in
theorem Owned.locked_of_sleeping (h : Owned pid s) {t : T} (ht : s.mode t = .sleeping) :
    s.lock.locked = true := by
  cases h with
  | free _ _ hm => exact absurd ht (hm t)
  | held _ hl _ _ => exact hl

omit [DecidableEq T] in
/-- `holdingsleep` tells the holder from every other thread exactly when
none of them has its PID. -/
theorem Owned.holdingsleep_iff (h : Owned pid s) :
    (∀ t, s.holdingsleep pid t = true ↔ s.holds t = true) ↔
      ∀ o t, s.holds o = true → pid t = pid o → t = o := by
  cases h with
  | free hl hh _ => simp [holdingsleep, hl, hh]
  | held o hl hp hh =>
    have hval : ∀ t, s.holdingsleep pid t = true ↔ pid o = pid t := by
      intro t
      simp [holdingsleep, hl, hp]
    constructor
    · intro hall o' t ho hpid
      obtain rfl := (hh o').mp ho
      rw [← hh, ← hall, hval, hpid]
    · intro hall t
      rw [hval, hh]
      constructor
      · exact fun heq => hall o t ((hh o).mpr rfl) heq.symm
      · rintro rfl
        rfl

/-- **Ownership of a sleep lock**, along every run: who returned from
`acquiresleep` and did not release holds the lock, there is one holder at
most, no sleeper while the lock is free, and `holdingsleep` true of exactly
the holder if and only if no other thread shares its PID. -/
theorem sleeplock_ownership {tr : List (LockState T × LockAct T)}
    (hr : Run (next pid) {} tr s) :
    Calls (tr.map Prod.snd) s ∧
    (∀ t u, s.holds t = true → s.holds u = true → t = u) ∧
    (∀ t, s.mode t = .sleeping → s.lock.locked = true) ∧
    ((∀ t, s.holdingsleep pid t = true ↔ s.holds t = true) ↔
      ∀ o t, s.holds o = true → pid t = pid o → t = o) := by
  have h := owned_run hr
  exact ⟨calls_run hr, fun _ _ => h.holds_unique, fun _ => h.locked_of_sleeping, h.holdingsleep_iff⟩

/-- Two processes: the first takes the lock, the second sleeps on it. -/
def twoProcesses : List (LockState (Fin 2) × LockAct (Fin 2)) × LockState (Fin 2) :=
  (follow (next fun t => t.val + 1) {} [.acquiresleep 0, .acquiresleep 1]).get (by decide +kernel)

theorem sleeplock_ownership_twoProcesses :
    Calls (twoProcesses.1.map Prod.snd) twoProcesses.2 ∧
    twoProcesses.2.holds 0 = true ∧ twoProcesses.2.mode 1 = .sleeping ∧
    ((∀ t, twoProcesses.2.holdingsleep (fun t => t.val + 1) t = true ↔
        twoProcesses.2.holds t = true) ↔
      ∀ o t : Fin 2, twoProcesses.2.holds o = true → (t.val + 1 : Int) = o.val + 1 → t = o) :=
  have h := sleeplock_ownership (run_get _)
  ⟨h.1, by decide +kernel, by decide +kernel, h.2.2.2⟩

/-- Two threads of one process: the first takes the lock, the second asks. -/
def oneProcess : List (LockState (Fin 2) × LockAct (Fin 2)) × LockState (Fin 2) :=
  (follow (next fun _ => 3) {} [.acquiresleep 0, .holdingsleep 1]).get (by decide +kernel)

/-- A thread that never took the lock passes as its holder. -/
theorem other_thread_passes :
    Run (next fun _ : Fin 2 => 3) {} oneProcess.1 oneProcess.2 ∧
    oneProcess.2.holds 0 = true ∧ oneProcess.2.holds 1 = false ∧
    oneProcess.2.holdingsleep (fun _ => 3) 1 = true :=
  ⟨run_get _, by decide +kernel, by decide +kernel, by decide +kernel⟩

end LockState

end Xv6.Sync
