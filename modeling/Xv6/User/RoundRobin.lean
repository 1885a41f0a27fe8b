/-
Xv6.User.RoundRobin — `UT_Scheduler` is fair.

`atScheduler` is the state in which a step calls `UT_Scheduler`: inside
`UT_exit` the caller's entry is `UNUSED` already. From there the search
goes round the table (`Core.scan_first`), and whatever the step was, the
thread that runs next has the first entry in use behind the caller's
(`Inv.resumed_first`); the early return is no exception, since then there
is no other entry.

A thread keeps its entry while it is in use, so the rounds of `Lib.Cycle`
count how often a thread is resumed (`round_run`).
-/
import Xv6.Lib.Cycle
import Xv6.User.UthreadTheorems

namespace Xv6.User

open Xv6.Lib

variable {k l p q : Fin utCount} {i j n : Nat}

namespace Uthreads

variable {s s' m : Uthreads} {tid : Int32} {a : UthreadAct}

/-! ## The search -/

def InUse (s : Uthreads) (k : Fin utCount) : Prop := (s.utable k).state = .used
  deriving Decidable

theorem scan_of_first {d : Nat} {i : Fin utCount}
    (hbefore : ∀ e < d, (s.utable ((· + 1)^[e] i)).state ≠ .used)
    (hd : (s.utable ((· + 1)^[d] i)).state = .used) (hn : d < n) :
    s.scan n i = some ((· + 1)^[d] i) := by
  induction n generalizing d i with
  | zero => omega
  | succ n ih =>
    unfold scan
    cases d with
    | zero => exact if_pos hd
    | succ d =>
      have h0 : (s.utable i).state ≠ .used := hbefore 0 (by omega)
      rw [if_neg h0, incrementSchedIndex_eq, Function.iterate_succ_apply]
      refine ih (fun e he => ?_) hd (by omega)
      have := hbefore (e + 1) (by omega)
      rwa [Function.iterate_succ_apply] at this

/-- Round number `d` of a search from behind `c` looks at the entry with
`d` entries before it. -/
theorem ahead_iterate (c : Fin utCount) : ∀ d < utCount, ahead c ((· + 1)^[d] (c + 1)) = d := by
  revert c
  decide

theorem iterate_ahead (c k : Fin utCount) :
    ahead c k < utCount ∧ (· + 1)^[ahead c k] (c + 1) = k := by
  revert c k
  decide

/-- **The search** ends within `UT_COUNT` rounds, at the first entry in use
behind the running thread's. -/
theorem Core.scan_first (h : Core tid s) : ∃ t, First s.InUse s.current t ∧
    ahead s.current t < utCount ∧
    ∀ n, ahead s.current t < n → s.scan n s.schedIndex = some t := by
  cases hs : s.scan utCount s.schedIndex with
  | none =>
    obtain ⟨d, hd, h0⟩ := exists_iterate s.schedIndex 0
    exact absurd (h0 ▸ h.root.1) (scan_eq_none hs d hd)
  | some t =>
    obtain ⟨ht, d, hd, heq, hbefore⟩ := scan_eq_some hs
    have had : ahead s.current t = d := by
      rw [← heq, ← current_succ]
      exact ahead_iterate _ d hd
    refine ⟨t, ⟨ht, fun k hk => ?_⟩, by omega, fun n hn => ?_⟩
    · by_contra hlt
      refine hbefore (ahead s.current k) (by omega) ?_
      rw [← current_succ, (iterate_ahead _ k).2]
      exact hk
    · rw [← heq] at ht ⊢
      exact scan_of_first hbefore ht (by omega)

/-! ## The steps that call the scheduler -/

/-- The state in which a step calls `UT_Scheduler`, if it does. -/
def atScheduler (s : Uthreads) : UthreadAct → Option Uthreads
  | .create => none
  | .yield => some s
  | .exit =>
    if s.schedIndex = 1 then
      if s.uthreadCount ≠ 1 then
        some { s with inShutdown := Function.update s.inShutdown s.running true }
      else none
    else some s.leave
  | .loop => if s.uthreadCount ≠ 1 then some s else none

/-- The thread a step resumes. -/
def resumed (s : Uthreads) (a : UthreadAct) : Option Nat :=
  (s.atScheduler a).bind fun m => m.utScheduler.map running

theorem enabled_of_next (hn : s.next a = some s') : s.Enabled a :=
  (Option.ite_none_right_eq_some.mp hn).1

theorem utScheduler_of_next (hn : s.next a = some s') (hm : s.atScheduler a = some m) :
    m.utScheduler = some s' := by
  have hstep := (Option.ite_none_right_eq_some.mp hn).2
  cases a with
  | create => cases hm
  | yield =>
    cases hm
    exact hstep
  | exit =>
    simp only [atScheduler] at hm
    simp only [utExit, shutdownLoop] at hstep
    split at hm
    · next hi =>
      split at hm
      · next hc =>
        cases hm
        rw [if_pos hi, if_pos hc] at hstep
        exact hstep
      · cases hm
    rename_i hi
    cases hm
    rw [if_neg hi] at hstep
    exact hstep
  | loop =>
    simp only [atScheduler] at hm
    simp only [shutdownLoop] at hstep
    split at hm
    · next hc =>
      cases hm
      rw [if_pos hc] at hstep
      exact hstep
    · cases hm

theorem resumed_of_next (hn : s.next a = some s') (hm : s.atScheduler a = some m) :
    s.resumed a = some s'.running := by
  simp [resumed, hm, utScheduler_of_next hn hm]

/-- What `UT_Scheduler` finds when a thread calls it in a step from `s`:
the table as it was, but for the caller's own entry if it exits. -/
structure Found (tid : Int32) (s m : Uthreads) : Prop where
  core : Core tid m
  current : m.current = s.current
  created : m.created = s.created
  exited : ∀ i, s.exited i = true → m.exited i = true
  thread : ∀ k, (m.utable k).thread = (s.utable k).thread
  inUse : ∀ k, s.InUse k → m.InUse k ∨ k = s.current ∧ m.exited s.running = true

theorem Inv.found_self (h : Inv tid s) : Found tid s s :=
  ⟨h.toCore, rfl, rfl, fun _ => id, fun _ => rfl, fun _ => .inl⟩

theorem Inv.found_leave (h : Inv tid s) (hc : s.current ≠ 0) (hf : s.freed = false) :
    Found tid s s.leave where
  core := h.leave hc hf
  current := leave_current
  created := rfl
  exited := by
    intro i hex
    by_cases hir : i = s.running <;> simp [Uthreads.leave, hir, hex]
  thread := fun k => (leave_utable k).1
  inUse := by
    intro k hk
    by_cases hkc : k = s.current
    · exact .inr ⟨hkc, by simp [Uthreads.leave]⟩
    · exact .inl (leave_used.mpr ⟨hkc, hk⟩)

theorem Inv.found (h : Inv tid s) (ha : s.Enabled a) (hm : s.atScheduler a = some m) :
    Found tid s m := by
  cases a with
  | create => cases hm
  | yield =>
    cases hm
    exact h.found_self
  | exit =>
    simp only [atScheduler] at hm
    split at hm
    · split at hm
      · cases hm
        exact { h.found_self with core := { h.toCore with } }
      · cases hm
    rename_i hi
    cases hm
    exact h.found_leave (mt current_eq_zero.mp hi) ha.1
  | loop =>
    simp only [atScheduler] at hm
    split at hm
    · cases hm
      exact h.found_self
    · cases hm

theorem Core.first_of_alone (h : Core tid s) (hr : s.uthreadCount = 1 ∧ s.schedIndex = 1) :
    First s.InUse s.current s.current := by
  rw [current_eq_zero.mpr hr.2]
  refine ⟨h.root.1, fun k hk => ?_⟩
  have hcard : s.usedSlots.card = 1 := by
    have := h.count
    omega
  rw [Finset.card_le_one.mp hcard.le k (mem_usedSlots.mpr hk) 0 (mem_usedSlots.mpr h.root.1)]

/-- What `UT_Scheduler` does: it goes to the first entry in use, and that
is all that changes. -/
theorem Core.utScheduler_first (h : Core tid s) (hs : s.utScheduler = some s') :
    First s.InUse s.current s'.current ∧ s'.created = s.created ∧ s'.exited = s.exited ∧
    ∀ k, (s'.utable k).thread = (s.utable k).thread ∧ (s'.InUse k ↔ s.InUse k) := by
  by_cases hr : s.uthreadCount = 1 ∧ s.schedIndex = 1
  · obtain rfl : s = s' := by simpa [Uthreads.utScheduler, hr] using hs
    exact ⟨h.first_of_alone hr, rfl, rfl, fun _ => ⟨rfl, Iff.rfl⟩⟩
  · obtain ⟨k, hk, hne⟩ := h.exists_other hr
    obtain ⟨t, hfirst, hlt, hscan⟩ := h.scan_first
    have heq := h.utScheduler_eq hr (hscan utCount hlt) (hfirst.ne_self hk hne)
    obtain rfl := Option.some.inj (heq.symm.trans hs)
    rw [switched_current]
    exact ⟨hfirst, rfl, rfl, fun k => ⟨(switched_utable s t k).2.1, by
      rw [InUse, (switched_utable s t k).1]; rfl⟩⟩

/-- **The thread that runs after the scheduler** has the first entry in use
behind the one of the thread that called it. -/
theorem Inv.resumed_first (h : Inv tid s) (hn : s.next a = some s')
    (hm : s.atScheduler a = some m) : First s'.InUse s.current s'.current := by
  have hfound := h.found (enabled_of_next hn) hm
  obtain ⟨hfirst, -, -, htable⟩ := hfound.core.utScheduler_first (utScheduler_of_next hn hm)
  rw [← hfound.current]
  refine ⟨(htable _).2.mpr hfirst.mem, fun k hk => ?_⟩
  exact hfirst.least k ((htable k).2.mp hk)

/-! ## Threads keep their entries -/

/-- Thread `i` has entry `k`. -/
def Has (s : Uthreads) (i : Nat) (k : Fin utCount) : Prop :=
  s.InUse k ∧ (s.utable k).thread = i
  deriving Decidable

theorem Inv.has_running (h : Inv tid s) : s.Has s.running s.current := ⟨h.used, h.running⟩

theorem Core.has_inj (h : Core tid s) (hk : s.Has i k) (hl : s.Has j l) : i = j ↔ k = l := by
  constructor
  · intro hij
    exact h.distinct k l hk.1 hl.1 (by rw [hk.2, hl.2, hij])
  · rintro rfl
    exact hk.2.symm.trans hl.2

/-- A step that does not call the scheduler leaves the running thread and
the entries in use alone. -/
theorem quiet_of_next (hn : s.next a = some s') (hm : s.atScheduler a = none) :
    s'.current = s.current ∧ s'.exited = s.exited ∧ s.created ≤ s'.created ∧
    ∀ k, s.InUse k → s'.utable k = s.utable k := by
  have hstep := (Option.ite_none_right_eq_some.mp hn).2
  cases a with
  | create =>
    obtain rfl := Option.some.inj hstep
    unfold utCreate
    split
    · exact ⟨rfl, rfl, Nat.le_refl _, fun _ _ => rfl⟩
    rename_i k hk
    have hunused : (s.utable k).state = .unused := by simpa using List.find?_some hk
    refine ⟨rfl, rfl, Nat.le_succ _, fun j hj => ?_⟩
    have hjk : j ≠ k := by
      rintro rfl
      rw [InUse, hunused] at hj
      cases hj
    exact Function.update_of_ne hjk _ _
  | yield => cases hm
  | exit =>
    simp only [atScheduler] at hm
    simp only [utExit, shutdownLoop] at hstep
    split at hm
    · next hi =>
      split at hm
      · cases hm
      rename_i hc
      rw [if_pos hi, if_neg hc] at hstep
      obtain rfl := Option.some.inj hstep
      exact ⟨rfl, rfl, Nat.le_refl _, fun _ _ => rfl⟩
    · cases hm
  | loop =>
    simp only [atScheduler] at hm
    simp only [shutdownLoop] at hstep
    split at hm
    · cases hm
    rename_i hc
    rw [if_neg hc] at hstep
    obtain rfl := Option.some.inj hstep
    exact ⟨rfl, rfl, Nat.le_refl _, fun _ _ => rfl⟩

theorem Inv.grows (h : Inv tid s) (hn : s.next a = some s') :
    s.created ≤ s'.created ∧ ∀ i, s.exited i = true → s'.exited i = true := by
  cases hm : s.atScheduler a with
  | none =>
    obtain ⟨-, hex, hcr, -⟩ := quiet_of_next hn hm
    exact ⟨hcr, fun i hi => by rw [hex]; exact hi⟩
  | some m =>
    have hfound := h.found (enabled_of_next hn) hm
    obtain ⟨-, hcr, hex, -⟩ := hfound.core.utScheduler_first (utScheduler_of_next hn hm)
    exact ⟨by rw [hcr, hfound.created], fun i hi => by rw [hex]; exact hfound.exited i hi⟩

theorem Inv.has_next (h : Inv tid s) (hn : s.next a = some s') (hk : s.Has i k) :
    s'.Has i k ∨ k = s.current ∧ s'.exited i = true := by
  cases hm : s.atScheduler a with
  | none =>
    obtain ⟨-, -, -, htable⟩ := quiet_of_next hn hm
    refine .inl ?_
    rw [Has, InUse, htable k hk.1]
    exact hk
  | some m =>
    have hfound := h.found (enabled_of_next hn) hm
    obtain ⟨-, -, hex, htable⟩ := hfound.core.utScheduler_first (utScheduler_of_next hn hm)
    rcases hfound.inUse k hk.1 with hin | ⟨hkc, hexit⟩
    · exact .inl ⟨(htable k).2.mpr hin, by rw [(htable k).1, hfound.thread, hk.2]⟩
    · refine .inr ⟨hkc, ?_⟩
      rw [hex, ← hk.2, hkc, h.running]
      exact hexit

theorem Inv.has_keep (h : Inv tid s) (h' : Inv tid s') (hn : s.next a = some s') (hk : s.Has i k)
    (hl : s'.Has i l) : s'.Has i k := by
  rcases h.has_next hn hk with hk' | ⟨-, hex⟩
  · exact hk'
  · have hlive := (h'.live i).mpr ⟨l, hl.1, hl.2⟩
    rw [hex] at hlive
    cases hlive.2

/-- A thread that was created before a step and is there after it was
there before it. -/
theorem Inv.has_back (h : Inv tid s) (h' : Inv tid s') (hn : s.next a = some s')
    (hi : i < s.created) (hl : s'.Has i l) : ∃ k, s.Has i k := by
  have hlive := (h'.live i).mpr ⟨l, hl.1, hl.2⟩
  refine (h.live i).mp ⟨hi, ?_⟩
  by_contra hex
  rw [(h.grows hn).2 i (by simpa using hex)] at hlive
  cases hlive.2

/-! ## Rounds -/

/-- Thread `i` has an entry in use. -/
def Used (s : Uthreads) (i : Nat) : Prop := ∃ k, s.Has i k
  deriving Decidable

/-- The threads the steps of a trace resume, in order. -/
def resumptions (tr : List (Uthreads × UthreadAct)) : List Nat :=
  tr.filterMap fun e => e.1.resumed e.2

theorem resumptions_snoc (tr : List (Uthreads × UthreadAct)) (s : Uthreads) (a : UthreadAct) :
    resumptions (tr ++ [(s, a)]) = resumptions tr ++ (s.resumed a).toList := by
  simp only [resumptions, List.filterMap_append, List.filterMap_cons, List.filterMap_nil]
  cases s.resumed a <;> rfl

theorem Inv.step (h : Inv tid s) (hn : s.next a = some s') : Inv tid s' := by
  obtain ⟨s'', hs, hinv⟩ := h.next_step (enabled_of_next hn)
  obtain rfl := Option.some.inj (hs.symm.trans hn)
  exact hinv

theorem Inv.run (h : Inv tid s) {tr : List (Uthreads × UthreadAct)} (hr : Run next s tr s') :
    Inv tid s' ∧ s.created ≤ s'.created := by
  refine hr.always (I := fun s' => Inv tid s' ∧ s.created ≤ s'.created) ⟨h, Nat.le_refl _⟩ ?_
  intro s₁ a s₂ hi hn
  exact ⟨hi.1.step hn, Nat.le_trans hi.2 (hi.1.grows hn).1⟩

theorem resumed_cases (hn : s.next a = some s') :
    (s.atScheduler a = none ∧ s.resumed a = none) ∨
    ∃ m, s.atScheduler a = some m ∧ s.resumed a = some s'.running := by
  cases hm : s.atScheduler a with
  | none => exact .inl ⟨rfl, by simp [resumed, hm]⟩
  | some m => exact .inr ⟨m, rfl, resumed_of_next hn hm⟩

theorem running_of_resumed (hn : s.next a = some s') (hres : s.resumed a = some i) :
    (∃ m, s.atScheduler a = some m) ∧ s'.running = i := by
  rcases resumed_cases hn with ⟨-, hnone⟩ | ⟨m, hm, hsome⟩
  · rw [hnone] at hres
    cases hres
  · exact ⟨⟨m, hm⟩, Option.some.inj (hsome.symm.trans hres)⟩

/-- One step of a round: `i` and `j` keep their entries `p` and `q`, and
the step counts as going to `q` or not. -/
theorem round_step (h : Inv tid s) (hn : s.next a = some s') (hp' : s'.Has i p) (hq' : s'.Has j q)
    (hne : s.resumed a ≠ some i) (hround : Round p q s.current n) :
    Round p q s'.current (n + (s.resumed a).toList.count j) := by
  have h' := h.step hn
  rcases resumed_cases hn with ⟨hm, hres⟩ | ⟨m, hm, hres⟩
  · rw [hres, (quiet_of_next hn hm).1]
    simpa using hround
  · have hcur := h'.has_running
    rw [hres] at hne
    have hnp : s'.current ≠ p := fun hcp => hne (by rw [(h'.has_inj hcur hp').mpr hcp])
    have hstep := hround.step (h.resumed_first hn hm) hp'.1 hq'.1 hnp
    rw [hres]
    by_cases hj : s'.running = j
    · rw [if_pos ((h'.has_inj hcur hq').mp hj)] at hstep
      simpa [hj] using hstep
    · rw [if_neg (mt (h'.has_inj hcur hq').mpr hj)] at hstep
      simpa [List.count_cons, hj] using hstep

/-- **A round**: from where thread `i` runs, as long as it is not resumed,
every other thread `j` that stays in use is resumed at most once, and once
exactly when the running thread's entry is not before its own. -/
theorem round_run {tr : List (Uthreads × UthreadAct)} (h : Inv tid s) (hp : s.Has i p)
    (hq : s.Has j q) (hcur : s.current = p) (hij : j ≠ i) (hr : Run next s tr s')
    (hno : ∀ e ∈ tr, e.1.resumed e.2 ≠ some i) (hj : ∀ e ∈ tr, e.1.Used j) (hj' : s'.Used j)
    (hi' : s'.Used i) :
    s'.Has i p ∧ s'.Has j q ∧ Round p q s'.current ((resumptions tr).count j) := by
  induction hr with
  | nil =>
    refine ⟨hp, hq, ?_⟩
    rw [hcur]
    exact .start fun hqp => hij ((h.has_inj hq hp).mpr hqp)
  | @snoc tr s₁ s₂ a hr hn ih =>
    obtain ⟨hinv, hcreated⟩ := h.run hr
    have hinv' := hinv.step hn
    obtain ⟨l, hl⟩ := hi'
    obtain ⟨l', hl'⟩ := hj'
    -- `i` is there afterwards, so it was there before the step
    have hlt : i < s₁.created :=
      Nat.lt_of_lt_of_le ((h.live i).mpr ⟨p, hp.1, hp.2⟩).1 hcreated
    obtain ⟨hp₁, hq₁, hround⟩ := ih (fun e he => hno e (List.mem_append_left _ he))
      (fun e he => hj e (List.mem_append_left _ he)) (hj (s₁, a) (by simp))
      (hinv.has_back hinv' hn hlt hl)
    have hp₂ := hinv.has_keep hinv' hn hp₁ hl
    have hq₂ := hinv.has_keep hinv' hn hq₁ hl'
    refine ⟨hp₂, hq₂, ?_⟩
    rw [resumptions_snoc, List.count_append]
    exact round_step hinv hn hp₂ hq₂ (hno (s₁, a) (by simp)) hround

/-- The round closes: the step that resumes `i` again finds that `j` was
resumed once. -/
theorem round_closes (h : Inv tid s) (hn : s.next a = some s') (hres : s.resumed a = some i)
    (hp : s.Has i p) (hq : s.Has j q) (hround : Round p q s.current n) : n = 1 := by
  have h' := h.step hn
  obtain ⟨⟨m, hm⟩, rfl⟩ := running_of_resumed hn hres
  have hp' := h.has_keep h' hn hp h'.has_running
  have hfirst := h.resumed_first hn hm
  rw [(h'.has_inj h'.has_running hp').mp rfl] at hfirst
  rcases h.has_next hn hq with hq' | ⟨hqc, -⟩
  · exact hround.close hfirst hq'.1
  · -- `j` is the thread that calls: the search starts behind its entry
    subst hqc
    rcases hround with ⟨-, hlt⟩ | ⟨hone, -⟩
    · exact absurd hlt (Nat.lt_irrefl _)
    · exact hone

/-- **User threads are scheduled round robin.** In every state reachable
from `UT_Init`, a step that calls `UT_Scheduler` finds, within `UT_COUNT`
rounds of the search, the first entry in use cyclically behind the one of
the calling thread, which is not its own as long as another is in use; and
the step goes there. Over any run, between two consecutive resumptions of
a thread `i`, every other thread that was `USED` all the time is resumed
exactly once. -/
theorem round_robin {tr : List (Uthreads × UthreadAct)} (hr : Run next (utInit tid) tr s) :
    (∀ a m, s.Enabled a → s.atScheduler a = some m →
      m.current = s.current ∧
      ∃ t s', First m.InUse m.current t ∧ (∃ n < utCount, m.scan (n + 1) m.schedIndex = some t) ∧
        ((∃ k, m.InUse k ∧ k ≠ m.current) → t ≠ m.current) ∧
        s.next a = some s' ∧ s'.current = t ∧ s.resumed a = some s'.running) ∧
    ∀ i tr₁ s₁ a₁ mid s₂ a₂ tr₂, tr = tr₁ ++ (s₁, a₁) :: (mid ++ (s₂, a₂) :: tr₂) →
      s₁.resumed a₁ = some i → s₂.resumed a₂ = some i →
      (∀ e ∈ mid, e.1.resumed e.2 ≠ some i) →
      ∀ j, j ≠ i → (∀ e ∈ mid ++ [(s₂, a₂)], e.1.Used j) → (resumptions mid).count j = 1 := by
  have h := inv_run hr
  constructor
  · intro a m ha hm
    have hfound := h.found ha hm
    obtain ⟨t, hfirst, hlt, hscan⟩ := hfound.core.scan_first
    obtain ⟨s', hn, -⟩ := h.next_step ha
    have hgo := hfound.core.utScheduler_first (utScheduler_of_next hn hm)
    refine ⟨hfound.current, t, s', hfirst, ⟨_, hlt, hscan _ (Nat.lt_succ_self _)⟩, ?_, hn, ?_,
      resumed_of_next hn hm⟩
    · rintro ⟨k, hk, hne⟩
      exact hfirst.ne_self hk hne
    · exact hgo.1.unique hfirst
  · intro i tr₁ s₁ a₁ mid s₂ a₂ tr₂ htr hres₁ hres₂ hno j hij hused
    obtain ⟨hr₁, -⟩ := hr.before htr
    obtain ⟨s₁', hn₁, hrest⟩ := hr.after htr
    obtain ⟨hmid, s₂', hn₂⟩ := hrest.before rfl
    have h₁ := (inv_run hr₁).step hn₁
    have h₂ := (h₁.run hmid).1
    have h₂' := h₂.step hn₂
    have hi₁ : s₁'.Has i s₁'.current := (running_of_resumed hn₁ hres₁).2 ▸ h₁.has_running
    have hi₂ : s₂.Used i := by
      have hlt : i < s₂.created :=
        Nat.lt_of_lt_of_le ((h₁.live i).mpr ⟨_, hi₁.1, hi₁.2⟩).1 (h₁.run hmid).2
      exact h₂.has_back h₂' hn₂ hlt ((running_of_resumed hn₂ hres₂).2 ▸ h₂'.has_running)
    obtain ⟨b, hb⟩ := hmid.first a₂
    obtain ⟨q, hq⟩ := hused (s₁', b) hb
    obtain ⟨hp₂, hq₂, hround⟩ := round_run h₁ hi₁ hq rfl hij hmid hno
      (fun e he => hused e (List.mem_append_left _ he)) (hused (s₂, a₂) (by simp)) hi₂
    exact round_closes h₂ hn₂ hres₂ hp₂ hq₂ hround

/-- The root creates two threads, and each thread yields in its turn. -/
def twoThreads : List (Uthreads × UthreadAct) × Uthreads :=
  (follow next (utInit 0) [.create, .create, .yield, .yield, .yield, .yield]).get (by decide)

/-- The step of `twoThreads` that follows `n` others. -/
def twoThreadsStep (n : Fin 6) : Uthreads × UthreadAct :=
  twoThreads.1.get ⟨n, by
    have : twoThreads.1.length = 6 := by decide
    omega⟩

/-- Thread 1 is resumed by the third step and by the sixth; the threads 2
and 0 have one turn each in between. -/
theorem round_robin_twoThreads :
    (twoThreadsStep 2).1.resumed (twoThreadsStep 2).2 = some 1 ∧
    (twoThreadsStep 5).1.resumed (twoThreadsStep 5).2 = some 1 ∧
    ∀ j, j = 0 ∨ j = 2 → (resumptions [twoThreadsStep 3, twoThreadsStep 4]).count j = 1 := by
  have hr : Run next (utInit 0) twoThreads.1 twoThreads.2 := run_get _
  refine ⟨by decide, by decide, fun j hj => ?_⟩
  refine (round_robin hr).2 1 [twoThreadsStep 0, twoThreadsStep 1] _ _ _ (twoThreadsStep 5).1
    (twoThreadsStep 5).2 [] rfl (by decide) (by decide) (by decide) j ?_ ?_
  · rcases hj with rfl | rfl <;> decide
  · rcases hj with rfl | rfl <;> decide

end Uthreads

end Xv6.User
