/-
Xv6.User.UthreadTheorems — the table of user threads along every run.

`Core` is what holds while the library itself runs: it lets the entry of
the running thread be `UNUSED`, as it is inside `UT_exit`. `Inv` adds that
the entry is `USED`, and is what user code finds.

The one argument is about `UT_Scheduler` (`Core.utScheduler`): its search
starts behind the running thread's entry and comes back to that entry
last, so it stops at another `USED` entry whenever there is one; and there
is one whenever the early return is not taken, since entry 0 is always
`USED`.
-/
import Xv6.User.Uthread
import Mathlib.Data.Fintype.Card

namespace Xv6.User

open Xv6.Lib Function

variable {j k t : Fin utCount} {n : Nat}

namespace Uthreads

variable {s s' : Uthreads} {tid : Int32}

def usedSlots (s : Uthreads) : Finset (Fin utCount) :=
  Finset.univ.filter fun k => (s.utable k).state = .used

@[simp] theorem mem_usedSlots : k ∈ s.usedSlots ↔ (s.utable k).state = .used := by
  simp [usedSlots]

/-- What holds while the library runs. `tid` is the value of the counter
before `UT_Init`. -/
structure Core (tid : Int32) (s : Uthreads) : Prop where
  root : (s.utable 0).state = .used ∧ (s.utable 0).thread = 0
  running : (s.utable s.current).thread = s.running
  count : s.uthreadCount = s.usedSlots.card
  context : ∀ k, (s.utable k).state = .used → k ≠ s.current →
    (s.utable k).context = some ⟨(s.utable k).thread, s.switches (s.utable k).thread⟩
  distinct : ∀ j k, (s.utable j).state = .used → (s.utable k).state = .used →
    (s.utable j).thread = (s.utable k).thread → j = k
  own : ∀ k, (s.utable k).state = .used → (s.utable k).thread = s.running → k = s.current
  live : ∀ i, (i < s.created ∧ s.exited i = false) ↔
    ∃ k, (s.utable k).state = .used ∧ (s.utable k).thread = i
  fresh : ∀ i, s.created ≤ i → s.switches i = 0 ∧ s.exited i = false
  current_lt : s.running < s.created
  utid : ∀ k, (s.utable k).state = .used →
    (s.utable k).utid = tid + Int32.ofNat (s.utable k).thread
  next : s.tid = tid + Int32.ofNat s.created
  freed : s.freed = true → s.uthreadCount = 1

/-- What user code finds. -/
structure Inv (tid : Int32) (s : Uthreads) : Prop extends Core tid s where
  used : (s.utable s.current).state = .used

/-! ## Positions in the table -/

theorem current_eq (s : Uthreads) : s.current = s.schedIndex - 1 := by
  unfold current
  generalize s.schedIndex = i
  revert i
  decide

theorem current_succ (s : Uthreads) : s.current + 1 = s.schedIndex := by
  rw [current_eq]
  generalize s.schedIndex = i
  revert i
  decide

theorem current_eq_zero : s.current = 0 ↔ s.schedIndex = 1 := by
  rw [current_eq]
  generalize s.schedIndex = i
  revert i
  decide

theorem incrementSchedIndex_eq (i : Fin utCount) : incrementSchedIndex i = i + 1 := by
  revert i
  decide

/-- Going round from behind an entry, the search meets every entry within
`UT_COUNT` rounds. -/
theorem exists_iterate (i k : Fin utCount) : ∃ d < utCount, (· + 1)^[d] i = k := by
  revert i k
  decide

theorem iterate_eq_self (i : Fin utCount) :
    ∀ d < utCount, (· + 1)^[d] (i + 1) = i → ∀ k, k ≠ i → ∃ e < d, (· + 1)^[e] (i + 1) = k := by
  revert i
  decide

theorem scan_eq_none {i : Fin utCount} (h : s.scan n i = none) :
    ∀ d < n, (s.utable ((· + 1)^[d] i)).state ≠ .used := by
  induction n generalizing i with
  | zero => simp
  | succ n ih =>
    unfold scan at h
    split at h
    · cases h
    rename_i hi
    rw [incrementSchedIndex_eq] at h
    intro d hd
    cases d with
    | zero => exact hi
    | succ d =>
      rw [Function.iterate_succ_apply]
      exact ih h d (by omega)

theorem scan_eq_some {i : Fin utCount} (h : s.scan n i = some t) : (s.utable t).state = .used ∧
    ∃ d < n, (· + 1)^[d] i = t ∧ ∀ e < d, (s.utable ((· + 1)^[e] i)).state ≠ .used := by
  induction n generalizing i with
  | zero => cases h
  | succ n ih =>
    unfold scan at h
    split at h
    · next hi =>
      cases h
      exact ⟨hi, 0, by omega, rfl, by simp⟩
    rename_i hi
    rw [incrementSchedIndex_eq] at h
    obtain ⟨ht, d, hd, heq, hbefore⟩ := ih h
    refine ⟨ht, d + 1, by omega, ?_, ?_⟩
    · rw [Function.iterate_succ_apply, heq]
    · intro e he
      cases e with
      | zero => exact hi
      | succ e =>
        rw [Function.iterate_succ_apply]
        exact hbefore e (by omega)

/-- If an entry other than the running thread's is in use, the search ends
at such an entry. -/
theorem scan_finds (hk : (s.utable k).state = .used) (hne : k ≠ s.current) :
    ∃ t, s.scan utCount s.schedIndex = some t ∧ (s.utable t).state = .used ∧ t ≠ s.current := by
  cases hs : s.scan utCount s.schedIndex with
  | none =>
    obtain ⟨d, hd, rfl⟩ := exists_iterate s.schedIndex k
    exact absurd hk (scan_eq_none hs d hd)
  | some t =>
    obtain ⟨ht, d, hd, heq, hbefore⟩ := scan_eq_some hs
    refine ⟨t, rfl, ht, ?_⟩
    rintro rfl
    rw [← current_succ] at heq hbefore
    obtain ⟨e, he, hek⟩ := iterate_eq_self _ d hd heq k hne
    exact hbefore e he (hek ▸ hk)

/-! ## The scheduler -/

theorem Core.exists_other (h : Core tid s)
    (hr : ¬ (s.uthreadCount = 1 ∧ s.schedIndex = 1)) :
    ∃ k, (s.utable k).state = .used ∧ k ≠ s.current := by
  by_cases hc : s.current = 0
  · have hcard : s.usedSlots.card ≠ 1 := by
      have := h.count
      simp only [current_eq_zero.mp hc, and_true] at hr
      omega
    have hmem : (0 : Fin utCount) ∈ s.usedSlots := mem_usedSlots.mpr h.root.1
    have hpos := Finset.card_pos.mpr ⟨0, hmem⟩
    have hmany : 1 < s.usedSlots.card := by omega
    obtain ⟨k, hk, hne⟩ := Finset.exists_mem_ne hmany 0
    exact ⟨k, mem_usedSlots.mp hk, hc ▸ hne⟩
  · exact ⟨0, h.root.1, fun h0 => hc h0.symm⟩

/-- The state after switching to entry `t`. -/
def switched (s : Uthreads) (t : Fin utCount) : Uthreads :=
  ({ s with schedIndex := incrementSchedIndex t } : Uthreads).swtch s.current
    ⟨(s.utable t).thread, s.switches (s.utable t).thread⟩

@[simp] theorem switched_current (s : Uthreads) (t : Fin utCount) : (s.switched t).current = t := by
  rw [current_eq]
  simp only [switched, Uthreads.swtch]
  revert t
  decide

theorem switched_utable (s : Uthreads) (t k : Fin utCount) :
    ((s.switched t).utable k).state = (s.utable k).state ∧
    ((s.switched t).utable k).thread = (s.utable k).thread ∧
    ((s.switched t).utable k).utid = (s.utable k).utid := by
  by_cases hk : k = s.current <;> simp [switched, Uthreads.swtch, update, hk]

theorem Core.switched (h : Core tid s) (ht : (s.utable t).state = .used) :
    Inv tid (s.switched t) where
  root := by simpa [switched_utable] using h.root
  running := by simp [switched_utable]; rfl
  count := by
    have hslots : (s.switched t).usedSlots = s.usedSlots := by
      ext k
      simp [switched_utable]
    rw [hslots]
    exact h.count
  context := by
    intro k hk hkt
    rw [switched_current] at hkt
    simp only [switched_utable] at hk ⊢
    by_cases hkc : k = s.current
    · -- The entry left: its thread is the one that switched.
      subst hkc
      simp [Uthreads.switched, Uthreads.swtch, h.running]
    · have hother : (s.utable k).thread ≠ s.running := fun hr => hkc (h.own k hk hr)
      simpa [Uthreads.switched, Uthreads.swtch, hkc, hother] using h.context k hk hkc
  distinct := by simpa [switched_utable] using h.distinct
  own := by
    intro k hk hr
    rw [switched_current]
    simp only [switched_utable] at hk hr
    exact h.distinct k t hk ht hr
  live := by
    simp only [switched_utable]
    exact h.live
  fresh := by
    intro i hi
    have hlt := h.current_lt
    have hne : i ≠ s.running := by
      rintro rfl
      exact absurd hi (by simpa [Uthreads.switched, Uthreads.swtch] using hlt)
    simpa [Uthreads.switched, Uthreads.swtch, hne] using h.fresh i hi
  current_lt := ((h.live _).mpr ⟨t, ht, rfl⟩).1
  utid := by simpa [switched_utable] using h.utid
  next := h.next
  freed := h.freed
  used := by simpa [switched_utable] using ht

theorem Core.utScheduler_eq (h : Core tid s) (hr : ¬ (s.uthreadCount = 1 ∧ s.schedIndex = 1))
    (hscan : s.scan utCount s.schedIndex = some t) (hne : t ≠ s.current) :
    s.utScheduler = some (s.switched t) := by
  simp [Uthreads.utScheduler, hr, hscan, h.context t (scan_eq_some hscan).1 hne,
    Uthreads.switched]

theorem Core.utScheduler (h : Core tid s) : ∃ s', s.utScheduler = some s' ∧ Inv tid s' := by
  by_cases hr : s.uthreadCount = 1 ∧ s.schedIndex = 1
  · refine ⟨s, by simp [Uthreads.utScheduler, hr], { h with used := ?_ }⟩
    rw [current_eq_zero.mpr hr.2]
    exact h.root.1
  · obtain ⟨k, hk, hne⟩ := h.exists_other hr
    obtain ⟨t, hscan, ht, htne⟩ := scan_finds hk hne
    exact ⟨_, h.utScheduler_eq hr hscan htne, h.switched ht⟩

/-! ## The calls -/

/-- The state after `UT_Create` takes entry `k`. -/
def taken (s : Uthreads) (k : Fin utCount) : Uthreads :=
  { s with
    utable := update s.utable k
      { state := .used, utid := s.tid, context := some ⟨s.created, 0⟩, thread := s.created }
    tid := s.tid + 1
    uthreadCount := s.uthreadCount + 1
    created := s.created + 1 }

@[simp] theorem taken_self (s : Uthreads) (k : Fin utCount) : (s.taken k).utable k =
    { state := .used, utid := s.tid, context := some ⟨s.created, 0⟩, thread := s.created } := by
  simp [taken]

@[simp] theorem taken_of_ne (h : j ≠ k) : (s.taken k).utable j = s.utable j := by
  simp [taken, h]

theorem taken_used : ((s.taken k).utable j).state = .used ↔ j = k ∨ (s.utable j).state = .used := by
  by_cases hj : j = k <;> simp [hj]

theorem Inv.taken (h : Inv tid s) (hf : s.freed = false) (hk : (s.utable k).state = .unused) :
    Inv tid (s.taken k) := by
  have hne : ∀ j, (s.utable j).state = .used → j ≠ k := by
    rintro j hj rfl
    simp [hk] at hj
  have hold : ∀ j, (s.utable j).state = .used → (s.utable j).thread < s.created :=
    fun j hj => ((h.live _).mpr ⟨j, hj, rfl⟩).1
  have hcur : (s.taken k).utable s.current = s.utable s.current := taken_of_ne (hne _ h.used)
  constructor
  · constructor
    · rw [taken_of_ne (hne 0 h.root.1)]
      exact h.root
    · exact hcur ▸ h.running
    · have hslots : (s.taken k).usedSlots = insert k s.usedSlots := by
        ext j
        simp [taken_used]
      rw [hslots, Finset.card_insert_of_notMem (by simp [hk])]
      simp [Uthreads.taken, h.count]
    · intro j hj hjc
      rcases taken_used.mp hj with rfl | hj
      · simp [Uthreads.taken, (h.fresh _ (Nat.le_refl _)).1]
      · rw [taken_of_ne (hne j hj)]
        exact h.context j hj hjc
    · intro i j hi hj heq
      rcases taken_used.mp hi with hik | hi' <;> rcases taken_used.mp hj with hjk | hj'
      · rw [hik, hjk]
      · rw [hik, taken_self, taken_of_ne (hne j hj')] at heq
        exact absurd heq.symm (Nat.ne_of_lt (hold j hj'))
      · rw [hjk, taken_self, taken_of_ne (hne i hi')] at heq
        exact absurd heq (Nat.ne_of_lt (hold i hi'))
      · rw [taken_of_ne (hne i hi'), taken_of_ne (hne j hj')] at heq
        exact h.distinct i j hi' hj' heq
    · intro j hj heq
      rcases taken_used.mp hj with rfl | hj
      · rw [taken_self] at heq
        exact absurd heq.symm (Nat.ne_of_lt h.current_lt)
      · rw [taken_of_ne (hne j hj)] at heq
        exact h.own j hj heq
    · intro i
      constructor
      · rintro ⟨hi, hex⟩
        rcases Nat.lt_succ_iff_lt_or_eq.mp hi with hi | rfl
        · obtain ⟨j, hj, hthread⟩ := (h.live i).mp ⟨hi, hex⟩
          refine ⟨j, taken_used.mpr (.inr hj), ?_⟩
          rw [taken_of_ne (hne j hj)]
          exact hthread
        · exact ⟨k, by simp, by simp⟩
      · rintro ⟨j, hj, hthread⟩
        rcases taken_used.mp hj with rfl | hj
        · rw [taken_self] at hthread
          subst hthread
          exact ⟨Nat.lt_succ_self _, (h.fresh _ (Nat.le_refl _)).2⟩
        · rw [taken_of_ne (hne j hj)] at hthread
          obtain ⟨hi, hex⟩ := (h.live i).mpr ⟨j, hj, hthread⟩
          exact ⟨Nat.lt_succ_of_lt hi, hex⟩
    · exact fun i hi => h.fresh i (Nat.le_of_succ_le hi)
    · exact Nat.lt_succ_of_lt h.current_lt
    · intro j hj
      rcases taken_used.mp hj with rfl | hj
      · simpa using h.next
      · rw [taken_of_ne (hne j hj)]
        exact h.utid j hj
    · simp only [Uthreads.taken, h.next, Int32.ofNat_add, Int32.add_assoc]
      rfl
    · simp [Uthreads.taken, hf]
  · exact hcur ▸ h.used

theorem Inv.utCreate (h : Inv tid s) (hf : s.freed = false) : Inv tid s.utCreate.2 := by
  unfold Uthreads.utCreate
  split
  · exact h
  · next k hk => exact h.taken hf (by simpa using List.find?_some hk)

/-- `UT_exit` of a thread other than the root, up to the scheduler. -/
def leave (s : Uthreads) : Uthreads :=
  { s with
    utable := update s.utable s.current { s.utable s.current with state := .unused }
    uthreadCount := s.uthreadCount - 1
    exited := update s.exited s.running true }

theorem leave_used :
    ((s.leave).utable k).state = .used ↔ k ≠ s.current ∧ (s.utable k).state = .used := by
  by_cases hk : k = s.current
  · simp [leave, hk]
  · simp [leave, hk]

theorem leave_utable (k : Fin utCount) :
    ((s.leave).utable k).thread = (s.utable k).thread ∧
    ((s.leave).utable k).utid = (s.utable k).utid ∧
    ((s.leave).utable k).context = (s.utable k).context := by
  by_cases hk : k = s.current <;> simp [leave, update, hk]

theorem leave_current : s.leave.current = s.current := rfl

theorem Inv.leave (h : Inv tid s) (hc : s.current ≠ 0) (hf : s.freed = false) :
    Core tid s.leave where
  root := by
    rw [leave_used, (leave_utable 0).1]
    exact ⟨⟨hc.symm, h.root.1⟩, h.root.2⟩
  running := by
    rw [leave_current, (leave_utable _).1]
    exact h.running
  count := by
    have hslots : s.leave.usedSlots = s.usedSlots.erase s.current := by
      ext k
      simp [leave_used]
    have hmem := mem_usedSlots.mpr h.used
    have hcount := h.count
    have hpos := Finset.card_pos.mpr ⟨_, hmem⟩
    rw [hslots, Finset.card_erase_of_mem hmem]
    simp only [Uthreads.leave]
    omega
  context := by
    intro k hk hne
    rw [leave_used] at hk
    simp only [leave_utable]
    exact h.context k hk.2 hk.1
  distinct := by
    intro j k hj hk
    rw [leave_used] at hj hk
    simp only [leave_utable]
    exact h.distinct j k hj.2 hk.2
  own := by
    intro k hk
    rw [leave_used] at hk
    simp only [leave_utable]
    exact h.own k hk.2
  live := by
    intro i
    simp only [leave_used, leave_utable]
    by_cases hi : i = s.running
    · -- Nobody else has the entry of the thread that exits.
      subst hi
      simp only [Uthreads.leave, update_self, Bool.true_eq_false, and_false, false_iff,
        not_exists]
      exact fun k hk => hk.1.1 (h.own k hk.1.2 hk.2)
    · simp only [Uthreads.leave, update_of_ne hi, h.live i]
      constructor
      · rintro ⟨k, hk, rfl⟩
        refine ⟨k, ⟨?_, hk⟩, rfl⟩
        rintro rfl
        exact hi h.running
      · exact fun ⟨k, hk, hthread⟩ => ⟨k, hk.2, hthread⟩
  fresh := by
    intro i hi
    have hne : i ≠ s.running := by
      rintro rfl
      exact absurd h.current_lt (Nat.not_lt.mpr hi)
    simpa [Uthreads.leave, hne] using h.fresh i hi
  current_lt := h.current_lt
  utid := by
    intro k hk
    rw [leave_used] at hk
    simp only [leave_utable]
    exact h.utid k hk.2
  next := h.next
  freed := by simp [Uthreads.leave, hf]

theorem Inv.shutdownLoop (h : Inv tid s) : ∃ s', s.shutdownLoop = some s' ∧ Inv tid s' := by
  by_cases hc : s.uthreadCount = 1
  · exact ⟨{ s with freed := true }, by simp [Uthreads.shutdownLoop, hc],
      { h with freed := fun _ => hc }⟩
  · obtain ⟨s', hs', hinv⟩ := h.toCore.utScheduler
    exact ⟨s', by simpa [Uthreads.shutdownLoop, hc, utYield] using hs', hinv⟩

theorem Inv.utExit (h : Inv tid s) (hf : s.freed = false) :
    ∃ s', s.utExit = some s' ∧ Inv tid s' := by
  by_cases hi : s.schedIndex = 1
  · have hin : Inv tid { s with inShutdown := update s.inShutdown s.running true } :=
      { h with }
    obtain ⟨s', hs', hinv⟩ := hin.shutdownLoop
    exact ⟨s', by simpa [Uthreads.utExit, hi] using hs', hinv⟩
  · obtain ⟨s', hs', hinv⟩ := (h.leave (mt current_eq_zero.mp hi) hf).utScheduler
    exact ⟨s', by simpa [Uthreads.utExit, hi, Uthreads.leave] using hs', hinv⟩

theorem Inv.next_step (h : Inv tid s) {a : UthreadAct} (ha : s.Enabled a) :
    ∃ s', s.next a = some s' ∧ Inv tid s' := by
  simp only [Uthreads.next, ha, if_true]
  cases a with
  | create => exact ⟨_, rfl, h.utCreate ha.1⟩
  | yield => exact h.toCore.utScheduler
  | exit => exact h.utExit ha.1
  | loop => exact h.shutdownLoop

theorem utInit_used : ((utInit tid).utable k).state = .used ↔ k = 0 := by
  by_cases hk : k = 0 <;> simp [utInit, hk]

theorem utInit_current : (utInit tid).current = 0 := current_eq_zero.mpr rfl

theorem inv_utInit (tid : Int32) : Inv tid (utInit tid) where
  root := ⟨rfl, rfl⟩
  running := rfl
  count := by
    have hslots : (utInit tid).usedSlots = {0} := by
      ext k
      simp [utInit_used]
    rw [hslots]
    rfl
  context := by
    intro k hk hne
    rw [utInit_current] at hne
    exact absurd (utInit_used.mp hk) hne
  distinct := by
    intro j k hj hk _
    rw [utInit_used.mp hj, utInit_used.mp hk]
  own := by
    intro k hk _
    rw [utInit_current, utInit_used.mp hk]
  live := by
    intro i
    constructor
    · rintro ⟨hi, -⟩
      exact ⟨0, rfl, (Nat.lt_one_iff.mp hi).symm⟩
    · rintro ⟨k, hk, rfl⟩
      rw [utInit_used.mp hk]
      exact ⟨Nat.one_pos, rfl⟩
  fresh := fun _ _ => ⟨rfl, rfl⟩
  current_lt := Nat.one_pos
  utid := by
    intro k hk
    rw [utInit_used.mp hk]
    exact (Int32.add_zero tid).symm
  next := rfl
  freed := by simp [utInit]
  used := rfl

theorem inv_run {tr : List (Uthreads × UthreadAct)} (hr : Run next (utInit tid) tr s) :
    Inv tid s := by
  induction hr with
  | nil => exact inv_utInit tid
  | snoc _ hn ih =>
    have ha := (Option.ite_none_right_eq_some.mp hn).1
    obtain ⟨s', hs', hinv⟩ := ih.next_step ha
    obtain rfl := Option.some.inj (hs'.symm.trans hn)
    exact hinv

/-! ## The table along a run -/

theorem ofNat_add_inj {m : Nat} (hm : m < 2 ^ 32) (hn : n < 2 ^ 32)
    (h : tid + Int32.ofNat m = tid + Int32.ofNat n) : m = n := by
  rw [← Int32.toBitVec_inj, Int32.toBitVec_add, Int32.toBitVec_add, BitVec.add_right_inj,
    Int32.toBitVec_ofNat', Int32.toBitVec_ofNat', ← BitVec.toNat_inj, BitVec.toNat_ofNat,
    BitVec.toNat_ofNat, Nat.mod_eq_of_lt hm, Nat.mod_eq_of_lt hn] at h
  exact h

/-- Two entries have one utid only if their threads are 2^32 creations
apart. -/
theorem Inv.utid_inj (h : Inv tid s) (hc : s.created ≤ 2 ^ 32) (hj : (s.utable j).state = .used)
    (hk : (s.utable k).state = .used) (heq : (s.utable j).utid = (s.utable k).utid) : j = k := by
  have hlt : ∀ i, (s.utable i).state = .used → (s.utable i).thread < 2 ^ 32 := fun i hi =>
    Nat.lt_of_lt_of_le ((h.live _).mpr ⟨i, hi, rfl⟩).1 hc
  rw [h.utid j hj, h.utid k hk] at heq
  exact h.distinct j k hj hk (ofNat_add_inj (hlt j hj) (hlt k hk) heq)

theorem Inv.exited_of_freed (h : Inv tid s) (hf : s.freed = true) {i : Nat} (hi : i < s.created)
    (h0 : i ≠ 0) : s.exited i = true := by
  by_contra hex
  simp only [Bool.not_eq_true] at hex
  obtain ⟨k, hk, hthread⟩ := (h.live i).mp ⟨hi, hex⟩
  have hcard : s.usedSlots.card = 1 := by
    have := h.count
    have := h.freed hf
    omega
  obtain rfl := Finset.card_le_one.mp hcard.le k (mem_usedSlots.mpr hk) 0
    (mem_usedSlots.mpr h.root.1)
  exact h0 (hthread.symm.trans h.root.2)

/-- **The table of user threads**, in every run that starts with
`UT_Init`, whatever the counter `tid` is then: whenever user code runs, the
running thread's entry is `sched_index - 1` modulo `UT_COUNT` and is
`USED`; entry 0 is `USED` and the root's; `uthread_count` counts the `USED`
entries; every other `USED` entry has its thread's last context; the table
is freed only after all other threads have exited; no call gets stuck; and
as long as at most 2^32 threads were created, root included, the utids in
use are distinct. -/
theorem uthread_table {tr : List (Uthreads × UthreadAct)} (hr : Run next (utInit tid) tr s) :
    ((s.utable (s.schedIndex - 1)).thread = s.running ∧
      (s.utable (s.schedIndex - 1)).state = .used) ∧
    ((s.utable 0).state = .used ∧ (s.utable 0).thread = 0) ∧
    s.uthreadCount = (Finset.univ.filter fun k => (s.utable k).state = .used).card ∧
    (s.created ≤ 2 ^ 32 → ∀ j k, (s.utable j).state = .used → (s.utable k).state = .used →
      (s.utable j).utid = (s.utable k).utid → j = k) ∧
    (∀ k, (s.utable k).state = .used → k ≠ s.schedIndex - 1 →
      (s.utable k).context = some ⟨(s.utable k).thread, s.switches (s.utable k).thread⟩) ∧
    (s.freed = true → ∀ i < s.created, i ≠ 0 → s.exited i = true) ∧
    ∀ a, s.Enabled a → (s.next a).isSome = true := by
  have h := inv_run hr
  rw [← current_eq]
  refine ⟨⟨h.running, h.used⟩, h.root, h.count, ?_, h.context, ?_, ?_⟩
  · exact fun hc j k hj hk => h.utid_inj hc hj hk
  · exact fun hf i hi h0 => h.exited_of_freed hf hi h0
  · intro a ha
    obtain ⟨s', hs', -⟩ := h.next_step ha
    simp [hs']

/-- The root creates two threads; the second exits before the root's
`UT_exit`, the first inside it. -/
def createAndExit : List (Uthreads × UthreadAct) × Uthreads :=
  (follow next (utInit 0) [.create, .create, .yield, .yield, .exit, .exit, .exit, .loop]).get
    (by decide +kernel)

theorem uthread_table_createAndExit :
    createAndExit.2.freed = true ∧ createAndExit.2.created = 3 ∧
    ∀ i < createAndExit.2.created, i ≠ 0 → createAndExit.2.exited i = true :=
  ⟨by decide +kernel, by decide +kernel,
    (uthread_table (run_get _)).2.2.2.2.2.1 (by decide +kernel)⟩

/-! ## Wrapping utids -/

/-- Only the root is there, and it runs user code. -/
structure Alone (s : Uthreads) : Prop where
  sched : s.schedIndex = 1
  running : s.running = 0
  freed : s.freed = false
  inShutdown : ∀ i, s.inShutdown i = false
  unused : ∀ k, k ≠ 0 → (s.utable k).state = .unused

section
variable (ha : s.Alone) (h : Inv tid s)
include ha h

theorem Alone.count : s.uthreadCount = 1 := by
  have hslots : s.usedSlots = {0} := by
    ext k
    by_cases hk : k = 0
    · simp [hk, h.root.1]
    · simp [hk, ha.unused k hk]
  simp [h.count, hslots]

theorem Alone.create : s.next .create = some (s.taken 1) := by
  have hen : s.Enabled .create := ⟨ha.freed, ha.inShutdown _⟩
  have hfind : s.findUnused = some 1 := by
    have hlist : List.finRange utCount = 0 :: 1 :: [2, 3, 4, 5, 6, 7] := by decide
    simp [findUnused, hlist, h.root.1, ha.unused 1 (by decide)]
  simp only [Uthreads.next, hen, if_true, Uthreads.utCreate, hfind]
  rfl

theorem Alone.yield : (s.taken 1).next .yield = some ((s.taken 1).switched 1) := by
  have hinv := h.taken ha.freed (ha.unused 1 (by decide))
  have hen : (s.taken 1).Enabled .yield := ⟨ha.freed, ha.inShutdown _⟩
  have hcur : (s.taken 1).current = 0 := current_eq_zero.mpr ha.sched
  simp only [Uthreads.next, hen, if_true]
  apply hinv.utScheduler_eq
  · simp [taken, ha.count h]
  · simp [Uthreads.scan, taken, ha.sched]
  · rw [hcur]
    decide

theorem Alone.left_used (k : Fin utCount) :
    (((s.taken 1).switched 1).leave.utable k).state = .used ↔ k = 0 := by
  rw [leave_used, switched_current, (switched_utable _ _ _).1, taken_used]
  by_cases hk : k = 0
  · have h01 : (0 : Fin utCount) ≠ 1 := by decide
    simp [hk, h.root.1, h01]
  · simp [hk, ha.unused k hk]

theorem Alone.exit :
    ((s.taken 1).switched 1).next .exit = some (((s.taken 1).switched 1).leave.switched 0) := by
  have hinv := (h.taken ha.freed (ha.unused 1 (by decide))).switched (t := 1) (by simp)
  have hen : ((s.taken 1).switched 1).Enabled .exit := ⟨ha.freed, ha.inShutdown _⟩
  have hidx : ((s.taken 1).switched 1).schedIndex ≠ 1 := by
    change incrementSchedIndex 1 ≠ 1
    decide
  have hcur : ((s.taken 1).switched 1).current = 1 := switched_current _ _
  have hne : ((s.taken 1).switched 1).current ≠ 0 := by
    rw [hcur]
    decide
  obtain ⟨t, hscan, ht, htne⟩ := scan_finds ((ha.left_used h 0).mpr rfl) hne.symm
  obtain rfl := (ha.left_used h t).mp ht
  simp only [Uthreads.next, hen, if_true, Uthreads.utExit, hidx]
  exact (hinv.leave hne ha.freed).utScheduler_eq (fun hr => hidx hr.2) hscan htne

theorem Alone.cycle : ∃ tr s', Run next s tr s' ∧ s'.Alone ∧ s'.created = s.created + 1 := by
  refine ⟨_, _, ((Run.nil.snoc (ha.create h)).snoc (ha.yield h)).snoc (ha.exit h), ?_, rfl⟩
  constructor
  · rfl
  · change (((s.taken 1).switched 1).leave.utable 0).thread = 0
    rw [(leave_utable 0).1, (switched_utable _ _ _).2.1, taken_of_ne (by decide)]
    exact h.root.2
  · exact ha.freed
  · exact ha.inShutdown
  · intro k hk
    have hnot := mt (ha.left_used h k).mp hk
    rw [(switched_utable _ _ _).1]
    cases hst : (((s.taken 1).switched 1).leave.utable k).state with
    | unused => rfl
    | used => exact absurd hst hnot

end

theorem exists_alone (n : Nat) :
    ∃ tr s, Run next (utInit 0) tr s ∧ s.Alone ∧ s.created = n + 1 := by
  induction n with
  | zero => exact ⟨[], _, .nil, ⟨rfl, rfl, rfl, fun _ => rfl, by decide⟩, rfl⟩
  | succ n ih =>
    obtain ⟨tr, s, hr, ha, hc⟩ := ih
    obtain ⟨tr', s', hr', ha', hc'⟩ := ha.cycle (inv_run hr)
    exact ⟨tr ++ tr', s', hr.append hr', ha', by rw [hc', hc]⟩

/-- The thread created after 2^32 - 1 others has the utid of the root. -/
theorem utids_wrap : ∃ tr s, Run next (utInit 0) tr s ∧
    (s.utable 0).state = .used ∧ (s.utable 1).state = .used ∧
    (s.utable 0).utid = (s.utable 1).utid := by
  obtain ⟨tr, s, hr, ha, hc⟩ := exists_alone (2 ^ 32 - 1)
  have h := inv_run hr
  have hr' := hr.snoc (ha.create h)
  refine ⟨_, _, hr', (inv_run hr').root.1, by simp, ?_⟩
  rw [(inv_run hr').utid 0 (inv_run hr').root.1, (inv_run hr').root.2, taken_self]
  simp only [h.next, hc]
  decide

end Uthreads

end Xv6.User
