/-
Xv6.Kern.FamilyTheorems — the protocol of `exit` and `wait`.

`turn` is the step lemma: what one action of the machine of `Family.lean`
does to parents, zombies and marks. Along a run it gives that a `ZOMBIE`
has called `exit` and has not been returned since, so that a `wait` that
returns it is the only one for that `exit`.

`exit_wait_protocol` is the whole protocol. A pid that `wait` returns can
be `-1`: `nextpid` wraps, and a `fork` that finds no memory uses up a pid
without a process. `wait_returns_pid_neg_one` is such a run.
-/
import Xv6.Kern.Family
import Xv6.Kern.SpaceTheorems

namespace Xv6.Kern

open Xv6.Lib Xv6.Mem Function

variable {ncpu : Nat} {s : Family ncpu} {e : Family ncpu × Move ncpu} {c : Fin ncpu} {p z : ProcIdx}

namespace Family

open Kernel

/-! ## Events of a run -/

/-- The process whose `exit` the action ends. -/
def exited : Family ncpu × Move ncpu → Option ProcIdx
  | (s, .run c .exitFinish) => s.caller c
  | _ => none

/-- The child a scan of `wait` returns. -/
def returned : Family ncpu × Move ncpu → Option ProcIdx
  | (s, .run c .waitRound) =>
    (s.caller c).bind fun p => s.k.zombieChild p
  | _ => none

/-- The entry a `kill` marks. -/
def marked : Family ncpu × Move ncpu → Option ProcIdx
  | (s, .kern (.call _ (.kill pid))) => entries.find? fun p => (s.k.proc p).pid = pid
  | _ => none

/-- `z` has called `exit`, and no `wait` has returned it since. -/
def Unreturned (tr : List (Family ncpu × Move ncpu)) (z : ProcIdx) : Prop :=
  ∃ tr₁ e tr₂, tr = tr₁ ++ e :: tr₂ ∧ exited e = some z ∧ ∀ e' ∈ tr₂, returned e' ≠ some z

theorem Unreturned.snoc {tr : List (Family ncpu × Move ncpu)} (h : Unreturned tr z)
    (he : returned e ≠ some z) : Unreturned (tr ++ [e]) z := by
  obtain ⟨tr₁, x, tr₂, rfl, hx, hrest⟩ := h
  refine ⟨tr₁, x, tr₂ ++ [e], by simp, hx, fun e' he' => ?_⟩
  rcases List.mem_append.mp he' with h1 | h1
  · exact hrest e' h1
  · rw [List.mem_singleton.mp h1]
    exact he

/-! ## One action -/

/-- `UNUSED` or `EMBRYO`. -/
def young (e : Entry) : Bool := e.state.life = none ∨ e.state.life = some .embryo

/-- What an action does to parents, zombies and marks. -/
structure Turn (s : Family ncpu) (m : Move ncpu) (s' : Family ncpu) : Prop where
  kin : Kin s'
  zombie : ∀ z, (s'.k.roster z).state = .zombie →
    ((s.k.roster z).state = .zombie ∧ returned (s, m) ≠ some z) ∨ exited (s, m) = some z
  killed : ∀ p, (s'.k.roster p).killed = true →
    (s.k.roster p).killed = true ∨ marked (s, m) = some p
  young : ∀ p, young (s'.k.roster p) = true →
    young (s.k.roster p) = true ∨ (s'.k.roster p).killed = false

namespace Turn

variable {s s' : Family ncpu} {m : Move ncpu}

theorem of_kept (hk : Kin s') (hret : returned (s, m) = none)
    (hlife : ∀ q, (s'.k.roster q).state.life = (s.k.roster q).state.life)
    (hkilled : ∀ q, (s'.k.roster q).killed = true →
      (s.k.roster q).killed = true ∨ marked (s, m) = some q) : Turn s m s' := by
  refine ⟨hk, fun z hz => .inl ⟨?_, by simp [hret]⟩, hkilled, fun q hq => .inl ?_⟩
  · rwa [← ProcState.life_eq_zombie, hlife, ProcState.life_eq_zombie] at hz
  · simpa only [Family.young, hlife] using hq

/-- One entry changes, the only one the action can return. -/
theorem of_update {x : ProcIdx} {e : Entry} (hk : Kin s')
    (hr : s'.k.roster = update s.k.roster x e) (hz : e.state ≠ .zombie)
    (hkilled : e.killed = false ∨ e.killed = (s.k.roster x).killed ∧ Family.young (s.k.roster x))
    (hret : ∀ z, returned (s, m) = some z → z = x) : Turn s m s' := by
  have hother : ∀ q, q ≠ x → s'.k.roster q = s.k.roster q := fun q hq => by
    rw [hr, update_of_ne hq]
  have hx : s'.k.roster x = e := by rw [hr, update_self]
  refine ⟨hk, fun z hzz => .inl ?_, fun p hp => .inl ?_, fun p hp => ?_⟩
  · have hne : z ≠ x := by
      rintro rfl
      rw [hx] at hzz
      exact hz hzz
    rw [hother z hne] at hzz
    exact ⟨hzz, fun h => hne (hret z h)⟩
  · by_cases hpx : p = x
    · subst hpx
      rw [hx] at hp
      rcases hkilled with hf | ⟨heq, -⟩
      · simp [hf] at hp
      · rwa [← heq]
    · rwa [hother p hpx] at hp
  · by_cases hpx : p = x
    · subst hpx
      rw [hx]
      exact hkilled.symm.imp And.right id
    · rw [hother p hpx] at hp
      exact .inl hp

end Turn

/-! ### Actions of the kernel -/

theorem permits_call {op : Call} (h : s.permits (.call c op) = true) (hc : s.k.cpu c = some p) :
    (s.stage p).permits op = true := by
  simpa only [permits, hc] using h

theorem permits_enter (h : s.permits (.enter c) = true) (hc : s.k.cpu c = some p) :
    s.stage p = .user := by
  simpa only [permits, hc, decide_eq_true_eq] using h

/-- The calls that are cut into sections are not made as a whole. -/
theorem permits_whole (st : Stage) :
    st.permits .fork = false ∧ st.permits .exit = false ∧ st.permits .wait = false := by
  cases st <;> exact ⟨rfl, rfl, rfl⟩

/-- A process inside `wait` does not fall asleep by another process's
action. -/
theorem waiting_stays (h : Kin s) {a : Act ncpu} {k' : Kernel ncpu} (hp : s.permits a = true)
    (hn : s.k.next a = some k') (hw : s.stage p = .waiting)
    (hrun : (s.k.roster p).state = .running) : (k'.roster p).state = .running := by
  obtain ⟨c, hc⟩ := h.sched.running p hrun
  refine (schedInv_step h.sched hn).onCpu c p (next_cpu hn hc ?_ ?_)
  · rintro op rfl
    have := permits_call hp hc
    rw [hw] at this
    cases this
  · rintro rfl
    have := permits_enter hp hc
    rw [hw] at this
    cases this

theorem kill_killed {k : Kernel ncpu} {pid : Int} {q : ProcIdx}
    (h : ((k.kill pid).2.roster q).killed = true) :
    (k.roster q).killed = true ∨ entries.find? (fun p => (k.proc p).pid = pid) = some q := by
  unfold kill at h
  split at h
  · exact .inl h
  rename_i p hp
  simp only [setProc_roster] at h
  by_cases hq : q = p
  · rw [hq]
    exact .inr hp
  · rw [update_of_ne hq] at h
    exact .inl h

theorem turn_kern (h : Kin s) {a : Act ncpu} {k' : Kernel ncpu} (hp : s.permits a = true)
    (hn : s.k.next a = some k') : Turn s (.kern a) ⟨k', s.stage⟩ := by
  have hi := schedInv_step h.sched hn
  have hwhole : ∀ c p op, a = .call c op → s.k.cpu c = some p →
      op ≠ .fork ∧ op ≠ .exit ∧ op ≠ .wait := by
    rintro c p op rfl hc
    have hop := permits_call hp hc
    obtain ⟨h1, h2, h3⟩ := permits_whole (s.stage p)
    refine ⟨?_, ?_, ?_⟩ <;> rintro rfl
    · rw [h1] at hop
      cases hop
    · rw [h2] at hop
      cases hop
    · rw [h3] at hop
      cases hop
  cases recorded h.sched hn with
  | kept _ hk =>
    have hst : Stages s.stage k'.roster := h.stages.keep fun np hnp => by
      rw [← life_eq_embryo, (hk.entry np).life, life_eq_embryo]
      exact hnp
    refine .of_kept (h.mild hi hst (fun q => (hk.entry q).life) (fun q => (hk.entry q).parent) ?_)
      rfl (fun q => (hk.entry q).life) fun q hq => .inl ((hk.entry q).killed ▸ hq)
    intro p hw hs
    rcases (hk.entry p).sleeping hs with hrun | hsleep
    · have hrun' := waiting_stays h hp hn hw hrun
      rw [show (k'.roster p).state = .sleeping from hs] at hrun'
      cases hrun'
    · exact ⟨hw, hsleep⟩
  | kill c pid hk =>
    subst hk
    have hent := kill_entry s.k pid
    have hst : Stages s.stage (s.k.kill pid).2.roster := h.stages.keep fun np hnp => by
      rw [← life_eq_embryo, (hent np).2.2.2.2.1, life_eq_embryo]
      exact hnp
    refine .of_kept (h.mild hi hst (fun q => (hent q).2.2.2.2.1) (fun q => (hent q).2.2.1) ?_)
      rfl (fun q => (hent q).2.2.2.2.1) fun q => kill_killed
    exact fun p hw hs => ⟨hw, (hent p).2.2.2.2.2 hs, (hent p).2.2.2.1⟩
  | exit c p k₁ hc => exact absurd rfl (hwhole c p _ rfl hc).2.1
  | reap c p z op hc hop hz hr _ =>
    have hst : Stages s.stage k'.roster := h.stages.keep fun np hnp => by
      have hne : np ≠ z := by
        rintro rfl
        rw [hz] at hnp
        cases hnp
      rwa [hr, update_of_ne hne]
    refine .of_update (h.update hi hst hr ?_ ?_ ?_ ?_ fun _ => id) hr ?_ ?_ ?_
    · simp [hz, ProcState.life]
    all_goals simp [Entry.cleared, returned]
  | forkFailed c np =>
    have : ∃ p, s.k.cpu c = some p := by
      cases stepped_of_next hn with
      | call _ p _ hc => exact ⟨p, hc⟩
    obtain ⟨p, hc⟩ := this
    exact absurd rfl (hwhole c p _ rfl hc).1
  | fork c p np hc => exact absurd rfl (hwhole c p _ rfl hc).1
  | spawn c p nt fnc arg st hc hu hst' hr _ =>
    have hst : Stages s.stage k'.roster := h.stages.keep fun np hnp => by
      have hne : np ≠ nt := by
        rintro rfl
        rw [hu] at hnp
        cases hnp
      rwa [hr, update_of_ne hne]
    have hstate : st ≠ .sleeping ∧ st ≠ .zombie := by
      rcases hst' with rfl | rfl <;> simp
    refine .of_update (h.update hi hst hr ?_ ?_ hstate.1 hstate.2 fun _ => id) hr hstate.2
      (.inr ⟨rfl, by simp [young, hu, ProcState.life]⟩) ?_
    · simp [hu, ProcState.life]
    · exact fun q hq => (h.parent nt q hq).1
    · simp [returned]

/-! ### Sections of `fork` -/

variable {s : Family ncpu} {c : Fin ncpu} {p np : ProcIdx} {k' k₀ : Kernel ncpu}
  {freelist : List Page} {initcode : List UInt8} {root : InodeIdx}
  {tr : List (Family ncpu × Move ncpu)}

theorem stage_goTo_waiting {st : Stage} (hst : st ≠ .waiting) (q : ProcIdx)
    (h : (s.goTo p st k').stage q = .waiting) : s.stage q = .waiting := by
  by_cases hq : q = p
  · subst hq
    simp only [goTo, update_self] at h
    exact absurd h hst
  · simpa only [goTo, update_of_ne hq] using h

/-- A new entry fails to get a stack and is `UNUSED` again, or there is
none. -/
theorem turn_noEntry (h : Kin s) (ha : s.k.allocproc = (none, k')) :
    Turn s (.run c .forkAlloc) (s.goTo p .user k') := by
  have hi : SchedInv k' := schedInv_quiet h.sched (allocproc_allocs ha).quiet
  have hkeep : (∀ q, (k'.roster q).state = (s.k.roster q).state) →
      Stages (s.goTo p .user k').stage k'.roster := fun hst =>
    h.stages.goTo (by simp [Stage.newborn]) (by simp) fun m hm _ => by rw [hst, hm]
  rcases allocproc_none_roster ha with hsame | ⟨x, hu, hr, -⟩
  · have hro := hsame.roster
    refine .of_kept (h.mild hi (hkeep fun q => by rw [hro]) (fun q => ?_) (fun q => ?_) ?_) rfl
      (fun q => ?_) (fun q hq => .inl ?_)
    · exact congrArg (fun r => (r q).state.life) hro
    · exact congrArg (fun r => (r q).parent) hro
    · intro q hw hq
      refine ⟨stage_goTo_waiting (by simp) q hw, ?_, congrArg (fun r => (r q).chan) hro⟩
      rw [← hro]
      exact hq
    · exact congrArg (fun r => (r q).state.life) hro
    · rw [← hro]
      exact hq
  · have hst : ∀ q, (k'.roster q).state = (s.k.roster q).state := by
      intro q
      rw [hr]
      by_cases hq : q = x
      · rw [hq, update_self]
      · rw [update_of_ne hq]
    refine .of_update (h.update hi (hkeep hst) hr ?_ ?_ ?_ ?_ (stage_goTo_waiting (by simp))) hr ?_
      (.inr ⟨rfl, ?_⟩) ?_
    · simp [hu, ProcState.life]
    · exact fun q hq => (h.parent x q hq).1
    all_goals simp [hu, returned, young, ProcState.life]

theorem turn_alloc (h : Kin s) (ha : s.k.allocproc = (some np, k')) :
    Turn s (.run c .forkAlloc) (s.goTo p (.forking np) k') := by
  have hi : SchedInv k' := schedInv_quiet h.sched (allocproc_allocs ha).quiet
  obtain ⟨hu, hr, -⟩ := allocproc_some_roster ha
  have hst : Stages (s.goTo p (.forking np) k').stage k'.roster := by
    refine h.stages.alloc hu ?_ fun q hq => ?_
    · rw [hr, update_self]
    · rw [hr, update_of_ne hq]
  refine .of_update (h.update hi hst hr ?_ ?_ ?_ ?_ (stage_goTo_waiting (by simp))) hr ?_
    (.inr ⟨rfl, ?_⟩) ?_
  · simp [hu, ProcState.life]
  · exact fun q hq => (h.parent np q hq).1
  all_goals simp [returned, young, hu, ProcState.life]

theorem turn_unfilled (h : Kin s) (hs : s.stage p = .forking np)
    (hf : s.k.forkFill p np = .ok (false, k')) :
    Turn s (.run c .forkFill) (s.goTo p .user k') := by
  have hnp : (s.k.roster np).state = .embryo := h.stages.embryo p np (by rw [hs]; rfl)
  have hidle : (s.k.proc np).state.idle := by
    rw [show (s.k.proc np).state = .embryo from hnp]
    exact ProcState.idle_embryo
  have hi := schedInv_quiet h.sched (forkFill_quiet hidle hf)
  obtain ⟨hr, -⟩ := forkFill_false hf
  have hst : Stages (s.goTo p .user k').stage k'.roster := by
    refine h.stages.goTo (by simp [Stage.newborn]) (by simp) fun m hm hmp => ?_
    have hne : m ≠ np := by
      rintro rfl
      have := hmp (by rw [hs]; rfl)
      cases this
    rwa [hr, update_of_ne hne]
  refine .of_update (h.update hi hst hr ?_ ?_ ?_ ?_ (stage_goTo_waiting (by simp))) hr ?_
    (.inr ⟨rfl, ?_⟩) ?_
  · simp [hnp, ProcState.life]
  · exact fun q hq => (h.parent np q hq).1
  all_goals simp [returned, young, hnp, ProcState.life]

/-- The child gets its parent, which runs. -/
theorem turn_fill (h : Kin s) (hc : s.caller c = some p) (hs : s.stage p = .forking np)
    (hf : s.k.forkFill p np = .ok (true, k')) :
    Turn s (.run c .forkFill) (s.goTo p (.filled np) k') := by
  have hnp : (s.k.roster np).state = .embryo := h.stages.embryo p np (by rw [hs]; rfl)
  have hidle : (s.k.proc np).state.idle := by
    rw [show (s.k.proc np).state = .embryo from hnp]
    exact ProcState.idle_embryo
  have hi := schedInv_quiet h.sched (forkFill_quiet hidle hf)
  have hrun : (s.k.roster p).state = .running := h.sched.onCpu c p (caller_eq_some hc)
  obtain ⟨hr, -⟩ := forkFill_true hf
  have hst : Stages (s.goTo p (.filled np) k').stage k'.roster := by
    refine h.stages.goTo (by simp [Stage.newborn, hs]) (by simp) fun m hm _ => ?_
    rw [hr]
    by_cases hmn : m = np
    · rw [hmn, update_self]
      exact hnp
    · rwa [update_of_ne hmn]
  refine .of_update (h.update hi hst hr ?_ ?_ ?_ ?_ (stage_goTo_waiting (by simp))) hr ?_
    (.inr ⟨rfl, ?_⟩) ?_
  · simp [hnp, ProcState.life]
  · rintro q hq
    cases hq
    rw [hrun]
    rfl
  all_goals simp [hnp, returned, young, ProcState.life]

theorem turn_publish (h : Kin s) (hs : s.stage p = .filled np) :
    Turn s (.run c .forkPublish) (s.goTo p .user (s.k.setState np .runnable)) := by
  have hnp : (s.k.roster np).state = .embryo := h.stages.embryo p np (by rw [hs]; rfl)
  have hi : SchedInv (s.k.setState np .runnable) := by
    refine schedInv_quiet h.sched (.setIdle ?_ ProcState.idle_runnable)
    rw [show (s.k.proc np).state = .embryo from hnp]
    exact ProcState.idle_embryo
  have hr := setState_roster s.k np .runnable
  have hst : Stages (s.goTo p .user (s.k.setState np .runnable)).stage
      (s.k.setState np .runnable).roster := by
    refine h.stages.goTo (by simp [Stage.newborn]) (by simp) fun m hm hmp => ?_
    have hne : m ≠ np := by
      rintro rfl
      have := hmp (by rw [hs]; rfl)
      cases this
    rwa [hr, update_of_ne hne]
  refine .of_update (h.update hi hst hr ?_ ?_ ?_ ?_ (stage_goTo_waiting (by simp))) hr ?_
    (.inr ⟨rfl, ?_⟩) ?_
  · simp [hnp, ProcState.life]
  · exact fun q hq => (h.parent np q hq).1
  all_goals simp [returned, young, hnp, ProcState.life]

/-! ### Sections of `exit` -/

theorem turn_close (h : Kin s) (hp : p ≠ initproc)
    (hk : s.k.exitClose p = .ok k') : Turn s (.run c .exitClose) (s.goTo p .closed k') := by
  have hi := schedInv_quiet h.sched (exitClose_still hk).calm.toQuiet
  have hw := (exitClose_still hk).woken
  have hent := hw.kept.entry
  have hst : Stages (s.goTo p .closed k').stage k'.roster := by
    refine h.stages.goTo (by simp [Stage.newborn]) (fun _ => hp) fun m hm _ => ?_
    rw [← life_eq_embryo, (hent m).life, life_eq_embryo]
    exact hm
  refine .of_kept (h.mild hi hst (fun q => (hent q).life) (fun q => (hent q).parent) ?_) rfl
    (fun q => (hent q).life) fun q hq => .inl ((hent q).killed ▸ hq)
  intro q hwait hsleep
  refine ⟨stage_goTo_waiting (by simp) q hwait, ?_⟩
  replace hsleep : (k'.roster q).state = .sleeping := hsleep
  rcases hw.entry q with heq | ⟨-, heq⟩
  · rw [heq] at hsleep
    exact ⟨hsleep, congrArg Entry.chan heq⟩
  · rw [heq] at hsleep
    cases hsleep

/-- The parent of every entry after the exit of `p`. -/
theorem exitFinish_parent (k : Kernel ncpu) (c : Fin ncpu) (p q : ProcIdx) :
    ((k.exitFinish c p).roster q).parent = ((k.roster q).adopt p).parent := by
  obtain ⟨l, hl, -, hleft⟩ := exitFinish_left k c p
  have he := (hleft q).1.entry.parent
  rw [hl, schedOut_roster]
  by_cases hq : q = p
  · subst hq
    rw [update_self]
    exact he
  · rwa [update_of_ne hq]

/-- A child of `p` becomes a child of `initproc`, any other keeps its
parent. -/
theorem parent_adopt (p : ProcIdx) (e : Entry) :
    (e.adopt p).parent = if e.parent = some p then some initproc else e.parent := by
  unfold Entry.adopt
  split <;> rfl

theorem adopt_parent {e : Entry} {r : ProcIdx} (h : (e.adopt p).parent = some r) :
    (e.parent = some p ∧ r = initproc) ∨ (e.parent = some r ∧ r ≠ p) := by
  rw [parent_adopt] at h
  split at h
  · next hp => exact .inl ⟨hp, (Option.some.inj h).symm⟩
  rename_i hp
  refine .inr ⟨h, ?_⟩
  rintro rfl
  exact hp h

theorem kin_finish (h : Kin s) (hc : s.k.cpu c = some p) (hs : s.stage p = .closed) :
    Kin (s.goTo p .user (s.k.exitFinish c p)) := by
  have hne : initproc ≠ p := (h.stages.closed p hs).symm
  have hrun : (s.k.roster p).state = .running := h.sched.onCpu c p hc
  have hparent := exitFinish_parent s.k c p
  obtain ⟨l, hl, -, hleft⟩ := exitFinish_left s.k c p
  have hother : ∀ q, q ≠ p → (s.k.exitFinish c p).roster q = l.roster q := fun q hq => by
    rw [hl, schedOut_roster, update_of_ne hq]
  have hlife : ∀ q, q ≠ p →
      ((s.k.exitFinish c p).roster q).state.life = (s.k.roster q).state.life := fun q hq => by
    rw [hother q hq]
    exact (hleft q).1.entry.life
  refine ⟨schedInv_exitFinish h.sched hc, ?_, ?_, ?_, fun q r hq => ?_, fun r hw hsleep => ?_⟩
  · refine h.stages.goTo (by simp [Stage.newborn]) (by simp) fun m hm _ => ?_
    have hmp : m ≠ p := by
      rintro rfl
      rw [hrun] at hm
      cases hm
    rw [← life_eq_embryo]
    exact (hlife m hmp).trans (life_eq_embryo.mpr hm)
  · exact (hlife _ hne).trans h.init
  · refine (hparent _).trans ?_
    rw [Entry.adopt, if_neg (by simp [h.orphan])]
    exact h.orphan
  · rcases adopt_parent ((hparent q).symm.trans hq) with ⟨hq', rfl⟩ | ⟨hq', hrp⟩
    · refine ⟨(hlife _ hne).trans h.init, ?_⟩
      rintro rfl
      rw [h.orphan] at hq'
      cases hq'
    · exact ⟨(hlife r hrp).trans (h.parent q r hq').1, (h.parent q r hq').2⟩
  · -- whoever sleeps in `wait` slept before, and `exit` has woken the
    -- parent of `p`, and `initproc` if it gets a zombie
    have hrp : r ≠ p := by
      rintro rfl
      simp [goTo] at hw
    replace hsleep : (l.roster r).state = .sleeping := by
      rw [← hother r hrp]
      exact hsleep
    obtain ⟨hsleep', hchan'⟩ := (hleft r).1.entry.sleeping hsleep
    obtain ⟨hchan, hkids⟩ := h.asleep r (stage_goTo_waiting (by simp) r hw) hsleep'
    refine ⟨?_, fun q hq hz => ?_⟩
    · show ((s.k.exitFinish c p).roster r).chan = _
      rw [hother r hrp, hchan', hchan]
    · have hq' := adopt_parent ((hparent q).symm.trans hq)
      by_cases hqp : q = p
      · subst hqp
        rcases hq' with ⟨hself, -⟩ | ⟨hq', -⟩
        · exact (h.parent q q hself).2 rfl
        · refine (hleft r).2 hsleep ?_
          rw [hchan, hq']
          rfl
      · replace hz : (s.k.roster q).state = .zombie := by
          rw [← ProcState.life_eq_zombie, ← hlife q hqp, ProcState.life_eq_zombie]
          exact hz
        rcases hq' with ⟨hq', rfl⟩ | ⟨hq', -⟩
        · exact (hleft _).1.init hsleep (orphanZombie_of hq' hz) hchan
        · exact hkids q hq' hz

theorem turn_finish (h : Kin s) (hc : s.caller c = some p) (hs : s.stage p = .closed) :
    Turn s (.run c .exitFinish) (s.goTo p .user (s.k.exitFinish c p)) := by
  refine ⟨kin_finish h (caller_eq_some hc) hs, fun z hz => ?_, fun q hq => .inl ?_,
    fun q hq => .inl ?_⟩
  · have hlife := (exitFinish_entry (Woken.refl s.k) c p z).2.2.2
    by_cases hzp : z = p
    · rw [hzp]
      exact .inr hc
    · rw [if_neg hzp] at hlife
      refine .inl ⟨?_, by simp [returned]⟩
      rw [← ProcState.life_eq_zombie, ← hlife, ProcState.life_eq_zombie]
      exact hz
  · rw [← (exitFinish_entry (Woken.refl s.k) c p q).2.2.1]
    exact hq
  · have hlife := (exitFinish_entry (Woken.refl s.k) c p q).2.2.2
    replace hq : young ((s.k.exitFinish c p).roster q) = true := hq
    rw [young, hlife] at hq
    split at hq
    · simp at hq
    · exact hq

/-! ### A scan of `wait` -/

theorem turn_slept (h : Kin s) (hc : s.caller c = some p)
    (hw : s.k.wait c p = .ok (none, k')) : Turn s (.run c .waitRound) (s.goTo p .waiting k') := by
  have hcpu := caller_eq_some hc
  have hrun : (s.k.roster p).state = .running := h.sched.onCpu c p hcpu
  have hi := schedInv_wait h.sched hcpu hw
  cases wait_waited hw with
  | slept c' hnone hkids hk =>
    have hr : k'.roster = update s.k.roster p
        { s.k.roster p with state := .sleeping, chan := .proc p } := by
      rw [hk, sleep_roster]
    have hother : ∀ q, q ≠ p → k'.roster q = s.k.roster q := fun q hq => by
      rw [hr, update_of_ne hq]
    have hp : k'.roster p = { s.k.roster p with state := .sleeping, chan := .proc p } := by
      rw [hr, update_self]
    have hkept : Keeps s.k k' := hk ▸ kept_sleep hrun
    have hlife := fun q => (hkept.entry q).life
    have hret : returned (s, .run c .waitRound) = none := by
      simpa only [returned, hc, Option.bind_some] using hnone
    refine .of_kept ⟨hi, ?_, (hlife _).trans h.init, ?_, fun q r hq => ?_, fun r hrw hsleep => ?_⟩
      hret hlife fun q hq => .inl ((hkept.entry q).killed ▸ hq)
    · refine h.stages.goTo (by simp [Stage.newborn]) (by simp) fun m hm _ => ?_
      rw [← life_eq_embryo]
      exact (hlife m).trans (life_eq_embryo.mpr hm)
    · exact (hkept.entry _).parent.trans h.orphan
    · have := h.parent q r ((hkept.entry q).parent.symm.trans hq)
      exact ⟨(hlife r).trans this.1, this.2⟩
    · have hzombie : ∀ q, (s.k.roster q).state ≠ .zombie → (k'.roster q).state ≠ .zombie := by
        intro q hq hz
        rw [← ProcState.life_eq_zombie, hlife, ProcState.life_eq_zombie] at hz
        exact hq hz
      have hback : ∀ q, (k'.roster q).parent = some r → (s.k.roster q).parent = some r :=
        fun q hq => (hkept.entry q).parent.symm.trans hq
      by_cases hrp : r = p
      · subst hrp
        exact ⟨congrArg Entry.chan hp, fun q hq => hzombie q (hkids q (hback q hq))⟩
      · simp only [goTo, update_of_ne hrp] at hrw
        replace hsleep : (k'.roster r).state = .sleeping := hsleep
        rw [hother r hrp] at hsleep
        obtain ⟨h1, h2⟩ := h.asleep r hrw hsleep
        exact ⟨(congrArg Entry.chan (hother r hrp)).trans h1,
          fun q hq => hzombie q (h2 q (hback q hq))⟩

theorem turn_returned (h : Kin s) (hc : s.caller c = some p) {r : Int}
    (hw : s.k.wait c p = .ok (some r, k')) : Turn s (.run c .waitRound) (s.goTo p .user k') := by
  have hi := schedInv_wait h.sched (caller_eq_some hc) hw
  cases wait_waited hw with
  | reaped z hfind hparent hz hr _ =>
    have hst : Stages (s.goTo p .user k').stage k'.roster := by
      refine h.stages.goTo (by simp [Stage.newborn]) (by simp) fun m hm _ => ?_
      have hne : m ≠ z := by
        rintro rfl
        rw [hz] at hm
        cases hm
      rwa [hr, update_of_ne hne]
    refine .of_update (h.update hi hst hr ?_ ?_ ?_ ?_ (stage_goTo_waiting (by simp))) hr ?_ ?_ ?_
    · simp [hz, ProcState.life]
    · simp [Entry.cleared]
    · simp [Entry.cleared]
    · simp [Entry.cleared]
    · simp [Entry.cleared]
    · simp [Entry.cleared]
    · intro z' hz'
      simp only [returned, hc, Option.bind_some, hfind] at hz'
      exact (Option.some.inj hz').symm
  | failed hnone _ hk =>
    subst hk
    refine .of_kept (h.mild hi ?_ (fun _ => rfl) (fun _ => rfl) ?_) ?_ (fun _ => rfl)
      fun _ => .inl
    · exact h.stages.goTo (by simp [Stage.newborn]) (by simp) fun m hm _ => hm
    · exact fun q hq hs => ⟨stage_goTo_waiting (by simp) q hq, hs, rfl⟩
    · simpa only [returned, hc, Option.bind_some] using hnone

/-- **One action** keeps the invariant, makes a zombie only of a process
whose `exit` it ends, and returns no zombie that stays one. -/
theorem turn {s' : Family ncpu} {m : Move ncpu} (h : Kin s) (hn : s.next m = some s') :
    Turn s m s' := by
  cases moved_of_next hn with
  | kern a k hp hk => exact turn_kern h hp hk
  | run c p x _ hc ha =>
    cases ha with
    | noEntry k _ hk => exact turn_noEntry h hk
    | alloc np k _ hk => exact turn_alloc h hk
    | unfilled np k hs hk => exact turn_unfilled h hs hk
    | fill np k hs hk => exact turn_fill h hc hs hk
    | publish np hs => exact turn_publish h hs
    | close k _ hp hk => exact turn_close h hp hk
    | finish hs => exact turn_finish h hc hs
    | slept k _ hk => exact turn_slept h hc hk
    | returned r k _ hk => exact turn_returned h hc hk

/-! ## Runs -/

theorem kin_start {freelist : List Page} {k₀ : Kernel ncpu} {initcode : List UInt8}
    {root : InodeIdx} (h0 : (cleared ncpu (Vm.kinit freelist)).userinit initcode root = .ok k₀) :
    Kin (start k₀) := by
  have hboot := boot_userinit h0
  obtain ⟨hinit, -⟩ := userinit_roster h0
  have hrest : ∀ q, q ≠ initproc → k₀.roster q = ({} : Proc).entry := fun q hq =>
    congrArg Proc.entry (hboot.rest q hq)
  have hparent : ∀ q, (k₀.roster q).parent = none := by
    intro q
    by_cases hq : q = initproc
    · rw [hq, hinit]
    · rw [hrest q hq]
      rfl
  refine ⟨schedInv_boot hboot, ⟨?_, ?_, ?_⟩, ?_, hparent _, fun q p hq => ?_, ?_⟩
  · simp [start, Stage.newborn]
  · simp [start, Stage.newborn]
  · simp [start]
  · show (k₀.roster initproc).state.life = _
    rw [hinit]
    rfl
  · have hq' : (k₀.roster q).parent = some p := hq
    rw [hparent] at hq'
    cases hq'
  · simp [start]

/-- What a run has done to zombies and marked processes. -/
structure Past (tr : List (Family ncpu × Move ncpu)) (s : Family ncpu) : Prop where
  kin : Kin s
  zombie : ∀ z, (s.k.roster z).state = .zombie → Unreturned tr z
  killed : ∀ p, (s.k.roster p).killed = true → ∃ e ∈ tr, marked e = some p

theorem past_start {freelist : List Page} {k₀ : Kernel ncpu} {initcode : List UInt8}
    {root : InodeIdx} (h0 : (cleared ncpu (Vm.kinit freelist)).userinit initcode root = .ok k₀) :
    Past [] (start k₀) := by
  have hentry : ∀ q, (k₀.roster q).state ≠ .zombie ∧ (k₀.roster q).killed = false := by
    intro q
    by_cases hq : q = initproc
    · rw [hq, (userinit_roster h0).1]
      simp
    · rw [show k₀.roster q = ({} : Proc).entry from
        congrArg Proc.entry ((boot_userinit h0).rest q hq)]
      simp [Proc.entry]
  refine ⟨kin_start h0, fun z hz => absurd hz (hentry z).1, fun p hp => ?_⟩
  exact absurd hp (by simpa [start] using (hentry p).2)

theorem Past.snoc {tr : List (Family ncpu × Move ncpu)} {s' : Family ncpu} {m : Move ncpu}
    (h : Past tr s) (hn : s.next m = some s') : Past (tr ++ [(s, m)]) s' := by
  have ht := turn h.kin hn
  refine ⟨ht.kin, fun z hz => ?_, fun p hp => ?_⟩
  · rcases ht.zombie z hz with ⟨hz', hret⟩ | hex
    · exact (h.zombie z hz').snoc hret
    · exact ⟨tr, (s, m), [], rfl, hex, by simp⟩
  · rcases ht.killed p hp with hp' | hm
    · obtain ⟨e, he, hm⟩ := h.killed p hp'
      exact ⟨e, List.mem_append_left _ he, hm⟩
    · exact ⟨(s, m), by simp, hm⟩

theorem past_run (h0 : (cleared ncpu (Vm.kinit freelist)).userinit initcode root = .ok k₀)
    (hr : Run next (start k₀) tr s) : Past tr s := by
  induction hr with
  | nil => exact past_start h0
  | snoc _ hn ih => exact ih.snoc hn

theorem zombie_of_returned (h : returned e = some z) : (e.1.k.roster z).state = .zombie := by
  obtain ⟨s, m⟩ := e
  cases m with
  | kern a => cases h
  | run c x =>
    cases x with
    | waitRound =>
      obtain ⟨p, -, hz⟩ := Option.bind_eq_some_iff.mp h
      exact (findZombie_state hz).2
    | forkAlloc => cases h
    | forkFill => cases h
    | forkPublish => cases h
    | exitClose => cases h
    | exitFinish => cases h

theorem exited_ne_returned (h : exited e = some z) : returned e ≠ some z := by
  obtain ⟨s, m⟩ := e
  cases m with
  | kern a => cases h
  | run c x =>
    cases x with
    | exitFinish => simp [returned]
    | forkAlloc => cases h
    | forkFill => cases h
    | forkPublish => cases h
    | exitClose => cases h
    | waitRound => cases h

/-- Between two returns of one entry there is an `exit`. -/
theorem Unreturned.between {a b : List (Family ncpu × Move ncpu)} {x : Family ncpu × Move ncpu}
    (h : Unreturned (a ++ x :: b) z) (hx : returned x = some z) : ∃ e ∈ b, exited e = some z := by
  obtain ⟨tr₁, e, tr₂, heq, he, hrest⟩ := h
  have hne : x ≠ e := by
    rintro rfl
    exact exited_ne_returned he hx
  rcases List.append_eq_append_iff.mp heq with ⟨l, -, hl⟩ | ⟨l, -, hl⟩
  · cases l with
    | nil =>
      rw [List.nil_append] at hl
      exact absurd (List.cons.inj hl).1 hne
    | cons y l =>
      rw [List.cons_append] at hl
      exact ⟨e, by simp [(List.cons.inj hl).2], he⟩
  · cases l with
    | nil =>
      rw [List.nil_append] at hl
      exact absurd (List.cons.inj hl).1.symm hne
    | cons y l =>
      rw [List.cons_append] at hl
      exact absurd hx (hrest x (by simp [(List.cons.inj hl).2]))

/-- **The protocol of `exit` and `wait`**, for every interleaving of their
sections with `fork`, `kill` and everything else. A `wait` returns the pid
of a child of its caller that has called `exit` and was not returned since,
or `-1` when the caller has no child or was killed. Between two returns of
one entry there is an `exit` of it. The children of a process that exits
become children of `initproc`, and every parent is alive. A process
asleep in `wait` has no `ZOMBIE` child. -/
theorem exit_wait_protocol
    (h0 : (cleared ncpu (Vm.kinit freelist)).userinit initcode root = .ok k₀)
    (hr : Run next (start k₀) tr s) :
    (∀ c p r k', s.caller c = some p → s.stage p = .user ∨ s.stage p = .waiting →
      s.k.wait c p = .ok (some r, k') →
      (∃ z, returned (s, .run c .waitRound) = some z ∧ (s.k.proc z).parent = some p ∧
        r = (s.k.proc z).pid ∧ Unreturned tr z) ∨
      (r = -1 ∧ ((∀ q, (s.k.proc q).parent ≠ some p) ∨
        ((s.k.proc p).killed = true ∧ ∃ e ∈ tr, marked e = some p)))) ∧
    (∀ z a x b y d, tr = a ++ x :: (b ++ y :: d) → returned x = some z → returned y = some z →
      ∃ e ∈ b, exited e = some z) ∧
    (∀ c p s', s.caller c = some p → s.next (.run c .exitFinish) = some s' →
      ∀ q, (s'.k.proc q).parent =
        if (s.k.proc q).parent = some p then some initproc else (s.k.proc q).parent) ∧
    (∀ q p, (s.k.proc q).parent = some p → (s.k.proc p).state.life = some .live) ∧
    (∀ p q, s.stage p = .waiting → (s.k.proc p).state = .sleeping →
      (s.k.proc q).parent = some p → (s.k.proc q).state ≠ .zombie) := by
  have h := past_run h0 hr
  refine ⟨fun c p r k' hc _ hw => ?_, fun z a x b y d htr hx hy => ?_, fun c p s' hc hn q => ?_,
    fun q p hq => (h.kin.parent q p hq).1, fun p q hp hs => (h.kin.asleep p hp hs).2 q⟩
  · cases wait_waited hw with
    | reaped z hfind hparent hz _ _ =>
      refine .inl ⟨z, ?_, hparent, rfl, h.zombie z hz⟩
      simpa only [returned, hc, Option.bind_some] using hfind
    | failed _ hfail _ =>
      exact .inr ⟨rfl, hfail.imp id fun hk => ⟨hk, h.killed p hk⟩⟩
  · rw [← List.cons_append, ← List.append_assoc] at htr
    have hy' := past_run h0 (hr.before htr).1
    exact (hy'.zombie z (zombie_of_returned hy)).between hx
  · simp only [next, hc, Option.bind_some, act] at hn
    split at hn
    · cases hn
      exact (exitFinish_parent s.k c p q).trans (parent_adopt p _)
    · cases hn

/-- One CPU and 141 pages: enough for two processes and no more. -/
def pairMachine : Kernel 1 := (machine 1 141).get (by decide +kernel)

theorem userinit_pairMachine :
    (cleared 1 (Vm.kinit (firstPages 141))).userinit [] 0 = .ok pairMachine :=
  eq_ok_of_toOption (Option.some_get _).symm

/-- `initproc` loads a program, forks, and sleeps in `wait`; the child
exits, and `initproc` is scheduled again. -/
def childExits : List (Family 1 × Move 1) × Family 1 :=
  (follow next (start pairMachine)
    [.kern (.schedule 0 0), .kern (.call 0 (.exec onePage)), .run 0 .forkAlloc, .run 0 .forkFill,
      .run 0 .forkPublish, .run 0 .waitRound, .kern (.schedule 0 1), .run 0 .exitClose,
      .run 0 .exitFinish, .kern (.schedule 0 0)]).get (by decide +kernel)

/-- The scan that finds the child. -/
def childWaited : Option Int × Kernel 1 :=
  (childExits.2.k.wait 0 0).toOption.get (by decide +kernel)

theorem exit_wait_protocol_childExits :
    childWaited.1 = some 2 ∧
    ((∃ z, returned (childExits.2, .run 0 .waitRound) = some z ∧
        (childExits.2.k.proc z).parent = some 0 ∧ 2 = (childExits.2.k.proc z).pid ∧
        Unreturned childExits.1 z) ∨
      ((2 : Int) = -1 ∧ ((∀ q, (childExits.2.k.proc q).parent ≠ some 0) ∨
        ((childExits.2.k.proc 0).killed = true ∧ ∃ e ∈ childExits.1, marked e = some 0)))) := by
  have hr : Run next (start pairMachine) childExits.1 childExits.2 := run_get _
  obtain ⟨hpid, hc, hs⟩ : childWaited.1 = some 2 ∧ childExits.2.caller 0 = some 0 ∧
      (childExits.2.stage 0 = .user ∨ childExits.2.stage 0 = .waiting) := by
    decide +kernel
  exact ⟨hpid, (exit_wait_protocol userinit_pairMachine hr).1 0 0 2 _ hc hs
    (eq_ok_of_fst _ hpid)⟩

/-! ## A pid that is `-1` -/

/-- `k` with another pid in entry `np` and another `nextpid`. -/
def pidsUsed (k : Kernel ncpu) (np : ProcIdx) (pid next : Int) : Kernel ncpu :=
  { k.setProc np fun q => { q with pid := pid } with nextpid := next }

def starved (s : Family ncpu) (np : ProcIdx) (pid next : Int) : Family ncpu :=
  ⟨pidsUsed s.k np pid next, s.stage⟩

theorem starved_self (s : Family ncpu) (np : ProcIdx) :
    s.starved np (s.k.proc np).pid s.k.nextpid = s := by
  simp [starved, pidsUsed, Kernel.setProc]

/-- Without a free page `allocproc` only uses up a pid. -/
theorem allocproc_starved {k : Kernel ncpu} {np : ProcIdx} (hfind : k.findUnused = some np)
    (hk : (k.proc np).kstack = none) (hfree : k.vm.freelist = []) (a b : Int) :
    (pidsUsed k np a b).allocproc = (none, pidsUsed k np b (toI32 (b + 1))) := by
  have hfind' : (pidsUsed k np a b).findUnused = some np := by
    rw [← hfind]
    unfold findUnused
    congr 1
    funext q
    simp only [pidsUsed, setProc_proc]
    split
    · next hq => rw [hq]
    · rfl
  have hstate := findUnused_state hfind
  unfold allocproc
  rw [hfind']
  simp only [allocKstack, Vm.kalloc, pidsUsed, setProc_vm, hfree]
  simp only [Kernel.setProc, update_self, update_idem]
  congr 3
  rw [← hk, ← hstate]

/-- As often as one likes. -/
theorem run_starved {np : ProcIdx} (hc : s.caller c = some p) (hs : s.stage p = .user)
    (hfind : s.k.findUnused = some np) (hk : (s.k.proc np).kstack = none)
    (hfree : s.k.vm.freelist = []) (b : Int) (n : Nat) :
    ∃ tr, Run next (s.starved np (toI32 (b - 1)) (toI32 b)) tr
      (s.starved np (toI32 (b + n - 1)) (toI32 (b + n))) := by
  induction n with
  | zero => exact ⟨[], by simpa using Run.nil⟩
  | succ n ih =>
    obtain ⟨tr, hr⟩ := ih
    refine ⟨_, hr.snoc (a := .run c .forkAlloc) ?_⟩
    have hcall : (s.starved np (toI32 (b + n - 1)) (toI32 (b + n))).caller c = some p := hc
    simp only [next, hcall, Option.bind_some]
    simp only [act, starved, hs, if_true, allocproc_starved hfind hk hfree, goTo]
    rw [update_eq_self_iff.mpr hs.symm, toI32_add_toI32]
    congr 4 <;> omega

/-- `initproc` forks a child, which takes the last page and exits; the next
`fork` fails and uses up pid 3. -/
def noMemory : List (Family 1 × Move 1) × Family 1 :=
  (follow next (start pairMachine)
    [.kern (.schedule 0 0), .kern (.call 0 (.exec onePage)), .run 0 .forkAlloc, .run 0 .forkFill,
      .run 0 .forkPublish, .kern (.call 0 .yield), .kern (.schedule 0 1), .run 0 .exitClose,
      .run 0 .exitFinish, .kern (.schedule 0 0), .run 0 .forkAlloc]).get (by decide +kernel)

/-- The same after 2^32 - 5 more failures. -/
def pidsGone : Family 1 := noMemory.2.starved 2 (-2) (-1)

/-- `initproc` waits for the child and forks another, which exits. -/
def lastChild : List (Family 1 × Move 1) × Family 1 :=
  (follow next pidsGone
    [.run 0 .waitRound, .run 0 .forkAlloc, .run 0 .forkFill, .run 0 .forkPublish,
      .kern (.call 0 .yield), .kern (.schedule 0 1), .run 0 .exitClose, .run 0 .exitFinish,
      .kern (.schedule 0 0)]).get (by decide +kernel)

/-- The scan that finds it. -/
def lastWaited : Option Int × Kernel 1 :=
  (lastChild.2.k.wait 0 0).toOption.get (by decide +kernel)

theorem run_pidsGone : ∃ tr, Run next (start pairMachine) tr pidsGone := by
  have h1 : Run next (start pairMachine) noMemory.1 noMemory.2 := run_get _
  obtain ⟨hc, hs, hfind, hk, hfree, hpid, hnext⟩ :
      noMemory.2.caller 0 = some 0 ∧ noMemory.2.stage 0 = .user ∧
      noMemory.2.k.findUnused = some 2 ∧ (noMemory.2.k.proc 2).kstack = none ∧
      noMemory.2.k.vm.freelist = [] ∧ (noMemory.2.k.proc 2).pid = toI32 (4 - 1) ∧
      noMemory.2.k.nextpid = toI32 4 := by
    decide +kernel
  obtain ⟨tr, h2⟩ := run_starved hc hs hfind hk hfree 4 (2 ^ 32 - 5)
  have hbase := noMemory.2.starved_self 2
  have hlast : toI32 (4 + ((2 ^ 32 - 5 : Nat) : Int) - 1) = -2 ∧
      toI32 (4 + ((2 ^ 32 - 5 : Nat) : Int)) = -1 := by
    decide
  rw [hpid, hnext] at hbase
  rw [hbase, hlast.1, hlast.2] at h2
  exact ⟨_, h1.append h2⟩

/-- `wait` returns `-1` to a caller that has a child and was not killed. -/
theorem wait_returns_pid_neg_one :
    (cleared 1 (Vm.kinit (firstPages 141))).userinit [] 0 = .ok pairMachine ∧
    ∃ tr s k', Run next (start pairMachine) tr s ∧ s.caller 0 = some 0 ∧ s.stage 0 = .user ∧
      s.k.wait 0 0 = .ok (some (-1), k') ∧
      (s.k.proc 1).parent = some 0 ∧ (s.k.proc 1).state = .zombie ∧
      (s.k.proc 0).killed = false := by
  obtain ⟨tr, hr⟩ := run_pidsGone
  have hr' : Run next pidsGone lastChild.1 lastChild.2 := run_get _
  obtain ⟨hpid, hc, hs, hrest⟩ : lastWaited.1 = some (-1) ∧ lastChild.2.caller 0 = some 0 ∧
      lastChild.2.stage 0 = .user ∧ (lastChild.2.k.proc 1).parent = some 0 ∧
      (lastChild.2.k.proc 1).state = .zombie ∧ (lastChild.2.k.proc 0).killed = false := by
    decide +kernel
  exact ⟨userinit_pairMachine, _, lastChild.2, lastWaited.2, hr.append hr', hc, hs,
    eq_ok_of_fst _ hpid, hrest⟩

end Family

end Xv6.Kern
