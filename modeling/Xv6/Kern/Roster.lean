/-
Xv6.Kern.Roster — what the calls do to the identity of process-table
entries.

`Entry` is the part of an entry that says who it is and what state it is
in: `state`, `pid`, `tid`, `parent`, `chan`, `killed`. Most of the kernel
does not touch it (`Same`), or only makes sleepers runnable (`Woken`). The
rest is said exactly, by equations between rosters: `allocproc`, the two
parts of `fork` after it, the last critical section of `exit`, and the
field resets of `wait` and `KT_Join`.

`recorded` sums up: every action of the machine keeps all identities, or
is one of the few that do not.
-/
import Xv6.Kern.SchedTheorems

namespace Xv6.Kern

open Xv6.Lib Xv6.Mem Function

variable {ncpu : Nat} {chan : Chan} {e' : Entry} {n : Int} {mine : Proc → Bool} {pid : Proc → Int}
  {st : ProcState} {e : Entry} {c : Fin ncpu} {r : Int} {k k' l m : Kernel ncpu} {arg d fnc : Nat}
  {cur np p : ProcIdx} {s : PslIdx} {i : SemIdx}

/-- The identity and the state of a process-table entry. -/
@[ext] structure Entry where
  state : ProcState
  pid : Int
  tid : Int
  parent : Option ProcIdx
  chan : Chan
  killed : Bool

def Proc.entry (q : Proc) : Entry where
  state := q.state
  pid := q.pid
  tid := q.tid
  parent := q.parent
  chan := q.chan
  killed := q.killed

/-- A sleeper made runnable. -/
def Entry.woken (e : Entry) : Entry := { e with state := .runnable }

/-- One process of `wakeup1`'s loop. -/
def Entry.wake (chan : Chan) (e : Entry) : Entry :=
  if e.state = .sleeping ∧ e.chan = chan then e.woken else e

/-- One process of `exit`'s loop over its children. -/
def Entry.adopt (cur : ProcIdx) (e : Entry) : Entry :=
  if e.parent = some cur then { e with parent := some initproc } else e

/-- The entry `wait` and `KT_Join` give back. -/
def Entry.cleared (e : Entry) : Entry :=
  { e with state := .unused, pid := 0, tid := 0, parent := none, killed := false }

/-- `e'` is `e` in another state of the same life, asleep on another
channel only if it was running. -/
structure Entry.Kept (e e' : Entry) : Prop where
  life : e'.state.life = e.state.life
  pid : e'.pid = e.pid
  tid : e'.tid = e.tid
  parent : e'.parent = e.parent
  killed : e'.killed = e.killed
  sleeping : e'.state = .sleeping → e.state = .running ∨ (e.state = .sleeping ∧ e'.chan = e.chan)

theorem Entry.Kept.refl (e : Entry) : e.Kept e :=
  ⟨rfl, rfl, rfl, rfl, rfl, fun h => .inr ⟨h, rfl⟩⟩

theorem Entry.Kept.woken (h : e.state = .sleeping) : e.Kept e.woken :=
  ⟨by rw [h]; rfl, rfl, rfl, rfl, rfl, fun h => by cases h⟩

theorem Entry.Kept.leave (h : e.state = .running) (chan : Chan) (hst : st.life = some .live) :
    e.Kept { e with state := st, chan := chan } :=
  ⟨by rw [h]; exact hst, rfl, rfl, rfl, rfl, fun _ => .inl h⟩

theorem Entry.wake_kept (chan : Chan) (e : Entry) : e.Kept (e.wake chan) := by
  unfold wake
  split
  · next h => exact .woken h.1
  · exact .refl e

theorem Entry.chan_ne_of_wake (h : (e.wake chan).state = .sleeping) :
    e.wake chan = e ∧ e.chan ≠ chan := by
  unfold wake at h ⊢
  split at h
  · cases h
  rename_i hne
  rw [if_neg hne]
  exact ⟨rfl, fun hc => hne ⟨h, hc⟩⟩

/-- What the exit of `cur` does to another entry. -/
structure Entry.Left (cur : ProcIdx) (e e' : Entry) : Prop where
  life : e'.state.life = e.state.life
  pid : e'.pid = e.pid
  tid : e'.tid = e.tid
  parent : e'.parent = (e.adopt cur).parent
  killed : e'.killed = e.killed
  sleeping : e'.state = .sleeping → e.state = .sleeping ∧ e'.chan = e.chan

theorem Entry.left_adopt (cur : ProcIdx) (e : Entry) : e.Left cur (e.adopt cur) := by
  by_cases h : e.parent = some cur
  · simp only [adopt, h, if_true]
    exact ⟨rfl, rfl, rfl, by simp [adopt, h], rfl, fun hs => ⟨hs, rfl⟩⟩
  · simp only [adopt, h, if_false]
    exact ⟨rfl, rfl, rfl, by simp [adopt, h], rfl, fun hs => ⟨hs, rfl⟩⟩

theorem Entry.Left.wake (h : e.Left cur e') (chan : Chan) : e.Left cur (e'.wake chan) := by
  have hk := Entry.wake_kept chan e'
  refine ⟨hk.life.trans h.life, hk.pid.trans h.pid, hk.tid.trans h.tid, hk.parent.trans h.parent,
    hk.killed.trans h.killed, fun hs => ?_⟩
  have heq := (Entry.chan_ne_of_wake hs).1
  rw [heq] at hs ⊢
  exact h.sleeping hs

theorem Entry.Left.of_wake (h : (e.wake chan).Left cur e') : e.Left cur e' := by
  have hk := Entry.wake_kept chan e
  refine ⟨h.life.trans hk.life, h.pid.trans hk.pid, h.tid.trans hk.tid, ?_,
    h.killed.trans hk.killed, fun hs => ?_⟩
  · rw [h.parent, adopt, adopt, hk.parent]
    split
    · rfl
    · exact hk.parent
  · obtain ⟨hs', hchan⟩ := h.sleeping hs
    have heq := (Entry.chan_ne_of_wake hs').1
    rw [heq] at hs' hchan
    exact ⟨hs', hchan⟩

namespace Kernel

def roster (k : Kernel ncpu) : ProcIdx → Entry := fun p => (k.proc p).entry

section
variable (k : Kernel ncpu) (p q : ProcIdx) (f : Proc → Proc)

theorem setProc_roster :
    (k.setProc p f).roster = update k.roster p (f (k.proc p)).entry := by
  funext q
  by_cases h : q = p
  · subst h
    simp [roster]
  · simp [roster, setProc_proc, h]

theorem setState_roster (st : ProcState) :
    (k.setState p st).roster = update k.roster p { k.roster p with state := st } :=
  setProc_roster k p fun q => { q with state := st }

theorem schedOut_roster (c : Fin ncpu) (st : ProcState) :
    (k.schedOut c p st).roster = update k.roster p { k.roster p with state := st } :=
  setState_roster k p st

end

/-! ## Calls that do not touch it -/

/-- No identity and no state changes. -/
structure Same (k k' : Kernel ncpu) : Prop where
  roster : k'.roster = k.roster
  nextpid : k'.nextpid = k.nextpid

namespace Same

theorem refl (k : Kernel ncpu) : Same k k := ⟨rfl, rfl⟩

theorem trans (h : Same k l) (h' : Same l m) : Same k m :=
  ⟨h'.roster.trans h.roster, h'.nextpid.trans h.nextpid⟩

theorem of_eq (hp : m.proc = k.proc) (hn : m.nextpid = k.nextpid) : Same k m :=
  ⟨by unfold Kernel.roster; rw [hp], hn⟩

theorem setProc {f : Proc → Proc} (hf : (f (k.proc p)).entry = (k.proc p).entry) :
    Same k (k.setProc p f) := by
  refine ⟨?_, rfl⟩
  rw [setProc_roster, hf]
  exact update_eq_self p k.roster

theorem of_bare (h : k'.bare = k.bare) : Same k k' :=
  ⟨(congrArg Kernel.roster h :), (congrArg Kernel.nextpid h :)⟩

end Same

/-- Some sleepers are made runnable, nothing else changes. -/
structure Woken (k k' : Kernel ncpu) : Prop where
  entry : ∀ p, k'.roster p = k.roster p ∨
    ((k.roster p).state = .sleeping ∧ k'.roster p = (k.roster p).woken)
  nextpid : k'.nextpid = k.nextpid

namespace Woken

theorem refl (k : Kernel ncpu) : Woken k k := ⟨fun _ => .inl rfl, rfl⟩

end Woken

theorem wakeup1_roster (k : Kernel ncpu) (chan : Chan) :
    (k.wakeup1 chan).roster = fun p => (k.roster p).wake chan := by
  funext p
  show (wakeProc chan (k.proc p)).entry = _
  by_cases h : (k.proc p).state = .sleeping ∧ (k.proc p).chan = chan
  · rw [wakeProc, if_pos h]
    exact (if_pos h).symm
  · rw [wakeProc, if_neg h]
    exact (if_neg h).symm

theorem Still.woken (h : Still k k') : Woken k k' := by
  refine ⟨fun p => ?_, (congrArg Kernel.nextpid h.shell :)⟩
  obtain ⟨o, w, hp | ⟨hs, hp⟩⟩ := h.proc p
  · exact .inl (by simp [roster, Proc.entry, hp])
  · exact .inr ⟨hs, by simp [roster, Proc.entry, hp, Entry.woken]⟩

theorem dupFiles_same (h : k.dupFiles cur np = .ok k') : Same k k' := by
  obtain ⟨file, ofile, rfl⟩ := dupFiles_eq h
  exact Same.trans (l := { k with file := file }) (.of_eq rfl rfl) (.setProc rfl)

/-! ## Entries handed out -/

/-- The entry of an allocator that fails to get a stack is `UNUSED` again,
but `allocproc` has already given it a pid. -/
theorem Allocs.roster_none (h : Allocs k pid n none k') :
    k' = k ∨ ∃ np, (k.roster np).state = .unused ∧
      k'.roster = update k.roster np { k.roster np with pid := pid (k.proc np) } ∧
      k'.nextpid = n := by
  cases h with
  | full => exact .inl rfl
  | @short p v hp =>
    have hu : (k.roster p).state = .unused := findUnused_state hp
    refine .inr ⟨p, hu, (setProc_roster ..).trans ?_, rfl⟩
    rw [← hu]
    rfl

theorem Allocs.roster_some (h : Allocs k pid n (some np) k') :
    (k.roster np).state = .unused ∧
    k'.roster = update k.roster np
      { k.roster np with state := .embryo, pid := pid (k.proc np) } ∧
    k'.nextpid = n := by
  refine ⟨h.unused, ?_⟩
  cases h with
  | taken hp => exact ⟨setProc_roster .., rfl⟩

theorem allocproc_none_roster (h : k.allocproc = (none, k')) :
    Same k k' ∨ ∃ np, (k.roster np).state = .unused ∧
      k'.roster = update k.roster np { k.roster np with pid := k.nextpid } ∧
      k'.nextpid = toI32 (k.nextpid + 1) :=
  (allocproc_allocs h).roster_none.imp_left fun hk : k' = k => hk ▸ .refl k

theorem allocproc_some_roster (h : k.allocproc = (some np, k')) : (k.roster np).state = .unused ∧
    k'.roster = update k.roster np
      { k.roster np with state := .embryo, pid := k.nextpid } ∧
    k'.nextpid = toI32 (k.nextpid + 1) :=
  (allocproc_allocs h).roster_some

theorem tallocproc_none_roster (h : k.tallocproc = (none, k')) : Same k k' := by
  rcases (tallocproc_allocs h).roster_none with rfl | ⟨np, -, hr, hn⟩
  · exact .refl _
  · exact ⟨hr.trans (update_eq_self np k.roster), hn⟩

theorem userinit_roster {freelist : List Page} {initcode : List UInt8} {root : InodeIdx}
    (h : (cleared ncpu (Vm.kinit freelist)).userinit initcode root = .ok k) :
    k.roster initproc = ⟨.runnable, 1, 0, none, .null, false⟩ ∧ k.nextpid = 2 := by
  have hboot := boot_userinit h
  unfold userinit at h
  split at h
  · cases h
  rename_i p k1 ha
  obtain ⟨-, hr, hn⟩ := allocproc_some_roster ha
  split at h
  · cases h
  · split at h
    · cases h
    · cases h
      have hp : p = initproc := by
        by_contra hne
        have hst := congrArg Proc.state (hboot.rest p hne)
        simp at hst
      have hp1 : k1.roster p = ⟨.embryo, 1, 0, none, .null, false⟩ := by
        rw [hr, update_self]
        rfl
      refine ⟨?_, hn⟩
      rw [← hp, setProc_roster, update_self]
      exact congrArg (fun e : Entry => { e with state := .runnable }) hp1

/-! ## `fork` -/

theorem forkFill_false (h : k.forkFill cur np = .ok (false, k')) :
    k'.roster = update k.roster np { k.roster np with state := .unused } ∧
    k'.nextpid = k.nextpid := by
  obtain ⟨d, o, v, -, -, ⟨-, -, pg, -, rfl⟩ | ⟨_, _, _, _, _, hb, -⟩⟩ := forkFill_eq h
  · exact ⟨setProc_roster .., rfl⟩
  · cases hb

theorem forkFill_true (h : k.forkFill cur np = .ok (true, k')) :
    k'.roster = update k.roster np { k.roster np with parent := some cur } ∧
    k'.nextpid = k.nextpid := by
  obtain ⟨d, o, v, -, -, ⟨hb, -⟩ | ⟨d', old, file, iref, ofile, -, -, -, rfl⟩⟩ := forkFill_eq h
  · cases hb
  · exact ⟨setProc_roster .., rfl⟩

/-! ## `exit` -/

/-- Some child of `cur` is a zombie. -/
def orphanZombie (k : Kernel ncpu) (cur : ProcIdx) : Bool :=
  entries.any fun p => decide ((k.proc p).parent = some cur) && (k.proc p).state == .zombie

theorem orphanZombie_of (hp : (k.roster p).parent = some cur) (hz : (k.roster p).state = .zombie) :
    k.orphanZombie cur = true := by
  have hp' : (k.proc p).parent = some cur := hp
  have hz' : (k.proc p).state = .zombie := hz
  rw [orphanZombie, List.any_eq_true]
  exact ⟨p, List.mem_finRange p, by simp [hp', hz']⟩

theorem reparent_roster (k : Kernel ncpu) (cur : ProcIdx) :
    (k.reparent cur).roster = fun p =>
      if k.orphanZombie cur then ((k.roster p).adopt cur).wake (.proc initproc)
      else (k.roster p).adopt cur := by
  have hadopt : ∀ p, (if decide ((k.proc p).parent = some cur) then
      { k.proc p with parent := some initproc } else k.proc p).entry
        = (k.roster p).adopt cur := by
    intro p
    unfold Entry.adopt
    by_cases hp : (k.proc p).parent = some cur
    · have hp' : (k.roster p).parent = some cur := hp
      simp only [hp, hp', decide_true, if_true]
      rfl
    · have hp' : ¬ (k.roster p).parent = some cur := hp
      simp only [hp, hp', decide_false, if_false]
      rfl
  unfold reparent
  by_cases hz : k.orphanZombie cur = true
  · have hz' := hz
    rw [orphanZombie] at hz'
    simp only [hz', hz, if_true, wakeup1_roster]
    funext p
    exact congrArg (Entry.wake (.proc initproc)) (hadopt p)
  · have hz' := hz
    rw [orphanZombie] at hz'
    simp only [hz', hz]
    funext p
    exact hadopt p

theorem orphanZombie_wakeup1 (k : Kernel ncpu) (cur : ProcIdx) (chan : Chan) :
    (k.wakeup1 chan).orphanZombie cur = k.orphanZombie cur := by
  unfold orphanZombie
  congr 1
  funext p
  simp only [wakeup1, wakeProc]
  split
  · next h =>
    simp only [h.1]
    rfl
  · rfl

/-- `l` shows entry `q` of `k` after the exit of `cur`: if it still sleeps
although `cur` left a zombie child, it does not sleep on `initproc`. -/
structure LeftBy (cur q : ProcIdx) (k l : Kernel ncpu) : Prop where
  entry : (k.roster q).Left cur (l.roster q)
  init : (l.roster q).state = .sleeping → k.orphanZombie cur = true →
    (k.roster q).chan ≠ .proc initproc

theorem reparent_leftBy (k : Kernel ncpu) (cur q : ProcIdx) :
    LeftBy cur q k (k.reparent cur) := by
  have hleft := Entry.left_adopt cur (k.roster q)
  constructor
  · simp only [reparent_roster]
    split
    · exact hleft.wake _
    · exact hleft
  · intro hs hz
    simp only [reparent_roster, hz, if_true] at hs
    obtain ⟨heq, hne⟩ := Entry.chan_ne_of_wake hs
    rw [heq] at hs
    rwa [(hleft.sleeping hs).2] at hne

theorem LeftBy.of_wakeup1 {q : ProcIdx} (h : LeftBy cur q (k.wakeup1 chan) l) :
    LeftBy cur q k l ∧ ((l.roster q).state = .sleeping → (k.roster q).chan ≠ chan) := by
  obtain ⟨hentry, hinit⟩ := h
  rw [wakeup1_roster] at hentry hinit
  have hawake : (l.roster q).state = .sleeping →
      (k.roster q).wake chan = k.roster q ∧ (k.roster q).chan ≠ chan :=
    fun hs => Entry.chan_ne_of_wake (hentry.sleeping hs).1
  refine ⟨⟨hentry.of_wake, fun hs hz => ?_⟩, fun hs => (hawake hs).2⟩
  rw [← (hawake hs).1]
  exact hinit hs (by rw [orphanZombie_wakeup1]; exact hz)

/-- The critical section at the end of `exit` up to the switch: it keeps
everything but a parent that exits, and whoever still sleeps does not
sleep on the parent of `cur`. -/
theorem exitFinish_left (k : Kernel ncpu) (c : Fin ncpu) (cur : ProcIdx) :
    ∃ l : Kernel ncpu, k.exitFinish c cur = l.schedOut c cur .zombie ∧ l.nextpid = k.nextpid ∧
      ∀ q, LeftBy cur q k l ∧
        ((l.roster q).state = .sleeping → (k.roster q).chan ≠ .ofProc (k.roster cur).parent) := by
  have hn : ∀ l : Kernel ncpu, (l.reparent cur).nextpid = l.nextpid := by
    intro l
    unfold reparent
    simp only
    split <;> rfl
  unfold exitFinish
  simp only
  split
  · refine ⟨_, rfl, hn _, fun q => ?_⟩
    exact LeftBy.of_wakeup1 (reparent_leftBy _ cur q)
  rename_i s hp
  refine ⟨_, rfl, hn _, fun q => ?_⟩
  exact LeftBy.of_wakeup1 (LeftBy.of_wakeup1 (reparent_leftBy _ cur q)).1

/-! ## `wait` and `KT_Join` -/

theorem release_roster (k : Kernel ncpu) (p : ProcIdx) :
    (k.release p).roster = update k.roster p (k.roster p).cleared := by
  rw [release, setProc_roster]
  rfl

theorem Reaps.roster (h : Reaps k k' p) :
    k'.roster = update k.roster p (k.roster p).cleared ∧ k'.nextpid = k.nextpid := by
  obtain ⟨-, m, hm, rfl⟩ := h
  have hs := Same.of_bare hm.bare
  rw [release_roster, hs.roster]
  exact ⟨rfl, hs.nextpid⟩

theorem sleep_roster (k : Kernel ncpu) (c : Fin ncpu) (p : ProcIdx) (chan : Chan) :
    (k.sleep c p chan).roster = update k.roster p
      { k.roster p with state := .sleeping, chan := chan } := by
  rw [sleep, schedOut_roster, setProc_roster, update_idem, update_self]
  rfl

/-- The zombie child that `wait` of `cur` finds first. -/
def zombieChild (k : Kernel ncpu) (cur : ProcIdx) : Option ProcIdx :=
  k.findZombie fun q => decide (q.parent = some cur)

/-- A round of `wait`: it gives back a zombie child and returns its pid, it
fails, or it sleeps. -/
inductive Waited (k k' : Kernel ncpu) (cur : ProcIdx) : Option Int → Prop
  | reaped (z : ProcIdx) : k.zombieChild cur = some z →
      (k.roster z).parent = some cur → (k.roster z).state = .zombie →
      k'.roster = update k.roster z (k.roster z).cleared → k'.nextpid = k.nextpid →
      Waited k k' cur (some (k.roster z).pid)
  | failed : k.zombieChild cur = none →
      (∀ q, (k.roster q).parent ≠ some cur) ∨ (k.roster cur).killed = true → k' = k →
      Waited k k' cur (some (-1))
  | slept (c : Fin ncpu) : k.zombieChild cur = none →
      (∀ q, (k.roster q).parent = some cur → (k.roster q).state ≠ .zombie) →
      k' = k.sleep c cur (.proc cur) → Waited k k' cur none

theorem haveKids_eq_false (h : k.haveKids mine = false) (q : ProcIdx) :
    mine (k.proc q) = false := by
  rw [haveKids, List.any_eq_false] at h
  simpa using h q (List.mem_finRange q)

theorem findZombie_eq_none (h : k.findZombie mine = none) {q : ProcIdx}
    (hq : mine (k.proc q) = true) : (k.proc q).state ≠ .zombie := by
  rw [findZombie, List.find?_eq_none] at h
  simpa [hq] using h q (List.mem_finRange q)

theorem wait_waited {r : Option Int} (h : k.wait c cur = .ok (r, k')) : Waited k k' cur r := by
  unfold wait at h
  simp only at h
  split at h
  · next z hz =>
    obtain ⟨hmine, hzombie⟩ := findZombie_state hz
    split at h
    · cases h
    rename_i hr
    cases h
    obtain ⟨hreaps, rfl⟩ := waitReap_reaps hzombie hr
    obtain ⟨hroster, hn⟩ := hreaps.roster
    exact .reaped z hz (of_decide_eq_true hmine) hzombie hroster hn
  rename_i hz
  split at h <;> cases h
  · next hfail =>
    refine .failed hz ?_ rfl
    simp only [Bool.or_eq_true, Bool.not_eq_true'] at hfail
    rcases hfail with hkids | hkilled
    · exact .inl fun q => of_decide_eq_false (haveKids_eq_false hkids q)
    · exact .inr hkilled
  · exact .slept c hz (fun q hq => findZombie_eq_none hz (decide_eq_true hq)) rfl

/-- A round of `KT_Join`. -/
inductive Joined (k k' : Kernel ncpu) (c : Fin ncpu) (cur : ProcIdx) : Option Int → Prop
  | reaped (z : ProcIdx) : (k.proc z).pthread = some cur → (k.roster z).state = .zombie →
      k'.roster = update k.roster z (k.roster z).cleared → k'.nextpid = k.nextpid →
      Joined k k' c cur (some (k.roster z).tid)
  | failed : k' = k → Joined k k' c cur (some (-1))
  | slept (chan : Chan) : k' = k.sleep c cur chan → Joined k k' c cur none

theorem ktJoin_joined {r : Option Int} (h : k.ktJoin c cur = .ok (r, k')) :
    Joined k k' c cur r := by
  unfold ktJoin at h
  simp only at h
  split at h
  · next z hz =>
    obtain ⟨hmine, hzombie⟩ := findZombie_state hz
    split at h
    · cases h
    rename_i hr
    cases h
    obtain ⟨hreaps, rfl⟩ := joinReap_reaps hzombie hr
    obtain ⟨hroster, hn⟩ := hreaps.roster
    exact .reaped z (of_decide_eq_true hmine) hzombie hroster hn
  · split at h <;> cases h
    · exact .failed rfl
    · exact .slept _ rfl

/-! ## `KT_Create` -/

/-- What `clone` does: nothing, or a new entry with the creator's pid and a
tid one above the creator's, `EMBRYO` for ever if `copyout` fails. -/
inductive Spawned (k k' : Kernel ncpu) (cur : ProcIdx) : Int → Prop
  | none : Same k k' → Spawned k k' cur (-1)
  | embryo (nt : ProcIdx) : (k.roster nt).state = .unused →
      k'.roster = update k.roster nt
        { k.roster nt with
          state := .embryo
          pid := (k.roster cur).pid
          tid := toI32 ((k.roster cur).tid + 1) } →
      k'.nextpid = k.nextpid → Spawned k k' cur (-1)
  | thread (nt : ProcIdx) : (k.roster nt).state = .unused →
      k'.roster = update k.roster nt
        { k.roster nt with
          state := .runnable
          pid := (k.roster cur).pid
          tid := toI32 ((k.roster cur).tid + 1) } →
      k'.nextpid = k.nextpid → Spawned k k' cur (toI32 ((k.roster cur).tid + 1))

theorem Spawned.after (h : Same k l) (hs : Spawned l k' cur r) : Spawned k k' cur r := by
  cases hs with
  | none hs => exact .none (h.trans hs)
  | embryo nt hu hr hn =>
    rw [h.roster] at hu hr
    exact .embryo nt hu hr (hn.trans h.nextpid)
  | thread nt hu hr hn =>
    rw [h.roster] at hu hr ⊢
    exact .thread nt hu hr (hn.trans h.nextpid)

theorem clone_spawned {sp : Nat} {slindex : Int} (hcur : (k.roster cur).state ≠ .unused)
    (h : k.clone cur sp slindex fnc arg = .ok (r, k')) : Spawned k k' cur r := by
  rcases clone_eq h with ⟨rfl, ht⟩ | ⟨nt, pg, v, v', file, iref, ofile, old, old', d, ok, hu, -,
    hold, -, -, rfl, rfl⟩
  · exact .none (tallocproc_none_roster ht)
  have hne : cur ≠ nt := by
    rintro rfl
    exact hcur hu
  obtain ⟨rfl, rfl⟩ := hold hne
  cases ok with
  | false => exact .embryo nt hu (setProc_roster _ nt _) rfl
  | true => exact .thread nt hu (setProc_roster _ nt _) rfl

theorem ktCreate_spawned (hcur : (k.roster cur).state ≠ .unused)
    (h : k.ktCreate cur fnc arg = .ok (r, k')) : Spawned k k' cur r := by
  rcases ktCreate_paths k cur fnc arg with ⟨e, he, -⟩ | ⟨k₁, hk, hb⟩ | ⟨l, sp, i, hl, hb⟩
  · rw [he] at h
    cases h
  · rw [hk] at h
    cases h
    exact .none (.of_bare hb)
  · rw [hl] at h
    have hs := Same.of_bare hb
    exact .after hs (clone_spawned (by rw [hs.roster]; exact hcur) h)

/-! ## All actions at once -/

/-- Every entry keeps its identity and its life. -/
structure Keeps (k k' : Kernel ncpu) : Prop where
  entry : ∀ q, (k.roster q).Kept (k'.roster q)
  nextpid : k'.nextpid = k.nextpid

theorem Same.kept (h : Same k k') : Keeps k k' :=
  ⟨fun q => by rw [h.roster]; exact .refl _, h.nextpid⟩

theorem Keeps.of_eq (hp : m.proc = k.proc) (hn : m.nextpid = k.nextpid) : Keeps k m :=
  (Same.of_eq hp hn).kept

theorem Woken.kept (h : Woken k k') : Keeps k k' := by
  refine ⟨fun q => ?_, h.nextpid⟩
  rcases h.entry q with hq | ⟨hs, hq⟩
  · rw [hq]
    exact .refl _
  · rw [hq]
    exact .woken hs

theorem Keeps.update (h : k'.roster = update k.roster p e) (he : (k.roster p).Kept e)
    (hn : k'.nextpid = k.nextpid) : Keeps k k' := by
  refine ⟨fun q => ?_, hn⟩
  rw [h]
  by_cases hq : q = p
  · rw [hq, update_self]
    exact he
  · rw [update_of_ne hq]
    exact .refl _

theorem kept_schedOut (hst : st.life = some .live) (h : (k.roster p).state = .running) :
    Keeps k (k.schedOut c p st) :=
  .update (schedOut_roster k p c st) (.leave h _ hst) rfl

theorem kept_sleep (h : (k.roster p).state = .running) : Keeps k (k.sleep c p chan) :=
  .update (sleep_roster k c p chan) (.leave h chan rfl) rfl

theorem kept_scheduler (hp : (k.proc p).state = .runnable) (h : k.scheduler c p = .ok k') :
    Keeps k k' := by
  unfold scheduler at h
  split at h
  · cases h
  · cases h
    refine .update (p := p)
      (setProc_roster k p fun q => { q with state := .running, chan := .null })
      ⟨?_, rfl, rfl, rfl, rfl, ?_⟩ rfl
    · show ProcState.running.life = (k.proc p).state.life
      rw [hp]
      rfl
    · intro hs
      cases hs

theorem kept_semWaitEnter (h : (k.roster p).state = .running) : Keeps k (k.semWaitEnter c p i) := by
  unfold semWaitEnter
  simp only
  split
  · exact .update (p := p) (schedOut_roster _ p c .semSleeping) (.leave h _ rfl) rfl
  · exact .of_eq rfl rfl

theorem kept_semWakeup (hi : SchedInv k) : Keeps k (k.semWakeup i) := by
  cases hw : (k.sem i).queue.popFront.1 with
  | none =>
    simp only [semWakeup, hw, semWake]
    exact .of_eq rfl rfl
  | some w =>
    have hlife : (k.proc w).state.life = some .live := by
      by_cases hst : (k.proc w).state = .runnable
      · rw [hst]
        rfl
      · rw [hi.semWakeup_state (i := i) (p := w)]
        · rfl
        · rw [semWakeup_some k i hw, setPc_proc, setState_state, if_pos rfl]
          exact fun h => hst h.symm
    rw [semWakeup_some k i hw]
    refine .update (p := w) (setState_roster _ w .runnable) ⟨hlife.symm, rfl, rfl, rfl, rfl, ?_⟩ rfl
    intro hs
    cases hs

theorem kept_semSignalEnter (hi : SchedInv k) (hc : k.cpu c = some p) :
    Keeps k (k.semSignalEnter p i) := by
  have hinc := schedInv_sameQueues hi (i := i)
    (f := fun s => { s with count := toI32 (s.count + 1) }) rfl id
  have h1 : SchedInv ((k.setSem i fun s => { s with count := toI32 (s.count + 1) }).setPc p
      .outside) := schedInv_setPc hinc hc (by simp) (by simp)
  have h2 : Keeps _ (k.semSignalEnter p i) := kept_semWakeup h1
  exact ⟨h2.entry, h2.nextpid⟩

theorem kill_entry (k : Kernel ncpu) (pid : Int) (q : ProcIdx) :
    ((k.kill pid).2.roster q).pid = (k.roster q).pid ∧
    ((k.kill pid).2.roster q).tid = (k.roster q).tid ∧
    ((k.kill pid).2.roster q).parent = (k.roster q).parent ∧
    ((k.kill pid).2.roster q).chan = (k.roster q).chan ∧
    ((k.kill pid).2.roster q).state.life = (k.roster q).state.life ∧
    (((k.kill pid).2.roster q).state = .sleeping → (k.roster q).state = .sleeping) := by
  unfold kill
  split
  · exact ⟨rfl, rfl, rfl, rfl, rfl, id⟩
  rename_i p _
  simp only [setProc_roster]
  by_cases hq : q = p
  · subst hq
    rw [update_self]
    by_cases hs : (k.proc q).state = .sleeping
    · simp [Proc.entry, roster, hs, ProcState.life]
    · simp [Proc.entry, roster, hs]
  · rw [update_of_ne hq]
    exact ⟨rfl, rfl, rfl, rfl, rfl, id⟩

theorem kill_nextpid (k : Kernel ncpu) (pid : Int) : (k.kill pid).2.nextpid = k.nextpid := by
  unfold kill
  split <;> rfl

/-- `exit` as a whole keeps pids, tids and marks, and ends the life of its
caller only. -/
theorem exitFinish_entry {k₁ : Kernel ncpu} (hw : Woken k k₁) (c : Fin ncpu) (p q : ProcIdx) :
    ((k₁.exitFinish c p).roster q).pid = (k.roster q).pid ∧
    ((k₁.exitFinish c p).roster q).tid = (k.roster q).tid ∧
    ((k₁.exitFinish c p).roster q).killed = (k.roster q).killed ∧
    ((k₁.exitFinish c p).roster q).state.life =
      if q = p then some .zombie else (k.roster q).state.life := by
  obtain ⟨l, hl, -, hleft⟩ := exitFinish_left k₁ c p
  have hk := hw.kept.entry q
  have he := (hleft q).1.entry
  rw [hl, schedOut_roster]
  by_cases hq : q = p
  · subst hq
    simp only [update_self, if_true]
    exact ⟨he.pid.trans hk.pid, he.tid.trans hk.tid, he.killed.trans hk.killed, rfl⟩
  · simp only [update_of_ne hq, if_neg hq]
    exact ⟨he.pid.trans hk.pid, he.tid.trans hk.tid, he.killed.trans hk.killed,
      he.life.trans hk.life⟩

/-- What an action does to the identities: nothing, or what its call is
for. -/
inductive Recorded (k k' : Kernel ncpu) : Act ncpu → Prop
  | kept (a : Act ncpu) : Keeps k k' → Recorded k k' a
  | kill (c : Fin ncpu) (pid : Int) : k' = (k.kill pid).2 → Recorded k k' (.call c (.kill pid))
  | exit (c : Fin ncpu) (p : ProcIdx) (k₁ : Kernel ncpu) : k.cpu c = some p → p ≠ initproc →
      Woken k k₁ → k' = k₁.exitFinish c p → Recorded k k' (.call c .exit)
  | reap (c : Fin ncpu) (p z : ProcIdx) (op : Call) : k.cpu c = some p →
      op = .wait ∨ op = .ktJoin → (k.roster z).state = .zombie →
      k'.roster = update k.roster z (k.roster z).cleared → k'.nextpid = k.nextpid →
      Recorded k k' (.call c op)
  | forkFailed (c : Fin ncpu) (np : ProcIdx) : (k.roster np).state = .unused →
      k'.roster = update k.roster np { k.roster np with pid := k.nextpid } →
      k'.nextpid = toI32 (k.nextpid + 1) → Recorded k k' (.call c .fork)
  | fork (c : Fin ncpu) (p np : ProcIdx) : k.cpu c = some p → (k.roster np).state = .unused →
      k'.roster = update k.roster np
        { k.roster np with state := .runnable, pid := k.nextpid, parent := some p } →
      k'.nextpid = toI32 (k.nextpid + 1) → Recorded k k' (.call c .fork)
  | spawn (c : Fin ncpu) (p nt : ProcIdx) (fnc arg : Nat) (st : ProcState) : k.cpu c = some p →
      (k.roster nt).state = .unused → st = .embryo ∨ st = .runnable →
      k'.roster = update k.roster nt
        { k.roster nt with
          state := st
          pid := (k.roster p).pid
          tid := toI32 ((k.roster p).tid + 1) } →
      k'.nextpid = k.nextpid → Recorded k k' (.call c (.ktCreate fnc arg))

theorem fork_recorded (hc : k.cpu c = some p) (h : k.fork p = .ok (r, k')) :
    Recorded k k' (.call c .fork) := by
  rcases fork_paths h with ⟨-, ha⟩ | ⟨np, k1, ha, hf⟩
  · rcases allocproc_none_roster ha with hs | ⟨np, hu, hr, hn⟩
    · exact .kept _ hs.kept
    · exact .forkFailed c np hu hr hn
  obtain ⟨hu, hr, hn⟩ := allocproc_some_roster ha
  rcases hf with ⟨-, hf⟩ | ⟨k2, hf, -, rfl⟩
  · obtain ⟨hr2, hn2⟩ := forkFill_false hf
    refine .forkFailed c np hu ?_ (hn2.trans hn)
    rw [hr2, hr, update_idem, update_self, ← hu]
  · obtain ⟨hr2, hn2⟩ := forkFill_true hf
    refine .fork c p np hc hu ?_ (hn2.trans hn)
    rw [setState_roster, hr2, hr, update_idem, update_self,
      update_idem, update_self]

theorem perform_recorded {op : Call} (hc : k.cpu c = some p)
    (hrun : (k.roster p).state = .running) (h : k.perform c p op = .ok k') :
    Recorded k k' (.call c op) := by
  cases op with
  | yield =>
    cases h
    exact .kept _ (kept_schedOut rfl hrun)
  | sleep chan =>
    cases h
    exact .kept _ (kept_sleep hrun)
  | kill pid =>
    cases h
    exact .kill c pid rfl
  | exit =>
    simp only [perform, exit_eq] at h
    split at h
    · cases h
    rename_i hne
    split at h
    · cases h
    rename_i k1 hcl
    cases h
    exact .exit c p k1 hc hne (exitClose_still hcl).woken rfl
  | wait =>
    obtain ⟨r, hr⟩ := map_snd_ok h
    cases wait_waited hr with
    | reaped z _ _ hz hroster hn => exact .reap c p z _ hc (.inl rfl) hz hroster hn
    | failed _ _ hk =>
      rw [hk]
      exact .kept _ (Same.refl k).kept
    | slept c' _ _ hk =>
      rw [hk]
      exact .kept _ (kept_sleep hrun)
  | ktJoin =>
    obtain ⟨r, hr⟩ := map_snd_ok h
    cases ktJoin_joined hr with
    | reaped z _ hz hroster hn => exact .reap c p z _ hc (.inr rfl) hz hroster hn
    | failed hk =>
      rw [hk]
      exact .kept _ (Same.refl k).kept
    | slept chan hk =>
      rw [hk]
      exact .kept _ (kept_sleep hrun)
  | fork =>
    obtain ⟨r, hr⟩ := map_snd_ok h
    exact fork_recorded hc hr
  | ktCreate fnc arg =>
    obtain ⟨r, hr⟩ := map_snd_ok h
    cases ktCreate_spawned (by rw [hrun]; simp) hr with
    | none hs => exact .kept _ hs.kept
    | embryo nt hu hroster hn => exact .spawn c p nt fnc arg .embryo hc hu (.inl rfl) hroster hn
    | thread nt hu hroster hn => exact .spawn c p nt fnc arg .runnable hc hu (.inr rfl) hroster hn
  | growproc n =>
    obtain ⟨r, hr⟩ := map_snd_ok h
    exact .kept _ (Same.of_bare (growproc_bare hr)).kept
  | exec f =>
    obtain ⟨r, hr⟩ := map_snd_ok h
    exact .kept _ (Same.of_bare (exec_bare hr)).kept
  | semInitialize n =>
    cases h
    obtain ⟨s, hs⟩ := sysSemInitialize_eq k n.toInt
    rw [hs]
    exact .kept _ (.of_eq rfl rfl)
  | semWait i =>
    cases h
    obtain ⟨q, hq⟩ := semWait_eq k p i
    rw [hq]
    exact .kept _ (.of_eq rfl rfl)
  | semSignal i =>
    cases h
    obtain ⟨q, hq⟩ := semSignal_eq k p i
    rw [hq]
    exact .kept _ (.of_eq rfl rfl)
  | semFree i =>
    cases h
    exact .kept _ (.of_eq rfl rfl)

/-- **Every action keeps all identities, or is a `kill`, an `exit`, a
reaping `wait` or `KT_Join`, a `fork`, or a `KT_Create`.** -/
theorem recorded {a : Act ncpu} (hi : SchedInv k) (h : k.next a = some k') : Recorded k k' a := by
  cases stepped_of_next h with
  | schedule c p _ hst hs => exact .kept _ (kept_scheduler hst hs)
  | wakeup chan hk =>
    rw [hk]
    exact .kept _ (wakeup1_still k chan).woken.kept
  | call c p op hcpu _ hp => exact perform_recorded hcpu (hi.onCpu c p hcpu) hp
  | waitEnter c p i hcpu _ hk =>
    rw [hk]
    exact .kept _ (kept_semWaitEnter (hi.onCpu c p hcpu))
  | signalEnter c p i hcpu _ hk =>
    rw [hk]
    exact .kept _ (kept_semSignalEnter hi hcpu)

end Kernel

end Xv6.Kern
