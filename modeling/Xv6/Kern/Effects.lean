/-
Xv6.Kern.Effects — what the calls of `Thread.lean` and `Process.lean` do
to scheduling.

`Quiet k k'` says that between two kernels the CPUs, the semaphores and
the positions inside semaphore calls are the same, and that a process
that changed state was neither `RUNNING` nor `SEM_SLEEPING` before or
after. Every call is quiet up to the point where it gives up its CPU
(`schedOut`), so the theorems on scheduling and semaphores look at
`Quiet`, `schedOut` and `scheduler` instead of at a dozen functions.

The other way round, `holdings` is what scheduling leaves alone, and `bare`
what memory management leaves alone. `fork` and `exit` are cut where they
release `ptable.lock` (`fork_eq`, `exit_eq`), so that the pieces can also be
interleaved.
-/
import Xv6.Kern.Core

namespace Xv6.Kern

open Xv6.Lib Xv6.Mem

variable {ncpu : Nat} {b : Bool} {slindex : Int} {guard i : Nat} {sp : Option Nat} {np : ProcIdx}
  {c : Fin ncpu} {r : Int} {k k' l m : Kernel ncpu} {arg d fnc : Nat} {f : Proc → Proc}
  {cur p : ProcIdx}

/-- Neither `RUNNING` nor `SEM_SLEEPING`. -/
def ProcState.idle (st : ProcState) : Prop := st ≠ .running ∧ st ≠ .semSleeping

theorem ProcState.idle_unused : ProcState.unused.idle := by simp [idle]
theorem ProcState.idle_embryo : ProcState.embryo.idle := by simp [idle]
theorem ProcState.idle_sleeping : ProcState.sleeping.idle := by simp [idle]
theorem ProcState.idle_runnable : ProcState.runnable.idle := by simp [idle]
theorem ProcState.idle_zombie : ProcState.zombie.idle := by simp [idle]

/-- An entry without what belongs to its memory and its stack list. -/
def Proc.bare (q : Proc) : Proc :=
  { q with sz := 0, pgdir := none, kstack := none, tf := {}, name := "", psl := none, slindex := 0 }

/-- An entry without what belongs to scheduling and to the family. -/
def Proc.holdings (q : Proc) : Proc :=
  { q with state := .unused, chan := .null, killed := false, parent := none }

open ProcState

namespace Kernel

/-- No CPU, semaphore, running or semaphore-sleeping process is touched. -/
structure Quiet (k k' : Kernel ncpu) : Prop where
  cpu : k'.cpu = k.cpu
  sem : k'.sem = k.sem
  pc : k'.pc = k.pc
  state : ∀ p, (k'.proc p).state = (k.proc p).state ∨
    ((k.proc p).state.idle ∧ (k'.proc p).state.idle)

namespace Quiet

theorem refl (k : Kernel ncpu) : Quiet k k :=
  ⟨rfl, rfl, rfl, fun _ => .inl rfl⟩

theorem trans (h : Quiet k l) (h' : Quiet l m) : Quiet k m := by
  refine ⟨h'.cpu.trans h.cpu, h'.sem.trans h.sem, h'.pc.trans h.pc, fun p => ?_⟩
  rcases h.state p with h1 | ⟨h1, h2⟩ <;> rcases h'.state p with h3 | ⟨h3, h4⟩
  · exact .inl (h3.trans h1)
  · exact .inr ⟨h1 ▸ h3, h4⟩
  · exact .inr ⟨h1, h3 ▸ h2⟩
  · exact .inr ⟨h1, h4⟩

theorem idle (h : Quiet k k') (hp : (k.proc p).state.idle) : (k'.proc p).state.idle := by
  rcases h.state p with h1 | ⟨-, h2⟩
  · rw [h1]; exact hp
  · exact h2

theorem of_eq (hc : m.cpu = k.cpu) (hs : m.sem = k.sem) (hpc : m.pc = k.pc) (hp : m.proc = k.proc) :
    Quiet k m :=
  ⟨hc, hs, hpc, fun p => .inl (by rw [hp])⟩

theorem after (h : Quiet l m) (hc : l.cpu = k.cpu) (hs : l.sem = k.sem) (hpc : l.pc = k.pc)
    (hp : l.proc = k.proc) : Quiet k m :=
  (of_eq hc hs hpc hp).trans h

theorem setProc (hf : (f (k.proc p)).state = (k.proc p).state) : Quiet k (k.setProc p f) := by
  refine ⟨rfl, rfl, rfl, fun q => .inl ?_⟩
  rw [setProc_proc]
  split
  · rename_i hq
    rw [hq, hf]
  · rfl

theorem setIdle (hp : (k.proc p).state.idle) (hf : (f (k.proc p)).state.idle) :
    Quiet k (k.setProc p f) := by
  refine ⟨rfl, rfl, rfl, fun q => ?_⟩
  rw [setProc_proc]
  split
  · rename_i hq
    exact .inr ⟨hq ▸ hp, hf⟩
  · exact .inl rfl

end Quiet

/-- Quiet, and not seen by the world of threads and address spaces. -/
structure Calm (k k' : Kernel ncpu) : Prop extends Quiet k k', Frame k k' where
  space : k'.vm.space = k.vm.space

namespace Calm

theorem refl (k : Kernel ncpu) : Calm k k := ⟨.refl k, .refl k, rfl⟩

theorem trans (h : Calm k l) (h' : Calm l m) : Calm k m :=
  ⟨h.toQuiet.trans h'.toQuiet, h.toFrame.trans h'.toFrame, h'.space.trans h.space⟩

theorem setProc (hf : (f (k.proc p)).state = (k.proc p).state)
    (hc : (f (k.proc p)).core = (k.proc p).core) : Calm k (k.setProc p f) :=
  ⟨.setProc hf, .setProc hc, rfl⟩

end Calm

/-! ## Scheduling and files -/

/-- The kernel without CPUs, semaphores and the scheduler's part of the
entries: what processes hold. -/
def holdings (k : Kernel ncpu) : Kernel ncpu :=
  { k with
    proc := fun p => (k.proc p).holdings
    cpu := fun _ => none
    sem := fun _ => {}
    pc := fun _ => .outside }

theorem setProc_holdings (hf : (f (k.proc p)).holdings = (k.proc p).holdings) :
    (k.setProc p f).holdings = k.holdings := by
  have hproc : ∀ q, ((k.setProc p f).proc q).holdings = (k.proc q).holdings := by
    intro q
    rw [setProc_proc]
    split
    · next hq => rw [hq, hf]
    · rfl
  simp only [holdings, hproc]
  rfl

theorem schedOut_holdings (k : Kernel ncpu) (c : Fin ncpu) (p : ProcIdx) (st : ProcState) :
    (k.schedOut c p st).holdings = k.holdings :=
  setProc_holdings (k := k) (p := p) (f := fun q => { q with state := st }) rfl

theorem sleep_holdings (k : Kernel ncpu) (c : Fin ncpu) (p : ProcIdx) (chan : Chan) :
    (k.sleep c p chan).holdings = k.holdings :=
  (schedOut_holdings _ c p .sleeping).trans (setProc_holdings rfl)

theorem wakeup1_holdings (k : Kernel ncpu) (chan : Chan) :
    (k.wakeup1 chan).holdings = k.holdings := by
  have hproc : ∀ p, (wakeProc chan (k.proc p)).holdings = (k.proc p).holdings := by
    intro p
    unfold wakeProc
    split <;> rfl
  simp only [holdings, wakeup1, hproc]

theorem kill_holdings (k : Kernel ncpu) (pid : Int) : (k.kill pid).2.holdings = k.holdings := by
  unfold kill
  split
  · rfl
  · next p _ =>
    exact setProc_holdings (k := k) (p := p) (f := fun q =>
      { q with killed := true, state := if q.state = .sleeping then .runnable else q.state }) rfl

theorem scheduler_eq (h : k.scheduler c p = .ok k') :
    k' = { k.setProc p fun q => { q with state := .running, chan := .null } with
           cpu := Function.update k.cpu c (some p) } := by
  unfold scheduler at h
  split at h <;> cases h
  rfl

theorem scheduler_holdings (h : k.scheduler c p = .ok k') : k'.holdings = k.holdings := by
  obtain rfl := scheduler_eq h
  exact setProc_holdings (k := k) (p := p)
    (f := fun q => { q with state := .running, chan := .null }) rfl

theorem reparent_holdings (k : Kernel ncpu) (cur : ProcIdx) :
    (k.reparent cur).holdings = k.holdings := by
  have hproc : ∀ p, (if decide ((k.proc p).parent = some cur)
      then { k.proc p with parent := some initproc } else k.proc p).holdings
      = (k.proc p).holdings := by
    intro p
    split <;> rfl
  unfold reparent
  simp only
  split
  · rw [wakeup1_holdings]
    simp only [holdings, hproc]
  · simp only [holdings, hproc]

theorem semWaitEnter_holdings (k : Kernel ncpu) (c : Fin ncpu) (p : ProcIdx) (i : SemIdx) :
    (k.semWaitEnter c p i).holdings = k.holdings := by
  unfold semWaitEnter
  simp only
  split
  · exact schedOut_holdings _ c p .semSleeping
  · rfl

theorem semSignalEnter_holdings (k : Kernel ncpu) (p : ProcIdx) (i : SemIdx) :
    (k.semSignalEnter p i).holdings = k.holdings := by
  unfold semSignalEnter semWakeup
  simp only
  cases ((Kernel.sem _ i).queue.popFront).1 with
  | none => rfl
  | some w =>
    exact setProc_holdings (k := k) (p := w) (f := fun q => { q with state := .runnable }) rfl

theorem sysSemInitialize_eq (k : Kernel ncpu) (n : Int) :
    ∃ s, (k.sysSemInitialize n).2 = { k with sem := s } := by
  unfold sysSemInitialize semInitialize
  split
  · exact ⟨k.sem, rfl⟩
  · split
    · exact ⟨k.sem, rfl⟩
    · exact ⟨_, rfl⟩

theorem semWait_eq (k : Kernel ncpu) (p : ProcIdx) (i : SemIdx) :
    ∃ q, k.semWait p i = { k with pc := q } := by
  unfold semWait
  split
  · exact ⟨k.pc, rfl⟩
  · exact ⟨_, rfl⟩

theorem semSignal_eq (k : Kernel ncpu) (p : ProcIdx) (i : SemIdx) :
    ∃ q, k.semSignal p i = { k with pc := q } := by
  unfold semSignal
  split
  · exact ⟨k.pc, rfl⟩
  · exact ⟨_, rfl⟩

/-- The kernel without its entries, memory and files. -/
def shell (k : Kernel ncpu) : Kernel ncpu :=
  { k with
    proc := fun _ => {}
    vm := .kinit []
    file := fun _ => {}
    iref := fun _ => 0
    pipe := fun _ => {} }

/-- Files come and go, page contents change and sleepers are woken, and
that is all. -/
structure Still (k k' : Kernel ncpu) : Prop where
  shell : k'.shell = k.shell
  proc : ∀ p, ∃ o w, k'.proc p = { k.proc p with ofile := o, cwd := w } ∨
    (k.proc p).state = .sleeping ∧
      k'.proc p = { k.proc p with ofile := o, cwd := w, state := .runnable }
  maps : k'.vm.maps = k.vm.maps
  space : k'.vm.space = k.vm.space

namespace Still

theorem of_eq (hs : m.shell = k.shell) (hp : m.proc = k.proc) (hm : m.vm.maps = k.vm.maps)
    (hv : m.vm.space = k.vm.space) : Still k m :=
  ⟨hs, fun p => ⟨_, _, .inl (congrFun hp p)⟩, hm, hv⟩

theorem refl (k : Kernel ncpu) : Still k k := .of_eq rfl rfl rfl rfl

theorem trans (h : Still k l) (h' : Still l m) : Still k m := by
  refine ⟨h'.shell.trans h.shell, fun p => ?_, h'.maps.trans h.maps, h'.space.trans h.space⟩
  obtain ⟨_, _, h1⟩ := h.proc p
  obtain ⟨o, w, h2⟩ := h'.proc p
  refine ⟨o, w, ?_⟩
  rcases h1 with h1 | ⟨hs, h1⟩ <;> rcases h2 with h2 | ⟨hs', h2⟩ <;> rw [h1] at h2
  · exact .inl h2
  · rw [h1] at hs'
    exact .inr ⟨hs', h2⟩
  · exact .inr ⟨hs, h2⟩
  · rw [h1] at hs'
    cases hs'

instance : Std.Refl (@Still ncpu) := ⟨refl⟩

instance : IsTrans (Kernel ncpu) Still := ⟨fun _ _ _ => trans⟩

theorem setProc {o : Proc → Fin nofile → Option FileIdx} {w : Proc → Option InodeIdx} :
    Still k (k.setProc p fun q => { q with ofile := o q, cwd := w q }) := by
  refine ⟨rfl, fun q => ?_, rfl, rfl⟩
  rw [setProc_proc]
  split
  · next hq => exact ⟨_, _, .inl (by rw [hq])⟩
  · exact ⟨_, _, .inl rfl⟩

theorem calm (h : Still k k') : Calm k k' := by
  refine ⟨⟨(congrArg Kernel.cpu h.shell :), (congrArg Kernel.sem h.shell :),
    (congrArg Kernel.pc h.shell :), fun p => ?_⟩,
    ⟨funext fun p => ?_, (congrArg Kernel.psl h.shell :), h.maps⟩, h.space⟩
  · obtain ⟨o, w, hp | ⟨hs, hp⟩⟩ := h.proc p
    · exact .inl (by rw [hp])
    · rw [hs, hp]
      exact .inr ⟨idle_sleeping, idle_runnable⟩
  · obtain ⟨o, w, hp | ⟨hs, hp⟩⟩ := h.proc p
    · simp [Kernel.core, Proc.core, hp]
    · simp [Kernel.core, Proc.core, hp, hs, ProcState.life]

end Still

theorem wakeup1_still (k : Kernel ncpu) (chan : Chan) : Still k (k.wakeup1 chan) := by
  refine ⟨rfl, fun p => ⟨(k.proc p).ofile, (k.proc p).cwd, ?_⟩, rfl, rfl⟩
  simp only [wakeup1, wakeProc]
  split
  · next h => exact .inr ⟨h.1, rfl⟩
  · exact .inl rfl

theorem kill_calm (k : Kernel ncpu) (pid : Int) : Calm k (k.kill pid).2 := by
  unfold kill
  split
  · exact .refl k
  rename_i p _
  simp only
  by_cases hs : (k.proc p).state = .sleeping
  · refine ⟨?_, ?_, rfl⟩
    · apply Quiet.setIdle
      · rw [hs]; exact idle_sleeping
      · simp only [hs, if_true]; exact idle_runnable
    · apply Frame.setProc
      simp [Proc.core, hs, ProcState.life]
  · apply Calm.setProc
    · simp [hs]
    · simp [Proc.core, hs]

theorem filedup_still {f : FileIdx} (h : k.filedup f = .ok k') : Still k k' := by
  unfold filedup at h
  split at h
  · cases h
  · cases h
    exact .of_eq rfl rfl rfl rfl

theorem idup_still (k : Kernel ncpu) (ip : Option InodeIdx) : Still k (k.idup ip) := by
  cases ip <;> exact .of_eq rfl rfl rfl rfl

theorem iput_still (k : Kernel ncpu) (ip : Option InodeIdx) : Still k (k.iput ip) := by
  cases ip <;> exact .of_eq rfl rfl rfl rfl

theorem idup_eq (k : Kernel ncpu) (ip : Option InodeIdx) :
    ∃ iref, k.idup ip = { k with iref := iref } := by
  cases ip <;> exact ⟨_, rfl⟩

theorem idup_proc (k : Kernel ncpu) (ip : Option InodeIdx) : (k.idup ip).proc = k.proc := by
  cases ip <;> rfl

theorem dupFiles_eq (h : k.dupFiles cur np = .ok k') :
    ∃ file ofile, k' = { k with file := file }.setProc np fun q => { q with ofile := ofile } := by
  let R := fun k k' : Kernel ncpu =>
    ∃ file ofile, k' = { k with file := file }.setProc np fun q => { q with ofile := ofile }
  have hrefl : Std.Refl R := ⟨fun k => ⟨k.file, (k.proc np).ofile, by simp [Kernel.setProc]⟩⟩
  have htrans : IsTrans (Kernel ncpu) R := by
    refine ⟨?_⟩
    rintro k _ _ ⟨f, o, rfl⟩ ⟨f', o', rfl⟩
    exact ⟨f', o', by simp [Kernel.setProc]⟩
  refine foldlM_rel (R := R) (fun k fd k' hk => ?_) _ h
  split at hk
  · cases hk
    exact hrefl.refl k
  · split at hk
    · cases hk
    rename_i hd
    cases hk
    unfold filedup at hd
    split at hd <;> cases hd
    exact ⟨_, _, rfl⟩

/-- An end is closed, those who wait for the other end are woken, and with
the last end the page goes. -/
theorem pipeclose_eq (k : Kernel ncpu) (pi : Page) (w : Bool) :
    ∃ v chan, (v = k.vm ∨ v = k.vm.kfree pi) ∧ k.pipeclose pi w =
      { wakeup1 { k with
          pipe := Function.update k.pipe pi (if w then { k.pipe pi with writeopen := false }
            else { k.pipe pi with readopen := false }) } chan with vm := v } := by
  unfold pipeclose
  simp only
  generalize (if w then ({ k.pipe pi with writeopen := false } : Pipe)
    else { k.pipe pi with readopen := false }) = e
  split
  · exact ⟨k.vm, _, .inl rfl, rfl⟩
  · exact ⟨_, _, .inr rfl, rfl⟩

theorem pipeclose_still (k : Kernel ncpu) (pi : Page) (w : Bool) : Still k (k.pipeclose pi w) := by
  obtain ⟨v, chan, hv, heq⟩ := pipeclose_eq k pi w
  rw [heq]
  refine Still.trans (Still.trans (.of_eq rfl rfl rfl rfl) (wakeup1_still _ chan)) ?_
  rcases hv with rfl | rfl <;> exact .of_eq rfl rfl rfl rfl

theorem fileclose_still {f : FileIdx} (h : k.fileclose f = .ok k') : Still k k' := by
  have hf : ∀ g, Still k { k with file := g } := fun g => .of_eq rfl rfl rfl rfl
  unfold fileclose at h
  simp only at h
  split at h
  · cases h
  · split at h
    · cases h
      exact hf _
    · split at h <;> cases h
      · exact hf _
      · exact (hf _).trans (pipeclose_still _ _ _)
      · exact (hf _).trans (iput_still _ _)

theorem closeFiles_still (h : k.closeFiles cur = .ok k') : Still k k' := by
  refine foldlM_rel (fun k fd k' hk => ?_) _ h
  split at hk
  · cases hk
    exact .refl k
  · split at hk
    · cases hk
    rename_i k1 hd
    cases hk
    exact (fileclose_still hd).trans .setProc

theorem reparent_calm (k : Kernel ncpu) (cur : ProcIdx) : Calm k (k.reparent cur) := by
  have h : Calm k
      { k with
        proc := fun p =>
          if decide ((k.proc p).parent = some cur)
          then { k.proc p with parent := some initproc } else k.proc p } := by
    refine ⟨⟨rfl, rfl, rfl, fun p => .inl ?_⟩, ⟨funext fun p => ?_, rfl, rfl⟩, rfl⟩
    · simp only
      split <;> rfl
    · simp only [core]
      split <;> rfl
  unfold reparent
  simp only
  split
  · exact h.trans (wakeup1_still _ _).calm
  · exact h

/-- `exit` up to `acquire(&ptable.lock)`. -/
def exitClose (k : Kernel ncpu) (cur : ProcIdx) : Except String (Kernel ncpu) :=
  match k.closeFiles cur with
  | .error e => .error e
  | .ok k => .ok ((k.iput (k.proc cur).cwd).setProc cur fun q => { q with cwd := none })

/-- The critical section at the end of `exit`. -/
def exitFinish (k : Kernel ncpu) (c : Fin ncpu) (cur : ProcIdx) : Kernel ncpu :=
  let k := k.wakeup1 (.ofProc (k.proc cur).parent)
  let k := match (k.proc cur).psl with
    | none => k
    | some s => k.wakeup1 (.psl s)
  (k.reparent cur).schedOut c cur .zombie

theorem exit_eq (k : Kernel ncpu) (c : Fin ncpu) (cur : ProcIdx) :
    k.exit c cur = if cur = initproc then .error "init exiting"
      else match k.exitClose cur with
        | .error e => .error e
        | .ok k => .ok (k.exitFinish c cur) := by
  unfold exit exitClose
  split
  · rfl
  · cases k.closeFiles cur <;> rfl

theorem exitClose_still (h : k.exitClose cur = .ok k') : Still k k' := by
  unfold exitClose at h
  split at h
  · cases h
  rename_i k1 hc
  cases h
  exact ((closeFiles_still hc).trans (iput_still _ _)).trans .setProc

theorem exitFinish_eq (k : Kernel ncpu) (c : Fin ncpu) (cur : ProcIdx) :
    ∃ l, Calm k l ∧ l.holdings = k.holdings ∧ k.exitFinish c cur = l.schedOut c cur .zombie := by
  have h : ∀ m, Still k m → m.holdings = k.holdings →
      Calm k (m.reparent cur) ∧ (m.reparent cur).holdings = k.holdings := fun m hm hh =>
    ⟨hm.calm.trans (reparent_calm m cur), (reparent_holdings m cur).trans hh⟩
  have hw := wakeup1_still k (.ofProc (k.proc cur).parent)
  have hh := wakeup1_holdings k (.ofProc (k.proc cur).parent)
  unfold exitFinish
  simp only
  split
  · obtain ⟨h1, h2⟩ := h _ hw hh
    exact ⟨_, h1, h2, rfl⟩
  · obtain ⟨h1, h2⟩ := h _ (hw.trans (wakeup1_still _ _)) ((wakeup1_holdings _ _).trans hh)
    exact ⟨_, h1, h2, rfl⟩

theorem exit_effect (h : k.exit c cur = .ok k') :
    cur ≠ initproc ∧ ∃ k1, Calm k k1 ∧ k' = k1.schedOut c cur .zombie := by
  rw [exit_eq] at h
  split at h
  · cases h
  rename_i hne
  split at h
  · cases h
  rename_i k1 hc
  cases h
  obtain ⟨l, hl, -, heq⟩ := exitFinish_eq k1 c cur
  exact ⟨hne, l, (exitClose_still hc).calm.trans hl, heq⟩

/-! ## Entries -/

theorem findUnused_state (h : k.findUnused = some p) : (k.proc p).state = .unused := by
  simpa using List.find?_some h

/-- The outcomes of `allocproc` and of `tallocproc`: `pid` is what they make
of the entry's pid, `n` the next one. -/
inductive Allocs (k : Kernel ncpu) (pid : Proc → Int) (n : Int) :
    Option ProcIdx → Kernel ncpu → Prop
  | full : k.findUnused = none → Allocs k pid n none k
  | short {p : ProcIdx} {v : Vm} : k.findUnused = some p → k.vm.kalloc = (none, v) →
      Allocs k pid n none ({ k with vm := v, nextpid := n }.setProc p fun q =>
        { q with kstack := none, state := .unused, pid := pid q })
  | taken {p : ProcIdx} {pg : Page} {v : Vm} : k.findUnused = some p →
      k.vm.kalloc = (some pg, v) →
      Allocs k pid n (some p) ({ k with vm := v, nextpid := n }.setProc p fun q =>
        { q with kstack := some pg, state := .embryo, pid := pid q })

section
variable {pid : Proc → Int} {n : Int} {o : Option ProcIdx}

theorem allocKstack_allocs (hp : k.findUnused = some p)
    (h : allocKstack { k.setProc p fun q => { q with state := .embryo, pid := pid q } with
      nextpid := n } p = (o, k')) : Allocs k pid n o k' := by
  unfold allocKstack at h
  split at h
  · next v hk =>
    cases h
    have hs : Allocs k pid n _ _ := .short hp hk
    simpa [Kernel.setProc] using hs
  · next pg v hk =>
    cases h
    have ht : Allocs k pid n _ _ := .taken hp hk
    simpa [Kernel.setProc] using ht

theorem allocproc_allocs (h : k.allocproc = (o, k')) :
    Allocs k (fun _ => k.nextpid) (toI32 (k.nextpid + 1)) o k' := by
  unfold allocproc at h
  split at h
  · next hf =>
    cases h
    exact .full hf
  · next p hp => exact allocKstack_allocs hp h

theorem tallocproc_allocs (h : k.tallocproc = (o, k')) : Allocs k Proc.pid k.nextpid o k' := by
  unfold tallocproc at h
  split at h
  · next hf =>
    cases h
    exact .full hf
  · next p hp => exact allocKstack_allocs hp h

theorem Allocs.unused (h : Allocs k pid n (some p) k') : (k.proc p).state = .unused := by
  cases h with
  | taken hp => exact findUnused_state hp

theorem Allocs.quiet (h : Allocs k pid n o k') : Quiet k k' := by
  have hidle : ∀ p, k.findUnused = some p → (k.proc p).state.idle := by
    intro p hp
    rw [findUnused_state hp]
    exact idle_unused
  cases h with
  | full => exact .refl k
  | @short p v hp =>
    exact Quiet.after (l := { k with vm := v, nextpid := n }) (.setIdle (hidle p hp) idle_unused)
      rfl rfl rfl rfl
  | @taken p pg v hp =>
    exact Quiet.after (l := { k with vm := v, nextpid := n }) (.setIdle (hidle p hp) idle_embryo)
      rfl rfl rfl rfl

end

/-! ## Memory and stack lists -/

/-- The kernel without memory and stack lists. Functions that manage only
these keep it. -/
def bare (k : Kernel ncpu) : Kernel ncpu :=
  { k with proc := fun p => (k.proc p).bare, psl := fun _ => {}, vm := .kinit [] }

theorem setProc_bare (hf : (f (k.proc p)).bare = (k.proc p).bare) :
    (k.setProc p f).bare = k.bare := by
  have hproc : ∀ q, ((k.setProc p f).proc q).bare = (k.proc q).bare := by
    intro q
    rw [setProc_proc]
    split
    · next hq => rw [hq, hf]
    · rfl
  simp only [bare, hproc]
  rfl

theorem Quiet.of_bare (h : k'.bare = k.bare) : Quiet k k' :=
  ⟨(congrArg Kernel.cpu h :), (congrArg Kernel.sem h :), (congrArg Kernel.pc h :),
    fun p => .inl (congrArg (fun k => (k.proc p).state) h :)⟩

theorem freeKstack_eq (h : k.freeKstack p = .ok k') : ∃ pg, (k.proc p).kstack = some pg ∧
    k' = { k.setProc p fun q => { q with kstack := none } with vm := k.vm.kfree pg } := by
  unfold freeKstack at h
  split at h
  · cases h
  · next pg hks =>
    cases h
    exact ⟨pg, hks, rfl⟩

theorem freeKstack_bare (h : k.freeKstack p = .ok k') : k'.bare = k.bare := by
  obtain ⟨pg, -, rfl⟩ := freeKstack_eq h
  exact setProc_bare (k := k) (p := p) (f := fun q => { q with kstack := none }) rfl

theorem freevmOf_bare (h : k.freevmOf p = .ok k') : k'.bare = k.bare := by
  unfold freevmOf at h
  split at h <;> cases h
  rfl

theorem clearPsl?_bare (h : k.clearPsl? p = .ok k') : k'.bare = k.bare := by
  unfold clearPsl? clearPsl at h
  split at h
  · cases h
    rfl
  · simp only at h
    split at h <;> cases h
    exact setProc_bare (k := k) (p := p) (f := fun q => { q with slindex := 0 }) rfl

/-- How `stackAlloc` ends in memory, unless it panics. -/
inductive StackRun (v : Vm) (d i guard : Nat) : Option Nat → Vm → Prop
  | short {v' : Vm} : v.allocuvm d (slotLow i * pgsize) ((slotLow i + 2) * pgsize) = .ok (0, v') →
      StackRun v d i guard none v'
  | made {sp : Nat} {v₁ v' : Vm} : sp ≠ 0 →
      v.allocuvm d (slotLow i * pgsize) ((slotLow i + 2) * pgsize) = .ok (sp, v₁) →
      v₁.clearpteu d (sp / pgsize - guard) = .ok v' → StackRun v d i guard (some sp) v'

theorem stackAlloc_run (h : k.stackAlloc d i guard = .ok (sp, k')) :
    k' = { k with vm := k'.vm } ∧ StackRun k.vm d i guard sp k'.vm := by
  unfold stackAlloc at h
  split at h
  · cases h
  · next v ha =>
    cases h
    exact ⟨rfl, .short ha⟩
  · next hne ha =>
    split at h
    · cases h
    · next hc =>
      cases h
      exact ⟨rfl, .made hne ha hc⟩

theorem stackAlloc_bare (h : k.stackAlloc d i guard = .ok (sp, k')) : k'.bare = k.bare := by
  rw [(stackAlloc_run h).1]
  rfl

theorem growFinish_bare {sz : Nat} (h : k.growFinish cur sz = .ok (r, k')) :
    k'.bare = k.bare := by
  unfold growFinish at h
  split at h <;> cases h
  exact setProc_bare rfl

theorem growproc_bare {n : Int} (h : k.growproc cur n = .ok (r, k')) : k'.bare = k.bare := by
  unfold growproc at h
  simp only at h
  split at h
  · cases h
  · split at h
    · split at h
      · cases h
      · cases h
        rfl
      · exact (growFinish_bare h :)
    · split at h
      · split at h
        · cases h
          rfl
        · exact (growFinish_bare h :)
      · exact growFinish_bare h

theorem exec_bare {f : ExecFile} (h : k.exec cur f = .ok (r, k')) : k'.bare = k.bare := by
  unfold exec at h
  split at h
  · cases h
    rfl
  · split at h
    · cases h
      rfl
    · split at h
      · cases h
      · cases h
        rfl
      · split at h
        · cases h
        · split at h <;> cases h
          exact setProc_bare (k := { k with vm := _ }) rfl

/-- Allocate the stack of slot `i`, mark the slot and call `clone`. -/
def ktStack (k : Kernel ncpu) (cur : ProcIdx) (d : Nat) (s : PslIdx) (i guard fnc arg : Nat) :
    Except String (Int × Kernel ncpu) :=
  match k.stackAlloc d i guard with
  | .error e => .error e
  | .ok (none, k) => .ok (k.ktBad d)
  | .ok (some sp, k) =>
    (k.setPsl s fun l => { l with stackz := Function.update l.stackz i true }).clone
      cur sp i fnc arg

/-- The stack list as `KT_Create` claims it for its first thread. -/
def claimed (k : Kernel ncpu) (cur : ProcIdx) (s : PslIdx) : Kernel ncpu :=
  (k.setPsl s fun l =>
      { stackz := Function.update l.stackz 0 true, threadCount := 2, state := .used }).setProc cur
    fun q => { q with psl := some s, slindex := 0 }

/-- The stack list with one more thread counted. -/
def counted (k : Kernel ncpu) (s : PslIdx) : Kernel ncpu :=
  k.setPsl s fun l => { l with threadCount := l.threadCount + 1 }

/-- The ways through `KT_Create` on directory `d`. -/
inductive KtPath (k : Kernel ncpu) (cur : ProcIdx) (d fnc arg : Nat) : Prop
  | refused : (fnc = 0 ∨ ∃ s, (k.proc cur).psl = some s ∧ (k.psl s).threadCount = 8) →
      k.ktCreate cur fnc arg = .ok (-1, k) → KtPath k cur d fnc arg
  | noList : fnc ≠ 0 → (k.proc cur).psl = none → k.findPsl = none →
      k.ktCreate cur fnc arg = k.clone cur 0 (-1) fnc arg → KtPath k cur d fnc arg
  | first (s : PslIdx) : fnc ≠ 0 → (k.proc cur).psl = none → k.findPsl = some s →
      k.ktCreate cur fnc arg = (k.claimed cur s).ktStack cur d s 1 4 fnc arg →
      KtPath k cur d fnc arg
  | noSlot (s : PslIdx) : fnc ≠ 0 → (k.proc cur).psl = some s → (k.psl s).threadCount ≠ 8 →
      findSlot (k.psl s) = none →
      k.ktCreate cur fnc arg = (k.counted s).clone cur 0 (-1) fnc arg → KtPath k cur d fnc arg
  | next (s : PslIdx) (i : Nat) : fnc ≠ 0 → (k.proc cur).psl = some s →
      (k.psl s).threadCount ≠ 8 → findSlot (k.psl s) = some i →
      k.ktCreate cur fnc arg = (k.counted s).ktStack cur d s i 2 fnc arg → KtPath k cur d fnc arg

theorem ktCreate_path (fnc arg : Nat) (hd : (k.proc cur).pgdir = some d) :
    KtPath k cur d fnc arg := by
  by_cases hf : fnc = 0
  · exact .refused (.inl hf) (by rw [ktCreate, if_pos hf])
  cases hs : (k.proc cur).psl with
  | none =>
    cases hp : k.findPsl with
    | none => exact .noList hf hs hp (by simp only [ktCreate, if_neg hf, hd, hs, hp])
    | some s =>
      refine .first s hf hs hp ?_
      simp only [ktCreate, if_neg hf, hd, hs, hp]
      rfl
  | some s =>
    have hx : k.ktCreate cur fnc arg = k.ktNext cur d s fnc arg := by
      simp only [ktCreate, if_neg hf, hd, hs]
    by_cases hc : (k.psl s).threadCount = 8
    · exact .refused (.inr ⟨s, hs, hc⟩) (by rw [hx, ktNext, if_pos hc])
    have hslot : findSlot ((k.counted s).psl s) = findSlot (k.psl s) := by
      rw [counted, setPsl_psl, if_pos rfl]
      rfl
    unfold counted at hslot
    cases hi : findSlot (k.psl s) with
    | none =>
      rw [hi] at hslot
      refine .noSlot s hf hs hc hi ?_
      simp only [hx, ktNext, if_neg hc, hslot]
      rfl
    | some i =>
      rw [hi] at hslot
      refine .next s i hf hs hc hi ?_
      simp only [hx, ktNext, if_neg hc, hslot]
      rfl

theorem ktCreate_paths (k : Kernel ncpu) (cur : ProcIdx) (fnc arg : Nat) :
    (∃ e, k.ktCreate cur fnc arg = .error e ∧ (e = "allocuvm: no pgdir" ∨
      ∃ (l : Kernel ncpu) (d i guard : Nat), l.stackAlloc d i guard = .error e)) ∨
    (∃ k' : Kernel ncpu, k.ktCreate cur fnc arg = .ok (-1, k') ∧ k'.bare = k.bare) ∨
    ∃ (l : Kernel ncpu) (sp : Nat) (slindex : Int),
      k.ktCreate cur fnc arg = l.clone cur sp slindex fnc arg ∧ l.bare = k.bare := by
  cases hd : (k.proc cur).pgdir with
  | none =>
    unfold ktCreate
    split
    · exact .inr (.inl ⟨k, rfl, rfl⟩)
    · exact .inl ⟨_, by rw [hd], .inl rfl⟩
  | some d =>
    cases ktCreate_path fnc arg hd with
    | refused _ hx => exact .inr (.inl ⟨k, hx, rfl⟩)
    | noList _ _ _ hx => exact .inr (.inr ⟨k, _, _, hx, rfl⟩)
    | first s _ _ _ hx =>
      have hm : (k.claimed cur s).bare = k.bare := setProc_bare (k := k.setPsl s _) rfl
      rw [hx, ktStack]
      split
      · next ha => exact .inl ⟨_, rfl, .inr ⟨_, _, _, _, ha⟩⟩
      · next ha => exact .inr (.inl ⟨_, rfl, (stackAlloc_bare ha).trans hm⟩)
      · next ha => exact .inr (.inr ⟨_, _, _, rfl, (stackAlloc_bare ha).trans hm⟩)
    | noSlot s _ _ _ _ hx => exact .inr (.inr ⟨_, _, _, hx, rfl⟩)
    | next s i _ _ _ _ hx =>
      rw [hx, ktStack]
      split
      · next ha => exact .inl ⟨_, rfl, .inr ⟨_, _, _, _, ha⟩⟩
      · next ha => exact .inr (.inl ⟨_, rfl, (stackAlloc_bare ha :)⟩)
      · next ha => exact .inr (.inr ⟨_, _, _, rfl, (stackAlloc_bare ha :)⟩)

/-! ## Calls -/

/-- What `clone` makes of an entry. The caller's entry is read twice. -/
def clonedProc (cur : ProcIdx) (sp : Nat) (slindex : Int) (fnc : Nat) (pg : Page)
    (ofile : Fin nofile → Option FileIdx) (ok : Bool) (old old' q : Proc) : Proc :=
  { cloneFields cur slindex old q with
    kstack := some pg
    ofile := ofile
    cwd := old'.cwd
    name := old'.name
    pid := old'.pid
    tid := toI32 (old'.tid + 1)
    tf := if ok then { old.tf with eip := fnc, esp := toU32 (sp - 8) } else old.tf
    state := if ok then .runnable else .embryo }

/-- **`clone` as an equation**, unless it finds no entry. -/
theorem clone_eq {sp : Nat} (h : k.clone cur sp slindex fnc arg = .ok (r, k')) :
    (r = -1 ∧ k.tallocproc = (none, k')) ∨
    ∃ nt pg v v' file iref ofile old old' d ok, (k.proc nt).state = .unused ∧
      k.vm.kalloc = (some pg, v) ∧ (cur ≠ nt → old = k.proc cur ∧ old' = k.proc cur) ∧
      old'.pgdir = some d ∧
      v.copyout d (toU32 (sp - 8)) (wordBytes 0xffffffff ++ wordBytes arg) = .ok (ok, v') ∧
      r = (if ok then toI32 (old'.tid + 1) else -1) ∧
      k' = { k with vm := v', file := file, iref := iref }.setProc nt
        (clonedProc cur sp slindex fnc pg ofile ok old old') := by
  unfold clone at h
  split at h
  · next k1 ht =>
    cases h
    exact .inl ⟨rfl, ht⟩
  rename_i nt k1 ht
  have hu := (tallocproc_allocs ht).unused
  cases tallocproc_allocs ht with
  | @taken _ pg v hp hk =>
    generalize hold : Kernel.proc _ cur = old at h
    have hcur : cur ≠ nt → old = k.proc cur := by
      rintro hne
      rw [← hold]
      exact Function.update_of_ne hne _ _
    split at h
    · cases h
    rename_i k2 hd
    obtain ⟨file, ofile, rfl⟩ := dupFiles_eq hd
    simp only at h
    generalize hold' : Kernel.proc _ cur = old' at h
    have hcur' : cur ≠ nt → old' = k.proc cur := by
      rintro hne
      rw [← hold']
      simp [setProc_proc, hne]
    obtain ⟨iref, hi⟩ := idup_eq _ old'.cwd
    rw [hi] at h
    split at h
    · cases h
    rename_i d hd
    split at h
    · cases h
    · next v' hout =>
      cases h
      refine .inr ⟨nt, pg, v, v', file, iref, ofile, old, old', d, false, hu, hk,
        fun hne => ⟨hcur hne, hcur' hne⟩, hd, hout, rfl, ?_⟩
      simp [Kernel.setProc, clonedProc, cloneFields]
    · next v' hout =>
      cases h
      refine .inr ⟨nt, pg, v, v', file, iref, ofile, old, old', d, true, hu, hk,
        fun hne => ⟨hcur hne, hcur' hne⟩, hd, hout, rfl, ?_⟩
      simp [Kernel.setProc, clonedProc, cloneFields]

theorem clone_quiet {sp : Nat} (h : k.clone cur sp slindex fnc arg = .ok (r, k')) : Quiet k k' := by
  rcases clone_eq h with ⟨-, ht⟩ | ⟨nt, pg, v, v', file, iref, ofile, old, old', d, ok, hnt, -, -,
    -, -, -, rfl⟩
  · exact (tallocproc_allocs ht).quiet
  · refine Quiet.after (l := { k with vm := v', file := file, iref := iref }) (.setIdle ?_ ?_)
      rfl rfl rfl rfl
    · rw [show (Kernel.proc _ nt).state = .unused from hnt]
      exact idle_unused
    · cases ok
      · exact idle_embryo
      · exact idle_runnable

theorem ktCreate_quiet (h : k.ktCreate cur fnc arg = .ok (r, k')) : Quiet k k' := by
  rcases ktCreate_paths k cur fnc arg with ⟨e, he, -⟩ | ⟨k₁, hk, hb⟩ | ⟨l, sp, i, hl, hb⟩
  · rw [he] at h
    cases h
  · rw [hk] at h
    cases h
    exact .of_bare hb
  · rw [hl] at h
    exact (Quiet.of_bare hb).trans (clone_quiet h)

/-- The slot whose top page `fork` copies. -/
def forkSlot (k : Kernel ncpu) (p : ProcIdx) : Int :=
  if (k.proc p).psl = none then 0 else (k.proc p).slindex

/-- `fork` from `copyuvm` to the copied name, which needs no lock: whether
it goes on, with the new entry filled in but still `EMBRYO`. -/
def forkFill (k : Kernel ncpu) (cur np : ProcIdx) : Except String (Bool × Kernel ncpu) :=
  let slindex := if (k.proc cur).psl = none then 0 else (k.proc cur).slindex
  match (k.proc cur).pgdir with
  | none => .error "copyuvm: no pgdir"
  | some d =>
    match k.vm.copyuvm d (k.proc cur).sz slindex with
    | .error e => .error e
    | .ok (none, vm) =>
      match ({ k with vm := vm }.setProc np fun q => { q with pgdir := none }).freeKstack np with
      | .error e => .error e
      | .ok k => .ok (false, k.setState np .unused)
    | .ok (some d', vm) =>
      let old := k.proc cur
      let k := { k with vm := vm }.setProc np fun q =>
        { q with
          pgdir := some d'
          sz := old.sz
          parent := some cur
          tf := { old.tf with
                  eax := 0
                  esp := toU32 (old.tf.esp + slindex * 2 * pgsize) } }
      match k.dupFiles cur np with
      | .error e => .error e
      | .ok k =>
        .ok (true, (k.idup (k.proc cur).cwd).setProc np fun q =>
          { q with cwd := (k.proc cur).cwd, name := (k.proc cur).name })

theorem fork_eq (k : Kernel ncpu) (cur : ProcIdx) :
    k.fork cur = match k.allocproc with
      | (none, k) => .ok (-1, k)
      | (some np, k) =>
        match k.forkFill cur np with
        | .error e => .error e
        | .ok (false, k) => .ok (-1, k)
        | .ok (true, k) => .ok ((k.proc np).pid, k.setState np .runnable) := by
  unfold fork
  cases k.allocproc with
  | mk o k1 =>
    cases o with
    | none => rfl
    | some np =>
      simp only [forkFill]
      cases (k1.proc cur).pgdir with
      | none => rfl
      | some d =>
        simp only
        cases k1.vm.copyuvm d (k1.proc cur).sz
            (if (k1.proc cur).psl = none then 0 else (k1.proc cur).slindex) with
        | error e => rfl
        | ok r =>
          obtain ⟨o, vm⟩ := r
          cases o with
          | none =>
            simp only
            generalize Kernel.freeKstack _ np = x
            cases x <;> rfl
          | some d' =>
            simp only [forkFinish]
            generalize Kernel.dupFiles _ cur np = x
            cases x with
            | error e => rfl
            | ok k2 => simp [setState, setProc, idup_proc]

theorem fork_paths (h : k.fork cur = .ok (r, k')) : (r = -1 ∧ k.allocproc = (none, k')) ∨
    ∃ np k₁, k.allocproc = (some np, k₁) ∧
      ((r = -1 ∧ k₁.forkFill cur np = .ok (false, k')) ∨
        ∃ k₂, k₁.forkFill cur np = .ok (true, k₂) ∧ r = (k₂.proc np).pid ∧
          k' = k₂.setState np .runnable) := by
  rw [fork_eq] at h
  split at h
  · next ha =>
    cases h
    exact .inl ⟨rfl, ha⟩
  · next np k₁ ha =>
    refine .inr ⟨np, k₁, ha, ?_⟩
    split at h
    · cases h
    · next hf =>
      cases h
      exact .inl ⟨rfl, hf⟩
    · next k₂ hf =>
      cases h
      exact .inr ⟨k₂, hf, rfl, rfl⟩

/-- **`forkFill` as an equation.** -/
theorem forkFill_eq (h : k.forkFill cur np = .ok (b, k')) :
    ∃ d o v, (k.proc cur).pgdir = some d ∧
      k.vm.copyuvm d (k.proc cur).sz (k.forkSlot cur) = .ok (o, v) ∧
      ((b = false ∧ o = none ∧ ∃ pg, (k.proc np).kstack = some pg ∧
          k' = { k with vm := v.kfree pg }.setProc np fun q =>
            { q with pgdir := none, kstack := none, state := .unused }) ∨
        ∃ d' old file iref ofile, b = true ∧ o = some d' ∧ (cur ≠ np → old = k.proc cur) ∧
          k' = { k with vm := v, file := file, iref := iref }.setProc np fun q =>
            { q with
              pgdir := some d'
              sz := (k.proc cur).sz
              parent := some cur
              tf := { (k.proc cur).tf with
                      eax := 0
                      esp := toU32 ((k.proc cur).tf.esp + k.forkSlot cur * 2 * pgsize) }
              ofile := ofile
              cwd := old.cwd
              name := old.name }) := by
  unfold forkFill at h
  simp only at h
  split at h
  · cases h
  rename_i d hd
  split at h
  · cases h
  · next v hc =>
    split at h
    · cases h
    rename_i k₁ hf
    cases h
    obtain ⟨pg, hks, rfl⟩ := freeKstack_eq hf
    rw [setProc_proc_self] at hks
    refine ⟨d, none, v, hd, hc, .inl ⟨rfl, rfl, pg, hks, ?_⟩⟩
    simp [setState, Kernel.setProc]
  · next d' v hc =>
    split at h
    · cases h
    rename_i k₁ hdup
    cases h
    obtain ⟨file, ofile, hk₁⟩ := dupFiles_eq hdup
    have hold : cur ≠ np → k₁.proc cur = k.proc cur := by
      intro hne
      simp [hk₁, setProc_proc, hne]
    obtain ⟨iref, hi⟩ := idup_eq k₁ (k₁.proc cur).cwd
    rw [hi]
    generalize k₁.proc cur = old at hold
    refine ⟨d, some d', v, hd, hc, .inr ⟨d', old, file, iref, ofile, rfl, rfl, hold, ?_⟩⟩
    simp [hk₁, Kernel.setProc, forkSlot]

/-- The entry of a child of `cur`. -/
def forkedProc (k : Kernel ncpu) (cur : ProcIdx) (pg : Page) (d' : Nat)
    (ofile : Fin nofile → Option FileIdx) (q : Proc) : Proc :=
  let old := k.proc cur
  { q with
    kstack := some pg
    state := .runnable
    pid := k.nextpid
    pgdir := some d'
    sz := old.sz
    parent := some cur
    tf := { old.tf with
            eax := 0
            esp := toU32 (old.tf.esp + k.forkSlot cur * 2 * pgsize) }
    ofile := ofile
    cwd := old.cwd
    name := old.name }

/-- **`fork` as an equation**, unless it finds no entry. -/
theorem fork_made (hcur : (k.proc cur).state ≠ .unused) (h : k.fork cur = .ok (r, k')) :
    (r = -1 ∧ k.allocproc = (none, k')) ∨
    ∃ np pg v d o v', k.findUnused = some np ∧ k.vm.kalloc = (some pg, v) ∧
      (k.proc cur).pgdir = some d ∧
      v.copyuvm d (k.proc cur).sz (k.forkSlot cur) = .ok (o, v') ∧
      ((r = -1 ∧ o = none ∧
          k' = { k with vm := v'.kfree pg, nextpid := toI32 (k.nextpid + 1) }.setProc np fun q =>
            { q with kstack := none, state := .unused, pid := k.nextpid, pgdir := none }) ∨
        ∃ d' file iref ofile, o = some d' ∧
          k' = { k with
            vm := v', nextpid := toI32 (k.nextpid + 1), file := file, iref := iref }.setProc np
              (k.forkedProc cur pg d' ofile)) := by
  rcases fork_paths h with hn | ⟨np, k₁, ha, hf⟩
  · exact .inl hn
  have hne : cur ≠ np := by
    rintro rfl
    exact hcur (allocproc_allocs ha).unused
  cases allocproc_allocs ha with
  | @taken _ pg v hp hk =>
    have hold : (Kernel.setProc { k with vm := v, nextpid := toI32 (k.nextpid + 1) } np fun q =>
        { q with kstack := some pg, state := .embryo, pid := k.nextpid }).proc cur
        = k.proc cur := by
      rw [setProc_proc, if_neg hne]
    refine .inr ⟨np, pg, v, ?_⟩
    rcases hf with ⟨rfl, hf⟩ | ⟨k₂, hf, -, rfl⟩
    · obtain ⟨d, o, v', hd, hc, ⟨-, ho, pg', hpg, rfl⟩ | ⟨_, _, _, _, _, hb, -⟩⟩ := forkFill_eq hf
      · simp only [forkSlot, hold] at hd hc
        rw [setProc_proc_self] at hpg
        cases hpg
        refine ⟨d, o, v', hp, hk, hd, hc, .inl ⟨rfl, ho, ?_⟩⟩
        simp [Kernel.setProc]
      · cases hb
    · obtain ⟨d, o, v', hd, hc, ⟨hb, -⟩ | ⟨d', old, file, iref, ofile, -, ho, hold', rfl⟩⟩ :=
        forkFill_eq hf
      · cases hb
      · simp only [forkSlot, hold] at hd hc hold' ⊢
        refine ⟨d, o, v', hp, hk, hd, hc, .inr ⟨d', file, iref, ofile, ho, ?_⟩⟩
        simp [Kernel.setProc, setState, forkedProc, forkSlot, hold' hne]

theorem forkFill_quiet (hnp : (k.proc np).state.idle) (h : k.forkFill cur np = .ok (b, k')) :
    Quiet k k' := by
  obtain ⟨d, o, v, -, -, ⟨-, -, pg, -, rfl⟩ | ⟨d', old, file, iref, ofile, -, -, -, rfl⟩⟩ :=
    forkFill_eq h
  · exact Quiet.after (l := { k with vm := v.kfree pg }) (.setIdle hnp idle_unused) rfl rfl rfl rfl
  · exact Quiet.after (l := { k with vm := v, file := file, iref := iref }) (.setProc rfl)
      rfl rfl rfl rfl

theorem fork_quiet (h : k.fork cur = .ok (r, k')) : Quiet k k' := by
  rcases fork_paths h with ⟨-, ha⟩ | ⟨np, k₁, ha, hf⟩
  · exact (allocproc_allocs ha).quiet
  have hq := (allocproc_allocs ha).quiet
  have hidle : (k.proc np).state.idle := by
    rw [(allocproc_allocs ha).unused]
    exact idle_unused
  rcases hf with ⟨-, hf⟩ | ⟨k₂, hf, -, rfl⟩
  · exact hq.trans (forkFill_quiet (hq.idle hidle) hf)
  · have h2 := hq.trans (forkFill_quiet (hq.idle hidle) hf)
    exact h2.trans (.setIdle (h2.idle hidle) idle_runnable)

theorem findZombie_state {mine : Proc → Bool} (h : k.findZombie mine = some p) :
    mine (k.proc p) = true ∧ (k.proc p).state = .zombie := by
  have := List.find?_some h
  simpa using this

/-- What `p` holds of the kernel's memory is freed, part by part. -/
inductive Frees (k : Kernel ncpu) (p : ProcIdx) : Kernel ncpu → Prop
  | refl : Frees k p k
  | kstack {l m : Kernel ncpu} : Frees k p l → l.freeKstack p = .ok m → Frees k p m
  | psl {l m : Kernel ncpu} : Frees k p l → l.clearPsl? p = .ok m → Frees k p m
  | vm {l m : Kernel ncpu} : Frees k p l → l.freevmOf p = .ok m → Frees k p m

theorem Frees.bare (h : Frees k p m) : m.bare = k.bare := by
  induction h with
  | refl => rfl
  | kstack _ hf ih => exact (freeKstack_bare hf).trans ih
  | psl _ hf ih => exact (clearPsl?_bare hf).trans ih
  | vm _ hf ih => exact (freevmOf_bare hf).trans ih

theorem Frees.ite {b : Prop} [Decidable b] (h : Frees k p l)
    (hf : (if b then l.freevmOf p else .ok l) = .ok m) : Frees k p m := by
  split at hf
  · exact h.vm hf
  · cases hf
    exact h

/-- The memory of a zombie is freed, then its entry is given back. -/
def Reaps (k k' : Kernel ncpu) (p : ProcIdx) : Prop :=
  (k.proc p).state = .zombie ∧ ∃ m : Kernel ncpu, Frees k p m ∧ k' = m.release p

theorem Reaps.quiet (h : Reaps k k' p) : Quiet k k' := by
  obtain ⟨hz, m, hm, rfl⟩ := h
  have hq := Quiet.of_bare hm.bare
  exact hq.trans (.setIdle (hq.idle (by rw [hz]; exact idle_zombie)) idle_unused)

theorem joinReap_reaps (hz : (k.proc p).state = .zombie) (h : k.joinReap p = .ok (r, k')) :
    Reaps k k' p ∧ r = (k.proc p).tid := by
  unfold joinReap at h
  simp only at h
  split at h
  · cases h
  rename_i k1 h1
  split at h
  · cases h
  rename_i k2 h2
  split at h
  · cases h
  rename_i k3 h3
  cases h
  exact ⟨⟨hz, k3, ((Frees.refl.kstack h1).ite h2).psl h3, rfl⟩, rfl⟩

theorem waitReap_reaps (hz : (k.proc p).state = .zombie) (h : k.waitReap p = .ok (r, k')) :
    Reaps k k' p ∧ r = (k.proc p).pid := by
  unfold waitReap at h
  simp only at h
  split at h
  · cases h
  rename_i k1 h1
  split at h
  · cases h
  rename_i k2 h2
  split at h
  · cases h
  rename_i k3 h3
  cases h
  exact ⟨⟨hz, k3, ((Frees.refl.kstack h1).psl h2).ite h3, rfl⟩, rfl⟩

theorem wait_effect {r : Option Int} (h : k.wait c cur = .ok (r, k')) :
    (∃ p, Reaps k k' p) ∨ k' = k ∨ ∃ chan, k' = k.sleep c cur chan := by
  unfold wait at h
  simp only at h
  split at h
  · next p hz =>
    split at h
    · cases h
    rename_i hr
    cases h
    exact .inl ⟨p, (waitReap_reaps (findZombie_state hz).2 hr).1⟩
  · split at h <;> cases h
    · exact .inr (.inl rfl)
    · exact .inr (.inr ⟨_, rfl⟩)

theorem ktJoin_effect {r : Option Int} (h : k.ktJoin c cur = .ok (r, k')) :
    (∃ p, Reaps k k' p) ∨ k' = k ∨ ∃ chan, k' = k.sleep c cur chan := by
  unfold ktJoin at h
  simp only at h
  split at h
  · next p hz =>
    split at h
    · cases h
    rename_i hr
    cases h
    exact .inl ⟨p, (joinReap_reaps (findZombie_state hz).2 hr).1⟩
  · split at h <;> cases h
    · exact .inr (.inl rfl)
    · exact .inr (.inr ⟨_, rfl⟩)

/-! ## All calls at once -/

theorem map_snd_ok {α β : Type} {x : Except String (α × β)} {y : β}
    (h : x.map Prod.snd = .ok y) : ∃ r, x = .ok (r, y) := by
  cases x with
  | error e => cases h
  | ok v => exact ⟨v.1, by rw [← Except.ok.inj h]⟩

/-- What a call does to scheduling: nothing, give up the CPU, or one of
the semaphore functions. -/
inductive Performed (k k' : Kernel ncpu) (c : Fin ncpu) (p : ProcIdx) : Call → Prop
  | quiet (op : Call) : Quiet k k' → Performed k k' c p op
  | leave (op : Call) (k₁ : Kernel ncpu) (st : ProcState) : Quiet k k₁ → st.idle →
      k' = k₁.schedOut c p st → Performed k k' c p op
  | semInitialize (n : Int32) : k' = (k.sysSemInitialize n.toInt).2 →
      Performed k k' c p (.semInitialize n)
  | semWait (i : SemIdx) : k' = k.semWait p i → Performed k k' c p (.semWait i)
  | semSignal (i : SemIdx) : k' = k.semSignal p i → Performed k k' c p (.semSignal i)
  | semFree (i : SemIdx) : k' = k.semFree i → Performed k k' c p (.semFree i)

theorem performed_sleep (k : Kernel ncpu) (c : Fin ncpu) (p : ProcIdx) (chan : Chan) (op : Call) :
    Performed k (k.sleep c p chan) c p op :=
  .leave op (k.setProc p fun q => { q with chan := chan }) .sleeping (.setProc rfl)
    idle_sleeping rfl

theorem performed {op : Call} (h : k.perform c p op = .ok k') : Performed k k' c p op := by
  cases op with
  | yield =>
    cases h
    exact .leave _ k .runnable (.refl k) idle_runnable rfl
  | sleep chan =>
    cases h
    exact performed_sleep k c p chan _
  | kill pid =>
    cases h
    exact .quiet _ (kill_calm k pid).toQuiet
  | exit =>
    obtain ⟨-, k1, hq, hk⟩ := exit_effect h
    exact .leave _ k1 .zombie hq.toQuiet idle_zombie hk
  | wait =>
    obtain ⟨r, hr⟩ := map_snd_ok h
    rcases wait_effect hr with ⟨z, hz⟩ | rfl | ⟨chan, rfl⟩
    · exact .quiet _ hz.quiet
    · exact .quiet _ (.refl _)
    · exact performed_sleep k c p chan _
  | ktJoin =>
    obtain ⟨r, hr⟩ := map_snd_ok h
    rcases ktJoin_effect hr with ⟨z, hz⟩ | rfl | ⟨chan, rfl⟩
    · exact .quiet _ hz.quiet
    · exact .quiet _ (.refl _)
    · exact performed_sleep k c p chan _
  | fork =>
    obtain ⟨r, hr⟩ := map_snd_ok h
    exact .quiet _ (fork_quiet hr)
  | ktCreate fnc arg =>
    obtain ⟨r, hr⟩ := map_snd_ok h
    exact .quiet _ (ktCreate_quiet hr)
  | growproc n =>
    obtain ⟨r, hr⟩ := map_snd_ok h
    exact .quiet _ (.of_bare (growproc_bare hr))
  | exec f =>
    obtain ⟨r, hr⟩ := map_snd_ok h
    exact .quiet _ (.of_bare (exec_bare hr))
  | semInitialize n =>
    cases h
    exact .semInitialize n rfl
  | semWait i =>
    cases h
    exact .semWait i rfl
  | semSignal i =>
    cases h
    exact .semSignal i rfl
  | semFree i =>
    cases h
    exact .semFree i rfl

end Kernel

end Xv6.Kern
