/-
Xv6.Kern.ForkTheorems — the stack of a forked child.

`fork` moves the caller's stack page from slot `k` to slot 0 and adds the
distance, `2*k*PGSIZE`, to the child's `esp`. Programs also address their
stack through `ebp` (they are compiled with frame pointers), and that
register is copied as it is. So the two registers of the child are as
good as the parent's exactly when nothing had to move, or when the heap
reaches over the slot and the old page is copied in place as well.
-/
import Xv6.Mem.CopyTheorems
import Xv6.Kern.SizeTheorems

namespace Xv6.Mem.Vm

variable {R : Nat → Nat → Prop}

/-- The four bytes of the word at user address `a`, in memory order. -/
def readWord (v : Vm) (d a : Nat) : List (Option UInt8) :=
  [v.read d a, v.read d (a + 1), v.read d (a + 2), v.read d (a + 3)]

end Xv6.Mem.Vm

namespace Xv6.Kern

open Xv6.Lib Xv6.Mem

variable {ncpu : Nat}

namespace Kernel

/-! ## What `fork` does -/

/-- The child `np` of `cur`, made from directory `d` into `d'`. -/
structure Forked (k k' : Kernel ncpu) (cur np : ProcIdx) (d d' : Nat) : Prop where
  entry : k.findUnused = some np
  pgdir : (k'.proc np).pgdir = some d'
  tf : (k'.proc np).tf = { (k.proc cur).tf with
    eax := 0
    esp := toU32 ((k.proc cur).tf.esp + k.forkSlot cur * 2 * pgsize) }
  copy : ∃ v, Vm.Took k.vm v ∧ v.data = k.vm.data ∧ v.space = k.vm.space ∧
    v.copyuvm d (k.proc cur).sz (k.forkSlot cur) = .ok (some d', k'.vm)

theorem fork_cases {k k' : Kernel ncpu} {cur : ProcIdx} {pid : Int} {d : Nat}
    (hst : (k.proc cur).state ≠ .unused) (hd : (k.proc cur).pgdir = some d)
    (h : k.fork cur = .ok (pid, k')) :
    (∃ np d', Forked k k' cur np d d') ∨
    (pid = -1 ∧ ∀ q, (k'.proc q).state ≠ .unused → k'.proc q = k.proc q) := by
  rcases fork_made hst h with ⟨hpid, ha⟩ | ⟨np, pg, v, d₁, o, v', hp, hk, hd₁, hcp, hk'⟩
  · refine .inr ⟨hpid, fun q hq => ?_⟩
    cases allocproc_allocs ha with
    | full => rfl
    | short =>
      rw [setProc_proc] at hq ⊢
      split at hq
      · exact absurd rfl hq
      · next hqp => rw [if_neg hqp]
  rw [hd] at hd₁
  cases hd₁
  rcases hk' with ⟨hpid, -, rfl⟩ | ⟨d', file, iref, ofile, rfl, rfl⟩
  · refine .inr ⟨hpid, fun q hq => ?_⟩
    rw [setProc_proc] at hq ⊢
    split at hq
    · exact absurd rfl hq
    · next hqp => rw [if_neg hqp]
  · refine .inl ⟨np, d', hp, ?_, ?_, v, Vm.took_kalloc hk, Vm.kalloc_data hk,
      (Vm.kalloc_eq hk).1, hcp⟩
    · rw [setProc_proc_self]
      rfl
    · rw [setProc_proc_self]
      rfl

/-! ## The two stack registers -/

/-- Register `r` of a parent on directory `d`, with its stack in virtual
page `page`, and register `r'` of the child on `d'`: at every offset that
stays in the page the two read the same word. -/
def SameStack (v : Vm) (d d' page r r' : Nat) : Prop :=
  ∀ off : Int, page * pgsize ≤ r + off → r + off + 4 ≤ (page + 1) * pgsize →
    v.readWord d' (toU32 (r' + off)) = v.readWord d (toU32 (r + off))

/-- The child resumes on an equivalent stack: both stack registers do, and
all others but `eax` are equal. -/
def Resumes (v : Vm) (d d' page : Nat) (tf tf' : Trapframe) : Prop :=
  SameStack v d d' page tf.esp tf'.esp ∧ SameStack v d d' page tf.ebp tf'.ebp ∧
    { tf' with eax := tf.eax, esp := tf.esp, ebp := tf.ebp } = tf

section
variable {v v' : Vm} {d d' sz slot : Nat}

theorem stackPage_slot (h8 : slot < 8) : Vm.stackPage slot + 2 * slot = Vm.stackPage 0 := by
  rw [stackPage_eq h8]
  have h0 : Vm.stackPage 0 = slotLow 0 + 1 := stackPage_eq (i := 0) (by omega)
  rw [h0, slotLow_eq, slotLow_eq]
  omega

theorem read_parent (hf : Vm.FreeOk v d) (hne : d ≠ d') (hc : Vm.Copy v v' d d' R) (a : Nat) :
    v'.read d a = v.read d a := by
  unfold Vm.read
  rw [hc.other d _ (.inl hne)]
  cases he : v.entry d (a / pgsize) with
  | none => rfl
  | some e =>
    simp only [Option.map_some]
    rw [hc.data _ (hf.apart _ e he)]

theorem readWord_copy (hf : Vm.FreeOk v d) (hne : d ≠ d') (hc : Vm.Copy v v' d d' R) {y x a : Nat}
    (hR : R y x) (hlo : x * pgsize ≤ a) (hhi : a + 4 ≤ (x + 1) * pgsize) :
    v'.readWord d' (y * pgsize + (a - x * pgsize)) = v'.readWord d a := by
  have hbyte : ∀ b, x * pgsize ≤ b → b < (x + 1) * pgsize →
      v'.read d' (y * pgsize + (b - x * pgsize)) = v'.read d b := by
    intro b hb hb'
    rw [read_parent hf hne hc]
    simp only [pgsize] at hb hb' ⊢
    have hy : (y * 4096 + (b - x * 4096)) / 4096 = y := by omega
    have hx : b / 4096 = x := by omega
    refine (hc.read_eq _ b ?_ ?_).2.1
    · simp only [pgsize]
      rw [hy, hx]
      exact hR
    · simp only [pgsize]
      omega
  simp only [Vm.readWord]
  rw [← hbyte a hlo (by omega), ← hbyte (a + 1) (by omega) (by omega),
    ← hbyte (a + 2) (by omega) (by omega), ← hbyte (a + 3) (by omega) (by omega)]
  have hsub : ∀ j, y * pgsize + (a - x * pgsize) + j = y * pgsize + (a + j - x * pgsize) := by
    intro j
    omega
  rw [hsub, hsub, hsub]

section
variable (h8 : slot < 8) (hf : Vm.FreeOk v d) (hne : d ≠ d') (hc : Vm.Copy v v' d d' R)
include h8 hf hne hc

theorem sameStack_moved (hR : R (Vm.stackPage 0) (Vm.stackPage slot)) {r : Nat}
    (hr : r / pgsize = Vm.stackPage slot) :
    SameStack v' d d' (Vm.stackPage slot) r (toU32 (r + slot * 2 * pgsize)) := by
  intro off hlo hhi
  have hpage := stackPage_slot h8
  have h0 : Vm.stackPage 0 = 524286 := by decide
  rw [h0] at hpage
  simp only [pgsize] at hr hlo hhi
  -- neither address wraps around
  have ha : toU32 (r + off) = (r + off).toNat := by
    simp only [toU32]
    omega
  have ha' : toU32 ((toU32 (r + slot * 2 * pgsize) : Nat) + off)
      = Vm.stackPage 0 * pgsize + ((r + off).toNat - Vm.stackPage slot * pgsize) := by
    simp only [toU32, pgsize, h0]
    omega
  rw [ha, ha']
  refine readWord_copy hf hne hc hR ?_ ?_
  · simp only [pgsize]
    omega
  · simp only [pgsize]
    omega

theorem sameStack_stays (hR : R (Vm.stackPage slot) (Vm.stackPage slot)) (r : Nat) :
    SameStack v' d d' (Vm.stackPage slot) r r := by
  intro off hlo hhi
  have hpage := stackPage_slot h8
  have h0 : Vm.stackPage 0 = 524286 := by decide
  rw [h0] at hpage
  simp only [pgsize] at hlo hhi
  have ha : toU32 (r + off) = (r + off).toNat := by
    simp only [toU32]
    omega
  have hsame : (r + off).toNat
      = Vm.stackPage slot * pgsize + ((r + off).toNat - Vm.stackPage slot * pgsize) := by
    simp only [pgsize]
    omega
  rw [ha]
  have := readWord_copy (a := (r + off).toNat) hf hne hc hR (by simp only [pgsize]; omega)
    (by simp only [pgsize]; omega)
  rw [← hsame] at this
  exact this

end

/-- Where the parent has its stack page and the child has nothing, a
register that points there is not equivalent. -/
theorem not_sameStack (h8 : slot < 8) {r : Nat} {e : Pte}
    (hp : v'.entry d (Vm.stackPage slot) = some e) (hc : v'.entry d' (Vm.stackPage slot) = none) :
    ¬ SameStack v' d d' (Vm.stackPage slot) r r := by
  intro hs
  have hpage := stackPage_slot h8
  have h0 : Vm.stackPage 0 = 524286 := by decide
  rw [h0] at hpage
  have hw := hs (Vm.stackPage slot * pgsize - r) (by omega) (by simp only [pgsize]; omega)
  have ha : toU32 ((r : Int) + (Vm.stackPage slot * pgsize - r)) = Vm.stackPage slot * pgsize := by
    simp only [toU32, pgsize]
    omega
  have hdiv : Vm.stackPage slot * pgsize / pgsize = Vm.stackPage slot := by
    simp only [pgsize]
    omega
  rw [ha] at hw
  simp only [Vm.readWord, List.cons.injEq] at hw
  have h1 := hw.1
  simp [Vm.read, hdiv, hp, hc] at h1

end

/-- **A forked child resumes on an equivalent stack exactly when its stack
did not move**: the caller is in slot 0, or its heap reaches over the slot. -/
theorem fork_resumes {k k' : Kernel ncpu} {cur : ProcIdx} {pid : Int} {d slot : Nat}
    (hst : (k.proc cur).state ≠ .unused) (hd : (k.proc cur).pgdir = some d)
    (hslot : k.forkSlot cur = slot) (h8 : slot < 8) (hns : d < k.vm.nspace)
    (hsz : (k.proc cur).sz ≤ kernbase) (hf : k.vm.FreeOk d)
    (hesp : (k.proc cur).tf.esp / pgsize = Vm.stackPage slot)
    (hebp : (k.proc cur).tf.ebp / pgsize = Vm.stackPage slot)
    (h : k.fork cur = .ok (pid, k')) (hpid : pid ≠ -1) :
    ∃ np d', k.findUnused = some np ∧ (k'.proc np).pgdir = some d' ∧
      (Resumes k'.vm d d' (Vm.stackPage slot) (k.proc cur).tf (k'.proc np).tf ↔
        slot = 0 ∨ Vm.stackPage slot < npages (k.proc cur).sz) := by
  obtain ⟨np, d', hfork⟩ := (fork_cases hst hd h).resolve_right fun hno => hpid hno.1
  refine ⟨np, d', hfork.entry, hfork.pgdir, ?_⟩
  obtain ⟨v, htook, hdata, hspace, hcp⟩ := hfork.copy
  rw [hslot] at hcp
  have hfv : v.FreeOk d := hf.of_took htook (Vm.entry_of_space hspace d)
  have hnsv : d < v.nspace := htook.nspace ▸ hns
  obtain ⟨v₁, -, hnew, -, hcopy⟩ := Vm.copy_copyuvm hnsv hsz hfv hcp
  have hne : d ≠ d' := by
    rw [hnew.num]
    exact Nat.ne_of_lt hnsv
  have hf₁ : v₁.FreeOk d := hfv.of_newDir hnew hne
  have hmoved := sameStack_moved h8 hf₁ hne hcopy (.inr ⟨rfl, rfl⟩) hesp
  rw [hfork.tf, hslot]
  constructor
  · rintro ⟨-, hs, -⟩
    by_contra hno
    simp only [not_or, Nat.not_lt] at hno
    obtain ⟨e, -, he, -⟩ := hcopy.copy _ _ (.inr ⟨rfl, rfl⟩)
    refine not_sameStack h8 ?_ ?_ hs (e := e)
    · rw [hcopy.other d _ (.inl hne)]
      exact he
    · rw [hcopy.other d' _ (.inr ?_), hnew.empty]
      rintro x (⟨hlt, -⟩ | ⟨heq, -⟩)
      · omega
      · have := stackPage_slot h8
        omega
  · intro hor
    refine ⟨hmoved, ?_, rfl⟩
    refine sameStack_stays h8 hf₁ hne hcopy ?_ _
    rcases hor with rfl | hlt
    · exact .inr ⟨rfl, rfl⟩
    · exact .inl ⟨hlt, rfl⟩

/-- User code of process `p` has made a stack frame at address `a`. -/
def inFrame (k : Kernel ncpu) (p : ProcIdx) (a : Nat) : Kernel ncpu :=
  k.setProc p fun q => { q with tf := { q.tf with esp := a, ebp := a } }

theorem entry_initLoaded {x : Nat} {e : Pte} (hx : initLoaded.vm.entry 1 x = some e) :
    x ∈ [0, slotLow 0, slotLow 0 + 1] := by
  have hfacts : initLoaded.cpu 0 = some initproc ∧ (initLoaded.proc initproc).pgdir = some 1 ∧
      (initLoaded.proc initproc).psl = none ∧ npages (initLoaded.proc initproc).sz = 1 := by
    decide +kernel
  obtain ⟨hcpu, hd, hpsl, hn⟩ := hfacts
  have hlaid := started_initLoaded.laid
  obtain ⟨t, ht, -⟩ := caller hlaid.sched hlaid.clean hcpu
  obtain ⟨-, hsz, hpd, -, hl, -⟩ := world_thread_eq_some.mp ht
  have hlay := hlaid.sizes.layout initproc t ht
  have hone : t.pgdir = 1 := Option.some.inj (hpd.symm.trans hd)
  rw [hone] at hlay
  have hmap : x ∈ initLoaded.vm.maps.mapped 1 := Vm.entry_ne_none.mp (by simp [hx])
  rcases hlay.only x hmap with hlt | ⟨i, -, hu, hslot⟩
  · rw [← hsz, hn] at hlt
    simp only [List.mem_cons]
    omega
  · simp only [World.slotUsed, ← hl, hpsl] at hu
    subst hu
    simp only [slot, Set.mem_Ico] at hslot
    simp only [List.mem_cons]
    omega

theorem freeOk_initLoaded : initLoaded.vm.FreeOk 1 := by
  have hfacts : initLoaded.vm.freelist.Nodup ∧
      ∀ x ∈ [0, slotLow 0, slotLow 0 + 1], ∀ e ∈ initLoaded.vm.entry 1 x,
        e.page ∉ initLoaded.vm.freelist := by
    decide +kernel
  exact ⟨hfacts.1, fun x e hx => hfacts.2 x (entry_initLoaded hx) e hx⟩

/-- `initproc`, with a frame in its stack page. -/
def initInFrame : Kernel 1 := initLoaded.inFrame initproc (Vm.stackPage 0 * pgsize)

theorem fork_resumes_initInFrame :
    ∃ k' np d', initInFrame.fork initproc = .ok (2, k') ∧ (k'.proc np).pgdir = some d' ∧
      Resumes k'.vm 1 d' (Vm.stackPage 0) (initInFrame.proc initproc).tf (k'.proc np).tf := by
  have hfacts : (initInFrame.proc initproc).state ≠ .unused ∧
      (initInFrame.proc initproc).pgdir = some 1 ∧ initInFrame.forkSlot initproc = (0 : Nat) ∧
      1 < initInFrame.vm.nspace ∧ (initInFrame.proc initproc).sz ≤ kernbase ∧
      (initInFrame.proc initproc).tf.esp / pgsize = Vm.stackPage 0 ∧
      (initInFrame.proc initproc).tf.ebp / pgsize = Vm.stackPage 0 ∧
      ∃ k', initInFrame.fork initproc = .ok (2, k') := by
    decide +kernel
  obtain ⟨hst, hd, hslot, hns, hsz, hesp, hebp, k', hfork⟩ := hfacts
  obtain ⟨np, d', -, hpd, hiff⟩ := fork_resumes hst hd hslot (by omega) hns hsz
    freeOk_initLoaded hesp hebp hfork (by decide)
  exact ⟨k', np, d', hfork, hpd, hiff.mpr (.inl rfl)⟩

/-- A thread of `initproc`, in slot 1, is running. -/
def threadRuns : List (Kernel 1 × Act 1) × Kernel 1 :=
  (follow next initLoaded [.call 0 (.ktCreate pgsize 0), .call 0 .yield, .schedule 0 1]).get
    (by decide +kernel)

/-- With a frame in its stack page. -/
def threadInFrame : Kernel 1 := threadRuns.2.inFrame 1 (Vm.stackPage 1 * pgsize)

/-- It forks. The child's `ebp` is an address where the parent reads its
frame and the child has no page. -/
theorem frame_lost : Started initLoaded ∧ Run next initLoaded threadRuns.1 threadRuns.2 ∧
    threadInFrame.cpu 0 = some 1 ∧ threadInFrame.forkSlot 1 = 1 ∧
    (threadInFrame.proc 1).tf.esp / pgsize = Vm.stackPage 1 ∧
    (threadInFrame.proc 1).tf.ebp / pgsize = Vm.stackPage 1 ∧
    ∃ k' d', threadInFrame.fork 1 = .ok (2, k') ∧ (k'.proc 2).pgdir = some d' ∧
      k'.vm.readWord 1 (threadInFrame.proc 1).tf.ebp = [some 0, some 0, some 0, some 0] ∧
      k'.vm.readWord d' (k'.proc 2).tf.ebp = [none, none, none, none] := by
  obtain ⟨hfacts, k', hfork, hchild⟩ : (threadInFrame.cpu 0 = some 1 ∧
      threadInFrame.forkSlot 1 = 1 ∧ (threadInFrame.proc 1).tf.esp / pgsize = Vm.stackPage 1 ∧
      (threadInFrame.proc 1).tf.ebp / pgsize = Vm.stackPage 1) ∧
      ∃ k', threadInFrame.fork 1 = .ok (2, k') ∧ (k'.proc 2).pgdir = some 2 ∧
        k'.vm.readWord 1 (threadInFrame.proc 1).tf.ebp = [some 0, some 0, some 0, some 0] ∧
        k'.vm.readWord 2 (k'.proc 2).tf.ebp = [none, none, none, none] := by
    decide +kernel
  obtain ⟨hcpu, hslot, hesp, hebp⟩ := hfacts
  exact ⟨started_initLoaded, run_get _, hcpu, hslot, hesp, hebp, k', 2, hfork, hchild⟩

end Kernel

end Xv6.Kern
