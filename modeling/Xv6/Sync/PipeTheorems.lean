/-
Xv6.Sync.PipeTheorems — a pipe is a lossless byte stream, and when a
wakeup on it is lost.

The counters are read through `count` (`nwrite - nread`, modulo 2^32) and
the buffer through `contents`; both loops then have a closed form that no
longer mentions the counters (`pipewrite_contents`, `copy_contents`).

* `pipe_lossless`: bytes returned ++ bytes buffered = bytes stored, in
  every run, however often the counters wrap.
* `pipe_wakeups`: nobody sleeps on `&p->nwrite` in vain in any run.
  Nobody sleeps on `&p->nread` in vain either, as long as no stretch of
  `pipewrite` fills the buffer and then returns -1 while a reader sleeps:
  that return skips `wakeup(&p->nread)`.
-/
import Xv6.Sync.Pipe
import Mathlib.Data.Fintype.Basic

namespace Xv6.Sync

open Xv6.Lib

namespace Pipe

/-- The number of bytes in the buffer. -/
def count (p : Pipe) : Nat := (p.nwrite - p.nread).toNat

/-- The bytes in the buffer, oldest first. -/
def contents (p : Pipe) : List UInt8 :=
  ringList p.data pipesize (p.nread.toNat % pipesize) p.count

variable {p : Pipe} {n : Int} {s₀ : PipeState T} {u : T} {tr : List (PipeState T × PipeAct T)}

@[simp] theorem length_contents (p : Pipe) : p.contents.length = p.count := by
  simp [contents]

theorem full_iff : p.full = true ↔ p.count = pipesize := by
  have h1 := p.nread.toNat_lt
  have h2 := p.nwrite.toNat_lt
  simp only [full, beq_iff_eq, count, ← UInt32.toNat_inj, UInt32.toNat_sub, UInt32.toNat_add,
    UInt32.reduceToNat, pipesize]
  omega

theorem empty_iff : p.empty = true ↔ p.count = 0 := by
  have h1 := p.nread.toNat_lt
  have h2 := p.nwrite.toNat_lt
  simp only [empty, beq_iff_eq, count, ← UInt32.toNat_inj, UInt32.toNat_sub]
  omega

theorem count_store (hc : p.count < pipesize) (b : UInt8) : (p.store b).count = p.count + 1 := by
  have h1 := p.nread.toNat_lt
  have h2 := p.nwrite.toNat_lt
  simp only [count, store, UInt32.toNat_sub, UInt32.toNat_add, UInt32.toNat_one, pipesize]
    at hc ⊢
  omega

theorem store_index (p : Pipe) :
    p.nwrite.toNat % pipesize = (p.nread.toNat % pipesize + p.count) % pipesize := by
  have h1 := p.nread.toNat_lt
  have h2 := p.nwrite.toNat_lt
  simp only [count, UInt32.toNat_sub, pipesize]
  omega

theorem contents_store (hc : p.count < pipesize) (b : UInt8) :
    (p.store b).contents = p.contents ++ [b] := by
  rw [contents, count_store hc]
  simp only [store]
  rw [store_index, ringList_push _ _ hc]
  rfl

theorem count_advance (hc : p.count ≠ 0) : p.count = p.advance.count + 1 := by
  have h1 := p.nread.toNat_lt
  have h2 := p.nwrite.toNat_lt
  simp only [count, advance, UInt32.toNat_sub, UInt32.toNat_add, UInt32.toNat_one] at hc ⊢
  omega

theorem contents_advance (hc : p.count ≠ 0) : p.contents = p.first :: p.advance.contents := by
  have hfront : (p.nread.toNat % pipesize + 1) % pipesize
      = p.advance.nread.toNat % pipesize := by
    simp only [advance, UInt32.toNat_add, UInt32.toNat_one, pipesize]
    omega
  rw [contents, count_advance hc, ringList_pop, Nat.mod_mod, hfront]
  rfl

/-! ## The loop of `pipewrite` -/

section
variable (killed : Bool) (bs : List UInt8) (hc : p.count ≤ pipesize)
include killed bs hc

theorem pipewrite_stored : (pipewrite killed p bs).2.1 = bs.take (pipesize - p.count) := by
  induction bs generalizing p with
  | nil => simp [pipewrite]
  | cons b bs ih =>
    unfold pipewrite
    split
    · next hf => simp [full_iff.mp hf]
    rename_i hf
    have hlt : p.count < pipesize := by
      have := mt full_iff.mpr hf
      omega
    have hroom : pipesize - p.count = pipesize - (p.store b).count + 1 := by
      rw [count_store hlt]
      omega
    simp only [hroom, List.take_succ_cons]
    rw [ih (by rw [count_store hlt]; omega)]

theorem pipewrite_contents :
    (pipewrite killed p bs).1.contents = p.contents ++ (pipewrite killed p bs).2.1 := by
  induction bs generalizing p with
  | nil => simp [pipewrite]
  | cons b bs ih =>
    unfold pipewrite
    split
    · simp
    rename_i hf
    have hlt : p.count < pipesize := by
      have := mt full_iff.mpr hf
      omega
    simp only
    rw [ih (by rw [count_store hlt]; omega), contents_store hlt]
    simp

theorem pipewrite_end :
    (pipewrite killed p bs).2.2 =
      if p.count + bs.length ≤ pipesize then .done
      else if !p.readopen || killed then .failed
      else .blocked (bs.drop (pipesize - p.count)) := by
  induction bs generalizing p with
  | nil => simp [pipewrite, hc]
  | cons b bs ih =>
    unfold pipewrite
    split
    · next hf => simp [full_iff.mp hf]
    rename_i hf
    have hlt : p.count < pipesize := by
      have := mt full_iff.mpr hf
      omega
    have hroom : pipesize - p.count = pipesize - (p.store b).count + 1 := by
      rw [count_store hlt]
      omega
    have hlen : p.count + (b :: bs).length = (p.store b).count + bs.length := by
      rw [count_store hlt, List.length_cons]
      omega
    simp only [hroom, hlen, List.drop_succ_cons]
    rw [ih (by rw [count_store hlt]; omega)]
    rfl

theorem pipewrite_count : (pipewrite killed p bs).1.count = min (p.count + bs.length) pipesize := by
  have h := congrArg List.length (pipewrite_contents killed bs hc)
  rw [List.length_append, pipewrite_stored killed bs hc, List.length_take, length_contents,
    length_contents] at h
  omega

end

@[simp] theorem pipewrite_readopen (killed : Bool) (bs : List UInt8) :
    (pipewrite killed p bs).1.readopen = p.readopen := by
  induction bs generalizing p with
  | nil => rfl
  | cons b bs ih =>
    unfold pipewrite
    split
    · rfl
    · exact ih

/-! ## The loop of `piperead` -/

theorem copy_contents (n : Nat) (p : Pipe) :
    p.contents = (copy n p).1 ++ (copy n p).2.contents := by
  induction n generalizing p with
  | zero => simp [copy]
  | succ n ih =>
    unfold copy
    split
    · simp
    rename_i he
    have hc := mt empty_iff.mpr he
    rw [contents_advance hc, ih p.advance]
    simp

@[simp] theorem copy_writeopen (n : Nat) (p : Pipe) : (copy n p).2.writeopen = p.writeopen := by
  induction n generalizing p with
  | zero => rfl
  | succ n ih =>
    unfold copy
    split
    · rfl
    · exact ih p.advance

theorem copy_eq_nil {n : Nat} (hn : 0 < n) (h : (copy n p).1 = []) : p.empty = true := by
  cases n with
  | zero => omega
  | succ n =>
    unfold copy at h
    split at h
    · assumption
    · cases h

end Pipe

namespace PipeState

variable {T : Type} [DecidableEq T] {s s' : PipeState T} {a : PipeAct T} {t : T}

/-! ## What a step can do -/

/-- `t` does not sleep on the pipe. -/
def Awake (s : PipeState T) (t : T) : Prop :=
  (s.party t).onNread = false ∧ (s.party t).onNwrite = false

omit [DecidableEq T] in
theorem awake_of_outside (h : (s.party t).pc = .outside) : s.Awake t := by
  simp [Awake, Party.onNread, Party.onNwrite, h]

omit [DecidableEq T] in
theorem awake_of_not_asleep (h : (s.party t).asleep = false) : s.Awake t := by
  simp [Awake, Party.onNread, Party.onNwrite, h]

/-- The steps of the machine: a stretch of `pipewrite` or of `piperead` by
a party that is awake, a `pipeclose`, or a mark on a party that wakes
at most that party. -/
inductive Step (s : PipeState T) (a : PipeAct T) : PipeState T → Prop
  | write (t : T) (bs : List UInt8) : s.writer a = some (t, bs) → s.reader a = none →
      s.Awake t → Step s a (s.runWrite t bs)
  | read (t : T) (n : Int) : s.writer a = none → s.reader a = some (t, n) →
      s.Awake t → Step s a (s.runRead t n)
  | close (writable : Bool) : s.writer a = none → s.reader a = none →
      Step s a (s.runClose writable)
  | mark (t : T) (q : Party) : s.writer a = none → s.reader a = none →
      q.pc = (s.party t).pc → (q.asleep = true → (s.party t).asleep = true) →
      Step s a (s.setParty t fun _ => q)

theorem step_of_next (h : s.next a = some s') : s.Step a s' := by
  cases a with
  | write t bs =>
    simp only [next, Option.ite_none_right_eq_some, Option.some.injEq] at h
    rw [← h.2]
    exact .write t bs rfl rfl (awake_of_outside h.1.2)
  | read t n =>
    simp only [next, Option.ite_none_right_eq_some, Option.some.injEq] at h
    rw [← h.2]
    exact .read t n rfl rfl (awake_of_outside h.1.2)
  | resume t =>
    simp only [next, Option.ite_none_left_eq_some] at h
    obtain ⟨-, h⟩ := h
    have hawake : ∀ pc, s.continuing t = pc → pc ≠ .outside → s.Awake t := by
      intro pc hpc hne
      apply awake_of_not_asleep
      by_contra hs
      simp only [Bool.not_eq_false] at hs
      simp only [continuing, hs, if_true] at hpc
      exact hne hpc.symm
    cases hc : s.continuing t with
    | outside => simp [hc] at h
    | writing rest =>
      simp only [hc, Option.some.injEq] at h
      rw [← h]
      exact .write t rest (by simp [writer, hc]) (by simp [reader, hc])
        (hawake _ hc (by simp))
    | reading n =>
      simp only [hc, Option.some.injEq] at h
      rw [← h]
      exact .read t n (by simp [writer, hc]) (by simp [reader, hc]) (hawake _ hc (by simp))
  | close writable =>
    simp only [next, Option.ite_none_left_eq_some, Option.some.injEq] at h
    rw [← h.2]
    exact .close writable rfl rfl
  | kill t =>
    simp only [next, Option.some.injEq] at h
    rw [← h]
    exact .mark t { s.party t with killed := true, asleep := false } rfl rfl rfl (by simp)
  | mark t =>
    simp only [next, Option.some.injEq] at h
    rw [← h]
    exact .mark t { s.party t with killed := true } rfl rfl rfl id

@[simp] theorem setParty_pipe (s : PipeState T) (t : T) (f : Party → Party) :
    (s.setParty t f).pipe = s.pipe := rfl

@[simp] theorem setParty_self (s : PipeState T) (t : T) (f : Party → Party) :
    (s.setParty t f).party t = f (s.party t) := by
  simp [setParty]

@[simp] theorem setParty_of_ne {t : T} (h : u ≠ t) (s : PipeState T) (f : Party → Party) :
    (s.setParty t f).party u = s.party u := by
  simp [setParty, h]

omit [DecidableEq T] in
@[simp] theorem wakeReaders_pipe (s : PipeState T) : s.wakeReaders.pipe = s.pipe := rfl

omit [DecidableEq T] in
@[simp] theorem wakeWriters_pipe (s : PipeState T) : s.wakeWriters.pipe = s.pipe := rfl

@[simp] theorem runWrite_pipe (s : PipeState T) (t : T) (bs : List UInt8) :
    (s.runWrite t bs).pipe = (s.pipe.pipewrite (s.party t).killed bs).1 := by
  simp only [runWrite]
  split <;> rfl

@[simp] theorem runRead_pipe (s : PipeState T) (t : T) (n : Int) :
    (s.runRead t n).pipe = (s.pipe.piperead (s.party t).killed n).1 := by
  simp only [runRead]
  split <;> rfl

omit [DecidableEq T] in
@[simp] theorem runClose_pipe (s : PipeState T) (writable : Bool) :
    (s.runClose writable).pipe = s.pipe.pipeclose writable := by
  unfold runClose
  split <;> rfl

/-! ## The stream of bytes -/

theorem pipeclose_contents (p : Pipe) (writable : Bool) :
    (p.pipeclose writable).contents = p.contents := by
  cases writable <;> rfl

theorem piperead_contents (killed : Bool) (p : Pipe) (n : Int) :
    p.contents =
      (p.piperead killed n).2.returned.getD [] ++ (p.piperead killed n).1.contents := by
  by_cases hw : (p.empty && p.writeopen) = true
  · cases killed <;> simp [Pipe.piperead, hw, ReadEnd.returned]
  · simpa [Pipe.piperead, hw, ReadEnd.returned] using Pipe.copy_contents n.toNat p

/-- One step: what is returned and then buffered is what was buffered and
then stored, and the buffer does not overflow. -/
theorem Step.stream (h : s.Step a s') (hc : s.pipe.count ≤ pipesize) :
    s.pipe.contents ++ s.stored a = (s.returned a).getD [] ++ s'.pipe.contents ∧
    s'.pipe.count ≤ pipesize := by
  cases h with
  | write t bs hw hr _ =>
    have hp := Pipe.pipewrite_contents (s.party t).killed bs hc
    have hn := Pipe.pipewrite_count (s.party t).killed bs hc
    simp [stored, returned, hw, hr, hp, hn]
  | read t n hw hr _ =>
    have hp := piperead_contents (s.party t).killed s.pipe n
    have hlen := congrArg List.length hp
    rw [List.length_append, Pipe.length_contents, Pipe.length_contents] at hlen
    constructor
    · simpa [stored, returned, hw, hr] using hp
    · simp only [runRead_pipe]
      omega
  | close writable hw hr =>
    have hlen := congrArg List.length (pipeclose_contents s.pipe writable)
    simp only [Pipe.length_contents] at hlen
    simp [stored, returned, hw, hr, pipeclose_contents, hlen, hc]
  | mark t q hw hr _ _ => simp [stored, returned, hw, hr, hc]

theorem stream_run (h0 : s₀.New) (hr : Run next s₀ tr s) :
    returnedBytes tr ++ s.pipe.contents = storedBytes tr ∧ s.pipe.count ≤ pipesize := by
  induction hr with
  | nil =>
    have hc : s₀.pipe.count = 0 := by simp [Pipe.count, h0.nread, h0.nwrite]
    simp [returnedBytes, storedBytes, Pipe.contents, hc]
  | snoc _ hn ih =>
    obtain ⟨hstream, hcount⟩ := ih
    obtain ⟨hstep, hcount'⟩ := (step_of_next hn).stream hcount
    refine ⟨?_, hcount'⟩
    simp only [returnedBytes, storedBytes, List.flatMap_append, List.flatMap_singleton]
      at hstream ⊢
    rw [List.append_assoc, ← hstep, ← List.append_assoc, hstream]

omit [DecidableEq T] in
/-- `piperead` returns 0 for a positive request only at the end of the
stream. -/
theorem end_of_stream (hr : s.reader a = some (t, n)) (hn : 0 < n) (h : s.returned a = some []) :
    s.pipe.contents = [] ∧ s.pipe.writeopen = false := by
  simp only [returned, hr, Pipe.piperead] at h
  by_cases hw : (s.pipe.empty && s.pipe.writeopen) = true
  · cases hk : (s.party t).killed <;> simp [hw, hk, ReadEnd.returned] at h
  · simp only [hw, Bool.false_eq_true, if_false, ReadEnd.returned, Option.some.injEq] at h
    have he := Pipe.copy_eq_nil (by omega) h
    constructor
    · rw [← List.length_eq_zero_iff, Pipe.length_contents, Pipe.empty_iff.mp he]
    · simpa [he] using hw

theorem write_stored (hc : s.pipe.count ≤ pipesize) (hn : s.next a = some s')
    (hw : s.writer a = some (t, bs)) :
    s.stored a = bs.take (pipesize - s.pipe.count) ∧
    (s'.party t).pc =
      if pipesize < s.pipe.count + bs.length ∧ s.pipe.readopen = true ∧ (s.party t).killed = false
      then .writing (bs.drop (pipesize - s.pipe.count)) else .outside := by
  refine ⟨by simp only [stored, hw, Pipe.pipewrite_stored _ _ hc], ?_⟩
  cases step_of_next hn with
  | write t' bs' hw' _ _ =>
    cases hw.symm.trans hw'
    simp only [runWrite, Pipe.pipewrite_end _ _ hc]
    split_ifs <;> simp_all
    omega
  | read _ _ hw' _ _ | close _ hw' _ | mark _ _ hw' _ _ _ => cases hw.symm.trans hw'

/-- **Pipes are lossless**: in every run from a new pipe, the bytes
returned followed by the bytes buffered are the bytes stored, in order; the
buffer never holds more than `PIPESIZE` bytes; `pipewrite` stores the first
of its bytes, as many as there is room for, keeps the rest if it sleeps,
and returns `n` just if it stored them all; and a step in which `piperead`
returns 0 for a positive request is taken with an empty buffer and a closed
write end. -/
theorem pipe_lossless {s₀ : PipeState T} {tr : List (PipeState T × PipeAct T)} (h0 : s₀.New)
    (hr : Run next s₀ tr s) :
    returnedBytes tr ++ s.pipe.contents = storedBytes tr ∧
    (s.pipe.nwrite - s.pipe.nread).toNat ≤ pipesize ∧
    (∀ a s' t bs, s.next a = some s' → s.writer a = some (t, bs) →
      s.stored a = bs.take (pipesize - s.pipe.count) ∧
      ((s.pipe.pipewrite (s.party t).killed bs).2.2 = .done ↔
        s.pipe.count + bs.length ≤ pipesize) ∧
      (s'.party t).pc =
        if pipesize < s.pipe.count + bs.length ∧ s.pipe.readopen = true ∧
          (s.party t).killed = false
        then .writing (bs.drop (pipesize - s.pipe.count)) else .outside) ∧
    ∀ a s' t n, s.next a = some s' → s.reader a = some (t, n) → 0 < n →
      s.returned a = some [] → s.pipe.contents = [] ∧ s.pipe.writeopen = false := by
  obtain ⟨hstream, hcount⟩ := stream_run h0 hr
  refine ⟨hstream, hcount, fun a s' t bs hn hw => ?_,
    fun _ _ _ _ _ hreader hn hret => end_of_stream hreader hn hret⟩
  obtain ⟨hstored, hpc⟩ := write_stored hcount hn hw
  refine ⟨hstored, ?_, hpc⟩
  rw [Pipe.pipewrite_end _ _ hcount]
  split_ifs <;> simp_all

/-- A new pipe between two idle parties. -/
def newPipe : PipeState (Fin 2) where
  pipe := { data := fun _ => 0 }
  party := fun _ => {}

theorem newPipe_new : newPipe.New where
  nread := rfl
  nwrite := rfl
  ends := ⟨rfl, rfl⟩
  idle := fun _ => ⟨rfl, rfl⟩

/-- Three bytes are written, a short read takes two of them. -/
def shortRead : List (PipeState (Fin 2) × PipeAct (Fin 2)) × PipeState (Fin 2) :=
  (follow next newPipe [.write 0 [1, 2, 3], .read 1 2]).get (by decide +kernel)

theorem pipe_lossless_shortRead :
    returnedBytes shortRead.1 = [1, 2] ∧ storedBytes shortRead.1 = [1, 2, 3] ∧
    returnedBytes shortRead.1 ++ shortRead.2.pipe.contents = storedBytes shortRead.1 :=
  ⟨by decide +kernel, by decide +kernel,
    (pipe_lossless newPipe_new (run_get _)).1⟩

/-! ## Wakeups -/

/-- Nobody sleeps on `&p->nread` in vain. -/
def ReadersServed (s : PipeState T) : Prop :=
  ∀ t, (s.party t).onNread = true → s.pipe.contents = [] ∧ s.pipe.writeopen = true

/-- Nobody sleeps on `&p->nwrite` in vain. -/
def WritersServed (s : PipeState T) : Prop :=
  ∀ t, (s.party t).onNwrite = true → s.pipe.contents.length = pipesize ∧ s.pipe.readopen = true

/-- The step does not cut off a long write while a reader sleeps: if it is
a stretch of `pipewrite` with more than `PIPESIZE` bytes left, by a party
that is killed or that finds the read end closed, nobody sleeps on
`&p->nread`. -/
def NotCutOff (s : PipeState T) (a : PipeAct T) : Prop :=
  ∀ w ∈ s.writer a, (s.party w.1).killed = true ∨ s.pipe.readopen = false →
    pipesize < w.2.length → ∀ t, (s.party t).onNread = false

instance [Fintype T] (s : PipeState T) (a : PipeAct T) : Decidable (s.NotCutOff a) :=
  inferInstanceAs (Decidable (∀ w ∈ s.writer a, _ → _ → ∀ t, (s.party t).onNread = false))

omit [DecidableEq T] in
@[simp] theorem wakeReaders_onNread (s : PipeState T) (t : T) :
    (s.wakeReaders.party t).onNread = false := by
  by_cases h : (s.party t).onNread = true
  · simp only [wakeReaders, h, if_true]
    rfl
  · simp [wakeReaders, h]

omit [DecidableEq T] in
@[simp] theorem wakeReaders_onNwrite (s : PipeState T) (t : T) :
    (s.wakeReaders.party t).onNwrite = (s.party t).onNwrite := by
  by_cases h : (s.party t).onNread = true
  · cases hpc : (s.party t).pc <;> simp [Party.onNread, hpc] at h
    simp [wakeReaders, Party.onNread, Party.onNwrite, hpc, h]
  · simp [wakeReaders, h]

omit [DecidableEq T] in
@[simp] theorem wakeWriters_onNwrite (s : PipeState T) (t : T) :
    (s.wakeWriters.party t).onNwrite = false := by
  by_cases h : (s.party t).onNwrite = true
  · simp only [wakeWriters, h, if_true]
    rfl
  · simp [wakeWriters, h]

omit [DecidableEq T] in
@[simp] theorem wakeWriters_onNread (s : PipeState T) (t : T) :
    (s.wakeWriters.party t).onNread = (s.party t).onNread := by
  by_cases h : (s.party t).onNwrite = true
  · cases hpc : (s.party t).pc <;> simp [Party.onNwrite, hpc] at h
    simp [wakeWriters, Party.onNread, Party.onNwrite, hpc, h]
  · simp [wakeWriters, h]

omit [DecidableEq T] in
theorem contents_eq_nil_iff : s.pipe.contents = [] ↔ s.pipe.count = 0 := by
  rw [← List.length_eq_zero_iff, Pipe.length_contents]

/-- Who sleeps on `&p->nwrite` after a stretch of `pipewrite`: whoever did,
and the writer if it blocked. -/
theorem runWrite_onNwrite {bs : List UInt8} (hu : u ≠ t) :
    ((s.runWrite t bs).party u).onNwrite = (s.party u).onNwrite := by
  simp only [runWrite]
  split <;> simp [hu]

/-- A stretch of `pipewrite` that fails wakes no reader; any other wakes
all of them. -/
theorem runWrite_onNread {bs : List UInt8} (hu : u ≠ t) :
    ((s.runWrite t bs).party u).onNread =
      ((s.party u).onNread && (s.pipe.pipewrite (s.party t).killed bs).2.2 == .failed) := by
  simp only [runWrite]
  split <;> simp_all

/-- The writer itself sleeps on `&p->nwrite` if it blocked, and nowhere
otherwise. -/
theorem runWrite_self {bs : List UInt8} (hc : s.pipe.count ≤ pipesize) :
    ((s.runWrite t bs).party t).onNread = false ∧
    (((s.runWrite t bs).party t).onNwrite = true →
      (s.runWrite t bs).pipe.count = pipesize ∧ s.pipe.readopen = true) := by
  have hend := Pipe.pipewrite_end (s.party t).killed bs hc
  have hcount := Pipe.pipewrite_count (s.party t).killed bs hc
  rw [runWrite_pipe, hcount]
  simp only [runWrite, hend]
  split_ifs with hroom hcut
  · simp [Party.onNread, Party.onNwrite]
  · simp [Party.onNread, Party.onNwrite]
  · simp only [Bool.or_eq_true, Bool.not_eq_true', not_or, Bool.not_eq_false] at hcut
    have hfull : min (s.pipe.count + bs.length) pipesize = pipesize := by omega
    simp [Party.onNread, hfull, hcut.1]

theorem runRead_of_waits (h : (s.pipe.empty && s.pipe.writeopen) = true) :
    s.runRead t n = s.setParty t fun q =>
      if (s.party t).killed then { q with pc := .outside }
      else { q with pc := .reading n, asleep := true } := by
  cases hk : (s.party t).killed <;> simp [runRead, Pipe.piperead, h, hk]

theorem runRead_of_copies (h : ¬ (s.pipe.empty && s.pipe.writeopen) = true) :
    s.runRead t n =
      ({ s with pipe := (s.pipe.copy n.toNat).2 } : PipeState T).wakeWriters.setParty t
      fun q => { q with pc := .outside } := by
  simp [runRead, Pipe.piperead, h]

omit [DecidableEq T] in
theorem onNwrite_of_mark {q : Party} (hpc : q.pc = (s.party t).pc)
    (has : q.asleep = true → (s.party t).asleep = true) (h : q.onNwrite = true) :
    (s.party t).onNwrite = true := by
  simp only [Party.onNwrite, hpc, Bool.and_eq_true] at h ⊢
  exact ⟨has h.1, h.2⟩

omit [DecidableEq T] in
theorem onNread_of_mark {q : Party} (hpc : q.pc = (s.party t).pc)
    (has : q.asleep = true → (s.party t).asleep = true) (h : q.onNread = true) :
    (s.party t).onNread = true := by
  simp only [Party.onNread, hpc, Bool.and_eq_true] at h ⊢
  exact ⟨has h.1, h.2⟩

section
variable (h : s.Step a s') (hc : s.pipe.count ≤ pipesize)
include h hc

theorem Step.writersServed (hs : s.WritersServed) : s'.WritersServed := by
  intro u hu
  cases h with
  | write t bs _ _ _ =>
    by_cases hut : u = t
    · subst hut
      simpa using (runWrite_self hc).2 hu
    · rw [runWrite_onNwrite hut] at hu
      have hold := hs u hu
      -- A full buffer stays full.
      have hcount := Pipe.pipewrite_count (s.party t).killed bs hc
      simp only [Pipe.length_contents, runWrite_pipe, Pipe.pipewrite_readopen, hcount] at hold ⊢
      exact ⟨by omega, hold.2⟩
  | read t n _ _ hawake =>
    by_cases hw : (s.pipe.empty && s.pipe.writeopen) = true
    · rw [runRead_of_waits hw] at hu ⊢
      by_cases hut : u = t
      · cases hk : (s.party t).killed <;> simp [hut, hk, Party.onNwrite] at hu
      · exact hs u (by simpa [hut] using hu)
    · rw [runRead_of_copies hw] at hu
      by_cases hut : u = t
      · simp [hut, Party.onNwrite] at hu
      · simp [hut] at hu
  | close writable _ _ =>
    cases writable with
    | true => exact hs u (by simpa [runClose] using hu)
    | false => simp [runClose] at hu
  | mark t q _ _ hpc has =>
    by_cases hut : u = t
    · subst hut
      exact hs u (onNwrite_of_mark hpc has (by simpa using hu))
    · exact hs u (by simpa [hut] using hu)

/-- Nobody is left asleep on `&p->nread` in vain by a step that does not
cut off a long write. -/
theorem Step.readersServed (hs : s.ReadersServed) (hok : s.NotCutOff a) : s'.ReadersServed := by
  intro u hu
  cases h with
  | write t bs hw _ _ =>
    by_cases hut : u = t
    · subst hut
      simp [(runWrite_self hc).1] at hu
    · simp only [runWrite_onNread hut, Bool.and_eq_true, beq_iff_eq] at hu
      -- The reader slept on an empty buffer, and the write was cut off.
      have hempty := contents_eq_nil_iff.mp (hs u hu.1).1
      have hend := hu.2
      rw [Pipe.pipewrite_end _ _ hc] at hend
      split_ifs at hend with hroom hcut
      have hlong : pipesize < bs.length := by omega
      simp only [Bool.or_eq_true, Bool.not_eq_true'] at hcut
      have := hok _ hw hcut.symm hlong u
      simp [this] at hu
  | read t n _ _ hawake =>
    by_cases hw : (s.pipe.empty && s.pipe.writeopen) = true
    · rw [runRead_of_waits hw, setParty_pipe]
      simp only [Bool.and_eq_true] at hw
      exact ⟨contents_eq_nil_iff.mpr (Pipe.empty_iff.mp hw.1), hw.2⟩
    · rw [runRead_of_copies hw] at hu ⊢
      by_cases hut : u = t
      · simp [hut, Party.onNread] at hu
      · simp only [setParty_of_ne hut, wakeWriters_onNread] at hu
        have hold := hs u hu
        rw [Pipe.copy_contents n.toNat, List.append_eq_nil_iff] at hold
        exact ⟨hold.1.2, by simpa using hold.2⟩
  | close writable _ _ =>
    cases writable with
    | true => simp [runClose] at hu
    | false => exact hs u (by simpa [runClose] using hu)
  | mark t q _ _ hpc has =>
    by_cases hut : u = t
    · subst hut
      exact hs u (onNread_of_mark hpc has (by simpa using hu))
    · exact hs u (by simpa [hut] using hu)

theorem Step.notCutOff (hs : s.ReadersServed) (hs' : s'.ReadersServed) : s.NotCutOff a := by
  intro w hw hcut hlong u
  by_contra hu
  simp only [Bool.not_eq_false] at hu
  cases h with
  | write t bs hw' _ hawake =>
    obtain rfl : w = (t, bs) := by simpa [hw'] using hw.symm
    have hut : u ≠ t := by
      intro hut
      simp [hut, hawake.1] at hu
    simp only at hcut hlong
    have hempty := contents_eq_nil_iff.mp (hs u hu).1
    have hend : (s.pipe.pipewrite (s.party t).killed bs).2.2 = .failed := by
      rw [Pipe.pipewrite_end _ _ hc, if_neg (by omega), if_pos (by simpa using hcut.symm)]
    have hsleeps : ((s.runWrite t bs).party u).onNread = true := by
      simp [runWrite_onNread hut, hu, hend]
    have hfull := contents_eq_nil_iff.mp (hs' u hsleeps).1
    rw [runWrite_pipe, Pipe.pipewrite_count _ _ hc] at hfull
    simp only [pipesize] at hfull hlong
    omega
  | read t n hw' _ _ => simp [hw'] at hw
  | close writable hw' _ => simp [hw'] at hw
  | mark t q hw' _ _ _ => simp [hw'] at hw

end

omit [DecidableEq T] in
theorem served_of_new (h : s.New) : s.ReadersServed ∧ s.WritersServed := by
  constructor
  · intro t ht
    simp [(awake_of_outside (h.idle t).1).1] at ht
  · intro t ht
    simp [(awake_of_outside (h.idle t).1).2] at ht

theorem writersServed_run (h0 : s₀.New) (hr : Run next s₀ tr s) : s.WritersServed := by
  induction hr with
  | nil => exact (served_of_new h0).2
  | snoc hr hn ih => exact (step_of_next hn).writersServed (stream_run h0 hr).2 ih

theorem readersServed_run (h0 : s₀.New) (hr : Run next s₀ tr s) (hok : Meets NotCutOff tr) :
    s.ReadersServed :=
  hr.history (I := fun _ s => s.ReadersServed) (served_of_new h0).1
    (fun _ _ _ _ hr hs hok hn => (step_of_next hn).readersServed (stream_run h0 hr).2 hs hok) hok

/-- **Wakeups on a pipe**: in every run none of whose steps cuts off a long
write while a reader sleeps, nobody sleeps on `&p->nread` while the buffer
has bytes or the write end is closed, and nobody sleeps on `&p->nwrite`
while the buffer has room or the read end is closed. The condition is the
exact one: from such a state, a step keeps both if and only if it meets
it. -/
theorem pipe_wakeups {s₀ : PipeState T} {tr : List (PipeState T × PipeAct T)} (h0 : s₀.New)
    (hr : Run next s₀ tr s) (hok : Meets NotCutOff tr) :
    (∀ t, (s.party t).onNread = true → s.pipe.contents = [] ∧ s.pipe.writeopen = true) ∧
    (∀ t, (s.party t).onNwrite = true →
      s.pipe.contents.length = pipesize ∧ s.pipe.readopen = true) ∧
    ∀ a s', s.next a = some s' → (s'.ReadersServed ∧ s'.WritersServed ↔ s.NotCutOff a) := by
  have hreaders := readersServed_run h0 hr hok
  have hwriters := writersServed_run h0 hr
  have hcount := (stream_run h0 hr).2
  refine ⟨hreaders, hwriters, ?_⟩
  intro a s' hn
  have hstep := step_of_next hn
  constructor
  · exact fun hs' => hstep.notCutOff hcount hreaders hs'.1
  · exact fun hcut => ⟨hstep.readersServed hcount hreaders hcut,
      hstep.writersServed hcount hwriters⟩

/-- A reader sleeps on the empty pipe and a short write wakes it. -/
def wokenReader : List (PipeState (Fin 2) × PipeAct (Fin 2)) × PipeState (Fin 2) :=
  (follow next newPipe [.read 1 2, .write 0 [7]]).get (by decide +kernel)

theorem wokenReader_meets : Meets NotCutOff wokenReader.1 := by
  decide +kernel

theorem pipe_wakeups_wokenReader :
    wokenReader.2.pipe.contents = [7] ∧ (wokenReader.2.party 1).asleep = false ∧
    wokenReader.2.ReadersServed :=
  ⟨by decide +kernel, by decide +kernel,
    (pipe_wakeups newPipe_new (run_get _) wokenReader_meets).1⟩

/-- A reader sleeps, and a writer that has been killed writes one byte
more than the buffer holds. -/
def cutOffWrite : List (PipeState (Fin 2) × PipeAct (Fin 2)) × PipeState (Fin 2) :=
  (follow next newPipe [.read 1 2, .kill 0, .write 0 (List.replicate 513 7)]).get
    (by decide +kernel)

/-- The reader sleeps on, with a full buffer and nobody left to wake it. -/
theorem reader_left_asleep :
    newPipe.New ∧ Run next newPipe cutOffWrite.1 cutOffWrite.2 ∧
    (cutOffWrite.2.party 1).onNread = true ∧ cutOffWrite.2.pipe.count = pipesize ∧
    (cutOffWrite.2.party 0).pc = .outside :=
  ⟨newPipe_new, run_get _, by decide +kernel, by decide +kernel,
    by decide +kernel⟩

end PipeState

end Xv6.Sync
