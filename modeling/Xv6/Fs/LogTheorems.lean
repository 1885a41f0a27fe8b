/-
Xv6.Fs.LogTheorems — the log makes groups of operations atomic across
crashes, crashes during recovery included.

The disk alone has a meaning (`recovered`): the home blocks with the
blocks of a committed header written over them. A crash does not change
it, and neither does a round of `install_trans`, in a commit or in any of
the recoveries that follow. It changes in ONE step, the `write_head` of a
commit, from the contents before the group to those after it. The
invariant `LogInv` says so phase by phase, together with what each phase
knows about the cache and the log's slots.
-/
import Xv6.Fs.LogSpec

namespace Xv6.Fs

open Xv6.Lib Function

variable {data : Block} {g : Group} {gs : List Group} {b tail : Nat} {d D : Nat → Block} {op : Op}
  {sb : Superblock} {s s' : State} {h : Hist} {es : List Event} {a : Act} {lh lh' : Header}

/-! ## Reading through the cache -/

namespace State

/-- What `bread` returns. -/
def cached (s : State) (b : Nat) : Block := ((s.buf b).map Buf.data).getD (s.disk b)

theorem bread_fst (s : State) (b : Nat) : (s.bread b).1 = s.cached b := by
  unfold cached bread
  cases s.buf b <;> rfl

/-- The block has a dirty buffer, which cannot be evicted. -/
def Pinned (s : State) (b : Nat) : Prop := ∃ c, s.buf b = some c ∧ c.dirty = true

section
variable (s : State) (b b' : Nat)

@[simp] theorem bread_disk : (s.bread b).2.disk = s.disk := by
  unfold bread; split <;> rfl

@[simp] theorem bread_lh : (s.bread b).2.lh = s.lh := by
  unfold bread; split <;> rfl

@[simp] theorem bread_outstanding : (s.bread b).2.outstanding = s.outstanding := by
  unfold bread; split <;> rfl

@[simp] theorem bread_committing : (s.bread b).2.committing = s.committing := by
  unfold bread; split <;> rfl

@[simp] theorem bread_active : (s.bread b).2.active = s.active := by
  unfold bread; split <;> rfl

@[simp] theorem bread_phase : (s.bread b).2.phase = s.phase := by
  unfold bread; split <;> rfl

@[simp] theorem cached_bread : (s.bread b).2.cached b' = s.cached b' := by
  unfold bread
  split
  · rfl
  rename_i hb
  by_cases h : b' = b
  · subst h
    simp [cached, hb]
  · simp [cached, h]

@[simp] theorem pinned_bread : (s.bread b).2.Pinned b' ↔ s.Pinned b' := by
  unfold bread
  split
  · rfl
  rename_i hb
  by_cases h : b' = b
  · subst h
    simp [Pinned, hb]
  · simp [Pinned, h]

end

/-- One block was written through to the disk. -/
structure Wrote (s s' : State) (b : Nat) (data : Block) : Prop where
  disk : s'.disk = update s.disk b data
  cached : ∀ b', s'.cached b' = if b' = b then data else s.cached b'
  pinned : ∀ b', s'.Pinned b' ↔ b' ≠ b ∧ s.Pinned b'
  lh : s'.lh = s.lh
  outstanding : s'.outstanding = s.outstanding
  committing : s'.committing = s.committing
  active : s'.active = s.active

theorem wrote_bwrite (s : State) (b : Nat) (data : Block) : Wrote s (s.bwrite b data) b data := by
  refine ⟨rfl, fun b' => ?_, fun b' => ?_, rfl, rfl, rfl, rfl⟩
  · by_cases h : b' = b
    · subst h
      simp [cached, bwrite]
    · simp [cached, bwrite, h]
  · by_cases h : b' = b
    · subst h
      simp [Pinned, bwrite]
    · simp [Pinned, bwrite, h]

/-- Nothing else is different but the buffers and the place in the code. -/
theorem Wrote.exists_eq {s s' : State} (h : Wrote s s' b data) :
    ∃ f c ph,
      s' = { s with disk := update s.disk b data, buf := f, checked := c, phase := ph } := by
  refine ⟨s'.buf, s'.checked, s'.phase, ?_⟩
  rw [← h.disk, ← h.lh, ← h.outstanding, ← h.committing, ← h.active]

theorem Wrote.of_bread {s s' : State} {b' : Nat} (h : Wrote (s.bread b').2 s' b data) :
    Wrote s s' b data := by
  refine ⟨?_, fun c => ?_, fun c => ?_, ?_, ?_, ?_, ?_⟩
  · rw [h.disk, bread_disk]
  · rw [h.cached, cached_bread]
  · rw [h.pinned, pinned_bread]
  · rw [h.lh, bread_lh]
  · rw [h.outstanding, bread_outstanding]
  · rw [h.committing, bread_committing]
  · rw [h.active, bread_active]

theorem wrote_writeLogOne (sb : Superblock) (s : State) (tail : Nat) :
    Wrote s (s.writeLogOne sb tail) (sb.logstart + tail + 1) (s.cached (s.lh.block tail)) := by
  have hdata : ((s.bread (sb.logstart + tail + 1)).2.bread (s.lh.block tail)).1
      = s.cached (s.lh.block tail) := by
    rw [bread_fst, cached_bread]
  rw [← hdata]
  exact ((wrote_bwrite _ _ _).of_bread).of_bread

theorem wrote_installOne (sb : Superblock) (s : State) (tail : Nat) :
    Wrote s (s.installOne sb tail) (s.lh.block tail) (s.cached (sb.logstart + tail + 1)) := by
  rw [← bread_fst]
  exact ((wrote_bwrite _ _ _).of_bread).of_bread

theorem wrote_writeHead (sb : Superblock) (s : State) :
    Wrote s (s.writeHead sb) sb.logstart (encode s.lh (s.cached sb.logstart)) := by
  rw [← bread_fst]
  exact (wrote_bwrite _ _ _).of_bread

end State

/-! ## The header block -/

/-- The header a disk holds. -/
def header (sb : Superblock) (d : Nat → Block) : Header where
  n := State.headCount (d sb.logstart)
  block := fun i => word (d sb.logstart) (i + 1)

/-- The writes a header asks for, with the contents of the log's slots. -/
def logged (sb : Superblock) (lh : Header) (d : Nat → Block) : List (Nat × Block) :=
  (List.range lh.n).map fun i => (lh.block i, d (sb.logstart + i + 1))

/-- What the disk means: its home blocks, with a committed group on top. -/
def recovered (sb : Superblock) (d : Nat → Block) : Nat → Block :=
  writeAll d (logged sb (header sb d) d)

/-- The header fits the log, and names home blocks only. -/
structure HeaderOk (sb : Superblock) (lh : Header) : Prop where
  n_le : lh.n ≤ logsize
  slots : ∀ i < lh.n, i + 1 < sb.nlog
  home : ∀ i < lh.n, ¬ sb.inLog (lh.block i)
  int : ∀ i < lh.n, lh.block i < 2 ^ 32

/-- Word `j` of a header block under construction. -/
theorem word_foldl_setWord (f : Nat → Nat) (b : Block) (n : Nat) (j : Nat)
    (hf : ∀ i < n, f i < 2 ^ 32) :
    word ((List.range n).foldl (fun b i => setWord b (i + 1) (f i)) b) j
      = if 0 < j ∧ j ≤ n then f (j - 1) else word b j := by
  induction n with
  | zero =>
    rw [if_neg (by omega)]
    rfl
  | succ n ih =>
    rw [List.range_succ, List.foldl_append, List.foldl_cons, List.foldl_nil]
    by_cases hj : j = n + 1
    · subst hj
      rw [word_setWord_self _ _ (hf n (by omega))]
      simp
    · rw [word_setWord_of_ne _ _ hj, ih (fun i hi => hf i (by omega))]
      by_cases h1 : 0 < j ∧ j ≤ n
      · rw [if_pos h1, if_pos (by omega)]
      · rw [if_neg h1, if_neg (by omega)]

/-- The header a written header block holds. -/
theorem header_encode (hlh : HeaderOk sb lh) {b : Block} (hd : d sb.logstart = State.encode lh b) :
    (header sb d).n = lh.n ∧ ∀ i < lh.n, (header sb d).block i = lh.block i := by
  have hn : lh.n < 2 ^ 31 := by
    have := hlh.n_le
    simp only [logsize, maxopblocks] at this
    omega
  have hw := word_foldl_setWord lh.block (setWord b 0 lh.n) lh.n
  constructor
  · simp only [header, State.headCount, hd, State.encode]
    rw [hw 0 hlh.int, if_neg (by omega), word_setWord_self _ _ (by omega),
      toI32_of_range (by omega) (by omega)]
    rfl
  · intro i hi
    simp only [header, hd, State.encode]
    rw [hw (i + 1) hlh.int, if_pos (by omega)]
    rfl

/-- Two headers that agree ask for the same writes. -/
theorem logged_congr (hn : lh'.n = lh.n) (hb : ∀ i < lh.n, lh'.block i = lh.block i)
    (d : Nat → Block) : logged sb lh' d = logged sb lh d := by
  simp only [logged, hn]
  apply List.map_congr_left
  intro i hi
  rw [hb i (List.mem_range.mp hi)]

/-- An erased header asks for nothing. -/
theorem recovered_of_empty (h : (header sb d).n = 0) : recovered sb d = d := by
  simp [recovered, logged, h]

theorem headerOk_of_empty (h : lh.n = 0) : HeaderOk sb lh := by
  constructor <;> simp [h]

/-! ## The invariant -/

section
variable (sb : Superblock) (D : Nat → Block)

/-- Clean buffers agree with the disk, and no block of the log is dirty. -/
structure CacheOk (s : State) : Prop where
  coherent : ∀ b, ¬ s.Pinned b → s.cached b = s.disk b
  pinned : ∀ b, s.Pinned b → ¬ sb.inLog b

/-- The blocks the in-memory header names. -/
def Named (lh : Header) (b : Nat) : Prop := ∃ i < lh.n, lh.block i = b

/-- Between boot and `read_head`. -/
structure Booting (s : State) (h : Hist) : Prop where
  clean : ∀ b, ¬ s.Pinned b
  lhOk : HeaderOk sb (header sb s.disk)
  means : ∀ b, ¬ sb.inLog b → recovered sb s.disk b = afterGroups D h.done b
  inflight : h.inflight = none
  committing : s.committing = false
  cur : h.cur = []
  active : s.active = []
  outstanding : s.outstanding = 0

/-- Operations run: the disk is what the groups left, and the cache has
the writes of the group being formed on top. -/
structure Ready (s : State) (h : Hist) : Prop where
  erased : (header sb s.disk).n = 0
  home : ∀ b, ¬ sb.inLog b → s.disk b = afterGroups D h.done b
  view : ∀ b, ¬ sb.inLog b → s.cached b = writeAll (afterGroups D h.done) (writesOf h.cur) b
  named : ∀ b, Named s.lh b ↔ ∃ w ∈ writesOf h.cur, w.1 = b
  lhOk : HeaderOk sb s.lh
  pins : ∀ b, s.Pinned b → Named s.lh b
  inflight : h.inflight = none
  committing : s.committing = false
  active : inProgress [] h.cur = some s.active
  outstanding : s.outstanding = s.active.length

/-- `write_log` has filled the slots below `tail` for group `g`. -/
structure Logging (s : State) (h : Hist) (g : Group) (tail : Nat) : Prop where
  erased : (header sb s.disk).n = 0
  home : ∀ b, ¬ sb.inLog b → s.disk b = afterGroups D h.done b
  view : ∀ b, ¬ sb.inLog b → s.cached b = writeAll (afterGroups D h.done) (writesOf g.acts) b
  named : ∀ b, Named s.lh b ↔ ∃ w ∈ writesOf g.acts, w.1 = b
  lhOk : HeaderOk sb s.lh
  pins : ∀ b, s.Pinned b → Named s.lh b
  tail_le : tail ≤ s.lh.n
  slots : ∀ i < tail, s.disk (sb.logstart + i + 1)
    = writeAll (afterGroups D h.done) (writesOf g.acts) (s.lh.block i)
  inflight : h.inflight = some g
  committing : s.committing = true
  cur : h.cur = []
  active : s.active = []
  outstanding : s.outstanding = 0

/-- The groups that will have taken effect when the log is erased: with
the one being committed, or as they are in a recovery. -/
def Settles (s : State) (h : Hist) (gs : List Group) : Prop :=
  (h.inflight = none ∧ s.committing = false ∧ gs = h.done) ∨
  ∃ g, h.inflight = some g ∧ s.committing = true ∧ gs = h.done ++ [g]

/-- The header is on the disk and `install_trans` is at `tail`. -/
structure Installing (s : State) (h : Hist) (gs : List Group) (tail : Nat) : Prop where
  settles : Settles s h gs
  lhOk : HeaderOk sb s.lh
  onDisk : (header sb s.disk).n = s.lh.n ∧
    ∀ i < s.lh.n, (header sb s.disk).block i = s.lh.block i
  means : ∀ b, ¬ sb.inLog b →
    writeAll s.disk (logged sb s.lh s.disk) b = afterGroups D gs b
  rest : ∀ b, ¬ sb.inLog b →
    writeAll s.disk ((logged sb s.lh s.disk).drop tail) b = afterGroups D gs b
  tail_le : tail ≤ s.lh.n
  pins : ∀ b, s.Pinned b → ∃ i, tail ≤ i ∧ i < s.lh.n ∧ s.lh.block i = b
  cur : h.cur = []
  active : s.active = []
  outstanding : s.outstanding = 0

/-- The log is erased. -/
structure Releasing (s : State) (h : Hist) (gs : List Group) : Prop where
  settles : Settles s h gs
  erased : (header sb s.disk).n = 0
  home : ∀ b, ¬ sb.inLog b → s.disk b = afterGroups D gs b
  clean : ∀ b, ¬ s.Pinned b
  empty : s.lh.n = 0
  cur : h.cur = []
  active : s.active = []
  outstanding : s.outstanding = 0

/-- What holds in each phase. -/
inductive PhaseInv (s : State) (h : Hist) : Phase → Prop
  | booting : Booting sb D s h → PhaseInv s h .booting
  | ready : Ready sb D s h → PhaseInv s h .ready
  | writeLog (g : Group) (tail : Nat) : Logging sb D s h g tail → PhaseInv s h (.writeLog tail)
  | writeHead (g : Group) : Logging sb D s h g s.lh.n → PhaseInv s h .writeHead
  | install (gs : List Group) (tail : Nat) : Installing sb D s h gs tail →
      PhaseInv s h (.install tail)
  | eraseHead (gs : List Group) : Installing sb D s h gs s.lh.n → PhaseInv s h .eraseHead
  | release (gs : List Group) : Releasing sb D s h gs → PhaseInv s h .release

/-- The invariant of the log. -/
structure LogInv (s : State) (h : Hist) : Prop where
  cache : CacheOk sb s
  phase : PhaseInv sb D s h s.phase

end

/-! ## What a crash finds -/

/-- After a crash the disk means what the completed groups left, with or
without the group being committed. -/
def Atomic (sb : Superblock) (D : Nat → Block) (s : State) (h : Hist) : Prop :=
  HeaderOk sb (header sb s.disk) ∧
  ((∀ b, ¬ sb.inLog b → recovered sb s.disk b = afterGroups D h.done b) ∨
   ∃ g, h.inflight = some g ∧
    ∀ b, ¬ sb.inLog b → recovered sb s.disk b = afterGroups D (h.done ++ [g]) b)

theorem Settles.atomic (hs : Settles s h gs) (hok : HeaderOk sb (header sb s.disk))
    (hm : ∀ b, ¬ sb.inLog b → recovered sb s.disk b = afterGroups D gs b) : Atomic sb D s h := by
  refine ⟨hok, ?_⟩
  rcases hs with ⟨-, -, rfl⟩ | ⟨g, hg, -, rfl⟩
  · exact .inl hm
  · exact .inr ⟨g, hg, hm⟩

theorem atomic_of_erased (he : (header sb s.disk).n = 0)
    (hm : ∀ b, ¬ sb.inLog b → s.disk b = afterGroups D h.done b) : Atomic sb D s h := by
  refine ⟨headerOk_of_empty he, .inl ?_⟩
  rw [recovered_of_empty he]
  exact hm

theorem headerOk_congr (hok : HeaderOk sb lh) (hn : lh'.n = lh.n)
    (hb : ∀ i < lh.n, lh'.block i = lh.block i) : HeaderOk sb lh' := by
  refine ⟨by rw [hn]; exact hok.n_le, ?_, ?_, ?_⟩
  · intro i hi
    exact hok.slots i (hn ▸ hi)
  · intro i hi
    rw [hb i (hn ▸ hi)]
    exact hok.home i (hn ▸ hi)
  · intro i hi
    rw [hb i (hn ▸ hi)]
    exact hok.int i (hn ▸ hi)

theorem Installing.atomic (hi : Installing sb D s h gs tail) : Atomic sb D s h := by
  obtain ⟨hn, hb⟩ := hi.onDisk
  refine hi.settles.atomic (headerOk_congr hi.lhOk hn hb) ?_
  rw [recovered, logged_congr hn hb]
  exact hi.means

/-- **Every state of the invariant is safe to crash in.** -/
theorem LogInv.atomic (hi : LogInv sb D s h) : Atomic sb D s h := by
  obtain ⟨-, hp⟩ := hi
  generalize s.phase = ph at hp
  cases hp with
  | booting hb => exact ⟨hb.lhOk, .inl hb.means⟩
  | ready hr => exact atomic_of_erased hr.erased hr.home
  | writeLog g tail hl | writeHead g hl => exact atomic_of_erased hl.erased hl.home
  | install gs tail hin => exact hin.atomic
  | eraseHead gs hin => exact hin.atomic
  | release gs hr =>
    refine hr.settles.atomic (headerOk_of_empty hr.erased) ?_
    rw [recovered_of_empty hr.erased]
    exact hr.home

/-! ## Steps that only move buffers -/

/-- The invariant sees the cache through `cached` and `Pinned` only, and
who is in `log_write` not at all. -/
theorem LogInv.setBuf (hi : LogInv sb D s h) {f : Nat → Option Buf} (g : Op → Option UInt32)
    (hc : ∀ b, ({ s with buf := f } : State).cached b = s.cached b)
    (hp : ∀ b, ({ s with buf := f } : State).Pinned b ↔ s.Pinned b) :
    LogInv sb D { s with buf := f, checked := g } h := by
  obtain ⟨hcache, hph⟩ := hi
  refine ⟨⟨?_, ?_⟩, ?_⟩
  · intro b hb
    exact (hc b).trans (hcache.coherent b fun h' => hb ((hp b).mpr h'))
  · intro b hb
    exact hcache.pinned b ((hp b).mp hb)
  have hview {w : Nat → Block} (hv : ∀ b, ¬ sb.inLog b → s.cached b = w b) (b : Nat)
      (hb : ¬ sb.inLog b) : ({ s with buf := f, checked := g } : State).cached b = w b :=
    (hc b).trans (hv b hb)
  have hpins {P : Nat → Prop} (h' : ∀ b, s.Pinned b → P b) (b : Nat)
      (hb : ({ s with buf := f, checked := g } : State).Pinned b) : P b := h' b ((hp b).mp hb)
  have key : ∀ ph, PhaseInv sb D s h ph →
      PhaseInv sb D { s with buf := f, checked := g } h ph := by
    intro ph hph
    cases hph with
    | booting hb => exact .booting { hb with clean := hpins hb.clean }
    | ready hr => exact .ready { hr with view := hview hr.view, pins := hpins hr.pins }
    | writeLog g tail hl =>
      exact .writeLog g tail { hl with view := hview hl.view, pins := hpins hl.pins }
    | writeHead g hl => exact .writeHead g { hl with view := hview hl.view, pins := hpins hl.pins }
    | install gs tail hin => exact .install gs tail { hin with pins := hpins hin.pins }
    | eraseHead gs hin => exact .eraseHead gs { hin with pins := hpins hin.pins }
    | release gs hr => exact .release gs { hr with clean := hpins hr.clean }
  exact key _ hph

theorem LogInv.read (hi : LogInv sb D s h) (b : Nat) : LogInv sb D (s.bread b).2 h := by
  have hc := fun b' => State.cached_bread s b b'
  have hp := fun b' => State.pinned_bread s b b'
  unfold State.bread at hc hp ⊢
  split
  · exact hi
  rename_i hb
  simp only [hb] at hc hp
  exact hi.setBuf s.checked hc hp

/-- A clean buffer is dropped: the disk has the same contents. -/
theorem LogInv.evict (hi : LogInv sb D s h) {c : Buf} (hb : s.buf b = some c)
    (hd : c.dirty = false) : LogInv sb D { s with buf := update s.buf b none } h := by
  have hnp : ¬ s.Pinned b := by
    rintro ⟨c', hc', hd'⟩
    rw [hb] at hc'
    cases hc'
    rw [hd] at hd'
    cases hd'
  refine hi.setBuf s.checked (fun b' => ?_) (fun b' => ?_)
  · by_cases hbb : b' = b
    · subst hbb
      rw [hi.cache.coherent b' hnp]
      simp [State.cached]
    · simp [State.cached, hbb]
  · by_cases hbb : b' = b
    · subst hbb
      simp only [hnp, iff_false]
      rintro ⟨c', hc', -⟩
      simp at hc'
    · simp [State.Pinned, hbb]

/-- The machine after a crash, on a disk with a meaning. -/
theorem logInv_boot (hok : HeaderOk sb (header sb d))
    (hm : ∀ b, ¬ sb.inLog b → recovered sb d b = afterGroups D gs b) :
    LogInv sb D (boot d) ⟨gs, none, []⟩ := by
  have hnp : ∀ b, ¬ (boot d).Pinned b := by
    rintro b ⟨c, hc, -⟩
    cases hc
  refine ⟨⟨fun b _ => rfl, fun b hb => absurd hb (hnp b)⟩, .booting ?_⟩
  exact ⟨hnp, hok, hm, rfl, rfl, rfl, rfl, rfl⟩

theorem LogInv.crash {es : List Event} (hi : LogInv sb D s h) (hh : History es h) :
    ∃ h', History (es ++ [.crash]) h' ∧ LogInv sb D (boot s.disk) h' := by
  obtain ⟨hok, hm | ⟨g, hg, hm⟩⟩ := hi.atomic
  · exact ⟨_, .lose hh, logInv_boot hok hm⟩
  · obtain ⟨done, inflight, cur⟩ := h
    simp only at hg
    subst hg
    exact ⟨_, .keep hh, logInv_boot hok hm⟩

/-! ## Operations -/

/-- The slot `log_write` uses: the block's own, or a new one. -/
theorem slot_cases (lh : Header) (b : Nat) :
    (State.slot lh b < lh.n ∧ lh.block (State.slot lh b) = b) ∨
    (State.slot lh b = lh.n ∧ ¬ Named lh b) := by
  unfold State.slot
  cases hf : (List.range lh.n).find? fun i => lh.block i = b with
  | none =>
    right
    refine ⟨rfl, ?_⟩
    rintro ⟨i, hi, hb⟩
    have := List.find?_eq_none.mp hf i (List.mem_range.mpr hi)
    simp [hb] at this
  | some i =>
    left
    have hmem := List.mem_of_find?_eq_some hf
    have hb := List.find?_some hf
    exact ⟨List.mem_range.mp hmem, by simpa using hb⟩

/-- `log_write` names one block more, and absorbs a repeated one. -/
theorem named_absorb (lh : Header) (b b' : Nat) :
    Named (State.absorb lh b) b' ↔ Named lh b' ∨ b' = b := by
  rcases slot_cases lh b with ⟨hlt, hb⟩ | ⟨heq, hnew⟩
  · have hsame : State.absorb lh b = lh := by
      unfold State.absorb
      rw [if_neg (by omega)]
      congr
      exact update_eq_self_iff.mpr hb.symm
    rw [hsame]
    refine ⟨.inl, ?_⟩
    rintro (hn | rfl)
    · exact hn
    · exact ⟨_, hlt, hb⟩
  · simp only [Named, State.absorb, heq, if_true]
    constructor
    · rintro ⟨i, hi, hib⟩
      by_cases hin : i = lh.n
      · subst hin
        right
        simpa using hib.symm
      · left
        rw [update_of_ne hin] at hib
        exact ⟨i, by omega, hib⟩
    · rintro (⟨i, hi, hib⟩ | rfl)
      · refine ⟨i, by omega, ?_⟩
        rw [update_of_ne (by omega)]
        exact hib
      · exact ⟨lh.n, by omega, by simp⟩

/-- `log_write` finds the block in the log, or a slot for it. -/
def Fits (sb : Superblock) (lh : Header) (b : Nat) : Prop :=
  State.slot lh b < lh.n ∨ (lh.n < logsize ∧ lh.n + 1 < sb.nlog)
  deriving Decidable

theorem headerOk_absorb (h : HeaderOk sb lh) (hb : ¬ sb.inLog b) (hint : b < 2 ^ 32)
    (hf : Fits sb lh b) : HeaderOk sb (State.absorb lh b) := by
  have hn : (State.absorb lh b).n = if State.slot lh b = lh.n then lh.n + 1 else lh.n := rfl
  have hnle := h.n_le
  have hslots := h.slots
  rw [Fits] at hf
  have hblock : ∀ i < (State.absorb lh b).n,
      (State.absorb lh b).block i = b ∨ (i < lh.n ∧ (State.absorb lh b).block i = lh.block i) := by
    intro i hi
    simp only [State.absorb] at hi ⊢
    by_cases his : i = State.slot lh b
    · left
      simp [his]
    · right
      rw [update_of_ne his]
      rcases slot_cases lh b with ⟨hlt, -⟩ | ⟨heq, -⟩
      · rw [if_neg (by omega)] at hi
        exact ⟨hi, rfl⟩
      · rw [if_pos heq] at hi
        exact ⟨by omega, rfl⟩
  refine ⟨?_, ?_, ?_, ?_⟩
  · rw [hn]
    split <;> omega
  · intro i hi
    rw [hn] at hi
    split at hi
    · omega
    · exact hslots i hi
  · intro i hi
    rcases hblock i hi with h1 | ⟨h1, h2⟩
    · rw [h1]
      exact hb
    · rw [h2]
      exact h.home i h1
  · intro i hi
    rcases hblock i hi with h1 | ⟨h1, h2⟩
    · rw [h1]
      exact hint
    · rw [h2]
      exact h.int i h1

/-- Operations are in progress only while the log is ready. -/
theorem LogInv.ready_of_active (hi : LogInv sb D s h) (ha : s.active ≠ []) :
    s.phase = .ready ∧ Ready sb D s h := by
  obtain ⟨-, hp⟩ := hi
  generalize s.phase = ph at hp
  cases hp with
  | booting hb => exact absurd hb.active ha
  | ready hr => exact ⟨rfl, hr⟩
  | writeLog g tail hl | writeHead g hl => exact absurd hl.active ha
  | install gs tail hin | eraseHead gs hin => exact absurd hin.active ha
  | release gs hr => exact absurd hr.active ha

theorem LogInv.ready (hi : LogInv sb D s h) (hp : s.phase = .ready) : Ready sb D s h := by
  obtain ⟨-, hph⟩ := hi
  rw [hp] at hph
  cases hph with
  | ready hr => exact hr

/-- The history of a ready log, taken apart. -/
theorem Ready.hist (hr : Ready sb D s h) : h = ⟨h.done, none, h.cur⟩ := by
  obtain ⟨done, inflight, cur⟩ := h
  have := hr.inflight
  simp only at this
  rw [this]

theorem LogInv.beginOp (hi : LogInv sb D s h) (hh : History es h)
    (hp : s.phase = .ready ∨ s.committing = true) (hop : op ∉ s.active)
    (hb : s.beginOp op = some s') :
    ∃ h', History (es ++ [.op (.begin op)]) h' ∧ LogInv sb D s' h' := by
  unfold State.beginOp at hb
  split at hb
  · cases hb
  rename_i hc
  split at hb
  · cases hb
  · cases hb
    have hphase : s.phase = .ready := hp.resolve_right hc
    have hr := hi.ready hphase
    have hact : inProgress [] (h.cur ++ [.begin op]) = some (op :: s.active) := by
      rw [inProgress_snoc, hr.active]
      simp [follow1, hop]
    have hw : writesOf (h.cur ++ [.begin op]) = writesOf h.cur := by
      simp [writesOf]
    rw [hr.hist] at hh
    refine ⟨_, .op hh hact (by simp), ⟨hi.cache.coherent, hi.cache.pinned⟩, ?_⟩
    show PhaseInv sb D _ _ s.phase
    rw [hphase]
    refine .ready { hr with
      view := ?_, named := ?_, inflight := rfl, active := hact, outstanding := ?_ }
    · rw [hw]
      exact hr.view
    · rw [hw]
      exact hr.named
    · simp only [List.length_cons, hr.outstanding]

theorem LogInv.logWrite (hi : LogInv sb D s h) (hh : History es h) (hop : op ∈ s.active)
    {b : UInt32} (hb : ¬ sb.inLog b.toNat) (hf : Fits sb s.lh b.toNat) :
    ∃ h', History (es ++ [.op (.write op b.toNat data)]) h' ∧
      LogInv sb D (s.logWrite op b data) h' := by
  obtain ⟨hphase, hr⟩ := hi.ready_of_active (List.ne_nil_of_mem hop)
  have hact : inProgress [] (h.cur ++ [.write op b.toNat data]) = some s.active := by
    rw [inProgress_snoc, hr.active]
    simp [follow1, hop]
  have hwr : writesOf (h.cur ++ [.write op b.toNat data]) =
      writesOf h.cur ++ [(b.toNat, data)] := by
    simp [writesOf]
  have hlh : (s.logWrite op b data).lh = State.absorb s.lh b.toNat := rfl
  have hcached : ∀ b', (s.logWrite op b data).cached b'
      = if b' = b.toNat then data else s.cached b' := by
    intro b'
    by_cases hbb : b' = b.toNat
    · subst hbb
      simp [State.cached, State.logWrite]
    · simp [State.cached, State.logWrite, hbb]
  have hpinned : ∀ b', (s.logWrite op b data).Pinned b' ↔ b' = b.toNat ∨ s.Pinned b' := by
    intro b'
    by_cases hbb : b' = b.toNat
    · subst hbb
      simp [State.Pinned, State.logWrite]
    · simp [State.Pinned, State.logWrite, hbb]
  rw [hr.hist] at hh
  refine ⟨_, .op hh hact (List.ne_nil_of_mem hop), ⟨?_, ?_⟩, ?_⟩
  · intro b' hnp
    rw [hpinned, not_or] at hnp
    rw [hcached, if_neg hnp.1]
    exact hi.cache.coherent b' hnp.2
  · intro b' hpin
    rcases (hpinned b').mp hpin with rfl | hpin
    · exact hb
    · exact hi.cache.pinned b' hpin
  · show PhaseInv sb D _ _ s.phase
    rw [hphase]
    refine .ready { hr with
      view := ?_, named := ?_, lhOk := ?_, pins := ?_, inflight := rfl, active := hact }
    · intro b' hb'
      rw [hwr, writeAll_append, writeAll_cons, writeAll_nil, update_apply]
      refine (hcached b').trans ?_
      split
      · rfl
      · exact hr.view b' hb'
    · intro b'
      rw [hwr, hlh]
      simp only [named_absorb, hr.named b', List.mem_append, List.mem_singleton]
      constructor
      · rintro (⟨w, hw, hwb⟩ | hbb)
        · exact ⟨w, .inl hw, hwb⟩
        · exact ⟨_, .inr rfl, hbb.symm⟩
      · rintro ⟨w, hw | rfl, hwb⟩
        · exact .inl ⟨w, hw, hwb⟩
        · exact .inr hwb.symm
    · exact headerOk_absorb hr.lhOk hb b.toNat_lt hf
    · intro b' hpin
      apply (named_absorb s.lh b.toNat b').mpr
      rcases (hpinned b').mp hpin with hbb | hpin
      · exact .inr hbb
      · exact .inl (hr.pins b' hpin)

/-- A group without writes changes nothing. -/
theorem afterGroups_of_no_writes (hw : writesOf g.acts = []) :
    afterGroups D (gs ++ [g]) = afterGroups D gs := by
  rw [afterGroups_snoc, hw, writeAll_nil]

theorem LogInv.endOp (hi : LogInv sb D s h) (hh : History es h) (hop : op ∈ s.active)
    (he : s.endOp op = .ok s') :
    ∃ h', History (es ++ [.op (.finish op)]) h' ∧ LogInv sb D s' h' := by
  obtain ⟨hphase, hr⟩ := hi.ready_of_active (List.ne_nil_of_mem hop)
  have hact : inProgress [] (h.cur ++ [.finish op]) = some (s.active.erase op) := by
    rw [inProgress_snoc, hr.active]
    simp [follow1, hop]
  have hw : writesOf (h.cur ++ [.finish op]) = writesOf h.cur := by
    simp [writesOf]
  have hlen : s.outstanding - 1 = (s.active.erase op).length := by
    rw [hr.outstanding, List.length_erase_of_mem hop]
  unfold State.endOp at he
  simp only [hr.committing, Bool.false_eq_true, if_false] at he
  rw [hr.hist] at hh
  split at he
  · next h0 =>
    -- the last operation: its events close the group
    cases he
    have hnil : s.active.erase op = [] := by
      apply List.eq_nil_of_length_eq_zero
      omega
    let g : Group := ⟨h.cur ++ [.finish op], hnil ▸ hact⟩
    have hgw : writesOf g.acts = writesOf h.cur := hw
    refine ⟨_, .close g hh rfl, ⟨hi.cache.coherent, hi.cache.pinned⟩, ?_⟩
    by_cases hn : 0 < s.lh.n
    · simp only [hn, if_true]
      refine .writeLog g 0 ?_
      exact
        { erased := hr.erased
          home := hr.home
          view := by rw [hgw]; exact hr.view
          named := by rw [hgw]; exact hr.named
          lhOk := hr.lhOk
          pins := hr.pins
          tail_le := Nat.zero_le _
          slots := fun i hi => absurd hi (Nat.not_lt_zero i)
          inflight := rfl
          committing := rfl
          cur := rfl
          active := hnil
          outstanding := h0 }
    · simp only [hn, if_false]
      -- nothing was written, so there is nothing to commit
      have hno : ∀ b, ¬ Named s.lh b := by
        rintro b ⟨i, hi, -⟩
        omega
      have hgnil : writesOf g.acts = [] := by
        rw [hgw]
        apply List.eq_nil_iff_forall_not_mem.mpr
        intro w hwm
        exact hno w.1 ((hr.named w.1).mpr ⟨w, hwm, rfl⟩)
      refine .release (h.done ++ [g]) ?_
      exact
        { settles := .inr ⟨g, rfl, rfl, rfl⟩
          erased := hr.erased
          home := by rw [afterGroups_of_no_writes hgnil]; exact hr.home
          clean := fun b hb => hno b (hr.pins b hb)
          empty := by simp only; omega
          cur := rfl
          active := hnil
          outstanding := h0 }
  rename_i h0
  cases he
  have hne : s.active.erase op ≠ [] := by
    intro hnil
    rw [hnil] at hlen
    exact h0 hlen
  refine ⟨_, .op hh hact hne, ⟨hi.cache.coherent, hi.cache.pinned⟩, ?_⟩
  show PhaseInv sb D _ _ s.phase
  rw [hphase]
  refine .ready { hr with
    view := ?_, named := ?_, inflight := rfl, active := hact, outstanding := hlen,
    committing := rfl }
  · rw [hw]
    exact hr.view
  · rw [hw]
    exact hr.named

/-! ## Commit and recovery -/

/-- A written block is clean; it must be a block the invariant lets
change. -/
theorem CacheOk.wrote (hc : CacheOk sb s) (hw : State.Wrote s s' b data) : CacheOk sb s' := by
  constructor
  · intro b' hnp
    rw [hw.cached, hw.disk, update_apply]
    split
    · rfl
    rename_i hne
    apply hc.coherent b'
    intro hpin
    exact hnp ((hw.pinned b').mpr ⟨hne, hpin⟩)
  · intro b' hpin
    exact hc.pinned b' ((hw.pinned b').mp hpin).2

/-- The invariant does not read the phase field. -/
theorem CacheOk.setPhase (hc : CacheOk sb s) (ph : Phase) : CacheOk sb { s with phase := ph } :=
  ⟨hc.coherent, hc.pinned⟩

/-- A block of the log is read from the disk. -/
theorem CacheOk.cached_inLog (hc : CacheOk sb s) (hb : sb.inLog b) : s.cached b = s.disk b :=
  hc.coherent b (fun hpin => hc.pinned b hpin hb)

/-- Slot `i` belongs to the log and is not the header. -/
theorem inLog_slot {i : Nat} (h : i + 1 < sb.nlog) : sb.inLog (sb.logstart + i + 1) := by
  constructor <;> omega

theorem inLog_head (h : 0 < sb.nlog) : sb.inLog sb.logstart := by
  constructor <;> omega

/-- A disk write outside the header block leaves the header. -/
theorem header_update (hb : b ≠ sb.logstart) (data : Block) :
    header sb (update d b data) = header sb d := by
  simp only [header, update_of_ne hb.symm]

/-- `write_log` fills the next slot. -/
theorem Logging.writeLogOne (hc : CacheOk sb s) (hl : Logging sb D s h g tail)
    (ht : tail < s.lh.n) : CacheOk sb (s.writeLogOne sb tail) ∧
    Logging sb D { s.writeLogOne sb tail with phase := .writeLog (tail + 1) } h g (tail + 1) := by
  have hw := State.wrote_writeLogOne sb s tail
  generalize s.writeLogOne sb tail = s' at hw
  refine ⟨hc.wrote hw, ?_⟩
  have hslot := inLog_slot (hl.lhOk.slots tail ht)
  have hout : ∀ b, ¬ sb.inLog b → b ≠ sb.logstart + tail + 1 := by
    rintro b hb rfl
    exact hb hslot
  obtain ⟨f, c, ph, rfl⟩ := hw.exists_eq
  refine { hl with
    erased := ?_
    home := fun b hb => (update_of_ne (hout b hb) ..).trans (hl.home b hb)
    view := fun b hb => ((hw.cached b).trans (if_neg (hout b hb))).trans (hl.view b hb)
    pins := fun b hb => hl.pins b ((hw.pinned b).mp hb).2
    tail_le := ht
    slots := fun i hi => ?_ }
  · simp only [header_update (show sb.logstart + tail + 1 ≠ sb.logstart by omega)]
    exact hl.erased
  · simp only [update_apply]
    split
    · next heq =>
      have hit : i = tail := by omega
      subst hit
      exact hl.view _ (hl.lhOk.home i ht)
    · exact hl.slots i (by omega)

/-- The contents a full log asks for: the group's. -/
theorem Logging.writeAll_logged (hl : Logging sb D s h g s.lh.n)
    (hslots : ∀ i < s.lh.n, d (sb.logstart + i + 1) = s.disk (sb.logstart + i + 1))
    (hd : d b = s.disk b) (hb : ¬ sb.inLog b) :
    writeAll d (logged sb s.lh d) b = afterGroups D (h.done ++ [g]) b := by
  have hlog : logged sb s.lh d = ((List.range s.lh.n).map s.lh.block).map fun j =>
      (j, writeAll (afterGroups D h.done) (writesOf g.acts) j) := by
    simp only [logged, List.map_map]
    apply List.map_congr_left
    intro i hi
    have hi := List.mem_range.mp hi
    simp only [Function.comp_apply]
    rw [hslots i hi, hl.slots i hi]
  rw [hlog, writeAll_map, afterGroups_snoc]
  split
  · rfl
  rename_i hnot
  rw [hd, hl.home b hb]
  symm
  apply writeAll_of_ne
  intro w hw hwb
  obtain ⟨i, hi, hib⟩ := (hl.named b).mpr ⟨w, hw, hwb⟩
  exact hnot (List.mem_map.mpr ⟨i, List.mem_range.mpr hi, hib⟩)

/-- **The commit point**: after `write_head` the disk means the contents
with the group. -/
theorem Logging.writeHead (hlog : 0 < sb.nlog) (hc : CacheOk sb s)
    (hl : Logging sb D s h g s.lh.n) : CacheOk sb (s.writeHead sb) ∧
    Installing sb D { s.writeHead sb with phase := .install 0 } h (h.done ++ [g]) 0 := by
  have hw := State.wrote_writeHead sb s
  generalize s.writeHead sb = s' at hw
  refine ⟨hc.wrote hw, ?_⟩
  obtain ⟨f, c, ph, rfl⟩ := hw.exists_eq
  have hmeans (data : Block) (b : Nat) (hb : ¬ sb.inLog b) :
      writeAll (update s.disk sb.logstart data) (logged sb s.lh (update s.disk sb.logstart data)) b
        = afterGroups D (h.done ++ [g]) b :=
    hl.writeAll_logged (fun i _ => update_of_ne (by omega) ..)
      (update_of_ne (by rintro rfl; exact hb (inLog_head hlog)) ..) hb
  exact
    { settles := .inr ⟨g, hl.inflight, hl.committing, rfl⟩
      lhOk := hl.lhOk
      onDisk := header_encode hl.lhOk (update_self ..)
      means := hmeans _
      rest := hmeans _
      tail_le := Nat.zero_le _
      pins := fun b hb =>
        have ⟨i, hi, hib⟩ := hl.pins b ((hw.pinned b).mp hb).2
        ⟨i, Nat.zero_le i, hi, hib⟩
      cur := hl.cur
      active := hl.active
      outstanding := hl.outstanding }

/-- `s'` is `s` after `read_head` found `hd` in the header block. -/
structure HeadRead (hd : Header) (s s' : State) : Prop where
  disk : s'.disk = s.disk
  cached : ∀ b, s'.cached b = s.cached b
  pinned : ∀ b, s'.Pinned b ↔ s.Pinned b
  n : s'.lh.n = hd.n
  block : ∀ i < hd.n, s'.lh.block i = hd.block i
  committing : s'.committing = s.committing
  active : s'.active = s.active
  outstanding : s'.outstanding = s.outstanding

theorem State.headRead_readHead (hc : s.cached sb.logstart = s.disk sb.logstart) :
    HeadRead (header sb s.disk) s (s.readHead sb) := by
  have hfst : (s.bread sb.logstart).1 = s.disk sb.logstart := by
    rw [State.bread_fst]
    exact hc
  constructor
  case disk => simp only [State.readHead, State.bread_disk]
  case cached =>
    intro b
    have hb := State.cached_bread s sb.logstart b
    simp only [State.cached, State.bread_disk] at hb
    simp only [State.cached, State.readHead, State.bread_disk, hb]
  case pinned =>
    intro b
    have hb := State.pinned_bread s sb.logstart b
    simp only [State.Pinned] at hb
    simp only [State.Pinned, State.readHead, hb]
  case n => simp only [State.readHead, header, hfst]
  case block =>
    intro i hi
    simp only [header] at hi
    simp only [State.readHead, header, hfst, hi, if_true]
  case committing => simp only [State.readHead, State.bread_committing]
  case active => simp only [State.readHead, State.bread_active]
  case outstanding => simp only [State.readHead, State.bread_outstanding]

/-- `read_head` on a disk with a meaning. -/
theorem Booting.readHead (hc : CacheOk sb s) (hb : Booting sb D s h)
    (hr : HeadRead (header sb s.disk) s s') :
    CacheOk sb s' ∧ Installing sb D { s' with phase := .install 0 } h h.done 0 := by
  refine ⟨⟨?_, ?_⟩, ?_⟩
  · intro b hnp
    rw [hr.cached, hr.disk]
    exact hc.coherent b (fun hpin => hnp ((hr.pinned b).mpr hpin))
  · intro b hpin
    exact hc.pinned b ((hr.pinned b).mp hpin)
  · have hmeans : ∀ b, ¬ sb.inLog b →
        writeAll s'.disk (logged sb s'.lh s'.disk) b = afterGroups D h.done b := by
      intro b hbl
      rw [logged_congr hr.n hr.block, hr.disk]
      exact hb.means b hbl
    exact
      { settles := .inl ⟨hb.inflight, hr.committing.trans hb.committing, rfl⟩
        lhOk := headerOk_congr hb.lhOk hr.n hr.block
        onDisk := by
          show (header sb s'.disk).n = s'.lh.n ∧
            ∀ i < s'.lh.n, (header sb s'.disk).block i = s'.lh.block i
          rw [hr.disk, hr.n]
          exact ⟨rfl, fun i hi => (hr.block i hi).symm⟩
        means := hmeans
        rest := hmeans
        tail_le := Nat.zero_le _
        pins := fun b hpin => absurd ((hr.pinned b).mp hpin) (hb.clean b)
        cur := hb.cur
        active := hr.active.trans hb.active
        outstanding := hr.outstanding.trans hb.outstanding }

/-- The next write of `install_trans` is one the log asks for anyway. -/
theorem Installing.installOne (hc : CacheOk sb s) (hi : Installing sb D s h gs tail)
    (ht : tail < s.lh.n) : CacheOk sb (s.installOne sb tail) ∧
    Installing sb D { s.installOne sb tail with phase := .install (tail + 1) } h gs (tail + 1) := by
  have hw := State.wrote_installOne sb s tail
  generalize s.installOne sb tail = s' at hw
  refine ⟨hc.wrote hw, ?_⟩
  have hslot := hi.lhOk.slots tail ht
  have hhome := hi.lhOk.home tail ht
  rw [hc.cached_inLog (inLog_slot hslot)] at hw
  have hne : ∀ b, sb.inLog b → b ≠ s.lh.block tail := by
    rintro b hb rfl
    exact hhome hb
  have hhead : s.lh.block tail ≠ sb.logstart := (hne _ (inLog_head (by omega))).symm
  obtain ⟨f, c, ph, rfl⟩ := hw.exists_eq
  -- the slots keep their contents, so the log asks for the same writes
  have hlogged (data : Block) :
      logged sb s.lh (update s.disk (s.lh.block tail) data) = logged sb s.lh s.disk := by
    apply List.map_congr_left
    intro i hi'
    rw [update_of_ne]
    exact hne _ (inLog_slot (hi.lhOk.slots i (List.mem_range.mp hi')))
  have hlen : tail < (logged sb s.lh s.disk).length := by
    simp only [logged, List.length_map, List.length_range]
    exact ht
  have hdrop : (logged sb s.lh s.disk).drop tail
      = (s.lh.block tail, s.disk (sb.logstart + tail + 1)) ::
        (logged sb s.lh s.disk).drop (tail + 1) := by
    rw [List.drop_eq_getElem_cons hlen]
    simp [logged]
  refine { hi with
    onDisk := ?_
    means := fun b hb => ?_
    rest := fun b hb => ?_
    tail_le := ht
    pins := fun b hb => ?_ }
  · simp only [header_update hhead]
    exact hi.onDisk
  · simp only [hlogged]
    rw [writeAll_redo]
    · exact hi.means b hb
    · refine ⟨(s.lh.block tail, s.disk (sb.logstart + tail + 1)), ?_, rfl⟩
      exact List.mem_map.mpr ⟨tail, List.mem_range.mpr ht, rfl⟩
  · have hrest := hi.rest b hb
    rw [hdrop, writeAll_cons] at hrest
    simp only [hlogged]
    exact hrest
  · obtain ⟨hbt, hb⟩ := (hw.pinned b).mp hb
    obtain ⟨i, hti, hin, hib⟩ := hi.pins b hb
    have hit : i ≠ tail := by
      rintro rfl
      exact hbt hib.symm
    exact ⟨i, by omega, hin, hib⟩

/-- Erasing the log when everything is installed. -/
theorem Installing.eraseHead (hlog : 0 < sb.nlog) (hc : CacheOk sb s)
    (hi : Installing sb D s h gs s.lh.n) : CacheOk sb (s.eraseHead sb) ∧
    Releasing sb D { s.eraseHead sb with phase := .release } h gs := by
  have hw : State.Wrote { s with lh := { s.lh with n := 0 } } (s.eraseHead sb) sb.logstart
      (State.encode { s.lh with n := 0 } (s.cached sb.logstart)) :=
    State.wrote_writeHead sb { s with lh := { s.lh with n := 0 } }
  generalize s.eraseHead sb = s' at hw
  have hc0 : CacheOk sb { s with lh := { s.lh with n := 0 } } := ⟨hc.coherent, hc.pinned⟩
  refine ⟨hc0.wrote hw, ?_⟩
  obtain ⟨f, c, ph, rfl⟩ := hw.exists_eq
  have hlen : (logged sb s.lh s.disk).length = s.lh.n := by simp [logged]
  exact
    { settles := hi.settles
      erased := (@header_encode _ sb _ (headerOk_of_empty rfl) _ (update_self ..)).1
      home := by
        intro b hb
        have hrest := hi.rest b hb
        rw [List.drop_eq_nil_of_le (by omega), writeAll_nil] at hrest
        exact (update_of_ne (by rintro rfl; exact hb (inLog_head hlog)) ..).trans hrest
      clean := by
        intro b hb
        obtain ⟨i, hi1, hi2, -⟩ := hi.pins b ((hw.pinned b).mp hb).2
        omega
      empty := rfl
      cur := hi.cur
      active := hi.active
      outstanding := hi.outstanding }

/-- The log is ready again, and a committed group counts as done. -/
theorem Releasing.ready (hc : CacheOk sb s) (hr : Releasing sb D s h gs) :
    Ready sb D { s with committing := false, phase := .ready } ⟨gs, none, []⟩ where
  erased := hr.erased
  home := hr.home
  view := by
    intro b hb
    show s.cached b = _
    rw [hc.coherent b (hr.clean b)]
    exact hr.home b hb
  named := by
    intro b
    simp only [Named, hr.empty]
    simp [writesOf]
  lhOk := headerOk_of_empty hr.empty
  pins := fun b hb => absurd hb (hr.clean b)
  inflight := rfl
  committing := rfl
  active := by rw [hr.active]; rfl
  outstanding := by
    simp only [hr.outstanding, hr.active]
    rfl

theorem LogInv.advance (hlog : 0 < sb.nlog) (hi : LogInv sb D s h) (hh : History es h)
    (ha : s.advance sb = some s') :
    ∃ h', History (es ++ (event s .advance).toList) h' ∧ LogInv sb D s' h' := by
  obtain ⟨hc, hp⟩ := hi
  have hquiet (hne : s.phase ≠ .release) : History (es ++ (event s .advance).toList) h := by
    simpa [event, hne] using hh
  unfold State.advance at ha
  generalize hph : s.phase = ph at hp ha hquiet
  cases hp with
  | booting hb =>
    cases ha
    obtain ⟨hc', hin⟩ := hb.readHead hc
      (State.headRead_readHead (hc.coherent _ (hb.clean _)))
    exact ⟨h, hquiet (by simp), hc'.setPhase _, .install _ _ hin⟩
  | ready hr => cases ha
  | writeLog g tail hl =>
    by_cases ht : tail < s.lh.n
    · simp only [ht, if_true, Option.some.injEq] at ha
      subst ha
      obtain ⟨hc', hl'⟩ := hl.writeLogOne hc ht
      exact ⟨h, hquiet (by simp), hc'.setPhase _, .writeLog _ _ hl'⟩
    · simp only [ht, if_false, Option.some.injEq] at ha
      subst ha
      have htn : tail = s.lh.n := Nat.le_antisymm hl.tail_le (Nat.le_of_not_lt ht)
      subst htn
      exact ⟨h, hquiet (by simp), hc.setPhase _, .writeHead g { hl with }⟩
  | writeHead g hl =>
    cases ha
    obtain ⟨hc', hin⟩ := hl.writeHead hlog hc
    exact ⟨h, hquiet (by simp), hc'.setPhase _, .install _ _ hin⟩
  | install gs tail hin =>
    by_cases ht : tail < s.lh.n
    · simp only [ht, if_true, Option.some.injEq] at ha
      subst ha
      obtain ⟨hc', hin'⟩ := hin.installOne hc ht
      exact ⟨h, hquiet (by simp), hc'.setPhase _, .install _ _ hin'⟩
    · simp only [ht, if_false, Option.some.injEq] at ha
      subst ha
      have htn : tail = s.lh.n := Nat.le_antisymm hin.tail_le (Nat.le_of_not_lt ht)
      subst htn
      exact ⟨h, hquiet (by simp), hc.setPhase _, .eraseHead gs { hin with }⟩
  | eraseHead gs hin =>
    cases ha
    obtain ⟨hc', hr⟩ := hin.eraseHead hlog hc
    exact ⟨h, hquiet (by simp), hc'.setPhase _, .release gs hr⟩
  | release gs hr =>
    cases ha
    have hready := hr.ready hc
    refine ⟨⟨gs, none, []⟩, ?_, ⟨hc.coherent, hc.pinned⟩, .ready hready⟩
    obtain ⟨done, inflight, cur⟩ := h
    rcases hr.settles with ⟨h1, h2, h3⟩ | ⟨g, h1, h2, h3⟩
    · -- the end of a recovery shows nothing
      have hnone : event s .advance = none := by simp [event, hph, h2]
      simp only at h1 h3
      rw [hnone, Option.toList_none, List.append_nil, h3]
      have hcur := hr.cur
      simp only at hcur
      rw [h1, hcur] at hh
      exact hh
    · have hsome : event s .advance = some .committed := by simp [event, hph, h2]
      simp only at h1 h3
      rw [hsome, Option.toList_some, h3]
      have hcur := hr.cur
      simp only at hcur
      rw [h1, hcur] at hh
      exact .committed hh

/-! ## Whole runs -/

/-- The block an action puts in the log. -/
def Act.logs : Act → Option Nat
  | .append _ b _ => some b.toNat
  | _ => none

/-- Operations write outside the log. -/
abbrev WritesHome (sb : Superblock) (a : Act) : Prop := ∀ b ∈ a.logs, ¬ sb.inLog b

/-- What `log_write` tested without the lock is still so under it. -/
abbrev StillFits (sb : Superblock) (s : State) (a : Act) : Prop := ∀ b ∈ a.logs, Fits sb s.lh b

theorem next_eq_some (h : s.next sb a = some s') : s.step sb a = some (.ok s') := by
  unfold State.next at h
  split at h
  · next s₁ heq =>
    cases h
    exact heq
  · cases h

/-- A `log_write` that passes its tests. -/
theorem logTest_ok {b : UInt32} (h : s.logTest sb op b = .ok s') :
    s.lh.n < logsize ∧ s.lh.n + 1 < sb.nlog ∧
      s' = { s with checked := update s.checked op (some b) } := by
  unfold State.logTest at h
  split at h
  · cases h
  · split at h
    · cases h
    · exact ⟨by omega, by omega, (Except.ok.inj h).symm⟩

/-- **Every action keeps the invariant**, under the history its event
leads to. -/
theorem LogInv.step (hlog : 0 < sb.nlog) (hi : LogInv sb D s h) (hh : History es h)
    (hout : WritesHome sb a) (hfit : StillFits sb s a) (hn : s.next sb a = some s') :
    ∃ h', History (es ++ (event s a).toList) h' ∧ LogInv sb D s' h' := by
  have hs := next_eq_some hn
  cases a with
  | beginOp op =>
    simp only [State.step] at hs
    split at hs
    · next hg =>
      obtain ⟨s₁, hb, heq⟩ := Option.map_eq_some_iff.mp hs
      cases heq
      exact hi.beginOp hh hg.1 hg.2 hb
    · cases hs
  | write op b =>
    simp only [State.step] at hs
    split at hs
    · obtain ⟨-, -, hs⟩ := logTest_ok (Option.some.inj hs)
      rw [hs]
      refine ⟨h, by simpa [event] using hh, ?_⟩
      exact (hi.read b.toNat).setBuf _ (fun _ => rfl) fun _ => Iff.rfl
    · cases hs
  | append op b data =>
    simp only [State.step] at hs
    split at hs
    · next hg =>
      cases hs
      exact hi.logWrite hh hg.1 (hout _ rfl) (hfit _ rfl)
    · cases hs
  | endOp op =>
    simp only [State.step] at hs
    split at hs
    · next hg => exact hi.endOp hh hg.1 (Option.some.inj hs)
    · cases hs
  | advance =>
    obtain ⟨s₁, hb, heq⟩ := Option.map_eq_some_iff.mp hs
    cases heq
    exact hi.advance hlog hh hb
  | read b =>
    cases hs
    refine ⟨h, ?_, hi.read b⟩
    simpa [event] using hh
  | evict b =>
    simp only [State.step] at hs
    split at hs
    · next c hb =>
      split at hs
      · cases hs
      rename_i hd
      cases hs
      refine ⟨h, ?_, hi.evict hb (by simpa using hd)⟩
      simpa [event] using hh
    · cases hs
  | crash =>
    cases hs
    exact hi.crash hh

/-- The invariant along a run, from a disk with a sane header. -/
theorem logInv_run {tr : List (State × Act)} (hlog : 0 < sb.nlog) (hd : HeaderOk sb (header sb d))
    (hr : Run (State.next sb) (boot d) tr s) (hout : Meets (fun _ => WritesHome sb) tr)
    (hfit : Meets (StillFits sb) tr) :
    ∃ h, History (events tr) h ∧ LogInv sb (recovered sb d) s h := by
  generalize hD : recovered sb d = D
  refine Run.history (I := fun tr s => ∃ h, History (events tr) h ∧ LogInv sb D s h)
    ?_ ?_ hr (hout.and hfit)
  · refine ⟨⟨[], none, []⟩, .nil, logInv_boot hd ?_⟩
    intro b _
    rw [afterGroups_nil, hD]
  · rintro tr s a s' - ⟨h, hh, hi⟩ ha hn
    rw [events_snoc]
    exact hi.step hlog hh ha.1 ha.2 hn

/-! ## Recovery completes -/

theorem next_advance (h : s.advance sb = some s') : s.next sb .advance = some s' := by
  simp [State.next, State.step, h]

/-- `install_trans` and the erasing of the log, from round `tail` on. -/
theorem recovers_from_install (n : Nat) : ∀ {s : State} {tail : Nat}, s.phase = .install tail →
    s.committing = false → tail + n = s.lh.n →
    ∃ tr s', Run (State.next sb) s tr s' ∧ events tr = [] ∧ s'.phase = .ready := by
  induction n with
  | zero =>
    intro s tail hp hc hn
    have hstop : ¬ tail < s.lh.n := by omega
    let s₁ : State := { s with phase := .eraseHead }
    let s₂ : State := { s₁.eraseHead sb with phase := .release }
    have h1 : s.next sb .advance = some s₁ := next_advance (by simp [State.advance, hp, hstop, s₁])
    have h2 : s₁.next sb .advance = some s₂ := next_advance rfl
    have hc2 : s₂.committing = false :=
      (State.wrote_writeHead sb { s₁ with lh := { s₁.lh with n := 0 } }).committing.trans hc
    refine ⟨_, _, .cons h1 (.cons h2 (.cons (next_advance rfl) .nil)), ?_, rfl⟩
    simp only [events_cons]
    simp [events, event, hp, hc2, s₁]
  | succ n ih =>
    intro s tail hp hc hn
    have hw := State.wrote_installOne sb s tail
    have h1 : s.next sb .advance
        = some { s.installOne sb tail with phase := .install (tail + 1) } := by
      apply next_advance
      have hlt : tail < s.lh.n := by omega
      simp [State.advance, hp, hlt]
    obtain ⟨tr, s', hr, he, hp'⟩ := ih (s := { s.installOne sb tail with
      phase := .install (tail + 1) }) rfl (hw.committing.trans hc) (by simp only [hw.lh]; omega)
    refine ⟨_, _, .cons h1 hr, ?_, hp'⟩
    rw [events_cons, he]
    simp [event, hp]

/-- **Recovery ends**: from every state, a crash leads back to a ready log. -/
theorem recovers (sb : Superblock) (s : State) : ∃ tr s', Run (State.next sb) s tr s' ∧
    events tr = [.crash] ∧ s'.phase = .ready := by
  have h1 : s.next sb .crash = some (boot s.disk) := rfl
  have h2 : (boot s.disk).next sb .advance
      = some { (boot s.disk).readHead sb with phase := .install 0 } := next_advance rfl
  have hc : ((boot s.disk).readHead sb).committing = false := by
    simp only [State.readHead, State.bread_committing]
    rfl
  have hrest : ∃ tr s', Run (State.next sb)
      { (boot s.disk).readHead sb with phase := .install 0 } tr s' ∧
      events tr = [] ∧ s'.phase = .ready :=
    recovers_from_install _ rfl hc (Nat.zero_add _)
  obtain ⟨tr, s', hr, he, hp⟩ := hrest
  refine ⟨_, _, .cons h1 (.cons h2 hr), ?_, hp⟩
  rw [events_cons, events_cons, he]
  simp [event, boot]

/-- **Groups of operations are atomic across crashes.** Take any disk with
a sane header and any run from it in which a `log_write` that passed its
tests still fits the log: operations in any interleaving, crashes
anywhere, in recoveries too. The events of the run lead to a history of
whole groups such that, whenever recovery or a commit is complete, every
home block has the contents those groups leave, and the blocks they did
not write are as at the start. At every point a crash leaves the disk
with the contents before or after the group being committed, and the
recovery that follows comes to an end. -/
theorem crash_atomic {d : Nat → Block} {tr : List (State × Act)} (hlog : 0 < sb.nlog)
    (hd : HeaderOk sb (header sb d)) (hr : Run (State.next sb) (boot d) tr s)
    (hout : Meets (fun _ => WritesHome sb) tr) (hfit : Meets (StillFits sb) tr) :
    ∃ h, History (events tr) h ∧ Atomic sb (recovered sb d) s h ∧
      (s.phase = .ready → h.inflight = none ∧
        ∀ b, ¬ sb.inLog b → s.disk b = afterGroups (recovered sb d) h.done b ∧
          ((∀ g ∈ h.done, ∀ w ∈ writesOf g.acts, w.1 ≠ b) → s.disk b = recovered sb d b)) ∧
      ∃ tr' s', Run (State.next sb) s tr' s' ∧ events tr' = [.crash] ∧ s'.phase = .ready := by
  obtain ⟨h, hh, hi⟩ := logInv_run hlog hd hr hout hfit
  refine ⟨h, hh, hi.atomic, ?_, recovers sb s⟩
  intro hp
  have hrd := hi.ready hp
  refine ⟨hrd.inflight, ?_⟩
  intro b hb
  have hdisk := hrd.home b hb
  refine ⟨hdisk, ?_⟩
  intro hno
  rw [hdisk]
  apply writeAll_of_ne
  intro w hw
  obtain ⟨g, hg, hwg⟩ := List.mem_flatMap.mp hw
  exact hno g hg w hwg

/-- A log of two slots on an empty disk. One operation writes block 9; the
machine crashes after the header is written, and again while the recovery
installs the block. -/
def crashTwice : List (State × Act) × State :=
  (follow (State.next ⟨2, 3⟩) (boot fun _ _ => 0)
    ([.advance, .advance, .advance, .advance, .beginOp 0, .write 0 9, .append 0 9 fun _ => 1,
      .endOp 0, .advance, .advance, .advance, .crash, .advance, .advance, .crash] ++
      List.replicate 5 .advance)).get (by decide +kernel)

theorem crash_atomic_crashTwice : crashTwice.2.phase = .ready ∧ crashTwice.2.disk 9 0 = 1 ∧
    ∃ h, History (events crashTwice.1) h ∧ h.inflight = none ∧
      crashTwice.2.disk 9 = afterGroups (recovered ⟨2, 3⟩ fun _ _ => 0) h.done 9 := by
  have hrun : Run (State.next ⟨2, 3⟩) (boot fun _ _ => 0) crashTwice.1 crashTwice.2 := run_get _
  have hp : crashTwice.2.phase = .ready := by decide +kernel
  obtain ⟨h, hh, -, hready, -⟩ := crash_atomic (by decide)
    (headerOk_of_empty (by decide +kernel)) hrun (by decide +kernel) (by decide +kernel)
  obtain ⟨hin, hdisk⟩ := hready hp
  exact ⟨hp, by decide +kernel, h, hh, hin, (hdisk 9 (by decide)).1⟩

/-- Two operations on the same log: the second block of one and the first
of the other both pass the tests, and both are appended. -/
def bothPass : List (State × Act) × State :=
  (follow (State.next ⟨2, 3⟩) (boot fun _ _ => 0)
    (List.replicate 4 .advance ++ [.beginOp 0, .beginOp 1, .write 0 9, .append 0 9 fun _ => 1,
      .write 0 10, .write 1 11, .append 0 10 fun _ => 1, .append 1 11 fun _ => 1, .endOp 0,
      .endOp 1] ++ List.replicate 11 .advance)).get (by decide +kernel)

/-- A header that names a slot of the log. -/
def badHeader : Nat → Block := fun b =>
  if b = 2 then State.encode ⟨2, fun i => if i = 0 then 4 else 9⟩ fun _ => 0
  else fun _ => UInt8.ofNat b

def badRecovery : List (State × Act) × State :=
  (follow (State.next ⟨2, 3⟩) (boot badHeader) (List.replicate 6 .advance)).get (by decide +kernel)

/-- `write_log` goes past the end of the log, over a home block that no
operation wrote; and on a header that names a slot, recovery installs the
wrong contents. -/
theorem commit_leaves_log :
    (Run (State.next ⟨2, 3⟩) (boot fun _ _ => 0) bothPass.1 bothPass.2 ∧
      HeaderOk ⟨2, 3⟩ (header ⟨2, 3⟩ fun _ _ => 0) ∧
      Meets (fun _ => WritesHome ⟨2, 3⟩) bothPass.1 ∧ bothPass.2.phase = .ready ∧
      ¬ (⟨2, 3⟩ : Superblock).inLog 5 ∧ Meets (fun _ a => 5 ∉ a.logs) bothPass.1 ∧
      bothPass.2.disk 5 0 = 1) ∧
    Run (State.next ⟨2, 3⟩) (boot badHeader) badRecovery.1 badRecovery.2 ∧
      events badRecovery.1 = [] ∧ badRecovery.2.phase = .ready ∧
      recovered ⟨2, 3⟩ badHeader 9 0 = 4 ∧ badRecovery.2.disk 9 0 = 3 := by
  refine ⟨⟨run_get _, headerOk_of_empty (by decide +kernel), ?_⟩,
    run_get _, by decide +kernel⟩
  decide +kernel

/-- **Write-ahead.** In every such run, while an operation is in progress no
commit runs and nothing its group wrote is on the disk; `bread` returns what
it wrote last; and a block that is newer in the cache than on the disk cannot
be evicted and is in the log. -/
theorem write_ahead {d : Nat → Block} {tr : List (State × Act)} (hlog : 0 < sb.nlog)
    (hd : HeaderOk sb (header sb d)) (hr : Run (State.next sb) (boot d) tr s)
    (hout : Meets (fun _ => WritesHome sb) tr) (hfit : Meets (StillFits sb) tr)
    (ha : s.active ≠ []) :
    s.phase = .ready ∧ ∃ h, History (events tr) h ∧ inProgress [] h.cur = some s.active ∧
      ∀ b, ¬ sb.inLog b → s.disk b = afterGroups (recovered sb d) h.done b ∧
        (s.bread b).1 = writeAll s.disk (writesOf h.cur) b ∧
        ((s.bread b).1 ≠ s.disk b → s.next sb (.evict b) = none ∧ Named s.lh b) := by
  obtain ⟨h, hh, hi⟩ := logInv_run hlog hd hr hout hfit
  obtain ⟨hp, hrd⟩ := hi.ready_of_active ha
  refine ⟨hp, h, hh, hrd.active, ?_⟩
  intro b hb
  rw [State.bread_fst]
  refine ⟨hrd.home b hb, ?_, ?_⟩
  · rw [hrd.view b hb]
    exact writeAll_agree (.inr (hrd.home b hb).symm)
  · intro hne
    have hpin : s.Pinned b := by_contra fun h => hne (hi.cache.coherent b h)
    obtain ⟨c, hc, hdirty⟩ := hpin
    exact ⟨by simp [State.next, State.step, hc, hdirty], hrd.pins b ⟨c, hc, hdirty⟩⟩

/-- One operation has written block 9. -/
def oneWrite : List (State × Act) × State :=
  (follow (State.next ⟨2, 3⟩) (boot fun _ _ => 0)
    (List.replicate 4 .advance ++ [.beginOp 0, .write 0 9, .append 0 9 fun _ => 1])).get
    (by decide +kernel)

theorem write_ahead_oneWrite : oneWrite.2.active = [0] ∧ Named oneWrite.2.lh 9 := by
  have hr : Run (State.next ⟨2, 3⟩) (boot fun _ _ => 0) oneWrite.1 oneWrite.2 := run_get _
  have ha : oneWrite.2.active = [0] := by decide +kernel
  have hne : (oneWrite.2.bread 9).1 0 ≠ oneWrite.2.disk 9 0 := by decide +kernel
  obtain ⟨-, h, -, -, hb⟩ := write_ahead (by decide) (headerOk_of_empty (by decide +kernel)) hr
    (by decide +kernel) (by decide +kernel) (by simp [ha])
  exact ⟨ha, ((hb 9 (by decide)).2.2 fun h => hne (congrFun h 0)).2⟩

end Xv6.Fs
