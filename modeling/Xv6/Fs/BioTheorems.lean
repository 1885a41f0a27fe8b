/-
Xv6.Fs.BioTheorems — the buffer cache is transparent.

A `Bcache` is a write-back cache in the sense of `Lib/WriteBack.lean`:
its lines are the buffers, a buffer that is dirty or changed is pinned.
`BioInv` says that it shows the memory `mem`, which is the first disk
with everything stored since, and what counts and locks mean. Every call
keeps it; `commit` is made of the same calls, so it keeps it too.

What `commit` stores in a home block is what the block holds already, if
no block of the log is logged (`commit_spec`). A process that logs one
gets what it asks for: `install_trans` copies from a slot it has just
written over.
-/
import Xv6.Lib.Fold
import Xv6.Lib.WriteBack
import Xv6.Fs.Bio
import Xv6.Fs.LogTheorems

namespace Xv6.Fs

open Xv6.Lib Function

variable {pid : Int} {b : Nat} {sb : Superblock}
  {c'' : Bcache} {a : BioAct} {j : BufIdx} {lh : Header} {b' n tail : Nat} {w : Waiter}
  {tr : List (Bcache × BioAct)}

/-- A buffer as a line: only the root device counts. -/
def Buffer.line (b : Buffer) (changed : Bool) : Line Nat Block where
  tag := if b.dev = rootdev then some b.blockno else none
  copy := if b.valid then some b.data else none
  pinned := b.dirty || changed

theorem Buffer.line_tag {b : Buffer} {x : Bool} (h : b.dev = rootdev) :
    (b.line x).tag = some b.blockno := by
  simp [line, h]

theorem Buffer.line_copy {b : Buffer} {x : Bool} (h : b.valid = true) :
    (b.line x).copy = some b.data := by
  simp [line, h]

namespace Bcache

/-- The cache, as lines over the disk. -/
def cache (c : Bcache) : WriteBack BufIdx Nat Block where
  back := c.disk
  line i := (c.buf i).line (c.changed i)

/-- The contents of the blocks: the first disk with all that was stored. -/
def mem (d : Nat → Block) (c : Bcache) : Nat → Block := writeAll d c.stores

def waiters (c : Bcache) (i : BufIdx) : Nat := c.waiting.countP (·.buf = i)

structure BioInv (d : Nat → Block) (c : Bcache) : Prop where
  coherent : c.cache.Coherent (c.mem d)
  refs : ∀ i, (c.buf i).refcnt = (if (c.buf i).lock.isSome then 1 else 0) + c.waiters i
  held : ∀ i, (c.buf i).lock.isSome → (c.buf i).dev = rootdev ∧ (c.buf i).valid = true
  waits : ∀ w ∈ c.waiting, (c.buf w.buf).dev = rootdev ∧ (c.buf w.buf).blockno = w.blockno
  dirty : ∀ i, (c.buf i).dirty = true → (c.buf i).valid = true
  changed : ∀ i, c.changed i = true → (c.buf i).lock.isSome

/-- Only buffer `i` changes. -/
structure Only (i : BufIdx) (c c' : Bcache) : Prop where
  buf : ∀ j, j ≠ i → c'.buf j = c.buf j
  changed : ∀ j, j ≠ i → c'.changed j = c.changed j
  lh : c'.lh = c.lh

theorem Only.trans {i : BufIdx} {c c' : Bcache} (h : Only i c c') (h' : Only i c' c'') :
    Only i c c'' :=
  ⟨fun j hj => (h'.buf j hj).trans (h.buf j hj),
    fun j hj => (h'.changed j hj).trans (h.changed j hj), h'.lh.trans h.lh⟩

/-! Fields after an update. -/

section
variable (c : Bcache) (i : BufIdx) (f : Buffer → Buffer) (x : Bool) (ws : List Waiter)

@[simp] theorem setBuf_buf_self : (c.setBuf i f).buf i = f (c.buf i) := by
  simp [setBuf]

@[simp] theorem setBuf_mem (d : Nat → Block) : (c.setBuf i f).mem d = c.mem d := rfl
@[simp] theorem setBuf_waiters : (c.setBuf i f).waiters = c.waiters := rfl
@[simp] theorem setWaiting_mem (d : Nat → Block) : (c.setWaiting ws).mem d = c.mem d := rfl
@[simp] theorem setWaiting_waiters (j : BufIdx) :
    (c.setWaiting ws).waiters j = ws.countP (·.buf = j) := rfl
@[simp] theorem setChanged_mem (d : Nat → Block) : (c.setChanged i x).mem d = c.mem d := rfl
@[simp] theorem setChanged_waiters : (c.setChanged i x).waiters = c.waiters := rfl

@[simp] theorem setChanged_changed_self : (c.setChanged i x).changed i = x := by
  simp [setChanged]

@[simp] theorem setDisk_mem (d : Nat → Block) (b : Nat) (y : Block) :
    (c.setDisk b y).mem d = c.mem d := rfl
@[simp] theorem setDisk_cache (b : Nat) (y : Block) :
    (c.setDisk b y).cache = { c.cache with back := update c.disk b y } := rfl

@[simp] theorem store_cache (b : Nat) (y : Block) : (c.store b y).cache = c.cache := rfl
@[simp] theorem store_mem (d : Nat → Block) (b : Nat) (y : Block) :
    (c.store b y).mem d = update (c.mem d) b y := by
  simp [mem, store, writeAll_append]

theorem only_setBuf : Only i c (c.setBuf i f) :=
  ⟨fun _ hj => update_of_ne hj _ _, fun _ _ => rfl, rfl⟩

theorem only_setDisk (b : Nat) (y : Block) : Only i c (c.setDisk b y) :=
  ⟨fun _ _ => rfl, fun _ _ => rfl, rfl⟩

theorem only_store (b : Nat) (y : Block) : Only i c (c.store b y) :=
  ⟨fun _ _ => rfl, fun _ _ => rfl, rfl⟩

theorem only_setWaiting : Only i c (c.setWaiting ws) :=
  ⟨fun _ _ => rfl, fun _ _ => rfl, rfl⟩

theorem only_setChanged : Only i c (c.setChanged i x) :=
  ⟨fun _ _ => rfl, fun _ hj => update_of_ne hj _ _, rfl⟩

end

section
variable {d : Nat → Block} {c c' : Bcache} {i : BufIdx}

theorem Only.cache (h : Only i c c') (hdisk : c'.disk = c.disk) :
    c'.cache = c.cache.set i ((c'.buf i).line (c'.changed i)) := by
  have hline : c'.cache.line = update c.cache.line i ((c'.buf i).line (c'.changed i)) := by
    funext j
    by_cases hj : j = i
    · subst hj
      simp [Bcache.cache]
    · simp [Bcache.cache, hj, h.buf j hj, h.changed j hj]
  simp only [Bcache.cache, WriteBack.set] at hline ⊢
  rw [hline, hdisk]

theorem Only.cache_same (h : Only i c c') (hdisk : c'.disk = c.disk)
    (hline : (c'.buf i).line (c'.changed i) = (c.buf i).line (c.changed i)) :
    c'.cache = c.cache := by
  rw [h.cache hdisk, hline]
  simp [WriteBack.set, Bcache.cache]

theorem BioInv.only (h : BioInv d c) (ho : Only i c c') (hco : c'.cache.Coherent (c'.mem d))
    (hw : ∀ j, j ≠ i → c'.waiters j = c.waiters j)
    (hwaits : ∀ w ∈ c'.waiting, (w ∈ c.waiting ∧ w.buf ≠ i) ∨
      (w.buf = i ∧ (c'.buf i).dev = rootdev ∧ (c'.buf i).blockno = w.blockno))
    (hrefs : (c'.buf i).refcnt = (if (c'.buf i).lock.isSome then 1 else 0) + c'.waiters i)
    (hheld : (c'.buf i).lock.isSome → (c'.buf i).dev = rootdev ∧ (c'.buf i).valid = true)
    (hdirty : (c'.buf i).dirty = true → (c'.buf i).valid = true)
    (hchanged : c'.changed i = true → (c'.buf i).lock.isSome) : BioInv d c' := by
  refine ⟨hco, fun j => ?_, fun j => ?_, fun w hw' => ?_, fun j => ?_, fun j => ?_⟩
  · by_cases hj : j = i
    · rw [hj]
      exact hrefs
    · rw [ho.buf j hj, hw j hj]
      exact h.refs j
  · by_cases hj : j = i
    · rw [hj]
      exact hheld
    · rw [ho.buf j hj]
      exact h.held j
  · rcases hwaits w hw' with ⟨hin, hne⟩ | ⟨heq, hb⟩
    · rw [ho.buf _ hne]
      exact h.waits w hin
    · rw [heq]
      exact hb
  · by_cases hj : j = i
    · rw [hj]
      exact hdirty
    · rw [ho.buf j hj]
      exact h.dirty j
  · by_cases hj : j = i
    · rw [hj]
      exact hchanged
    · rw [ho.buf j hj, ho.changed j hj]
      exact h.changed j

/-- The same for a call that leaves the processes waiting and the buffer's
block alone. -/
theorem BioInv.only' (h : BioInv d c) (ho : Only i c c') (hco : c'.cache.Coherent (c'.mem d))
    (hw : c'.waiting = c.waiting) (hdev : (c'.buf i).dev = (c.buf i).dev)
    (hblock : (c'.buf i).blockno = (c.buf i).blockno)
    (hrefs : (c'.buf i).refcnt = (if (c'.buf i).lock.isSome then 1 else 0) + c.waiters i)
    (hheld : (c'.buf i).lock.isSome → (c'.buf i).dev = rootdev ∧ (c'.buf i).valid = true)
    (hdirty : (c'.buf i).dirty = true → (c'.buf i).valid = true)
    (hchanged : c'.changed i = true → (c'.buf i).lock.isSome) : BioInv d c' := by
  have hwaiters : ∀ j, c'.waiters j = c.waiters j := by
    intro j
    rw [waiters, hw, waiters]
  refine h.only ho hco (fun j _ => hwaiters j) (fun w hin => ?_) (by rw [hwaiters]; exact hrefs)
    hheld hdirty hchanged
  rw [hw] at hin
  by_cases hwi : w.buf = i
  · refine .inr ⟨hwi, ?_⟩
    rw [hdev, hblock, ← hwi]
    exact h.waits w hin
  · exact .inl ⟨hin, hwi⟩

theorem BioInv.data (h : BioInv d c) (hl : (c.buf i).lock.isSome) :
    (c.buf i).data = c.mem d (c.buf i).blockno := by
  obtain ⟨hdev, hv⟩ := h.held i hl
  exact h.coherent.copy (Buffer.line_tag hdev) (Buffer.line_copy hv)

/-! ## `bio.c` -/

theorem waiters_cons (c : Bcache) (w : Waiter) (j : BufIdx) :
    (w :: c.waiting).countP (·.buf = j) = c.waiters j + if w.buf = j then 1 else 0 := by
  simp [waiters, List.countP_cons]

theorem bget_spec (h : BioInv d c) (hg : c.bget pid rootdev b = .ok (w, c')) :
    BioInv d c' ∧ Only w.buf c c' ∧ c'.stores = c.stores ∧ w ∈ c'.waiting ∧ w.pid = pid ∧
      w.blockno = b ∧ (c'.buf w.buf).lock = (c.buf w.buf).lock ∧ c'.changed = c.changed := by
  unfold bget at hg
  split at hg
  · next i hf =>
    -- the block has a buffer
    have hb : (c.buf i).dev = rootdev ∧ (c.buf i).blockno = b := by
      simpa using List.find?_some hf
    cases hg
    have ho := (only_setBuf c i fun b => { b with refcnt := b.refcnt + 1 }).trans
      (only_setWaiting _ i (⟨pid, i, b⟩ :: c.waiting))
    refine ⟨?_, ho, rfl, List.mem_cons_self, rfl, rfl, by simp, rfl⟩
    refine h.only ho ?_ (fun j hj => ?_) (fun w hw => ?_) ?_ ?_ ?_ ?_
    · rw [ho.cache_same rfl (by simp [Buffer.line])]
      exact h.coherent
    · exact (waiters_cons c _ j).trans (by simp [Ne.symm hj])
    · rcases List.mem_cons.mp hw with rfl | hw
      · exact .inr ⟨rfl, by simpa using hb⟩
      · by_cases hwi : w.buf = i
        · refine .inr ⟨hwi, ?_⟩
          have := h.waits w hw
          rw [hwi] at this
          simpa using this
        · exact .inl ⟨hw, hwi⟩
    · have := h.refs i
      rw [setWaiting_waiters, waiters_cons]
      simp only [setWaiting_buf, setBuf_buf_self, if_true]
      omega
    · simpa using h.held i
    · simpa using h.dirty i
    · simpa using h.changed i
  rename_i hno
  split at hg
  · next i hf =>
    -- no buffer has it, and a free one is recycled
    have hfree : (c.buf i).refcnt = 0 ∧ (c.buf i).dirty = false := by
      simpa using List.find?_some hf
    obtain ⟨hlock, hnone⟩ : (c.buf i).lock = none ∧ c.waiters i = 0 := by
      have hr := h.refs i
      rw [hfree.1] at hr
      cases hl : (c.buf i).lock with
      | none => exact ⟨rfl, by simp [hl] at hr; omega⟩
      | some pid =>
        simp [hl] at hr
        omega
    have hch : c.changed i = false := by
      by_contra hc
      have := h.changed i (by simpa using hc)
      simp [hlock] at this
    have hw : ∀ w ∈ c.waiting, w.buf ≠ i := by
      simpa [waiters] using hnone
    cases hg
    have ho := (only_setBuf c i fun q =>
      { q with dev := rootdev, blockno := b, valid := false, dirty := false, refcnt := 1 }).trans
      (only_setWaiting _ i (⟨pid, i, b⟩ :: c.waiting))
    refine ⟨?_, ho, rfl, List.mem_cons_self, rfl, rfl, by simp, rfl⟩
    refine h.only ho ?_ (fun j hj => ?_) (fun w hin => ?_) ?_ ?_ ?_ ?_
    · have hre : (c.cache.set i ⟨some b, none, false⟩).Coherent (c.mem d) := by
        refine h.coherent.retag (by simp [cache, Buffer.line, hfree.2, hch]) fun j hj => ?_
        have hne := List.find?_eq_none.mp hno j (c.lru.all j)
        simp only [cache, Buffer.line, Option.ite_none_right_eq_some, Option.some.injEq] at hj
        simp [hj.1, hj.2] at hne
      rw [ho.cache rfl]
      simpa [Buffer.line, hch] using hre
    · exact (waiters_cons c _ j).trans (by simp [Ne.symm hj])
    · rcases List.mem_cons.mp hin with rfl | hin
      · exact .inr ⟨rfl, by simp⟩
      · exact .inl ⟨hin, hw w hin⟩
    · rw [setWaiting_waiters, waiters_cons, hnone]
      simp [hlock]
    · simp [hlock]
    · simp
    · simp [hch]
  · cases hg

theorem iderw_ok (h : c.iderw pid i = .ok c') : ((c.buf i).dirty = true ∧
      c' = (c.setBuf i fun b => { b with dirty := false, valid := true }).setDisk
        (c.buf i).blockno (c.buf i).data) ∨
    ((c.buf i).dirty = false ∧
      c' = c.setBuf i fun b => { b with data := c.disk b.blockno, valid := true }) := by
  simp only [iderw] at h
  iterate 4
    split at h
    · cases h
  split at h
  · next hd =>
    cases h
    exact .inl ⟨hd, rfl⟩
  rename_i hd
  cases h
  exact .inr ⟨by simpa using hd, rfl⟩

theorem acquire_spec (h : BioInv d c) (hw : w ∈ c.waiting) (ha : c.acquire w = .ok c') :
    BioInv d c' ∧ Only w.buf c c' ∧ c'.stores = c.stores ∧ (c.buf w.buf).lock = none ∧
      (c'.buf w.buf).lock = some w.pid ∧ (c'.buf w.buf).blockno = w.blockno ∧
      c'.changed w.buf = false := by
  obtain ⟨hdev, hb⟩ := h.waits w hw
  unfold acquire at ha
  split at ha
  · cases ha
  rename_i hl
  have hlock : (c.buf w.buf).lock = none := by simpa using hl
  have hch : c.changed w.buf = false := by
    by_contra hc
    exact hl (h.changed _ (by simpa using hc))
  have hwait : ∀ j, (c.waiting.erase w).countP (·.buf = j) + (if w.buf = j then 1 else 0) =
      c.waiters j := by
    intro j
    have := (List.perm_cons_erase hw).countP_eq (·.buf = j)
    rw [waiters, this, List.countP_cons]
    simp
  have hrefs := h.refs w.buf
  rw [hlock, ← hwait w.buf] at hrefs
  have ho := (only_setBuf c w.buf fun b => { b with lock := some w.pid }).trans
    (only_setWaiting _ w.buf (c.waiting.erase w))
  have hwaits : ∀ q ∈ c.waiting.erase w, (q ∈ c.waiting ∧ q.buf ≠ w.buf) ∨
      (q.buf = w.buf ∧ (c.buf w.buf).dev = rootdev ∧ (c.buf w.buf).blockno = q.blockno) := by
    intro q hq
    have hin := List.mem_of_mem_erase hq
    by_cases hqw : q.buf = w.buf
    · have := h.waits q hin
      rw [hqw] at this
      exact .inr ⟨hqw, this⟩
    · exact .inl ⟨hin, hqw⟩
  simp only at ha
  split at ha
  · next hv =>
    cases ha
    have hv : (c.buf w.buf).valid = true := by simpa using hv
    refine ⟨h.only ho ?_ (fun j hj => ?_) (by simpa using hwaits) ?_ ?_ ?_ ?_, ho, rfl, hlock,
      by simp, by simpa using hb, hch⟩
    · rw [ho.cache_same rfl (by simp [Buffer.line])]
      exact h.coherent
    · simpa [Ne.symm hj] using hwait j
    · simp at hrefs ⊢
      omega
    · simp [hdev, hv]
    · simp [hv]
    · simp
  rename_i hv
  have hv : (c.buf w.buf).valid = false := by simpa using hv
  have hd : (c.buf w.buf).dirty = false := by
    by_contra hd
    rw [h.dirty _ (by simpa using hd)] at hv
    cases hv
  rcases iderw_ok ha with ⟨hdirty, -⟩ | ⟨-, hc'⟩
  · simp [hd] at hdirty
  · simp only [setWaiting_disk, setBuf_disk] at hc'
    subst hc'
    have ho' := ho.trans (only_setBuf _ w.buf fun b =>
      { b with data := c.disk b.blockno, valid := true })
    refine ⟨h.only ho' ?_ (fun j hj => ?_) (by simpa using hwaits) ?_ ?_ ?_ ?_, ho', rfl,
      hlock, by simp, by simpa using hb, hch⟩
    · have htag : (c.cache.line w.buf).tag = some (c.buf w.buf).blockno :=
        Buffer.line_tag hdev
      have hfill := h.coherent.fill htag (by simp [cache, Buffer.line, hd, hch])
      rw [ho'.cache rfl]
      simpa [Buffer.line, hch, hd, hdev, cache] using hfill
    · simpa [Ne.symm hj] using hwait j
    · simp at hrefs ⊢
      omega
    · simp [hdev]
    · simp
    · simp

theorem bwrite_spec (h : BioInv d c) (hb : c.bwrite pid i = .ok c') :
    BioInv d c' ∧ Only i c c' ∧ c'.stores = c.stores ∧ (c'.buf i).lock = some pid ∧
      (c'.buf i).blockno = (c.buf i).blockno ∧ c'.changed i = false := by
  unfold bwrite at hb
  split at hb
  · cases hb
  rename_i hl
  have hlock : (c.buf i).lock = some pid := by simpa using hl
  obtain ⟨hdev, hv⟩ := h.held i (by simp [hlock])
  rcases iderw_ok hb with ⟨-, rfl⟩ | ⟨hd, -⟩
  · have ho := ((only_setBuf c i fun b => { b with dirty := true }).trans
      (only_setChanged _ i false)).trans
        (only_setBuf _ i fun b => { b with dirty := false, valid := true })
    have ho' := ho.trans (only_setDisk _ i (c.buf i).blockno (c.buf i).data)
    simp only [setChanged_buf, setBuf_buf_self]
    refine ⟨h.only' ho' ?_ rfl (by simp) (by simp) ?_ ?_ ?_ ?_, ho', rfl, by simp [hlock],
      by simp, by simp⟩
    · have htag : (c.cache.line i).tag = some (c.buf i).blockno := Buffer.line_tag hdev
      have hflush := h.coherent.flush htag (Buffer.line_copy hv)
      rw [setDisk_cache, ho.cache rfl]
      simpa [Buffer.line, hdev, cache] using hflush
    · simpa using h.refs i
    · simp [hdev]
    · simp
    · simp
  · simp at hd

theorem brelse_spec (h : BioInv d c) (hch : c.changed i = false) (hb : c.brelse pid i = .ok c') :
    BioInv d c' ∧ Only i c c' ∧ c'.stores = c.stores := by
  unfold brelse at hb
  split at hb
  · cases hb
  rename_i hl
  have hlock : (c.buf i).lock = some pid := by simpa using hl
  have ho := only_setBuf c i fun b => { b with lock := none, refcnt := b.refcnt - 1 }
  have hi : BioInv d (c.setBuf i fun b => { b with lock := none, refcnt := b.refcnt - 1 }) := by
    refine h.only' ho ?_ rfl (by simp) (by simp) ?_ (by simp) ?_ (by simp [hch])
    · rw [ho.cache_same rfl (by simp [Buffer.line])]
      exact h.coherent
    · have hrefs := h.refs i
      simp [hlock] at hrefs ⊢
      omega
    · simpa using h.dirty i
  cases hb
  split
  · exact ⟨⟨hi.coherent, hi.refs, hi.held, hi.waits, hi.dirty, hi.changed⟩,
      ⟨ho.buf, ho.changed, ho.lh⟩, rfl⟩
  · exact ⟨hi, ho, rfl⟩

theorem setData_spec (h : BioInv d c) (hl : (c.buf i).lock.isSome) (x : Block) :
    BioInv d (c.setData i x) ∧ Only i c (c.setData i x) ∧
      (c.setData i x).mem d = update (c.mem d) (c.buf i).blockno x := by
  obtain ⟨hdev, hv⟩ := h.held i hl
  have ho := (only_setBuf c i fun b => { b with data := x }).trans (only_setChanged _ i true)
  have ho' := ho.trans (only_store _ i (c.buf i).blockno x)
  refine ⟨h.only' ho' ?_ rfl (by simp [setData]) (by simp [setData]) ?_ ?_ ?_ ?_, ho',
    by simp [setData]⟩
  · have htag : (c.cache.line i).tag = some (c.buf i).blockno := Buffer.line_tag hdev
    have hwrite := h.coherent.write htag x
    rw [setData, store_cache, store_mem, ho.cache rfl]
    simpa [Buffer.line, hdev, hv] using hwrite
  · simpa [setData] using h.refs i
  · simp [setData, hdev, hv]
  · simp [setData, hv]
  · simpa [setData] using hl

theorem logWrite_spec (h : BioInv d c) (hl : (c.buf i).lock.isSome)
    (hw : c.logWrite sb i = .ok c') :
    BioInv d c' ∧ c'.stores = c.stores ∧ c'.lh = State.absorb c.lh (c.buf i).blockno ∧
      c.lh.n < logsize ∧ c.lh.n + 1 < sb.nlog := by
  obtain ⟨hdev, hv⟩ := h.held i hl
  unfold logWrite at hw
  split at hw
  · cases hw
  rename_i hn
  split at hw
  · cases hw
  · have ho := (only_setBuf c i fun b => { b with dirty := true }).trans
      (only_setChanged _ i false)
    have hi : BioInv d ((c.setBuf i fun b => { b with dirty := true }).setChanged i false) := by
      refine h.only' ho ?_ rfl (by simp) (by simp) (by simpa using h.refs i)
        (by simp [hdev, hv]) (by simp [hv]) (by simp)
      have htag : (c.cache.line i).tag = some (c.buf i).blockno := Buffer.line_tag hdev
      have hpin := h.coherent.pin htag (Buffer.line_copy hv)
      rw [ho.cache rfl]
      simpa [Buffer.line, hdev, hv] using hpin
    cases hw
    exact ⟨⟨hi.coherent, hi.refs, hi.held, hi.waits, hi.dirty, hi.changed⟩, rfl, rfl,
      by omega, by omega⟩

theorem mem_of_stores (h : c'.stores = c.stores) : c'.mem d = c.mem d := by
  rw [mem, h, mem]

/-- `pid` has block `b` locked in buffer `i`, and not changed. -/
structure Has (c : Bcache) (pid : Int) (i : BufIdx) (b : Nat) : Prop where
  lock : (c.buf i).lock = some pid
  blockno : (c.buf i).blockno = b
  changed : c.changed i = false

theorem Has.only (h : Has c pid i b) (ho : Only j c c') (hij : i ≠ j) : Has c' pid i b := by
  refine ⟨?_, ?_, ?_⟩
  · rw [ho.buf i hij]
    exact h.lock
  · rw [ho.buf i hij]
    exact h.blockno
  · rw [ho.changed i hij]
    exact h.changed

theorem BioInv.data_of_has (h : BioInv d c) (hh : Has c pid i b) : (c.buf i).data = c.mem d b := by
  rw [h.data (by simp [hh.lock]), hh.blockno]

theorem bread_spec (h : BioInv d c) (hb : c.bread pid b = .ok (i, c')) :
    BioInv d c' ∧ Has c' pid i b ∧ Only i c c' ∧ c'.stores = c.stores ∧
      (c.buf i).lock = none := by
  unfold bread at hb
  obtain ⟨⟨w, c₁⟩, hg, hb⟩ := bind_eq_ok.mp hb
  obtain ⟨c₂, ha, hb⟩ := bind_eq_ok.mp hb
  cases hb
  obtain ⟨h1, ho1, hs1, hw, rfl, rfl, hl, -⟩ := bget_spec h hg
  obtain ⟨h2, ho2, hs2, hnone, hlock, hblock, hch⟩ := acquire_spec h1 hw ha
  exact ⟨h2, ⟨hlock, hblock, hch⟩, ho1.trans ho2, hs2.trans hs1, hl ▸ hnone⟩

/-! ## `log.c` -/

section
variable (h : BioInv d c)
include h

theorem bread_bread (h1 : c.bread pid b = .ok (i, c')) (h2 : c'.bread pid b' = .ok (j, c'')) :
    BioInv d c'' ∧ Has c'' pid i b ∧ Has c'' pid j b' ∧ i ≠ j ∧ c''.mem d = c.mem d ∧
      c''.lh = c.lh := by
  obtain ⟨hi1, hh1, ho1, hs1, -⟩ := bread_spec h h1
  obtain ⟨hi2, hh2, ho2, hs2, hnone⟩ := bread_spec hi1 h2
  have hij : i ≠ j := by
    rintro rfl
    rw [hh1.lock] at hnone
    cases hnone
  exact ⟨hi2, hh1.only ho2 hij, hh2, hij, mem_of_stores (hs2.trans hs1), ho2.lh.trans ho1.lh⟩

theorem setData_bwrite {x : Block} (hh : Has c pid i b)
    (hw : (c.setData i x).bwrite pid i = .ok c') :
    BioInv d c' ∧ Has c' pid i b ∧ Only i c c' ∧ c'.mem d = update (c.mem d) b x := by
  have hl : (c.buf i).lock.isSome := by simp [hh.lock]
  obtain ⟨h1, ho1, hm1⟩ := setData_spec h hl x
  obtain ⟨h2, ho2, hs2, hl2, hb2, hch⟩ := bwrite_spec h1 hw
  refine ⟨h2, ⟨hl2, ?_, hch⟩, ho1.trans ho2, ?_⟩
  · rw [hb2, ← hh.blockno]
    simp [setData]
  · rw [mem_of_stores hs2, hm1, hh.blockno]

theorem overwrite_spec {dst src : BufIdx} (hd : Has c pid dst b) (hs : Has c pid src b')
    (hne : dst ≠ src) (ho : c.overwrite pid dst src = .ok c') :
    BioInv d c' ∧ c'.mem d = update (c.mem d) b (c.mem d b') ∧ c'.lh = c.lh := by
  unfold overwrite at ho
  obtain ⟨c₁, hw, ho⟩ := bind_eq_ok.mp ho
  obtain ⟨c₂, hr, ho⟩ := bind_eq_ok.mp ho
  obtain ⟨h1, hd1, ho1, hm1⟩ := setData_bwrite h hd hw
  have hs1 := hs.only ho1 hne.symm
  obtain ⟨h2, ho2, hs2⟩ := brelse_spec h1 hs1.changed hr
  have hd2 := hd1.only ho2 hne
  obtain ⟨h3, ho3, hs3⟩ := brelse_spec h2 hd2.changed ho
  refine ⟨h3, ?_, ho3.lh.trans (ho2.lh.trans ho1.lh)⟩
  rw [mem_of_stores (hs3.trans hs2), hm1, h.data_of_has hs]

theorem writeLogOne_spec (hw : writeLogOne sb pid c tail = .ok c') :
    BioInv d c' ∧ c'.lh = c.lh ∧
      c'.mem d = update (c.mem d) (sb.logstart + tail + 1) (c.mem d (c.lh.block tail)) := by
  unfold writeLogOne at hw
  obtain ⟨⟨dst, c₁⟩, h1, hw⟩ := bind_eq_ok.mp hw
  obtain ⟨⟨src, c₂⟩, h2, hw⟩ := bind_eq_ok.mp hw
  obtain ⟨hi, hd, hs, hne, hm, hlh⟩ := bread_bread h h1 h2
  obtain ⟨hi', hm', hlh'⟩ := overwrite_spec hi hd hs hne hw
  obtain ⟨-, -, ho, -⟩ := bread_spec h h1
  rw [hm, ho.lh] at hm'
  exact ⟨hi', hlh'.trans hlh, hm'⟩

theorem installOne_spec (hw : installOne sb pid c tail = .ok c') :
    BioInv d c' ∧ c'.lh = c.lh ∧
      c'.mem d = update (c.mem d) (c.lh.block tail) (c.mem d (sb.logstart + tail + 1)) := by
  unfold installOne at hw
  obtain ⟨⟨lbuf, c₁⟩, h1, hw⟩ := bind_eq_ok.mp hw
  obtain ⟨⟨dbuf, c₂⟩, h2, hw⟩ := bind_eq_ok.mp hw
  obtain ⟨hi, hl, hd, hne, hm, hlh⟩ := bread_bread h h1 h2
  obtain ⟨hi', hm', hlh'⟩ := overwrite_spec hi hd hl hne.symm hw
  obtain ⟨-, -, ho, -⟩ := bread_spec h h1
  rw [hm, ho.lh] at hm'
  exact ⟨hi', hlh'.trans hlh, hm'⟩

theorem writeHead_spec (hw : c.writeHead sb pid = .ok c') :
    BioInv d c' ∧ c'.lh = c.lh ∧ ∀ b, b ≠ sb.logstart → c'.mem d b = c.mem d b := by
  unfold writeHead at hw
  obtain ⟨⟨i, c₁⟩, h1, hw⟩ := bind_eq_ok.mp hw
  obtain ⟨c₂, h2, hw⟩ := bind_eq_ok.mp hw
  obtain ⟨hi1, hh1, ho1, hs1, -⟩ := bread_spec h h1
  obtain ⟨hi2, hh2, ho2, hm2⟩ := setData_bwrite hi1 hh1 h2
  obtain ⟨hi3, ho3, hs3⟩ := brelse_spec hi2 hh2.changed hw
  refine ⟨hi3, ho3.lh.trans (ho2.lh.trans ho1.lh), fun b hb => ?_⟩
  rw [mem_of_stores hs3, hm2, update_of_ne hb, mem_of_stores hs1]

end

/-- The log has a slot for every block, and no block of its own. -/
structure LogOk (sb : Superblock) (lh : Header) : Prop where
  slots : ∀ t < lh.n, t + 1 < sb.nlog
  home : ∀ b, Named lh b → ¬ sb.inLog b

theorem logOk_of_empty (h : lh.n = 0) : LogOk sb lh := by
  refine ⟨fun t ht => by omega, ?_⟩
  rintro b ⟨t, ht, -⟩
  omega

theorem LogOk.absorb (h : LogOk sb lh) (hb : ¬ sb.inLog b) (hn : lh.n + 1 < sb.nlog) :
    LogOk sb (State.absorb lh b) := by
  refine ⟨fun t ht => ?_, fun b' hb' => ?_⟩
  · have hle : (State.absorb lh b).n ≤ lh.n + 1 := by
      simp only [State.absorb]
      split <;> omega
    omega
  · rcases (named_absorb lh b b').mp hb' with hb' | rfl
    · exact h.home b' hb'
    · exact hb

theorem writeLog_spec (h : BioInv d c)
    (hw : (List.range c.lh.n).foldlM (writeLogOne sb pid) c = .ok c') :
    BioInv d c' ∧ c'.lh = c.lh ∧ (LogOk sb c.lh →
      (∀ b, ¬ sb.inLog b → c'.mem d b = c.mem d b) ∧
      ∀ t < c.lh.n, c'.mem d (sb.logstart + t + 1) = c.mem d (c.lh.block t)) := by
  refine foldlM_range (P := fun n s => BioInv d s ∧ s.lh = c.lh ∧ (LogOk sb c.lh →
    (∀ b, ¬ sb.inLog b → s.mem d b = c.mem d b) ∧
    ∀ t < n, s.mem d (sb.logstart + t + 1) = c.mem d (c.lh.block t)))
    ⟨h, rfl, fun _ => ⟨fun _ _ => rfl, fun t ht => by omega⟩⟩ ?_ hw
  rintro n s s' hn ⟨hi, hlh, hm⟩ hs
  obtain ⟨hi', hlh', hm'⟩ := writeLogOne_spec hi hs
  refine ⟨hi', hlh'.trans hlh, fun hok => ?_⟩
  obtain ⟨hhome, hslots⟩ := hm hok
  have hslot : sb.inLog (sb.logstart + n + 1) := inLog_slot (hok.slots n hn)
  refine ⟨fun b hb => ?_, fun t ht => ?_⟩
  · rw [hm', update_of_ne]
    · exact hhome b hb
    · rintro rfl
      exact hb hslot
  · rw [hm']
    by_cases htn : t = n
    · rw [htn, update_self, hlh]
      exact hhome _ (hok.home _ ⟨n, hn, rfl⟩)
    · rw [update_of_ne (by omega)]
      exact hslots t (by omega)

theorem install_spec (h : BioInv d c)
    (hw : (List.range c.lh.n).foldlM (installOne sb pid) c = .ok c') : BioInv d c' ∧ c'.lh = c.lh ∧
      ((∀ t < c.lh.n, c.mem d (sb.logstart + t + 1) = c.mem d (c.lh.block t)) →
        c'.mem d = c.mem d) := by
  refine foldlM_range (P := fun _ s => BioInv d s ∧ s.lh = c.lh ∧
    ((∀ t < c.lh.n, c.mem d (sb.logstart + t + 1) = c.mem d (c.lh.block t)) →
      s.mem d = c.mem d)) ⟨h, rfl, fun _ => rfl⟩ ?_ hw
  rintro n s s' hn ⟨hi, hlh, hm⟩ hs
  obtain ⟨hi', hlh', hm'⟩ := installOne_spec hi hs
  refine ⟨hi', hlh'.trans hlh, fun hslots => ?_⟩
  rw [hm', hm hslots, hlh, hslots n hn, update_eq_self]

/-- **`commit`** keeps the invariant, and home blocks as they are. -/
theorem commit_spec (h : BioInv d c) (hc : c.commit sb pid = .ok c') :
    BioInv d c' ∧ (LogOk sb c.lh →
      LogOk sb c'.lh ∧ ∀ b, ¬ sb.inLog b → c'.mem d b = c.mem d b) := by
  unfold commit at hc
  split at hc
  · next hn =>
    obtain ⟨c₁, h1, hc⟩ := bind_eq_ok.mp hc
    obtain ⟨c₂, h2, hc⟩ := bind_eq_ok.mp hc
    obtain ⟨c₃, h3, hc⟩ := bind_eq_ok.mp hc
    obtain ⟨hi1, hlh1, hm1⟩ := writeLog_spec h h1
    obtain ⟨hi2, hlh2, hm2⟩ := writeHead_spec hi1 h2
    obtain ⟨hi3, hlh3, hm3⟩ := install_spec hi2 h3
    have hi3' : BioInv d { c₃ with lh := { c₃.lh with n := 0 } } :=
      ⟨hi3.coherent, hi3.refs, hi3.held, hi3.waits, hi3.dirty, hi3.changed⟩
    obtain ⟨hi4, hlh4, hm4⟩ := writeHead_spec hi3' hc
    refine ⟨hi4, fun hok => ?_⟩
    obtain ⟨hhome, hslots⟩ := hm1 hok
    have hstart : sb.inLog sb.logstart := by
      have := hok.slots 0 hn
      exact ⟨by omega, by omega⟩
    have hne : ∀ b, ¬ sb.inLog b → b ≠ sb.logstart := by
      rintro b hb rfl
      exact hb hstart
    have hinst : c₃.mem d = c₂.mem d := by
      apply hm3
      intro t ht
      rw [hlh2, hlh1] at ht ⊢
      have hb := hok.home _ ⟨t, ht, rfl⟩
      rw [hm2 _ (by omega), hm2 _ (hne _ hb), hslots t ht, hhome _ hb]
    refine ⟨?_, fun b hb => ?_⟩
    · rw [hlh4]
      exact logOk_of_empty rfl
    · calc c'.mem d b = c₃.mem d b := hm4 b (hne b hb)
        _ = c₂.mem d b := by rw [hinst]
        _ = c₁.mem d b := hm2 b (hne b hb)
        _ = c.mem d b := hhome b hb
  · cases hc
    exact ⟨h, fun hok => ⟨hok, fun _ _ => rfl⟩⟩

/-! ## Runs -/

/-- What the processes themselves store. -/
def stored (c : Bcache) : BioAct → List (Nat × Block)
  | .store _ i data => [((c.buf i).blockno, data)]
  | _ => []

/-- The stores of a run, in order; those of `commit` are not among them. -/
def storesOf (tr : List (Bcache × BioAct)) : List (Nat × Block) :=
  tr.flatMap fun e => e.1.stored e.2

/-- No block of the log is passed to `log_write`. -/
def LogsHome (sb : Superblock) (c : Bcache) : BioAct → Prop
  | .logWrite _ i => ¬ sb.inLog (c.buf i).blockno
  | _ => True

instance (sb : Superblock) (c : Bcache) : ∀ a, Decidable (LogsHome sb c a)
  | .logWrite _ i => inferInstanceAs (Decidable (¬ sb.inLog (c.buf i).blockno))
  | .bget .. | .acquire .. | .store .. | .bwrite .. | .brelse .. | .beginOp | .endOp | .commit .. =>
    isTrue trivial

theorem step_of_next (h : c.next sb a = some c') : c.step sb a = some (.ok c') := by
  unfold next at h
  split at h
  · next hs =>
    cases h
    exact hs
  · cases h

/-- **One action** keeps the invariant. A home block changes only if a
process stores in it. -/
theorem BioInv.step (h : BioInv d c) (hn : c.next sb a = some c') :
    BioInv d c' ∧ (LogOk sb c.lh → LogsHome sb c a →
      LogOk sb c'.lh ∧ ∀ b, ¬ sb.inLog b → c'.mem d b = writeAll (c.mem d) (c.stored a) b) := by
  have hs := step_of_next hn
  cases a with
  | bget pid b =>
    obtain ⟨⟨w, c₁⟩, hg, rfl⟩ := map_eq_ok (Option.some.inj hs)
    obtain ⟨hi, ho, hst, -⟩ := bget_spec h hg
    refine ⟨hi, fun hok _ => ⟨ho.lh ▸ hok, fun b _ => ?_⟩⟩
    rw [mem_of_stores hst]
    rfl
  | acquire w =>
    simp only [Bcache.step] at hs
    split at hs
    · next hw =>
      obtain ⟨hi, ho, hst, -⟩ := acquire_spec h hw (Option.some.inj hs)
      refine ⟨hi, fun hok _ => ⟨ho.lh ▸ hok, fun b _ => ?_⟩⟩
      rw [mem_of_stores hst]
      rfl
    · cases hs
  | store pid i x =>
    simp only [Bcache.step] at hs
    split at hs
    · next hl =>
      cases hs
      have hlock : (c.buf i).lock.isSome := by simp [hl]
      obtain ⟨hi, ho, hm⟩ := setData_spec h hlock x
      exact ⟨hi, fun hok _ => ⟨ho.lh ▸ hok, fun b _ => congrFun hm b⟩⟩
    · cases hs
  | logWrite pid i =>
    simp only [Bcache.step] at hs
    split at hs
    · next hl =>
      obtain ⟨hi, hst, hlh, -, hn⟩ := logWrite_spec h (by simp [hl]) (Option.some.inj hs)
      refine ⟨hi, fun hok hhome => ⟨hlh ▸ hok.absorb hhome hn, fun b _ => ?_⟩⟩
      rw [mem_of_stores hst]
      rfl
    · cases hs
  | bwrite pid i =>
    obtain ⟨hi, ho, hst, -⟩ := bwrite_spec h (Option.some.inj hs)
    refine ⟨hi, fun hok _ => ⟨ho.lh ▸ hok, fun b _ => ?_⟩⟩
    rw [mem_of_stores hst]
    rfl
  | brelse pid i =>
    simp only [Bcache.step] at hs
    split at hs
    · cases hs
    rename_i hch
    obtain ⟨hi, ho, hst⟩ := brelse_spec h (by simpa using hch) (Option.some.inj hs)
    refine ⟨hi, fun hok _ => ⟨ho.lh ▸ hok, fun b _ => ?_⟩⟩
    rw [mem_of_stores hst]
    rfl
  | beginOp =>
    simp only [Bcache.step, beginOp] at hs
    split at hs
    · cases hs
    · split at hs
      · cases hs
      · cases hs
        exact ⟨⟨h.coherent, h.refs, h.held, h.waits, h.dirty, h.changed⟩,
          fun hok _ => ⟨hok, fun _ _ => rfl⟩⟩
  | endOp =>
    simp only [Bcache.step, endOp] at hs
    split at hs
    · cases hs
    · split at hs <;> cases hs <;>
        exact ⟨⟨h.coherent, h.refs, h.held, h.waits, h.dirty, h.changed⟩,
          fun hok _ => ⟨hok, fun _ _ => rfl⟩⟩
  | commit pid =>
    simp only [Bcache.step] at hs
    split at hs
    · obtain ⟨c₁, hc, rfl⟩ := map_eq_ok (Option.some.inj hs)
      obtain ⟨hi, hm⟩ := commit_spec h hc
      exact ⟨⟨hi.coherent, hi.refs, hi.held, hi.waits, hi.dirty, hi.changed⟩,
        fun hok _ => hm hok⟩
    · cases hs

theorem bioInv_binit (d : Nat → Block) (n : Nat) : BioInv d (binit d n) := by
  refine ⟨⟨fun {i j a} hi => ?_, fun {i a v} hi => ?_, fun a _ => rfl⟩, fun i => rfl,
    fun i hi => ?_,
    fun w hw => ?_, fun i hi => ?_, fun i hi => ?_⟩
  · simp [cache, binit, Buffer.line] at hi
  · simp [cache, binit, Buffer.line] at hi
  · cases hi
  · cases hw
  · cases hi
  · cases hi

theorem bioInv_run (hr : Run (next sb) (binit d n) tr c) : BioInv d c :=
  hr.always (bioInv_binit d n) fun _ _ _ hi hn => (hi.step hn).1

theorem mem_run (hr : Run (next sb) (binit d n) tr c) (hok : Meets (LogsHome sb) tr) :
    LogOk sb c.lh ∧ ∀ b, ¬ sb.inLog b → c.mem d b = writeAll d (storesOf tr) b := by
  refine Run.history (I := fun tr c => LogOk sb c.lh ∧
    ∀ b, ¬ sb.inLog b → c.mem d b = writeAll d (storesOf tr) b)
    ⟨logOk_of_empty rfl, fun _ _ => rfl⟩ ?_ hr hok
  intro tr s a s' hr hi ha hn
  obtain ⟨hlog, hmem⟩ := ((bioInv_run hr).step hn).2 hi.1 ha
  refine ⟨hlog, fun b hb => ?_⟩
  rw [hmem b hb, storesOf, List.flatMap_append, writeAll_append, List.flatMap_singleton]
  exact writeAll_agree (.inr (hi.2 b hb))

/-- **The buffer cache is transparent.** In every run, no two buffers have
the same block of the root device, and a `bread` returns, locked, a buffer
of the block it was called for, with what was last stored in that block
through any buffer, or with what the disk held at first. The blocks that
`commit` stores are counted there; unless a block of the log itself is
passed to `log_write`, they need not be for a block outside the log: what
`bread` returns is then what a PROCESS last stored. -/
theorem bread_transparent {sb : Superblock} {n : Nat} {tr : List (Bcache × BioAct)}
    (hr : Run (next sb) (binit d n) tr c) :
    (∀ i j, (c.buf i).dev = rootdev → (c.buf j).dev = rootdev →
      (c.buf i).blockno = (c.buf j).blockno → i = j) ∧
    (∀ w c', w ∈ c.waiting → c.acquire w = .ok c' →
      (c'.buf w.buf).lock = some w.pid ∧ (c'.buf w.buf).dev = rootdev ∧
      (c'.buf w.buf).blockno = w.blockno ∧
      (c'.buf w.buf).data = writeAll d c.stores w.blockno ∧
      (Meets (LogsHome sb) tr → ¬ sb.inLog w.blockno →
        (c'.buf w.buf).data = writeAll d (storesOf tr) w.blockno)) := by
  have h := bioInv_run hr
  refine ⟨fun i j hi hj hb => ?_, fun w c' hw ha => ?_⟩
  · have hti : (c.cache.line i).tag = some (c.buf i).blockno := Buffer.line_tag hi
    have htj : (c.cache.line j).tag = some (c.buf j).blockno := Buffer.line_tag hj
    rw [← hb] at htj
    exact h.coherent.one hti htj
  · obtain ⟨hi, -, hst, -, hl, hb, -⟩ := acquire_spec h hw ha
    have hlock : (c'.buf w.buf).lock.isSome := by simp [hl]
    have hdata : (c'.buf w.buf).data = writeAll d c.stores w.blockno := by
      rw [hi.data hlock, hb, mem, hst]
    refine ⟨hl, (hi.held _ hlock).1, hb, hdata, fun hok hhome => ?_⟩
    rw [hdata]
    exact (mem_run hr hok).2 _ hhome

end

/-- One process logs block 50, commits it, and reads 30 other blocks, so
that block 50 loses its buffer; then it asks for block 50 again. -/
def evicted : List (Bcache × BioAct) × Bcache :=
  (follow (next ⟨2, 30⟩) (binit (fun _ _ => 0) 1000)
    ([.beginOp, .bget 1 50, .acquire ⟨1, 0, 50⟩, .store 1 0 (fun _ => 7), .logWrite 1 0,
      .brelse 1 0,
      .endOp, .commit 1] ++
      ((List.range 27).map (· + 3) ++ [1, 0, 2]).flatMap (fun k =>
        [.bget 1 (100 + k), .acquire ⟨1, Fin.ofNat nbuf k, 100 + k⟩, .brelse 1 (Fin.ofNat nbuf k)])
      ++ [.bget 1 50])).get (by decide +kernel)

/-- What that `bread` leaves. -/
def readAgain : Bcache := (evicted.2.acquire ⟨1, 3, 50⟩).toOption.get (by decide +kernel)

theorem bread_transparent_evicted :
    (∃ e ∈ evicted.1, (e.1.buf 0).blockno = 50 ∧ (evicted.2.buf 0).blockno ≠ 50) ∧
    (readAgain.buf 3).data = writeAll (fun _ _ => 0) (storesOf evicted.1) 50 ∧
    (readAgain.buf 3).data 0 = 7 := by
  have hr : Run (next ⟨2, 30⟩) (binit (fun _ _ => 0) 1000) evicted.1 evicted.2 := run_get _
  obtain ⟨hev, hw, hok, hseven⟩ :
      (∃ e ∈ evicted.1, (e.1.buf 0).blockno = 50 ∧ (evicted.2.buf 0).blockno ≠ 50) ∧
      ⟨1, 3, 50⟩ ∈ evicted.2.waiting ∧ Meets (LogsHome ⟨2, 30⟩) evicted.1 ∧
      (readAgain.buf 3).data 0 = 7 := by
    decide +kernel
  obtain ⟨-, -, -, -, hdata⟩ := (bread_transparent hr).2 ⟨1, 3, 50⟩ readAgain hw
    (eq_ok_of_toOption (Option.some_get _).symm)
  have hlast := hdata hok (by decide)
  dsimp only at hlast
  exact ⟨hev, hlast, hseven⟩

end Bcache

end Xv6.Fs
