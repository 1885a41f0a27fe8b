/-
Xv6.Fs.Icache — what the entries of the inode cache mean, whatever the
disk looks like.

`CacheInv n s`: an inode has at most one entry in use, an entry in use
that is valid shows the inode on the disk, which is not free, and `n` is
how many references there are to each entry. Nothing is asked of the
blocks.

1. Changes to an entry.
2. What `iget`, `idup`, `ilock`, `iunlock` and `iput` do, as equations.
3. Each of them keeps `CacheInv`.
-/
import Xv6.Fs.Inode
import Xv6.Lib.Hoare

namespace Xv6.Fs

open Xv6.Lib Function

variable {b : Blocks} {d : Dinode} {s' : FileSys} {inum : Nat} {u : Unit}

/-! ## 1. Entries -/

variable {s s' : FileSys} {ip ip' : InodeIx} {f : Inode → Inode} {u : Unit}

@[simp] theorem setInode_self : (s.setInode ip f).icache ip = f (s.icache ip) := by
  simp [FileSys.setInode]

theorem setInode_of_ne (h : ip' ≠ ip) : (s.setInode ip f).icache ip' = s.icache ip' := by
  simp [FileSys.setInode, h]

@[simp] theorem setInode_blocks : (s.setInode ip f).blocks = s.blocks := rfl

@[simp] theorem setInode_dinode : (s.setInode ip f).dinode = s.dinode := rfl

@[simp] theorem setInode_ninodes : (s.setInode ip f).ninodes = s.ninodes := rfl

theorem setInode_setInode (f g : Inode → Inode) :
    (s.setInode ip f).setInode ip g = s.setInode ip fun x => g (f x) := by
  simp [FileSys.setInode]

/-- The inode of entry `ip` is `d` with blocks `b`, in memory and on the
disk. -/
def FileSys.stored (s : FileSys) (ip : InodeIx) (d : Dinode) (b : Blocks) : FileSys :=
  ({ s with
      blocks := b
      dinode := update s.dinode (s.icache ip).inum d }).setInode ip
    fun x => { x with din := d }

theorem stored_entry (s : FileSys) (ip : InodeIx) (d : Dinode) (b : Blocks) (q : InodeIx) :
    ((s.stored ip d b).icache q).inum = (s.icache q).inum ∧
      ((s.stored ip d b).icache q).ref = (s.icache q).ref ∧
      ((s.stored ip d b).icache q).valid = (s.icache q).valid ∧
      ((s.stored ip d b).icache q).locked = (s.icache q).locked ∧
      ((s.stored ip d b).icache q).din = if q = ip then d else (s.icache q).din := by
  by_cases hq : q = ip
  · subst hq
    simp [FileSys.stored]
  · simp [FileSys.stored, FileSys.setInode, hq]

/-- What `ifree` does to the state. -/
def FileSys.freed (s : FileSys) (ip : InodeIx) (d : Dinode) (b : Blocks) : FileSys :=
  ({ s with
      blocks := b
      dinode := update s.dinode (s.icache ip).inum { d with type := .free } }).setInode ip
    fun x => { x with valid := false, din := { d with type := .free } }

theorem freed_entry (q : InodeIx) : ((s.freed ip d b).icache q).ref = (s.icache q).ref ∧
      ((s.freed ip d b).icache q).locked = (s.icache q).locked ∧
      (q ≠ ip → (s.freed ip d b).icache q = s.icache q) := by
  by_cases hq : q = ip
  · subst hq
    simp [FileSys.freed]
  · simp [FileSys.freed, FileSys.setInode, hq]

/-! ## 2. The calls -/

theorem setInode_ok {f : Inode → Inode} :
    setInode ip f s = .ok (u, s') ↔ s.setInode ip f = s' := by
  simp [setInode, modify_run]

theorem acquiresleep_ok : acquiresleep ip s = .ok (u, s') ↔
    (s.icache ip).locked = false ∧ (s.setInode ip fun x => { x with locked := true }) = s' := by
  simp [acquiresleep, bind_run, get_run, ite_run, throw_run, setInode_ok]

theorem releasesleep_ok : releasesleep ip s = .ok (u, s') ↔
    (s.setInode ip fun x => { x with locked := false }) = s' :=
  setInode_ok

theorem iload_ok : iload ip s = .ok (u, s') ↔
    ((s.icache ip).valid = true ∧ s = s') ∨
    ((s.icache ip).valid = false ∧ (s.dinode (s.icache ip).inum).type ≠ .free ∧
      (s.setInode ip fun x => { x with valid := true, din := s.dinode x.inum }) = s') := by
  simp [iload, bind_run, get_run, ite_run, pure_run, throw_run, setInode_ok]

theorem iupdate_ok : iupdate ip s = .ok (u, s') ↔
    { s with dinode := update s.dinode (s.icache ip).inum (s.icache ip).din } = s' := by
  simp [iupdate, modify_run]

theorem cached_some (h : s.cached inum = some ip) :
    0 < (s.icache ip).ref ∧ (s.icache ip).inum = inum := by
  simpa using List.find?_some h

theorem cached_none (h : s.cached inum = none) (ip : InodeIx) :
    0 < (s.icache ip).ref → (s.icache ip).inum ≠ inum := by
  have := List.find?_eq_none.mp h ip (List.mem_finRange ip)
  simpa using this

theorem empty_some (h : s.empty = some ip) : (s.icache ip).ref = 0 := by
  simpa using List.find?_some h

theorem freeInode_some {i : Nat} (h : s.freeInode = some i) :
    i < s.ninodes ∧ 1 ≤ i ∧ (s.dinode i).type = .free := by
  have h1 := List.mem_of_find?_eq_some h
  have h2 := List.find?_some h
  simp only [List.mem_range] at h1
  simp only [decide_eq_true_eq] at h2
  exact ⟨h1, h2⟩

/-- **`iget`**: the entry that has the inode, or an unused one. -/
theorem iget_ok (h : iget inum s = .ok (ip, s')) :
    (0 < (s.icache ip).ref ∧ (s.icache ip).inum = inum ∧
      s' = s.setInode ip fun x => { x with ref := x.ref + 1 }) ∨
    ((s.icache ip).ref = 0 ∧ (∀ i, 0 < (s.icache i).ref → (s.icache i).inum ≠ inum) ∧
      s' = s.setInode ip fun x => { x with inum := inum, ref := 1, valid := false }) := by
  simp only [iget, bind_run, get_run] at h
  obtain ⟨_, _, hg, h⟩ := h
  cases hg
  cases hc : s.cached inum with
  | some i =>
    simp only [hc, bind_run, setInode_ok, pure_run] at h
    obtain ⟨_, _, rfl, hr⟩ := h
    cases hr
    obtain ⟨h1, h2⟩ := cached_some hc
    exact .inl ⟨h1, h2, rfl⟩
  | none =>
    cases he : s.empty with
    | none => simp [hc, he, throw_run] at h
    | some i =>
      simp only [hc, he, bind_run, setInode_ok, pure_run] at h
      obtain ⟨_, _, rfl, hr⟩ := h
      cases hr
      exact .inr ⟨empty_some he, cached_none hc, rfl⟩

/-- The entry `ip` with one reference more. -/
def FileSys.hold (s : FileSys) (ip : InodeIx) : FileSys :=
  s.setInode ip fun x => { x with ref := x.ref + 1 }

/-- The unused entry `ip` taken for an inode. -/
def FileSys.recycle (s : FileSys) (ip : InodeIx) (inum : Nat) : FileSys :=
  s.setInode ip fun x => { x with inum := inum, ref := 1, valid := false }

/-- The entry `ip` with one reference less. -/
def FileSys.drop (s : FileSys) (ip : InodeIx) : FileSys :=
  s.setInode ip fun x => { x with ref := x.ref - 1 }

theorem iget_eq (inum : Nat) (s : FileSys) : iget inum s =
    match s.cached inum, s.empty with
    | some ip, _ => .ok (ip, s.hold ip)
    | none, some ip => .ok (ip, s.recycle ip inum)
    | none, none => .error "iget: no inodes" := by
  simp only [iget, bind, StateT.bind, get, getThe, MonadStateOf.get, StateT.get, pure,
    Except.pure, Except.bind]
  cases s.cached inum with
  | some ip => rfl
  | none =>
    cases s.empty with
    | some ip => rfl
    | none => rfl

theorem iget_locked (h : iget inum s = .ok (ip, s')) (q : InodeIx) :
    (s'.icache q).locked = (s.icache q).locked := by
  rcases iget_ok h with ⟨-, -, rfl⟩ | ⟨-, -, rfl⟩
  · by_cases hq : q = ip
    · subst hq
      simp
    · rw [setInode_of_ne hq]
  · by_cases hq : q = ip
    · subst hq
      simp
    · rw [setInode_of_ne hq]

/-- **`idup`**. -/
theorem idup_ok {i : InodeIx} : idup ip s = .ok (i, s') ↔
    i = ip ∧ s' = s.setInode ip fun x => { x with ref := x.ref + 1 } := by
  simp only [idup, bind_run, setInode_ok, pure_run, Prod.mk.injEq]
  constructor
  · rintro ⟨_, _, rfl, rfl, rfl⟩
    exact ⟨rfl, rfl⟩
  · rintro ⟨rfl, rfl⟩
    exact ⟨⟨⟩, _, rfl, rfl, rfl⟩

/-- **`ilock`**: the entry is locked, and read if it was not valid. -/
theorem ilock_ok (h : ilock ip s = .ok (u, s')) :
    0 < (s.icache ip).ref ∧ (s.icache ip).locked = false ∧
    (((s.icache ip).valid = true ∧ s' = s.setInode ip fun x => { x with locked := true }) ∨
      ((s.icache ip).valid = false ∧ (s.dinode (s.icache ip).inum).type ≠ .free ∧
        s' = s.setInode ip fun x =>
          { x with locked := true, valid := true, din := s.dinode x.inum })) := by
  simp only [ilock, bind_run, get_run, ite_run, throw_run, and_false, false_or] at h
  obtain ⟨_, _, hg, hr, _, s₁, ha, hl⟩ := h
  cases hg
  obtain ⟨hlock, rfl⟩ := acquiresleep_ok.mp ha
  refine ⟨by omega, hlock, ?_⟩
  rcases iload_ok.mp hl with ⟨hv, rfl⟩ | ⟨hv, ht, rfl⟩
  · exact .inl ⟨by simpa using hv, rfl⟩
  · refine .inr ⟨by simpa using hv, by simpa using ht, ?_⟩
    rw [setInode_setInode]
    rfl

/-- The entry `ip` locked, with its inode as on the disk. -/
def FileSys.lock (s : FileSys) (ip : InodeIx) : FileSys :=
  s.setInode ip fun x => { x with locked := true, valid := true, din := s.dinode x.inum }

/-- The entry `ip` without its lock. -/
def FileSys.unlock (s : FileSys) (ip : InodeIx) : FileSys :=
  s.setInode ip fun x => { x with locked := false }

/-- `ilock` returns where the lock is free and the inode is not; the entry
shows its inode then. -/
theorem ilock_returns (hr : 0 < (s.icache ip).ref) (hl : (s.icache ip).locked = false)
    (hv : (s.icache ip).valid = true → (s.icache ip).din = s.dinode (s.icache ip).inum)
    (hf : (s.dinode (s.icache ip).inum).type ≠ .free) :
    ilock ip s = .ok ((), s.lock ip) := by
  have hload : ∀ s', acquiresleep ip s = .ok ((), s') → iload ip s' = .ok ((), s.lock ip) := by
    intro s' ha
    obtain ⟨-, rfl⟩ := acquiresleep_ok.mp ha
    rw [iload_ok]
    by_cases hvalid : (s.icache ip).valid = true
    · refine .inl ⟨by simpa using hvalid, ?_⟩
      have hself : ({ s.icache ip with
          locked := true, valid := true, din := s.dinode (s.icache ip).inum } : Inode) =
          { s.icache ip with locked := true } := by
        rw [← hv hvalid, ← hvalid]
      simp only [FileSys.lock, FileSys.setInode, hself]
    · refine .inr ⟨by simpa using hvalid, by simpa using hf, ?_⟩
      rw [setInode_setInode]
      rfl
  have hacq : acquiresleep ip s = .ok ((), s.setInode ip fun x => { x with locked := true }) :=
    acquiresleep_ok.mpr ⟨hl, rfl⟩
  simp only [ilock, bind_run, get_run, ite_run]
  exact ⟨s, s, rfl, .inr ⟨by omega, (), _, hacq, hload _ hacq⟩⟩

theorem iunlock_returns (hr : 0 < (s.icache ip).ref) (hl : (s.icache ip).locked = true) :
    iunlock ip s = .ok ((), s.unlock ip) := by
  simp only [iunlock, bind_run, get_run, ite_run, releasesleep_ok]
  refine ⟨s, s, rfl, .inr ⟨?_, rfl⟩⟩
  simp only [hl, Bool.true_eq_false, false_or]
  omega

/-- **`iunlock`**. -/
theorem iunlock_ok (h : iunlock ip s = .ok (u, s')) :
    (s.icache ip).locked = true ∧ 0 < (s.icache ip).ref ∧
      s' = s.setInode ip fun x => { x with locked := false } := by
  simp only [iunlock, bind_run, get_run, ite_run, throw_run, and_false, false_or,
    releasesleep_ok] at h
  obtain ⟨_, _, hg, hn, rfl⟩ := h
  cases hg
  simp only [not_or, Bool.not_eq_false, Nat.not_lt] at hn
  exact ⟨hn.1, hn.2, rfl⟩

theorem ifree_ok (h : ifree ip s = .ok (u, s')) :
    ∃ d b, s.blocks.itrunc (s.icache ip).din = .ok (d, b) ∧ s' = s.freed ip d b := by
  simp only [ifree, itrunc, bind_run, get_run, setInode_ok, iupdate_ok] at h
  obtain ⟨_, s₁, ⟨_, _, hg, hi⟩, _, _, rfl, _, _, rfl, rfl⟩ := h
  cases hg
  cases ht : s.blocks.itrunc (s.icache ip).din with
  | error m => simp [ht, throw_run] at hi
  | ok r =>
    obtain ⟨d, b⟩ := r
    simp only [ht, bind_run, set_run, iupdate_ok] at hi
    obtain ⟨_, _, hset, rfl⟩ := hi
    cases hset
    refine ⟨d, b, rfl, ?_⟩
    simp [FileSys.freed, FileSys.setInode]

theorem setInode_lock_unlock (hl : (s.icache ip).locked = false) :
    (s.setInode ip fun x => { x with locked := true }).setInode ip
      (fun x => { x with locked := false }) = s := by
  rw [setInode_setInode]
  cases s with
  | mk ninodes blocks dinode icache devsw =>
    simp only [FileSys.setInode] at hl ⊢
    congr
    rw [← hl]
    exact update_eq_self ip icache

theorem freed_lock_unlock (hl : (s.icache ip).locked = false) :
    ((s.setInode ip fun x => { x with locked := true }).freed ip d b).setInode ip
      (fun x => { x with locked := false }) = s.freed ip d b := by
  simp [FileSys.freed, FileSys.setInode, hl]

/-- The test in `iput`: a valid inode without links, and one reference. -/
def FileSys.Last (s : FileSys) (ip : InodeIx) : Prop :=
  (s.icache ip).valid = true ∧ (s.icache ip).din.nlink = 0 ∧ (s.icache ip).ref = 1
  deriving Decidable

/-- **`iput`**: the inode is freed if the test says so, and the count goes
down. -/
theorem iput_ok (h : iput ip s = .ok (u, s')) :
    (s.icache ip).locked = false ∧
    ((s.Last ip ∧ ∃ d b, s.blocks.itrunc (s.icache ip).din = .ok (d, b) ∧
        s' = (s.freed ip d b).setInode ip fun x => { x with ref := x.ref - 1 }) ∨
      (¬ s.Last ip ∧ s' = s.setInode ip fun x => { x with ref := x.ref - 1 })) := by
  simp only [iput, bind_run, get_run, acquiresleep_ok, ite_run, releasesleep_ok,
    setInode_ok] at h
  obtain ⟨_, _, ⟨hl, rfl⟩, _, _, hg, h⟩ := h
  cases hg
  refine ⟨hl, ?_⟩
  rcases h with ⟨hc, _, _, hf, _, _, rfl, rfl⟩ | ⟨hc, _, _, rfl, rfl⟩
  · obtain ⟨d, b, ht, rfl⟩ := ifree_ok hf
    rw [freed_lock_unlock hl]
    simp only [setInode_self] at hc ht
    exact .inl ⟨hc, d, b, by simpa using ht, rfl⟩
  · rw [setInode_lock_unlock hl]
    simp only [setInode_self] at hc
    exact .inr ⟨hc, rfl⟩

theorem iput_locked (hl : (s.icache ip).locked = true) : iput ip s = .error "deadlock" := by
  simp [iput, acquiresleep, bind, StateT.bind, get, getThe, MonadStateOf.get, StateT.get, pure,
    Except.pure, Except.bind, hl, throw, throwThe, MonadExceptOf.throw, StateT.lift]

theorem iput_returns (hl : (s.icache ip).locked = false) (hlast : ¬ s.Last ip) :
    iput ip s = .ok ((), s.drop ip) := by
  have hacq : acquiresleep ip s = .ok ((), s.setInode ip fun x => { x with locked := true }) :=
    acquiresleep_ok.mpr ⟨hl, rfl⟩
  have hrel : releasesleep ip (s.setInode ip fun x => { x with locked := true }) = .ok ((), s) :=
    releasesleep_ok.mpr (setInode_lock_unlock hl)
  have hdrop : setInode ip (fun x => { x with ref := x.ref - 1 }) s = .ok ((), s.drop ip) :=
    setInode_ok.mpr rfl
  simp only [iput, bind_run, get_run, ite_run]
  refine ⟨(), _, hacq, _, _, rfl, .inr ⟨?_, (), s, hrel, hdrop⟩⟩
  simpa [FileSys.Last] using hlast

/-! ## 3. The invariant -/

/-- What the entries mean, with `n` references to each. -/
structure CacheInv (n : InodeIx → Nat) (s : FileSys) : Prop where
  agree : ∀ ip, 0 < (s.icache ip).ref → (s.icache ip).valid = true →
    (s.icache ip).din = s.dinode (s.icache ip).inum ∧ (s.icache ip).din.type ≠ .free
  uniq : ∀ ip ip', 0 < (s.icache ip).ref → 0 < (s.icache ip').ref →
    (s.icache ip).inum = (s.icache ip').inum → ip = ip'
  refs : ∀ ip, (s.icache ip).ref = n ip

theorem update_count_cons (base : InodeIx → Nat) (R : List InodeIx) (ip i : InodeIx) :
    update (fun i => base i + R.count i) ip (base ip + R.count ip + 1) i =
      base i + (ip :: R).count i := by
  by_cases hi : i = ip
  · subst hi
    rw [update_self, List.count_cons_self]
    omega
  · rw [update_of_ne hi, List.count_cons_of_ne (Ne.symm hi)]

theorem update_count_erase (base : InodeIx → Nat) {R : List InodeIx} {ip : InodeIx} (h : ip ∈ R)
    (i : InodeIx) :
    update (fun i => base i + R.count i) ip (base ip + R.count ip - 1) i =
      base i + (R.erase ip).count i := by
  have hpos : 0 < R.count ip := List.count_pos_iff.mpr h
  by_cases hi : i = ip
  · subst hi
    rw [update_self, List.count_erase_self]
    omega
  · rw [update_of_ne hi, List.count_erase_of_ne hi]

namespace CacheInv

variable {n : InodeIx → Nat} {s : FileSys} {ip : InodeIx} {f : Inode → Inode} {m : Nat}

section
variable (h : CacheInv n s)
include h

/-- An entry may change as long as it agrees with the disk and with the
other entries. -/
theorem setInode
    (ha : 0 < (f (s.icache ip)).ref → (f (s.icache ip)).valid = true →
      (f (s.icache ip)).din = s.dinode (f (s.icache ip)).inum ∧ (f (s.icache ip)).din.type ≠ .free)
    (hu : 0 < (f (s.icache ip)).ref → ∀ ip', ip' ≠ ip → 0 < (s.icache ip').ref →
      (s.icache ip').inum ≠ (f (s.icache ip)).inum)
    (hm : (f (s.icache ip)).ref = m) : CacheInv (update n ip m) (s.setInode ip f) := by
  refine ⟨fun i => ?_, fun i i' hi hi' heq => ?_, fun i => ?_⟩
  · by_cases hi : i = ip
    · subst hi
      rw [setInode_self]
      exact ha
    · rw [setInode_of_ne hi]
      exact h.agree i
  · by_cases h1 : i = ip <;> by_cases h2 : i' = ip
    · rw [h1, h2]
    · subst h1
      rw [setInode_self] at hi heq
      rw [setInode_of_ne h2] at hi' heq
      exact absurd heq.symm (hu hi i' h2 hi')
    · subst h2
      rw [setInode_self] at hi' heq
      rw [setInode_of_ne h1] at hi heq
      exact absurd heq (hu hi' i h1 hi)
    · rw [setInode_of_ne h1] at hi heq
      rw [setInode_of_ne h2] at hi' heq
      exact h.uniq i i' hi hi' heq
  · by_cases hi : i = ip
    · subst hi
      rw [setInode_self, update_self]
      exact hm
    · rw [setInode_of_ne hi, update_of_ne hi]
      exact h.refs i

theorem touch (hf : ∀ x, (f x).inum = x.inum ∧ (f x).valid = x.valid ∧ (f x).din = x.din)
    (hr : 0 < (f (s.icache ip)).ref → 0 < (s.icache ip).ref) (hm : (f (s.icache ip)).ref = m) :
    CacheInv (update n ip m) (s.setInode ip f) := by
  obtain ⟨h1, h2, h3⟩ := hf (s.icache ip)
  refine h.setInode (fun hr' hv => ?_) (fun hr' i hi hi0 heq => ?_) hm
  · rw [h1, h3]
    rw [h2] at hv
    exact h.agree ip (hr hr') hv
  · rw [h1] at heq
    exact hi (h.uniq i ip hi0 (hr hr') heq)

theorem addRef (hr : 0 < (s.icache ip).ref) :
    CacheInv (update n ip (n ip + 1))
      (s.setInode ip fun x => { x with ref := x.ref + 1 }) :=
  h.touch (fun _ => ⟨rfl, rfl, rfl⟩) (fun _ => hr) (congrArg (· + 1) (h.refs ip))

theorem dropRef :
    CacheInv (update n ip (n ip - 1))
      (s.setInode ip fun x => { x with ref := x.ref - 1 }) :=
  h.touch (fun _ => ⟨rfl, rfl, rfl⟩) (fun hr => by simp only at hr; omega)
    (congrArg (· - 1) (h.refs ip))

/-- **`iget`** takes a reference to an entry for the inode. -/
theorem iget (hi : iget inum s = .ok (ip, s')) :
    CacheInv (update n ip (n ip + 1)) s' ∧ (s'.icache ip).inum = inum := by
  rcases iget_ok hi with ⟨hr, hin, rfl⟩ | ⟨h0, hno, rfl⟩
  · exact ⟨h.addRef hr, by simpa using hin⟩
  · refine ⟨h.setInode (fun _ hv => by cases hv) (fun _ i _ hi => hno i hi) ?_, by simp⟩
    rw [← h.refs ip, h0]

/-- **`ilock`** changes no count. -/
theorem ilock (hi : ilock ip s = .ok (u, s')) : CacheInv n s' ∧ (s'.icache ip).valid = true := by
  obtain ⟨hr, -, ⟨hv, rfl⟩ | ⟨-, ht, rfl⟩⟩ := ilock_ok hi
  · have := h.touch (f := fun x => { x with locked := true }) (fun _ => ⟨rfl, rfl, rfl⟩)
      (fun _ => hr) (h.refs ip)
    rw [update_eq_self] at this
    exact ⟨this, by simpa using hv⟩
  · have hset : CacheInv (update n ip (n ip)) (s.setInode ip fun x =>
        { x with locked := true, valid := true, din := s.dinode x.inum }) :=
      h.setInode (fun _ _ => ⟨rfl, ht⟩) (fun _ i hi hi0 heq => hi (h.uniq i ip hi0 hr heq))
        (h.refs ip)
    rw [update_eq_self] at hset
    exact ⟨hset, by simp⟩

/-- **`iunlock`** changes no count. -/
theorem iunlock (hi : iunlock ip s = .ok (u, s')) : CacheInv n s' := by
  obtain ⟨-, hr, rfl⟩ := iunlock_ok hi
  have := h.touch (f := fun x => { x with locked := false }) (fun _ => ⟨rfl, rfl, rfl⟩)
    (fun _ => hr) (h.refs ip)
  rwa [update_eq_self] at this

theorem stored (hr : 0 < (s.icache ip).ref) (ht : d.type ≠ .free) :
    CacheInv n (s.stored ip d b) := by
  refine ⟨fun q hq hqv => ?_, fun q q' hq hq' heq => ?_, fun q => ?_⟩
  · obtain ⟨e1, e2, e3, -, e5⟩ := stored_entry s ip d b q
    rw [e2] at hq
    rw [e3] at hqv
    rw [e1, e5]
    by_cases hqip : q = ip
    · subst hqip
      simp [FileSys.stored, ht]
    · have hne : (s.icache q).inum ≠ (s.icache ip).inum :=
        fun heq => hqip (h.uniq q ip hq hr heq)
      have hdin : (s.stored ip d b).dinode (s.icache q).inum = s.dinode (s.icache q).inum := by
        simp [FileSys.stored, hne]
      rw [if_neg hqip, hdin]
      exact h.agree q hq hqv
  · obtain ⟨e1, e2, -⟩ := stored_entry s ip d b q
    obtain ⟨e1', e2', -⟩ := stored_entry s ip d b q'
    rw [e2] at hq
    rw [e2'] at hq'
    rw [e1, e1'] at heq
    exact h.uniq q q' hq hq' heq
  · rw [(stored_entry s ip d b q).2.1]
    exact h.refs q

theorem allocInode {i : Nat} {type : InodeType} (hi : s.freeInode = some i) :
    CacheInv n { s with dinode := update s.dinode i { type := type } } := by
  obtain ⟨-, -, hfree⟩ := freeInode_some hi
  refine ⟨fun q hq hv => ?_, h.uniq, h.refs⟩
  obtain ⟨hag, htype⟩ := h.agree q hq hv
  have hne : (s.icache q).inum ≠ i := by
    rintro rfl
    rw [hag] at htype
    exact htype hfree
  simp only
  rw [update_of_ne hne]
  exact ⟨hag, htype⟩

theorem freed (hr : 0 < (s.icache ip).ref) : CacheInv n (s.freed ip d b) := by
  have hinum : ∀ q, ((s.freed ip d b).icache q).inum = (s.icache q).inum := by
    intro q
    by_cases hq : q = ip <;> simp [FileSys.freed, FileSys.setInode, hq]
  refine ⟨fun q hq hqv => ?_, fun q q' hq hq' heq => ?_, fun q => ?_⟩
  · have hqip : q ≠ ip := by
      rintro rfl
      simp [FileSys.freed] at hqv
    rw [(freed_entry q).1] at hq
    rw [(freed_entry q).2.2 hqip] at hqv ⊢
    have hne : (s.icache q).inum ≠ (s.icache ip).inum := fun heq => hqip (h.uniq q ip hq hr heq)
    have hdin : (s.freed ip d b).dinode (s.icache q).inum = s.dinode (s.icache q).inum := by
      simp [FileSys.freed, hne]
    rw [hdin]
    exact h.agree q hq hqv
  · rw [(freed_entry q).1] at hq
    rw [(freed_entry q').1] at hq'
    rw [hinum, hinum] at heq
    exact h.uniq q q' hq hq' heq
  · rw [(freed_entry q).1]
    exact h.refs q

/-- **`iput`** drops a reference. -/
theorem iput (hi : iput ip s = .ok (u, s')) : CacheInv (update n ip (n ip - 1)) s' := by
  obtain ⟨-, ⟨hl, d, b, -, rfl⟩ | ⟨-, rfl⟩⟩ := iput_ok hi
  · have hr : 0 < (s.icache ip).ref := by
      rw [hl.2.2]
      exact Nat.one_pos
    exact (h.freed hr).dropRef
  · exact h.dropRef

end

end CacheInv

end Xv6.Fs
