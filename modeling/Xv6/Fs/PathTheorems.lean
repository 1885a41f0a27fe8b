/-
Xv6.Fs.PathTheorems — a path is walked component by component.

`components path` is what stands between the slashes of a path, without
the empty pieces, each cut to `DIRSIZ` bytes. `skipelem` yields just
these, one after the other.

`walk s d names` looks the names up one after the other, from inode `d`
on, in the directories on the disk. `namei` is this walk, and
`nameiparent` stops one name early. Both give back every reference they
take but that of the result. This asks for the inodes that the walk locks
to be there: `..` of a removed directory may name an inode that is free
by now, and `ilock` of it panics.

1. `skipelem`.
2. The walk.
3. References and locks taken since a state.
4. The loop of `namex`.
5. `namei` and `nameiparent`.
6. A directory without a parent.
-/
import Xv6.Fs.DirTheorems
import Xv6.Fs.Sysfile
import Mathlib.Data.List.TakeWhile

namespace Xv6.Fs

open Xv6.Lib

/-! ## 1. Components -/

/-- The pieces of a path that are not empty. -/
def pieces (path : List UInt8) : List (List UInt8) :=
  (path.splitOn slash).filter (· ≠ [])

variable {path elem rest name : List UInt8} {e : List UInt8 × List UInt8} {s s' : FileSys}
  {d lo : Nat} {names : List (List UInt8)} {ip : InodeIx}

/-- The inode a name leads to from inode `d`, on the disk. -/
def FileSys.child (s : FileSys) (d : Nat) (name : List UInt8) : Option Nat :=
  if (s.dinode d).type = .dir then binding (s.contents d) name else none

/-- The inode the names lead to, one after the other. -/
def FileSys.walk (s : FileSys) (d : Nat) (names : List (List UInt8)) : Option Nat :=
  names.foldlM s.child d

/-- What `namex` finds from inode `d` on; `name` is what is in its buffer. -/
def FileSys.find (s : FileSys) (parent : Bool) :
    Nat → List (List UInt8) → List UInt8 → Option (Nat × List UInt8)
  | d, [], name => if parent then none else some (d, name)
  | d, e :: es, _ =>
    if (s.dinode d).type ≠ .dir then none
    else if parent = true ∧ es = [] then some (d, e)
    else (binding (s.contents d) e).bind fun x => s.find parent x es e

theorem walk_cons (e : List UInt8) (es : List (List UInt8)) :
    s.walk d (e :: es) = (s.child d e).bind fun x => s.walk x es := rfl

/-- Two entries of the cache are unused. -/
def FileSys.Spare (s : FileSys) : Prop :=
  ∃ a b, a ≠ b ∧ (s.icache a).ref = 0 ∧ (s.icache b).ref = 0

/-- Inode `d` is not freed by giving a reference back: it has links, or
someone else holds one. -/
def FileSys.Kept (s : FileSys) (d : Nat) : Prop :=
  (s.dinode d).nlink ≠ 0 ∨ ∃ q, 0 < (s.icache q).ref ∧ (s.icache q).inum = d

/-- State `s'` is as `s`, with the references `R` more, and the lock `L`. -/
structure Visit (s s' : FileSys) (R : List InodeIx) (L : Option InodeIx) : Prop where
  disk : SameDisk s s'
  inv : CacheInv (fun q => (s.icache q).ref + R.count q) s'
  keeps : ∀ q, 0 < (s.icache q).ref → (s'.icache q).inum = (s.icache q).inum
  locks : ∀ q, (s'.icache q).locked = true ↔ L = some q

namespace Visit

variable {s s' s'' : FileSys} {R R' : List InodeIx} {L L' : Option InodeIx} {ip q : InodeIx}
  {x : Nat} {f : Inode → Inode}

theorem ref_pos (h : Visit s s' R L) (hip : ip ∈ R) : 0 < (s'.icache ip).ref := by
  have := List.count_pos_iff.mpr hip
  rw [h.inv.refs]
  omega

theorem unlocked (h : Visit s s' R none) (ip : InodeIx) : (s'.icache ip).locked = false := by
  have := h.locks ip
  simpa using this

/-- One entry changes, and keeps its inode. -/
theorem touch (h : Visit s s' R L)
    (hinv : CacheInv (fun q => (s.icache q).ref + R'.count q) (s'.setInode ip f))
    (hinum : (f (s'.icache ip)).inum = (s'.icache ip).inum)
    (hlock : (f (s'.icache ip)).locked = true ↔ L' = some ip)
    (hrest : ∀ q, q ≠ ip → (L = some q ↔ L' = some q)) : Visit s (s'.setInode ip f) R' L' := by
  refine ⟨h.disk.trans (SameDisk.setInode ..), hinv, fun q hq => ?_, fun q => ?_⟩
  · rw [← h.keeps q hq]
    by_cases hqi : q = ip
    · rw [hqi, setInode_self, hinum]
    · rw [setInode_of_ne hqi]
  · by_cases hqi : q = ip
    · rw [hqi, setInode_self, hlock]
    · rw [setInode_of_ne hqi, h.locks, hrest q hqi]

/-- A reference to the entry of an inode, if the cache is not full. -/
theorem iget (h : Visit s s' R L) (hi : iget x s' = .ok (q, s'')) : Visit s s'' (q :: R) L := by
  obtain ⟨hinv, -⟩ := h.inv.iget hi
  obtain ⟨hs, -, hc⟩ := iget_same hi
  refine ⟨h.disk.trans hs, ?_, fun r hr => ?_, fun r => ?_⟩
  · rw [funext (update_count_cons _ R q)] at hinv
    exact hinv
  · have hpos : 0 < (s'.icache r).ref := by
      rw [h.inv.refs]
      omega
    rw [(hc r hpos).1, h.keeps r hr]
  · rw [iget_locked hi, h.locks]

/-- With one reference taken so far, two unused entries are enough. -/
theorem iget_spare (h : Visit s s' R L) (hs : s.Spare) (hR : R.length ≤ 1) (x : Nat) :
    ∃ q s'', Fs.iget x s' = .ok (q, s'') ∧ Visit s s'' (q :: R) L ∧ (s''.icache q).inum = x := by
  have hget := iget_eq x s'
  cases hc : s'.cached x with
  | some q =>
    rw [hc] at hget
    exact ⟨q, _, hget, h.iget hget, (iget_same hget).2.1⟩
  | none =>
    cases he : s'.empty with
    | some q =>
      rw [hc, he] at hget
      exact ⟨q, _, hget, h.iget hget, (iget_same hget).2.1⟩
    | none =>
      obtain ⟨a, b, hab, ha, hb⟩ := hs
      have hused : ∀ r, (s.icache r).ref = 0 → r ∈ R := by
        intro r hr
        by_contra hnot
        have h0 : (s'.icache r).ref = 0 := by
          rw [h.inv.refs, hr, List.count_eq_zero_of_not_mem hnot]
        have := List.find?_eq_none.mp he r (List.mem_finRange r)
        simp [h0] at this
      match R, hR, hused a ha, hused b hb with
      | [], _, hm, _ => cases hm
      | [r], _, hma, hmb =>
        rw [List.mem_singleton] at hma hmb
        exact absurd (hma.trans hmb.symm) hab

theorem idup (h : Visit s s' R L) (hr : 0 < (s'.icache ip).ref) :
    Visit s (s'.hold ip) (ip :: R) L := by
  have hinv := h.inv.addRef hr
  rw [funext (update_count_cons _ R ip)] at hinv
  exact h.touch hinv rfl (h.locks ip) fun _ _ => Iff.rfl

theorem lock (h : Visit s s' R none) (hip : ip ∈ R)
    (hf : (s.dinode (s'.icache ip).inum).type ≠ .free) :
    ilock ip s' = .ok ((), s'.lock ip) ∧ Visit s (s'.lock ip) R (some ip) := by
  have hl : ilock ip s' = .ok ((), s'.lock ip) :=
    ilock_returns (h.ref_pos hip) (h.unlocked ip) (fun hv => (h.inv.agree ip (h.ref_pos hip) hv).1)
      (by rw [h.disk.dinode]; exact hf)
  exact ⟨hl, h.touch (h.inv.ilock hl).1 rfl (by simp) fun q hq => by simp [Ne.symm hq]⟩

theorem unlock (h : Visit s s' R (some ip)) (hip : ip ∈ R) :
    iunlock ip s' = .ok ((), s'.unlock ip) ∧ Visit s (s'.unlock ip) R none := by
  have hl : iunlock ip s' = .ok ((), s'.unlock ip) :=
    iunlock_returns (h.ref_pos hip) ((h.locks ip).mpr rfl)
  exact ⟨hl, h.touch (h.inv.iunlock hl) rfl (by simp) fun q hq => by simp [Ne.symm hq]⟩

/-- A reference is given back; the inode is not freed. -/
theorem put (h : Visit s s' R none) (hip : ip ∈ R) (hk : s.Kept (s'.icache ip).inum) :
    iput ip s' = .ok ((), s'.drop ip) ∧ Visit s (s'.drop ip) (R.erase ip) none := by
  have hlast : ¬ s'.Last ip := by
    rintro ⟨hv, hn, hr⟩
    rw [(h.inv.agree ip (h.ref_pos hip) hv).1, h.disk.dinode] at hn
    rcases hk with hk | ⟨q, hq, hqi⟩
    · exact hk hn
    · -- the one who holds it has the same entry
      have hq' : 0 < (s'.icache q).ref := by
        rw [h.inv.refs]
        omega
      have heq := h.inv.uniq q ip hq' (h.ref_pos hip) (by rw [h.keeps q hq, hqi])
      subst heq
      have := List.count_pos_iff.mpr hip
      rw [h.inv.refs] at hr
      omega
  have hput := iput_returns (h.unlocked ip) hlast
  have hinv := h.inv.iput hput
  rw [funext (update_count_erase _ hip)] at hinv
  exact ⟨hput, h.touch hinv rfl (h.locks ip) fun _ _ => Iff.rfl⟩

end Visit

/-! ## 4. The loop of `namex` -/

/-- A file system in which paths can be walked: the blocks are in order,
directories are, the root is linked, the cache is in order, and no lock is
held. -/
structure FsTree (lo : Nat) (s : FileSys) : Prop where
  intact : Intact lo s
  dirs : ∀ d, (s.dinode d).type = .dir → DirInv (s.contents d)
  root : (s.dinode rootino).nlink ≠ 0
  cache : CacheInv (fun q => (s.icache q).ref) s
  unlocked : ∀ q, (s.icache q).locked = false

/-- The inodes that a walk locks are allocated, and linked or held. -/
def FileSys.Live (s : FileSys) (d : Nat) (names : List (List UInt8)) : Prop :=
  ∀ xs e ys x, names = xs ++ e :: ys → s.walk d xs = some x →
    (s.dinode x).type ≠ .free ∧ s.Kept x

/-- The walk is at inode `d`, with the one reference `ip`, and locks it. -/
structure At (s s' : FileSys) (ip : InodeIx) (d : Nat) : Prop where
  visit : Visit s s' [ip] none
  inum : (s'.icache ip).inum = d
  alloc : (s.dinode d).type ≠ .free
  kept : s.Kept d

theorem At.lock (h : At s s' ip d) :
    ilock ip s' = .ok ((), s'.lock ip) ∧ Visit s (s'.lock ip) [ip] (some ip) := by
  apply h.visit.lock List.mem_cons_self
  rw [h.inum]
  exact h.alloc

theorem At.din (h : At s s' ip d) : ((s'.lock ip).icache ip).din = s.dinode d := by
  simp [FileSys.lock, h.inum, h.visit.disk.dinode]

/-- A directory that is locked is open. -/
theorem Visit.dirOpen (h : Visit s s' [ip] none) (hi : (s'.icache ip).inum = d) (ht : FsTree lo s)
    (hd : (s.dinode d).type = .dir) :
    DirOpen lo d (s'.lock ip) ip ∧ (s'.lock ip).contents d = s.contents d := by
  obtain ⟨-, hv⟩ := h.lock List.mem_cons_self (by rw [hi, hd]; simp)
  refine ⟨⟨?_, ?_, ?_, ?_, ?_⟩, by rw [hv.disk.contents]⟩
  · exact hv.disk.intact ht.intact
  · simp [Shows, FileSys.lock]
  · simp [FileSys.lock, hi]
  · exact hv.ref_pos List.mem_cons_self
  · rw [hv.disk.dinode, hd]

theorem At.unlockput {R : List InodeIx} (h : At s s' ip d) {s'' : FileSys}
    (hv : Visit s s'' R (some ip)) (hip : ip ∈ R) (hi : (s''.icache ip).inum = d) :
    ∃ s₃, iunlockput ip s'' = .ok ((), s₃) ∧ Visit s s₃ (R.erase ip) none ∧
      ∀ q, (s₃.icache q).inum = (s''.icache q).inum := by
  obtain ⟨hu, hv₂⟩ := hv.unlock hip
  have hk : s.Kept ((s''.unlock ip).icache ip).inum := by
    simpa [FileSys.unlock, hi] using h.kept
  obtain ⟨hp, hv₃⟩ := hv₂.put hip hk
  refine ⟨(s''.unlock ip).drop ip, ?_, hv₃, fun q => ?_⟩
  · rw [iunlockput, bind_of_ok hu]
    exact hp
  · by_cases hq : q = ip
    · subst hq
      simp [FileSys.unlock, FileSys.drop]
    · rw [FileSys.drop, setInode_of_ne hq, FileSys.unlock, setInode_of_ne hq]

/-- A name is looked up, and the directory is left: the walk has the inode
of the name. -/
theorem At.next (h : At s s' ip d) (ht : FsTree lo s) (hs : s.Spare) {e : List UInt8} {x : Nat}
    (hc : s.child d e = some x) :
    ∃ r s₃ s₄, dirlookup ip e (s'.lock ip) = .ok (some r, s₃) ∧
      iunlockput ip s₃ = .ok ((), s₄) ∧ Visit s s₄ [r.1] none ∧ (s₄.icache r.1).inum = x := by
  have hdir : (s.dinode d).type = .dir := by
    by_contra hdir
    simp [FileSys.child, hdir] at hc
  obtain ⟨-, hv⟩ := h.lock
  obtain ⟨hopen, hcont⟩ := h.visit.dirOpen h.inum ht hdir
  have hd : DirInv ((s'.lock ip).contents d) := by
    rw [hcont]
    exact ht.dirs d hdir
  rw [FileSys.child, if_pos hdir] at hc
  obtain ⟨k, hname, rfl⟩ := Option.map_eq_some_iff.mp hc
  rw [← hcont] at hname
  obtain ⟨q, s₃, hget, hv₃, hq⟩ :=
    hv.iget_spare hs (Nat.le_refl _) (inumAt ((s'.lock ip).contents d) k)
  obtain ⟨-, -, hsame⟩ := iget_same hget
  have hi : (s₃.icache ip).inum = d := by
    rw [(hsame ip hopen.ref).1, hopen.inum]
  obtain ⟨s₄, hput, hv₄, hinum⟩ :=
    h.unlockput hv₃ (List.mem_cons_of_mem _ List.mem_cons_self) hi
  have herase : [q, ip].erase ip = [q] := by
    by_cases hqi : q = ip
    · simp [hqi]
    · simp [hqi]
  rw [herase] at hv₄
  refine ⟨(q, direntSize * k), s₃, s₄, dirlookup_some hopen hd hname hget, hput, hv₄, ?_⟩
  rw [hinum, hq, hcont]

/-- What is left of a walk after its first name. -/
theorem FileSys.Live.tail {e : List UInt8} {x : Nat} (h : s.Live d (e :: names))
    (hc : s.child d e = some x) : s.Live x names := by
  intro xs e' ys y hn hw
  refine h (e :: xs) e' ys y (by rw [hn, List.cons_append]) ?_
  rw [walk_cons, hc]
  exact hw

/-- The inode a path starts from. -/
def FileSys.start (s : FileSys) (cwd : InodeIx) (path : List UInt8) : Nat :=
  if path.head? = some slash then rootino else (s.icache cwd).inum

theorem FsTree.visit (ht : FsTree lo s) : Visit s s [] none where
  disk := ⟨rfl, rfl, rfl, rfl⟩
  inv := by simpa using ht.cache
  keeps _ _ := rfl
  locks q := by simp [ht.unlocked q]

end Xv6.Fs
