/-
Xv6.Fs.IcacheTheorems — references to inodes, over whole runs.

The machine makes the calls of `fs.c` one after the other, in any order
and by any holders, on any disk; `refs` lists the references that were
obtained and not put. A call that would have to wait for a lock is not a
step, nor is one that panics. Besides the five calls on the cache it has
`ialloc`, and whatever code does to an inode that it has locked: other
fields and other file blocks, and then `iupdate`.

`icache_references` is the result. An entry that is in use and valid
shows the inode on the disk. An UNUSED entry keeps what it had, and shows
the disk only as long as nobody writes inodes: `iget` reads the inode
again before it is used, so nothing depends on it.
-/
import Xv6.Fs.ContentTheorems
import Xv6.Fs.Icache
import Xv6.Lib.Run

namespace Xv6.Fs

open Xv6.Lib

variable {s : FileSys} {ip : InodeIx}

/-- The file system, and the references that were obtained and not put. -/
structure Icache where
  fs : FileSys
  refs : List InodeIx

inductive IcacheAct where
  | iget (inum : Nat)
  | idup (ip : InodeIx)
  | ilock (ip : InodeIx)
  | iunlock (ip : InodeIx)
  | iput (ip : InodeIx)
  | ialloc (type : InodeType)
  /-- A locked inode gets other fields and other blocks. -/
  | update (ip : InodeIx) (d : Dinode) (b : Blocks)

/-- Fields and blocks are changed, and the inode is written. -/
def change (ip : InodeIx) (d : Dinode) (b : Blocks) : FsM Unit := do
  modify fun s => { s with blocks := b }
  setInode ip fun x => { x with din := d }
  iupdate ip

namespace Icache

/-- One call; `none` if the caller may not make it. -/
def step (c : Icache) : IcacheAct → Option (Except String Icache)
  | .iget inum => some ((iget inum c.fs).map fun r => ⟨r.2, r.1 :: c.refs⟩)
  | .idup ip =>
    if ip ∈ c.refs then some ((idup ip c.fs).map fun r => ⟨r.2, r.1 :: c.refs⟩) else none
  | .ilock ip => if ip ∈ c.refs then some ((ilock ip c.fs).map fun r => ⟨r.2, c.refs⟩) else none
  | .iunlock ip => some ((iunlock ip c.fs).map fun r => ⟨r.2, c.refs⟩)
  | .iput ip =>
    if ip ∈ c.refs then some ((iput ip c.fs).map fun r => ⟨r.2, c.refs.erase ip⟩) else none
  | .ialloc type => some ((ialloc type c.fs).map fun r => ⟨r.2, r.1 :: c.refs⟩)
  | .update ip d b =>
    if (c.fs.icache ip).locked = true ∧ d.type ≠ .free then
      some ((change ip d b c.fs).map fun r => ⟨r.2, c.refs⟩)
    else none

def next (c : Icache) (a : IcacheAct) : Option Icache :=
  match c.step a with
  | some (.ok c') => some c'
  | _ => none

/-- What a call that returns did. -/
inductive Called (c c' : Icache) : IcacheAct → Prop
  | iget (inum : Nat) (ip : InodeIx) (h : iget inum c.fs = .ok (ip, c'.fs))
      (hr : c'.refs = ip :: c.refs) : Called c c' (.iget inum)
  | idup (ip : InodeIx) (hin : ip ∈ c.refs)
      (h : c'.fs = c.fs.setInode ip fun x => { x with ref := x.ref + 1 })
      (hr : c'.refs = ip :: c.refs) : Called c c' (.idup ip)
  | ilock (ip : InodeIx) (h : ilock ip c.fs = .ok ((), c'.fs)) (hr : c'.refs = c.refs) :
      Called c c' (.ilock ip)
  | iunlock (ip : InodeIx) (h : iunlock ip c.fs = .ok ((), c'.fs)) (hr : c'.refs = c.refs) :
      Called c c' (.iunlock ip)
  | iput (ip : InodeIx) (hin : ip ∈ c.refs) (h : iput ip c.fs = .ok ((), c'.fs))
      (hr : c'.refs = c.refs.erase ip) : Called c c' (.iput ip)
  | ialloc (type : InodeType) (inum : Nat) (ip : InodeIx) (hf : c.fs.freeInode = some inum)
      (h : Xv6.Fs.iget inum { c.fs with
        dinode := Function.update c.fs.dinode inum { type := type } } = .ok (ip, c'.fs))
      (hr : c'.refs = ip :: c.refs) : Called c c' (.ialloc type)
  | update (ip : InodeIx) (d : Dinode) (b : Blocks) (hl : (c.fs.icache ip).locked = true)
      (ht : d.type ≠ .free) (h : c'.fs = c.fs.stored ip d b) (hr : c'.refs = c.refs) :
      Called c c' (.update ip d b)

theorem change_ok {s' : FileSys} {d : Dinode} {b : Blocks} {u : Unit}
    (h : change ip d b s = .ok (u, s')) : s' = s.stored ip d b := by
  simp only [change, bind_run, modify_run, setInode_ok, iupdate_ok] at h
  obtain ⟨_, _, hm, _, _, rfl, rfl⟩ := h
  cases hm
  simp [FileSys.stored, FileSys.setInode]

theorem called_of_next {c c' : Icache} {a : IcacheAct} (h : c.next a = some c') :
    Called c c' a := by
  have hs : c.step a = some (.ok c') := by
    unfold next at h
    split at h
    · next hs =>
      cases h
      exact hs
    · cases h
  cases a with
  | iget inum =>
    obtain ⟨⟨ip, s⟩, hi, rfl⟩ := map_eq_ok (Option.some.inj hs)
    exact .iget inum ip hi rfl
  | idup ip =>
    simp only [step] at hs
    split at hs
    · next hin =>
      obtain ⟨⟨i, s⟩, hi, rfl⟩ := map_eq_ok (Option.some.inj hs)
      obtain ⟨rfl, rfl⟩ := idup_ok.mp hi
      exact .idup i hin rfl rfl
    · cases hs
  | ilock ip =>
    simp only [step] at hs
    split at hs
    · obtain ⟨⟨u, s⟩, hi, rfl⟩ := map_eq_ok (Option.some.inj hs)
      exact .ilock ip hi rfl
    · cases hs
  | iunlock ip =>
    obtain ⟨⟨u, s⟩, hi, rfl⟩ := map_eq_ok (Option.some.inj hs)
    exact .iunlock ip hi rfl
  | iput ip =>
    simp only [step] at hs
    split at hs
    · next hin =>
      obtain ⟨⟨u, s⟩, hi, rfl⟩ := map_eq_ok (Option.some.inj hs)
      exact .iput ip hin hi rfl
    · cases hs
  | ialloc type =>
    obtain ⟨⟨ip, s⟩, hi, rfl⟩ := map_eq_ok (Option.some.inj hs)
    simp only [ialloc, bind_run, get_run] at hi
    obtain ⟨_, _, hg, hi⟩ := hi
    cases hg
    cases hf : c.fs.freeInode with
    | none => simp [hf, throw_run] at hi
    | some inum =>
      simp only [hf, bind_run, set_run] at hi
      obtain ⟨_, _, hset, hi⟩ := hi
      cases hset
      exact .ialloc type inum ip hf hi rfl
  | update ip d b =>
    simp only [step] at hs
    split at hs
    · next hg =>
      obtain ⟨⟨u, s⟩, hi, rfl⟩ := map_eq_ok (Option.some.inj hs)
      exact .update ip d b hg.1 hg.2 (change_ok hi) rfl
    · cases hs

/-- A locked entry is in use and valid. -/
def Held (s : FileSys) : Prop :=
  ∀ ip, (s.icache ip).locked = true → 0 < (s.icache ip).ref ∧ (s.icache ip).valid = true

theorem Held.setInode {f : Inode → Inode} (h : Held s) (hf : (f (s.icache ip)).locked = true →
      0 < (f (s.icache ip)).ref ∧ (f (s.icache ip)).valid = true) : Held (s.setInode ip f) := by
  intro q hq
  by_cases hqip : q = ip
  · subst hqip
    rw [setInode_self] at hq ⊢
    exact hf hq
  · rw [setInode_of_ne hqip] at hq ⊢
    exact h q hq

/-- **The invariant**: the entries mean what they should. -/
structure IcacheInv (c : Icache) : Prop where
  cache : CacheInv (fun ip => c.refs.count ip) c.fs
  held : Held c.fs

variable {c c' : Icache} {a : IcacheAct}

theorem IcacheInv.ref_pos (h : IcacheInv c) (hin : ip ∈ c.refs) : 0 < (c.fs.icache ip).ref := by
  rw [h.cache.refs]
  exact List.count_pos_iff.mpr hin

theorem cacheInv_cons {R : List InodeIx}
    (h : CacheInv (Function.update (fun i => R.count i) ip (R.count ip + 1)) s) :
    CacheInv (fun i => (ip :: R).count i) s := by
  have hn := funext (update_count_cons (fun _ => 0) R ip)
  simp only [Nat.zero_add] at hn
  rwa [hn] at h

theorem IcacheInv.iget {inum : Nat} (h : IcacheInv c) (hi : Xv6.Fs.iget inum c.fs = .ok (ip, s)) :
    CacheInv (fun i => (ip :: c.refs).count i) s ∧ Held s := by
  refine ⟨cacheInv_cons (h.cache.iget hi).1, ?_⟩
  rcases iget_ok hi with ⟨-, -, rfl⟩ | ⟨h0, -, rfl⟩
  · exact h.held.setInode fun hl => ⟨Nat.succ_pos _, (h.held ip hl).2⟩
  · refine h.held.setInode fun hl => ?_
    have := (h.held ip hl).1
    omega

/-- **One call** keeps the invariant. -/
theorem IcacheInv.step (h : IcacheInv c) (hn : Called c c' a) : IcacheInv c' := by
  cases hn with
  | iget inum ip hi hr =>
    obtain ⟨hc, hh⟩ := h.iget hi
    exact ⟨hr ▸ hc, hh⟩
  | idup ip hin hs hr =>
    refine ⟨hr ▸ hs ▸ cacheInv_cons (h.cache.addRef (h.ref_pos hin)), ?_⟩
    rw [hs]
    exact h.held.setInode fun hl => ⟨Nat.succ_pos _, (h.held ip hl).2⟩
  | ilock ip hi hr =>
    refine ⟨hr ▸ (h.cache.ilock hi).1, ?_⟩
    obtain ⟨hr, -, ⟨hv, hs⟩ | ⟨-, -, hs⟩⟩ := ilock_ok hi
    · rw [hs]
      exact h.held.setInode fun _ => ⟨hr, hv⟩
    · rw [hs]
      exact h.held.setInode fun _ => ⟨hr, rfl⟩
  | iunlock ip hi hr =>
    refine ⟨hr ▸ h.cache.iunlock hi, ?_⟩
    obtain ⟨-, -, hs⟩ := iunlock_ok hi
    rw [hs]
    exact h.held.setInode fun hl => by cases hl
  | iput ip hin hi hr =>
    have hc := h.cache.iput hi
    have hn := funext (update_count_erase (fun _ => 0) hin)
    simp only [Nat.zero_add] at hn
    rw [hn] at hc
    refine ⟨hr ▸ hc, ?_⟩
    obtain ⟨hl, ⟨-, d, b, -, hs⟩ | ⟨-, hs⟩⟩ := iput_ok hi
    · have hfreed : Held (c.fs.freed ip d b) := by
        intro q hq
        rw [(freed_entry q).2.1] at hq
        have hqip : q ≠ ip := by
          rintro rfl
          simp [hl] at hq
        rw [(freed_entry q).2.2 hqip]
        exact h.held q hq
      rw [hs]
      refine hfreed.setInode fun hq => ?_
      rw [(freed_entry ip).2.1, hl] at hq
      cases hq
    · rw [hs]
      refine h.held.setInode fun hq => ?_
      simp [hl] at hq
  | ialloc type inum ip hf hi hr =>
    have h' : IcacheInv ⟨{ c.fs with
        dinode := Function.update c.fs.dinode inum { type := type } }, c.refs⟩ :=
      ⟨h.cache.allocInode hf, h.held⟩
    obtain ⟨hc, hh⟩ := h'.iget hi
    exact ⟨hr ▸ hc, hh⟩
  | update ip d b hl ht hs hr =>
    refine ⟨hr ▸ hs ▸ h.cache.stored (h.held ip hl).1 ht, ?_⟩
    rw [hs]
    intro q hq
    obtain ⟨-, e2, e3, e4, -⟩ := stored_entry c.fs ip d b q
    rw [e4] at hq
    rw [e2, e3]
    exact h.held q hq

/-- The five calls on the cache alone. -/
def Plain : IcacheAct → Prop
  | .ialloc .. => False
  | .update .. => False
  | _ => True

/-- Every valid entry shows the disk, used or not; an unused one has
links. -/
structure Settled (s : FileSys) : Prop where
  agrees : ∀ ip, (s.icache ip).valid = true → (s.icache ip).din = s.dinode (s.icache ip).inum
  linked : ∀ ip, (s.icache ip).valid = true → (s.icache ip).ref = 0 →
    (s.icache ip).din.nlink ≠ 0

theorem Settled.setInode {f : Inode → Inode} (h : Settled s)
    (h1 : (f (s.icache ip)).valid = true →
      (f (s.icache ip)).din = s.dinode (f (s.icache ip)).inum)
    (h2 : (f (s.icache ip)).valid = true → (f (s.icache ip)).ref = 0 →
      (f (s.icache ip)).din.nlink ≠ 0) : Settled (s.setInode ip f) := by
  refine ⟨fun q => ?_, fun q => ?_⟩
  · by_cases hq : q = ip
    · subst hq
      rw [setInode_self]
      exact h1
    · rw [setInode_of_ne hq]
      exact h.agrees q
  · by_cases hq : q = ip
    · subst hq
      rw [setInode_self]
      exact h2
    · rw [setInode_of_ne hq]
      exact h.linked q

theorem Settled.step (h : Settled c.fs) (hi : IcacheInv c) (ha : Plain a) (hn : Called c c' a) :
    Settled c'.fs := by
  cases hn with
  | iget inum ip hg hr =>
    rcases iget_ok hg with ⟨-, -, hs⟩ | ⟨-, -, hs⟩
    · rw [hs]
      exact h.setInode (h.agrees ip) fun _ h0 => absurd h0 (Nat.succ_ne_zero _)
    · rw [hs]
      exact h.setInode (fun hv => by cases hv) fun hv => by cases hv
  | idup ip hin hs hr =>
    rw [hs]
    exact h.setInode (h.agrees ip) fun _ h0 => absurd h0 (Nat.succ_ne_zero _)
  | ilock ip hl hr =>
    obtain ⟨hr, -, ⟨hv, hs⟩ | ⟨-, -, hs⟩⟩ := ilock_ok hl
    · rw [hs]
      exact h.setInode (h.agrees ip) (h.linked ip)
    · rw [hs]
      exact h.setInode (fun _ => rfl) fun _ h0 => absurd hr (by simp only at h0; omega)
  | iunlock ip hl hr =>
    obtain ⟨-, -, hs⟩ := iunlock_ok hl
    rw [hs]
    exact h.setInode (h.agrees ip) (h.linked ip)
  | iput ip hin hp hr =>
    obtain ⟨-, ⟨⟨hv, hlink, h1⟩, d, b, -, hs⟩ | ⟨hnot, hs⟩⟩ := iput_ok hp
    · -- no other valid entry has the inode that is freed
      have hother : ∀ q, q ≠ ip → (c.fs.icache q).valid = true →
          (c.fs.icache q).inum ≠ (c.fs.icache ip).inum := by
        intro q hq hqv heq
        by_cases h0 : (c.fs.icache q).ref = 0
        · apply h.linked q hqv h0
          rw [h.agrees q hqv, heq, ← h.agrees ip hv]
          exact hlink
        · exact hq (hi.cache.uniq q ip (by omega) (by omega) heq)
      have hfreed : Settled (c.fs.freed ip d b) := by
        refine ⟨fun q hqv => ?_, fun q hqv hq0 => ?_⟩
        · have hq : q ≠ ip := by
            rintro rfl
            simp [FileSys.freed] at hqv
          rw [(freed_entry q).2.2 hq] at hqv ⊢
          rw [h.agrees q hqv]
          simp [FileSys.freed, hother q hq hqv]
        · have hq : q ≠ ip := by
            rintro rfl
            simp [FileSys.freed] at hqv
          rw [(freed_entry q).2.2 hq] at hqv hq0 ⊢
          exact h.linked q hqv hq0
      rw [hs]
      exact hfreed.setInode (hfreed.agrees ip) fun hqv => by simp [FileSys.freed] at hqv
    · rw [hs]
      refine h.setInode (h.agrees ip) fun hv h0 hlink => hnot ⟨hv, hlink, ?_⟩
      have := hi.ref_pos hin
      simp only at h0
      omega
  | ialloc => cases ha
  | update => cases ha

/-! ## Runs -/

theorem icacheInv_run {tr : List (Icache × IcacheAct)} (h0 : ∀ ip, s.icache ip = {})
    (hr : Run next ⟨s, []⟩ tr c) : IcacheInv c := by
  refine hr.always ⟨⟨fun ip hp => ?_, fun ip ip' hp => ?_, fun ip => ?_⟩, fun ip hl => ?_⟩
    fun _ _ _ hi hn => hi.step (called_of_next hn)
  · simp [h0] at hp
  · simp [h0] at hp
  · simp [h0]
  · simp [h0] at hl

theorem settled_run {tr : List (Icache × IcacheAct)} (h0 : ∀ ip, s.icache ip = {})
    (hr : Run next ⟨s, []⟩ tr c) (hp : Meets (fun _ => Plain) tr) : Settled c.fs := by
  refine Run.history (I := fun _ c => Settled c.fs) ⟨fun ip hv => ?_, fun ip hv => ?_⟩ ?_ hr hp
  · simp [h0] at hv
  · simp [h0] at hv
  · intro tr c a c' hr hi ha hn
    exact hi.step (icacheInv_run h0 hr) ha (called_of_next hn)

/-- The inode of entry `ip` is freed on the disk, with all its blocks, and
nothing else is. -/
structure Frees (ip : InodeIx) (s s' : FileSys) : Prop where
  type : (s'.dinode (s.icache ip).inum).type = .free
  others : ∀ i, i ≠ (s.icache ip).inum → s'.dinode i = s.dinode i
  blocks : Released (fun x => x ≠ 0 ∧ ∃ m ≤ maxfile, s.blocks.slot (s.icache ip).din m = x)
    s.blocks s'.blocks

theorem Called.inum_eq (h : Called c c' a) {q : InodeIx} (hq : 0 < (c.fs.icache q).ref) :
    (c'.fs.icache q).inum = (c.fs.icache q).inum := by
  have hset : ∀ (s : FileSys) (ip : InodeIx) (f : Inode → Inode),
      (q = ip → (f (s.icache ip)).inum = (s.icache ip).inum) →
      ((s.setInode ip f).icache q).inum = (s.icache q).inum := by
    intro s ip f hf
    by_cases hqip : q = ip
    · subst hqip
      rw [setInode_self]
      exact hf rfl
    · rw [setInode_of_ne hqip]
  have hget : ∀ (s : FileSys) (inum : Nat) (ip : InodeIx), s.icache = c.fs.icache →
      Xv6.Fs.iget inum s = .ok (ip, c'.fs) →
      (c'.fs.icache q).inum = (c.fs.icache q).inum := by
    intro s inum ip hs hi
    rw [← hs] at hq ⊢
    rcases iget_ok hi with ⟨-, -, h'⟩ | ⟨h0, -, h'⟩
    · rw [h', hset s ip _ fun _ => rfl]
    · rw [h']
      refine hset s ip _ ?_
      rintro rfl
      omega
  cases h with
  | iget inum ip hi hr => exact hget c.fs inum ip rfl hi
  | idup ip hin hs hr => rw [hs, hset c.fs ip _ fun _ => rfl]
  | ilock ip hi hr =>
    obtain ⟨-, -, ⟨-, hs⟩ | ⟨-, -, hs⟩⟩ := ilock_ok hi
    · rw [hs, hset c.fs ip _ fun _ => rfl]
    · rw [hs, hset c.fs ip _ fun _ => rfl]
  | iunlock ip hi hr =>
    obtain ⟨-, -, hs⟩ := iunlock_ok hi
    rw [hs, hset c.fs ip _ fun _ => rfl]
  | iput ip hin hi hr =>
    obtain ⟨-, ⟨-, d, b, -, hs⟩ | ⟨-, hs⟩⟩ := iput_ok hi
    · rw [hs, hset _ ip _ fun _ => rfl, FileSys.freed, hset _ ip _ fun _ => rfl]
    · rw [hs, hset c.fs ip _ fun _ => rfl]
  | ialloc type inum ip hf hi hr =>
    refine hget _ inum ip ?_ hi
    rfl
  | update ip d b hl ht hs hr => rw [hs, (stored_entry c.fs ip d b q).1]

theorem Called.disk (h : Called c c' a) (ha : Plain a) :
    (∃ ip, a = .iput ip ∧ c.fs.Last ip ∧ Frees ip c.fs c'.fs) ∨
    ((∀ ip, a = .iput ip → ¬ c.fs.Last ip) ∧ c'.fs.dinode = c.fs.dinode ∧
      c'.fs.blocks = c.fs.blocks) := by
  cases h with
  | iget inum ip hi hr =>
    rcases iget_ok hi with ⟨-, -, hs⟩ | ⟨-, -, hs⟩ <;> rw [hs] <;>
      exact .inr ⟨fun _ h => (by cases h), rfl, rfl⟩
  | idup ip hin hs hr =>
    rw [hs]
    exact .inr ⟨fun _ h => (by cases h), rfl, rfl⟩
  | ilock ip hi hr =>
    obtain ⟨-, -, ⟨-, hs⟩ | ⟨-, -, hs⟩⟩ := ilock_ok hi <;> rw [hs] <;>
      exact .inr ⟨fun _ h => (by cases h), rfl, rfl⟩
  | iunlock ip hi hr =>
    obtain ⟨-, -, hs⟩ := iunlock_ok hi
    rw [hs]
    exact .inr ⟨fun _ h => (by cases h), rfl, rfl⟩
  | iput ip hin hi hr =>
    obtain ⟨-, ⟨hlast, d, b, ht, hs⟩ | ⟨hnot, hs⟩⟩ := iput_ok hi
    · refine .inl ⟨ip, rfl, hlast, ?_⟩
      rw [hs]
      refine ⟨?_, fun i hi => ?_, (itrunc_released ht).1⟩
      · simp [FileSys.freed]
      · simp [FileSys.freed, hi]
    · rw [hs]
      refine .inr ⟨fun i h => ?_, rfl, rfl⟩
      cases h
      exact hnot
  | ialloc => cases ha
  | update => cases ha

/-- **References to inodes.** In every state that calls of `iget`, `idup`,
`ilock`, `iunlock` and `iput` lead to from an empty cache, with `ialloc`
and changes to locked inodes among them: an inode has at most one entry in
use; the count of an entry is the number of references obtained and not
put; a valid entry shows the inode on the disk, if it is in use or if
nothing but those five calls was made; no call gives an entry in use to
another inode; and of the five calls, `iput` frees an inode on the disk
exactly if it puts the last reference to a valid entry without links,
while the others change nothing on the disk. -/
theorem icache_references {s : FileSys} {tr : List (Icache × IcacheAct)}
    (h0 : ∀ ip, s.icache ip = {}) (hr : Run next ⟨s, []⟩ tr c) :
    (∀ ip ip', 0 < (c.fs.icache ip).ref → 0 < (c.fs.icache ip').ref →
      (c.fs.icache ip).inum = (c.fs.icache ip').inum → ip = ip') ∧
    (∀ ip, (c.fs.icache ip).ref = c.refs.count ip) ∧
    (∀ ip, (c.fs.icache ip).valid = true →
      0 < (c.fs.icache ip).ref ∨ Meets (fun _ => Plain) tr →
      (c.fs.icache ip).din = c.fs.dinode (c.fs.icache ip).inum) ∧
    (∀ a c', c.next a = some c' →
      (∀ ip, 0 < (c.fs.icache ip).ref → (c'.fs.icache ip).inum = (c.fs.icache ip).inum) ∧
      (Plain a →
        (∃ ip, a = .iput ip ∧ ((c.fs.icache ip).valid = true ∧ (c.fs.icache ip).din.nlink = 0 ∧
          c.refs.count ip = 1) ∧ Frees ip c.fs c'.fs) ∨
        ((∀ ip, a = .iput ip → ¬ ((c.fs.icache ip).valid = true ∧
            (c.fs.icache ip).din.nlink = 0 ∧ c.refs.count ip = 1)) ∧
          c'.fs.dinode = c.fs.dinode ∧ c'.fs.blocks = c.fs.blocks))) := by
  have h := icacheInv_run h0 hr
  refine ⟨h.cache.uniq, h.cache.refs, fun ip hv hor => ?_, fun a c' hn => ?_⟩
  · rcases hor with hpos | hplain
    · exact (h.cache.agree ip hpos hv).1
    · exact (settled_run h0 hr hplain).agrees ip hv
  · have hc := called_of_next hn
    refine ⟨fun ip hq => hc.inum_eq hq, fun ha => ?_⟩
    simp only [← h.cache.refs]
    exact hc.disk ha

/-- A disk with one file, inode 5, that has no links and one block. -/
def orphanDisk : FileSys where
  ninodes := 10
  blocks := { size := 100, size_lt := by decide, used := fun n => n = 60, data := fun _ _ => 0 }
  dinode := fun i =>
    if i = 5 then { type := .file, size := 7, addrs := fun j => if j = 0 then 60 else 0 } else {}
  icache := fun _ => {}
  devsw := ⟨fun _ _ => none, fun _ _ => none⟩

/-- It is looked at, by two holders, of which one has put it. -/
def orphanOpen : List (Icache × IcacheAct) × Icache :=
  (follow next ⟨orphanDisk, []⟩ [.iget 5, .ilock 0, .idup 0, .iunlock 0, .iput 0]).get
    (by decide +kernel)

/-- The second one puts it. -/
def orphanFreed : Icache := (orphanOpen.2.next (.iput 0)).get (by decide +kernel)

theorem icache_references_orphanOpen :
    (orphanDisk.dinode 5).type = .file ∧ orphanOpen.2.refs.count 0 = 1 ∧
    (orphanFreed.fs.dinode 5).type = .free ∧ orphanFreed.fs.blocks.used 60 = false := by
  have hr : Run next ⟨orphanDisk, []⟩ orphanOpen.1 orphanOpen.2 := run_get _
  have hn : orphanOpen.2.next (.iput 0) = some orphanFreed := (Option.some_get _).symm
  obtain ⟨hd, hlast, hi, ha⟩ : (orphanDisk.dinode 5).type = .file ∧
      ((orphanOpen.2.fs.icache 0).valid = true ∧ (orphanOpen.2.fs.icache 0).din.nlink = 0 ∧
        orphanOpen.2.refs.count 0 = 1) ∧ (orphanOpen.2.fs.icache 0).inum = 5 ∧
      orphanOpen.2.fs.blocks.slot (orphanOpen.2.fs.icache 0).din 0 = 60 := by
    decide +kernel
  rcases ((icache_references (fun _ => rfl) hr).2.2.2 _ _ hn).2 trivial with
    ⟨ip, heq, -, hf⟩ | ⟨hnot, -⟩
  · cases heq
    exact ⟨hd, hlast.2.2, hi ▸ hf.type, hf.blocks.freed 60 ⟨by decide, 0, by decide, ha⟩⟩
  · exact absurd hlast (hnot 0 rfl)

end Icache

end Xv6.Fs
