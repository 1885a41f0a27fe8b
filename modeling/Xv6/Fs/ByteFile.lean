/-
Xv6.Fs.ByteFile — a file is an array of bytes.

`contents i` are the bytes of inode `i` up to its size, wherever its
blocks are. What `readi` and `writei` do is said in terms of it alone:
`readi` returns a piece of the array, and `writei` splices its bytes in
(`splice`), for one inode and no other.

`Intact lo s` is all that is asked of the disk: every inode has the blocks
below its end, and no block is in two places (`Sound`). There may be
blocks that are marked and belong to no file, and a file may have blocks
behind its end. An entry of the cache `Shows` its inode if it is as on the
disk, as it is whenever the entry is locked.

1. `readi` and `writei` on an entry of the cache.
2. What a write does to the contents of all files.
-/
import Xv6.Fs.ContentTheorems
import Xv6.Fs.Icache
import Xv6.Lib.Splice

namespace Xv6.Fs

open Xv6.Lib Function

variable {b : Blocks} {d : Dinode} {s' s₁ s₂ : FileSys} {i : Nat}

/-! ## 1. The calls -/

variable {lo off n : Nat} {s : FileSys} {ip : InodeIx} {src : List UInt8}

/-- How many of `n` bytes from `off` on `readi` returns. -/
def readCount (size off n : Nat) : Nat := if size < off + n then size - off else n

theorem toU32_add (ho : off < 2 ^ 32) (hn : n < 2 ^ 32) (h : ¬ toU32 (off + n) < off) :
    toU32 (off + n) = off + n := by
  simp only [toU32] at h ⊢
  omega

theorem toU32_add_lt_iff (ho : off < 2 ^ 32) (hn : n < 2 ^ 32) :
    toU32 (off + n) < off ↔ 2 ^ 32 ≤ off + n := by
  simp only [toU32]
  omega

theorem readi_of_covered {k : Nat} (hk : k ≤ maxfile) (hd : Full s.blocks (s.icache ip).din k)
    (hsize : (s.icache ip).din.size < 2 ^ 32) (hdev : (s.icache ip).din.type ≠ .dev)
    (hn : n < 2 ^ 32) (hcover : off ≤ (s.icache ip).din.size →
      off + readCount (s.icache ip).din.size off n ≤ k * bsize) :
    readi ip off n s = .ok (
      if (s.icache ip).din.size < off ∨ toU32 (off + n) < off then none
      else some ((List.range (readCount (s.icache ip).din.size off n)).map fun i =>
        s.blocks.byteAt (s.icache ip).din (off + i)), s) := by
  by_cases hrej : (s.icache ip).din.size < off ∨ toU32 (off + n) < off
  · simp only [readi, bind, StateT.bind, get, getThe, MonadStateOf.get, StateT.get, pure,
      Except.pure, Except.bind, if_neg hdev, if_pos hrej, stateT_pure]
  · have hsum : toU32 (off + n) = off + n :=
      toU32_add (by omega) hn fun hlt => hrej (.inr hlt)
    have hloop := readLoop_eq hd hk (Nat.le_refl _) (hcover (by omega))
    have hself : ({ s with blocks := s.blocks }).setInode ip
        (fun x => { x with din := (s.icache ip).din }) = s := by
      cases s with
      | mk ninodes blocks dinode icache devsw =>
        simp only [FileSys.setInode]
        congr
        exact update_eq_self ip icache
    have hcount : (if (s.icache ip).din.size < toU32 (off + n) then (s.icache ip).din.size - off
        else n) = readCount (s.icache ip).din.size off n := by
      rw [hsum]
      rfl
    simp only [readi, bind, StateT.bind, get, getThe, MonadStateOf.get, StateT.get, pure,
      Except.pure, Except.bind, if_neg hdev, if_neg hrej, hcount, hloop, set, stateT_set,
      stateT_pure, hself]

/-- **`readi` allocates nothing and changes nothing** where the inode has
the blocks below its end. For a file or directory it returns the bytes
from `off` on, or -1 behind the end. -/
theorem readi_of_full (hk : nblocks (s.icache ip).din.size ≤ maxfile)
    (hd : Full s.blocks (s.icache ip).din (nblocks (s.icache ip).din.size))
    (hdev : (s.icache ip).din.type ≠ .dev) (hn : n < 2 ^ 32) :
    readi ip off n s = .ok (
      if (s.icache ip).din.size < off ∨ toU32 (off + n) < off then none
      else some ((List.range (readCount (s.icache ip).din.size off n)).map fun i =>
        s.blocks.byteAt (s.icache ip).din (off + i)), s) := by
  have hbound := nblocks_le_iff.mp hk
  simp only [maxfile, ndirect, nindirect, bsize] at hbound
  refine readi_of_covered hk hd (by omega) hdev hn fun hoff => ?_
  refine Nat.le_trans ?_ (nblocks_le_iff.mp (Nat.le_refl _))
  unfold readCount
  split <;> omega

variable {src : List UInt8}

theorem writei_refused (hdev : (s.icache ip).din.type ≠ .dev)
    (hrej : ((s.icache ip).din.size < off ∨ toU32 (off + src.length) < off) ∨
      maxfile * bsize < toU32 (off + src.length)) : writei ip src off s = .ok (none, s) := by
  by_cases h1 : (s.icache ip).din.size < off ∨ toU32 (off + src.length) < off
  · simp only [writei, bind, StateT.bind, get, getThe, MonadStateOf.get, StateT.get, pure,
      Except.pure, Except.bind, if_neg hdev, if_pos h1, stateT_pure]
  · have h2 := hrej.resolve_left h1
    simp only [writei, bind, StateT.bind, get, getThe, MonadStateOf.get, StateT.get, pure,
      Except.pure, Except.bind, if_neg hdev, if_neg h1, if_pos h2, stateT_pure]

/-- What else it is given it passes to its loop; the inode is stored if it
grew. -/
theorem writei_accepted (hdev : (s.icache ip).din.type ≠ .dev)
    (h1 : ¬ ((s.icache ip).din.size < off ∨ toU32 (off + src.length) < off))
    (h2 : ¬ maxfile * bsize < toU32 (off + src.length)) {r : Option Nat × FileSys} :
    writei ip src off s = .ok r ↔ ∃ off' d b,
      Blocks.writeLoop src.length s.blocks (s.icache ip).din off src = .ok (off', d, b) ∧
      r = (some src.length,
        if 0 < src.length ∧ (s.icache ip).din.size < off' then s.stored ip { d with size := off' } b
        else { s with blocks := b }.setInode ip fun x => { x with din := d }) := by
  simp only [writei, bind_run, get_run, ite_run, pure_run]
  constructor
  · rintro ⟨_, _, hg, hw⟩
    cases hg
    simp only [hdev, h1, h2, false_and, false_or, not_false_eq_true, true_and] at hw
    cases hl : Blocks.writeLoop src.length s.blocks (s.icache ip).din off src with
    | error m => simp [hl, throw_run] at hw
    | ok x =>
      obtain ⟨off', d, b⟩ := x
      refine ⟨off', d, b, rfl, ?_⟩
      simp only [hl, bind_run, set_run, ite_run, setInode_ok, iupdate_ok, pure_run] at hw
      obtain ⟨_, _, hset, hw⟩ := hw
      cases hset
      rcases hw with ⟨hgrow, _, _, rfl, _, _, rfl, rfl⟩ | ⟨hsame, rfl⟩
      · rw [if_pos hgrow]
        simp [FileSys.stored, FileSys.setInode]
      · rw [if_neg hsame]
  · rintro ⟨off', d, b, hl, rfl⟩
    refine ⟨s, s, rfl, ?_⟩
    simp only [hdev, h1, h2, false_and, false_or, not_false_eq_true, true_and, hl, bind_run,
      set_run, ite_run, setInode_ok, iupdate_ok, pure_run]
    refine ⟨_, _, rfl, ?_⟩
    by_cases hgrow : 0 < src.length ∧ (s.icache ip).din.size < off'
    · refine .inl ⟨hgrow, (), _, rfl, (), _, rfl, ?_⟩
      rw [if_pos hgrow]
      simp [FileSys.stored, FileSys.setInode]
    · refine .inr ⟨hgrow, ?_⟩
      rw [if_neg hgrow]

/-! ## 2. Contents -/

/-- Inode `i` as an array of bytes. -/
def FileSys.contents (s : FileSys) (i : Nat) : List UInt8 :=
  (List.range (s.dinode i).size).map (s.blocks.byteAt (s.dinode i))

/-- Every inode has the blocks below its end, and no block is in two
places; `lo` is the first data block. -/
structure Intact (lo : Nat) (s : FileSys) : Prop where
  sound : Sound lo s.dinode s.blocks
  short : ∀ i, (s.dinode i).type ≠ .free → nblocks (s.dinode i).size ≤ maxfile
  full : ∀ i, (s.dinode i).type ≠ .free →
    Full s.blocks (s.dinode i) (nblocks (s.dinode i).size)

/-- The entry `ip` is as its inode on the disk. -/
def Shows (s : FileSys) (ip : InodeIx) : Prop :=
  (s.icache ip).din = s.dinode (s.icache ip).inum

/-- A write of `n` bytes at `off` is refused: it begins behind the end,
wraps, or ends behind the largest file. -/
def WriteFails (size off n : Nat) : Prop :=
  size < off ∨ 2 ^ 32 ≤ off + n ∨ maxfile * bsize < off + n

@[simp] theorem length_contents (s : FileSys) (i : Nat) :
    (s.contents i).length = (s.dinode i).size := by
  simp [FileSys.contents]

theorem getElem?_contents (s : FileSys) (i o : Nat) : (s.contents i)[o]? =
    if o < (s.dinode i).size then some (s.blocks.byteAt (s.dinode i) o) else none := by
  unfold FileSys.contents
  rw [List.getElem?_map]
  by_cases h : o < (s.dinode i).size
  · simp [h]
  · simp [h]

theorem slot_withSize (b : Blocks) (d : Dinode) (size m : Nat) :
    b.slot { d with size := size } m = b.slot d m := by
  simp [Blocks.slot]

theorem byteAt_withSize (b : Blocks) (d : Dinode) (size o : Nat) :
    b.byteAt { d with size := size } o = b.byteAt d o := by
  simp [Blocks.byteAt, slot_withSize]

theorem Intact.slot_ne {o : Nat} (h : Intact lo s) (hf : (s.dinode i).type ≠ .free)
    (ho : o < (s.dinode i).size) : s.blocks.slot (s.dinode i) (o / bsize) ≠ 0 := by
  apply h.full i hf
  rw [Nat.div_lt_iff_lt_mul (by decide)]
  exact Nat.lt_of_lt_of_le ho (nblocks_le_iff.mp (Nat.le_refl _))

/-- What a write of `src` at `off` to inode `i` does to the disk: the inode
has the bytes then, and no other inode changes. The free blocks that are
gone are the file's. -/
structure Wrote (lo : Nat) (s : FileSys) (i off : Nat) (src : List UInt8) (s' : FileSys) :
    Prop where
  intact : Intact lo s'
  node : s'.dinode i = { s.dinode i with
    size := max (s.dinode i).size (off + src.length), addrs := (s'.dinode i).addrs }
  contents : s'.contents i = splice (s.contents i) off src
  others : ∀ j, j ≠ i → s'.dinode j = s.dinode j ∧
    ((s.dinode j).type ≠ .free → s'.contents j = s.contents j)
  ninodes : s'.ninodes = s.ninodes
  devsw : s'.devsw = s.devsw
  spent : ∀ e, nblocks e ≤ maxfile → off + src.length ≤ e →
    s'.blocks.lacking (s'.dinode i) e + s.blocks.nfree =
      s.blocks.lacking (s.dinode i) e + s'.blocks.nfree

theorem Wrote.nil (h : Intact lo s) (hoff : off ≤ (s.dinode i).size) : Wrote lo s i off [] s where
  intact := h
  node := by simp [hoff]
  contents := (splice_nil _ _).symm
  others _ _ := ⟨rfl, fun _ => rfl⟩
  ninodes := rfl
  devsw := rfl
  spent _ _ _ := rfl

theorem Wrote.size (h : Wrote lo s i off src s') :
    (s'.dinode i).size = max (s.dinode i).size (off + src.length) := by
  rw [h.node]

theorem Wrote.type (h : Wrote lo s i off src s') (j : Nat) :
    (s'.dinode j).type = (s.dinode j).type := by
  by_cases hj : j = i
  · rw [hj, h.node]
  · rw [(h.others j hj).1]

theorem Wrote.append {src' : List UInt8} (hoff : off ≤ (s.dinode i).size)
    (h₁ : Wrote lo s i off src s₁) (h₂ : Wrote lo s₁ i (off + src.length) src' s₂) :
    Wrote lo s i off (src ++ src') s₂ := by
  constructor
  · exact h₂.intact
  · rw [h₂.node, h₁.node, List.length_append]
    simp only [Dinode.mk.injEq, true_and, and_true]
    omega
  · rw [h₂.contents, h₁.contents, splice_splice (by simpa using hoff)]
  · intro j hj
    obtain ⟨hd₁, hc₁⟩ := h₁.others j hj
    obtain ⟨hd₂, hc₂⟩ := h₂.others j hj
    refine ⟨hd₂.trans hd₁, fun hf => ?_⟩
    rw [hc₂ (by rw [hd₁]; exact hf), hc₁ hf]
  · rw [h₂.ninodes, h₁.ninodes]
  · rw [h₂.devsw, h₁.devsw]
  · intro e he hend
    rw [List.length_append] at hend
    have hs₁ := h₁.spent e he (by omega)
    have hs₂ := h₂.spent e he (by omega)
    omega

/-- The disk is the same; the cache need not be. -/
structure SameDisk (s s' : FileSys) : Prop where
  blocks : s'.blocks = s.blocks
  dinode : s'.dinode = s.dinode
  ninodes : s'.ninodes = s.ninodes
  devsw : s'.devsw = s.devsw

theorem SameDisk.setInode (s : FileSys) (ip : InodeIx) (f : Inode → Inode) :
    SameDisk s (s.setInode ip f) :=
  ⟨rfl, rfl, rfl, rfl⟩

theorem SameDisk.trans (h₁ : SameDisk s s₁) (h₂ : SameDisk s₁ s₂) : SameDisk s s₂ :=
  ⟨h₂.blocks.trans h₁.blocks, h₂.dinode.trans h₁.dinode, h₂.ninodes.trans h₁.ninodes,
    h₂.devsw.trans h₁.devsw⟩

theorem SameDisk.contents (h : SameDisk s s') : s'.contents = s.contents := by
  funext i
  rw [FileSys.contents, FileSys.contents, h.blocks, h.dinode]

theorem SameDisk.intact (hs : SameDisk s s') (h : Intact lo s) : Intact lo s' := by
  constructor
  · rw [hs.blocks, hs.dinode]
    exact h.sound
  · rw [hs.dinode]
    exact h.short
  · rw [hs.blocks, hs.dinode]
    exact h.full

/-- A write between two states that differ from those at its ends in the
cache only. -/
theorem SameDisk.wrote {s₃ : FileSys} (h₁ : SameDisk s s₁) (h₂ : SameDisk s₂ s₃)
    (h : Wrote lo s₁ i off src s₂) : Wrote lo s i off src s₃ := by
  constructor
  · exact h₂.intact h.intact
  · rw [h₂.dinode, ← h₁.dinode]
    exact h.node
  · rw [h₂.contents, ← h₁.contents]
    exact h.contents
  · intro j hj
    rw [h₂.dinode, ← h₁.dinode, h₂.contents, ← h₁.contents]
    exact h.others j hj
  · rw [h₂.ninodes, h.ninodes, h₁.ninodes]
  · rw [h₂.devsw, h.devsw, h₁.devsw]
  · intro e
    rw [h₂.blocks, h₂.dinode, ← h₁.blocks, ← h₁.dinode]
    exact h.spent e

theorem nblocks_max (m n : Nat) : nblocks (max m n) = max (nblocks m) (nblocks n) := by
  rcases Nat.le_total m n with h | h
  · rw [Nat.max_eq_right h, Nat.max_eq_right (nblocks_mono h)]
  · rw [Nat.max_eq_left h, Nat.max_eq_left (nblocks_mono h)]

theorem Written.wrote_of (h : Intact lo s) (hf : (s.dinode i).type ≠ .free)
    (hoff : off ≤ (s.dinode i).size) (hfit : off + src.length ≤ maxfile * bsize)
    (hw : Written lo s.dinode i (nblocks (s.dinode i).size) s.blocks off src d b)
    (hblocks : s'.blocks = b) (hnodes : s'.dinode = update s.dinode i
      { d with size := max (s.dinode i).size (off + src.length) })
    (hninodes : s'.ninodes = s.ninodes) (hdevsw : s'.devsw = s.devsw) :
    Wrote lo s i off src s' := by
  have hnode : s'.dinode i = { d with size := max (s.dinode i).size (off + src.length) } := by
    rw [hnodes, update_self]
  have hother : ∀ j, j ≠ i → s'.dinode j = s.dinode j := by
    intro j hj
    rw [hnodes, update_of_ne hj]
  have hsize : (s'.dinode i).size = max (s.dinode i).size (off + src.length) := by rw [hnode]
  have htype : (s'.dinode i).type = (s.dinode i).type := by
    rw [hnode, hw.fields]
  have hslot : ∀ j, j ≠ i → (s.dinode j).type ≠ .free → ∀ m,
      b.slot (s.dinode j) m = s.blocks.slot (s.dinode j) m := by
    intro j hj hfj m
    rw [← own_eq_slot hfj, hw.others j hj, own_eq_slot hfj]
  constructor
  · constructor
    · constructor
      · have hown : s'.blocks.own s'.dinode = b.own (update s.dinode i d) := by
          funext k
          obtain ⟨j, m⟩ := k
          rw [hblocks]
          by_cases hj : j = i
          · subst hj
            rw [own_self _ _ (by rw [hw.fields]; exact hf), own_eq_slot (by rw [htype]; exact hf),
              hnode, slot_withSize]
          · rw [own_of_ne _ hj]
            simp only [Blocks.own, hother j hj]
        rw [hown, hblocks]
        exact hw.sound.apart
      · rw [hblocks]
        exact hw.sound.reserved
    · intro j hj
      by_cases hji : j = i
      · subst hji
        rw [hsize, nblocks_max]
        exact Nat.max_le.mpr ⟨h.short j hf, nblocks_le_iff.mpr hfit⟩
      · rw [hother j hji] at hj ⊢
        exact h.short j hj
    · intro j hj
      rw [hblocks]
      by_cases hji : j = i
      · subst hji
        rw [hsize, nblocks_max, hnode]
        intro m hm
        rw [slot_withSize]
        exact hw.full m hm
      · rw [hother j hji] at hj ⊢
        intro m hm
        rw [hslot j hji hj]
        exact h.full j hj m hm
  · rw [hnode, hw.fields]
  · apply eq_splice (by simpa using hoff)
    intro o
    rw [getElem?_contents, getElem?_contents, hsize, hblocks, hnode, byteAt_withSize]
    by_cases hin : off ≤ o ∧ o < off + src.length
    · rw [if_pos (by omega), if_pos hin, hw.bytes o hin.1 hin.2,
        List.getElem?_eq_getElem (by omega), List.getD_eq_getElem _ _ (by omega)]
    · rw [if_neg hin]
      by_cases ho : o < (s.dinode i).size
      · have hk := Nat.lt_of_lt_of_le ho (nblocks_le_iff.mp (Nat.le_refl _))
        rw [if_pos (by omega), if_pos ho, hw.kept o hk hin]
      · rw [if_neg (by omega), if_neg ho]
  · intro j hj
    refine ⟨hother j hj, fun hfj => List.ext_getElem? fun o => ?_⟩
    rw [getElem?_contents, getElem?_contents, hother j hj, hblocks]
    by_cases ho : o < (s.dinode j).size
    · rw [if_pos ho, if_pos ho]
      have hne := h.slot_ne hfj ho
      have hframe := hw.frame j hj (o / bsize) (by rw [own_eq_slot hfj]; exact hne)
      rw [own_eq_slot hfj] at hframe
      rw [Blocks.byteAt, hslot j hj hfj, hframe, Blocks.byteAt]
    · rw [if_neg ho, if_neg ho]
  · exact hninodes
  · exact hdevsw
  · intro e he hend
    have := hw.spent e he hend
    have hlack : s'.blocks.lacking (s'.dinode i) e = b.lacking d e := by
      rw [hblocks, hnode]
      apply List.countP_congr
      intro m _
      rw [slot_withSize]
    rw [hlack, hblocks]
    exact this

theorem Written.wrote (h : Intact lo s) (hi : (s.icache ip).inum = i)
    (hf : (s.dinode i).type ≠ .free) (hoff : off ≤ (s.dinode i).size)
    (hfit : off + src.length ≤ maxfile * bsize)
    (hw : Written lo s.dinode i (nblocks (s.dinode i).size) s.blocks off src d b) :
    Wrote lo s i off src
      (s.stored ip { d with size := max (s.dinode i).size (off + src.length) } b) :=
  hw.wrote_of h hf hoff hfit rfl (by simp [FileSys.stored, hi]) rfl rfl

/-- Whether the inode is stored or not makes no difference: where it is
not, it is as it was. -/
theorem Written.stored_eq (hshow : Shows s ip) (hi : (s.icache ip).inum = i)
    (hw : Written lo s.dinode i (nblocks (s.dinode i).size) s.blocks off src d b)
    (hoff : off ≤ (s.dinode i).size) :
    (if 0 < src.length ∧ (s.icache ip).din.size < off + src.length then
        s.stored ip { d with size := off + src.length } b
      else { s with blocks := b }.setInode ip fun x => { x with din := d }) =
      s.stored ip { d with size := max (s.dinode i).size (off + src.length) } b := by
  have hdin : (s.icache ip).din = s.dinode i := by rw [hshow, hi]
  by_cases hgrow : 0 < src.length ∧ (s.icache ip).din.size < off + src.length
  · rw [if_pos hgrow, ← hdin, Nat.max_eq_right (by omega)]
  · -- no byte behind the old end: the inode is as it was
    have hle : off + src.length ≤ (s.dinode i).size := by
      rw [hdin] at hgrow
      omega
    have hd : d = s.dinode i := hw.same (nblocks_mono hle)
    rw [if_neg hgrow, Nat.max_eq_left hle, hd, FileSys.stored, hi, update_eq_self]

section
variable (h : Intact lo s) (hshow : Shows s ip) (hi : (s.icache ip).inum = i)
  (hf : (s.dinode i).type ≠ .free) (hdev : (s.dinode i).type ≠ .dev)
include h hshow hi hf hdev

/-- **A write that returns a number** was not refused, and has written the
bytes. -/
theorem writei_returned {n : Nat} (hlen : src.length < 2 ^ 32)
    (hw : writei ip src off s = .ok (some n, s')) :
    n = src.length ∧ off ≤ (s.dinode i).size ∧ off + src.length ≤ maxfile * bsize ∧
      Wrote lo s i off src s' ∧
      s'.icache = update s.icache ip { s.icache ip with din := s'.dinode i } := by
  have hdin : (s.icache ip).din = s.dinode i := by rw [hshow, hi]
  have hdev' : (s.icache ip).din.type ≠ .dev := by rwa [hdin]
  have hrej : ¬ (((s.icache ip).din.size < off ∨ toU32 (off + src.length) < off) ∨
      maxfile * bsize < toU32 (off + src.length)) := by
    intro hrej
    rw [writei_refused hdev' hrej] at hw
    cases hw
  obtain ⟨h1, h2⟩ := not_or.mp hrej
  obtain ⟨off', d, b, hl, hr⟩ := (writei_accepted hdev' h1 h2).mp hw
  have hoff : off ≤ (s.dinode i).size := by
    rw [← hdin]
    omega
  have hbound := nblocks_le_iff.mp (h.short i hf)
  have hsum : toU32 (off + src.length) = off + src.length := by
    simp only [maxfile, ndirect, nindirect, bsize] at hbound
    exact toU32_add (by omega) hlen fun hlt => h1 (.inr hlt)
  rw [hdin] at hl
  obtain ⟨rfl, hwr⟩ := writeLoop_spec h.sound hf (h.full i hf) (h.short i hf)
    (Nat.le_trans hoff (nblocks_le_iff.mp (Nat.le_refl _))) (Nat.le_refl _) hl
  rw [hwr.stored_eq hshow hi hoff] at hr
  cases hr
  have hfit : off + src.length ≤ maxfile * bsize := by omega
  exact ⟨rfl, hoff, hfit, hwr.wrote h hi hf hoff hfit,
    by simp [FileSys.stored, FileSys.setInode, hi]⟩

theorem writei_wrote (hoff : off ≤ (s.dinode i).size) (hfit : off + src.length ≤ maxfile * bsize)
    (hfree : s.blocks.lacking (s.dinode i) (off + src.length) ≤ s.blocks.nfree) :
    ∃ s', writei ip src off s = .ok (some src.length, s') ∧ Wrote lo s i off src s' ∧
      s'.icache = update s.icache ip { s.icache ip with din := s'.dinode i } := by
  have hdin : (s.icache ip).din = s.dinode i := by rw [hshow, hi]
  have hmax : maxfile * bsize = 71680 := rfl
  have hsum : toU32 (off + src.length) = off + src.length := by
    simp only [toU32]
    omega
  have hloop : ∃ r, Blocks.writeLoop src.length s.blocks (s.dinode i) off src = .ok r :=
    writeLoop_ok h.sound hf (nblocks_le_iff.mpr hfit) rfl hfree
  obtain ⟨⟨off', d, b⟩, hl⟩ := hloop
  have hw := (writei_accepted (by rw [hdin]; exact hdev) (by rw [hdin, hsum]; omega)
    (by rw [hsum]; omega)).mpr ⟨off', d, b, by rw [hdin]; exact hl, rfl⟩
  exact ⟨_, hw, (writei_returned h hshow hi hf hdev (by omega) hw).2.2.2⟩

end

theorem piece_contents (s : FileSys) (i : Nat) (hoff : off ≤ (s.dinode i).size) :
    (List.range (readCount (s.dinode i).size off n)).map
      (fun o => s.blocks.byteAt (s.dinode i) (off + o)) = ((s.contents i).drop off).take n := by
  apply List.ext_getElem?
  intro o
  rw [List.getElem?_map, List.getElem?_take, List.getElem?_drop, getElem?_contents]
  unfold readCount
  by_cases ho : o < n
  · by_cases hs : off + o < (s.dinode i).size
    · have hlt : o < if (s.dinode i).size < off + n then (s.dinode i).size - off else n := by
        split <;> omega
      simp [ho, hs, hlt]
    · have hge : ¬ o < if (s.dinode i).size < off + n then (s.dinode i).size - off else n := by
        split <;> omega
      simp [ho, hs, hge]
  · have hge : ¬ o < if (s.dinode i).size < off + n then (s.dinode i).size - off else n := by
      split <;> omega
    simp [ho, hge]

/-- What `readi` returns, in terms of the contents, of an inode that has
its blocks. -/
theorem readi_contents_of_full (hshow : Shows s ip) (hi : (s.icache ip).inum = i)
    (hk : nblocks (s.dinode i).size ≤ maxfile)
    (hd : Full s.blocks (s.dinode i) (nblocks (s.dinode i).size))
    (hdev : (s.dinode i).type ≠ .dev) (hoff : off < 2 ^ 32) (hn : n < 2 ^ 32) :
    readi ip off n s = .ok (
      if (s.dinode i).size < off ∨ 2 ^ 32 ≤ off + n then none
      else some (((s.contents i).drop off).take n), s) := by
  have hdin : (s.icache ip).din = s.dinode i := by rw [hshow, hi]
  rw [readi_of_full (by rw [hdin]; exact hk) (by rw [hdin]; exact hd) (by rw [hdin]; exact hdev)
    hn, hdin]
  simp only [toU32_add_lt_iff hoff hn]
  by_cases hrej : (s.dinode i).size < off ∨ 2 ^ 32 ≤ off + n
  · rw [if_pos hrej, if_pos hrej]
  · rw [if_neg hrej, if_neg hrej, piece_contents s i (by omega)]

theorem readi_contents (h : Intact lo s) (hshow : Shows s ip) (hi : (s.icache ip).inum = i)
    (hf : (s.dinode i).type ≠ .free) (hdev : (s.dinode i).type ≠ .dev) (hoff : off < 2 ^ 32)
    (hn : n < 2 ^ 32) : readi ip off n s = .ok (
      if (s.dinode i).size < off ∨ 2 ^ 32 ≤ off + n then none
      else some (((s.contents i).drop off).take n), s) :=
  readi_contents_of_full hshow hi (h.short i hf) (h.full i hf) hdev hoff hn

/-- **Files are byte arrays.** `writei` refuses what begins behind the end,
wraps or is too long, and changes nothing then. What else it is given, it
writes into the contents, if there are free blocks for it, and no other
file changes. `readi` refuses what begins behind the end or wraps, returns
a piece of the contents otherwise, and changes nothing. -/
theorem file_contents (h : Intact lo s) (hshow : Shows s ip)
    (ht : (s.icache ip).din.type = .file ∨ (s.icache ip).din.type = .dir) (hoff : off < 2 ^ 32) :
    (∀ src : List UInt8, src.length < 2 ^ 32 →
      (WriteFails (s.icache ip).din.size off src.length → writei ip src off s = .ok (none, s)) ∧
      (¬ WriteFails (s.icache ip).din.size off src.length →
        s.blocks.lacking (s.icache ip).din (off + src.length) ≤ s.blocks.nfree →
        ∃ s', writei ip src off s = .ok (some src.length, s') ∧
          s'.contents (s.icache ip).inum = splice (s.contents (s.icache ip).inum) off src ∧
          (s'.icache ip).din.size = max (s.icache ip).din.size (off + src.length) ∧
          Intact lo s' ∧ Shows s' ip ∧
          ∀ j, j ≠ (s.icache ip).inum → s'.dinode j = s.dinode j ∧
            ((s.dinode j).type ≠ .free → s'.contents j = s.contents j))) ∧
    ∀ n, n < 2 ^ 32 →
      ((s.icache ip).din.size < off ∨ 2 ^ 32 ≤ off + n → readi ip off n s = .ok (none, s)) ∧
      (¬ ((s.icache ip).din.size < off ∨ 2 ^ 32 ≤ off + n) →
        ∃ bs, readi ip off n s = .ok (some bs, s) ∧
          bs.length = min n ((s.icache ip).din.size - off) ∧
          bs = ((s.contents (s.icache ip).inum).drop off).take n) := by
  have hdin : (s.icache ip).din = s.dinode (s.icache ip).inum := hshow
  have hf : (s.dinode (s.icache ip).inum).type ≠ .free := by
    rw [← hdin]
    rcases ht with ht | ht <;> simp [ht]
  have hdev : (s.dinode (s.icache ip).inum).type ≠ .dev := by
    rw [← hdin]
    rcases ht with ht | ht <;> simp [ht]
  have hbound := nblocks_le_iff.mp (h.short _ hf)
  rw [← hdin] at hbound
  constructor
  · intro src hlen
    constructor
    · intro hfail
      apply writei_refused (by rw [hdin]; exact hdev)
      rw [toU32_add_lt_iff hoff hlen]
      rcases hfail with hfail | hfail | hfail
      · exact .inl (.inl hfail)
      · exact .inl (.inr hfail)
      · by_cases hwrap : 2 ^ 32 ≤ off + src.length
        · exact .inl (.inr hwrap)
        · right
          simp only [toU32]
          omega
    · intro hok hfree
      unfold WriteFails at hok
      rw [hdin] at hfree
      obtain ⟨s', hw, hwrote, hentry⟩ := writei_wrote h hshow rfl hf hdev (by rw [← hdin]; omega)
        (by omega) hfree
      have hself : (s'.icache ip).din = s'.dinode (s.icache ip).inum := by simp [hentry]
      refine ⟨s', hw, hwrote.contents, ?_, hwrote.intact, ?_, hwrote.others⟩
      · rw [hself, hwrote.node, hdin]
      · rw [Shows, hself, hentry]
        simp
  · intro n hn
    have hread := readi_contents h hshow rfl hf hdev hoff hn
    rw [← hdin] at hread
    constructor
    · intro hfail
      rw [hread, if_pos hfail]
    · intro hok
      refine ⟨_, by rw [hread, if_neg hok], ?_, rfl⟩
      rw [List.length_take, List.length_drop, length_contents, ← hdin]

/-! ### A disk with one empty file -/

/-- A disk of 20 blocks, 10 of them free, with one empty file, that of the
first entry of the cache. -/
def emptyFile : FileSys where
  ninodes := 10
  blocks := { size := 20, size_lt := by decide, used := fun n => n < 10, data := fun _ _ => 0 }
  dinode i := if i = 2 then { type := .file, nlink := 1 } else {}
  icache ip := if ip = 0 then
      { inum := 2, ref := 1, locked := true, valid := true, din := { type := .file, nlink := 1 } }
    else {}
  devsw := { read := fun _ _ => none, write := fun _ _ => none }

theorem Intact.of_empty {lo : Nat} {s : FileSys} (hlo : 0 < lo)
    (hres : ∀ x < lo, s.blocks.used x = true)
    (hnode : ∀ i, (s.dinode i).size = 0 ∧ (s.dinode i).addrs = fun _ => 0) : Intact lo s where
  sound := by
    have hown : s.blocks.own s.dinode = fun _ => 0 := by
      funext k
      simp [Blocks.own, Blocks.slot, (hnode k.1).2]
    refine ⟨⟨hlo, ?_, ?_, ?_⟩, hres⟩
    · simp [hown]
    · simp [hown]
    · simp [hown]
  short i _ := by
    rw [(hnode i).1]
    decide
  full i _ := by
    rw [(hnode i).1]
    intro m hm
    exact absurd hm (by simp [nblocks, bsize])

theorem emptyFile_intact : Intact 10 emptyFile :=
  Intact.of_empty (by decide) (fun x hx => by simp [emptyFile, hx])
    (fun i => by by_cases hi : i = 2 <;> simp [emptyFile, hi])

/-- Three bytes at the start of the empty file. -/
theorem file_contents_emptyFile : ∃ s', writei 0 [1, 2, 3] 0 emptyFile = .ok (some 3, s') ∧
    s'.contents 2 = [1, 2, 3] := by
  have hshow : Shows emptyFile 0 := rfl
  have hw := (file_contents emptyFile_intact hshow (.inl rfl) (Nat.two_pow_pos 32)).1
    [1, 2, 3] (by decide)
  obtain ⟨s', h1, h2, -⟩ := hw.2 (by rw [WriteFails]; decide) (by decide +kernel)
  refine ⟨s', h1, ?_⟩
  rw [show (emptyFile.icache 0).inum = 2 from rfl] at h2
  rw [h2]
  decide

end Xv6.Fs
