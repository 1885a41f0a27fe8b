/-
Xv6.Fs.ContentTheorems — which inode has which block.

An inode has 141 places for a block number: `slot b ip s` is the `s`th
file block for `s < MAXFILE`, and the indirect block for `s = MAXFILE`.
`Owned lo nodes b` says that the places of the allocated inodes and the
bit map agree (`Exact`), and that the blocks below `lo`, the first data
block, are all marked. Reading and writing need less: with `Sound` there
may be blocks marked that no inode has, and an inode may have blocks
behind its end.

1. `balloc`, `addrAt` and `bmap`: `Mapped` is what a call does.
2. `readLoop` and `writeLoop`: where the blocks of an inode have no hole,
   reading allocates nothing and returns the bytes, and writing changes the
   bytes it is given and no other file. It returns if the free blocks are
   as many as the file lacks.
3. `itrunc` does not panic, frees the blocks of its inode and changes
   nothing else.
-/
import Xv6.Fs.Content
import Xv6.Lib.Own
import Xv6.Lib.Fold
import Mathlib.Data.List.GetD

namespace Xv6.Fs

open Xv6.Lib Function

variable {b'' : Blocks} {src : List UInt8} {addr bn e fuel i m n s : Nat} {k : Nat × Nat}
  {P : Nat → Prop}
  {b₁ b₂ : Blocks} {ip₁ : Dinode} {x : Nat} {nodes' : Nat → Dinode} {Q : Nat → Prop}

/-- The block number in place `s` of an inode. -/
def Blocks.slot (b : Blocks) (ip : Dinode) (s : Nat) : Nat :=
  if s < ndirect then ip.addrs s
  else if s < maxfile then
    if ip.addrs ndirect = 0 then 0 else word (b.data (ip.addrs ndirect)) (s - ndirect)
  else if s = maxfile then ip.addrs ndirect
  else 0

/-- What the places of all allocated inodes hold. -/
def Blocks.own (b : Blocks) (nodes : Nat → Dinode) (k : Nat × Nat) : Nat :=
  if (nodes k.1).type = .free then 0 else b.slot (nodes k.1) k.2

/-- The inodes and the bit map agree; `lo` is the first data block. -/
structure Owned (lo : Nat) (nodes : Nat → Dinode) (b : Blocks) : Prop where
  exact : Exact (b.own nodes) lo b.size b.used
  reserved : ∀ x < lo, b.used x = true

/-- The blocks of the inodes are marked, no two places share one, and no
block below `lo` is free. -/
structure Sound (lo : Nat) (nodes : Nat → Dinode) (b : Blocks) : Prop where
  apart : Apart (b.own nodes) lo b.size b.used
  reserved : ∀ x < lo, b.used x = true

theorem Owned.sound {lo : Nat} {nodes : Nat → Dinode} {b : Blocks} (h : Owned lo nodes b) :
    Sound lo nodes b :=
  ⟨h.exact.apart, h.reserved⟩

/-- The number of blocks of `n` bytes. -/
def nblocks (n : Nat) : Nat := (n + (bsize - 1)) / bsize

theorem nblocks_le_iff : nblocks n ≤ m ↔ n ≤ m * bsize := by
  have hlt : nblocks n ≤ m ↔ nblocks n < m + 1 := by omega
  rw [hlt, nblocks, Nat.div_lt_iff_lt_mul (by decide)]
  simp only [bsize]
  omega

theorem nblocks_mono (h : n ≤ m) : nblocks n ≤ nblocks m :=
  nblocks_le_iff.mpr (Nat.le_trans h (nblocks_le_iff.mp (Nat.le_refl _)))

/-- The places that a file of `e` bytes uses. -/
def places (e : Nat) : List Nat :=
  List.range (nblocks e) ++ if ndirect < nblocks e then [maxfile] else []

/-- How many blocks `ip` lacks to be a file of `e` bytes. -/
def Blocks.lacking (b : Blocks) (ip : Dinode) (e : Nat) : Nat :=
  (places e).countP fun s => b.slot ip s == 0

/-- How many blocks are free. -/
def Blocks.nfree (b : Blocks) : Nat := (List.range b.size).countP fun n => !b.used n

/-! ## 1. Allocation -/

section
variable {lo j n : Nat} {nodes : Nat → Dinode} {b b' : Blocks} {ip ip' : Dinode}

theorem mem_places : s ∈ places e ↔ s < nblocks e ∨ ndirect < nblocks e ∧ s = maxfile := by
  unfold places
  split
  · next h => simp [h]
  · next h => simp [h]

theorem nodup_places (he : nblocks e ≤ maxfile) : (places e).Nodup := by
  unfold places
  split
  · rw [List.nodup_append]
    refine ⟨List.nodup_range, by simp, ?_⟩
    intro s hs s' hs'
    have := List.mem_range.mp hs
    obtain rfl : s' = maxfile := by simpa using hs'
    omega
  · simpa using List.nodup_range

theorem lacking_mono {e' : Nat} (h : e ≤ e') : b.lacking ip e ≤ b.lacking ip e' := by
  have hle := nblocks_mono h
  apply List.Sublist.countP_le
  apply List.Sublist.append (List.range_sublist.mpr hle)
  by_cases hd : ndirect < nblocks e
  · have hd' : ndirect < nblocks e' := by omega
    simp [hd, hd']
  · simp [if_neg hd]

theorem lacking_add_one (he : nblocks e ≤ maxfile) (hs : s ∈ places e) (h0 : b.slot ip s = 0)
    (h1 : b'.slot ip' s ≠ 0) (hne : ∀ s', s' ≠ s → b'.slot ip' s' = b.slot ip s') :
    b'.lacking ip' e + 1 = b.lacking ip e :=
  countP_add_one (nodup_places he) hs (by simp [h0]) (by simp [h1]) fun s' hs' => by
    rw [hne s' hs']

theorem slot_direct (h : s < ndirect) : b.slot ip s = ip.addrs s := by
  simp [Blocks.slot, h]

theorem slot_indirect : b.slot ip maxfile = ip.addrs ndirect := by
  rw [Blocks.slot, if_neg (by decide), if_neg (by decide), if_pos rfl]

theorem slot_listed (h1 : ndirect ≤ s) (h2 : s < maxfile) (h0 : ip.addrs ndirect ≠ 0) :
    b.slot ip s = word (b.data (ip.addrs ndirect)) (s - ndirect) := by
  rw [Blocks.slot, if_neg (by omega), if_pos h2, if_neg h0]

theorem slot_unlisted (h1 : ndirect ≤ s) (h0 : ip.addrs ndirect = 0) : b.slot ip s = 0 := by
  rw [Blocks.slot, if_neg (by omega)]
  simp [h0]

theorem slot_congr (h : ip.addrs ndirect ≠ 0 →
    b'.data (ip.addrs ndirect) = b.data (ip.addrs ndirect)) (s : Nat) :
    b'.slot ip s = b.slot ip s := by
  by_cases h0 : ip.addrs ndirect = 0
  · simp [Blocks.slot, h0]
  · simp [Blocks.slot, h h0]

theorem own_of_ne (ip : Dinode) (h : i ≠ j) (s : Nat) :
    b.own (update nodes j ip) (i, s) = b.own nodes (i, s) := by
  simp [Blocks.own, h]

theorem own_self (nodes : Nat → Dinode) (j : Nat) (hip : ip.type ≠ .free) (s : Nat) :
    b.own (update nodes j ip) (j, s) = b.slot ip s := by
  simp [Blocks.own, hip]

theorem own_update_congr {d d' : Dinode} (ht : d'.type = d.type) (ha : d'.addrs = d.addrs) :
    b.own (update nodes j d') = b.own (update nodes j d) := by
  funext k
  obtain ⟨i, s⟩ := k
  by_cases hi : i = j
  · subst hi
    simp [Blocks.own, Blocks.slot, ht, ha]
  · rw [own_of_ne _ hi, own_of_ne _ hi]

theorem own_eq_slot (h : (nodes i).type ≠ .free) (s : Nat) :
    b.own nodes (i, s) = b.slot (nodes i) s := by
  simp [Blocks.own, h]

theorem own_congr (h : ∀ i, b.own nodes (i, maxfile) ≠ 0 →
    b'.data (b.own nodes (i, maxfile)) = b.data (b.own nodes (i, maxfile))) :
    b'.own nodes = b.own nodes := by
  funext k
  obtain ⟨i, s⟩ := k
  by_cases hf : (nodes i).type = .free
  · simp [Blocks.own, hf]
  · rw [own_eq_slot hf, own_eq_slot hf]
    have hi := h i
    rw [own_eq_slot hf, slot_indirect] at hi
    exact slot_congr hi s

/-- What `balloc` does where the bit map is in order. -/
structure Alloc (lo : Nat) (b b' : Blocks) (n : Nat) : Prop where
  low : lo ≤ n
  high : n < b.size
  free : b.used n = false
  size : b'.size = b.size
  used : b'.used = update b.used n true
  data : b'.data = update b.data n fun _ => 0

theorem Sound.balloc (h : Sound lo nodes b) (ha : b.balloc = .ok (n, b')) : Alloc lo b b' n := by
  unfold Blocks.balloc at ha
  split at ha
  · cases ha
  rename_i m hm
  cases ha
  have hfree : b.used n = false := by simpa using List.find?_some hm
  have hlt : n < b.size := List.mem_range.mp (List.mem_of_find?_eq_some hm)
  refine ⟨?_, hlt, hfree, rfl, rfl, rfl⟩
  by_contra hlo
  rw [h.reserved n (by omega)] at hfree
  cases hfree

section
variable (ha : Alloc lo b b' n)
include ha

theorem Alloc.own_ne (h : Sound lo nodes b) (k : Nat × Nat) : b.own nodes k ≠ n := by
  have hpos := h.apart.pos
  have hlow := ha.low
  exact h.apart.ne_of_free ha.free (by omega) k

theorem Alloc.own_eq (h : Sound lo nodes b) : b'.own nodes = b.own nodes := by
  apply own_congr
  intro i _
  rw [ha.data, update_of_ne (ha.own_ne h _)]

theorem Alloc.reserved (h : Sound lo nodes b) : ∀ x < lo, b'.used x = true := by
  intro x hx
  have hlow := ha.low
  rw [ha.used, update_of_ne (by omega)]
  exact h.reserved x hx

theorem Alloc.nfree : b'.nfree + 1 = b.nfree := by
  have hmem : n ∈ List.range b.size := List.mem_range.mpr ha.high
  rw [Blocks.nfree, ha.size]
  refine countP_add_one List.nodup_range hmem (by simp [ha.free]) (by simp [ha.used]) ?_
  intro x hx
  rw [ha.used, update_of_ne hx]

theorem Alloc.sound (h : Sound lo nodes b) (hown : b''.own nodes' = update (b.own nodes) k n)
    (hsize : b''.size = b'.size) (hused : b''.used = b'.used) : Sound lo nodes' b'' := by
  constructor
  · rw [hown, hsize, hused, ha.size, ha.used]
    exact h.apart.take ha.low ha.high ha.free
  · rw [hused]
    exact ha.reserved h

theorem Alloc.owned (h : Owned lo nodes b) (hk : b.own nodes k = 0)
    (hown : b''.own nodes' = update (b.own nodes) k n) (hsize : b''.size = b'.size)
    (hused : b''.used = b'.used) : Owned lo nodes' b'' := by
  constructor
  · rw [hown, hsize, hused, ha.size, ha.used]
    exact h.exact.take hk ha.low ha.high ha.free
  · rw [hused]
    exact ha.reserved h.sound

end

/-! ### `addrAt` and `bmap` -/

theorem own_setAddr_direct (hi : i < ndirect) (hip : (nodes j).type ≠ .free) :
    b.own (update nodes j ((nodes j).setAddr i n)) =
      update (b.own nodes) (j, i) n := by
  have hind : ((nodes j).setAddr i n).addrs ndirect = (nodes j).addrs ndirect := by
    exact Dinode.setAddr_of_ne _ _ _ (by omega)
  funext k
  obtain ⟨i', s⟩ := k
  by_cases hj : i' = j
  · subst hj
    rw [own_self _ _ (by simpa using hip)]
    by_cases hs : s = i
    · subst hs
      rw [update_self, slot_direct hi, Dinode.setAddr_self]
    · rw [update_of_ne (by simp [hs]), own_eq_slot hip]
      by_cases hd : s < ndirect
      · rw [slot_direct hd, slot_direct hd, Dinode.setAddr_of_ne _ _ _ hs]
      · simp only [Blocks.slot, if_neg hd, hind]
  · rw [own_of_ne _ hj, update_of_ne (by simp [hj])]

theorem own_setAddr_indirect (hip : (nodes j).type ≠ .free) (h0 : (nodes j).addrs ndirect = 0)
    (hn : n ≠ 0) (hz : b.data n = fun _ => 0) :
    b.own (update nodes j ((nodes j).setAddr ndirect n)) =
      update (b.own nodes) (j, maxfile) n := by
  have hind : ((nodes j).setAddr ndirect n).addrs ndirect = n := by
    exact Dinode.setAddr_self _ _ _
  funext k
  obtain ⟨i', s⟩ := k
  by_cases hj : i' = j
  · subst hj
    rw [own_self _ _ (by simpa using hip)]
    by_cases hs : s = maxfile
    · subst hs
      rw [update_self, slot_indirect, hind]
    · rw [update_of_ne (by simp [hs]), own_eq_slot hip]
      by_cases hd : s < ndirect
      · rw [slot_direct hd, slot_direct hd, Dinode.setAddr_of_ne _ _ _ (by omega)]
      · rw [slot_unlisted (by omega) h0]
        by_cases hm : s < maxfile
        · rw [slot_listed (by omega) hm (by rw [hind]; exact hn), hind, hz]
          simp [word]
        · rw [Blocks.slot, if_neg hd, if_neg hm, if_neg hs]
  · rw [own_of_ne _ hj, update_of_ne (by simp [hj])]

theorem own_setWord (hinj : ∀ k k', b.own nodes k = b.own nodes k' → b.own nodes k ≠ 0 → k = k')
    (hip : (nodes j).type ≠ .free) (h0 : (nodes j).addrs ndirect ≠ 0) (hm : m < nindirect)
    (hn : n < 2 ^ 32) (hd : b'.data = update b.data ((nodes j).addrs ndirect)
      (setWord (b.data ((nodes j).addrs ndirect)) m n)) :
    b'.own nodes = update (b.own nodes) (j, ndirect + m) n := by
  have hind : b.own nodes (j, maxfile) = (nodes j).addrs ndirect := by
    rw [own_eq_slot hip, slot_indirect]
  funext k
  obtain ⟨i', s⟩ := k
  by_cases hj : i' = j
  · subst hj
    rw [own_eq_slot hip]
    by_cases hs : s = ndirect + m
    · subst hs
      rw [update_self, slot_listed (by omega) (by simp only [maxfile]; omega) h0, hd,
        update_self, Nat.add_sub_cancel_left, word_setWord_self _ _ hn]
    · rw [update_of_ne (by simp [hs]), own_eq_slot hip]
      by_cases hl : ndirect ≤ s ∧ s < maxfile
      · rw [slot_listed hl.1 hl.2 h0, slot_listed hl.1 hl.2 h0, hd, update_self,
          word_setWord_of_ne _ _ (by omega)]
      · by_cases hd' : s < ndirect
        · rw [slot_direct hd', slot_direct hd']
        · have hm' : ¬ s < maxfile := fun h' => hl ⟨by omega, h'⟩
          simp only [Blocks.slot, if_neg hd', if_neg hm']
  · rw [update_of_ne (by simp [hj])]
    by_cases hf : (nodes i').type = .free
    · simp [Blocks.own, hf]
    · rw [own_eq_slot hf, own_eq_slot hf]
      apply slot_congr
      intro hne
      -- the indirect block of another inode is another block
      have hother : b.own nodes (i', maxfile) = (nodes i').addrs ndirect := by
        rw [own_eq_slot hf, slot_indirect]
      rw [hd, update_of_ne]
      intro heq
      have := hinj (i', maxfile) (j, maxfile) (by rw [hother, hind, heq])
        (by rw [hother]; exact hne)
      simp [hj] at this

/-- What `bmap` does for inode `j`: place `s` holds `addr` afterwards. What
it held is kept; otherwise `addr` is a new, zeroed block. Every block
taken is one less that the file lacks. -/
structure Mapped (lo : Nat) (nodes : Nat → Dinode) (j : Nat) (b : Blocks) (s addr : Nat)
    (ip' : Dinode) (b' : Blocks) : Prop where
  sound : Sound lo (update nodes j ip') b'
  owned : Owned lo nodes b → Owned lo (update nodes j ip') b'
  size : b'.size = b.size
  fields : ip' = { nodes j with addrs := ip'.addrs }
  addr_eq : b'.slot ip' s = addr
  addr_ne : addr ≠ 0
  kept : b.slot (nodes j) s ≠ 0 → ip' = nodes j ∧ b' = b
  fresh : b.slot (nodes j) s = 0 → b'.data addr = fun _ => 0
  slots : ∀ s', s' < maxfile → s' ≠ s → b'.slot ip' s' = b.slot (nodes j) s'
  others : ∀ i, i ≠ j → ∀ s', b'.own nodes (i, s') = b.own nodes (i, s')
  frame : ∀ k, b.own nodes k ≠ 0 → k ≠ (j, maxfile) →
    b'.data (b.own nodes k) = b.data (b.own nodes k)
  spent : ∀ e, nblocks e ≤ maxfile → s ∈ places e →
    b'.lacking ip' e + b.nfree = b.lacking (nodes j) e + b'.nfree

theorem Mapped.refl (h : Sound lo nodes b) (h0 : b.slot (nodes j) s ≠ 0) :
    Mapped lo nodes j b s (b.slot (nodes j) s) (nodes j) b where
  sound := by rw [update_eq_self]; exact h
  owned h := by rw [update_eq_self]; exact h
  size := rfl
  fields := rfl
  addr_eq := rfl
  addr_ne := h0
  kept _ := ⟨rfl, rfl⟩
  fresh h := absurd h h0
  slots _ _ _ := rfl
  others _ _ _ := rfl
  frame _ _ _ := rfl
  spent _ _ _ := rfl

theorem Alloc.mapped (hal : Alloc lo b b' n) (h : Sound lo nodes b) (hip : (nodes j).type ≠ .free)
    (h0 : b.slot (nodes j) s = 0) (hf : ip' = { nodes j with addrs := ip'.addrs })
    (hown : b'.own (update nodes j ip') = update (b.own nodes) (j, s) n) :
    Mapped lo nodes j b s n ip' b' := by
  have hpos := h.apart.pos
  have hlow := hal.low
  have hip' : ip'.type ≠ .free := by
    rw [hf]
    exact hip
  have hslot : ∀ s', b'.slot ip' s' = update (b.own nodes) (j, s) n (j, s') := by
    intro s'
    rw [← hown, own_self _ _ hip']
  constructor
  · exact hal.sound h hown rfl rfl
  · exact fun hx => hal.owned hx (by rw [own_eq_slot hip, h0]) hown rfl rfl
  · exact hal.size
  · exact hf
  · rw [hslot, update_self]
  · omega
  · exact fun hne => absurd h0 hne
  · intro _
    rw [hal.data, update_self]
  · intro s' _ hs
    rw [hslot, update_of_ne (by simp [hs]), own_eq_slot hip]
  · intro i' _ s'
    rw [hal.own_eq h]
  · intro k _ _
    rw [hal.data, update_of_ne (hal.own_ne h k)]
  · intro e he hs
    have hlack : b'.lacking ip' e + 1 = b.lacking (nodes j) e := lacking_add_one he hs h0
      (by rw [hslot, update_self]; omega) (by
        intro s' hne
        rw [hslot, update_of_ne (by simp [hne]), own_eq_slot hip])
    have hfree := hal.nfree
    omega

theorem addrAt_direct (h : Sound lo nodes b) (hip : (nodes j).type ≠ .free) (hi : i < ndirect)
    (ha : b.addrAt (nodes j) i = .ok (addr, ip', b')) : Mapped lo nodes j b i addr ip' b' := by
  have hs : b.slot (nodes j) i = (nodes j).addrs i := slot_direct hi
  unfold Blocks.addrAt at ha
  split at ha
  · next h0 =>
    obtain ⟨⟨n, b₁⟩, hb, hr⟩ := bind_eq_ok.mp ha
    have hal := h.balloc hb
    have hown := hal.own_eq h
    cases hr
    exact hal.mapped h hip (hs.trans h0) rfl (by rw [own_setAddr_direct hi hip, hown])
  rename_i h0
  cases ha
  rw [← hs] at h0 ⊢
  exact Mapped.refl h h0

theorem addrAt_indirect (h : Sound lo nodes b) (hip : (nodes j).type ≠ .free)
    (ha : b.addrAt (nodes j) ndirect = .ok (addr, ip', b')) :
    Mapped lo nodes j b maxfile addr ip' b' := by
  have hs : b.slot (nodes j) maxfile = (nodes j).addrs ndirect := slot_indirect
  unfold Blocks.addrAt at ha
  split at ha
  · next h0 =>
    obtain ⟨⟨n, b₁⟩, hb, hr⟩ := bind_eq_ok.mp ha
    have hal := h.balloc hb
    have hown := hal.own_eq h
    have hpos := h.apart.pos
    have hlow := hal.low
    cases hr
    refine hal.mapped h hip (hs.trans h0) rfl ?_
    rw [own_setAddr_indirect hip h0 (by omega) (by rw [hal.data, update_self]), hown]
  rename_i h0
  cases ha
  rw [← hs] at h0 ⊢
  exact Mapped.refl h h0

theorem slot_above (h : maxfile < s) : b.slot ip s = 0 := by
  have hd : ¬ s < ndirect := by simp only [maxfile] at h; omega
  rw [Blocks.slot, if_neg hd, if_neg (by omega), if_neg (by omega)]

theorem Mapped.type_ne (hm : Mapped lo nodes j b s addr ip' b') (hip : (nodes j).type ≠ .free) :
    ip'.type ≠ .free := by
  rw [hm.fields]
  exact hip

/-- Every place but the one mapped and that of the indirect block holds
what it did. -/
theorem Mapped.own_eq (hm : Mapped lo nodes j b s addr ip' b') (hip : (nodes j).type ≠ .free)
    (hk : k ≠ (j, s)) (hk' : k ≠ (j, maxfile)) :
    b'.own (update nodes j ip') k = b.own nodes k := by
  obtain ⟨i, s'⟩ := k
  by_cases hi : i = j
  · subst hi
    rw [own_self _ _ (hm.type_ne hip), own_eq_slot hip]
    have hs : s' ≠ s := by simpa using hk
    have hs' : s' ≠ maxfile := by simpa using hk'
    rcases Nat.lt_or_gt_of_ne hs' with hlt | hgt
    · exact hm.slots s' hlt hs
    · rw [slot_above hgt, slot_above hgt]
  · rw [own_of_ne _ hi, hm.others i hi]

theorem bmap_listed {ind : Nat} {b₃ : Blocks} (hip : (nodes j).type ≠ .free)
    (hm : Mapped lo nodes j b maxfile ind ip₁ b₁) (hlt : m < nindirect)
    (h0 : b₁.slot ip₁ (ndirect + m) = 0) (hal : Alloc lo b₁ b₂ n) (hsize : b₃.size = b₂.size)
    (hused : b₃.used = b₂.used) (hdata : b₃.data = update b₂.data ind (setWord (b₂.data ind) m n)) :
    Mapped lo nodes j b (ndirect + m) n ip₁ b₃ := by
  have hpos := hm.sound.apart.pos
  have hlow := hal.low
  have hip₁ := hm.type_ne hip
  have hnodes : update nodes j ip₁ j = ip₁ := update_self ..
  have hne : ndirect + m ≠ maxfile := by simp only [maxfile]; omega
  have hmax : ndirect + m < maxfile := by simp only [maxfile]; omega
  have hind : ip₁.addrs ndirect = ind := by rw [← slot_indirect (b := b₁), hm.addr_eq]
  have hown₂ := hal.own_eq hm.sound
  have hown : b₃.own (update nodes j ip₁) =
      update (b₁.own (update nodes j ip₁)) (j, ndirect + m) n := by
    rw [← hown₂]
    refine own_setWord ?_ (by rw [hnodes]; exact hip₁) (by rw [hnodes, hind]; exact hm.addr_ne) hlt
      (Nat.lt_trans hal.high b₁.size_lt) (by rw [hnodes, hind]; exact hdata)
    rw [hown₂]
    exact hm.sound.apart.inj
  have hslot : ∀ s, s ≠ ndirect + m → b₃.slot ip₁ s = b₁.slot ip₁ s := by
    intro s hs
    rw [← own_self nodes j hip₁, hown, update_of_ne (by simp [hs]),
      own_self _ _ hip₁]
  have hbefore : b.slot (nodes j) (ndirect + m) = 0 := by rw [← hm.slots _ hmax hne, h0]
  have hnind : n ≠ ind := by
    intro heq
    apply hal.own_ne hm.sound (j, maxfile)
    rw [own_self _ _ hip₁, hm.addr_eq, heq]
  constructor
  · exact hal.sound hm.sound hown hsize hused
  · exact fun hx => hal.owned (hm.owned hx) (by rw [own_self _ _ hip₁, h0]) hown hsize hused
  · rw [hsize, hal.size, hm.size]
  · exact hm.fields
  · rw [← own_self nodes j hip₁, hown, update_self]
  · omega
  · exact fun h => absurd hbefore h
  · intro _
    rw [hdata, update_of_ne hnind, hal.data, update_self]
  · intro s hs hsm
    rw [hslot s hsm, hm.slots s hs (by omega)]
  · intro i hi s
    rw [← own_of_ne ip₁ hi, hown, update_of_ne (by simp [hi]), own_of_ne _ hi,
      hm.others i hi]
  · intro k hk hk'
    have hkeep := hm.own_eq hip hk' hk'
    have hkn : b.own nodes k ≠ n := by
      rw [← hkeep]
      exact hal.own_ne hm.sound k
    have hkind : b.own nodes k ≠ ind := by
      intro heq
      apply hk'
      apply hm.sound.apart.inj
      · rw [hkeep, own_self _ _ hip₁, hm.addr_eq, heq]
      · rw [hkeep]
        exact hk
    rw [hdata, update_of_ne hkind, hal.data, update_of_ne hkn, hm.frame k hk hk']
  · intro e he hs
    -- one block for the list, if there was none, and one for the place
    have hlt' : ndirect + m < nblocks e := by
      rcases mem_places.mp hs with h' | h'
      · exact h'
      · exact absurd h'.2 hne
    have h1 := hm.spent e he (mem_places.mpr (.inr ⟨by omega, rfl⟩))
    have h2 : b₃.lacking ip₁ e + 1 = b₁.lacking ip₁ e := lacking_add_one he hs h0
      (by rw [← own_self nodes j hip₁, hown, update_self]; omega) hslot
    have h3 := hal.nfree
    have h4 : b₃.nfree = b₂.nfree := by rw [Blocks.nfree, Blocks.nfree, hsize, hused]
    omega

/-- **What `bmap` does.** -/
theorem bmap_spec (h : Sound lo nodes b) (hip : (nodes j).type ≠ .free)
    (hb : b.bmap (nodes j) bn = .ok (addr, ip', b')) :
    bn < maxfile ∧ Mapped lo nodes j b bn addr ip' b' := by
  unfold Blocks.bmap at hb
  split at hb
  · next hd => exact ⟨by simp only [maxfile]; omega, addrAt_direct h hip hd hb⟩
  rename_i hd
  split at hb
  · next hl =>
    obtain ⟨m, rfl⟩ : ∃ m, bn = ndirect + m := ⟨bn - ndirect, by omega⟩
    rw [Nat.add_sub_cancel_left] at hl hb
    have hmax : ndirect + m < maxfile := by simp only [maxfile]; omega
    refine ⟨hmax, ?_⟩
    obtain ⟨⟨ind, ip₁, b₁⟩, ha, hr⟩ := bind_eq_ok.mp hb
    have hm := addrAt_indirect h hip ha
    have hind : ip₁.addrs ndirect = ind := by rw [← slot_indirect (b := b₁), hm.addr_eq]
    have hword : b₁.slot ip₁ (ndirect + m) = word (b₁.data ind) m := by
      rw [slot_listed (by omega) hmax (by rw [hind]; exact hm.addr_ne), hind,
        Nat.add_sub_cancel_left]
    have hbefore : b₁.slot ip₁ (ndirect + m) = b.slot (nodes j) (ndirect + m) :=
      hm.slots _ hmax (by omega)
    simp only [Blocks.listedAt] at hr
    split at hr
    · next h0 =>
      obtain ⟨⟨n, b₂⟩, hal, hr⟩ := bind_eq_ok.mp hr
      cases hr
      exact bmap_listed hip hm hl (by rw [hword, h0]) (hm.sound.balloc hal) rfl rfl rfl
    rename_i h0
    cases hr
    have hne : b.slot (nodes j) (ndirect + m) ≠ 0 := by
      rw [← hbefore, hword]
      exact h0
    -- the indirect block was there already
    have hlisted : b.slot (nodes j) maxfile ≠ 0 := by
      intro hz
      rw [slot_indirect] at hz
      exact hne (slot_unlisted (by omega) hz)
    obtain ⟨rfl, rfl⟩ := hm.kept hlisted
    rw [← hword]
    exact Mapped.refl h hne
  · cases hb

end

/-! ## 2. Reading and writing -/

/-- The inode has its first `k` blocks and no others. -/
def Dense (b : Blocks) (ip : Dinode) (k : Nat) : Prop :=
  ∀ s < maxfile, b.slot ip s ≠ 0 ↔ s < k

/-- The inode has its first `k` blocks. -/
def Full (b : Blocks) (ip : Dinode) (k : Nat) : Prop :=
  ∀ s < k, b.slot ip s ≠ 0

theorem Dense.full {b : Blocks} {ip : Dinode} {k : Nat} (h : Dense b ip k) (hk : k ≤ maxfile) :
    Full b ip k := by
  intro s hs
  exact (h s (by omega)).mpr hs

/-- Byte `o` of the contents. -/
def Blocks.byteAt (b : Blocks) (ip : Dinode) (o : Nat) : UInt8 :=
  b.data (b.slot ip (o / bsize)) (o % bsize)

section
variable {lo j k off n : Nat} {nodes : Nat → Dinode} {b b' : Blocks} {ip ip' : Dinode}

theorem bmap_of_ne (hbn : bn < maxfile) (h : b.slot ip bn ≠ 0) :
    b.bmap ip bn = .ok (b.slot ip bn, ip, b) := by
  unfold Blocks.bmap
  by_cases hd : bn < ndirect
  · rw [slot_direct hd] at h ⊢
    rw [if_pos hd, Blocks.addrAt, if_neg h]
    rfl
  · have hl : bn - ndirect < nindirect := by simp only [maxfile] at hbn; omega
    have hind : ip.addrs ndirect ≠ 0 := fun h0 => h (slot_unlisted (by omega) h0)
    have ha : b.addrAt ip ndirect = .ok (ip.addrs ndirect, ip, b) := by
      rw [Blocks.addrAt, if_neg hind]
      rfl
    rw [slot_listed (by omega) hbn hind] at h ⊢
    have hlist : b.listedAt ip (ip.addrs ndirect) (bn - ndirect) =
        .ok (word (b.data (ip.addrs ndirect)) (bn - ndirect), ip, b) := by
      rw [Blocks.listedAt, if_neg h]
    rw [if_neg hd, if_pos hl]
    exact bind_eq_ok.mpr ⟨_, ha, hlist⟩

theorem add_div_mod {c : Nat} (h : off % c + i < c) :
    (off + i) / c = off / c ∧ (off + i) % c = off % c + i := by
  have heq : off + i = off % c + i + c * (off / c) := by
    have := Nat.div_add_mod off c
    omega
  rw [heq, Nat.add_mul_div_left _ _ (by omega), Nat.add_mul_mod_self_left, Nat.div_eq_of_lt h,
    Nat.mod_eq_of_lt h, Nat.zero_add]
  exact ⟨rfl, rfl⟩

theorem byteAt_add (h : off % bsize + i < bsize) :
    b.byteAt ip (off + i) = b.data (b.slot ip (off / bsize)) (off % bsize + i) := by
  obtain ⟨h1, h2⟩ := add_div_mod h
  rw [Blocks.byteAt, h1, h2]

/-- **Reading allocates nothing** and returns the bytes asked for. -/
theorem readLoop_eq (hd : Full b ip k) (hk : k ≤ maxfile) (hfuel : n ≤ fuel)
    (hn : off + n ≤ k * bsize) : Blocks.readLoop fuel b ip off n =
      .ok ((List.range n).map fun i => b.byteAt ip (off + i), ip, b) := by
  induction fuel generalizing off n with
  | zero =>
    obtain rfl : n = 0 := by omega
    rfl
  | succ fuel ih =>
    unfold Blocks.readLoop
    by_cases h0 : n = 0
    · simp [h0]
    · have hblock : off / bsize < k := by
        rw [Nat.div_lt_iff_lt_mul (by decide)]
        omega
      have hmod : off % bsize < bsize := Nat.mod_lt _ (by decide)
      have hne : b.slot ip (off / bsize) ≠ 0 := hd _ hblock
      generalize hm : min n (bsize - off % bsize) = m
      have hm1 : 0 < m ∧ m ≤ n ∧ off % bsize + m ≤ bsize := by omega
      have hrec := ih (show n - m ≤ fuel by omega) (show off + m + (n - m) ≤ k * bsize by omega)
      rw [if_neg h0, bmap_of_ne (by omega) hne]
      simp only [bind, Except.bind, pure, Except.pure, hrec]
      -- the bytes of this round and those of the rest
      have hsplit : List.range n = List.range m ++ (List.range (n - m)).map (m + ·) := by
        rw [← List.range_add]
        congr
        omega
      rw [hsplit, List.map_append, List.map_map]
      congr 3
      · apply List.map_congr_left
        intro i hi
        rw [byteAt_add (by have := List.mem_range.mp hi; omega)]
      · simp [Function.comp_def, Nat.add_assoc]

/-- What `writeLoop` does for inode `j`, which had its first `k` blocks: it
has those up to the end of the write then, the bytes from `off` on are
those of `src`, other bytes of its blocks are as before, and other inodes
have the blocks they had, with the bytes these had. If there was no block
behind the first `k`, the new ones are 0 where nothing is written. -/
structure Written (lo : Nat) (nodes : Nat → Dinode) (j k : Nat) (b : Blocks) (off : Nat)
    (src : List UInt8) (ip' : Dinode) (b' : Blocks) : Prop where
  sound : Sound lo (update nodes j ip') b'
  owned : Owned lo nodes b → Owned lo (update nodes j ip') b'
  size : b'.size = b.size
  fields : ip' = { nodes j with addrs := ip'.addrs }
  same : nblocks (off + src.length) ≤ k → ip' = nodes j
  full : Full b' ip' (max k (nblocks (off + src.length)))
  dense : Dense b (nodes j) k → Dense b' ip' (max k (nblocks (off + src.length)))
  bytes : ∀ o, off ≤ o → o < off + src.length → b'.byteAt ip' o = src.getD (o - off) 0
  kept : ∀ o, o < k * bsize → ¬ (off ≤ o ∧ o < off + src.length) →
    b'.byteAt ip' o = b.byteAt (nodes j) o
  zero : Dense b (nodes j) k → ∀ o, o < max k (nblocks (off + src.length)) * bsize →
    k * bsize ≤ o → ¬ (off ≤ o ∧ o < off + src.length) → b'.byteAt ip' o = 0
  others : ∀ i, i ≠ j → ∀ s, b'.own nodes (i, s) = b.own nodes (i, s)
  frame : ∀ i, i ≠ j → ∀ s, b.own nodes (i, s) ≠ 0 →
    b'.data (b.own nodes (i, s)) = b.data (b.own nodes (i, s))
  spent : ∀ e, nblocks e ≤ maxfile → off + src.length ≤ e →
    b'.lacking ip' e + b.nfree = b.lacking (nodes j) e + b'.nfree

theorem Sound.of_data {c : Block} (h : Sound lo nodes b) (hip : (nodes j).type ≠ .free)
    (hs : s < maxfile) (hd : b'.data = update b.data (b.slot (nodes j) s) c)
    (hsize : b'.size = b.size) (hused : b'.used = b.used) :
    b'.own nodes = b.own nodes ∧ Sound lo nodes b' := by
  have hown : b'.own nodes = b.own nodes := by
    apply own_congr
    intro i hi
    rw [hd, update_of_ne]
    intro heq
    have := h.apart.inj (i, maxfile) (j, s) (by rw [heq, own_eq_slot hip]) hi
    simp only [Prod.mk.injEq] at this
    omega
  refine ⟨hown, ?_, ?_⟩
  · rw [hown, hsize, hused]
    exact h.apart
  · rw [hused]
    exact h.reserved

theorem Mapped.dense (hm : Mapped lo nodes j b bn addr ip' b') (hd : Dense b (nodes j) k)
    (hbn : bn ≤ k) : Dense b' ip' (max k (bn + 1)) := by
  intro s hs
  by_cases hsb : s = bn
  · subst hsb
    rw [hm.addr_eq]
    exact iff_of_true hm.addr_ne (by omega)
  · rw [hm.slots s hs hsb, hd s hs]
    omega

theorem Mapped.full (hm : Mapped lo nodes j b bn addr ip' b') (hd : Full b (nodes j) k)
    (hk : k ≤ maxfile) (hbn : bn ≤ k) : Full b' ip' (max k (bn + 1)) := by
  intro s hs
  by_cases hsb : s = bn
  · subst hsb
    rw [hm.addr_eq]
    exact hm.addr_ne
  · rw [hm.slots s (by omega) hsb]
    exact hd s (by omega)

theorem Written.nil (h : Sound lo nodes b) (hd : Full b (nodes j) k) (hoff : off ≤ k * bsize) :
    Written lo nodes j k b off [] (nodes j) b := by
  have hk : max k (nblocks (off + ([] : List UInt8).length)) = k := by
    have := nblocks_le_iff.mpr hoff
    simp only [List.length_nil, Nat.add_zero]
    omega
  constructor
  · rw [update_eq_self]
    exact h
  · rw [update_eq_self]
    exact id
  · rfl
  · rfl
  · exact fun _ => rfl
  · rw [hk]
    exact hd
  · rw [hk]
    exact id
  · intro o h1 h2
    simp only [List.length_nil] at h2
    omega
  · intro o _ _
    rfl
  · intro _ o h1 h2
    rw [hk] at h1
    omega
  · intro i _ s
    rfl
  · intro i _ s _
    rfl
  · intro e _ _
    rfl

theorem Written.append {src₁ src₂ : List UInt8} {ip₂ : Dinode}
    (h₁ : Written lo nodes j k b off src₁ ip₁ b₁)
    (h₂ : Written lo (update nodes j ip₁) j (max k (nblocks (off + src₁.length))) b₁
      (off + src₁.length) src₂ ip₂ b₂) :
    Written lo nodes j k b off (src₁ ++ src₂) ip₂ b₂ := by
  have hmono : nblocks (off + src₁.length) ≤ nblocks (off + src₁.length + src₂.length) :=
    nblocks_mono (by omega)
  have hk : max (max k (nblocks (off + src₁.length))) (nblocks (off + src₁.length + src₂.length)) =
      max k (nblocks (off + (src₁ ++ src₂).length)) := by
    rw [List.length_append, ← Nat.add_assoc]
    omega
  have hcover : off + src₁.length ≤ max k (nblocks (off + src₁.length)) * bsize :=
    nblocks_le_iff.mp (by omega)
  have hle : k * bsize ≤ max k (nblocks (off + src₁.length)) * bsize :=
    Nat.mul_le_mul_right _ (by omega)
  have hnode : update nodes j ip₁ j = ip₁ := update_self ..
  have hother : ∀ i, i ≠ j → ∀ s, b₁.own (update nodes j ip₁) (i, s) =
      b.own nodes (i, s) := by
    intro i hi s
    rw [own_of_ne _ hi, h₁.others i hi]
  -- bytes of the first write are not in the second
  have hkept : ∀ o, o < max k (nblocks (off + src₁.length)) * bsize →
      ¬ (off + src₁.length ≤ o ∧ o < off + src₁.length + src₂.length) →
      b₂.byteAt ip₂ o = b₁.byteAt ip₁ o := by
    intro o ho hout
    rw [h₂.kept o ho hout, hnode]
  constructor
  · simpa using h₂.sound
  · intro hx
    simpa using h₂.owned (h₁.owned hx)
  · rw [h₂.size, h₁.size]
  · rw [h₂.fields, hnode, h₁.fields]
  · intro hle'
    rw [List.length_append, ← Nat.add_assoc] at hle'
    rw [h₂.same (by omega), hnode, h₁.same (by omega)]
  · rw [← hk]
    exact h₂.full
  · intro hx
    rw [← hk]
    exact h₂.dense (by rw [hnode]; exact h₁.dense hx)
  · intro o ho1 ho2
    rw [List.length_append] at ho2
    by_cases ho : off + src₁.length ≤ o
    · rw [h₂.bytes o ho (by omega), List.getD_append_right _ _ _ _ (by omega)]
      congr 1
      omega
    · rw [hkept o (Nat.lt_of_lt_of_le (by omega) hcover) (by omega), h₁.bytes o ho1 (by omega),
        List.getD_append _ _ _ _ (by omega)]
  · intro o ho hout
    rw [List.length_append] at hout
    rw [hkept o (Nat.lt_of_lt_of_le ho hle) (by omega), h₁.kept o ho (by omega)]
  · intro hx o ho hold hout
    rw [List.length_append] at hout
    by_cases ho₁ : o < max k (nblocks (off + src₁.length)) * bsize
    · rw [hkept o ho₁ (by omega), h₁.zero hx o ho₁ hold (by omega)]
    · exact h₂.zero (by rw [hnode]; exact h₁.dense hx) o (by rw [hk]; exact ho)
        (Nat.le_of_not_lt ho₁) (by omega)
  · intro i hi s
    rw [← own_of_ne ip₁ hi, h₂.others i hi, hother i hi]
  · intro i hi s h0
    have h0' : b₁.own (update nodes j ip₁) (i, s) ≠ 0 := by
      rw [hother i hi]
      exact h0
    have hf := h₂.frame i hi s h0'
    rw [hother i hi] at hf
    rw [hf, h₁.frame i hi s h0]
  · intro e he hend
    rw [List.length_append] at hend
    have hs₁ := h₁.spent e he (by omega)
    have hs₂ := h₂.spent e he (by omega)
    rw [hnode] at hs₂
    omega

theorem Mapped.written {chunk : List UInt8} (hm : Mapped lo nodes j b (off / bsize) addr ip' b')
    (hip : (nodes j).type ≠ .free) (hd : Full b (nodes j) k) (hk : k ≤ maxfile)
    (hbn : off / bsize < maxfile) (hoff : off ≤ k * bsize) (hc : chunk ≠ [])
    (hfit : off % bsize + chunk.length ≤ bsize) :
    Written lo nodes j k b off chunk ip' (b'.put addr (off % bsize) chunk) := by
  generalize hb₂ : b'.put addr (off % bsize) chunk = b₂
  have hsize : b₂.size = b'.size := by rw [← hb₂]; rfl
  have hused : b₂.used = b'.used := by rw [← hb₂]; rfl
  have hdata : b₂.data = update b'.data addr
      (Blocks.overwrite (b'.data addr) (off % bsize) chunk) := by rw [← hb₂]; rfl
  have hip' := hm.type_ne hip
  have hnode : update nodes j ip' j = ip' := update_self ..
  have hpos : 0 < chunk.length := List.length_pos_iff.mpr hc
  have hdm := Nat.div_add_mod off bsize
  have hbk : off / bsize ≤ k := by
    have := Nat.div_le_div_right (c := bsize) hoff
    rwa [Nat.mul_div_cancel _ (by decide)] at this
  have hcount : nblocks (off + chunk.length) = off / bsize + 1 := by
    have hle : nblocks (off + chunk.length) ≤ off / bsize + 1 := nblocks_le_iff.mpr (by
      simp only [bsize] at hdm hfit ⊢
      omega)
    have hlt : ¬ nblocks (off + chunk.length) ≤ off / bsize := by
      rw [nblocks_le_iff]
      simp only [bsize] at hdm ⊢
      omega
    omega
  obtain ⟨hown, hsound⟩ := hm.sound.of_data (j := j) (s := off / bsize) (by rwa [hnode]) hbn
    (by rw [hnode, hm.addr_eq]; exact hdata) hsize hused
  have hslot : ∀ s, b₂.slot ip' s = b'.slot ip' s := by
    intro s
    rw [← own_self nodes j hip', hown, own_self _ _ hip']
  -- a file block of another place is another block
  have hapart : ∀ key, b'.own (update nodes j ip') key ≠ 0 → key ≠ (j, off / bsize) →
      b'.own (update nodes j ip') key ≠ addr := by
    intro key h0 hne heq
    apply hne
    apply hm.sound.apart.inj _ _ _ h0
    rw [heq, own_self _ _ hip', hm.addr_eq]
  -- the block written, and what is in it besides the chunk
  have hblock : ∀ o, o / bsize = off / bsize → b₂.byteAt ip' o =
      if off ≤ o ∧ o < off + chunk.length then chunk.getD (o - off) 0
      else b'.data addr (o % bsize) := by
    intro o ho
    have hodm := Nat.div_add_mod o bsize
    rw [Blocks.byteAt, hslot, hdata, ho, hm.addr_eq, update_self, Blocks.overwrite]
    rw [ho] at hodm
    by_cases hin : off ≤ o ∧ o < off + chunk.length
    · rw [if_pos hin, if_pos (by omega)]
      congr 1
      omega
    · rw [if_neg hin, if_neg (by omega)]
  have hinside : ∀ o, off ≤ o → o < off + chunk.length → o / bsize = off / bsize := by
    intro o h1 h2
    have hmod : off % bsize + (o - off) < bsize := by omega
    have := (add_div_mod hmod).1
    rwa [Nat.add_sub_cancel' h1] at this
  constructor
  · exact hsound
  · intro hx
    obtain ⟨hexact, hres⟩ := hm.owned hx
    constructor
    · rw [hown, hsize, hused]
      exact hexact
    · rw [hused]
      exact hres
  · rw [hsize, hm.size]
  · exact hm.fields
  · intro hle
    exact (hm.kept (hd _ (by omega))).1
  · intro s hs
    rw [hslot]
    rw [hcount] at hs
    exact hm.full hd hk hbk s hs
  · intro hx s hs
    rw [hslot, hcount]
    exact hm.dense hx hbk s hs
  · intro o h1 h2
    rw [hblock o (hinside o h1 h2), if_pos ⟨h1, h2⟩]
  · intro o ho hout
    have hsk : o / bsize < k := (Nat.div_lt_iff_lt_mul (by decide)).mpr ho
    have hne : b.slot (nodes j) (o / bsize) ≠ 0 := hd _ hsk
    by_cases hob : o / bsize = off / bsize
    · rw [hblock o hob, if_neg hout]
      obtain ⟨h1, h2⟩ := hm.kept (by rw [← hob]; exact hne)
      rw [Blocks.byteAt, hob, ← hm.addr_eq, h1, h2]
    · have hsm : o / bsize < maxfile := by omega
      have hkeep := hm.slots _ hsm hob
      have hother : b'.slot ip' (o / bsize) ≠ addr := by
        have := hapart (j, o / bsize)
        rw [own_self _ _ hip'] at this
        exact this (by rw [hkeep]; exact hne) (by simpa using hob)
      have hframe := hm.frame (j, o / bsize) (by rw [own_eq_slot hip]; exact hne)
        (by simp only [ne_eq, Prod.mk.injEq, true_and]; omega)
      rw [own_eq_slot hip] at hframe
      rw [Blocks.byteAt, hslot, hdata, update_of_ne hother, hkeep, hframe, Blocks.byteAt]
  · intro hx o ho hold hout
    have hs : o / bsize < max k (off / bsize + 1) := by
      rw [← hcount]
      exact (Nat.div_lt_iff_lt_mul (by decide)).mpr ho
    have hsk : k ≤ o / bsize := (Nat.le_div_iff_mul_le (by decide)).mpr hold
    have hob : o / bsize = off / bsize := by omega
    have hnew : b.slot (nodes j) (off / bsize) = 0 := by
      by_contra hne
      have := (hx _ hbn).mp hne
      omega
    rw [hblock o hob, if_neg hout, hm.fresh hnew]
  · intro i hi s
    rw [← own_of_ne ip' hi, hown, own_of_ne _ hi, hm.others i hi]
  · intro i hi s h0
    have hkeep : b'.own (update nodes j ip') (i, s) = b.own nodes (i, s) := by
      rw [own_of_ne _ hi, hm.others i hi]
    have hne := hapart (i, s) (by rw [hkeep]; exact h0) (by simp [hi])
    rw [hkeep] at hne
    rw [hdata, update_of_ne hne, hm.frame (i, s) h0 (by simp [hi])]
  · intro e he hend
    have hlt : off / bsize < nblocks e := by
      have := nblocks_mono hend
      omega
    have hspent := hm.spent e he (mem_places.mpr (.inl hlt))
    have hlack : b₂.lacking ip' e = b'.lacking ip' e := by
      apply List.countP_congr
      intro s _
      rw [hslot]
    have hfree : b₂.nfree = b'.nfree := by rw [Blocks.nfree, Blocks.nfree, hsize, hused]
    omega

theorem writeLoop_succ (h : src ≠ []) :
    Blocks.writeLoop (fuel + 1) b ip off src = b.bmap ip (off / bsize) >>= fun r =>
      Blocks.writeLoop fuel
        (r.2.2.put r.1 (off % bsize) (src.take (min src.length (bsize - off % bsize)))) r.2.1
        (off + min src.length (bsize - off % bsize))
        (src.drop (min src.length (bsize - off % bsize))) := by
  rw [Blocks.writeLoop, if_neg h]

/-- **What `writeLoop` does.** -/
theorem writeLoop_spec {off' : Nat} (h : Sound lo nodes b) (hip : (nodes j).type ≠ .free)
    (hd : Full b (nodes j) k) (hk : k ≤ maxfile) (hoff : off ≤ k * bsize)
    (hfuel : src.length ≤ fuel)
    (hw : Blocks.writeLoop fuel b (nodes j) off src = .ok (off', ip', b')) :
    off' = off + src.length ∧ Written lo nodes j k b off src ip' b' := by
  induction fuel generalizing nodes b off src k with
  | zero =>
    obtain rfl : src = [] := List.eq_nil_of_length_eq_zero (by omega)
    cases hw
    exact ⟨by simp, Written.nil h hd hoff⟩
  | succ fuel ih =>
    by_cases h0 : src = []
    · subst h0
      cases hw
      exact ⟨by simp, Written.nil h hd hoff⟩
    · rw [writeLoop_succ h0] at hw
      obtain ⟨⟨addr, ip₁, b₁⟩, hb, hr⟩ := bind_eq_ok.mp hw
      obtain ⟨hbn, hm⟩ := bmap_spec h hip hb
      have hlen : 0 < src.length := List.length_pos_iff.mpr h0
      have hmod : off % bsize < bsize := Nat.mod_lt _ (by decide)
      generalize hmin : min src.length (bsize - off % bsize) = m at hr
      have htake : (src.take m).length = m := by
        rw [List.length_take]
        omega
      have hne : src.take m ≠ [] := by
        intro hnil
        rw [hnil, List.length_nil] at htake
        omega
      -- this round writes `src.take m`, the rest is the loop's own case
      have h1 := hm.written hip hd hk hbn hoff hne (by omega)
      have hk1 : max k (nblocks (off + (src.take m).length)) ≤ maxfile := by
        have : nblocks (off + (src.take m).length) ≤ off / bsize + 1 := by
          rw [nblocks_le_iff, htake]
          have := Nat.div_add_mod off bsize
          simp only [bsize] at this hmin hmod ⊢
          omega
        omega
      have hnode : update nodes j ip₁ j = ip₁ := update_self ..
      have hcover : off + m ≤ max k (nblocks (off + (src.take m).length)) * bsize :=
        calc off + m = off + (src.take m).length := by rw [htake]
          _ ≤ _ := nblocks_le_iff.mp (Nat.le_max_right _ _)
      have hrest : (src.drop m).length ≤ fuel := by
        rw [List.length_drop]
        omega
      obtain ⟨hoff', h2⟩ := ih h1.sound (by rw [hnode]; exact hm.type_ne hip)
        (by rw [hnode]; exact h1.full) hk1 hcover hrest (by rw [hnode]; exact hr)
      have h12 := h1.append (by rw [htake] at h2 ⊢; exact h2)
      rw [List.take_append_drop] at h12
      refine ⟨?_, h12⟩
      rw [hoff', List.length_drop]
      omega

/-! ### Enough free blocks -/

theorem balloc_ok (h : 0 < b.nfree) : ∃ r, b.balloc = .ok r := by
  obtain ⟨n, hmem, hn⟩ := List.countP_pos_iff.mp h
  unfold Blocks.balloc
  split
  · next hnone => exact absurd hn (List.find?_eq_none.mp hnone n hmem)
  · exact ⟨_, rfl⟩

theorem lacking_pos (hs : s ∈ places e) (h0 : b.slot ip s = 0) : 0 < b.lacking ip e :=
  List.countP_pos_iff.mpr ⟨s, hs, by simp [h0]⟩

theorem Full.lacking_eq_zero (hd : Full b ip k) (he : nblocks e ≤ k) : b.lacking ip e = 0 := by
  apply List.countP_eq_zero.mpr
  intro s hs
  rcases mem_places.mp hs with hlt | ⟨hlt, rfl⟩
  · simpa using hd s (by omega)
  · -- the first block that is listed is there, so the list is
    have hlisted := hd ndirect (by omega)
    rw [slot_indirect]
    have : ip.addrs ndirect ≠ 0 := fun h0 => hlisted (slot_unlisted (Nat.le_refl _) h0)
    simpa using this

theorem addrAt_ok (i : Nat) (h : ip.addrs i = 0 → 0 < b.nfree) : ∃ r, b.addrAt ip i = .ok r := by
  unfold Blocks.addrAt
  split
  · next h0 =>
    obtain ⟨r, hr⟩ := balloc_ok (h h0)
    exact ⟨_, bind_eq_ok.mpr ⟨r, hr, rfl⟩⟩
  · exact ⟨_, rfl⟩

/-- **`bmap` returns** if the free blocks are as many as the file lacks. -/
theorem bmap_ok (h : Sound lo nodes b) (hip : (nodes j).type ≠ .free) (he : nblocks e ≤ maxfile)
    (hbn : bn < nblocks e) (hfree : b.lacking (nodes j) e ≤ b.nfree) :
    ∃ r, b.bmap (nodes j) bn = .ok r := by
  have hmem : bn ∈ places e := mem_places.mpr (.inl hbn)
  by_cases h0 : b.slot (nodes j) bn = 0
  swap
  · exact ⟨_, bmap_of_ne (by omega) h0⟩
  · unfold Blocks.bmap
    split
    · next hd =>
      refine addrAt_ok bn fun _ => ?_
      have := lacking_pos hmem h0
      omega
    rename_i hd
    have hl : bn - ndirect < nindirect := by simp only [maxfile] at he; omega
    have hind : maxfile ∈ places e := mem_places.mpr (.inr ⟨by omega, rfl⟩)
    have hlist : (nodes j).addrs ndirect = 0 → 0 < b.nfree := by
      intro hz
      have := lacking_pos (b := b) hind (by rw [slot_indirect]; exact hz)
      omega
    obtain ⟨⟨ind, ip₁, b₁⟩, ha⟩ := addrAt_ok ndirect hlist
    have hm := addrAt_indirect h hip ha
    have hspent := hm.spent e he hind
    have h1 : b₁.slot ip₁ bn = 0 := by rw [hm.slots bn (by omega) (by omega), h0]
    have hpos := lacking_pos (b := b₁) hmem h1
    obtain ⟨r, hr⟩ := balloc_ok (b := b₁) (by omega)
    have hind₁ : ip₁.addrs ndirect = ind := by rw [← slot_indirect (b := b₁), hm.addr_eq]
    have hword : word (b₁.data ind) (bn - ndirect) = 0 := by
      rw [← hind₁, ← slot_listed (by omega) (by omega) (by rw [hind₁]; exact hm.addr_ne), h1]
    have hlist : ∃ r', b₁.listedAt ip₁ ind (bn - ndirect) = .ok r' := by
      rw [Blocks.listedAt, if_pos hword]
      exact ⟨_, bind_eq_ok.mpr ⟨r, hr, rfl⟩⟩
    obtain ⟨r', hr'⟩ := hlist
    rw [if_pos hl]
    exact ⟨r', bind_eq_ok.mpr ⟨_, ha, hr'⟩⟩

theorem Mapped.put (hm : Mapped lo nodes j b bn addr ip' b') (hip : (nodes j).type ≠ .free)
    (hbn : bn < maxfile) (start : Nat) (chunk : List UInt8) (e : Nat) :
    Sound lo (update nodes j ip') (b'.put addr start chunk) ∧
      (b'.put addr start chunk).lacking ip' e = b'.lacking ip' e ∧
      (b'.put addr start chunk).nfree = b'.nfree := by
  have hip' := hm.type_ne hip
  have hnode : update nodes j ip' j = ip' := update_self ..
  have hdata : (b'.put addr start chunk).data = update b'.data
      (b'.slot (update nodes j ip' j) bn)
      (Blocks.overwrite (b'.data addr) start chunk) := by
    rw [hnode, hm.addr_eq]
    rfl
  obtain ⟨hown, hsound⟩ := hm.sound.of_data (by rwa [hnode]) hbn hdata rfl rfl
  refine ⟨hsound, ?_, rfl⟩
  apply List.countP_congr
  intro s _
  rw [← own_self nodes j hip', hown, own_self _ _ hip']

/-- **`writeLoop` returns** if the free blocks are as many as the file
lacks. -/
theorem writeLoop_ok (h : Sound lo nodes b) (hip : (nodes j).type ≠ .free)
    (he : nblocks e ≤ maxfile) (hend : off + src.length = e)
    (hfree : b.lacking (nodes j) e ≤ b.nfree) :
    ∃ r, Blocks.writeLoop fuel b (nodes j) off src = .ok r := by
  induction fuel generalizing nodes b off src with
  | zero => exact ⟨_, rfl⟩
  | succ fuel ih =>
    by_cases h0 : src = []
    · subst h0
      exact ⟨_, rfl⟩
    · have hlen : 0 < src.length := List.length_pos_iff.mpr h0
      have hlt : off / bsize < nblocks e := by
        rw [Nat.div_lt_iff_lt_mul (by decide)]
        have := nblocks_le_iff.mp (Nat.le_refl (nblocks e))
        omega
      obtain ⟨⟨addr, ip₁, b₁⟩, hb⟩ := bmap_ok h hip he hlt hfree
      obtain ⟨hbn, hm⟩ := bmap_spec h hip hb
      have hspent := hm.spent e he (mem_places.mpr (.inl hlt))
      have hnode : update nodes j ip₁ j = ip₁ := update_self ..
      generalize hmin : min src.length (bsize - off % bsize) = m
      obtain ⟨hsound, hlack, hnfree⟩ := hm.put hip hbn (off % bsize) (src.take m) e
      have hend' : off + m + (src.drop m).length = e := by
        rw [List.length_drop]
        omega
      obtain ⟨r, hr⟩ := ih hsound (by rw [hnode]; exact hm.type_ne hip) hend'
        (by rw [hnode]; omega)
      rw [hnode] at hr
      refine ⟨r, ?_⟩
      rw [writeLoop_succ h0]
      refine bind_eq_ok.mpr ⟨_, hb, ?_⟩
      rw [hmin]
      exact hr

end

/-! ## 3. Truncation -/

section
variable {lo j : Nat} {nodes : Nat → Dinode} {b b' : Blocks} {ip ip' : Dinode}
  {own : Nat × Nat → Nat}

/-! What a loop of `bfree` that returns has done, on any disk. -/

/-- The blocks that `P` holds of are released, and nothing else happens. -/
structure Released (P : Nat → Prop) (b b' : Blocks) : Prop where
  freed : ∀ x, P x → b'.used x = false
  kept : ∀ x, ¬ P x → b'.used x = b.used x
  data : b'.data = b.data

theorem Released.refl (b : Blocks) (hP : ∀ x, ¬ P x) : Released P b b :=
  ⟨fun x hx => absurd hx (hP x), fun _ _ => rfl, rfl⟩

theorem Released.congr (h : Released P b b') (hPQ : ∀ x, P x ↔ Q x) : Released Q b b' := by
  have : P = Q := funext fun x => propext (hPQ x)
  rwa [← this]

theorem Released.trans (h : Released P b b') (h' : Released Q b' b'') :
    Released (fun x => P x ∨ Q x) b b'' := by
  refine ⟨fun x hx => ?_, fun x hx => ?_, h'.data.trans h.data⟩
  · by_cases hq : Q x
    · exact h'.freed x hq
    · rw [h'.kept x hq]
      exact h.freed x (hx.resolve_right hq)
  · simp only [not_or] at hx
    rw [h'.kept x hx.2, h.kept x hx.1]

theorem bfree_released (h : b.bfree x = .ok b') : Released (fun y => y = x) b b' := by
  unfold Blocks.bfree at h
  split at h
  · cases h
    refine ⟨fun y hy => ?_, fun y hy => ?_, rfl⟩
    · simp [hy]
    · simp [update_of_ne hy]
  · cases h

theorem Released.round {w : Nat → Nat} (h : Released (fun x => x ≠ 0 ∧ ∃ m < n, w m = x) b b')
    (hb : (if w n = 0 then .ok b' else b'.bfree (w n)) = .ok b'') :
    Released (fun x => x ≠ 0 ∧ ∃ m < n + 1, w m = x) b b'' := by
  split at hb
  · next h0 =>
    cases hb
    refine h.congr fun x => ?_
    simp only [Nat.exists_lt_succ_right, h0]
    constructor
    · rintro ⟨hx, hm⟩
      exact ⟨hx, .inl hm⟩
    · rintro ⟨hx, hm | rfl⟩
      · exact ⟨hx, hm⟩
      · exact absurd rfl hx
  rename_i h0
  refine (h.trans (bfree_released hb)).congr fun x => ?_
  simp only [Nat.exists_lt_succ_right]
  constructor
  · rintro (⟨hx, hm⟩ | rfl)
    · exact ⟨hx, .inl hm⟩
    · exact ⟨h0, .inr rfl⟩
  · rintro ⟨hx, hm | rfl⟩
    · exact .inl ⟨hx, hm⟩
    · exact .inr rfl

theorem truncDirect_released (h : b.truncDirect ip = .ok (ip', b')) :
    Released (fun x => x ≠ 0 ∧ ∃ m < ndirect, ip.addrs m = x) b b' ∧
      ip' = { ip with addrs := fun i => if i < ndirect then 0 else ip.addrs i } := by
  refine foldlM_range (P := fun n (x : Dinode × Blocks) =>
    Released (fun y => y ≠ 0 ∧ ∃ m < n, ip.addrs m = y) b x.2 ∧
    x.1 = { ip with addrs := fun i => if i < n then 0 else ip.addrs i })
    ⟨.refl b (by simp), by simp⟩ ?_ h
  rintro n ⟨d, c⟩ ⟨d', c'⟩ - ⟨hrel, rfl⟩ hstep
  simp only [Nat.lt_irrefl, if_false] at hstep hrel
  have hclear : (fun i => if i < n + 1 then 0 else ip.addrs i) =
      update (fun i => if i < n then 0 else ip.addrs i) n 0 := by
    funext i
    by_cases hi : i = n
    · simp [hi]
    · have : i < n + 1 ↔ i < n := by omega
      simp [update_of_ne hi, this]
  split at hstep
  · next h0 =>
    cases hstep
    refine ⟨hrel.round (by simp [h0]), ?_⟩
    have hsame : update (fun i => if i < n then 0 else ip.addrs i) n 0 =
        fun i => if i < n then 0 else ip.addrs i := by
      simp [h0]
    rw [hclear, hsame]
  rename_i h0
  obtain ⟨c₁, hc, hstep⟩ := bind_eq_ok.mp hstep
  cases hstep
  refine ⟨hrel.round (by simp [h0, hc]), ?_⟩
  rw [hclear]
  rfl

theorem exists_slot (hx : x ≠ 0) : (∃ m ≤ maxfile, b.slot ip m = x) ↔
    (∃ m < ndirect, ip.addrs m = x) ∨ ip.addrs ndirect = x ∨
      (ip.addrs ndirect ≠ 0 ∧ ∃ m < nindirect, word (b.data (ip.addrs ndirect)) m = x) := by
  constructor
  · rintro ⟨m, hm, rfl⟩
    by_cases h1 : m < ndirect
    · exact .inl ⟨m, h1, (slot_direct h1).symm⟩
    · by_cases h0 : ip.addrs ndirect = 0
      · exact absurd (slot_unlisted (by omega) h0) hx
      · rcases Nat.lt_or_eq_of_le hm with hlt | rfl
        · refine .inr (.inr ⟨h0, m - ndirect, ?_, (slot_listed (by omega) hlt h0).symm⟩)
          simp only [maxfile] at hlt
          omega
        · exact .inr (.inl slot_indirect.symm)
  · rintro (⟨m, hm, rfl⟩ | rfl | ⟨h0, m, hm, rfl⟩)
    · exact ⟨m, by simp only [maxfile]; omega, slot_direct hm⟩
    · exact ⟨maxfile, Nat.le_refl _, slot_indirect⟩
    · have hlt : ndirect + m < maxfile := by
        simp only [maxfile]
        omega
      refine ⟨ndirect + m, by omega, ?_⟩
      rw [slot_listed (by omega) hlt h0, Nat.add_sub_cancel_left]

/-- **`itrunc`** releases every block of the inode and no other, on any
disk on which it returns. -/
theorem itrunc_released (h : b.itrunc ip = .ok (ip', b')) :
    Released (fun x => x ≠ 0 ∧ ∃ m ≤ maxfile, b.slot ip m = x) b b' ∧
      ip' = { ip with size := 0, addrs := ip'.addrs } ∧ ∀ i ≤ ndirect, ip'.addrs i = 0 := by
  obtain ⟨⟨ip₁, b₁⟩, hd, hl⟩ := bind_eq_ok.mp h
  obtain ⟨hr, rfl⟩ := truncDirect_released hd
  have hind : (fun i => if i < ndirect then 0 else ip.addrs i) ndirect = ip.addrs ndirect := by
    simp
  simp only [Blocks.truncListed, hind] at hl
  split at hl
  · next h0 =>
    cases hl
    refine ⟨hr.congr fun x => and_congr_right fun hx => ?_, rfl, fun i hi => ?_⟩
    · rw [exists_slot hx]
      simp [h0, Ne.symm hx]
    · rcases Nat.lt_or_eq_of_le hi with hlt | rfl
      · simp [hlt]
      · simpa using h0
  rename_i h0
  obtain ⟨b₂, hb₂, hl⟩ := bind_eq_ok.mp hl
  obtain ⟨b₃, hb₃, hl⟩ := bind_eq_ok.mp hl
  cases hl
  have hr₂ := foldlM_range (P := fun n c =>
    Released (fun x => x ≠ 0 ∧ ∃ m < n, word (b₁.data (ip.addrs ndirect)) m = x) b₁ c)
    (.refl b₁ (by simp)) (fun n c c' _ hc hs => hc.round hs) hb₂
  refine ⟨((hr.trans hr₂).trans (bfree_released hb₃)).congr fun x => ?_, rfl, fun i hi => ?_⟩
  · rw [hr.data]
    constructor
    · rintro ((⟨hx, hm⟩ | ⟨hx, hm⟩) | rfl)
      · exact ⟨hx, (exists_slot hx).mpr (.inl hm)⟩
      · exact ⟨hx, (exists_slot hx).mpr (.inr (.inr ⟨h0, hm⟩))⟩
      · exact ⟨h0, (exists_slot h0).mpr (.inr (.inl rfl))⟩
    · rintro ⟨hx, hm⟩
      rcases (exists_slot hx).mp hm with hm | rfl | ⟨-, hm⟩
      · exact .inl (.inl ⟨hx, hm⟩)
      · exact .inr rfl
      · exact .inl (.inr ⟨hx, hm⟩)
  · rcases Nat.lt_or_eq_of_le hi with hlt | rfl
    · rw [Dinode.setAddr_of_ne _ _ _ (by omega)]
      simp [hlt]
    · simp

end

end Xv6.Fs
