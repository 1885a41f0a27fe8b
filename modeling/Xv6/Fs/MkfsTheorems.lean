/-
Xv6.Fs.MkfsTheorems — the image `mkfs` writes is a file system of the
kernel.

`iappend` and the kernel's `writei` are two implementations of the same
thing. Read the blocks of an image as the kernel would, with every block
below `freeblock` marked as used: then `freeblock++` is `balloc`, and a
round of `iappend` is a round of `writei` at the end of the file
(`iappendLoop_sim`). What is known of the kernel's loop then holds of
`iappend`.

1. An image as a file system.
2. Sectors and inodes.
3. A round of `iappend` is a round of `writei`.
4. `iappend` and `ialloc`.
5. The files, one after the other.
6. The finished image, as the kernel mounts it.
-/
import Xv6.Fs.Mkfs
import Xv6.Fs.DirTheorems

namespace Xv6.Mkfs

open Xv6.Fs Xv6.Lib Function

variable {b : Blocks} {d din' : Dinode} {im' : Image} {R e i j k rest : Nat}

/-! ## 1. An image as a file system -/

namespace Image

variable (im : Image)

/-- The blocks from `nmeta` on, those below `freeblock` in use. -/
def blocks : Blocks where
  size := fssize
  size_lt := by decide
  used n := n < im.freeblock
  data n := if n < nmeta then zeroes else im.sect n

def nodes (i : Nat) : Dinode :=
  if i < ninodes then getDinode (im.sect (sb.layout.iblock i)) (i % ipb) else {}

/-- The image under construction, as a file system. -/
def fs : FileSys where
  ninodes := ninodes
  blocks := im.blocks
  dinode := im.nodes
  icache _ := {}
  devsw := { read := fun _ _ => none, write := fun _ _ => none }

def write (sec : Nat) (buf : Block) : Image :=
  { im with sect := update im.sect sec buf, nsect := max im.nsect (sec + 1) }

def taken : Image := { im with freeblock := im.freeblock + 1 }

end Image

/-- The image has all its sectors, those not yet handed out are zero, and
the superblock is written. -/
structure Clean (im : Image) : Prop where
  nsect : im.nsect = fssize
  lo : nmeta ≤ im.freeblock
  hi : im.freeblock ≤ fssize
  fresh : ∀ n, im.freeblock ≤ n → im.sect n = zeroes
  super : im.sect 1 = sbSector

/-- `im'` is `im` with the blocks `b'`, and with the same inodes. -/
structure Moved (im im' : Image) (b' : Blocks) : Prop where
  blocks : im'.blocks = b'
  clean : Clean im'
  nodes : im'.nodes = im.nodes
  freeinode : im'.freeinode = im.freeinode

/-! ## 2. Sectors and inodes -/

variable {im im' : Image} {b' : Blocks} {sec x inum : Nat} {buf : Block} {p : List UInt8}
  {args : List Arg} {a : Arg}

theorem Moved.refl (h : Clean im) : Moved im im im.blocks := ⟨rfl, h, rfl, rfl⟩

theorem Moved.trans {im'' : Image} {b'' : Blocks} (h : Moved im im' b')
    (h' : Moved im' im'' b'') : Moved im im'' b'' :=
  ⟨h'.blocks, h'.clean, h'.nodes.trans h.nodes, h'.freeinode.trans h.freeinode⟩

theorem wsect_eq : wsect sec buf im = .ok ((), im.write sec buf) := rfl

theorem write_self : (im.write sec buf).sect sec = buf := by
  simp [Image.write]

theorem rsect_eq (h : sec < im.nsect) : rsect sec im = .ok (im.sect sec, im) := by
  rw [rsect, bind_of_ok (get_run.mpr rfl), if_pos h]
  rfl

theorem iblock_lt (hi : i < ninodes) : sb.layout.iblock i < nmeta := by
  simp only [ninodes] at hi
  simp only [Layout.iblock, DiskSuperblock.layout, sb, ipb, bsize, nmeta, nlog, logsize,
    maxopblocks, ninodeblocks, nbitmap, ninodes, fssize]
  omega

theorem iblock_gt (i : Nat) : 1 < sb.layout.iblock i := by
  simp only [Layout.iblock, DiskSuperblock.layout, sb, nlog, logsize, maxopblocks, ipb, bsize]
  omega

theorem Clean.write (h : Clean im) (hx : x < im.freeblock) (h1 : 1 < x) (buf : Block) :
    Clean (im.write x buf) := by
  have hhi := h.hi
  refine ⟨?_, h.lo, h.hi, fun n hn => ?_, ?_⟩
  · simp only [Image.write, h.nsect]
    omega
  · have hne : n ≠ x := by
      simp only [Image.write] at hn
      omega
    simp only [Image.write, update_of_ne hne]
    exact h.fresh n hn
  · simp only [Image.write, update_of_ne (Nat.ne_of_lt h1), h.super]

theorem Moved.write (h : Clean im) (hlo : nmeta ≤ x) (hx : x < im.freeblock) (buf : Block) :
    Moved im (im.write x buf)
      { im.blocks with data := update im.blocks.data x buf } := by
  have hdata : (im.write x buf).blocks.data = update im.blocks.data x buf := by
    funext n
    by_cases hn : n = x
    · subst hn
      simp [Image.blocks, Image.write, Nat.not_lt.mpr hlo]
    · simp [Image.blocks, Image.write, hn]
  constructor
  · rw [← hdata]
    rfl
  · exact h.write hx (Nat.lt_of_lt_of_le (by decide) hlo) buf
  · funext i
    by_cases hi : i < ninodes
    · have hne : sb.layout.iblock i ≠ x := by
        have := iblock_lt hi
        omega
      simp [Image.nodes, Image.write, hi, hne]
    · simp [Image.nodes, hi]
  · rfl

theorem winode_eq (h : Clean im) {inum : Nat} (hi : inum < ninodes) (hd : Storable d) :
    ∃ im', winode inum d im = .ok ((), im') ∧ Clean im' ∧ im'.blocks = im.blocks ∧
      im'.nodes = update im.nodes inum d ∧ im'.freeinode = im.freeinode ∧
      im'.freeblock = im.freeblock := by
  have hlt := iblock_lt hi
  have hmeta : nmeta ≤ fssize := by decide
  have hlo := h.lo
  refine ⟨im.write (sb.layout.iblock inum)
    (putDinode (im.sect (sb.layout.iblock inum)) (inum % ipb) d), ?_, ?_, ?_, ?_, rfl, rfl⟩
  · rw [winode, bind_of_ok (rsect_eq (by rw [h.nsect]; omega))]
    exact wsect_eq
  · exact h.write (Nat.lt_of_lt_of_le hlt hlo) (iblock_gt inum) _
  · have hdata : ∀ n, (im.write (sb.layout.iblock inum)
        (putDinode (im.sect (sb.layout.iblock inum)) (inum % ipb) d)).blocks.data n =
          im.blocks.data n := by
      intro n
      by_cases hn : n < nmeta
      · simp [Image.blocks, hn]
      · have hne : n ≠ sb.layout.iblock inum := by omega
        simp [Image.blocks, Image.write, hne]
    simp only [Image.blocks, Blocks.mk.injEq, true_and]
    exact ⟨rfl, funext hdata⟩
  · funext i
    by_cases hin : i < ninodes
    · by_cases hi' : i = inum
      · subst hi'
        simp [Image.nodes, Image.write, hi, getDinode_putDinode_self hd]
      · rw [update_of_ne hi']
        simp only [Image.nodes, Image.write, if_pos hin]
        by_cases hblock : sb.layout.iblock i = sb.layout.iblock inum
        · have hslot : i % ipb ≠ inum % ipb := by
            simp only [Layout.iblock, ipb, bsize] at hblock ⊢
            omega
          rw [hblock, update_self, getDinode_putDinode_of_ne hslot]
        · rw [update_of_ne hblock]
    · have hne : i ≠ inum := by omega
      rw [update_of_ne hne]
      simp [Image.nodes, hin]

theorem rinode_eq (h : Clean im) {inum : Nat} (hi : inum < ninodes) :
    rinode inum im = .ok (im.nodes inum, im) := by
  have hlt := iblock_lt hi
  have hmeta : nmeta ≤ fssize := by decide
  rw [rinode, bind_of_ok (rsect_eq (by rw [h.nsect]; omega)), Image.nodes, if_pos hi]
  rfl

/-! ## 3. `iappend` and `writei` -/

/-- **`freeblock++` is `balloc`.** -/
theorem takeBlock_sim (h : Clean im) (hb : im.blocks.balloc = .ok (x, b')) :
    takeBlock im = .ok (x, im.taken) ∧ Moved im im.taken b' ∧ x < fssize := by
  have hlo := h.lo
  have hfind : (List.range im.blocks.size).find? (fun n => !im.blocks.used n) = some x ∧
      b' = { im.blocks with
        used := update im.blocks.used x true
        data := update im.blocks.data x fun _ => 0 } := by
    rw [Blocks.balloc] at hb
    split at hb
    · cases hb
    rename_i n hn
    cases hb
    exact ⟨hn, rfl⟩
  obtain ⟨hfind, rfl⟩ := hfind
  have hx : x < fssize := List.mem_range.mp (List.mem_of_find?_eq_some hfind)
  have hge : im.freeblock ≤ x := by simpa [Image.blocks] using List.find?_some hfind
  have hle : x ≤ im.freeblock := by
    by_contra hgt
    have hfree := List.find?_range_eq_some.mp hfind
    have := hfree.2.2 im.freeblock (by omega)
    simp [Image.blocks] at this
  obtain rfl : x = im.freeblock := by omega
  refine ⟨rfl, ⟨?_, ?_, rfl, rfl⟩, hx⟩
  · simp only [Image.blocks, Image.taken, Blocks.mk.injEq, true_and]
    refine ⟨?_, ?_⟩
    · funext n
      by_cases hn : n = im.freeblock
      · simp [hn]
      · have hiff : n < im.freeblock + 1 ↔ n < im.freeblock := by omega
        rw [update_of_ne hn]
        exact decide_eq_decide.mpr hiff
    · funext n
      by_cases hn : n = im.freeblock
      · subst hn
        simp only [update_self, if_neg (Nat.not_lt.mpr hlo)]
        exact h.fresh _ (Nat.le_refl _)
      · rw [update_of_ne hn]
  · refine ⟨h.nsect, ?_, hx, fun n hn => h.fresh n ?_, h.super⟩
    · simp only [Image.taken]
      omega
    · simp only [Image.taken] at hn
      omega

theorem addrAt_sim {din : Dinode} (h : Clean im) (hb : im.blocks.addrAt din i = .ok (x, din', b')) :
    ∃ im', addrAt din i im = .ok ((x, din'), im') ∧ Moved im im' b' ∧
      ∀ k, k ≠ i → din'.addrs k = din.addrs k := by
  rw [Blocks.addrAt] at hb
  rw [addrAt]
  by_cases h0 : din.addrs i = 0
  · rw [if_pos h0] at hb ⊢
    obtain ⟨⟨y, b⟩, hall, hr⟩ := bind_eq_ok.mp hb
    cases hr
    obtain ⟨htake, hmoved, -⟩ := takeBlock_sim h hall
    refine ⟨im.taken, ?_, hmoved, fun k hk => Dinode.setAddr_of_ne _ _ _ hk⟩
    rw [bind_of_ok htake]
    rfl
  · rw [if_neg h0] at hb ⊢
    cases hb
    exact ⟨im, rfl, Moved.refl h, fun _ _ => rfl⟩

theorem listedAt_sim {din : Dinode} {ind m : Nat} (h : Clean im) (hlo : nmeta ≤ ind)
    (hind : ind < im.freeblock) (hb : im.blocks.listedAt din ind m = .ok (x, din', b')) :
    ∃ im', listedAt ind m im = .ok (x, im') ∧ Moved im im' b' ∧ din' = din := by
  have hhi := h.hi
  have hdata : im.blocks.data ind = im.sect ind := by
    simp [Image.blocks, Nat.not_lt.mpr hlo]
  rw [Blocks.listedAt, hdata] at hb
  rw [listedAt, bind_of_ok (rsect_eq (by rw [h.nsect]; omega))]
  by_cases h0 : word (im.sect ind) m = 0
  · rw [if_pos h0] at hb ⊢
    obtain ⟨⟨y, b⟩, hall, hr⟩ := bind_eq_ok.mp hb
    cases hr
    obtain ⟨htake, hmoved, hx⟩ := takeBlock_sim h hall
    have hnew : ind < im.taken.freeblock := Nat.lt_succ_of_lt hind
    have hwrite := Moved.write hmoved.clean hlo hnew (setWord (im.sect ind) m x)
    have hsame : b.data ind = im.sect ind := by
      rw [← hmoved.blocks]
      simp [Image.blocks, Image.taken, Nat.not_lt.mpr hlo]
    have hlt : x < 2 ^ 32 := Nat.lt_trans hx (by decide)
    rw [hmoved.blocks] at hwrite
    rw [hsame]
    refine ⟨im.taken.write ind (setWord (im.sect ind) m x), ?_, hmoved.trans hwrite, rfl⟩
    rw [bind_of_ok htake, bind_of_ok wsect_eq, word_setWord_self _ _ hlt]
    rfl
  · rw [if_neg h0] at hb ⊢
    cases hb
    exact ⟨im, rfl, Moved.refl h, rfl⟩

theorem Mapped.handed {nodes : Nat → Dinode} {s : Nat} (hm : Mapped nmeta nodes j b s x din' b')
    (hip : (nodes j).type ≠ .free) (him : im'.blocks = b') : nmeta ≤ x ∧ x < im'.freeblock := by
  have hown : b'.own (update nodes j din') (j, s) = x := by
    rw [own_self nodes j (hm.type_ne hip), hm.addr_eq]
  have hne : b'.own (update nodes j din') (j, s) ≠ 0 := by
    rw [hown]
    exact hm.addr_ne
  have hrange := hm.sound.apart.range _ hne
  have hmarked := hm.sound.apart.marked _ hne
  rw [hown] at hrange hmarked
  rw [← him] at hmarked
  exact ⟨hrange.1, by simpa [Image.blocks] using hmarked⟩

/-- **The block of a file, as `bmap` finds it.** -/
theorem fileBlock_sim {nodes : Nat → Dinode} {fbn : Nat} (h : Clean im)
    (hs : Sound nmeta nodes im.blocks) (hip : (nodes j).type ≠ .free)
    (hb : im.blocks.bmap (nodes j) fbn = .ok (x, din', b')) :
    ∃ im', fileBlock (nodes j) fbn im = .ok ((x, din'), im') ∧ Moved im im' b' ∧
      ∀ k, ndirect < k → din'.addrs k = (nodes j).addrs k := by
  rw [Blocks.bmap] at hb
  rw [fileBlock]
  by_cases hdirect : fbn < ndirect
  · rw [if_pos hdirect] at hb ⊢
    obtain ⟨im', hrun, hmoved, haddr⟩ := addrAt_sim h hb
    exact ⟨im', hrun, hmoved, fun k hk => haddr k (by omega)⟩
  · rw [if_neg hdirect] at hb ⊢
    by_cases hlisted : fbn - ndirect < nindirect
    · rw [if_pos hlisted] at hb
      obtain ⟨⟨ind, din₁, b₁⟩, hind, hb⟩ := bind_eq_ok.mp hb
      obtain ⟨im₁, hrun₁, hmoved₁, haddr⟩ := addrAt_sim h hind
      obtain ⟨hlo, hlt⟩ := Mapped.handed (addrAt_indirect hs hip hind) hip hmoved₁.blocks
      rw [← hmoved₁.blocks] at hb
      obtain ⟨im₂, hrun₂, hmoved₂, rfl⟩ := listedAt_sim hmoved₁.clean hlo hlt hb
      refine ⟨im₂, ?_, hmoved₁.trans hmoved₂, fun k hk => haddr k (by omega)⟩
      rw [bind_of_ok hrun₁, bind_of_ok hrun₂]
      rfl
    · rw [if_neg hlisted] at hb
      cases hb

/-- **The loop of `iappend` is the loop of `writei`.** -/
theorem iappendLoop_sim {nodes : Nat → Dinode} {fuel off off' : Nat} {p : List UInt8}
    (h : Clean im) (hs : Sound nmeta nodes im.blocks) (hip : (nodes j).type ≠ .free)
    (hw : Blocks.writeLoop fuel im.blocks (nodes j) off p = .ok (off', din', b')) :
    ∃ im', iappendLoop fuel (nodes j) off p im = .ok ((din', off'), im') ∧ Moved im im' b' ∧
      ∀ k, ndirect < k → din'.addrs k = (nodes j).addrs k := by
  induction fuel generalizing im nodes off p with
  | zero =>
    cases hw
    exact ⟨im, rfl, Moved.refl h, fun _ _ => rfl⟩
  | succ fuel ih =>
    rw [iappendLoop]
    by_cases h0 : p = []
    · subst h0
      cases hw
      exact ⟨im, by rw [if_pos rfl]; rfl, Moved.refl h, fun _ _ => rfl⟩
    · rw [writeLoop_succ h0] at hw
      obtain ⟨⟨x, din₁, b₁⟩, hb, hw⟩ := bind_eq_ok.mp hw
      obtain ⟨hbn, hm⟩ := bmap_spec hs hip hb
      obtain ⟨im₁, hrun₁, hmoved₁, haddr₁⟩ := fileBlock_sim h hs hip hb
      obtain ⟨hlo, hlt⟩ := Mapped.handed hm hip hmoved₁.blocks
      have hstart : off - off / bsize * bsize = off % bsize := by
        rw [Nat.mul_comm, Nat.mod_eq_sub]
      have hn1 : (off / bsize + 1) * bsize - off = bsize - off % bsize := by
        have := Nat.div_add_mod off bsize
        simp only [bsize] at this ⊢
        omega
      have hdata : im₁.blocks.data x = im₁.sect x := by
        simp [Image.blocks, Nat.not_lt.mpr hlo]
      generalize hmin : min p.length (bsize - off % bsize) = m at hw
      have hput : Moved im₁ (im₁.write x (Blocks.overwrite (im₁.sect x) (off % bsize) (p.take m)))
          (b₁.put x (off % bsize) (p.take m)) := by
        have hwrite := Moved.write hmoved₁.clean hlo hlt
          (Blocks.overwrite (im₁.sect x) (off % bsize) (p.take m))
        rw [← hdata, hmoved₁.blocks] at hwrite
        rw [← hdata, hmoved₁.blocks]
        exact hwrite
      obtain ⟨hsound, -⟩ := hm.put hip hbn (off % bsize) (p.take m) 0
      have hself : update nodes j din₁ j = din₁ := update_self ..
      have hrest := ih hput.clean (by rw [hput.blocks]; exact hsound)
        (by rw [hself]; exact hm.type_ne hip) (by rw [hput.blocks, hself]; exact hw)
      obtain ⟨im₂, hrun₂, hmoved₂, haddr₂⟩ := hrest
      rw [hself] at hrun₂ haddr₂
      refine ⟨im₂, ?_, (hmoved₁.trans hput).trans hmoved₂, fun k hk => ?_⟩
      · have hhi := hmoved₁.clean.hi
        rw [if_neg h0, if_neg (Nat.not_le.mpr hbn), bind_of_ok hrun₁]
        simp only [hstart, hn1, hmin]
        rw [bind_of_ok (rsect_eq (by rw [hmoved₁.clean.nsect]; omega)), bind_of_ok wsect_eq]
        exact hrun₂
      · rw [haddr₂ k hk, haddr₁ k hk]

/-! ## 4. The calls -/

/-- What holds of the image after each call: a block belongs to one place
of one inode and to no other, an inode has the blocks up to its end and no
others, and the inodes not yet handed out are zero. -/
structure Inv (im : Image) : Prop where
  clean : Clean im
  owned : Owned nmeta im.nodes im.blocks
  short : ∀ i, (im.nodes i).type ≠ .free → nblocks (im.nodes i).size ≤ maxfile
  dense : ∀ i, (im.nodes i).type ≠ .free →
    Dense im.blocks (im.nodes i) (nblocks (im.nodes i).size)
  storable : ∀ i, Storable (im.nodes i)
  unused : ∀ i, im.freeinode ≤ i → im.nodes i = {}

theorem Inv.full (h : Inv im) (hi : (im.nodes i).type ≠ .free) :
    Full im.blocks (im.nodes i) (nblocks (im.nodes i).size) :=
  (h.dense i hi).full (h.short i hi)

theorem Inv.intact (h : Inv im) : Intact nmeta im.fs where
  sound := h.owned.sound
  short := h.short
  full _ := h.full

theorem Inv.change (h : Inv im) (hclean : Clean im') (hown : Owned nmeta im'.nodes im'.blocks)
    (hnodes : im'.nodes = update im.nodes inum d)
    (hslot : ∀ i, i ≠ inum → (im.nodes i).type ≠ .free → ∀ m,
      im'.blocks.slot (im.nodes i) m = im.blocks.slot (im.nodes i) m)
    (hshort : nblocks d.size ≤ maxfile) (hdense : Dense im'.blocks d (nblocks d.size))
    (hstore : Storable d) (hfree : ∀ i, im'.freeinode ≤ i → i ≠ inum ∧ im.freeinode ≤ i) :
    Inv im' := by
  have hself : im'.nodes inum = d := by rw [hnodes, update_self]
  have hsame : ∀ i, i ≠ inum → im'.nodes i = im.nodes i := fun i hi => by
    rw [hnodes, update_of_ne hi]
  refine ⟨hclean, hown, fun i hif => ?_, fun i hif => ?_, fun i => ?_, fun i hi => ?_⟩
  · by_cases hi : i = inum
    · rwa [hi, hself]
    · rw [hsame i hi] at hif ⊢
      exact h.short i hif
  · by_cases hi : i = inum
    · rwa [hi, hself]
    · rw [hsame i hi] at hif ⊢
      intro m hm
      rw [hslot i hi hif]
      exact h.dense i hif m hm
  · by_cases hi : i = inum
    · rwa [hi, hself]
    · rw [hsame i hi]
      exact h.storable i
  · rw [hsame i (hfree i hi).1, h.unused i (hfree i hi).2]

theorem storable_of_sound {nodes : Nat → Dinode} (hs : Sound nmeta (update nodes j d) b)
    (hip : d.type ≠ .free) (hold : Storable (nodes j))
    (hfields : d = { nodes j with addrs := d.addrs })
    (htail : ∀ k, ndirect < k → d.addrs k = (nodes j).addrs k) {size : Nat}
    (hsize : size < 2 ^ 32) : Storable { d with size := size } := by
  have hlt : ∀ s, b.slot d s < 2 ^ 32 := by
    intro s
    rw [← own_self nodes j hip]
    by_cases h0 : b.own (update nodes j d) (j, s) = 0
    · rw [h0]
      decide
    · exact Nat.lt_trans (hs.apart.range _ h0).2 b.size_lt
  refine ⟨?_, ?_, ?_, hsize, fun i => ?_, fun i hi => ?_⟩
  · rw [hfields]
    exact hold.major
  · rw [hfields]
    exact hold.minor
  · rw [hfields]
    exact hold.nlink
  · rcases Nat.lt_trichotomy i ndirect with hi | rfl | hi
    · simp only
      rw [← slot_direct hi]
      exact hlt i
    · simp only
      rw [← slot_indirect]
      exact hlt maxfile
    · simp only
      rw [htail i hi, hold.tail i hi]
      decide
  · simp only
    rw [htail i hi, hold.tail i hi]

/-- The bytes `p` were written at the end of inode `inum`, and nothing
else. -/
structure Appended (im im' : Image) (inum : Nat) (p : List UInt8) : Prop where
  inv : Inv im'
  freeinode : im'.freeinode = im.freeinode
  wrote : Wrote nmeta im.fs inum (im.nodes inum).size p im'.fs
  others : ∀ i, i ≠ inum → (im.nodes i).type ≠ .free → ∀ e,
    im'.blocks.lacking (im'.nodes i) e = im.blocks.lacking (im.nodes i) e

/-- **`iappend` writes at the end of the file.** -/
theorem iappend_spec (h : Inv im) (hi : inum < ninodes) (hf : (im.nodes inum).type ≠ .free)
    (hfit : (im.nodes inum).size + p.length ≤ maxfile * bsize)
    (hfree : im.blocks.lacking (im.nodes inum) ((im.nodes inum).size + p.length) ≤
      im.blocks.nfree) :
    ∃ im', iappend inum p im = .ok ((), im') ∧ Appended im im' inum p := by
  have hk := h.short inum hf
  have hend : nblocks ((im.nodes inum).size + p.length) ≤ maxfile := nblocks_le_iff.mpr hfit
  have hloop : ∃ r, Blocks.writeLoop p.length im.blocks (im.nodes inum) (im.nodes inum).size p =
      .ok r := writeLoop_ok h.owned.sound hf hend rfl hfree
  obtain ⟨⟨off', d, b⟩, hloop⟩ := hloop
  obtain ⟨rfl, hw⟩ := writeLoop_spec h.owned.sound hf (h.full hf) hk
    (nblocks_le_iff.mp (Nat.le_refl _)) (Nat.le_refl _) hloop
  obtain ⟨im₁, hrun, hmoved, htail⟩ := iappendLoop_sim h.clean h.owned.sound hf hloop
  have htype : d.type ≠ .free := by
    rw [hw.fields]
    exact hf
  have hsize : (im.nodes inum).size + p.length < 2 ^ 32 := by
    have : maxfile * bsize < 2 ^ 32 := by decide
    omega
  have hstore := storable_of_sound hw.sound htype (h.storable inum) hw.fields htail hsize
  obtain ⟨im₂, hwin, hclean, hblocks, hnodes, hfreei, -⟩ := winode_eq hmoved.clean hi hstore
  rw [hmoved.blocks] at hblocks
  rw [hmoved.nodes] at hnodes
  have hslot : ∀ i, i ≠ inum → (im.nodes i).type ≠ .free → ∀ m,
      b.slot (im.nodes i) m = im.blocks.slot (im.nodes i) m := by
    intro i hii hif m
    rw [← own_eq_slot hif, hw.others i hii, own_eq_slot hif]
  have hsame : ∀ i, i ≠ inum → im₂.nodes i = im.nodes i := by
    intro i hii
    rw [hnodes, update_of_ne hii]
  have hgrow : nblocks ((im.nodes inum).size + p.length) =
      max (nblocks (im.nodes inum).size) (nblocks ((im.nodes inum).size + p.length)) :=
    (Nat.max_eq_right (nblocks_mono (Nat.le_add_right _ _))).symm
  refine ⟨im₂, ?_, ?_, ?_, ?_, ?_⟩
  · rw [iappend, bind_of_ok (rinode_eq h.clean hi), bind_of_ok hrun]
    exact hwin
  · refine h.change hclean ?_ hnodes (by rwa [hblocks]) hend ?_ hstore fun i hii => ?_
    · have hown := hw.owned h.owned
      have hcongr : b.own (update im.nodes inum
          { d with size := (im.nodes inum).size + p.length }) =
          b.own (update im.nodes inum d) := own_update_congr rfl rfl
      rw [hnodes, hblocks]
      exact ⟨by rw [hcongr]; exact hown.exact, hown.reserved⟩
    · rw [hblocks]
      intro m hm
      simp only
      rw [slot_withSize, hgrow]
      exact hw.dense (h.dense inum hf) m hm
    · rw [hfreei, hmoved.freeinode] at hii
      refine ⟨?_, hii⟩
      rintro rfl
      rw [h.unused i hii] at hf
      exact hf rfl
  · rw [hfreei, hmoved.freeinode]
  · have hmax : max (im.fs.dinode inum).size ((im.nodes inum).size + p.length) =
        (im.nodes inum).size + p.length := Nat.max_eq_right (Nat.le_add_right _ _)
    refine hw.wrote_of h.intact hf (Nat.le_refl _) hfit hblocks ?_ rfl rfl
    rw [hmax]
    exact hnodes
  · intro i hii hif e
    rw [hsame i hii, hblocks]
    apply List.countP_congr
    intro m _
    rw [hslot i hii hif]

theorem storable_empty (type : InodeType) {n : Int} (hn : -2 ^ 15 ≤ n ∧ n < 2 ^ 15) :
    Storable { type := type, nlink := n } := by
  refine ⟨?_, ?_, hn, ?_, fun i => Nat.two_pow_pos 32, fun i _ => rfl⟩
  all_goals simp

/-- **`ialloc`** hands out the next inode, empty. -/
theorem ialloc_spec (h : Inv im) (hi : im.freeinode < ninodes) (type : InodeType)
    (ht : type ≠ .free) :
    ∃ im', ialloc type im = .ok (im.freeinode, im') ∧ Inv im' ∧
      im'.freeinode = im.freeinode + 1 ∧ im'.blocks = im.blocks ∧
      im'.nodes = update im.nodes im.freeinode { type := type, nlink := 1 } := by
  have hstore := storable_empty type (n := 1) (by decide)
  have hclean : Clean { im with freeinode := im.freeinode + 1 } :=
    ⟨h.clean.nsect, h.clean.lo, h.clean.hi, h.clean.fresh, h.clean.super⟩
  obtain ⟨im', hwin, hclean', hblocks, hnodes, hfreei, -⟩ := winode_eq hclean hi hstore
  have hfreeNode := h.unused im.freeinode (Nat.le_refl _)
  have hsame : ∀ i, i ≠ im.freeinode → im'.nodes i = im.nodes i := by
    intro i hii
    rw [hnodes, update_of_ne hii]
    rfl
  have hself : im'.nodes im.freeinode = { type := type, nlink := 1 } := by
    rw [hnodes, update_self]
  have hblocks' : im'.blocks = im.blocks := hblocks
  refine ⟨im', ?_, ?_, hfreei, hblocks', hnodes⟩
  · rw [ialloc, bind_of_ok (get_run.mpr rfl), bind_of_ok (set_run.mpr rfl), bind_of_ok hwin]
    rfl
  · refine h.change hclean' ?_ hnodes (fun _ _ _ _ => by rw [hblocks'])
      (nblocks_le_iff.mpr (Nat.zero_le _)) ?_ hstore fun i hii => ?_
    · have hown : im'.blocks.own im'.nodes = im.blocks.own im.nodes := by
        funext k
        obtain ⟨i, m⟩ := k
        rw [hblocks']
        by_cases hii : i = im.freeinode
        · simp [Blocks.own, Blocks.slot, hii, hself, hfreeNode, ht]
        · simp [Blocks.own, hsame i hii]
      exact ⟨by rw [hown, hblocks']; exact h.owned.exact,
        by rw [hblocks']; exact h.owned.reserved⟩
    · intro m _
      simp [Blocks.slot, nblocks, bsize]
    · rw [hfreei] at hii
      simp only at hii
      omega

/-! ### Appending piece by piece -/

theorem Appended.nil (h : Inv im) (inum : Nat) : Appended im im inum [] :=
  ⟨h, rfl, Wrote.nil h.intact (Nat.le_refl _), fun _ _ _ _ => rfl⟩

section
variable (h : Appended im im' inum p)
include h

theorem Appended.size : (im'.nodes inum).size = (im.nodes inum).size + p.length :=
  h.wrote.size.trans (Nat.max_eq_right (Nat.le_add_right _ _))

theorem Appended.type (i : Nat) : (im'.nodes i).type = (im.nodes i).type :=
  h.wrote.type i

theorem Appended.contents : im'.fs.contents inum = im.fs.contents inum ++ p := by
  have hlen : (im.nodes inum).size = (im.fs.contents inum).length :=
    (length_contents im.fs inum).symm
  rw [h.wrote.contents, hlen, splice_length]

theorem Appended.spent (he : nblocks e ≤ maxfile) (hend : (im.nodes inum).size + p.length ≤ e) :
    im'.blocks.lacking (im'.nodes inum) e + im.blocks.nfree =
      im.blocks.lacking (im.nodes inum) e + im'.blocks.nfree :=
  h.wrote.spent e he hend

theorem Appended.trans {im'' : Image} {q : List UInt8} (h' : Appended im' im'' inum q) :
    Appended im im'' inum (p ++ q) where
  inv := h'.inv
  freeinode := h'.freeinode.trans h.freeinode
  wrote := by
    have hsecond := h'.wrote
    rw [h.size] at hsecond
    exact h.wrote.append (Nat.le_refl _) hsecond
  others i hi hif e := by
    rw [h'.others i hi (by rw [h.type]; exact hif), h.others i hi hif]

end

/-- An append to a file that will have `e` bytes; `rest` blocks are for
others. -/
theorem iappend_within (p : List UInt8) (h : Inv im) (hi : inum < ninodes)
    (hf : (im.nodes inum).type ≠ .free) (hend : (im.nodes inum).size + p.length ≤ e)
    (he : e ≤ maxfile * bsize)
    (hfree : im.blocks.lacking (im.nodes inum) e + rest ≤ im.blocks.nfree) :
    ∃ im', iappend inum p im = .ok ((), im') ∧ Appended im im' inum p ∧
      im'.blocks.lacking (im'.nodes inum) e + rest ≤ im'.blocks.nfree := by
  have hmono : im.blocks.lacking (im.nodes inum) ((im.nodes inum).size + p.length) ≤
      im.blocks.lacking (im.nodes inum) e := lacking_mono hend
  obtain ⟨im', hrun, happ⟩ := iappend_spec h hi hf (Nat.le_trans hend he) (by omega)
  have hspent := happ.spent (nblocks_le_iff.mpr he) hend
  exact ⟨im', hrun, happ, by omega⟩

theorem iappend_chunks (chunks : List (List UInt8)) (h : Inv im) (hi : inum < ninodes)
    (hf : (im.nodes inum).type ≠ .free) (hend : (im.nodes inum).size + chunks.flatten.length ≤ e)
    (he : e ≤ maxfile * bsize)
    (hfree : im.blocks.lacking (im.nodes inum) e + rest ≤ im.blocks.nfree) :
    ∃ im', chunks.forM (iappend inum) im = .ok ((), im') ∧
      Appended im im' inum chunks.flatten ∧
      im'.blocks.lacking (im'.nodes inum) e + rest ≤ im'.blocks.nfree := by
  induction chunks generalizing im with
  | nil => exact ⟨im, rfl, Appended.nil h inum, hfree⟩
  | cons c chunks ih =>
    rw [List.flatten_cons, List.length_append] at hend
    obtain ⟨im₁, hrun₁, happ₁, hfree₁⟩ := iappend_within c h hi hf (by omega) he hfree
    obtain ⟨im₂, hrun₂, happ₂, hfree₂⟩ := ih happ₁.inv (by rw [happ₁.type]; exact hf)
      (by rw [happ₁.size]; omega) hfree₁
    exact ⟨im₂, (bind_of_ok hrun₁ _).trans hrun₂, happ₁.trans happ₂, hfree₂⟩

/-! ## 5. The files -/

/-- The blocks a file of `n` bytes takes, with its indirect block. -/
def need (n : Nat) : Nat := nblocks n + if ndirect < nblocks n then 1 else 0

/-- The input fits inode table and disk, no file is larger than a file can
be, and no name has a `/`. -/
structure Fits (args : List Arg) : Prop where
  names : ∀ a ∈ args, slash ∉ a.name
  inodes : args.length + 2 ≤ ninodes
  sizes : ∀ a ∈ args, a.bytes.length ≤ maxfile * bsize
  blocks : nmeta + need (direntSize * (args.length + 2)) +
    (args.map fun a => need a.bytes.length).sum ≤ fssize

/-- The entries of the root directory: inode numbers and names. -/
def rootEntries (args : List Arg) : List (Nat × List UInt8) :=
  (1, [46]) :: (1, [46, 46]) :: args.zipIdx.map fun a => (a.2 + 2, a.1.stored)

def rootBytes (args : List Arg) : List UInt8 :=
  (rootEntries args).flatMap fun e => dirent e.1 e.2

/-- The image with the root directory and the first files. -/
structure Built (im : Image) (args : List Arg) : Prop where
  inv : Inv im
  freeinode : im.freeinode = args.length + 2
  root : (im.nodes rootino).type = .dir
  entries : im.fs.contents rootino = rootBytes args
  files : ∀ j a, args[j]? = some a →
    (im.nodes (j + 2)).type = .file ∧ im.fs.contents (j + 2) = a.bytes

theorem lacking_of_zero (h : d.addrs = fun _ => 0) (e : Nat) : b.lacking d e = need e := by
  have hall : (places e).countP (fun s => b.slot d s == 0) = (places e).length := by
    rw [List.countP_eq_length]
    intro s _
    simp [Blocks.slot, h]
  rw [Blocks.lacking, hall, places, need, List.length_append, List.length_range]
  split <;> rfl

theorem rootEntries_append (args : List Arg) (a : Arg) :
    rootEntries (args ++ [a]) = rootEntries args ++ [(args.length + 2, a.stored)] := by
  simp [rootEntries, List.zipIdx_append]

theorem length_rootEntries (args : List Arg) : (rootEntries args).length = args.length + 2 := by
  simp [rootEntries]

theorem length_rootBytes (args : List Arg) :
    (rootBytes args).length = direntSize * (args.length + 2) := by
  rw [← length_rootEntries, rootBytes, List.length_flatMap]
  have hmap : (rootEntries args).map (fun e => (dirent e.1 e.2).length) =
      List.replicate (rootEntries args).length direntSize := by
    rw [List.map_eq_replicate_iff]
    intro e _
    exact length_dirent _ _
  rw [hmap, List.sum_replicate_nat, Nat.mul_comm]

theorem Built.root_ne (h : Built im args) : (im.nodes rootino).type ≠ .free := by
  rw [h.root]
  decide

theorem Built.size_root (h : Built im args) :
    (im.nodes rootino).size = direntSize * (args.length + 2) := by
  have hlen := length_contents im.fs rootino
  rw [h.entries, length_rootBytes] at hlen
  exact hlen.symm

/-- **The round for one file.** `R` is the size the root directory will
have, and `rest` what the files to come take. -/
theorem addFile_spec (h : Built im args) (hslash : slash ∉ a.name)
    (hi : args.length + 2 < ninodes) (hsize : a.bytes.length ≤ maxfile * bsize)
    (hR : direntSize * (args.length + 3) ≤ R) (hRmax : R ≤ maxfile * bsize)
    (hfree : im.blocks.lacking (im.nodes rootino) R + (need a.bytes.length + rest) ≤
      im.blocks.nfree) : ∃ im', addFile rootino a im = .ok ((), im') ∧ Built im' (args ++ [a]) ∧
      im'.blocks.lacking (im'.nodes rootino) R + rest ≤ im'.blocks.nfree := by
  have hroot : rootino < ninodes := by decide
  have hinum : im.freeinode < ninodes := by
    rw [h.freeinode]
    exact hi
  obtain ⟨im₁, hrun₁, hinv₁, hfreei₁, hblocks₁, hnodes₁⟩ :=
    ialloc_spec h.inv hinum .file (by decide)
  have hne : rootino ≠ im.freeinode := by
    rw [h.freeinode]
    simp only [rootino]
    omega
  have hroot₁ : im₁.nodes rootino = im.nodes rootino := by
    rw [hnodes₁, update_of_ne hne]
  have hnew₁ : im₁.nodes im.freeinode = { type := .file, nlink := 1 } := by
    rw [hnodes₁, update_self]
  have hrootsize : (im₁.nodes rootino).size = direntSize * (args.length + 2) := by
    rw [hroot₁, h.size_root]
  have hentry : (dirent im.freeinode a.stored).length = direntSize := length_dirent _ _
  have hend : (im₁.nodes rootino).size + (dirent im.freeinode a.stored).length ≤ R := by
    rw [hrootsize, hentry]
    simp only [direntSize] at hR ⊢
    omega
  have hfree₁ : im₁.blocks.lacking (im₁.nodes rootino) R + (need a.bytes.length + rest) ≤
      im₁.blocks.nfree := by
    rw [hroot₁, hblocks₁]
    exact hfree
  obtain ⟨im₂, hrun₂, happ₂, hfree₂⟩ := iappend_within _ hinv₁ hroot
    (by rw [hroot₁]; exact h.root_ne) hend hRmax hfree₁
  have hnew₂ : (im₂.nodes im.freeinode).type ≠ .free := by
    rw [happ₂.type, hnew₁]
    decide
  have hsame₂ := (happ₂.wrote.others im.freeinode (Ne.symm hne)).1
  have hnode₂ : im₂.nodes im.freeinode = { type := .file, nlink := 1 } := by
    rw [← hnew₁]
    exact hsame₂
  have hlack₂ : im₂.blocks.lacking (im₂.nodes im.freeinode) a.bytes.length =
      need a.bytes.length := lacking_of_zero (by rw [hnode₂]) _
  have hzero : (im₂.nodes im.freeinode).size = 0 := by rw [hnode₂]
  obtain ⟨im₃, hrun₃, happ₃, hfree₃⟩ := iappend_chunks a.chunks happ₂.inv hinum hnew₂
    (by rw [hzero, Nat.zero_add]; rfl) hsize
    (show _ + (im₂.blocks.lacking (im₂.nodes rootino) R + rest) ≤ _ by rw [hlack₂]; omega)
  have hrootfree₂ : (im₂.nodes rootino).type ≠ .free := by
    rw [happ₂.type, hroot₁]
    exact h.root_ne
  have hroot₃ := happ₃.others rootino hne hrootfree₂ R
  refine ⟨im₃, ?_, ⟨happ₃.inv, ?_, ?_, ?_, ?_⟩, ?_⟩
  · rw [addFile, if_neg hslash, bind_of_ok hrun₁, bind_of_ok hrun₂]
    exact hrun₃
  · rw [happ₃.freeinode, happ₂.freeinode, hfreei₁, h.freeinode, List.length_append]
    rfl
  · rw [happ₃.type, happ₂.type, hroot₁, h.root]
  · rw [(happ₃.wrote.others rootino hne).2 hrootfree₂, happ₂.contents]
    have hcont₁ : im₁.fs.contents rootino = im.fs.contents rootino := by
      simp only [FileSys.contents, Image.fs, hroot₁, hblocks₁]
    rw [hcont₁, h.entries, rootBytes, rootBytes, rootEntries_append, List.flatMap_append,
      h.freeinode]
    simp
  · intro j a' hj
    rcases Nat.lt_trichotomy j args.length with hlt | rfl | hgt
    · -- a file that was there before
      rw [List.getElem?_append_left hlt] at hj
      obtain ⟨htype, hbytes⟩ := h.files j a' hj
      have hjne : j + 2 ≠ im.freeinode := by
        rw [h.freeinode]
        omega
      have hjroot : j + 2 ≠ rootino := by
        simp only [rootino]
        omega
      have hnode₁ : im₁.nodes (j + 2) = im.nodes (j + 2) := by
        rw [hnodes₁, update_of_ne hjne]
      have hcont₁ : im₁.fs.contents (j + 2) = im.fs.contents (j + 2) := by
        simp only [FileSys.contents, Image.fs, hnode₁, hblocks₁]
      have hfree₁ : (im₁.nodes (j + 2)).type ≠ .free := by
        rw [hnode₁, htype]
        decide
      refine ⟨by rw [happ₃.type, happ₂.type, hnode₁, htype], ?_⟩
      rw [(happ₃.wrote.others _ hjne).2 (by rw [Image.fs, happ₂.type]; exact hfree₁),
        (happ₂.wrote.others _ hjroot).2 hfree₁, hcont₁, hbytes]
    · -- the new one
      rw [List.getElem?_append_right (Nat.le_refl _), Nat.sub_self] at hj
      cases hj
      rw [← h.freeinode, happ₃.contents]
      refine ⟨by rw [happ₃.type, hnode₂], ?_⟩
      have hnil : im₂.fs.contents im.freeinode = [] := by
        rw [← List.length_eq_zero_iff, length_contents]
        exact hzero
      rw [hnil]
      rfl
    · rw [List.getElem?_eq_none (by simp; omega)] at hj
      cases hj
  · rw [hroot₃]
    omega

theorem addFiles_spec (rest : List Arg) (h : Built im args) (hslash : ∀ a ∈ rest, slash ∉ a.name)
    (hi : args.length + rest.length + 2 ≤ ninodes)
    (hsize : ∀ a ∈ rest, a.bytes.length ≤ maxfile * bsize)
    (hR : direntSize * (args.length + rest.length + 2) ≤ R) (hRmax : R ≤ maxfile * bsize)
    (hfree : im.blocks.lacking (im.nodes rootino) R +
      (rest.map fun a => need a.bytes.length).sum ≤ im.blocks.nfree) :
    ∃ im', rest.forM (addFile rootino) im = .ok ((), im') ∧ Built im' (args ++ rest) := by
  induction rest generalizing im args with
  | nil => exact ⟨im, rfl, by rw [List.append_nil]; exact h⟩
  | cons a rest ih =>
    simp only [List.length_cons] at hi hR
    rw [List.map_cons, List.sum_cons] at hfree
    obtain ⟨im₁, hrun₁, hbuilt₁, hfree₁⟩ := addFile_spec h (hslash a List.mem_cons_self)
      (by omega) (hsize a List.mem_cons_self)
      (Nat.le_trans (Nat.mul_le_mul_left _ (by omega)) hR) hRmax hfree
    have hlen : (args ++ [a]).length = args.length + 1 := by simp
    obtain ⟨im₂, hrun₂, hbuilt₂⟩ := ih hbuilt₁
      (fun b hb => hslash b (List.mem_cons_of_mem _ hb)) (by rw [hlen]; omega)
      (fun b hb => hsize b (List.mem_cons_of_mem _ hb))
      (Nat.le_trans (Nat.mul_le_mul_left _ (by rw [hlen]; omega)) hR) hfree₁
    rw [List.append_assoc] at hbuilt₂
    exact ⟨im₂, (bind_of_ok hrun₁ _).trans hrun₂, hbuilt₂⟩

/-! ### The empty image -/

/-- The image with the superblock only. -/
def blank : Image := { sect := update (fun _ => zeroes) 1 sbSector, nsect := fssize }

theorem zero_sectors (n k : Nat) :
    (List.range' k n).forM (fun i => wsect i zeroes) { nsect := k } =
      .ok ((), { nsect := k + n }) := by
  induction n generalizing k with
  | zero => rfl
  | succ n ih =>
    have hwrite : wsect k zeroes { nsect := k } = .ok ((), { nsect := k + 1 }) := by
      rw [wsect_eq, Image.write]
      simp
    rw [List.range'_succ, show k + (n + 1) = k + 1 + n by omega]
    exact (bind_of_ok hwrite _).trans (ih (k + 1))

theorem getDinode_zeroes (k : Nat) : getDinode zeroes k = {} := by
  have hword : ∀ i, word zeroes i = 0 := fun i => by simp [word, zeroes]
  have haddr : (fun i => if i ≤ ndirect then word zeroes (16 * k + 3 + i) else 0) = fun _ => 0 := by
    funext i
    rw [hword, ite_self]
  rw [getDinode, haddr, hword, hword, hword]
  rfl

theorem blank_nodes : blank.nodes = fun _ => {} := by
  funext i
  rw [Image.nodes]
  by_cases hi : i < ninodes
  · have hne : sb.layout.iblock i ≠ 1 := Nat.ne_of_gt (iblock_gt i)
    simp only [if_pos hi, blank, update_of_ne hne, getDinode_zeroes]
  · rw [if_neg hi]

theorem blank_inv : Inv blank where
  clean := by
    refine ⟨rfl, Nat.le_refl _, by decide, fun n hn => ?_, by simp [blank]⟩
    have hne : n ≠ 1 := by
      have : 1 < blank.freeblock := by decide
      omega
    simp [blank, hne]
  owned := by
    have hown : blank.blocks.own blank.nodes = fun _ => 0 := by
      funext k
      simp [Blocks.own, blank_nodes]
    refine ⟨⟨by decide, ?_, ?_, ?_, ?_⟩, ?_⟩
    · simp [hown]
    · simp [hown]
    · simp [hown]
    · intro x hlo _ hx
      have : x < nmeta := of_decide_eq_true hx
      omega
    · intro x hx
      exact decide_eq_true hx
  short i hi := absurd (by rw [blank_nodes]) hi
  dense i hi := absurd (by rw [blank_nodes]) hi
  storable i := by
    rw [blank_nodes]
    exact storable_empty .free (by decide)
  unused i _ := by rw [blank_nodes]

theorem blank_nfree : blank.blocks.nfree = fssize - nmeta := by decide +kernel

theorem makeRoot_spec (hR : direntSize * 2 ≤ R) (hRmax : R ≤ maxfile * bsize)
    (hfree : need R + rest ≤ blank.blocks.nfree) :
    ∃ im, makeRoot blank = .ok (rootino, im) ∧ Built im [] ∧
      im.blocks.lacking (im.nodes rootino) R + rest ≤ im.blocks.nfree := by
  have hroot : rootino < ninodes := by decide
  obtain ⟨im₁, hrun₁, hinv₁, hfreei₁, hblocks₁, hnodes₁⟩ :=
    ialloc_spec blank_inv hroot .dir (by decide)
  have hnode₁ : im₁.nodes rootino = { type := .dir, nlink := 1 } := by
    rw [hnodes₁]
    exact update_self ..
  have hzero : (im₁.nodes rootino).size = 0 := by rw [hnode₁]
  have htype₁ : (im₁.nodes rootino).type ≠ .free := by
    rw [hnode₁]
    decide
  have hfree₁ : im₁.blocks.lacking (im₁.nodes rootino) R + rest ≤ im₁.blocks.nfree := by
    rw [lacking_of_zero (by rw [hnode₁]), hblocks₁]
    exact hfree
  obtain ⟨im₂, hrun₂, happ₂, hfree₂⟩ := iappend_within (dirent rootino [46]) hinv₁ hroot htype₁
    (by rw [hzero, length_dirent]; simp only [direntSize] at hR ⊢; omega) hRmax hfree₁
  have hsize₂ : (im₂.nodes rootino).size = direntSize := by
    rw [happ₂.size, hzero, length_dirent, Nat.zero_add]
  obtain ⟨im₃, hrun₃, happ₃, hfree₃⟩ := iappend_within (dirent rootino [46, 46]) happ₂.inv hroot
    (by rw [happ₂.type]; exact htype₁)
    (by rw [hsize₂, length_dirent]; simp only [direntSize] at hR ⊢; omega) hRmax hfree₂
  have hnil : im₁.fs.contents rootino = [] := by
    rw [← List.length_eq_zero_iff, length_contents]
    exact hzero
  refine ⟨im₃, ?_, ⟨happ₃.inv, ?_, ?_, ?_, ?_⟩, hfree₃⟩
  · rw [makeRoot, bind_of_ok hrun₁]
    simp only [show blank.freeinode = rootino from rfl, if_true]
    rw [bind_of_ok hrun₂, bind_of_ok hrun₃]
    rfl
  · rw [happ₃.freeinode, happ₂.freeinode, hfreei₁]
    rfl
  · rw [happ₃.type, happ₂.type, hnode₁]
  · rw [happ₃.contents, happ₂.contents, hnil]
    rfl
  · intro j a hj
    cases hj

/-! ## 6. The finished image -/

theorem bitSet_range (n i : Nat) :
    bitSet ((List.range n).foldl setBit zeroes) i = decide (i < n) := by
  induction n with
  | zero => simp [bitSet, zeroes]
  | succ n ih =>
    rw [List.range_succ, List.foldl_append, List.foldl_cons, List.foldl_nil, bitSet_setBit, ih,
      Bool.eq_iff_iff]
    simp only [Bool.or_eq_true, decide_eq_true_eq]
    omega

theorem readsb_sbSector {disk : Nat → Block} (h : disk 1 = sbSector) : readsb disk = sb := by
  rw [readsb, h]
  decide +kernel

/-- What `mkfs` did is what the kernel reads: the inodes are those of the
image, and the blocks agree with it where there are data. -/
structure Mounted (im : Image) (m : FileSys) : Prop where
  size : m.blocks.size = fssize
  used : ∀ n < fssize, m.blocks.used n = im.blocks.used n
  data : ∀ n, nmeta ≤ n → m.blocks.data n = im.blocks.data n
  dinode : m.dinode = update im.nodes rootino { im.nodes rootino with
    size := ((im.nodes rootino).size / bsize + 1) * bsize }

theorem finish_spec (h : Inv im) (devsw : Devsw)
    (hsize : (im.nodes rootino).size ≤ maxfile * bsize) :
    ∃ im', (fixRoot rootino >>= fun _ => get >>= fun im => balloc im.freeblock : MkM Unit) im =
        .ok ((), im') ∧ Mounted im (mount im'.sect devsw) := by
  have hroot : rootino < ninodes := by decide
  have hmax : maxfile * bsize = 71680 := rfl
  have hstore : Storable { im.nodes rootino with
      size := ((im.nodes rootino).size / bsize + 1) * bsize } := by
    apply (h.storable rootino).withSize
    simp only [bsize]
    omega
  obtain ⟨im₁, hwin, hclean, hblocks, hnodes, -, hfreeb⟩ := winode_eq h.clean hroot hstore
  have hlt : im₁.freeblock < bsize * 8 := Nat.lt_of_le_of_lt hclean.hi (by decide)
  refine ⟨im₁.write sb.bmapstart ((List.range im₁.freeblock).foldl setBit zeroes), ?_, ?_⟩
  · rw [fixRoot, bind_assoc, bind_of_ok (rinode_eq h.clean hroot), bind_of_ok hwin,
      bind_of_ok (get_run.mpr rfl), balloc, if_pos hlt, wsect_eq]
  · have hne : 1 ≠ sb.bmapstart := by decide
    have hsb : readsb (im₁.write sb.bmapstart
        ((List.range im₁.freeblock).foldl setBit zeroes)).sect = sb :=
      readsb_sbSector (by simp only [Image.write, update_of_ne hne, hclean.super])
    constructor
    · simp only [mount, hsb]
      rfl
    · intro n hn
      have hbb : sb.layout.bblock n = sb.bmapstart := by
        simp only [Layout.bblock, DiskSuperblock.layout, bpb, bsize, fssize] at hn ⊢
        omega
      have hmod : n % bpb = n := Nat.mod_eq_of_lt (Nat.lt_trans hn (by decide))
      generalize hdisk : (im₁.write sb.bmapstart
        ((List.range im₁.freeblock).foldl setBit zeroes)).sect = disk at hsb
      have hused : (mount disk devsw).blocks.used n =
          bitSet (disk ((readsb disk).layout.bblock n)) (n % bpb) := rfl
      have hmap : disk sb.bmapstart = (List.range im₁.freeblock).foldl setBit zeroes := by
        rw [← hdisk, write_self]
      rw [hused, hsb, hbb, hmod, hmap, bitSet_range, hfreeb]
      rfl
    · intro n hn
      have hne' : n ≠ sb.bmapstart := by
        have : sb.bmapstart < nmeta := by decide
        omega
      rw [← hblocks]
      simp [mount, Image.write, hne', Image.blocks, Nat.not_lt.mpr hn]
    · rw [← hnodes]
      funext i
      simp only [mount, hsb, Image.nodes]
      by_cases hi : i < ninodes
      · have hne' : sb.layout.iblock i ≠ sb.bmapstart := by
          simp only [ninodes] at hi
          simp only [Layout.iblock, DiskSuperblock.layout, sb, ipb, bsize, ninodeblocks, ninodes]
          omega
        rw [if_pos hi, if_pos (show i < sb.ninodes from hi)]
        simp only [Image.write, update_of_ne hne']
      · rw [if_neg hi, if_neg (show ¬ i < sb.ninodes from hi)]

/-- **`mkfs` builds the image**, if its input fits. -/
theorem mkfs_built (h : Fits args) (devsw : Devsw) :
    ∃ im im', mkfs args {} = .ok ((), im') ∧ Built im args ∧
      Mounted im (mount im'.sect devsw) := by
  have hRmax : direntSize * (args.length + 2) ≤ maxfile * bsize :=
    Nat.le_trans (Nat.mul_le_mul_left _ h.inodes) (by decide)
  have hzero : (List.range fssize).forM (fun i => wsect i zeroes) {} =
      .ok ((), { nsect := fssize }) := by
    have := zero_sectors fssize 0
    rwa [Nat.zero_add, ← List.range_eq_range'] at this
  have hblank : wsect 1 sbSector { nsect := fssize } = .ok ((), blank) := rfl
  have hfree : need (direntSize * (args.length + 2)) +
      (args.map fun a => need a.bytes.length).sum ≤ blank.blocks.nfree := by
    have := h.blocks
    rw [blank_nfree]
    omega
  obtain ⟨im₁, hrun₁, hbuilt₁, hfree₁⟩ := makeRoot_spec
    (Nat.mul_le_mul_left _ (Nat.le_add_left 2 _)) hRmax hfree
  obtain ⟨im₂, hrun₂, hbuilt₂⟩ := addFiles_spec args hbuilt₁ h.names
    (by rw [List.length_nil, Nat.zero_add]; exact h.inodes) h.sizes
    (by rw [List.length_nil, Nat.zero_add]) hRmax hfree₁
  obtain ⟨im₃, hrun₃, hmount⟩ := finish_spec hbuilt₂.inv devsw
    (nblocks_le_iff.mp (hbuilt₂.inv.short rootino hbuilt₂.root_ne))
  refine ⟨im₂, im₃, ?_, hbuilt₂, hmount⟩
  rw [mkfs, bind_of_ok hzero, bind_of_ok hblank, bind_of_ok hrun₁, bind_of_ok hrun₂]
  exact hrun₃

/-! ### What the kernel finds -/

section
variable {m : FileSys}

theorem Mounted.own (h : Inv im) (hm : Mounted im m) :
    m.blocks.own m.dinode = im.blocks.own im.nodes := by
  have hnodes : m.blocks.own m.dinode = m.blocks.own im.nodes := by
    have hcongr : m.blocks.own (update im.nodes rootino { im.nodes rootino with
        size := ((im.nodes rootino).size / bsize + 1) * bsize }) =
        m.blocks.own (update im.nodes rootino (im.nodes rootino)) :=
      own_update_congr rfl rfl
    rwa [← hm.dinode, update_eq_self] at hcongr
  rw [hnodes]
  apply own_congr
  intro i hi
  exact hm.data _ (h.owned.exact.range _ hi).1

theorem Mounted.owned (h : Inv im) (hm : Mounted im m) : Owned nmeta m.dinode m.blocks := by
  have hlo : nmeta ≤ fssize := by decide
  refine ⟨?_, fun x hx => ?_⟩
  · rw [hm.own h, hm.size]
    refine ⟨h.owned.exact.pos, h.owned.exact.range, fun k hk => ?_, h.owned.exact.inj,
      fun x hx hlt hused => ?_⟩
    · rw [hm.used _ (h.owned.exact.range k hk).2]
      exact h.owned.exact.marked k hk
    · rw [hm.used x hlt] at hused
      exact h.owned.exact.only x hx hlt hused
  · rw [hm.used x (Nat.lt_of_lt_of_le hx hlo)]
    exact h.owned.reserved x hx

theorem Mounted.dinode_of_ne (hm : Mounted im m) (hi : i ≠ rootino) : m.dinode i = im.nodes i := by
  rw [hm.dinode, update_of_ne hi]

theorem Mounted.dinode_root (hm : Mounted im m) : m.dinode rootino = { im.nodes rootino with
    size := ((im.nodes rootino).size / bsize + 1) * bsize } := by
  rw [hm.dinode, update_self]

theorem Mounted.type (hm : Mounted im m) (i : Nat) : (m.dinode i).type = (im.nodes i).type := by
  by_cases hi : i = rootino
  · rw [hi, hm.dinode_root]
  · rw [hm.dinode_of_ne hi]

section
variable (h : Inv im) (hm : Mounted im m)
include h hm

theorem Mounted.slot (hi : (im.nodes i).type ≠ .free) (s : Nat) :
    m.blocks.slot (m.dinode i) s = im.blocks.slot (im.nodes i) s := by
  rw [← own_eq_slot hi, ← own_eq_slot (by rw [hm.type]; exact hi), hm.own h]

theorem Mounted.byteAt {o : Nat} (hi : (im.nodes i).type ≠ .free) (ho : o < (im.nodes i).size) :
    m.blocks.byteAt (m.dinode i) o = im.blocks.byteAt (im.nodes i) o := by
  have hne : im.blocks.slot (im.nodes i) (o / bsize) ≠ 0 := h.intact.slot_ne hi ho
  rw [Blocks.byteAt, hm.slot h hi, Blocks.byteAt]
  rw [← own_eq_slot hi] at hne ⊢
  rw [hm.data _ (h.owned.exact.range _ hne).1]

theorem Mounted.contents (hroot : i ≠ rootino) (hi : (im.nodes i).type ≠ .free) :
    m.contents i = im.fs.contents i := by
  apply List.ext_getElem?
  intro o
  rw [getElem?_contents, getElem?_contents, hm.dinode_of_ne hroot]
  by_cases ho : o < (im.nodes i).size
  · have hbyte := hm.byteAt h hi ho
    rw [hm.dinode_of_ne hroot] at hbyte
    rw [if_pos ho, if_pos (show o < (im.fs.dinode i).size from ho), hbyte]
    rfl
  · rw [if_neg ho, if_neg (show ¬ o < (im.fs.dinode i).size from ho)]

theorem Mounted.full (hroot : i ≠ rootino) (hi : (im.nodes i).type ≠ .free) :
    Full m.blocks (m.dinode i) (nblocks (m.dinode i).size) := by
  intro s hs
  rw [hm.slot h hi]
  rw [hm.dinode_of_ne hroot] at hs
  exact h.full hi s hs

end

section
variable (h : Built im args) (hm : Mounted im m)
include h hm

theorem Mounted.size_root :
    (m.dinode rootino).size = (direntSize * (args.length + 2) / bsize + 1) * bsize := by
  rw [hm.dinode_root, h.size_root]

theorem Mounted.slot_root {s : Nat} (hs : s < maxfile) :
    m.blocks.slot (m.dinode rootino) s ≠ 0 ↔ s < nblocks (direntSize * (args.length + 2)) := by
  rw [hm.slot h.inv h.root_ne, h.inv.dense rootino h.root_ne s hs, h.size_root]

/-- The root directory lacks the last block of its size just if its entries
fill whole blocks. -/
theorem Mounted.full_root (hargs : args.length + 2 ≤ ninodes) :
    nblocks (m.dinode rootino).size ≤ maxfile ∧
    (Full m.blocks (m.dinode rootino) (nblocks (m.dinode rootino).size) ↔
      (args.length + 2) % 32 ≠ 0) := by
  have hnew : nblocks (m.dinode rootino).size = direntSize * (args.length + 2) / bsize + 1 := by
    rw [hm.size_root h]
    simp only [nblocks, bsize]
    omega
  have hlast : direntSize * (args.length + 2) / bsize < maxfile := by
    simp only [ninodes, direntSize, bsize, maxfile, ndirect, nindirect] at hargs ⊢
    omega
  rw [hnew]
  refine ⟨hlast, ?_⟩
  constructor
  · intro hfull
    have := (hm.slot_root h hlast).mp (hfull _ (Nat.lt_succ_self _))
    simp only [nblocks, direntSize, bsize] at this
    omega
  · intro hmod s hs
    rw [hm.slot_root h (by omega)]
    simp only [nblocks, direntSize, bsize] at hs ⊢
    omega

end

end

theorem readi_unchanged {s : FileSys} {ip : InodeIx} {off n : Nat}
    (hk : nblocks (s.icache ip).din.size ≤ maxfile)
    (hd : Full s.blocks (s.icache ip).din (nblocks (s.icache ip).din.size)) (hn : n < 2 ^ 32) :
    ∃ r, readi ip off n s = .ok (r, s) := by
  by_cases hdev : (s.icache ip).din.type = .dev
  · simp only [readi, bind, StateT.bind, get, getThe, MonadStateOf.get, StateT.get, pure,
      Except.pure, Except.bind, if_pos hdev]
    split
    · exact ⟨_, rfl⟩
    · exact ⟨_, rfl⟩
  · exact ⟨_, readi_of_full hk hd hdev hn⟩

/-! ### The files under their names -/

theorem direntAt_flatMap {l : List (Nat × List UInt8)} {e : Nat × List UInt8} (h : l[k]? = some e) :
    direntAt (l.flatMap fun e => dirent e.1 e.2) k = dirent e.1 e.2 := by
  induction l generalizing k with
  | nil => cases h
  | cons x l ih =>
    have hx : (dirent x.1 x.2).length = direntSize := length_dirent _ _
    rw [List.flatMap_cons]
    cases k with
    | zero =>
      cases h
      rw [direntAt, Nat.mul_zero, List.drop_zero, List.take_left' hx]
    | succ k =>
      rw [List.getElem?_cons_succ] at h
      rw [← ih h, direntAt, direntAt, Nat.mul_succ, Nat.add_comm, ← List.drop_drop,
        List.drop_left' hx]

/-- Names under which the kernel can tell the files apart: C strings,
different in the first `DIRSIZ` bytes, and neither `.` nor `..`. -/
structure NamesApart (args : List Arg) : Prop where
  strings : ∀ a ∈ args, 0 ∉ a.stored
  dots : ∀ a ∈ args, a.stored ≠ [46] ∧ a.stored ≠ [46, 46]
  distinct : (args.map fun a => a.stored.take dirsiz).Nodup

theorem rootEntries_getElem? (args : List Arg) (k : Nat) : (rootEntries args)[k]? =
    match k with
    | 0 => some (1, [46])
    | 1 => some (1, [46, 46])
    | j + 2 => args[j]?.map fun a => (j + 2, a.stored) := by
  match k with
  | 0 => rfl
  | 1 => rfl
  | j + 2 => simp [rootEntries, Function.comp_def]

theorem names_rootBytes (h : NamesApart args) (hargs : args.length + 2 ≤ ninodes)
    (hj : args[j]? = some a) (hk : k ≤ j + 2) : inumAt (rootBytes args) (j + 2) = j + 2 ∧
      (Names (rootBytes args) a.stored k ↔ k = j + 2) := by
  have hlen : j < args.length := by
    by_contra hge
    rw [List.getElem?_eq_none (by omega)] at hj
    cases hj
  have ha : a ∈ args := List.mem_of_getElem? hj
  have hinum : ∀ i e, (rootEntries args)[i]? = some e → e.1 < 2 ^ 16 →
      inumAt (rootBytes args) i = e.1 ∧ nameAt (rootBytes args) i = strncpy dirsiz e.2 := by
    intro i e hi he
    rw [inumAt, nameAt, rootBytes, direntAt_flatMap hi, direntInum_dirent he, direntName_dirent]
    exact ⟨rfl, rfl⟩
  have hself : (rootEntries args)[j + 2]? = some (j + 2, a.stored) := by
    rw [rootEntries_getElem?]
    simp [hj]
  have hsmall : j + 2 < 2 ^ 16 := by
    simp only [ninodes] at hargs
    omega
  obtain ⟨hi, hn⟩ := hinum _ _ hself hsmall
  refine ⟨hi, ?_, ?_⟩
  · -- an entry with this name is this entry
    rintro ⟨-, hname⟩
    by_contra hne
    have hstored : ∀ e, (rootEntries args)[k]? = some e → e.1 < 2 ^ 16 → 0 ∉ e.2 →
        a.stored.take dirsiz = e.2.take dirsiz := by
      intro e hek he h0
      rw [(hinum k e hek he).2, namecmpEq_stored, namecmpEq_iff] at hname
      exact strncpy_inj (h.strings a ha) h0 hname
    have hshort : ∀ q : List UInt8, q.length < dirsiz → a.stored.take dirsiz = q →
        a.stored = q := by
      intro q hq htake
      have hlen := congrArg List.length htake
      rw [List.length_take] at hlen
      rwa [List.take_of_length_le (by omega)] at htake
    rcases k with _ | _ | i
    · exact (h.dots a ha).1 (hshort [46] (by decide) (hstored _ rfl (by decide) (by decide)))
    · exact (h.dots a ha).2 (hshort [46, 46] (by decide) (hstored _ rfl (by decide) (by decide)))
    · obtain ⟨b, hb⟩ : ∃ b, args[i]? = some b :=
        ⟨_, List.getElem?_eq_getElem (show i < args.length by omega)⟩
      have hentry : (rootEntries args)[i + 2]? = some (i + 2, b.stored) := by
        rw [rootEntries_getElem?]
        simp [hb]
      have htake := hstored _ hentry (show i + 2 < 2 ^ 16 by omega)
        (h.strings b (List.mem_of_getElem? hb))
      have hmap : (args.map fun a => a.stored.take dirsiz)[j]? =
          (args.map fun a => a.stored.take dirsiz)[i]? := by
        rw [List.getElem?_map, List.getElem?_map, hj, hb]
        exact congrArg some htake
      have hij := (List.getElem?_inj (by simpa using hlen) h.distinct).mp hmap
      omega
  · rintro rfl
    refine ⟨by rw [hi]; omega, ?_⟩
    rw [hn, namecmpEq_stored, namecmpEq_iff]

/-- The kernel reads the entries of the root directory, whether or not
there is a block behind them. -/
theorem readDirent_root {m s : FileSys} {dp : InodeIx} (h : Built im args) (hm : Mounted im m)
    (hargs : args.length + 2 ≤ ninodes) (hs : SameDisk m s) (hshow : Shows s dp)
    (hi : (s.icache dp).inum = rootino) (hk : k < args.length + 2) (msg : String) :
    readDirent dp (direntSize * k) msg s = .ok (direntAt (rootBytes args) k, s) := by
  have hdin : (s.icache dp).din = m.dinode rootino := by rw [hshow, hi, hs.dinode]
  have hsize := hm.size_root h
  have hcover : direntSize * (args.length + 2) ≤ nblocks (direntSize * (args.length + 2)) * bsize :=
    nblocks_le_iff.mp (Nat.le_refl _)
  have hmax : nblocks (direntSize * (args.length + 2)) ≤ maxfile := by
    rw [← h.size_root]
    exact h.inv.short rootino h.root_ne
  have hfull : Full m.blocks (m.dinode rootino) (nblocks (direntSize * (args.length + 2))) :=
    fun s hs => (hm.slot_root h (Nat.lt_of_lt_of_le hs hmax)).mpr hs
  have hcount : readCount (m.dinode rootino).size (direntSize * k) direntSize = direntSize := by
    rw [readCount, if_neg]
    rw [hsize]
    simp only [direntSize, bsize]
    omega
  have hread : readi dp (direntSize * k) direntSize s =
      .ok (some (direntAt (rootBytes args) k), s) := by
    rw [readi_of_covered hmax (by rw [hdin, hs.blocks]; exact hfull)
      (by rw [hdin, hsize]; simp only [direntSize, bsize, ninodes] at hargs ⊢; omega)
      (by rw [hdin, hm.type, h.root]; decide) (by decide)
      (fun _ => by rw [hdin, hcount]; simp only [direntSize] at hcover ⊢; omega), hdin, if_neg]
    · rw [hcount, hs.blocks]
      have hin : direntSize * k + direntSize ≤ (im.nodes rootino).size := by
        rw [h.size_root]
        simp only [direntSize]
        omega
      have hpiece : (List.range (readCount (im.nodes rootino).size (direntSize * k)
          direntSize)).map (fun o => im.blocks.byteAt (im.nodes rootino) (direntSize * k + o)) =
          ((im.fs.contents rootino).drop (direntSize * k)).take direntSize :=
        piece_contents im.fs rootino (Nat.le_trans (Nat.le_add_right _ _) hin)
      rw [h.entries, readCount, if_neg (Nat.not_lt.mpr hin)] at hpiece
      have hbytes : (List.range direntSize).map (fun o =>
          m.blocks.byteAt (m.dinode rootino) (direntSize * k + o)) =
          (List.range direntSize).map (fun o =>
            im.blocks.byteAt (im.nodes rootino) (direntSize * k + o)) := by
        apply List.map_congr_left
        intro o ho
        rw [List.mem_range] at ho
        exact hm.byteAt h.inv h.root_ne (by omega)
      rw [direntAt, ← hpiece, hbytes]
    · rw [hsize]
      simp only [direntSize, bsize, toU32, ninodes] at hargs ⊢
      omega
  have hlen : (direntAt (rootBytes args) k).length = direntSize := by
    rw [direntAt, List.length_take, List.length_drop, length_rootBytes]
    simp only [direntSize]
    omega
  rw [readDirent, bind_of_ok hread]
  simp only [hlen, if_true]
  rfl

/-- **The kernel finds the files `mkfs` was given.** For every input that
fits, with names that differ, and however `read` cuts the files: on the
image, `dirlookup` finds each name in the root directory, with the number
of an inode of type `T_FILE`, and `readi` of that inode returns the bytes of
the file. -/
theorem mkfs_readable (h : Fits args) (hnames : NamesApart args) (devsw : Devsw) :
    ∃ im, mkfs args {} = .ok ((), im) ∧
      ∀ s, SameDisk (mount im.sect devsw) s → ∀ j a, args[j]? = some a →
        (∀ dp, Shows s dp → (s.icache dp).inum = rootino →
          dirlookup dp a.stored s = (iget (j + 2) >>= fun ip =>
            pure (some (ip, direntSize * (j + 2))) : FsM _) s) ∧
        (s.dinode (j + 2)).type = .file ∧
        ∀ ip, Shows s ip → (s.icache ip).inum = j + 2 → ∀ off n, off < 2 ^ 32 → n < 2 ^ 32 →
          readi ip off n s = .ok (
            if a.bytes.length < off ∨ 2 ^ 32 ≤ off + n then none
            else some ((a.bytes.drop off).take n), s) := by
  obtain ⟨im₀, im, hrun, hbuilt, hm⟩ := mkfs_built h devsw
  refine ⟨im, hrun, fun s hs j a hj => ?_⟩
  obtain ⟨htype, hbytes⟩ := hbuilt.files j a hj
  have hlen : j < args.length := by
    by_contra hge
    rw [List.getElem?_eq_none (by omega)] at hj
    cases hj
  have hfree : (im₀.nodes (j + 2)).type ≠ .free := by
    rw [htype]
    decide
  refine ⟨fun dp hshow hi => ?_, ?_, fun ip hshow hi off n hoff hn => ?_⟩
  · have hdin : (s.icache dp).din = (mount im.sect devsw).dinode rootino := by
      rw [hshow, hi, hs.dinode]
    obtain ⟨hinum, hself⟩ := names_rootBytes hnames h.inodes hj (Nat.le_refl _)
    have hfind := dirlookup_first
      (by rw [hdin, hm.type, hbuilt.root]) (hself.mpr rfl)
      (fun k hk hname => by
        have := (names_rootBytes hnames h.inodes hj (Nat.le_of_lt hk)).2.mp hname
        omega)
      (by rw [hdin, hm.size_root hbuilt]; simp only [direntSize, bsize]; omega)
      (fun k hk => readDirent_root hbuilt hm h.inodes hs hshow hi (by omega) _)
    rw [hinum] at hfind
    exact hfind
  · rw [hs.dinode, hm.type, htype]
  · have hroot : j + 2 ≠ rootino := by
      simp only [rootino]
      omega
    have hnode : s.dinode (j + 2) = (mount im.sect devsw).dinode (j + 2) := by rw [hs.dinode]
    have hcont : s.contents (j + 2) = a.bytes := by
      rw [hs.contents, hm.contents hbuilt.inv hroot hfree, hbytes]
    have hsize : (s.dinode (j + 2)).size = a.bytes.length := by rw [← hcont, length_contents]
    have hread := readi_contents_of_full hshow hi
      (by rw [hsize]; exact nblocks_le_iff.mpr (h.sizes a (List.mem_of_getElem? hj)))
      (by rw [hnode, hs.blocks]; exact hm.full hbuilt.inv hroot hfree)
      (by rw [hnode, hm.type, htype]; decide) hoff hn
    rwa [hsize, hcont] at hread

/-- No device. -/
def noDevices : Devsw := { read := fun _ _ => none, write := fun _ _ => none }

/-- Two files: `a`, read in two pieces, and `b`. -/
def twoFiles : List Arg := [⟨[95, 97], [[1, 2], [3]]⟩, ⟨[98], [[4]]⟩]

theorem twoFiles_fits : Fits twoFiles := by
  refine ⟨?_, ?_, ?_, ?_⟩ <;> decide

/-- `b` is found in the fourth entry, and the three bytes of `a` are read
back. -/
theorem mkfs_readable_twoFiles : ∃ im, mkfs twoFiles {} = .ok ((), im) ∧
    ∀ s, SameDisk (mount im.sect noDevices) s →
      (∀ dp, Shows s dp → (s.icache dp).inum = rootino →
        dirlookup dp [98] s = (iget 3 >>= fun ip => pure (some (ip, 48)) : FsM _) s) ∧
      ∀ ip, Shows s ip → (s.icache ip).inum = 2 → readi ip 1 5 s = .ok (some [2, 3], s) := by
  have hnames : NamesApart twoFiles := by
    refine ⟨?_, ?_, ?_⟩ <;> decide
  obtain ⟨im, hrun, hread⟩ := mkfs_readable twoFiles_fits hnames noDevices
  refine ⟨im, hrun, fun s hs => ⟨fun dp hshow hi => ?_, fun ip hshow hi => ?_⟩⟩
  · exact (hread s hs 1 _ rfl).1 dp hshow hi
  · exact (hread s hs 0 _ rfl).2.2 ip hshow hi 1 5 (by decide) (by decide)

/-- **The invariants of the kernel, on the image of `mkfs`.** For every
input that fits, `mkfs` returns, and on its image

1. the blocks of the inodes are data blocks, marked, and in one place only,
   and no other data block is marked;
2. every inode but the root directory has the blocks below its end;
3. the root directory has them just if the number of its entries is not a
   multiple of 32;
4. so reading allocates nothing, of the root in that case. -/
theorem mkfs_invariants (h : Fits args) (devsw : Devsw) :
    ∃ im, mkfs args {} = .ok ((), im) ∧
      Owned nmeta (mount im.sect devsw).dinode (mount im.sect devsw).blocks ∧
      (∀ i, i ≠ rootino → ((mount im.sect devsw).dinode i).type ≠ .free →
        Full (mount im.sect devsw).blocks ((mount im.sect devsw).dinode i)
          (nblocks ((mount im.sect devsw).dinode i).size)) ∧
      (Full (mount im.sect devsw).blocks ((mount im.sect devsw).dinode rootino)
          (nblocks ((mount im.sect devsw).dinode rootino).size) ↔ (args.length + 2) % 32 ≠ 0) ∧
      ∀ s ip, SameDisk (mount im.sect devsw) s → Shows s ip →
        (s.dinode (s.icache ip).inum).type ≠ .free →
        ((s.icache ip).inum = rootino → (args.length + 2) % 32 ≠ 0) →
        ∀ off n, n < 2 ^ 32 → ∃ r, readi ip off n s = .ok (r, s) := by
  obtain ⟨im₀, im, hrun, hbuilt, hm⟩ := mkfs_built h devsw
  have hother : ∀ i, i ≠ rootino → ((mount im.sect devsw).dinode i).type ≠ .free →
      Full (mount im.sect devsw).blocks ((mount im.sect devsw).dinode i)
        (nblocks ((mount im.sect devsw).dinode i).size) := by
    intro i hi hf
    exact hm.full hbuilt.inv hi (by rw [← hm.type]; exact hf)
  obtain ⟨hshort, hroot⟩ := hm.full_root hbuilt h.inodes
  refine ⟨im, hrun, hm.owned hbuilt.inv, hother, hroot, ?_⟩
  intro s ip hs hshow hf hcond off n hn
  rw [Shows, hs.dinode] at hshow
  rw [hs.dinode] at hf
  generalize (s.icache ip).inum = i at hshow hf hcond
  have hk : nblocks ((mount im.sect devsw).dinode i).size ≤ maxfile := by
    by_cases hi : i = rootino
    · rw [hi]
      exact hshort
    · rw [hm.dinode_of_ne hi]
      exact hbuilt.inv.short i (by rw [← hm.type]; exact hf)
  refine readi_unchanged (by rw [hshow]; exact hk) ?_ hn
  rw [hshow, hs.blocks]
  by_cases hi : i = rootino
  · rw [hi]
    exact hroot.mpr (hcond hi)
  · exact hother i hi hf

theorem mkfs_invariants_twoFiles : ∃ im, mkfs twoFiles {} = .ok ((), im) ∧
    Full (mount im.sect noDevices).blocks ((mount im.sect noDevices).dinode rootino)
      (nblocks ((mount im.sect noDevices).dinode rootino).size) := by
  obtain ⟨im, hrun, -, -, hroot, -⟩ := mkfs_invariants twoFiles_fits noDevices
  exact ⟨im, hrun, hroot.mpr (by decide)⟩

/-- Thirty empty files. -/
def thirtyFiles : List Arg := List.replicate 30 ⟨[97], []⟩

/-- The 32 entries of the root directory are one block, its size is that of
two, and it has no second one. -/
theorem mkfs_root_hole : ∃ im, mkfs thirtyFiles {} = .ok ((), im) ∧
    ((mount im.sect noDevices).dinode rootino).size = 2 * bsize ∧
    (mount im.sect noDevices).blocks.slot ((mount im.sect noDevices).dinode rootino) 1 = 0 := by
  have hfits : Fits thirtyFiles := by
    refine ⟨?_, ?_, ?_, ?_⟩ <;> decide
  obtain ⟨im₀, im, hrun, hbuilt, hm⟩ := mkfs_built hfits noDevices
  refine ⟨im, hrun, (hm.size_root hbuilt).trans (by decide), ?_⟩
  have hslot := hm.slot_root hbuilt (show 1 < maxfile by decide)
  by_contra hne
  exact absurd (hslot.mp hne) (by decide)

end Xv6.Mkfs
