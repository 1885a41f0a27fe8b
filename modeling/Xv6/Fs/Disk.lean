/-
Xv6.Fs.Disk — the format of the disk, as the kernel reads it: superblock,
inode blocks and bit map, of `fs.h` and `fs.c`.

A disk is its blocks by number. `mount` is the file system the kernel finds
on it: `readsb` reads the superblock, `ilock` an inode out of its block, and
`balloc` the bits of the map. The other modules keep inodes and bit map as
tables of their own; here both are bytes.

A `struct dinode` is 64 bytes, that is 16 words, the first two with two
`short`s each.
-/
import Xv6.Fs.Logged
import Mathlib.Data.Nat.Bitwise
import Mathlib.Tactic.IntervalCases

namespace Xv6.Fs

/-! ## `struct dinode` -/

/-- The number of a type, `T_DIR`, `T_FILE` and `T_DEV` of `stat.h`. -/
def typeCode : InodeType → Nat
  | .free => 0
  | .dir => 1
  | .file => 2
  | .dev => 3

/-- The type with a number; no other number is ever stored. -/
def typeOfCode : Nat → InodeType
  | 0 => .free
  | 1 => .dir
  | 2 => .file
  | _ => .dev

/-- The two bytes of a C `short`, as a number. -/
def toU16 (x : Int) : Nat := (x % 2 ^ 16).toNat

/-- Word `m` of a `struct dinode`. -/
def Dinode.words (d : Dinode) : Nat → Nat
  | 0 => typeCode d.type + toU16 d.major * 2 ^ 16
  | 1 => toU16 d.minor + toU16 d.nlink * 2 ^ 16
  | 2 => d.size
  | m + 3 => d.addrs m

/-- Inode `k` of a block is stored: `*dip = *ip`. -/
def putDinode (b : Block) (k : Nat) (d : Dinode) : Block := fun j =>
  if j / 64 = k then UInt8.ofNat (d.words (j / 4 % 16) / 2 ^ (8 * (j % 4))) else b j

/-- Inode `k` of a block. -/
def getDinode (b : Block) (k : Nat) : Dinode where
  type := typeOfCode (word b (16 * k) % 2 ^ 16)
  major := toI16 (word b (16 * k) / 2 ^ 16 : Nat)
  minor := toI16 (word b (16 * k + 1) % 2 ^ 16 : Nat)
  nlink := toI16 (word b (16 * k + 1) / 2 ^ 16 : Nat)
  size := word b (16 * k + 2)
  addrs i := if i ≤ ndirect then word b (16 * k + 3 + i) else 0

/-! ## The bit map -/

/-- The test of `balloc` for bit `i` of a block. -/
def bitSet (b : Block) (i : Nat) : Bool := (b (i / 8) &&& (1 : UInt8) <<< UInt8.ofNat (i % 8)) != 0

/-- `buf[i/8] | (0x1 << (i%8))`. -/
def setBit (b : Block) (i : Nat) : Block :=
  Function.update b (i / 8) (b (i / 8) ||| (1 : UInt8) <<< UInt8.ofNat (i % 8))

/-! ## The whole disk -/

/-- `struct superblock`. -/
structure DiskSuperblock where
  size : Nat
  nblocks : Nat
  ninodes : Nat
  nlog : Nat
  logstart : Nat
  inodestart : Nat
  bmapstart : Nat
  deriving DecidableEq

def readsb (disk : Nat → Block) : DiskSuperblock where
  size := word (disk 1) 0
  nblocks := word (disk 1) 1
  ninodes := word (disk 1) 2
  nlog := word (disk 1) 3
  logstart := word (disk 1) 4
  inodestart := word (disk 1) 5
  bmapstart := word (disk 1) 6

/-- Where it says that inodes and bit map begin. -/
def DiskSuperblock.layout (sb : DiskSuperblock) : Layout := ⟨sb.inodestart, sb.bmapstart⟩

/-- The file system on a disk, with nothing in the inode cache. -/
def mount (disk : Nat → Block) (devsw : Devsw) : FileSys where
  ninodes := (readsb disk).ninodes
  blocks :=
    { size := (readsb disk).size
      size_lt := word_lt _ _
      used := fun n => bitSet (disk ((readsb disk).layout.bblock n)) (n % bpb)
      data := disk }
  dinode i :=
    if i < (readsb disk).ninodes then
      getDinode (disk ((readsb disk).layout.iblock i)) (i % ipb)
    else {}
  icache _ := {}
  devsw := devsw

/-! ## What is stored is read -/

/-- The fields are in the range of their C types. -/
structure Storable (d : Dinode) : Prop where
  major : -2 ^ 15 ≤ d.major ∧ d.major < 2 ^ 15
  minor : -2 ^ 15 ≤ d.minor ∧ d.minor < 2 ^ 15
  nlink : -2 ^ 15 ≤ d.nlink ∧ d.nlink < 2 ^ 15
  size : d.size < 2 ^ 32
  addrs : ∀ i, d.addrs i < 2 ^ 32
  tail : ∀ i, ndirect < i → d.addrs i = 0

section
variable {b : Block} {d : Dinode} {k k' m i j : Nat}

theorem toU16_lt (x : Int) : toU16 x < 2 ^ 16 := by
  unfold toU16
  omega

theorem toI16_toU16 {x : Int} (h : -2 ^ 15 ≤ x ∧ x < 2 ^ 15) : toI16 (toU16 x : Nat) = x := by
  have hmod : ((toU16 x : Nat) : Int) = x % 2 ^ 16 := by
    unfold toU16
    omega
  rw [toI16, hmod]
  refine (Int.emod_bmod ..).trans (Int.bmod_eq_of_le ?_ ?_)
  · simp
    omega
  · simp
    omega

theorem typeOfCode_typeCode (t : InodeType) : typeOfCode (typeCode t) = t := by
  cases t <;> rfl

theorem typeCode_lt (t : InodeType) : typeCode t < 2 ^ 16 := by
  cases t <;> decide

theorem Storable.withSize (h : Storable d) (hm : m < 2 ^ 32) : Storable { d with size := m } :=
  ⟨h.major, h.minor, h.nlink, hm, h.addrs, h.tail⟩

theorem Storable.words_lt (h : Storable d) (m : Nat) : d.words m < 2 ^ 32 := by
  have h1 := typeCode_lt d.type
  have h2 := toU16_lt d.major
  have h3 := toU16_lt d.minor
  have h4 := toU16_lt d.nlink
  match m with
  | 0 =>
    rw [Dinode.words]
    omega
  | 1 =>
    rw [Dinode.words]
    omega
  | 2 => exact h.size
  | m + 3 => exact h.addrs m

theorem word_putDinode_self (h : Storable d) (hm : m < 16) :
    word (putDinode b k d) (16 * k + m) = d.words m := by
  have hlt := h.words_lt m
  have hpos : ∀ r, r < 4 → (4 * (16 * k + m) + r) / 64 = k ∧
      (4 * (16 * k + m) + r) / 4 % 16 = m ∧ (4 * (16 * k + m) + r) % 4 = r := by
    intro r hr
    omega
  obtain ⟨a0, b0, c0⟩ := hpos 0 (by decide)
  obtain ⟨a1, b1, c1⟩ := hpos 1 (by decide)
  obtain ⟨a2, b2, c2⟩ := hpos 2 (by decide)
  obtain ⟨a3, b3, c3⟩ := hpos 3 (by decide)
  rw [Nat.add_zero] at a0 b0 c0
  simp only [word, putDinode, a0, b0, c0, a1, b1, c1, a2, b2, c2, a3, b3, c3, if_true,
    UInt8.toNat_ofNat']
  generalize d.words m = w at hlt
  omega

theorem word_putDinode_of_ne (hk : k' ≠ k) (hm : m < 16) :
    word (putDinode b k d) (16 * k' + m) = word b (16 * k' + m) := by
  have hpos : ∀ r, r < 4 → (4 * (16 * k' + m) + r) / 64 ≠ k := by
    intro r hr
    omega
  have h0 := hpos 0 (by decide)
  rw [Nat.add_zero] at h0
  simp only [word, putDinode, if_neg h0, if_neg (hpos 1 (by decide)), if_neg (hpos 2 (by decide)),
    if_neg (hpos 3 (by decide))]

/-- **The inode stored is the inode read.** -/
theorem getDinode_putDinode_self (h : Storable d) : getDinode (putDinode b k d) k = d := by
  have hword : ∀ m, m < 16 → word (putDinode b k d) (16 * k + m) = d.words m :=
    fun m hm => word_putDinode_self h hm
  have h0 := hword 0 (by decide)
  have h1 := hword 1 (by decide)
  have h2 := hword 2 (by decide)
  rw [Nat.add_zero] at h0
  have ht := typeCode_lt d.type
  have hmi := toU16_lt d.minor
  have haddr : (fun i => if i ≤ ndirect then word (putDinode b k d) (16 * k + 3 + i) else 0) =
      d.addrs := by
    funext i
    by_cases hi : i ≤ ndirect
    · rw [if_pos hi, Nat.add_assoc, hword (3 + i) (by simp only [ndirect] at hi; omega),
        Nat.add_comm 3 i, Dinode.words]
    · rw [if_neg hi, h.tail i (Nat.lt_of_not_le hi)]
  have e1 : (typeCode d.type + toU16 d.major * 2 ^ 16) % 2 ^ 16 = typeCode d.type := by omega
  have e2 : (typeCode d.type + toU16 d.major * 2 ^ 16) / 2 ^ 16 = toU16 d.major := by omega
  have e3 : (toU16 d.minor + toU16 d.nlink * 2 ^ 16) % 2 ^ 16 = toU16 d.minor := by omega
  have e4 : (toU16 d.minor + toU16 d.nlink * 2 ^ 16) / 2 ^ 16 = toU16 d.nlink := by omega
  rw [getDinode, haddr, h0, h1, h2, Dinode.words, Dinode.words, Dinode.words, e1, e2, e3, e4,
    typeOfCode_typeCode, toI16_toU16 h.major, toI16_toU16 h.minor, toI16_toU16 h.nlink]

theorem getDinode_putDinode_of_ne (hk : k' ≠ k) :
    getDinode (putDinode b k d) k' = getDinode b k' := by
  have hword : ∀ m, m < 16 → word (putDinode b k d) (16 * k' + m) = word b (16 * k' + m) :=
    fun m hm => word_putDinode_of_ne hk hm
  have h0 := hword 0 (by decide)
  rw [Nat.add_zero] at h0
  have haddr : (fun i => if i ≤ ndirect then word (putDinode b k d) (16 * k' + 3 + i) else 0) =
      fun i => if i ≤ ndirect then word b (16 * k' + 3 + i) else 0 := by
    funext i
    by_cases hi : i ≤ ndirect
    · rw [if_pos hi, if_pos hi, Nat.add_assoc, hword (3 + i) (by simp only [ndirect] at hi; omega)]
    · rw [if_neg hi, if_neg hi]
  rw [getDinode, getDinode, haddr, h0, hword 1 (by decide), hword 2 (by decide)]

/-! ### Bits -/

theorem toNat_one_shiftLeft (h : k < 8) : ((1 : UInt8) <<< UInt8.ofNat k).toNat = 2 ^ k := by
  interval_cases k <;> rfl

theorem bitSet_eq (b : Block) (i : Nat) : bitSet b i = (b (i / 8)).toNat.testBit (i % 8) := by
  have hmod : i % 8 < 8 := Nat.mod_lt _ (by decide)
  have hand : (b (i / 8) &&& (1 : UInt8) <<< UInt8.ofNat (i % 8)).toNat =
      ((b (i / 8)).toNat.testBit (i % 8)).toNat * 2 ^ (i % 8) := by
    rw [UInt8.toNat_and, toNat_one_shiftLeft hmod, Nat.and_two_pow]
  rw [bitSet, Bool.eq_iff_iff, bne_iff_ne, ne_eq, ← UInt8.toNat_inj, hand]
  cases (b (i / 8)).toNat.testBit (i % 8) with
  | true => simp
  | false => simp

theorem bitSet_setBit (b : Block) (i j : Nat) :
    bitSet (setBit b i) j = (decide (j = i) || bitSet b j) := by
  have hmod : i % 8 < 8 := Nat.mod_lt _ (by decide)
  rw [bitSet_eq, bitSet_eq]
  by_cases hbyte : j / 8 = i / 8
  · rw [setBit, hbyte, Function.update_self, UInt8.toNat_or, toNat_one_shiftLeft hmod,
      Nat.testBit_or, Nat.testBit_two_pow, Bool.or_comm]
    congr 1
    rw [decide_eq_decide]
    omega
  · rw [setBit, Function.update_of_ne hbyte]
    have hne : j ≠ i := fun h => hbyte (by rw [h])
    simp [hne]

end

end Xv6.Fs
