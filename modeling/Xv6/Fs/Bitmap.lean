/-
Xv6.Fs.Bitmap — `balloc` and `bfree` of `fs.c` on the bytes of the bit map.

`balloc` walks the map block by block and bit by bit; `bfree` finds a bit by
division. `balloc_exact`: both mean the same bits, for file systems up to
2^31 blocks (then the `int b` of `balloc` turns negative) whose map marks its
own blocks as used. One that does not can be handed out and zeroed, with the
bit that was set in it (`balloc_loses_bit`). On such file systems they do to
the bytes what `Blocks.balloc` and `Blocks.bfree`, which the other modules
use, do to a table of marks (`balloc_reads`, `bfree_reads`).
-/
import Xv6.Fs.Disk

namespace Xv6.Fs

open Function

/-- `buf[i/8] &= ~(1 << (i%8))`. -/
def clearBit (b : Block) (i : Nat) : Block :=
  update b (i / 8) (b (i / 8) &&& ~~~((1 : UInt8) <<< UInt8.ofNat (i % 8)))

namespace DiskSuperblock

variable (sb : DiskSuperblock) (disk : Nat → Block)

/-- `BBLOCK(b, sb)`; the division is that of the type of `b`, the sum a `uint`. -/
def bblock (b : Int) : Nat := toU32 (b.tdiv bpb + sb.bmapstart)

/-- The loop of `balloc` from `b`, and the block found. `int b` is kept as its
32 bits: it is compared with `sb.size` as a `uint`, but divided as an `int`.
Nothing if it has not returned after that many rounds. -/
def ballocLoop : Nat → Nat → Option (Except String (Nat × (Nat → Block)))
  | 0, _ => none
  | rounds + 1, b =>
    if b < sb.size then
      let bp := sb.bblock (toI32 b)
      match (List.range (min bpb (sb.size - b))).find? fun bi => !bitSet (disk bp) bi with
      | some bi =>
        let disk := update disk bp (setBit (disk bp) bi)
        -- `bzero(dev, b + bi)`
        some (.ok (b + bi, update disk (b + bi) fun _ => 0))
      | none => ballocLoop rounds (toU32 (b + bpb))
    else some (.error "balloc: out of blocks")

/-- `balloc`; `b` has taken all its values after 2^20 rounds. -/
def balloc : Option (Except String (Nat × (Nat → Block))) := sb.ballocLoop disk (2 ^ 20 + 1) 0

def bfree (b : Nat) : Except String (Nat → Block) :=
  let bp := sb.bblock b
  if bitSet (disk bp) (b % bpb) then
    .ok (update disk bp (clearBit (disk bp) (b % bpb)))
  else .error "freeing free block"

/-- The bit of block `n`. -/
def used (n : Nat) : Bool := bitSet (disk (sb.bblock n)) (n % bpb)

/-- Where that bit is: its block, byte and mask. -/
def position (n : Nat) : Nat × Nat × UInt8 :=
  (sb.bblock n, n % bpb / 8, 1 <<< UInt8.ofNat (n % bpb % 8))

end DiskSuperblock

theorem bitSet_clearBit (b : Block) (i j : Nat) :
    bitSet (clearBit b i) j = (!decide (j = i) && bitSet b j) := by
  have hmod : i % 8 < 8 := Nat.mod_lt _ (by decide)
  rw [bitSet_eq, bitSet_eq]
  by_cases hbyte : j / 8 = i / 8
  · have hnot (m : UInt8) : (~~~m).toNat = 2 ^ 8 - (m.toNat + 1) := by
      rw [UInt8.toNat_not]
      exact Nat.sub_right_comm ..
    have hj : j % 8 < 8 := Nat.mod_lt _ (by decide)
    rw [clearBit, hbyte, update_self, UInt8.toNat_and, hnot, Nat.testBit_and,
      Nat.testBit_two_pow_sub_succ (UInt8.toNat_lt _), toNat_one_shiftLeft hmod,
      Nat.testBit_two_pow, decide_eq_true hj, Bool.true_and, Bool.and_comm]
    congr 2
    rw [decide_eq_decide]
    omega
  · rw [clearBit, update_of_ne hbyte]
    have hne : j ≠ i := fun h => hbyte (by rw [h])
    simp [hne]

section
variable {sb : DiskSuperblock} {disk : Nat → Block} {b x n rounds : Nat} {c : Block} {v : Bool}

theorem bblock_natCast (n : Nat) : sb.bblock n = (n / bpb + sb.bmapstart) % 2 ^ 32 := by
  have h : (n : Int).tdiv bpb = (n / bpb : Nat) := rfl
  rw [DiskSuperblock.bblock, h, toU32]
  omega

/-- Same block of the map, same bit of it: same block. -/
theorem eq_of_bblock_eq (hx : x < 2 ^ 32) (hn : n < 2 ^ 32) (h : sb.bblock n = sb.bblock x)
    (hmod : n % bpb = x % bpb) : n = x := by
  rw [bblock_natCast, bblock_natCast] at h
  simp only [bpb, bsize] at h hmod
  omega

theorem position_injOn : Set.InjOn sb.position {n | n < 2 ^ 32} := by
  intro m hm n hn h
  simp only [DiskSuperblock.position, Prod.mk.injEq] at h
  obtain ⟨hblock, hbyte, hmask⟩ := h
  refine eq_of_bblock_eq hn hm hblock ?_
  have hmod (k : Nat) : k % 8 < 8 := Nat.mod_lt _ (by decide)
  rw [← UInt8.toNat_inj, toNat_one_shiftLeft (hmod _), toNat_one_shiftLeft (hmod _)] at hmask
  have := Nat.pow_right_injective le_rfl hmask
  omega

/-- A write of one bit of the map changes that bit. -/
theorem used_update (hx : x < 2 ^ 32) (hn : n < 2 ^ 32)
    (hc : ∀ j, bitSet c j = if j = x % bpb then v else bitSet (disk (sb.bblock x)) j) :
    sb.used (update disk (sb.bblock x) c) n = if n = x then v else sb.used disk n := by
  unfold DiskSuperblock.used
  by_cases hb : sb.bblock n = sb.bblock x
  · rw [hb, update_self, hc]
    congr 1
    exact propext ⟨eq_of_bblock_eq hx hn hb, congrArg (· % bpb)⟩
  · rw [update_of_ne hb, if_neg fun h => hb (by rw [h])]

theorem bfree_used (hx : x < 2 ^ 32) (hu : sb.used disk x = true) :
    ∃ disk', sb.bfree disk x = .ok disk' ∧
      (∀ n < 2 ^ 32, sb.used disk' n = if n = x then false else sb.used disk n) ∧
      ∀ p ≠ sb.bblock x, disk' p = disk p := by
  refine ⟨_, if_pos hu, fun n hn => used_update hx hn fun j => ?_,
    fun p hp => update_of_ne hp ..⟩
  rw [bitSet_clearBit]
  by_cases h : j = x % bpb <;> simp [h]

/-- The bits of the map block that a round of `balloc` reads. -/
theorem used_round (hs : sb.size ≤ 2 ^ 31) (hb : b % bpb = 0) (hlt : b < sb.size) {bi : Nat}
    (hbi : bi < min bpb (sb.size - b)) :
    sb.bblock (b + bi : Nat) = sb.bblock (toI32 b) ∧ (b + bi) % bpb = bi := by
  rw [toI32_of_range (by omega) (by omega), bblock_natCast, bblock_natCast]
  simp only [bpb, bsize] at hb hbi ⊢
  omega

theorem ballocLoop_end (h : sb.size ≤ b) :
    sb.ballocLoop disk (rounds + 1) b = some (.error "balloc: out of blocks") := by
  rw [DiskSuperblock.ballocLoop, if_neg (by omega)]

/-- By induction on the rounds: those before found every bit set. -/
theorem ballocLoop_cases (disk : Nat → Block) (rounds : Nat) (hs : sb.size ≤ 2 ^ 31)
    (hb : b % bpb = 0) (hr : sb.size ≤ b + bpb * rounds) :
    (sb.ballocLoop disk (rounds + 1) b = some (.error "balloc: out of blocks") ∧
      ∀ n, b ≤ n → n < sb.size → sb.used disk n = true) ∨
    ∃ x, sb.ballocLoop disk (rounds + 1) b = some (.ok (x, update (update disk
        (sb.bblock x) (setBit (disk (sb.bblock x)) (x % bpb))) x fun _ => 0)) ∧
      x < sb.size ∧ sb.used disk x = false ∧ ∀ n, b ≤ n → n < x → sb.used disk n = true := by
  induction rounds generalizing b with
  | zero => exact .inl ⟨ballocLoop_end (by omega), fun n hn hns => by omega⟩
  | succ rounds ih =>
    by_cases hlt : b < sb.size
    case neg => exact .inl ⟨ballocLoop_end (by omega), fun n hn hns => by omega⟩
    have hbpb : bpb = 4096 := rfl
    rw [Nat.mul_succ] at hr
    rw [DiskSuperblock.ballocLoop, if_pos hlt]
    have hbit {n : Nat} (hle : b ≤ n) (hn : n - b < min bpb (sb.size - b)) :
        sb.used disk n = bitSet (disk (sb.bblock (toI32 b))) (n - b) := by
      obtain ⟨h1, h2⟩ := used_round hs hb hlt hn
      rw [Nat.add_sub_cancel' hle] at h1 h2
      rw [DiskSuperblock.used, h1, h2]
    cases hf : (List.range (min bpb (sb.size - b))).find?
        fun bi => !bitSet (disk (sb.bblock (toI32 b))) bi with
    | some bi =>
      obtain ⟨hclear, hmem, hset⟩ := List.find?_range_eq_some.mp hf
      have hbi := List.mem_range.mp hmem
      obtain ⟨h1, h2⟩ := used_round hs hb hlt hbi
      refine .inr ⟨b + bi, by simp only [hf, h1, h2], by omega, ?_, fun n hn hlt => ?_⟩
      · rw [DiskSuperblock.used, h1, h2]
        simpa using hclear
      · rw [hbit hn (by omega)]
        simpa using hset (n - b) (by omega)
    | none =>
      have hset := List.find?_range_eq_none.mp hf
      have hround (n : Nat) (hn : b ≤ n) (hlt : n < b + bpb) (hns : n < sb.size) :
          sb.used disk n = true := by
        rw [hbit hn (by omega)]
        simpa using hset (n - b) (by omega)
      have hnext : toU32 ((b : Int) + bpb) = b + bpb := by
        unfold toU32
        omega
      simp only [hf, hnext]
      obtain ⟨heq, h⟩ | ⟨x, heq, hx, hc, h⟩ := ih (b := b + bpb)
        (by rw [Nat.add_mod_right, hb]) (by omega)
      · refine .inl ⟨heq, fun n hn hns => ?_⟩
        by_cases hlt : n < b + bpb
        · exact hround n hn hlt hns
        · exact h n (by omega) hns
      · refine .inr ⟨x, heq, hx, hc, fun n hn hnx => ?_⟩
        by_cases hlt : n < b + bpb
        · exact hround n hn hlt (by omega)
        · exact h n (by omega) hnx

/-- The map after `balloc` took block `x`, which is not one of the map. -/
theorem used_taken (hs : sb.size ≤ 2 ^ 31)
    (hmap : ∀ m < sb.size, sb.bblock m < sb.size → sb.used disk (sb.bblock m) = true)
    (hx : x < sb.size) (hc : sb.used disk x = false) (n : Nat) (hn : n < 2 ^ 32)
    (hx' : n < sb.size ∨ sb.bblock n ≠ x) :
    sb.used (update (update disk (sb.bblock x) (setBit (disk (sb.bblock x)) (x % bpb))) x
        fun _ => 0) n = if n = x then true else sb.used disk n := by
  have hne : sb.bblock n ≠ x := by
    rcases hx' with hn | hne
    · rintro rfl
      rw [hmap n hn hx] at hc
      exact absurd hc (by decide)
    · exact hne
  rw [DiskSuperblock.used, update_of_ne hne]
  refine used_update (by omega) hn fun j => ?_
  rw [bitSet_setBit]
  by_cases hj : j = x % bpb <;> simp [hj]

/-- The table has the marks of the map, and the data of the other blocks. -/
structure DiskSuperblock.Reads (sb : DiskSuperblock) (disk : Nat → Block) (t : Blocks) :
    Prop where
  size : t.size = sb.size
  used : ∀ n < sb.size, t.used n = sb.used disk n
  data : ∀ n, (∀ m < sb.size, sb.bblock m ≠ n) → t.data n = disk n

/-- `balloc` on the bytes is `balloc` on the table. -/
theorem balloc_reads {t : Blocks} (hs : sb.size ≤ 2 ^ 31)
    (hmap : ∀ m < sb.size, sb.bblock m < sb.size → sb.used disk (sb.bblock m) = true)
    (h : sb.Reads disk t) :
    (∃ m, t.balloc = .error m ∧ sb.balloc disk = some (.error m)) ∨
    ∃ x t' disk', t.balloc = .ok (x, t') ∧ sb.balloc disk = some (.ok (x, disk')) ∧
      sb.Reads disk' t' := by
  obtain ⟨heq, hall⟩ | ⟨x, heq, hx, hc, hlow⟩ :=
    ballocLoop_cases disk (2 ^ 20) hs (b := 0) rfl (hs.trans (by decide))
  · have hnone : (List.range t.size).find? (fun n => !t.used n) = none := by
      rw [List.find?_range_eq_none, h.size]
      intro n hn
      rw [h.used n hn, hall n (Nat.zero_le n) hn]
      rfl
    exact .inl ⟨_, by rw [Blocks.balloc, hnone], heq⟩
  · have hsome : (List.range t.size).find? (fun n => !t.used n) = some x := by
      rw [List.find?_range_eq_some, h.size, h.used x hx, hc]
      refine ⟨rfl, List.mem_range.mpr hx, fun n hn => ?_⟩
      rw [h.used n (by omega), hlow n (Nat.zero_le n) hn]
      rfl
    have htake : t.balloc = .ok (x, { t with
        used := update t.used x true, data := update t.data x fun _ => 0 }) := by
      rw [Blocks.balloc, hsome]
    refine .inr ⟨x, _, _, htake, heq, h.size, fun n hn => ?_, fun n hn => ?_⟩
    · rw [used_taken hs hmap hx hc n (by omega) (.inl hn), ← h.used n hn]
      by_cases hnx : n = x <;> simp [hnx]
    · by_cases hnx : n = x
      · simp [hnx]
      · simp [hnx, update_of_ne (hn x hx).symm, h.data n hn]

theorem bfree_reads {t : Blocks} (hs : sb.size ≤ 2 ^ 31) (hx : x < sb.size)
    (h : sb.Reads disk t) :
    (∃ m, t.bfree x = .error m ∧ sb.bfree disk x = .error m) ∨
    ∃ t' disk', t.bfree x = .ok t' ∧ sb.bfree disk x = .ok disk' ∧ sb.Reads disk' t' := by
  cases hu : sb.used disk x with
  | false =>
    refine .inl ⟨"freeing free block", by simp [Blocks.bfree, h.used x hx, hu], ?_⟩
    rw [DiskSuperblock.used] at hu
    simp [DiskSuperblock.bfree, hu]
  | true =>
    obtain ⟨disk', hfree, hclear, hsame⟩ := bfree_used (by omega) hu
    have hgive : t.bfree x = .ok { t with used := update t.used x false } := by
      simp [Blocks.bfree, h.used x hx, hu]
    refine .inr ⟨_, disk', hgive, hfree, h.size, fun n hn => ?_, fun n hn => ?_⟩
    · rw [hclear n (by omega), ← h.used n hn]
      by_cases hnx : n = x <;> simp [hnx]
    · rw [hsame n (hn x hx).symm, h.data n hn]

end

/-- `balloc` takes the first clear bit, sets it and zeroes its block, and
`bfree` undoes it; it panics if there is none. `bfree` clears one bit. -/
theorem balloc_exact (sb : DiskSuperblock) (disk : Nat → Block) (hs : sb.size ≤ 2 ^ 31)
    (hmap : ∀ m < sb.size, sb.bblock m < sb.size → sb.used disk (sb.bblock m) = true) :
    ((sb.balloc disk = some (.error "balloc: out of blocks") ∧
        ∀ n < sb.size, sb.used disk n = true) ∨
      ∃ x disk', sb.balloc disk = some (.ok (x, disk')) ∧ x < sb.size ∧ sb.used disk x = false ∧
        (∀ n < x, sb.used disk n = true) ∧
        (∀ n < 2 ^ 32, n < sb.size ∨ sb.bblock n ≠ x →
          sb.used disk' n = if n = x then true else sb.used disk n) ∧
        disk' x = (fun _ => 0) ∧ (∀ p, p ≠ x → p ≠ sb.bblock x → disk' p = disk p) ∧
        ∃ disk'', sb.bfree disk' x = .ok disk'' ∧
          ∀ n < 2 ^ 32, n < sb.size ∨ sb.bblock n ≠ x → sb.used disk'' n = sb.used disk n) ∧
    (∀ x < sb.size, sb.used disk x = true → ∃ disk', sb.bfree disk x = .ok disk' ∧
      (∀ n < 2 ^ 32, sb.used disk' n = if n = x then false else sb.used disk n) ∧
      ∀ p ≠ sb.bblock x, disk' p = disk p) ∧
    Set.InjOn sb.position {n | n < 2 ^ 32} := by
  refine ⟨?_, fun x hx => bfree_used (by omega), position_injOn⟩
  obtain ⟨heq, h⟩ | ⟨x, heq, hx, hc, h⟩ :=
    ballocLoop_cases disk (2 ^ 20) hs (b := 0) rfl (hs.trans (by decide))
  · exact .inl ⟨heq, fun n hn => h n (Nat.zero_le n) hn⟩
  have hset := used_taken hs hmap hx hc
  obtain ⟨disk'', hfree, hclear, -⟩ := bfree_used (by omega)
    ((hset x (by omega) (.inl hx)).trans (if_pos rfl))
  refine .inr ⟨x, _, heq, hx, hc, fun n hn => h n (Nat.zero_le n) hn, hset,
    update_self .., fun p hp hb => ?_, disk'', hfree, fun n hn hx' => ?_⟩
  · rw [update_of_ne hp, update_of_ne hb]
  · rw [hclear n hn, hset n hn hx']
    by_cases hnx : n = x <;> simp [hnx, hc]

/-- Two blocks, the map and a free one. -/
theorem balloc_exact_two : ∃ disk',
    DiskSuperblock.balloc ⟨2, 0, 0, 0, 0, 0, 0⟩ (fun _ _ => 1) = some (.ok (1, disk')) ∧
    DiskSuperblock.used ⟨2, 0, 0, 0, 0, 0, 0⟩ disk' 1 = true ∧ disk' 1 = fun _ => 0 := by
  obtain ⟨⟨-, h⟩ | ⟨x, disk', heq, hx, hc, -, hset, hzero, -⟩, -⟩ :=
    balloc_exact ⟨2, 0, 0, 0, 0, 0, 0⟩ (fun _ _ => 1) (by decide) (by decide)
  · exact absurd (h 1 (by decide)) (by decide)
  · obtain rfl : x = 1 := by
      by_contra hne
      obtain rfl : x = 0 := by
        simp only at hx
        omega
      exact absurd hc (by decide)
    exact ⟨disk', heq, hset 1 (by decide) (.inl (by decide)), hzero⟩

/-- One block, the map, and its bit is clear: `balloc` returns it, zeroed. -/
theorem balloc_loses_bit : ∃ disk', DiskSuperblock.balloc ⟨1, 0, 0, 0, 0, 0, 0⟩ (fun _ _ => 0) =
    some (.ok (0, disk')) ∧ DiskSuperblock.used ⟨1, 0, 0, 0, 0, 0, 0⟩ disk' 0 = false :=
  ⟨_, rfl, by decide⟩

/-- A map block that is full is passed. -/
theorem ballocLoop_full {sb : DiskSuperblock} {disk : Nat → Block} {b : Nat} (rounds : Nat)
    (hb : b < sb.size) (h : ∀ bi < bpb, bitSet (disk (sb.bblock (toI32 b))) bi = true) :
    sb.ballocLoop disk (rounds + 1) b = sb.ballocLoop disk rounds (toU32 (b + bpb)) := by
  have hnone : (List.range (min bpb (sb.size - b))).find?
      (fun bi => !bitSet (disk (sb.bblock (toI32 b))) bi) = none :=
    List.find?_range_eq_none.mpr fun bi hbi => by simp [h bi (by omega)]
  rw [DiskSuperblock.ballocLoop, if_pos hb]
  simp only [hnone]

/-- 2^31 + 1 blocks with the map from block 0 on. -/
def large : DiskSuperblock := ⟨2 ^ 31 + 1, 0, 0, 0, 0, 0, 0⟩

/-- Only the block that `BBLOCK` of the least `int` names is not full. -/
def allUsed : Nat → Block := fun p _ => if p = 2 ^ 32 - 2 ^ 19 then 0 else 255

theorem bitSet_allUsed {p : Nat} (h : p < 2 ^ 31) (i : Nat) : bitSet (allUsed p) i = true := by
  rw [bitSet_eq, allUsed, if_neg (by omega)]
  have := Nat.mod_lt i (show 0 < 8 by decide)
  interval_cases i % 8 <;> decide

/-- By induction on the rounds up to block 2^31. -/
theorem ballocLoop_large (rounds m : Nat) (hm : m ≤ 2 ^ 19) :
    large.ballocLoop allUsed (m + rounds) (2 ^ 31 - 4096 * m) =
      large.ballocLoop allUsed rounds (2 ^ 31) := by
  induction m with
  | zero => rw [Nat.zero_add, Nat.mul_zero, Nat.sub_zero]
  | succ m ih =>
    have hnext : toU32 ((2 ^ 31 - 4096 * (m + 1) : Nat) + bpb) = 2 ^ 31 - 4096 * m := by
      simp only [toU32, bpb, bsize]
      omega
    rw [Nat.succ_add, ballocLoop_full, hnext, ih (by omega)]
    · exact Nat.lt_succ_of_le (Nat.sub_le ..)
    · intro bi _
      apply bitSet_allUsed
      rw [toI32_of_range (by omega) (by omega), bblock_natCast]
      simp only [large, bpb, bsize]
      omega

/-- Every bit is set, and `balloc` returns block 2^31. -/
theorem balloc_beyond_int : (∀ n < large.size, large.used allUsed n = true) ∧
    ∃ disk', large.balloc allUsed = some (.ok (2 ^ 31, disk')) := by
  constructor
  · intro n hn
    apply bitSet_allUsed
    rw [bblock_natCast]
    simp only [large, bpb, bsize] at hn ⊢
    omega
  · have hrun := ballocLoop_large (2 ^ 19 + 1) (2 ^ 19) le_rfl
    exact ⟨_, hrun.trans (by rw [DiskSuperblock.ballocLoop]; rfl)⟩

end Xv6.Fs
