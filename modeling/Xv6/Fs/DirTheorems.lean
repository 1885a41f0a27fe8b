/-
Xv6.Fs.DirTheorems — a directory is a finite map from names of 14 bytes to
inode numbers.

The contents of a directory are entries of 16 bytes. An entry is live if
its inode number is not 0. `binding bs name` is the inode number of the
first live entry of the byte array `bs` whose name agrees with `name` in
the first `DIRSIZ` bytes, padded with zeros.

1. `namecmp` compares padded names.
2. The entries of a byte array, and what writing one of them does.
3. The two scans, of `dirlookup` and of `dirlink`.
4. The calls.
5. Runs of calls, from an empty directory on.

`dirlink` of a name that is there takes a reference to the inode the name
is bound to and gives it back with `iput`, which waits for the lock of that
inode. If it is the directory itself (the entry `.`), the caller of
`dirlink` holds that lock.
-/
import Xv6.Fs.ByteFile
import Xv6.Fs.Dir

namespace Xv6.Fs

open Xv6.Lib

variable {s s' s₁ : FileSys} {ip dp : InodeIx} {fuel off x n inum j k lo d : Nat}
  {p q bs name e : List UInt8} {name' src : List UInt8}

/-! ## 1. Names -/

theorem strncmpEq_iff : strncmpEq n p q = true ↔ strncpy n p = strncpy n q := by
  induction n generalizing p q with
  | zero => simp [strncmpEq, strncpy]
  | succ n ih =>
    have ih' := ih (p := p.tail) (q := q.tail)
    rw [strncmpEq, strncpy, strncpy]
    generalize p.headD 0 = x, q.headD 0 = y
    by_cases hxy : x = y
    · subst hxy
      by_cases hx : x = 0
      · simp [hx]
      · simp [hx, ih']
    · by_cases hx : x = 0
      · simp [hx, List.replicate_succ, show ¬ y = 0 from fun hy => hxy (hx.trans hy.symm),
          show ¬ (0 : UInt8) = y from fun hy => hxy (hx.trans hy)]
      · by_cases hy : y = 0
        · simp [hy, List.replicate_succ, hx]
        · simp [hx, hy, hxy]

theorem length_strncpy (n : Nat) (p : List UInt8) : (strncpy n p).length = n := by
  induction n generalizing p with
  | zero => rfl
  | succ n ih =>
    rw [strncpy]
    split
    · simp
    · simp [ih]

theorem strncpy_strncpy (n : Nat) (p : List UInt8) : strncpy n (strncpy n p) = strncpy n p := by
  induction n generalizing p with
  | zero => rfl
  | succ n ih =>
    have hstore : strncpy (n + 1) p =
        if p.headD 0 = 0 then List.replicate (n + 1) 0 else p.headD 0 :: strncpy n p.tail := rfl
    rw [hstore]
    generalize p.headD 0 = x
    by_cases hx : x = 0
    · simp [hx, strncpy, List.replicate_succ]
    · simp [hx, strncpy, ih]

theorem strncpy_cons {x : UInt8} (hx : x ≠ 0) : strncpy (n + 1) (x :: p) = x :: strncpy n p := by
  simp [strncpy, hx]

theorem strncpy_inj (hp : 0 ∉ p) (hq : 0 ∉ q) (h : strncpy n p = strncpy n q) :
    p.take n = q.take n := by
  induction n generalizing p q with
  | zero => rfl
  | succ n ih =>
    cases p with
    | nil =>
      cases q with
      | nil => rfl
      | cons y q =>
        have hy : y ≠ 0 := fun h0 => hq (by simp [h0])
        simp [strncpy, List.replicate_succ, hy, Ne.symm hy] at h
    | cons x p =>
      have hx : x ≠ 0 := fun h0 => hp (by simp [h0])
      cases q with
      | nil => simp [strncpy, List.replicate_succ, hx] at h
      | cons y q =>
        have hy : y ≠ 0 := fun h0 => hq (by simp [h0])
        rw [strncpy_cons hx, strncpy_cons hy, List.cons.injEq] at h
        rw [List.take_succ_cons, List.take_succ_cons, h.1,
          ih (fun h0 => hp (List.mem_cons_of_mem _ h0))
            (fun h0 => hq (List.mem_cons_of_mem _ h0)) h.2]

theorem namecmpEq_iff : namecmpEq p q = true ↔ strncpy dirsiz p = strncpy dirsiz q :=
  strncmpEq_iff

theorem namecmpEq_stored (p q : List UInt8) :
    namecmpEq p (strncpy dirsiz q) = namecmpEq p q := by
  rw [Bool.eq_iff_iff, namecmpEq_iff, namecmpEq_iff, strncpy_strncpy]

/-! ## 2. Entries -/

/-- Entry `k` of a directory. -/
def direntAt (bs : List UInt8) (k : Nat) : List UInt8 := (bs.drop (direntSize * k)).take direntSize

/-- Its inode number, 0 if it is free. -/
def inumAt (bs : List UInt8) (k : Nat) : Nat := direntInum (direntAt bs k)

def nameAt (bs : List UInt8) (k : Nat) : List UInt8 := direntName (direntAt bs k)

def entries (bs : List UInt8) : Nat := bs.length / direntSize

/-- Entry `k` is live and has the name. -/
def Names (bs : List UInt8) (name : List UInt8) (k : Nat) : Prop :=
  inumAt bs k ≠ 0 ∧ namecmpEq name (nameAt bs k) = true
  deriving Decidable

/-- The first entry with the name. -/
def entryOf (bs name : List UInt8) : Option Nat :=
  (List.range (entries bs)).find? fun k => Names bs name k

/-- The inode number a name is bound to. -/
def binding (bs name : List UInt8) : Option Nat := (entryOf bs name).map (inumAt bs)

/-- The first free entry, or the one behind the last. -/
def freeEntry (bs : List UInt8) : Nat :=
  ((List.range (entries bs)).find? fun k => inumAt bs k = 0).getD (entries bs)

/-- Whole entries, and no two live ones with the same name. -/
structure DirInv (bs : List UInt8) : Prop where
  whole : bs.length = direntSize * entries bs
  uniq : ∀ j k, j < entries bs → k < entries bs → inumAt bs j ≠ 0 → inumAt bs k ≠ 0 →
    namecmpEq (nameAt bs j) (nameAt bs k) = true → j = k

theorem length_dirent (inum : Nat) (name : List UInt8) :
    (dirent inum name).length = direntSize := by
  simp [dirent, length_strncpy]

theorem direntInum_dirent (h : inum < 2 ^ 16) (name : List UInt8) :
    direntInum (dirent inum name) = inum := by
  simp only [direntInum, dirent, List.cons_append, List.nil_append, List.getD_cons_zero,
    List.getD_cons_succ, UInt8.toNat_ofNat']
  omega

theorem direntName_dirent (inum : Nat) (name : List UInt8) :
    direntName (dirent inum name) = strncpy dirsiz name := rfl

theorem direntAt_splice (hn : bs.length = direntSize * n) (hk : k ≤ n)
    (he : e.length = direntSize) :
    direntAt (splice bs (direntSize * k) e) j = if j = k then e else direntAt bs j := by
  have hle : direntSize * k ≤ bs.length := by
    rw [hn]
    exact Nat.mul_le_mul_left _ hk
  apply List.ext_getElem?
  intro i
  have hin : i < direntSize → (direntSize * k ≤ direntSize * j + i ∧
      direntSize * j + i < direntSize * k + e.length ↔ j = k) := by
    rw [he]
    simp only [direntSize]
    omega
  rw [direntAt, List.getElem?_take, List.getElem?_drop, getElem?_splice hle]
  by_cases hi : i < direntSize
  · rw [if_pos hi]
    by_cases hjk : j = k
    · rw [if_pos ((hin hi).mpr hjk), if_pos hjk, hjk]
      congr 1
      omega
    · rw [if_neg (fun h => hjk ((hin hi).mp h)), if_neg hjk, direntAt, List.getElem?_take,
        if_pos hi, List.getElem?_drop]
  · rw [if_neg hi]
    symm
    apply List.getElem?_eq_none
    split
    · omega
    · rw [direntAt, List.length_take]
      omega

theorem entries_of_length (hn : bs.length = direntSize * n) : entries bs = n := by
  rw [entries, hn, Nat.mul_div_cancel_left _ (by decide)]

theorem length_splice_dirent (hn : bs.length = direntSize * n) (hk : k ≤ n)
    (he : e.length = direntSize) :
    (splice bs (direntSize * k) e).length = direntSize * max n (k + 1) := by
  rw [length_splice (by rw [hn]; exact Nat.mul_le_mul_left _ hk), hn, he]
  simp only [direntSize]
  omega

/-! ### Bindings -/

theorem entryOf_some (h : entryOf bs name = some k) : k < entries bs ∧ Names bs name k :=
  ⟨List.mem_range.mp (List.mem_of_find?_eq_some h), by simpa using List.find?_some h⟩

theorem entryOf_none (h : entryOf bs name = none) (hk : k < entries bs) : ¬ Names bs name k := by
  simpa using List.find?_eq_none.mp h k (List.mem_range.mpr hk)

theorem DirInv.eq_of_names (h : DirInv bs) (hj : j < entries bs) (hk : k < entries bs)
    (hnj : Names bs name j) (hnk : Names bs name k) : j = k := by
  apply h.uniq j k hj hk hnj.1 hnk.1
  rw [namecmpEq_iff, ← namecmpEq_iff.mp hnj.2, ← namecmpEq_iff.mp hnk.2]

theorem DirInv.entryOf_eq (h : DirInv bs) (hk : k < entries bs) (hn : Names bs name k) :
    entryOf bs name = some k := by
  cases hf : entryOf bs name with
  | none => exact absurd hn (entryOf_none hf hk)
  | some j =>
    obtain ⟨hj, hnj⟩ := entryOf_some hf
    rw [h.eq_of_names hj hk hnj hn]

theorem DirInv.binding_eq_some (h : DirInv bs) : binding bs name = some x ↔
    ∃ k, k < entries bs ∧ Names bs name k ∧ inumAt bs k = x := by
  constructor
  · intro hb
    obtain ⟨k, hk, rfl⟩ := Option.map_eq_some_iff.mp hb
    obtain ⟨hlt, hn⟩ := entryOf_some hk
    exact ⟨k, hlt, hn, rfl⟩
  · rintro ⟨k, hlt, hn, rfl⟩
    rw [binding, h.entryOf_eq hlt hn]
    rfl

theorem binding_eq_none : binding bs name = none ↔ entryOf bs name = none := by
  simp [binding]

theorem freeEntry_spec (bs : List UInt8) :
    freeEntry bs ≤ entries bs ∧ (freeEntry bs < entries bs → inumAt bs (freeEntry bs) = 0) := by
  unfold freeEntry
  cases hf : (List.range (entries bs)).find? fun k => decide (inumAt bs k = 0) with
  | none => simp
  | some k =>
    have hk := List.mem_range.mp (List.mem_of_find?_eq_some hf)
    have h0 : inumAt bs k = 0 := by simpa using List.find?_some hf
    simp only [Option.getD_some]
    exact ⟨Nat.le_of_lt hk, fun _ => h0⟩

theorem Names.congr (h : Names bs name k) (hn : namecmpEq name' name = true) : Names bs name' k :=
  ⟨h.1, namecmpEq_iff.mpr ((namecmpEq_iff.mp hn).trans (namecmpEq_iff.mp h.2))⟩

theorem namecmpEq_symm (h : namecmpEq name name' = true) :
    namecmpEq name' name = true := namecmpEq_iff.mpr (namecmpEq_iff.mp h).symm

/-- One entry is written, with a name that no other live entry has. A name is
then bound by that entry or by another one, as before. -/
theorem DirInv.put (h : DirInv bs) (hk : k ≤ entries bs) (he : e.length = direntSize)
    (hnew : direntInum e ≠ 0 → ∀ j < entries bs, j ≠ k → ¬ Names bs (direntName e) j) :
    DirInv (splice bs (direntSize * k) e) ∧
    ∀ name x, binding (splice bs (direntSize * k) e) name = some x ↔
      (direntInum e ≠ 0 ∧ namecmpEq name (direntName e) = true ∧ direntInum e = x) ∨
      ∃ j < entries bs, j ≠ k ∧ Names bs name j ∧ inumAt bs j = x := by
  have hlen := length_splice_dirent h.whole hk he
  have hat (j : Nat) : direntAt (splice bs (direntSize * k) e) j =
      if j = k then e else direntAt bs j := direntAt_splice h.whole hk he
  generalize splice bs (direntSize * k) e = bs' at hlen hat
  have hcount := entries_of_length hlen
  have hself : inumAt bs' k = direntInum e ∧ nameAt bs' k = direntName e := by
    rw [inumAt, nameAt, hat, if_pos rfl]
    exact ⟨rfl, rfl⟩
  have hother {j : Nat} (hj : j ≠ k) : inumAt bs' j = inumAt bs j ∧ nameAt bs' j = nameAt bs j := by
    rw [inumAt, nameAt, hat, if_neg hj]
    exact ⟨rfl, rfl⟩
  have hnames {name : List UInt8} {j : Nat} (hj : j < entries bs') (hn : Names bs' name j) :
      (j = k ∧ direntInum e ≠ 0 ∧ namecmpEq name (direntName e) = true) ∨
      (j < entries bs ∧ j ≠ k ∧ Names bs name j) := by
    unfold Names at hn ⊢
    by_cases hjk : j = k
    · subst hjk
      rw [hself.1, hself.2] at hn
      exact .inl ⟨rfl, hn⟩
    · rw [(hother hjk).1, (hother hjk).2] at hn
      exact .inr ⟨by omega, hjk, hn⟩
  have hinv : DirInv bs' := by
    refine ⟨by rw [hcount]; exact hlen, fun i j hi hj hi0 hj0 hij => ?_⟩
    obtain ⟨hik, h0, hin⟩ | ⟨hi, hik, hin⟩ := hnames hi ⟨hi0, namecmpEq_iff.mpr rfl⟩
    · obtain ⟨hjk, -⟩ | ⟨hj, hjk, hjn⟩ := hnames hj ⟨hj0, hij⟩
      · rw [hik, hjk]
      · exact absurd (hjn.congr (namecmpEq_symm hin)) (hnew h0 j hj hjk)
    · obtain ⟨hjk, h0, hjn⟩ | ⟨hj, -, hjn⟩ := hnames hj ⟨hj0, hij⟩
      · exact absurd (hin.congr (namecmpEq_symm hjn)) (hnew h0 i hi hik)
      · exact h.eq_of_names hi hj hin hjn
  refine ⟨hinv, fun name x => hinv.binding_eq_some.trans ⟨?_, ?_⟩⟩
  · rintro ⟨j, hj, hn, rfl⟩
    obtain ⟨rfl, h0, hn⟩ | ⟨hj, hjk, hn⟩ := hnames hj hn
    · exact .inl ⟨h0, hn, hself.1.symm⟩
    · exact .inr ⟨j, hj, hjk, hn, (hother hjk).1.symm⟩
  · rintro (⟨h0, hn, rfl⟩ | ⟨j, hj, hjk, hn, rfl⟩)
    · refine ⟨k, by omega, ?_, hself.1⟩
      rw [Names, hself.1, hself.2]
      exact ⟨h0, hn⟩
    · refine ⟨j, by omega, ?_, (hother hjk).1⟩
      rw [Names, (hother hjk).1, (hother hjk).2]
      exact hn

theorem DirInv.link (h : DirInv bs) (hname : entryOf bs name = none) (hi0 : inum ≠ 0)
    (hi : inum < 2 ^ 16) :
    DirInv (splice bs (direntSize * freeEntry bs) (dirent inum name)) ∧
    ∀ name', binding (splice bs (direntSize * freeEntry bs) (dirent inum name)) name' =
      if namecmpEq name' name then some inum else binding bs name' := by
  obtain ⟨hle, hfree⟩ := freeEntry_spec bs
  have hstored (name' : List UInt8) :
      namecmpEq name' (direntName (dirent inum name)) = namecmpEq name' name :=
    namecmpEq_stored name' name
  have hsame : namecmpEq name (direntName (dirent inum name)) = true :=
    (hstored name).trans (namecmpEq_iff.mpr rfl)
  obtain ⟨hinv, hb⟩ := h.put hle (length_dirent inum name) fun _ j hj _ hn =>
    entryOf_none hname hj (hn.congr hsame)
  refine ⟨hinv, fun name' => Option.ext fun x => ?_⟩
  rw [hb, direntInum_dirent hi, hstored]
  by_cases hn : namecmpEq name' name = true
  · rw [if_pos hn]
    refine ⟨?_, fun hx => .inl ⟨hi0, hn, Option.some.inj hx⟩⟩
    rintro (⟨-, -, rfl⟩ | ⟨j, hj, -, hnj, -⟩)
    · rfl
    · exact absurd (hnj.congr (namecmpEq_symm hn)) (entryOf_none hname hj)
  · rw [if_neg hn, h.binding_eq_some]
    constructor
    · rintro (⟨-, h', -⟩ | ⟨j, hj, -, hx⟩)
      · exact absurd h' hn
      · exact ⟨j, hj, hx⟩
    · rintro ⟨j, hj, hnj, hx⟩
      refine .inr ⟨j, hj, ?_, hnj, hx⟩
      rintro rfl
      exact hnj.1 (hfree hj)

theorem DirInv.unlink (h : DirInv bs) (hname : entryOf bs name = some k) :
    DirInv (splice bs (direntSize * k) (List.replicate direntSize 0)) ∧
    ∀ name', binding (splice bs (direntSize * k) (List.replicate direntSize 0)) name' =
      if namecmpEq name' name then none else binding bs name' := by
  obtain ⟨hk, hnk⟩ := entryOf_some hname
  have hzero : direntInum (List.replicate direntSize 0) = 0 := rfl
  obtain ⟨hinv, hb⟩ := h.put (Nat.le_of_lt hk) List.length_replicate fun h0 => absurd hzero h0
  refine ⟨hinv, fun name' => Option.ext fun x => ?_⟩
  rw [hb]
  by_cases hn : namecmpEq name' name = true
  · rw [if_pos hn]
    refine ⟨?_, fun hx => nomatch hx⟩
    rintro (⟨h0, -⟩ | ⟨j, hj, hjk, hnj, -⟩)
    · exact absurd hzero h0
    · exact absurd (h.eq_of_names hj hk hnj (hnk.congr hn)) hjk
  · rw [if_neg hn, h.binding_eq_some]
    constructor
    · rintro (⟨h0, -⟩ | ⟨j, hj, -, hx⟩)
      · exact absurd hzero h0
      · exact ⟨j, hj, hx⟩
    · rintro ⟨j, hj, hnj, hx⟩
      refine .inr ⟨j, hj, ?_, hnj, hx⟩
      rintro rfl
      exact hn (namecmpEq_iff.mpr ((namecmpEq_iff.mp hnj.2).trans (namecmpEq_iff.mp hnk.2).symm))

/-! ## 3. The scans -/

/-- The entry `dp` shows directory `d`, on a disk that is intact. -/
structure DirOpen (lo d : Nat) (s : FileSys) (dp : InodeIx) : Prop where
  intact : Intact lo s
  shows : Shows s dp
  inum : (s.icache dp).inum = d
  ref : 0 < (s.icache dp).ref
  type : (s.dinode d).type = .dir

theorem DirOpen.din (h : DirOpen lo d s dp) : (s.icache dp).din = s.dinode d := by
  rw [h.shows, h.inum]

theorem DirOpen.size_le (h : DirOpen lo d s dp) : (s.dinode d).size ≤ maxfile * bsize :=
  nblocks_le_iff.mp (h.intact.short d (by simp [h.type]))

theorem readDirent_eq (h : DirOpen lo d s dp) (hn : (s.contents d).length = direntSize * n)
    (hk : k < n) (msg : String) :
    readDirent dp (direntSize * k) msg s = .ok (direntAt (s.contents d) k, s) := by
  have hsize : (s.dinode d).size = direntSize * n := by rw [← hn, length_contents]
  have hbound := h.size_le
  simp only [maxfile, ndirect, nindirect, bsize] at hbound
  have hread : readi dp (direntSize * k) direntSize s =
      .ok (some (direntAt (s.contents d) k), s) := by
    rw [readi_contents h.intact h.shows h.inum (by simp [h.type]) (by simp [h.type])
      (by simp only [direntSize] at *; omega) (by decide), if_neg]
    · rfl
    · simp only [direntSize] at *
      omega
  have hlen : (direntAt (s.contents d) k).length = direntSize := by
    rw [direntAt, List.length_take, List.length_drop, hn]
    simp only [direntSize]
    omega
  simp only [readDirent, bind_run]
  refine ⟨_, _, hread, ?_⟩
  simp only [hlen, if_true]
  rfl

theorem find?_range'_succ {p : Nat → Bool} (hk : k < n) :
    (List.range' k (n - k)).find? p =
      if p k then some k else (List.range' (k + 1) (n - (k + 1))).find? p := by
  obtain ⟨m, hm⟩ : ∃ m, n - k = m + 1 := ⟨n - k - 1, by omega⟩
  rw [hm, List.range'_succ, List.find?_cons, show n - (k + 1) = m by omega]
  cases p k <;> rfl

theorem dirlookupLoop_eq (name : List UInt8) (h : DirOpen lo d s dp)
    (hn : (s.contents d).length = direntSize * n) (hk : k ≤ n) (hfuel : n - k < fuel) :
    dirlookupLoop dp name (direntSize * n) fuel (direntSize * k) s =
      .ok (((List.range' k (n - k)).find? fun j => Names (s.contents d) name j).map
        fun j => (inumAt (s.contents d) j, direntSize * j), s) := by
  induction fuel generalizing k with
  | zero => omega
  | succ fuel ih =>
    rw [dirlookupLoop]
    by_cases hend : direntSize * n ≤ direntSize * k
    · obtain rfl : k = n := by
        simp only [direntSize] at hend
        omega
      rw [if_pos hend, Nat.sub_self]
      rfl
    · have hlt : k < n := by
        simp only [direntSize] at hend
        omega
      have hrec := ih (k := k + 1) (by omega) (by omega)
      rw [if_neg hend, bind_run, find?_range'_succ hlt]
      refine ⟨_, _, readDirent_eq h hn hlt _, ?_⟩
      rw [← inumAt, ← nameAt]
      by_cases h0 : inumAt (s.contents d) k = 0
      · have hnot : ¬ Names (s.contents d) name k := fun hnm => hnm.1 h0
        rw [if_pos h0, decide_eq_false hnot]
        exact hrec
      · by_cases hname : namecmpEq name (nameAt (s.contents d) k) = true
        · have hnm : Names (s.contents d) name k := ⟨h0, hname⟩
          rw [if_neg h0, if_pos hname, decide_eq_true hnm]
          rfl
        · have hnot : ¬ Names (s.contents d) name k := fun hnm => hname hnm.2
          rw [if_neg h0, if_neg hname, decide_eq_false hnot]
          exact hrec

theorem dirlookupLoop_found {size : Nat} {bs : List UInt8} (hname : Names bs name n)
    (hfirst : ∀ j < n, ¬ Names bs name j) (hsize : direntSize * n < size)
    (hread : ∀ j ≤ n, readDirent dp (direntSize * j) "dirlookup read" s = .ok (direntAt bs j, s))
    (hk : k ≤ n) (hfuel : n - k < fuel) : dirlookupLoop dp name size fuel (direntSize * k) s =
      .ok (some (inumAt bs n, direntSize * n), s) := by
  induction fuel generalizing k with
  | zero => omega
  | succ fuel ih =>
    have hlt : ¬ size ≤ direntSize * k := by
      simp only [direntSize] at hsize ⊢
      omega
    rw [dirlookupLoop, if_neg hlt, bind_of_ok (hread k hk), ← inumAt, ← nameAt]
    by_cases hkn : k = n
    · subst hkn
      rw [if_neg hname.1, if_pos hname.2]
      rfl
    · have hnot := hfirst k (by omega)
      have hrec := ih (k := k + 1) (by omega) (by omega)
      by_cases h0 : inumAt bs k = 0
      · rw [if_pos h0]
        exact hrec
      · rw [if_neg h0, if_neg fun hnm => hnot ⟨h0, hnm⟩]
        exact hrec

theorem dirlinkLoop_eq (h : DirOpen lo d s dp) (hn : (s.contents d).length = direntSize * n)
    (hk : k ≤ n) (hfuel : n - k < fuel) : dirlinkLoop dp (direntSize * n) fuel (direntSize * k) s =
      .ok (direntSize * ((List.range' k (n - k)).find? fun j =>
        inumAt (s.contents d) j = 0).getD n, s) := by
  induction fuel generalizing k with
  | zero => omega
  | succ fuel ih =>
    rw [dirlinkLoop]
    by_cases hend : direntSize * n ≤ direntSize * k
    · obtain rfl : k = n := by
        simp only [direntSize] at hend
        omega
      rw [if_pos hend, Nat.sub_self]
      rfl
    · have hlt : k < n := by
        simp only [direntSize] at hend
        omega
      have hrec := ih (k := k + 1) (by omega) (by omega)
      rw [if_neg hend, bind_run, find?_range'_succ hlt]
      refine ⟨_, _, readDirent_eq h hn hlt _, ?_⟩
      rw [← inumAt]
      by_cases h0 : inumAt (s.contents d) k = 0
      · rw [if_pos h0, decide_eq_true h0]
        rfl
      · rw [if_neg h0, decide_eq_false h0]
        exact hrec

theorem DirInv.size (h : DirInv (s.contents d)) :
    (s.dinode d).size = direntSize * entries (s.contents d) := by
  rw [← h.whole, length_contents]

/-! ## 4. The calls -/

/-- **`dirlookup`** finds the entry of a name, and takes a reference to its
inode. -/
theorem dirlookup_eq (name : List UInt8) (h : DirOpen lo d s dp) (hd : DirInv (s.contents d)) :
    dirlookup dp name s =
      match entryOf (s.contents d) name with
      | none => .ok (none, s)
      | some k => (iget (inumAt (s.contents d) k) >>= fun ip =>
        pure (some (ip, direntSize * k)) : FsM _) s := by
  have hfuel : (s.dinode d).size / direntSize = entries (s.contents d) := by
    rw [hd.size, Nat.mul_div_cancel_left _ (by decide)]
  have hloop : dirlookupLoop dp name (s.dinode d).size ((s.dinode d).size / direntSize + 1) 0 s =
      .ok ((entryOf (s.contents d) name).map
        fun k => (inumAt (s.contents d) k, direntSize * k), s) := by
    have hscan := dirlookupLoop_eq name h hd.whole (Nat.zero_le _) (Nat.lt_succ_self _)
    rw [Nat.mul_zero, Nat.sub_zero, ← List.range_eq_range'] at hscan
    rw [hfuel, hd.size]
    exact hscan
  simp only [dirlookup, dirSize, bind, StateT.bind, get, getThe, MonadStateOf.get, StateT.get, pure,
    stateT_pure, Except.pure, Except.bind, h.din, h.type, ne_eq, not_true_eq_false, if_false, hloop]
  cases entryOf (s.contents d) name with
  | none => rfl
  | some k => rfl

theorem dirlookup_first {bs : List UInt8} (htype : (s.icache dp).din.type = .dir)
    (hname : Names bs name n) (hfirst : ∀ j < n, ¬ Names bs name j)
    (hsize : direntSize * n < (s.icache dp).din.size)
    (hread : ∀ j ≤ n, readDirent dp (direntSize * j) "dirlookup read" s = .ok (direntAt bs j, s)) :
    dirlookup dp name s = (iget (inumAt bs n) >>= fun ip =>
      pure (some (ip, direntSize * n)) : FsM _) s := by
  have hloop := dirlookupLoop_found hname hfirst hsize hread (Nat.zero_le _)
    (show n - 0 < (s.icache dp).din.size / direntSize + 1 by
      simp only [direntSize] at hsize ⊢
      omega)
  rw [Nat.mul_zero] at hloop
  simp only [dirlookup, dirSize, bind, StateT.bind, get, getThe, MonadStateOf.get, StateT.get, pure,
    stateT_pure, Except.pure, Except.bind, htype, ne_eq, not_true_eq_false, if_false, hloop]

section
variable (h : DirOpen lo d s dp) (hd : DirInv (s.contents d))
include h hd

theorem dirlookup_none (hname : entryOf (s.contents d) name = none) :
    dirlookup dp name s = .ok (none, s) := by
  rw [dirlookup_eq name h hd, hname]

theorem dirlookup_some (hname : entryOf (s.contents d) name = some k)
    (hget : iget (inumAt (s.contents d) k) s = .ok (ip, s₁)) :
    dirlookup dp name s = .ok (some (ip, direntSize * k), s₁) := by
  rw [dirlookup_eq name h hd, hname]
  exact bind_of_ok hget _

theorem dirlink_absent {inum : Nat} (hname : entryOf (s.contents d) name = none) :
    dirlink dp name inum s =
      (writei dp (dirent inum name) (direntSize * freeEntry (s.contents d)) >>= fun r =>
        if r = some direntSize then pure true else throw "dirlink" : FsM _) s := by
  have hfuel : (s.dinode d).size / direntSize = entries (s.contents d) := by
    rw [hd.size, Nat.mul_div_cancel_left _ (by decide)]
  have hloop : dirlinkLoop dp (s.dinode d).size ((s.dinode d).size / direntSize + 1) 0 s =
      .ok (direntSize * freeEntry (s.contents d), s) := by
    have hscan := dirlinkLoop_eq h hd.whole (Nat.zero_le _) (Nat.lt_succ_self _)
    rw [Nat.mul_zero, Nat.sub_zero, ← List.range_eq_range'] at hscan
    rw [hfuel, hd.size]
    exact hscan
  simp only [dirlink, dirSize, bind, StateT.bind, get, getThe, MonadStateOf.get, StateT.get, pure,
    stateT_pure, Except.pure, Except.bind, dirlookup_none h hd hname, h.din, hloop]

end

/-- The entry `iget` takes for an inode. -/
def FileSys.entryFor (s : FileSys) (inum : Nat) : Option InodeIx := s.cached inum <|> s.empty

/-- It can be given back at once: there is one, and it is not locked. -/
def FileSys.Reusable (s : FileSys) (inum : Nat) : Prop :=
  ∃ ip, s.entryFor inum = some ip ∧ (s.icache ip).locked = false

/-- The caller's lock on `dp` is the only one, and no other entry is the
same inode. -/
def FileSys.OnlyLocked (s : FileSys) (dp : InodeIx) : Prop :=
  ∀ q, ((s.icache q).locked = true ↔ q = dp) ∧
    (0 < (s.icache q).ref → (s.icache q).inum = (s.icache dp).inum → q = dp)

theorem reusable_iff (h : DirOpen lo d s dp) (ho : s.OnlyLocked dp) :
    s.Reusable x ↔ x ≠ d ∧ s.entryFor x ≠ none := by
  constructor
  · rintro ⟨ip, hx, hl⟩
    refine ⟨?_, by simp [hx]⟩
    rintro rfl
    -- The entry of the directory is `dp`, which is locked.
    cases hc : s.cached x with
    | none => exact cached_none hc dp h.ref h.inum
    | some q =>
      obtain ⟨hpos, hq⟩ := cached_some hc
      rw [FileSys.entryFor, hc] at hx
      cases hx
      rw [((ho ip).1).mpr ((ho ip).2 hpos (hq.trans h.inum.symm))] at hl
      cases hl
  · rintro ⟨hne, he⟩
    obtain ⟨ip, hx⟩ := Option.ne_none_iff_exists'.mp he
    refine ⟨ip, hx, ?_⟩
    by_contra hl
    have hip : ip = dp := (ho ip).1.mp (by simpa using hl)
    subst hip
    cases hc : s.cached x with
    | none =>
      rw [FileSys.entryFor, hc] at hx
      have h0 := empty_some (hx : s.empty = some ip)
      have := h.ref
      omega
    | some q =>
      rw [FileSys.entryFor, hc] at hx
      cases hx
      exact hne ((cached_some hc).2.symm.trans h.inum)

theorem dirlink_present {inum : Nat} (h : DirOpen lo d s dp) (hd : DirInv (s.contents d))
    (hname : entryOf (s.contents d) name = some k) :
    dirlink dp name inum s =
      (iget (inumAt (s.contents d) k) >>= fun ip => iput ip >>= fun _ => pure false : FsM _) s := by
  simp only [dirlink, bind, StateT.bind, dirlookup_eq name h hd, hname]
  cases iget (inumAt (s.contents d) k) s with
  | error m => rfl
  | ok r => rfl

theorem iget_entryFor (hx : s.entryFor x = some ip) : ∃ s₁, iget x s = .ok (ip, s₁) ∧
    (s₁.icache ip).locked = (s.icache ip).locked ∧
    (0 < (s.icache ip).ref ∧ s₁ = s.hold ip ∨ (s.icache ip).ref = 0 ∧ s₁ = s.recycle ip x) := by
  have hget := iget_eq x s
  rw [FileSys.entryFor] at hx
  cases hc : s.cached x with
  | some q =>
    rw [hc] at hget hx
    cases hx
    exact ⟨_, hget, by simp [FileSys.hold], .inl ⟨(cached_some hc).1, rfl⟩⟩
  | none =>
    rw [hc] at hget hx
    have he : s.empty = some ip := hx
    rw [he] at hget
    exact ⟨_, hget, by simp [FileSys.recycle], .inr ⟨empty_some he, rfl⟩⟩

/-- A reference taken and given back. The inode is not freed: the entry had
a reference before, or is not valid. -/
theorem iget_iput (hx : s.Reusable x) :
    ∃ ip s₁ s', iget x s = .ok (ip, s₁) ∧ iput ip s₁ = .ok ((), s') ∧ SameDisk s s' ∧
      ∀ q, 0 < (s.icache q).ref → s'.icache q = s.icache q := by
  obtain ⟨ip, hx, hl⟩ := hx
  obtain ⟨s₁, hget, hlock, ⟨hpos, rfl⟩ | ⟨h0, rfl⟩⟩ := iget_entryFor hx
  · have hput : iput ip (s.hold ip) = .ok ((), (s.hold ip).drop ip) := by
      refine iput_returns (hlock.trans hl) ?_
      simp only [FileSys.Last, FileSys.hold, setInode_self]
      omega
    refine ⟨ip, _, _, hget, hput, ⟨rfl, rfl, rfl, rfl⟩, fun q _ => ?_⟩
    by_cases hq : q = ip
    · subst hq
      simp [FileSys.hold, FileSys.drop]
    · rw [FileSys.drop, setInode_of_ne hq, FileSys.hold, setInode_of_ne hq]
  · have hput : iput ip (s.recycle ip x) = .ok ((), (s.recycle ip x).drop ip) :=
      iput_returns (hlock.trans hl) (by simp [FileSys.Last, FileSys.recycle])
    refine ⟨ip, _, _, hget, hput, ⟨rfl, rfl, rfl, rfl⟩, fun q hq => ?_⟩
    have hne : q ≠ ip := by
      rintro rfl
      omega
    rw [FileSys.drop, setInode_of_ne hne, FileSys.recycle, setInode_of_ne hne]

section
variable (h : DirOpen lo d s dp) (hd : DirInv (s.contents d))
  (hname : entryOf (s.contents d) name = some k)
include h hd hname

theorem dirlink_refused {inum : Nat} (hx : s.Reusable (inumAt (s.contents d) k)) :
    ∃ s', dirlink dp name inum s = .ok (false, s') ∧ SameDisk s s' ∧
      ∀ q, 0 < (s.icache q).ref → s'.icache q = s.icache q := by
  obtain ⟨ip, s₁, s', hget, hput, hsame, hcache⟩ := iget_iput hx
  refine ⟨s', ?_, hsame, hcache⟩
  rw [dirlink_present h hd hname, bind_of_ok hget, bind_of_ok hput]
  rfl

theorem dirlink_waits {inum : Nat} (hx : s.entryFor (inumAt (s.contents d) k) = some ip)
    (hl : (s.icache ip).locked = true) : dirlink dp name inum s = .error "deadlock" := by
  obtain ⟨s₁, hget, hlock, -⟩ := iget_entryFor hx
  rw [dirlink_present h hd hname, bind_of_ok hget, bind_of_error (iput_locked (hlock.trans hl))]

theorem dirlink_full {inum : Nat} (hx : s.entryFor (inumAt (s.contents d) k) = none) :
    dirlink dp name inum s = .error "iget: no inodes" := by
  rw [dirlink_present h hd hname]
  have hget := iget_eq (inumAt (s.contents d) k) s
  obtain ⟨hc, he⟩ : s.cached (inumAt (s.contents d) k) = none ∧ s.empty = none := by
    simpa [FileSys.entryFor] using hx
  rw [hc, he] at hget
  exact bind_of_error hget _

theorem dirlink_present_iff {inum : Nat} :
    (∃ r, dirlink dp name inum s = .ok r) ↔ s.Reusable (inumAt (s.contents d) k) := by
  constructor
  · rintro ⟨r, hr⟩
    cases hx : s.entryFor (inumAt (s.contents d) k) with
    | none =>
      rw [dirlink_full h hd hname hx] at hr
      cases hr
    | some ip =>
      refine ⟨ip, hx, ?_⟩
      by_contra hl
      rw [dirlink_waits h hd hname hx (by simpa using hl)] at hr
      cases hr
  · intro hx
    obtain ⟨s', hr, -⟩ := dirlink_refused h hd hname hx
    exact ⟨_, hr⟩

end

section
variable (h : DirOpen lo d s dp)
include h

theorem DirOpen.wrote (hw : Wrote lo s d off src s')
    (hc : s'.icache = Function.update s.icache dp { s.icache dp with din := s'.dinode d }) :
    DirOpen lo d s' dp := by
  constructor
  · exact hw.intact
  · simp [Shows, hc, h.inum]
  · simp [hc, h.inum]
  · simp [hc, h.ref]
  · rw [hw.type, h.type]

/-- The state after a call that writes nothing and keeps the entries in
use. -/
theorem DirOpen.same (hs : SameDisk s s')
    (hc : ∀ q, 0 < (s.icache q).ref → s'.icache q = s.icache q) : DirOpen lo d s' dp := by
  have hdp := hc dp h.ref
  constructor
  · exact hs.intact h.intact
  · rw [Shows, hdp, hs.dinode]
    exact h.shows
  · rw [hdp, h.inum]
  · rw [hdp]
    exact h.ref
  · rw [hs.dinode, h.type]

theorem DirOpen.writei {n : Nat} (hlen : src.length < 2 ^ 32)
    (hw : writei dp src off s = .ok (some n, s')) :
    n = src.length ∧ Wrote lo s d off src s' ∧ DirOpen lo d s' dp := by
  obtain ⟨hn, -, -, hwr, hc⟩ := writei_returned h.intact h.shows h.inum (by simp [h.type])
    (by simp [h.type]) hlen hw
  exact ⟨hn, hwr, h.wrote hwr hc⟩

theorem dirlink_added {inum : Nat} {r : Bool} (hd : DirInv (s.contents d))
    (hname : entryOf (s.contents d) name = none) (hr : dirlink dp name inum s = .ok (r, s')) :
    r = true ∧ Wrote lo s d (direntSize * freeEntry (s.contents d)) (dirent inum name) s' ∧
      DirOpen lo d s' dp := by
  rw [dirlink_absent h hd hname] at hr
  simp only [bind_run, ite_run, pure_run, throw_run, and_false, or_false] at hr
  obtain ⟨_, s₁, hw, rfl, hr⟩ := hr
  cases hr
  obtain ⟨-, hwr, hopen⟩ := h.writei (by rw [length_dirent]; decide) hw
  exact ⟨rfl, hwr, hopen⟩

end

/-- There is room for an entry at the free place, on the disk and in the
file. -/
def DirRoom (s : FileSys) (d : Nat) : Prop :=
  direntSize * (freeEntry (s.contents d) + 1) ≤ maxfile * bsize ∧
    s.blocks.lacking (s.dinode d) (direntSize * (freeEntry (s.contents d) + 1)) ≤ s.blocks.nfree

theorem dirlink_adds {inum : Nat} (h : DirOpen lo d s dp) (hd : DirInv (s.contents d))
    (hname : entryOf (s.contents d) name = none) (hroom : DirRoom s d) :
    ∃ s', dirlink dp name inum s = .ok (true, s') := by
  have hlen : direntSize * freeEntry (s.contents d) + (dirent inum name).length =
      direntSize * (freeEntry (s.contents d) + 1) := by
    rw [length_dirent]
    rfl
  have hoff : direntSize * freeEntry (s.contents d) ≤ (s.dinode d).size := by
    rw [hd.size]
    exact Nat.mul_le_mul_left _ (freeEntry_spec _).1
  obtain ⟨s', hw, -⟩ := writei_wrote h.intact h.shows h.inum (by simp [h.type]) (by simp [h.type])
    hoff (by rw [hlen]; exact hroom.1) (by rw [hlen]; exact hroom.2)
  refine ⟨s', ?_⟩
  rw [dirlink_absent h hd hname]
  simp only [bind_run, ite_run, pure_run]
  exact ⟨_, s', hw, .inl ⟨by rw [length_dirent], rfl⟩⟩

theorem zero_entry (h : DirOpen lo d s dp) (hd : DirInv (s.contents d))
    (hk : k < entries (s.contents d)) :
    ∃ s', writei dp (List.replicate direntSize 0) (direntSize * k) s =
      .ok (some direntSize, s') := by
  have hlen : direntSize * k + (List.replicate direntSize (0 : UInt8)).length =
      direntSize * (k + 1) := by
    rw [List.length_replicate]
    rfl
  have hend : direntSize * (k + 1) ≤ (s.dinode d).size := by
    rw [hd.size]
    exact Nat.mul_le_mul_left _ hk
  have hlack : s.blocks.lacking (s.dinode d) (direntSize * (k + 1)) = 0 :=
    (h.intact.full d (by simp [h.type])).lacking_eq_zero
      (nblocks_le_iff.mpr (Nat.le_trans hend (nblocks_le_iff.mp (Nat.le_refl _))))
  obtain ⟨s', hw, -⟩ := writei_wrote h.intact h.shows h.inum (by simp [h.type]) (by simp [h.type])
    (Nat.le_trans (Nat.mul_le_mul_left _ (Nat.le_succ k)) hend)
    (by rw [hlen]; exact Nat.le_trans hend h.size_le) (by rw [hlen, hlack]; exact Nat.zero_le _)
  rw [List.length_replicate] at hw
  exact ⟨s', hw⟩

/-! ## 5. Runs -/

/-- The states a directory is in, from an empty one on, and the cache entry
that shows it: `dirlink` adds to it, as `create` and `link` call it, and
zeros are written where `dirlookup` found a name, as `unlink` does. What
else happens, between the two steps of `unlink` as well, leaves the bytes
of the directory as they are. -/
inductive DirReach (lo d : Nat) : FileSys → InodeIx → Prop where
  | empty {s : FileSys} {dp : InodeIx} : DirOpen lo d s dp → s.contents d = [] →
      DirReach lo d s dp
  | link {s s' : FileSys} {dp : InodeIx} {name : List UInt8} {inum : Nat} {r : Bool} :
      DirReach lo d s dp → 1 ≤ inum → inum < 2 ^ 16 → dirlink dp name inum s = .ok (r, s') →
      DirReach lo d s' dp
  | unlink {s s₁ s₂ s' : FileSys} {dp ip : InodeIx} {name : List UInt8} {off n : Nat} :
      DirReach lo d s dp → dirlookup dp name s = .ok (some (ip, off), s₁) →
      DirOpen lo d s₂ dp → s₂.contents d = s₁.contents d →
      writei dp (List.replicate direntSize 0) off s₂ = .ok (some n, s') → DirReach lo d s' dp
  | other {s s' : FileSys} {dp dp' : InodeIx} : DirReach lo d s dp → DirOpen lo d s' dp' →
      s'.contents d = s.contents d → DirReach lo d s' dp'

theorem DirInv.nil : DirInv [] where
  whole := rfl
  uniq j _ hj := absurd hj (by simp [entries])

theorem dirlookup_found (h : DirOpen lo d s dp) (hd : DirInv (s.contents d))
    (hl : dirlookup dp name s = .ok (some (ip, off), s₁)) :
    ∃ k, entryOf (s.contents d) name = some k ∧ off = direntSize * k ∧
      iget (inumAt (s.contents d) k) s = .ok (ip, s₁) := by
  rw [dirlookup_eq name h hd] at hl
  cases hname : entryOf (s.contents d) name with
  | none =>
    rw [hname] at hl
    cases hl
  | some k =>
    rw [hname] at hl
    simp only [bind_run, pure_run] at hl
    obtain ⟨q, s₂, hget, hr⟩ := hl
    cases hr
    exact ⟨k, rfl, rfl, hget⟩

/-- `iget` touches no disk block, and no entry in use but the one it
returns. -/
theorem iget_same (hg : iget x s = .ok (ip, s₁)) :
    SameDisk s s₁ ∧ (s₁.icache ip).inum = x ∧ ∀ q, 0 < (s.icache q).ref →
      (s₁.icache q).inum = (s.icache q).inum ∧ (s₁.icache q).din = (s.icache q).din ∧
      0 < (s₁.icache q).ref := by
  rcases iget_ok hg with ⟨hr, hin, rfl⟩ | ⟨h0, -, rfl⟩
  · refine ⟨SameDisk.setInode .., by simpa using hin, fun q hq => ?_⟩
    by_cases hqi : q = ip
    · subst hqi
      simp
    · rw [setInode_of_ne hqi]
      exact ⟨rfl, rfl, hq⟩
  · refine ⟨SameDisk.setInode .., by simp, fun q hq => ?_⟩
    have hqi : q ≠ ip := by
      rintro rfl
      omega
    rw [setInode_of_ne hqi]
    exact ⟨rfl, rfl, hq⟩

theorem DirOpen.iget (h : DirOpen lo d s dp) (hg : iget x s = .ok (ip, s₁)) :
    DirOpen lo d s₁ dp := by
  obtain ⟨hs, -, hc⟩ := iget_same hg
  obtain ⟨h1, h2, h3⟩ := hc dp h.ref
  constructor
  · exact hs.intact h.intact
  · rw [Shows, h1, h2, hs.dinode]
    exact h.shows
  · rw [h1, h.inum]
  · exact h3
  · rw [hs.dinode, h.type]

/-- **The invariant in every run.** -/
theorem DirReach.inv (h : DirReach lo d s dp) : DirOpen lo d s dp ∧ DirInv (s.contents d) := by
  induction h with
  | empty hopen hnil =>
    rw [hnil]
    exact ⟨hopen, DirInv.nil⟩
  | @link s s' dp name inum r _ h1 h2 hl ih =>
    obtain ⟨hopen, hd⟩ := ih
    cases hname : entryOf (s.contents d) name with
    | none =>
      obtain ⟨-, hw, hopen'⟩ := dirlink_added hopen hd hname hl
      rw [hw.contents]
      exact ⟨hopen', (hd.link hname (by omega) h2).1⟩
    | some k =>
      have hx := (dirlink_present_iff hopen hd hname).mp ⟨_, hl⟩
      obtain ⟨s₂, hl₂, hsame, hcache⟩ := dirlink_refused hopen hd hname hx
      rw [hl] at hl₂
      cases hl₂
      rw [hsame.contents]
      exact ⟨hopen.same hsame hcache, hd⟩
  | @unlink s s₁ s₂ s' dp ip name off n _ hl hopen₂ hc hw ih =>
    obtain ⟨hopen, hd⟩ := ih
    obtain ⟨k, hname, rfl, hget⟩ := dirlookup_found hopen hd hl
    obtain ⟨-, hwr, hopen'⟩ := hopen₂.writei (by decide) hw
    rw [(iget_same hget).1.contents] at hc
    rw [hwr.contents, hc]
    exact ⟨hopen', (hd.unlink hname).1⟩
  | other _ hopen' hc ih =>
    rw [hc]
    exact ⟨hopen', ih.2⟩

/-- **A directory is a finite map.** In every state it can be in:

1. it has whole entries, and no two live ones have the same name;
2. a name is bound to the number in its entry;
3. `dirlookup` gets the inode of the entry with the name, and its offset,
   or returns 0 if there is none;
4. `dirlink` of a new name writes the free entry, if there is room, and adds
   that binding only;
5. `dirlink` of a name that is there returns -1 and leaves the disk as it
   is, just if the cache entry of the inode it is bound to can be taken and
   is not locked, which, where the caller's lock on `dp` is the only one, is
   that it is not the directory itself and there is an entry;
6. zeros where `dirlookup` found a name remove that binding only. -/
theorem directory_map (hr : DirReach lo d s dp) (name : List UInt8) :
    ((s.contents d).length % direntSize = 0 ∧
      ∀ j k, j < entries (s.contents d) → k < entries (s.contents d) →
        inumAt (s.contents d) j ≠ 0 → inumAt (s.contents d) k ≠ 0 →
        namecmpEq (nameAt (s.contents d) j) (nameAt (s.contents d) k) = true → j = k) ∧
    (∀ x, binding (s.contents d) name = some x ↔
      ∃ k < entries (s.contents d), Names (s.contents d) name k ∧ inumAt (s.contents d) k = x) ∧
    ((∀ k < entries (s.contents d), Names (s.contents d) name k →
        dirlookup dp name s = (iget (inumAt (s.contents d) k) >>= fun ip =>
          pure (some (ip, direntSize * k)) : FsM _) s) ∧
      (binding (s.contents d) name = none → dirlookup dp name s = .ok (none, s))) ∧
    (∀ inum, 1 ≤ inum → inum < 2 ^ 16 → binding (s.contents d) name = none → DirRoom s d →
      ∃ s', dirlink dp name inum s = .ok (true, s') ∧ DirReach lo d s' dp ∧
        s'.contents d =
          splice (s.contents d) (direntSize * freeEntry (s.contents d)) (dirent inum name) ∧
        ∀ name', binding (s'.contents d) name' =
          if namecmpEq name' name then some inum else binding (s.contents d) name') ∧
    (∀ inum x, binding (s.contents d) name = some x →
      ((∃ s', dirlink dp name inum s = .ok (false, s') ∧ SameDisk s s') ↔ s.Reusable x) ∧
      (s.OnlyLocked dp → (s.Reusable x ↔ x ≠ d ∧ s.entryFor x ≠ none))) ∧
    ∀ ip off s₁, dirlookup dp name s = .ok (some (ip, off), s₁) →
      ∃ s', writei dp (List.replicate direntSize 0) off s₁ = .ok (some direntSize, s') ∧
        DirReach lo d s' dp ∧ ∀ name', binding (s'.contents d) name' =
          if namecmpEq name' name then none else binding (s.contents d) name' := by
  obtain ⟨hopen, hd⟩ := hr.inv
  refine ⟨⟨?_, hd.uniq⟩, fun x => ?_, ⟨fun k hk hn => ?_, fun hname => ?_⟩,
    fun inum h1 h2 hname hroom => ?_, fun inum x hx => ?_, fun ip off s₁ hl => ?_⟩
  · rw [hd.whole, Nat.mul_mod_right]
  · rw [hd.binding_eq_some]
  · rw [dirlookup_eq name hopen hd, hd.entryOf_eq hk hn]
  · exact dirlookup_none hopen hd (binding_eq_none.mp hname)
  · have hname' := binding_eq_none.mp hname
    obtain ⟨s', hl⟩ := dirlink_adds hopen hd hname' hroom
    obtain ⟨-, hw, -⟩ := dirlink_added hopen hd hname' hl
    refine ⟨s', hl, .link hr h1 h2 hl, hw.contents, ?_⟩
    rw [hw.contents]
    exact (hd.link hname' (by omega) h2).2
  · obtain ⟨k, hname, rfl⟩ := Option.map_eq_some_iff.mp hx
    refine ⟨?_, fun ho => reusable_iff hopen ho⟩
    rw [← dirlink_present_iff hopen hd hname]
    constructor
    · rintro ⟨s', hl, -⟩
      exact ⟨_, hl⟩
    · intro hl
      obtain ⟨s', hl, hsame, -⟩ :=
        dirlink_refused hopen hd hname ((dirlink_present_iff hopen hd hname).mp hl)
      exact ⟨s', hl, hsame⟩
  · obtain ⟨k, hname, rfl, hget⟩ := dirlookup_found hopen hd hl
    have hopen₁ := hopen.iget hget
    have hcont : s₁.contents d = s.contents d := by rw [(iget_same hget).1.contents]
    obtain ⟨s', hw⟩ := zero_entry hopen₁ (by rw [hcont]; exact hd)
      (by rw [hcont]; exact (entryOf_some hname).1)
    refine ⟨s', hw, .unlink hr hl hopen₁ rfl hw, ?_⟩
    obtain ⟨-, hwr, -⟩ := hopen₁.writei (by decide) hw
    rw [hwr.contents, hcont]
    exact (hd.unlink hname).2

/-- Inode 2, an empty directory, open and locked, and no other inode. -/
def emptyDir : FileSys :=
  { emptyFile with
    dinode := fun i => if i = 2 then { type := .dir, nlink := 1 } else {}
    icache := fun ip => if ip = 0 then
        { inum := 2, ref := 1, locked := true, valid := true, din := { type := .dir, nlink := 1 } }
      else {} }

theorem emptyDir_reach : DirReach 10 2 emptyDir 0 := by
  refine .empty ⟨?_, rfl, rfl, by decide, rfl⟩ rfl
  exact Intact.of_empty (by decide) (fun x hx => by simp [emptyDir, emptyFile, hx])
    (fun i => by by_cases hi : i = 2 <;> simp [emptyDir, hi])

/-- A link to `a` in the empty directory. -/
theorem directory_map_emptyDir : DirReach 10 2 emptyDir 0 ∧
    ∃ s', dirlink 0 [97] 3 emptyDir = .ok (true, s') ∧ binding (s'.contents 2) [97, 0] = some 3 ∧
      binding (s'.contents 2) [46] = none := by
  obtain ⟨-, -, -, hadd, -⟩ := directory_map emptyDir_reach [97]
  obtain ⟨s', hl, -, -, hb⟩ := hadd 3 (by decide) (by decide) rfl
    ⟨by decide, by decide +kernel⟩
  exact ⟨emptyDir_reach, s', hl, (hb [97, 0]).trans rfl, (hb [46]).trans rfl⟩

/-- A directory that has its entry `.`, and a second link to that name: the
call waits for the lock its caller holds. -/
theorem dirlink_dot_deadlock : ∃ s, DirReach 10 2 s 0 ∧ binding (s.contents 2) [46] = some 2 ∧
    dirlink 0 [46] 3 s = .error "deadlock" := by
  have hrun : (dirlink 0 [46] 2 >>= fun _ => dirlink 0 [46] 3 : FsM Bool) emptyDir =
      .error "deadlock" := by rfl
  obtain ⟨hopen, hd⟩ := emptyDir_reach.inv
  have hadd : ∃ s', dirlink 0 [46] 2 emptyDir = .ok (true, s') :=
    dirlink_adds hopen hd rfl ⟨by decide, by decide +kernel⟩
  obtain ⟨s', hl⟩ := hadd
  obtain ⟨-, hw, -⟩ := dirlink_added hopen hd rfl hl
  refine ⟨s', .link emptyDir_reach (by decide) (by decide) hl, ?_, ?_⟩
  · rw [hw.contents]
    exact ((hd.link rfl (by decide) (by decide)).2 [46]).trans rfl
  · exact (bind_of_ok hl fun _ => dirlink 0 [46] 3).symm.trans hrun

end Xv6.Fs
