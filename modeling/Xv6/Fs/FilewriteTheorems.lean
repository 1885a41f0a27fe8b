/-
Xv6.Fs.FilewriteTheorems — a file written in chunks is written once.

`filewrite` cuts its bytes into transactions of at most `writeMax` bytes.
Each of them locks the inode, reads size and offset anew and writes at the
end of the one before, so together they are one write (`Wrote.append`).
Where the largest file ends inside a chunk, that chunk is refused as a
whole and the loop stops: `fitting` is what has been written by then.
-/
import Xv6.Fs.ByteFile
import Xv6.Fs.Filewrite

namespace Xv6.Fs

open Xv6.Lib

/-- The entry `ip` is in use and not locked, and shows its inode if it is
valid. -/
structure Lockable (s : FileSys) (ip : InodeIx) : Prop where
  ref : 0 < (s.icache ip).ref
  unlocked : (s.icache ip).locked = false
  shows : (s.icache ip).valid = true → Shows s ip

/-- How many of `n` bytes from `off` on `filewrite` writes: all, or the
chunks that end within the largest file. -/
def fitting (off n : Nat) : Nat :=
  if off + n ≤ maxfile * bsize then n else (maxfile * bsize - off) / writeMax * writeMax

section
variable {lo i off : Nat} {s s' : FileSys} {ip : InodeIx} {src : List UInt8}

theorem Lockable.ilock (h : Lockable s ip) (hf : (s.dinode (s.icache ip).inum).type ≠ .free) :
    ilock ip s = .ok ((), s.lock ip) :=
  ilock_returns h.ref h.unlocked h.shows hf

theorem writeChunk_wrote (h : Intact lo s) (hr : Lockable s ip) (hi : (s.icache ip).inum = i)
    (hf : (s.dinode i).type ≠ .free) (hdev : (s.dinode i).type ≠ .dev)
    (hoff : off ≤ (s.dinode i).size) (hfit : off + src.length ≤ maxfile * bsize)
    (hfree : s.blocks.lacking (s.dinode i) (off + src.length) ≤ s.blocks.nfree) :
    ∃ s', writeChunk ip src off s = .ok (some src.length, s') ∧ Wrote lo s i off src s' ∧
      Lockable s' ip ∧ (s'.icache ip).inum = i := by
  have hlock := hr.ilock (by rw [hi]; exact hf)
  have hdisk : SameDisk s (s.lock ip) := SameDisk.setInode ..
  have hself : (s.lock ip).icache ip =
      { s.icache ip with locked := true, valid := true, din := s.dinode i } := by
    simp [FileSys.lock, hi]
  have hshow : Shows (s.lock ip) ip := by
    rw [Shows, hself, hi]
    rfl
  obtain ⟨s₂, hw, hwrote, hentry⟩ := writei_wrote (i := i) (hdisk.intact h) hshow
    (by rw [hself, hi]) hf hdev hoff hfit hfree
  have hself₂ : s₂.icache ip =
      { s.icache ip with locked := true, valid := true, din := s₂.dinode i } := by
    rw [hentry, Function.update_self, hself]
  have hunlock : iunlock ip s₂ = .ok ((), s₂.unlock ip) :=
    iunlock_returns (by rw [hself₂]; exact hr.ref) (by rw [hself₂])
  have hself₃ : (s₂.unlock ip).icache ip =
      { s.icache ip with locked := false, valid := true, din := s₂.dinode i } := by
    rw [FileSys.unlock, setInode_self, hself₂]
  refine ⟨s₂.unlock ip, ?_, hdisk.wrote (SameDisk.setInode s₂ ip _) hwrote, ?_, ?_⟩
  · simp only [writeChunk, bind_run, pure_run]
    exact ⟨_, _, hlock, _, _, hw, _, _, hunlock, rfl⟩
  · refine ⟨?_, ?_, ?_⟩
    · rw [hself₃]
      exact hr.ref
    · rw [hself₃]
    · intro _
      rw [Shows, hself₃, hi]
      rfl
  · rw [hself₃, hi]

theorem writeChunk_refused (hr : Lockable s ip) (hi : (s.icache ip).inum = i)
    (hf : (s.dinode i).type ≠ .free) (hdev : (s.dinode i).type ≠ .dev)
    (hlt : off + src.length < 2 ^ 32) (hfit : maxfile * bsize < off + src.length) :
    ∃ s', writeChunk ip src off s = .ok (none, s') ∧ SameDisk s s' := by
  have hlock := hr.ilock (by rw [hi]; exact hf)
  have hself : (s.lock ip).icache ip =
      { s.icache ip with locked := true, valid := true, din := s.dinode i } := by
    simp [FileSys.lock, hi]
  have hw : writei ip src off (s.lock ip) = .ok (none, s.lock ip) := by
    apply writei_refused (by rw [hself]; exact hdev)
    right
    simp only [toU32]
    omega
  have hunlock : iunlock ip (s.lock ip) = .ok ((), (s.lock ip).unlock ip) :=
    iunlock_returns (by rw [hself]; exact hr.ref) (by rw [hself])
  refine ⟨(s.lock ip).unlock ip, ?_, (SameDisk.setInode s ip _).trans (SameDisk.setInode _ ip _)⟩
  simp only [writeChunk, bind_run, pure_run]
  exact ⟨_, _, hlock, _, _, hw, _, _, hunlock, rfl⟩

/-! ## The loop -/

theorem fitting_le {n : Nat} (hoff : off ≤ maxfile * bsize) :
    off + fitting off n ≤ maxfile * bsize ∧ fitting off n ≤ n := by
  unfold fitting
  split
  · omega
  · have := Nat.div_mul_le_self (maxfile * bsize - off) writeMax
    omega

theorem fitting_chunk {c n : Nat} (hc : c = min writeMax n) (hfit : off + c ≤ maxfile * bsize) :
    fitting off n = c + fitting (off + c) (n - c) := by
  unfold fitting
  by_cases hall : off + n ≤ maxfile * bsize
  · rw [if_pos hall, if_pos (by omega)]
    omega
  · have hmax : c = writeMax := by omega
    have hdiv : (maxfile * bsize - off) / writeMax =
        (maxfile * bsize - (off + c)) / writeMax + 1 := by
      have hsub : maxfile * bsize - off = maxfile * bsize - (off + c) + writeMax := by omega
      rw [hsub, Nat.add_div_right _ (by decide)]
    rw [if_neg hall, if_neg (by omega), hdiv, Nat.add_mul, hmax]
    omega

theorem fitting_stop {c n : Nat} (hc : c = min writeMax n) (hfit : maxfile * bsize < off + c) :
    fitting off n = 0 := by
  have hmax : writeMax = 1536 := rfl
  unfold fitting
  rw [if_neg (by omega), Nat.div_eq_of_lt (by omega), Nat.zero_mul]

/-- **The loop of `filewrite`** writes the bytes that fit. -/
theorem filewriteLoop_wrote {fuel : Nat} (h : Intact lo s) (hr : Lockable s ip)
    (hi : (s.icache ip).inum = i) (hf : (s.dinode i).type ≠ .free)
    (hdev : (s.dinode i).type ≠ .dev) (hoff : off ≤ (s.dinode i).size)
    (hlen : off + src.length < 2 ^ 32) (hfuel : src.length ≤ fuel)
    (hfree : s.blocks.lacking (s.dinode i) (off + fitting off src.length) ≤ s.blocks.nfree) :
    ∃ s', filewriteLoop ip fuel src off s = .ok (off + fitting off src.length, s') ∧
      Wrote lo s i off (src.take (fitting off src.length)) s' := by
  induction fuel generalizing s off src with
  | zero =>
    obtain rfl : src = [] := List.eq_nil_of_length_eq_zero (by omega)
    have hbound := Nat.le_trans hoff (nblocks_le_iff.mp (h.short i hf))
    have h0 : fitting off ([] : List UInt8).length = 0 := by
      simp [fitting, hbound]
    rw [h0]
    exact ⟨s, rfl, Wrote.nil h hoff⟩
  | succ fuel ih =>
    have hbound := Nat.le_trans hoff (nblocks_le_iff.mp (h.short i hf))
    by_cases hnil : src = []
    · subst hnil
      have h0 : fitting off ([] : List UInt8).length = 0 := by
        simp [fitting, hbound]
      rw [h0]
      exact ⟨s, rfl, Wrote.nil h hoff⟩
    · have hpos : 0 < src.length := List.length_pos_iff.mpr hnil
      generalize hc : (src.take writeMax).length = c
      have hcmin : c = min writeMax src.length := by rw [← hc, List.length_take]
      have hmax : writeMax = 1536 := rfl
      rw [filewriteLoop]
      simp only [if_neg hnil, bind_run]
      by_cases hfit : off + c ≤ maxfile * bsize
      · -- the chunk is written, the rest is the loop's own case
        have hstep := fitting_chunk hcmin hfit
        have hchunk : s.blocks.lacking (s.dinode i) (off + c) ≤ s.blocks.nfree :=
          Nat.le_trans (lacking_mono (by omega)) hfree
        rw [← hc] at hchunk hfit
        obtain ⟨s₁, hw, hwrote, hr₁, hi₁⟩ := writeChunk_wrote h hr hi hf hdev hoff hfit hchunk
        rw [hc] at hw hfit hchunk
        have hend : nblocks (off + fitting off src.length) ≤ maxfile :=
          nblocks_le_iff.mpr (fitting_le hbound).1
        have hspent := hwrote.spent _ hend (by rw [hc]; omega)
        have hdrop : (src.drop writeMax).length = src.length - c := by
          rw [List.length_drop]
          omega
        have hoff₁ : off + c ≤ (s₁.dinode i).size := by
          rw [hwrote.size, hc]
          omega
        have hlen₁ : off + c + (src.drop writeMax).length < 2 ^ 32 := by omega
        obtain ⟨s₂, hl, hwrote₂⟩ := ih hwrote.intact hr₁ hi₁ (by rw [hwrote.type]; exact hf)
          (by rw [hwrote.type]; exact hdev) hoff₁ hlen₁ (by omega)
          (by rw [hdrop, Nat.add_assoc, ← hstep]; omega)
        refine ⟨s₂, ⟨some c, s₁, hw, ?_⟩, ?_⟩
        · simp only [ite_run, hc]
          refine .inr ⟨by simp, ?_⟩
          rw [hstep, ← Nat.add_assoc, ← hdrop]
          exact hl
        · have hchunk' : src.take writeMax = src.take c := by
            rw [hcmin, ← List.take_take, List.take_length]
          have hrest : src.drop writeMax = src.drop c := by
            by_cases hlast : src.length ≤ writeMax
            · rw [List.drop_of_length_le hlast, List.drop_of_length_le (by omega)]
            · rw [hcmin, Nat.min_eq_left (by omega)]
          rw [hstep, List.take_add, ← hchunk', ← hrest, ← hdrop]
          exact hwrote.append hoff (by rw [hc]; exact hwrote₂)
      · have h0 := fitting_stop hcmin (Nat.lt_of_not_le hfit)
        rw [← hc] at hfit
        obtain ⟨s₁, hw, hdisk⟩ := writeChunk_refused hr hi hf hdev (by omega)
          (Nat.lt_of_not_le hfit)
        refine ⟨s₁, ⟨none, s₁, hw, by rw [h0]; rfl⟩, ?_⟩
        rw [h0]
        exact (SameDisk.mk rfl rfl rfl rfl : SameDisk s s).wrote hdisk (Wrote.nil h hoff)

/-! ## The call -/

/-- **Chunked writes are one write.** `filewrite` on a file returns `n` just
if the bytes end within the largest file, and then contents, size and
offset are those after one `writei` of all bytes. Otherwise it returns -1
and has written the whole chunks that fit. It does not panic. -/
theorem filewrite_eq_write {f : File} (h : Intact lo s) (hw : f.writable = true)
    (hip : f.ip = some ip) (hr : Lockable s ip) (hi : (s.icache ip).inum = i)
    (ht : (s.dinode i).type = .file) (hoff : f.off ≤ (s.dinode i).size)
    (hn : src.length < 2 ^ 31)
    (hfree : s.blocks.lacking (s.dinode i) (f.off + fitting f.off src.length) ≤ s.blocks.nfree) :
    ∃ r f' s', filewrite f src s = .ok ((r, f'), s') ∧
      (r = some src.length ↔ f.off + src.length ≤ maxfile * bsize) ∧
      (r = some src.length → ∃ s₁, writeChunk ip src f.off s = .ok (some src.length, s₁) ∧
        s'.contents i = s₁.contents i ∧ (s'.dinode i).size = (s₁.dinode i).size ∧
        f'.off = f.off + src.length) ∧
      (r ≠ some src.length → r = none ∧ ∃ k,
        f.off + k * writeMax ≤ maxfile * bsize ∧ maxfile * bsize < f.off + (k + 1) * writeMax ∧
        s'.contents i = splice (s.contents i) f.off (src.take (k * writeMax)) ∧
        f'.off = f.off + k * writeMax) := by
  have hf : (s.dinode i).type ≠ .free := by simp [ht]
  have hdev : (s.dinode i).type ≠ .dev := by simp [ht]
  have hbound := Nat.le_trans hoff (nblocks_le_iff.mp (h.short i hf))
  have hmax : maxfile * bsize = 71680 := rfl
  obtain ⟨s', hl, hwrote⟩ :=
    filewriteLoop_wrote h hr hi hf hdev hoff (by omega) (Nat.le_refl _) hfree
  obtain ⟨hle, -⟩ := fitting_le (n := src.length) hbound
  have hcall : filewrite f src s = .ok ((if f.off + fitting f.off src.length = f.off + src.length
      then some src.length else none, { f with off := f.off + fitting f.off src.length }), s') := by
    have hu : toU32 ((f.off + fitting f.off src.length : Nat) : Int) =
        f.off + fitting f.off src.length := by
      simp only [toU32]
      omega
    simp only [filewrite, hw, hip, ite_run, bind_run, pure_run]
    exact .inr ⟨by decide, _, _, hl, by rw [hu]⟩
  by_cases hfit : f.off + src.length ≤ maxfile * bsize
  · have hall : fitting f.off src.length = src.length := by rw [fitting, if_pos hfit]
    rw [hall] at hwrote hcall hfree
    rw [if_pos rfl] at hcall
    rw [List.take_length] at hwrote
    obtain ⟨s₁, h₁, hwrote₁, -⟩ := writeChunk_wrote h hr hi hf hdev hoff hfit hfree
    refine ⟨_, _, s', hcall, ⟨fun _ => hfit, fun _ => rfl⟩, fun _ => ⟨s₁, h₁, ?_, ?_, rfl⟩,
      fun hne => absurd rfl hne⟩
    · rw [hwrote.contents, hwrote₁.contents]
    · rw [hwrote.size, hwrote₁.size]
  · have hfew : fitting f.off src.length = (maxfile * bsize - f.off) / writeMax * writeMax := by
      rw [fitting, if_neg hfit]
    rw [hfew] at hcall hwrote hle
    generalize hk : (maxfile * bsize - f.off) / writeMax = k at hcall hwrote hle
    have hnext : maxfile * bsize - f.off < (k + 1) * writeMax := by
      exact (Nat.div_lt_iff_lt_mul (by decide)).mp (by omega)
    rw [if_neg (by omega)] at hcall
    have hne : (none : Option Nat) ≠ some src.length := by simp
    refine ⟨_, _, s', hcall, ⟨fun hr => absurd hr hne, fun hr => absurd hr hfit⟩,
      fun hr => absurd hr hne, fun _ => ⟨rfl, k, hle, by omega, hwrote.contents, rfl⟩⟩

end

/-- The empty file, open for writing. -/
def emptyOpen : File := { ref := 1, writable := true, ip := some 0 }

/-- 1600 bytes, two chunks, to the empty file, which has its entry
unlocked. -/
theorem filewrite_eq_write_emptyFile :
    ∃ f' s', filewrite emptyOpen (List.replicate 1600 7) (emptyFile.unlock 0) =
        .ok ((some 1600, f'), s') ∧
      writeMax < 1600 ∧ f'.off = 1600 := by
  have hdisk : SameDisk emptyFile (emptyFile.unlock 0) := SameDisk.setInode ..
  have hr : Lockable (emptyFile.unlock 0) 0 := ⟨by decide, by decide, fun _ => rfl⟩
  have hw : emptyOpen.writable = true := rfl
  have hlen : (List.replicate 1600 (7 : UInt8)).length = 1600 := List.length_replicate
  have hn : (List.replicate 1600 (7 : UInt8)).length < 2 ^ 31 := by rw [hlen]; decide
  obtain ⟨r, f', s', hcall, hiff, hall, -⟩ := filewrite_eq_write
    (hdisk.intact emptyFile_intact) hw rfl hr rfl rfl (Nat.zero_le _) hn
    (by rw [hlen]; decide +kernel)
  rw [hlen] at hiff hall
  obtain rfl : r = some 1600 := hiff.mpr (by decide)
  obtain ⟨-, -, -, -, hoff⟩ := hall rfl
  exact ⟨f', s', hcall, by decide, hoff⟩

end Xv6.Fs
