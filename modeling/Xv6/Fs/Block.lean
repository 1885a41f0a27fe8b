/-
Xv6.Fs.Block — disk blocks as bytes, and the 32-bit words in them.

A block is its bytes by offset; offsets from `BSIZE` on are never used.
An `int` array laid over a block (`struct logheader`) is read and written
by `word` and `setWord`, least significant byte first as on the x86.
-/
import Xv6.Param

namespace Xv6.Fs

/-- The contents of a disk block. -/
abbrev Block := Nat → UInt8

/-- The `i`-th 32-bit word of a block. -/
def word (b : Block) (i : Nat) : Nat :=
  (b (4 * i)).toNat + (b (4 * i + 1)).toNat * 2 ^ 8 + (b (4 * i + 2)).toNat * 2 ^ 16
    + (b (4 * i + 3)).toNat * 2 ^ 24

/-- Store `w` as the `i`-th word. -/
def setWord (b : Block) (i w : Nat) : Block := fun j =>
  if j / 4 = i then UInt8.ofNat (w / 2 ^ (8 * (j % 4))) else b j

theorem word_setWord_self (b : Block) (i : Nat) {w : Nat} (hw : w < 2 ^ 32) :
    word (setWord b i w) i = w := by
  have h0 : (4 * i) / 4 = i ∧ (4 * i) % 4 = 0 := by omega
  have h1 : (4 * i + 1) / 4 = i ∧ (4 * i + 1) % 4 = 1 := by omega
  have h2 : (4 * i + 2) / 4 = i ∧ (4 * i + 2) % 4 = 2 := by omega
  have h3 : (4 * i + 3) / 4 = i ∧ (4 * i + 3) % 4 = 3 := by omega
  simp only [word, setWord, h0.1, h0.2, h1.1, h1.2, h2.1, h2.2, h3.1, h3.2, if_true,
    UInt8.toNat_ofNat']
  omega

theorem word_setWord_of_ne (b : Block) {i j : Nat} (w : Nat) (h : i ≠ j) :
    word (setWord b j w) i = word b i := by
  have h0 : (4 * i) / 4 ≠ j := by omega
  have h1 : (4 * i + 1) / 4 ≠ j := by omega
  have h2 : (4 * i + 2) / 4 ≠ j := by omega
  have h3 : (4 * i + 3) / 4 ≠ j := by omega
  simp only [word, setWord, if_neg h0, if_neg h1, if_neg h2, if_neg h3]

theorem word_lt (b : Block) (i : Nat) : word b i < 2 ^ 32 := by
  have h0 := (b (4 * i)).toNat_lt
  have h1 := (b (4 * i + 1)).toNat_lt
  have h2 := (b (4 * i + 2)).toNat_lt
  have h3 := (b (4 * i + 3)).toNat_lt
  simp only [word]
  omega

end Xv6.Fs
