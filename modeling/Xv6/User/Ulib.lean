/-
Xv6.User.Ulib — what kernel and user library each have a version of:
`memmove` (`string.c`, `ulib.c`) and `printint` (`console.c`, `printf.c`).

The two `printint` agree but for the case of the digits (`printint_canonical`).
`atoi` of `ulib.c` reads back what they write.
The two `memmove` do not: the one of `ulib.c` copies upwards wherever the
ranges lie, and takes its count as an `int` (`memmove_overlap`).
-/
import Xv6.Param
import Mathlib.Data.Nat.Digits.Lemmas

namespace Xv6.User

open Function

/-! ## `memmove` -/

/-- Memory, a byte for each address. -/
abbrev Memory := Nat → UInt8

/-- `while(n-- > 0) *d++ = *s++`. -/
def copyUp : Nat → Memory → Nat → Nat → Memory
  | 0, m, _, _ => m
  | n + 1, m, d, s => copyUp n (update m d (m s)) (d + 1) (s + 1)

/-- `while(n-- > 0) *--d = *--s`. -/
def copyDown : Nat → Memory → Nat → Nat → Memory
  | 0, m, _, _ => m
  | n + 1, m, d, s => copyDown n (update m (d - 1) (m (s - 1))) (d - 1) (s - 1)

/-- `memmove` of `string.c`; `s + n` is an address, of 32 bits. -/
def memmoveString (m : Memory) (dst src n : Nat) : Memory :=
  if src < dst ∧ toU32 (src + n) > dst then copyDown n m (dst + n) (src + n)
  else copyUp n m dst src

/-- `memmove` of `ulib.c`: `n` is an `int`, and a negative one copies nothing. -/
def memmoveUlib (m : Memory) (dst src n : Nat) : Memory := copyUp (toI32 n).toNat m dst src

/-- `m'` is `m` with the bytes `[src, src+n)` of it moved to `[dst, dst+n)`. -/
structure Moves (m m' : Memory) (dst src n : Nat) : Prop where
  moved : ∀ i < n, m' (dst + i) = m (src + i)
  frame : ∀ p, p < dst ∨ dst + n ≤ p → m' p = m p

/-- What copying `n` bytes upwards needs: a byte that an earlier round has
overwritten must be equal to the one it was overwritten with. An `n` that is
negative as an `int` needs the bytes to be there already. -/
def CopiesUp (m : Memory) (dst src n : Nat) : Prop :=
  if n < 2 ^ 31 then
    src < dst → ∀ i < n, dst ≤ src + i → m (src + i) = m (src + i - (dst - src))
  else ∀ i < n, m (dst + i) = m (src + i)

variable {m m' m'' : Memory} {d s n i p dst src : Nat}

theorem Moves.unique (h : Moves m m' dst src n) (h' : Moves m m'' dst src n) : m' = m'' := by
  funext p
  by_cases hp : p < dst ∨ dst + n ≤ p
  · rw [h.frame p hp, h'.frame p hp]
  · obtain ⟨i, rfl⟩ := Nat.exists_eq_add_of_le (show dst ≤ p by omega)
    rw [h.moved i (by omega), h'.moved i (by omega)]

theorem copyUp_frame (hp : p < d ∨ d + n ≤ p) : copyUp n m d s p = m p := by
  induction n generalizing m d s with
  | zero => rfl
  | succ n ih => rw [copyUp, ih (by omega), update_of_ne (by omega)]

theorem copyDown_frame (hp : p < d ∨ d + n ≤ p) : copyDown n m (d + n) s p = m p := by
  induction n generalizing m s with
  | zero => rfl
  | succ n ih => exact (ih (by omega)).trans (update_of_ne (by omega) ..)

theorem copyUp_apply (hi : i < n) : copyUp n m d s (d + i) =
    if s < d ∧ d ≤ s + i then copyUp n m d s (s + i) else m (s + i) := by
  induction n generalizing m d s i with
  | zero => omega
  | succ n ih =>
    have hd : copyUp (n + 1) m d s d = m s := by
      rw [copyUp, copyUp_frame (by omega), update_self]
    cases i with
    | zero => exact hd.trans (if_neg (by omega)).symm
    | succ i =>
      rw [copyUp, Nat.add_comm i 1, ← Nat.add_assoc, ← Nat.add_assoc, ih (by omega)]
      obtain h | h | h : s + 1 + i < d ∨ s + 1 + i = d ∨ d < s + 1 + i := by omega
      · rw [if_neg (by omega), if_neg (by omega), update_of_ne (by omega)]
      · rw [if_neg (by omega), if_pos (by omega), h, copyUp_frame (by omega)]
      · -- past `d`: both sides read what is there, unless `d` is not above `s`
        by_cases hsd : s < d
        · rw [if_pos (by omega), if_pos (by omega)]
        · rw [if_neg (by omega), if_neg (by omega), update_of_ne (by omega)]

theorem copyDown_moves (h : src < dst) : Moves m (copyDown n m (dst + n) (src + n)) dst src n := by
  refine ⟨fun i hi => ?_, fun p hp => copyDown_frame hp⟩
  induction n generalizing m with
  | zero => omega
  | succ n ih =>
    obtain hlt | rfl : i < n ∨ i = n := by omega
    · exact (ih hlt).trans (update_of_ne (by omega) ..)
    · exact (copyDown_frame (n := i) (.inr le_rfl)).trans (update_self ..)

theorem copyUp_moves_iff : Moves m (copyUp n m dst src) dst src n ↔
    (src < dst → ∀ i < n, dst ≤ src + i → m (src + i) = m (src + i - (dst - src))) := by
  have back (i : Nat) (hsd : src < dst) (hle : dst ≤ src + i) :
      src + i = dst + (i - (dst - src)) ∧ src + i - (dst - src) = src + (i - (dst - src)) := by
    omega
  refine ⟨fun h hsd i hi hle => ?_, fun h => ⟨fun i hi => ?_, fun p hp => copyUp_frame hp⟩⟩
  · have := copyUp_apply (m := m) (d := dst) (s := src) hi
    rw [if_pos ⟨hsd, hle⟩, h.moved i hi, (back i hsd hle).1, h.moved _ (by omega)] at this
    rw [(back i hsd hle).2, ← this, (back i hsd hle).1]
  · induction i using Nat.strong_induction_on with
    | _ i ih =>
      rw [copyUp_apply hi]
      split
      case isFalse => rfl
      case isTrue hc =>
        rw [h hc.1 i hi hc.2, (back i hc.1 hc.2).2, (back i hc.1 hc.2).1]
        exact ih _ (by omega) (by omega)

theorem memmoveString_moves (m : Memory) (src : Nat) (hd : dst + n ≤ 2 ^ 32) :
    Moves m (memmoveString m dst src n) dst src n := by
  unfold memmoveString
  split
  case isTrue h => exact copyDown_moves h.1
  case isFalse h =>
    refine copyUp_moves_iff.mpr fun hsd i hi hle => absurd ⟨hsd, ?_⟩ h
    have : toU32 (src + n) = src + n := by
      unfold toU32
      omega
    omega

theorem memmoveUlib_moves_iff (m : Memory) (src : Nat) (hd : dst + n ≤ 2 ^ 32) :
    Moves m (memmoveUlib m dst src n) dst src n ↔ CopiesUp m dst src n := by
  unfold memmoveUlib CopiesUp
  split
  case isTrue h =>
    rw [toI32_of_range (by omega) (by omega), Int.toNat_natCast, copyUp_moves_iff]
  case isFalse h =>
    have h0 : (toI32 n).toNat = 0 := by
      rw [toI32, Int.bmod_def]
      split <;> omega
    rw [h0]
    exact ⟨fun h i hi => h.moved i hi, fun h => ⟨h, fun _ _ => rfl⟩⟩

/-- The kernel's `memmove` moves, wherever the ranges lie; the user library's
does, and so agrees with it, exactly where copying upwards is enough. -/
theorem memmove_overlap (m : Memory) (dst src n : Nat) (hd : dst + n ≤ 2 ^ 32) :
    Moves m (memmoveString m dst src n) dst src n ∧
      (Moves m (memmoveUlib m dst src n) dst src n ↔ CopiesUp m dst src n) ∧
      (memmoveUlib m dst src n = memmoveString m dst src n ↔ CopiesUp m dst src n) := by
  have hk := memmoveString_moves m src hd
  have hu := memmoveUlib_moves_iff m src hd
  exact ⟨hk, hu, fun h => hu.mp (h ▸ hk), fun h => (hu.mpr h).unique hk⟩

/-- Bytes that are all the same are moved up by one. -/
theorem memmove_overlap_constant :
    Moves (fun _ => 7) (memmoveUlib (fun _ => 7) 1 0 3) 1 0 3 ∧
    memmoveUlib (fun _ => 7) 1 0 3 = memmoveString (fun _ => 7) 1 0 3 := by
  obtain ⟨-, hmoves, heq⟩ := memmove_overlap (fun _ => 7) 1 0 3 (by decide)
  have hup : CopiesUp (fun _ => 7) 1 0 3 := by
    rw [CopiesUp, if_pos (by decide)]
    exact fun _ _ _ _ => rfl
  exact ⟨hmoves.mpr hup, heq.mpr hup⟩

/-- Three bytes moved up by one: the second is read after it was written. -/
theorem memmoveUlib_overlap : ¬ Moves UInt8.ofNat (memmoveUlib UInt8.ofNat 1 0 3) 1 0 3 ∧
    memmoveUlib UInt8.ofNat 1 0 3 2 = 0 ∧ memmoveString UInt8.ofNat 1 0 3 2 = 1 :=
  ⟨fun h => absurd (h.moved 1 (by decide)) (by decide), by decide, by decide⟩

/-! ## `printint` -/

/-- The loop of `printint`: the digits of `x`, last first, in the `room` bytes
of `buf` that are left. Nothing if it writes past them. -/
def printDigits (digits : List Char) (base : Nat) : Nat → Nat → Option (List Char)
  | 0, _ => none
  | room + 1, x =>
    let c := digits.getD (x % base) ' '
    if x / base = 0 then some [c] else (printDigits digits base room (x / base)).map (c :: ·)

/-- The characters that `printint` puts out, or nothing if it overruns its
`char buf[16]`. `-xx` is computed in 32 bits. -/
def printint (digits : List Char) (xx : BitVec 32) (base : Nat) (sign : Bool) :
    Option (List Char) :=
  let neg := sign && decide (xx.toInt < 0)
  (printDigits digits base 16 (if neg then -xx else xx).toNat).bind fun buf =>
    if neg then
      if buf.length < 16 then some (buf ++ ['-']).reverse else none
    else some buf.reverse

def upperDigits : List Char := "0123456789ABCDEF".toList

def lowerDigits : List Char := "0123456789abcdef".toList

/-- `printint` of `printf.c`, with `neg` for what is negative. -/
def printintPrintf := printint upperDigits

/-- `printint` of `console.c`, which keeps `xx < 0` in `sign`. -/
def printintConsole := printint lowerDigits

/-- The numeral of `x`: its digits, first one first, and `0` for zero. The
digits of a positive `x` have no zero in front (`Nat.getLast_digit_ne_zero`). -/
def numeral (digits : List Char) (base x : Nat) : List Char :=
  ((if x = 0 then [0] else Nat.digits base x).map (digits.getD · ' ')).reverse

variable {digits digits' : List Char} {f : Char → Char} {base room x : Nat} {xx : BitVec 32}

theorem printDigits_eq (hb : 1 < base) (hr : room ≠ 0) (hx : x < base ^ room) :
    printDigits digits base room x = some (numeral digits base x).reverse := by
  rw [numeral, List.reverse_reverse]
  induction room generalizing x with
  | zero => exact absurd rfl hr
  | succ room ih =>
    rw [printDigits]
    by_cases hq : x / base = 0
    · have hlt : x < base := (Nat.div_eq_zero_iff_lt (by omega)).mp hq
      rw [if_pos hq, Nat.mod_eq_of_lt hlt]
      split
      case isTrue h => rw [h]; rfl
      case isFalse h => rw [Nat.digits_of_lt base x h hlt]; rfl
    · have hlt : x / base < base ^ room := Nat.div_lt_of_lt_mul (by rwa [← Nat.pow_succ'])
      have hpos : 0 < x := Nat.pos_of_ne_zero fun h => hq (by rw [h, Nat.zero_div])
      have hroom : room ≠ 0 := fun h => hq (by rwa [h, Nat.pow_zero, Nat.lt_one_iff] at hlt)
      rw [if_neg hq, ih hroom hlt, if_neg hq, if_neg hpos.ne', Nat.digits_def' hb hpos]
      rfl

theorem numeral_length_le (digits : List Char) (hb : 1 < base) (hr : room ≠ 0)
    (hx : x < base ^ room) :
    (numeral digits base x).length ≤ room := by
  rw [numeral, List.length_reverse, List.length_map]
  split
  case isTrue => exact Nat.pos_of_ne_zero hr
  case isFalse h => exact (Nat.digits_length_le_iff hb x).mpr hx

theorem printint_signed : printint digits xx 10 true =
    some ((if xx.toInt < 0 then ['-'] else []) ++ numeral digits 10 xx.toInt.natAbs) := by
  have habs : (if xx.toInt < 0 then -xx else xx).toNat = xx.toInt.natAbs := by
    have hint := BitVec.toInt_eq_toNat_cond xx
    have := xx.isLt
    split
    case isTrue => rw [BitVec.toNat_neg]; omega
    case isFalse => omega
  have hlt : xx.toInt.natAbs < 10 ^ 10 := by
    have := BitVec.le_toInt xx
    have := BitVec.toInt_lt (x := xx)
    omega
  simp only [printint, Bool.true_and, decide_eq_true_eq, habs]
  rw [printDigits_eq (by decide) (by decide) (hlt.trans (by decide))]
  have hlen := numeral_length_le digits (by decide) (by decide) hlt
  by_cases hneg : xx.toInt < 0
  · simp [hneg, show (numeral digits 10 xx.toInt.natAbs).length < 16 by omega]
  · simp [hneg]

theorem printint_unsigned : printint digits xx 16 false = some (numeral digits 16 xx.toNat) := by
  have hlt : xx.toNat < 16 ^ 16 := xx.isLt.trans (by decide)
  simp only [printint, Bool.false_and, Bool.false_eq_true, if_false]
  rw [printDigits_eq (by decide) (by decide) hlt]
  simp

theorem numeral_map (hb : 1 < base) (h : ∀ i < base, f (digits.getD i ' ') = digits'.getD i ' ') :
    (numeral digits base x).map f = numeral digits' base x := by
  rw [numeral, numeral, List.map_reverse, List.map_map]
  refine congrArg List.reverse (List.map_congr_left fun i hi => h i ?_)
  split at hi
  case isTrue => rw [List.mem_singleton.mp hi]; omega
  case isFalse => exact Nat.digits_lt_base hb hi

/-- Both put out the numeral, with `-` before that of a negative number, and
stay within their buffer; they differ in the case of the hexadecimal digits. -/
theorem printint_canonical (xx : BitVec 32) :
    printintPrintf xx 10 true = some ((if xx.toInt < 0 then ['-'] else []) ++
        numeral upperDigits 10 xx.toInt.natAbs) ∧
      printintConsole xx 10 true = printintPrintf xx 10 true ∧
      printintPrintf xx 16 false = some (numeral upperDigits 16 xx.toNat) ∧
      printintConsole xx 16 false = some (numeral lowerDigits 16 xx.toNat) ∧
      (printintConsole xx 16 false).map (·.map Char.toUpper) = printintPrintf xx 16 false := by
  have hdec : numeral lowerDigits 10 xx.toInt.natAbs = numeral upperDigits 10 xx.toInt.natAbs :=
    (List.map_id _).symm.trans (numeral_map (by decide) (by decide))
  have hhex : (numeral lowerDigits 16 xx.toNat).map Char.toUpper =
      numeral upperDigits 16 xx.toNat :=
    numeral_map (by decide) (by decide)
  refine ⟨printint_signed, ?_, printint_unsigned, printint_unsigned, ?_⟩
  · rw [printintConsole, printintPrintf, printint_signed, printint_signed, hdec]
  · rw [printintConsole, printintPrintf, printint_unsigned, printint_unsigned, Option.map_some,
      hhex]

/-- The most negative `int` is its own negation in 32 bits. -/
example : printintPrintf (BitVec.ofInt 32 (-2 ^ 31)) 10 true = some "-2147483648".toList := by
  decide

/-! ## `atoi` -/

/-- The loop of `atoi`, in `int`s modulo 2^32; the NUL ends it like any other
character. -/
def atoiLoop (n : BitVec 32) : List Char → BitVec 32
  | [] => n
  | c :: s =>
    if '0' ≤ c ∧ c ≤ '9' then atoiLoop (n * 10 + BitVec.ofNat 32 c.toNat - 48) s else n

def atoi : List Char → BitVec 32 := atoiLoop 0

theorem atoi_digits (s : List Char) {ds : List Nat} (h : ∀ d ∈ ds, d < 10) :
    atoi ((ds.map (upperDigits.getD · ' ')).reverse ++ s) =
      atoiLoop (BitVec.ofNat 32 (Nat.ofDigits 10 ds)) s := by
  induction ds generalizing s with
  | nil => rfl
  | cons d ds ih =>
    obtain ⟨hd, hds⟩ := List.forall_mem_cons.mp h
    have hc : ∀ d < 10, ('0' ≤ upperDigits.getD d ' ' ∧ upperDigits.getD d ' ' ≤ '9') ∧
        BitVec.ofNat 32 (upperDigits.getD d ' ').toNat = BitVec.ofNat 32 d + 48 := by decide
    obtain ⟨hdigit, hvalue⟩ := hc d hd
    rw [List.map_cons, List.reverse_cons, List.append_assoc, ih _ hds, List.singleton_append,
      atoiLoop, if_pos hdigit, hvalue, Nat.ofDigits_cons, BitVec.ofNat_add, BitVec.ofNat_mul]
    congr 1
    grind

theorem atoi_numeral (x : Nat) : atoi (numeral upperDigits 10 x) = BitVec.ofNat 32 x := by
  rw [← List.append_nil (numeral ..), numeral]
  split
  case isTrue h => rw [h]; rfl
  case isFalse =>
    rw [atoi_digits [] fun _ => Nat.digits_lt_base (by decide), Nat.ofDigits_digits, atoiLoop]

/-- **`atoi` reads back what `printf` writes** for an `int` that is not negative;
it stops with 0 at a minus sign. -/
theorem atoi_printint (xx : BitVec 32) :
    (printintPrintf xx 10 true).map atoi = some (if xx.toInt < 0 then 0 else xx) := by
  rw [printintPrintf, printint_signed, Option.map_some]
  split
  case isTrue => rfl
  case isFalse h =>
    have habs : xx.toInt.natAbs = xx.toNat := by
      have := BitVec.toInt_eq_toNat_cond xx
      omega
    rw [List.nil_append, atoi_numeral, habs, BitVec.ofNat_toNat, BitVec.setWidth_eq]

end Xv6.User
