/-
Xv6.User.Grep — `grep.c`: the matcher (`match`, `matchhere`, `matchstar`)
and the loop that reads lines through a buffer of 1024 bytes.

A C string is the list of its bytes before the NUL. `matchRe_iff` reads
the pattern as a list of items (`items`) and says what the matcher finds;
`matchstar` gets `matchhere` of the rest of the pattern as its argument,
so that the recursion is on the pattern.

`grep` takes what the calls of `read` return, one list each. Its buffer
forgets a line that has begun when a read brings no newline at all
(`if(p == buf) m = 0`), so the output depends on how the input arrives:
`grep_split_iff` says for which splits it is right.
-/
import Mathlib.Algebra.Group.Nat.Defs
import Mathlib.Data.List.Basic

namespace Xv6.User.Grep

variable {buf l p re : List UInt8} {ls pieces : List (List UInt8)}

/-! ## The matcher -/

/-- `matchstar`; `here` is `matchhere` of the pattern after the star. -/
def matchstar (here : List UInt8 → Bool) (c : UInt8) : List UInt8 → Bool
  | [] => here []
  | t :: text => here (t :: text) || (t == c || c == 46) && matchstar here c text

def matchhere : List UInt8 → List UInt8 → Bool
  | [], _ => true
  | c :: 42 :: re, text => matchstar (matchhere re) c text
  | [36], text => text.isEmpty
  | _ :: _, [] => false
  | c :: re, t :: text => (c == 46 || c == t) && matchhere re text

/-- The loop of `match`. -/
def matchLoop (here : List UInt8 → Bool) : List UInt8 → Bool
  | [] => here []
  | t :: text => here (t :: text) || matchLoop here text

/-- `match`. -/
def matchRe : List UInt8 → List UInt8 → Bool
  | 94 :: re, text => matchhere re text
  | re, text => matchLoop (matchhere re) text

/-- A character or `'.'`, and whether a star follows. -/
structure Item where
  c : UInt8
  starred : Bool

def Item.Fits (i : Item) (t : UInt8) : Prop := i.c = 46 ∨ i.c = t

/-- The words an item stands for. -/
def Item.Accepts (i : Item) (w : List UInt8) : Prop :=
  (i.starred = false → w.length = 1) ∧ ∀ t ∈ w, i.Fits t

/-- A pattern without `'^'`: its items, and whether it ends in a `'$'`
that stands for the end of the text. -/
def items : List UInt8 → List Item × Bool
  | [] => ([], false)
  | c :: 42 :: re => (⟨c, true⟩ :: (items re).1, (items re).2)
  | [36] => ([], true)
  | c :: re => (⟨c, false⟩ :: (items re).1, (items re).2)

/-- The word is made of one word for each item. -/
def Matches : List Item → List UInt8 → Prop
  | [], w => w = []
  | i :: is, w => ∃ u v, w = u ++ v ∧ i.Accepts u ∧ Matches is v

/-- The text begins with a match of the pattern. -/
def Begins (re text : List UInt8) : Prop :=
  ∃ w rest, text = w ++ rest ∧ Matches (items re).1 w ∧ ((items re).2 = true → rest = [])

theorem matchstar_iff (here : List UInt8 → Bool) (c : UInt8) (text : List UInt8) :
    matchstar here c text = true ↔
      ∃ u v, text = u ++ v ∧ (∀ t ∈ u, (⟨c, true⟩ : Item).Fits t) ∧ here v = true := by
  induction text with
  | nil => simp [matchstar]
  | cons t text ih =>
    simp only [matchstar, Bool.or_eq_true, Bool.and_eq_true, beq_iff_eq, ih]
    constructor
    · rintro (h | ⟨ht, u, v, rfl, hu, hv⟩)
      · exact ⟨[], _, rfl, by simp, h⟩
      · have hfit : (⟨c, true⟩ : Item).Fits t := ht.symm.imp_right Eq.symm
        exact ⟨t :: u, v, rfl, by simpa [hfit] using hu, hv⟩
    · rintro ⟨u, v, htext, hu, hv⟩
      cases u with
      | nil => exact .inl (htext ▸ hv)
      | cons t' u =>
        obtain ⟨rfl, rfl⟩ := List.cons.inj htext
        obtain ⟨ht, hu⟩ := List.forall_mem_cons.mp hu
        exact .inr ⟨ht.symm.imp_left Eq.symm, u, v, rfl, hu, hv⟩

theorem matchLoop_iff (here : List UInt8 → Bool) (text : List UInt8) :
    matchLoop here text = true ↔ ∃ pre rest, text = pre ++ rest ∧ here rest = true := by
  induction text with
  | nil => simp [matchLoop]
  | cons t text ih =>
    simp only [matchLoop, Bool.or_eq_true, ih]
    constructor
    · rintro (h | ⟨pre, rest, rfl, h⟩)
      · exact ⟨[], _, rfl, h⟩
      · exact ⟨t :: pre, rest, rfl, h⟩
    · rintro ⟨pre, rest, htext, h⟩
      cases pre with
      | nil => exact .inl (htext ▸ h)
      | cons t' pre => exact .inr ⟨pre, rest, (List.cons.inj htext).2, h⟩

theorem begins_star (c : UInt8) (re text : List UInt8) : Begins (c :: 42 :: re) text ↔
    ∃ u v, text = u ++ v ∧ (∀ t ∈ u, (⟨c, true⟩ : Item).Fits t) ∧ Begins re v := by
  simp only [Begins, items, Matches]
  constructor
  · rintro ⟨w, rest, rfl, ⟨u, v, rfl, hu, hv⟩, hend⟩
    exact ⟨u, v ++ rest, List.append_assoc .., hu.2, v, rest, rfl, hv, hend⟩
  · rintro ⟨u, v, rfl, hu, w, rest, rfl, hw, hend⟩
    exact ⟨u ++ w, rest, (List.append_assoc ..).symm, ⟨u, w, rfl, ⟨nofun, hu⟩, hw⟩, hend⟩

theorem begins_char {c : UInt8}
    (h : items (c :: re) = (⟨c, false⟩ :: (items re).1, (items re).2)) (text : List UInt8) :
    Begins (c :: re) text ↔
      ∃ t text', text = t :: text' ∧ (c = 46 ∨ c = t) ∧ Begins re text' := by
  simp only [Begins, h, Matches]
  constructor
  · rintro ⟨w, rest, rfl, ⟨u, v, rfl, ⟨hlen, hu⟩, hv⟩, hend⟩
    obtain ⟨t, rfl⟩ := List.length_eq_one_iff.mp (hlen rfl)
    exact ⟨t, v ++ rest, rfl, hu t (by simp), v, rest, rfl, hv, hend⟩
  · rintro ⟨t, _, rfl, ht, w, rest, rfl, hw, hend⟩
    exact ⟨t :: w, rest, rfl, ⟨[t], w, rfl, ⟨fun _ => rfl, by simpa [Item.Fits] using ht⟩, hw⟩,
      hend⟩

theorem matchhere_char {c : UInt8} (hstar : re.head? ≠ some 42)
    (hend : c = 36 → re ≠ []) (ih : ∀ text, matchhere re text = true ↔ Begins re text)
    (text : List UInt8) : matchhere (c :: re) text = true ↔ Begins (c :: re) text := by
  have hre : ∀ re', re = 42 :: re' → False := by
    rintro re' rfl
    exact hstar rfl
  have hlast : c = 36 → re = [] → False := fun h h' => hend h h'
  rw [begins_char (by rw [items] <;> assumption)]
  cases text with
  | nil => rw [matchhere] <;> simp_all
  | cons t text =>
    rw [matchhere] <;> try assumption
    simp [ih]

-- the cases are those of `matchhere`; a star uses the case of its rest
theorem matchhere_iff : ∀ re text : List UInt8, matchhere re text = true ↔ Begins re text
  | [], text => by simp [matchhere, Begins, items, Matches]
  | [c], text => by
    by_cases hc : c = 36
    · subst hc
      simp [matchhere, Begins, items, Matches]
    · exact matchhere_char (by simp) (absurd · hc) (matchhere_iff []) text
  | c :: d :: re, text => by
    by_cases hd : d = 42
    · subst hd
      simp only [matchhere, matchstar_iff, begins_star, matchhere_iff re]
    · exact matchhere_char (by simpa using hd) (by simp) (matchhere_iff (d :: re)) text

/-- **The matcher is sound and complete**: some part of the text, its
beginning after a `'^'`, matches the items of the pattern. -/
theorem matchRe_iff (re text : List UInt8) : matchRe re text = true ↔
    ∃ pre w rest body, text = pre ++ w ++ rest ∧
      (re = 94 :: body ∧ pre = [] ∨ re.head? ≠ some 94 ∧ body = re) ∧
      Matches (items body).1 w ∧ ((items body).2 = true → rest = []) := by
  unfold matchRe
  split
  · next re =>
    rw [matchhere_iff]
    constructor
    · rintro ⟨w, rest, rfl, h⟩
      exact ⟨[], w, rest, re, rfl, .inl ⟨rfl, rfl⟩, h⟩
    · rintro ⟨pre, w, rest, body, rfl, hbody, h⟩
      obtain ⟨hre, rfl⟩ := hbody.resolve_right fun hne => hne.1 rfl
      obtain rfl := (List.cons.inj hre).2
      exact ⟨w, rest, rfl, h⟩
  · next hre =>
    simp only [matchLoop_iff, matchhere_iff]
    constructor
    · rintro ⟨pre, _, rfl, w, rest, rfl, h⟩
      refine ⟨pre, w, rest, re, (List.append_assoc ..).symm, .inr ⟨fun hhead => ?_, rfl⟩, h⟩
      obtain ⟨body, hb⟩ := List.head?_eq_some_iff.mp hhead
      exact hre body hb
    · rintro ⟨pre, w, rest, body, rfl, hbody, h⟩
      obtain ⟨-, rfl⟩ := hbody.resolve_left fun heq => hre body heq.1
      exact ⟨pre, w ++ rest, List.append_assoc .., w, rest, rfl, h⟩

/-! ## The loop over the input -/

/-- The bytes of a string that lies in the buffer. -/
def cstr (p : List UInt8) : List UInt8 := p.takeWhile (· != 0)

def strchr (p : List UInt8) (c : UInt8) : Option Nat := (cstr p).findIdx? (· == c)

/-- The inner loop of `grep` from `p` on: the lines written, and the last `p`. -/
def scan (re : List UInt8) : Nat → List UInt8 → List (List UInt8) × List UInt8
  | 0, p => ([], p)
  | fuel + 1, p =>
    match strchr p 10 with
    | none => ([], p)
    | some q =>
      let r := scan re fuel (p.drop (q + 1))
      (if matchRe re (cstr (p.take q)) then p.take (q + 1) :: r.1 else r.1, r.2)

/-- `grep` with `buf` in the buffer, for what the reads still to come
return: the bytes it writes. -/
def grepLoop (re : List UInt8) : List UInt8 → List (List UInt8) → List UInt8
  | _, [] => []
  | buf, piece :: pieces =>
    if piece = [] then []
    else
      let r := scan re (buf ++ piece).length (buf ++ piece)
      -- `if(p == buf) m = 0`
      r.1.flatten ++ grepLoop re (if r.2 = buf ++ piece then [] else r.2) pieces

def grep (re : List UInt8) (pieces : List (List UInt8)) : List UInt8 := grepLoop re [] pieces

/-- A line, and lines as they stand in a file. -/
structure Line (l : List UInt8) : Prop where
  nul : 0 ∉ l
  newline : 10 ∉ l

def text (ls : List (List UInt8)) : List UInt8 := ls.flatMap (· ++ [10])

/-- What `grep` should write. -/
def selected (re : List UInt8) (ls : List (List UInt8)) : List UInt8 :=
  text (ls.filter (matchRe re))

theorem cstr_eq (h : 0 ∉ p) : cstr p = p := by
  induction p with
  | nil => rfl
  | cons x p ih =>
    obtain ⟨hx, hp⟩ := not_or.mp (mt List.mem_cons.mpr h)
    simpa [cstr, Ne.symm hx] using ih hp

theorem strchr_eq (h : 0 ∉ p) : strchr p 10 = p.findIdx? (· == 10) := by
  rw [strchr, cstr_eq h]

theorem findIdx?_line (h : Line l) : l.findIdx? (· == 10) = none := by
  refine List.findIdx?_eq_none_iff.mpr fun x hx => ?_
  simpa using fun h10 : x = 10 => h.newline (h10 ▸ hx)

theorem findIdx?_newline (h : Line l) (p : List UInt8) :
    (l ++ 10 :: p).findIdx? (· == 10) = some l.length := by
  rw [List.findIdx?_append, findIdx?_line h, List.findIdx?_cons]
  simp

theorem scan_line (hl : Line l) (hp : 0 ∉ p) (fuel : Nat) :
    scan re (fuel + 1) (l ++ 10 :: p) =
      (if matchRe re l then (l ++ [10]) :: (scan re fuel p).1 else (scan re fuel p).1,
        (scan re fuel p).2) := by
  have hnul : 0 ∉ l ++ 10 :: p := by simp [hl.nul, hp]
  have hq : strchr (l ++ 10 :: p) 10 = some l.length := by
    rw [strchr_eq hnul, findIdx?_newline hl]
  simp only [scan, hq, List.take_left, List.take_length_add_append, List.drop_length_add_append,
    cstr_eq hl.nul]
  rfl

theorem scan_last (h : Line p) (fuel : Nat) : scan re fuel p = ([], p) := by
  cases fuel with
  | zero => rfl
  | succ fuel => simp [scan, strchr_eq h.nul, findIdx?_line h]

@[simp] theorem text_nil : text [] = [] := rfl

@[simp] theorem text_cons (l : List UInt8) (ls : List (List UInt8)) :
    text (l :: ls) = l ++ 10 :: text ls := by
  simp [text]

@[simp] theorem text_append (ls ls' : List (List UInt8)) :
    text (ls ++ ls') = text ls ++ text ls' := List.flatMap_append

theorem nul_text (h : ∀ l ∈ ls, Line l) : 0 ∉ text ls := by
  simp only [text, List.mem_flatMap, List.mem_append, List.mem_singleton]
  rintro ⟨l, hl, h0 | h0⟩
  · exact (h l hl).nul h0
  · exact absurd h0 (by decide)

theorem scan_lines (re : List UInt8) (hp : Line p) (hls : ∀ l ∈ ls, Line l) {fuel : Nat}
    (hf : (text ls ++ p).length ≤ fuel) :
    scan re fuel (text ls ++ p) = ((ls.filter (matchRe re)).map (· ++ [10]), p) := by
  induction ls generalizing fuel with
  | nil => exact scan_last hp fuel
  | cons l ls ih =>
    obtain ⟨hl, hls⟩ := List.forall_mem_cons.mp hls
    simp only [text_cons, List.append_assoc, List.cons_append, List.length_append,
      List.length_cons] at hf ⊢
    obtain ⟨fuel, rfl⟩ : ∃ n, fuel = n + 1 := ⟨fuel - 1, by omega⟩
    have hnul : 0 ∉ text ls ++ p := by simp [nul_text hls, hp.nul]
    rw [scan_line hl hnul, ih hls (by simp only [List.length_append]; omega), List.filter_cons]
    cases matchRe re l with
    | true => rfl
    | false => rfl

theorem exists_lines (data : List UInt8) (h : 0 ∉ data) :
    ∃ ls p, data = text ls ++ p ∧ (∀ l ∈ ls, Line l) ∧ Line p := by
  induction data with
  | nil => exact ⟨[], [], rfl, nofun, nofun, nofun⟩
  | cons x data ih =>
    obtain ⟨hx, hdata⟩ := not_or.mp (mt List.mem_cons.mpr h)
    obtain ⟨ls, p, rfl, hls, hp⟩ := ih hdata
    by_cases h10 : x = 10
    · subst h10
      exact ⟨[] :: ls, p, by simp, List.forall_mem_cons.mpr ⟨⟨nofun, nofun⟩, hls⟩, hp⟩
    -- the byte begins the first line, or the last one
    have hcons : ∀ l, Line l → Line (x :: l) := fun l hl =>
      ⟨by simp [hx, hl.nul], by simp [Ne.symm h10, hl.newline]⟩
    cases ls with
    | nil => exact ⟨[], x :: p, rfl, nofun, hcons p hp⟩
    | cons l ls =>
      obtain ⟨hl, hls⟩ := List.forall_mem_cons.mp hls
      exact ⟨(x :: l) :: ls, p, by simp, List.forall_mem_cons.mpr ⟨hcons l hl, hls⟩, hp⟩

theorem text_split {ls ls' : List (List UInt8)} {rest : List UInt8} (hls : ∀ l ∈ ls, Line l)
    (hls' : ∀ l ∈ ls', Line l) (h : text ls ++ rest = text ls') :
    ∃ ls₂, ls' = ls ++ ls₂ ∧ rest = text ls₂ := by
  induction ls generalizing ls' with
  | nil => exact ⟨ls', rfl, h⟩
  | cons l ls ih =>
    cases ls' with
    | nil => simp at h
    | cons l' ls' =>
      obtain ⟨hl, hls⟩ := List.forall_mem_cons.mp hls
      obtain ⟨hl', hls''⟩ := List.forall_mem_cons.mp hls'
      simp only [text_cons, List.append_assoc, List.cons_append] at h
      have hlen := findIdx?_newline hl (text ls ++ rest)
      rw [h, findIdx?_newline hl'] at hlen
      obtain ⟨rfl, htail⟩ := List.append_inj h (Option.some.inj hlen).symm
      obtain ⟨ls₂, rfl, hrest⟩ := ih hls hls'' (List.cons.inj htail).2
      exact ⟨ls₂, rfl, hrest⟩

theorem grepLoop_cons (re : List UInt8) {piece : List UInt8}
    (hne : piece ≠ []) (hdata : buf ++ piece = text ls ++ p) (hls : ∀ l ∈ ls, Line l)
    (hp : Line p) : grepLoop re buf (piece :: pieces) =
      selected re ls ++ grepLoop re (if ls = [] then [] else p) pieces := by
  have hif : p = text ls ++ p ↔ ls = [] := by
    refine ⟨fun h => ?_, fun h => by rw [h]; rfl⟩
    have hlen := congrArg List.length h
    cases ls with
    | nil => rfl
    | cons l ls =>
      simp only [text_cons, List.length_append, List.length_cons] at hlen
      omega
  rw [grepLoop, if_neg hne, hdata]
  simp only [scan_lines re hp hls (Nat.le_refl _), hif]
  rfl

theorem grepLoop_selected (re : List UInt8)
    (hbuf : Line buf) (hls : ∀ l ∈ ls, Line l) (hnl : ∀ piece ∈ pieces, 10 ∈ piece)
    (h : buf ++ pieces.flatten = text ls) : grepLoop re buf pieces = selected re ls := by
  induction pieces generalizing buf ls with
  | nil =>
    cases ls with
    | nil => rfl
    | cons l ls =>
      refine absurd hbuf.newline ?_
      simp only [List.flatten_nil, List.append_nil] at h
      simp [h]
  | cons piece pieces ih =>
    obtain ⟨hpiece, hnl⟩ := List.forall_mem_cons.mp hnl
    rw [List.flatten_cons, ← List.append_assoc] at h
    have hnul : 0 ∉ buf ++ piece := fun h0 =>
      nul_text hls (h ▸ List.mem_append_left _ h0)
    obtain ⟨ls₁, p, hdata, hls₁, hp⟩ := exists_lines _ hnul
    rw [hdata, List.append_assoc] at h
    obtain ⟨ls₂, rfl, hrest⟩ := text_split hls₁ hls h
    have hls₁ne : ls₁ ≠ [] := by
      rintro rfl
      have hmem := List.mem_append_right buf hpiece
      rw [hdata] at hmem
      exact hp.newline hmem
    rw [grepLoop_cons re (List.ne_nil_of_mem hpiece) hdata hls₁ hp, if_neg hls₁ne,
      ih hp (fun l hl => hls l (List.mem_append_right _ hl)) hnl hrest]
    simp [selected]

theorem length_selected (re : List UInt8) (ls : List (List UInt8)) :
    (selected re ls).length ≤ (text ls).length := by
  induction ls with
  | nil => exact Nat.le_refl _
  | cons l ls ih =>
    simp only [selected, List.filter_cons] at ih ⊢
    split <;> simp only [text_cons, List.length_append, List.length_cons] <;> omega

/-- What is written is no more than what was read; less, if some read
brought no newline. -/
theorem length_grepLoop (re : List UInt8)
    (hbuf : Line buf) (hne : ∀ piece ∈ pieces, piece ≠ []) (h : 0 ∉ pieces.flatten) :
    (grepLoop re buf pieces).length ≤ buf.length + pieces.flatten.length ∧
      ((∃ piece ∈ pieces, 10 ∉ piece) →
        (grepLoop re buf pieces).length < buf.length + pieces.flatten.length) := by
  induction pieces generalizing buf with
  | nil => simp [grepLoop]
  | cons piece pieces ih =>
    obtain ⟨hpiece, hne⟩ := List.forall_mem_cons.mp hne
    rw [List.flatten_cons, List.mem_append, not_or] at h
    obtain ⟨ls, p, hdata, hls, hp⟩ := exists_lines (buf ++ piece) (by simp [hbuf.nul, h.1])
    have hlen : buf.length + piece.length = (text ls).length + p.length := by
      rw [← List.length_append, hdata, List.length_append]
    have hsel := length_selected re ls
    have hpos := List.length_pos_iff.mpr hpiece
    rw [grepLoop_cons re hpiece hdata hls hp]
    simp only [List.flatten_cons, List.length_append]
    split
    · have := (ih (⟨nofun, nofun⟩ : Line []) hne h.2).1
      rw [List.length_nil] at this
      subst_vars
      simp only [text_nil, List.length_nil] at hlen hsel
      omega
    · next hcons =>
      obtain ⟨hle, hlt⟩ := ih hp hne h.2
      refine ⟨by omega, ?_⟩
      rintro ⟨q, hq, h10⟩
      rcases List.mem_cons.mp hq with rfl | hq
      · obtain ⟨l, ls, rfl⟩ := List.exists_cons_of_ne_nil hcons
        have : 10 ∈ buf ++ q := by simp [hdata]
        simp [hbuf.newline, h10] at this
      · have := hlt ⟨q, hq, h10⟩
        omega

/-- **`grep` is right for the splits whose pieces all hold a newline**, and
for no other. -/
theorem grep_split_iff (hls : ∀ l ∈ ls, Line l)
    (hne : ∀ piece ∈ pieces, piece ≠ []) (h : pieces.flatten = text ls) :
    (∀ re, grep re pieces = selected re ls) ↔ ∀ piece ∈ pieces, 10 ∈ piece := by
  constructor
  · intro hall piece hp
    by_contra h10
    have hlt := (length_grepLoop [] (⟨nofun, nofun⟩ : Line []) hne (h ▸ nul_text hls)).2
      ⟨piece, hp, h10⟩
    have hself : selected [] ls = text ls := by
      -- the empty pattern matches every line
      rw [selected, List.filter_eq_self.mpr]
      rintro (_ | _) _ <;> simp [matchRe, matchLoop, matchhere]
    rw [← grep, hall [], hself, h] at hlt
    simp at hlt
  · intro hnl re
    exact grepLoop_selected re ⟨nofun, nofun⟩ hls hnl h

/-- Two lines that arrive in two pieces. -/
theorem grep_split_two : grep [98] [[97, 98, 10, 99], [98, 10]] = text [[97, 98], [99, 98]] :=
  have hnul : ∀ l ∈ [[97, 98], [99, 98]], (0 : UInt8) ∉ l := by decide
  have hnl : ∀ l ∈ [[97, 98], [99, 98]], (10 : UInt8) ∉ l := by decide
  (grep_split_iff (fun l hl => ⟨hnul l hl, hnl l hl⟩) (by decide) (by decide)).mpr (by decide) _

/-- **A line that arrives in two pieces is lost**, though it matches; in
one piece it is written. -/
theorem grep_loses_line : matchRe [97] [97, 98] = true ∧
    grep [97] [[97], [98, 10]] = [] ∧ grep [97] [[97, 98, 10]] = [97, 98, 10] := by
  decide

end Xv6.User.Grep
