/-
Xv6.Sync.ConsoleTheorems — the line discipline of the console.

What `input` stands for is two lists: the bytes committed and not read
yet, and the line that is being edited (`Tty`). `Input.tty` reads the ring
that way, and both functions of the driver do on the ring what the
functions of `Tty` do on the lists (`consoleintr_tty`,
`consoleread_tty`), however often the indices wrap. The machine over the
ring therefore delivers what the machine over the lists delivers
(`outputs_tty`).

* `console_line_discipline`: in every run, what was delivered followed by
  what is not read yet is what was committed; each call gets bytes of one
  line only, provided that no call takes bytes while another one sleeps in
  the middle of a line.
* `console_two_lines`: without that, a call that sleeps after a full ring
  of one line goes on in the next one.
-/
import Xv6.Sync.Console

namespace Xv6.Sync

open Xv6.Lib

variable {l : List (Nat × Item)} {xs : List Item} {c c' k made n target : Nat}
  {x : Item} {q : ReadCall} {r : Stretch Tty} {tr : List (Console Input × ConsoleAct)}
  {queue : List UInt8}

/-! ## The two lists -/

/-- What the console is for: a queue of committed bytes, and a line. -/
structure Tty where
  queue : List UInt8
  line : List UInt8
  deriving DecidableEq

namespace Tty

/-- A byte is put at the end of the line. -/
def enter (t : Tty) (c : UInt8) : Tty × Bool :=
  if c = newline ∨ c = ctrl 'D' ∨ t.queue.length + t.line.length + 1 = inputBuf then
    (⟨t.queue ++ (t.line ++ [c]), []⟩, true)
  else ({ t with line := t.line ++ [c] }, false)

def key (t : Tty) (c : UInt8) : Tty × Bool :=
  if c = ctrl 'P' then (t, false)
  else if c = ctrl 'U' then ({ t with line := [] }, false)
  else if c = ctrl 'H' ∨ c = 0x7f then ({ t with line := t.line.dropLast }, false)
  else if c ≠ 0 ∧ t.queue.length + t.line.length < inputBuf then
    t.enter (if c = '\r'.toUInt8 then newline else c)
  else (t, false)

def consoleintr (t : Tty) : List UInt8 → Tty × Bool
  | [] => (t, false)
  | c :: cs =>
    let k := t.key c
    let rest := consoleintr k.1 cs
    (rest.1, k.2 || rest.2)

/-- Bytes are taken off the queue, up to the end of a line. -/
def consoleread (killed : Bool) (target : Nat) : Nat → Tty → Stretch Tty
  | 0, t => ⟨[], t, .returns 0⟩
  | n + 1, ⟨[], line⟩ => ⟨[], ⟨[], line⟩, if killed then .failed else .sleeps (n + 1)⟩
  | n + 1, ⟨c :: queue, line⟩ =>
    if c = ctrl 'D' then
      ⟨[], if n + 1 < target then ⟨c :: queue, line⟩ else ⟨queue, line⟩, .returns (n + 1)⟩
    else if c = newline then ⟨[c], ⟨queue, line⟩, .returns n⟩
    else
      let s := consoleread killed target n ⟨queue, line⟩
      ⟨c :: s.taken, s.input, s.stop⟩

end Tty

/-- The driver over the two lists. -/
def listDriver : Driver Tty := ⟨Tty.consoleintr, Tty.consoleread⟩

/-! ## The ring as two lists -/

namespace Input

variable {i : Input}

@[simp] theorem length_window (i : Input) (a b : UInt32) :
    (i.window a b).length = (b - a).toNat := by
  simp [window]

@[simp] theorem window_self (i : Input) (a : UInt32) : i.window a a = [] := by
  simp [window]

theorem length_unread (i : Input) : i.unread.length = (i.w - i.r).toNat := length_window i _ _

theorem length_line (i : Input) : i.line.length = (i.e - i.w).toNat := length_window i _ _

/-- The ring holds no more than it has cells, and a newline is committed
at once. -/
structure Ok (i : Input) : Prop where
  bound : i.unread.length + i.line.length ≤ inputBuf
  plain : newline ∉ i.line

/-- The ring as a queue and a line. -/
def tty (i : Input) : Tty := ⟨i.unread, i.line⟩

theorem ne_write_iff : i.e ≠ i.w ↔ i.line ≠ [] := by
  have h1 := i.e.toNat_lt
  have h2 := i.w.toNat_lt
  rw [← List.length_pos_iff_ne_nil, length_line, ne_eq, ← UInt32.toNat_inj, UInt32.toNat_sub]
  omega

theorem eq_write_iff : i.r = i.w ↔ i.unread = [] := by
  have h1 := i.r.toNat_lt
  have h2 := i.w.toNat_lt
  rw [← List.length_eq_zero_iff, length_unread, ← UInt32.toNat_inj, UInt32.toNat_sub]
  omega

/-- Two windows that meet are one, unless they are longer than the indices
can count. -/
theorem window_append {a b c : UInt32} (h : (b - a).toNat + (c - b).toNat ≤ inputBuf) :
    i.window a c = i.window a b ++ i.window b c := by
  have h1 := a.toNat_lt
  have h2 := b.toNat_lt
  have h3 := c.toNat_lt
  have hlen : (c - a).toNat = (b - a).toNat + (c - b).toNat := by
    simp only [UInt32.toNat_sub, inputBuf] at h ⊢
    omega
  have hmeet : (a.toNat % inputBuf + (b - a).toNat) % inputBuf = b.toNat % inputBuf := by
    simp only [UInt32.toNat_sub, inputBuf]
    omega
  rw [window, hlen, ringList_append, hmeet]
  rfl

theorem Ok.room (h : i.Ok) : (i.e - i.r).toNat = i.unread.length + i.line.length := by
  have hb := h.bound
  rw [length_unread, length_line] at hb
  have := congrArg List.length (window_append (i := i) hb)
  simpa [length_unread, length_line] using this

/-! ### `input.e--` -/

@[simp] theorem backspace_unread (i : Input) : i.backspace.unread = i.unread := rfl

theorem backspace_line (h : i.e ≠ i.w) : i.line = i.backspace.line ++ [i.last] := by
  have h1 := i.e.toNat_lt
  have h2 := i.w.toNat_lt
  have hne : i.e.toNat ≠ i.w.toNat := fun hn => h (UInt32.toNat_inj.mp hn)
  have hlen : (i.e - i.w).toNat = (i.e - 1 - i.w).toNat + 1 := by
    simp only [UInt32.toNat_sub, UInt32.toNat_one]
    omega
  have hcell : (i.w.toNat % inputBuf + (i.e - 1 - i.w).toNat) % inputBuf
      = (i.e - 1).toNat % inputBuf := by
    simp only [UInt32.toNat_sub, UInt32.toNat_one, inputBuf]
    omega
  rw [line, window, hlen, ringList_succ, hcell]
  rfl

theorem Ok.backspace (h : i.Ok) (hne : i.e ≠ i.w) : i.backspace.Ok := by
  have hl := backspace_line hne
  have hb := h.bound
  have hp := h.plain
  rw [hl] at hb hp
  simp only [List.length_append, List.length_singleton, List.mem_append, not_or] at hb hp
  exact ⟨by rw [backspace_unread]; omega, hp.1⟩

theorem backspace_tty (hne : i.e ≠ i.w) :
    i.backspace.tty = { i.tty with line := i.line.dropLast } := by
  rw [backspace_line hne, List.dropLast_concat]
  rfl

theorem killLine_eq (h : newline ∉ i.line) : i.killLine = { i with e := i.w } := by
  fun_induction killLine i with
  | case1 i hgo ih =>
    rw [backspace_line hgo.1] at h
    rw [ih fun hm => h (List.mem_append_left _ hm)]
    rfl
  | case2 i hstop =>
    -- the loop does not stop at a newline, for there is none
    have he : i.e = i.w := by
      by_contra hne
      apply hstop
      refine ⟨hne, ?_⟩
      intro hlast
      rw [backspace_line hne, hlast] at h
      simp at h
    exact congrArg (fun e => { i with e := e }) he

/-! ### Storing and committing -/

theorem store_unread (h : i.Ok) (hroom : i.unread.length + i.line.length < inputBuf) (c : UInt8) :
    (i.store c).unread = i.unread := by
  have h1 := i.e.toNat_lt
  have h2 := i.w.toNat_lt
  have h3 := i.r.toNat_lt
  have hcell : i.e.toNat % inputBuf
      = (i.r.toNat % inputBuf + (i.unread.length + i.line.length)) % inputBuf := by
    rw [← h.room]
    simp only [UInt32.toNat_sub, inputBuf]
    omega
  simp only [unread, window, store]
  rw [hcell]
  exact ringList_update_past _ _ (by rw [← length_unread]; omega) hroom

theorem store_line (hroom : i.line.length < inputBuf) (c : UInt8) :
    (i.store c).line = i.line ++ [c] := by
  have h1 := i.e.toNat_lt
  have h2 := i.w.toNat_lt
  rw [length_line] at hroom
  have hlen : (i.e + 1 - i.w).toNat = (i.e - i.w).toNat + 1 := by
    simp only [UInt32.toNat_sub, UInt32.toNat_add, UInt32.toNat_one, inputBuf] at hroom ⊢
    omega
  have hcell : i.e.toNat % inputBuf
      = (i.w.toNat % inputBuf + (i.e - i.w).toNat) % inputBuf := by
    simp only [UInt32.toNat_sub, inputBuf]
    omega
  simp only [line, window, store]
  rw [hlen, hcell, ringList_push _ _ hroom]

@[simp] theorem commit_line (i : Input) : i.commit.line = [] := window_self i _

theorem commit_unread (h : i.unread.length + i.line.length ≤ inputBuf) :
    i.commit.unread = i.unread ++ i.line := by
  rw [length_unread, length_line] at h
  exact window_append h

/-! ### `input.r++` -/

@[simp] theorem advance_line (i : Input) : i.advance.line = i.line := rfl

theorem advance_unread (h : i.r ≠ i.w) : i.unread = i.first :: i.advance.unread := by
  have h1 := i.r.toNat_lt
  have h2 := i.w.toNat_lt
  have hne : i.r.toNat ≠ i.w.toNat := fun hn => h (UInt32.toNat_inj.mp hn)
  have hlen : (i.w - i.r).toNat = (i.w - (i.r + 1)).toNat + 1 := by
    simp only [UInt32.toNat_sub, UInt32.toNat_add, UInt32.toNat_one]
    omega
  have hcell : (i.r.toNat % inputBuf + 1) % inputBuf = (i.r + 1).toNat % inputBuf := by
    simp only [UInt32.toNat_add, UInt32.toNat_one, inputBuf]
    omega
  rw [unread, window, hlen, ringList_pop, Nat.mod_mod, hcell]
  rfl

theorem Ok.advance (h : i.Ok) (hne : i.r ≠ i.w) : i.advance.Ok := by
  have hb := h.bound
  rw [advance_unread hne, List.length_cons] at hb
  exact ⟨by rw [advance_line]; omega, h.plain⟩

@[simp] theorem advance_retreat (i : Input) : i.advance.retreat = i := by
  simp [advance, retreat]

/-! ### The two functions -/

theorem Ok.erased (h : i.Ok) : ({ i with e := i.w } : Input).Ok := by
  have hl : ({ i with e := i.w } : Input).line = [] := window_self _ _
  refine ⟨?_, by simp [hl]⟩
  rw [hl]
  exact (Nat.le_add_right _ _).trans h.bound

theorem Ok.room_iff (h : i.Ok) :
    i.e - i.r < 128 ↔ i.unread.length + i.line.length < inputBuf := by
  rw [UInt32.lt_iff_toNat_lt, h.room]
  rfl

theorem Ok.full_iff (h : i.Ok) (hroom : i.unread.length + i.line.length < inputBuf) (c : UInt8) :
    (i.store c).e = (i.store c).r + 128 ↔ i.unread.length + i.line.length + 1 = inputBuf := by
  have h1 := i.e.toNat_lt
  have h2 := i.r.toNat_lt
  rw [← h.room] at hroom ⊢
  simp only [store, ← UInt32.toNat_inj, UInt32.toNat_sub, UInt32.toNat_add, UInt32.toNat_one,
    UInt32.reduceToNat, inputBuf] at hroom ⊢
  omega

theorem Ok.store_tty (h : i.Ok) (hroom : i.unread.length + i.line.length < inputBuf) (c : UInt8) :
    (i.store c).tty = ⟨i.unread, i.line ++ [c]⟩ := by
  simp only [tty, store_unread h hroom, store_line (by omega : i.line.length < inputBuf)]

theorem Ok.commit_tty (h : i.Ok) (hroom : i.unread.length + i.line.length < inputBuf) (c : UInt8) :
    (i.store c).commit.tty = ⟨i.unread ++ (i.line ++ [c]), []⟩ := by
  have hs := h.store_tty hroom c
  simp only [tty, Tty.mk.injEq] at hs
  have hb : (i.store c).unread.length + (i.store c).line.length ≤ inputBuf := by
    rw [hs.1, hs.2, List.length_append, List.length_singleton]
    omega
  simp only [tty, commit_line, commit_unread hb, hs.1, hs.2]

theorem ok_iff : i.Ok ↔ i.tty.queue.length + i.tty.line.length ≤ inputBuf ∧ newline ∉ i.tty.line :=
  ⟨fun h => ⟨h.bound, h.plain⟩, fun h => ⟨h.1, h.2⟩⟩

theorem Ok.enter (h : i.Ok) (hroom : i.unread.length + i.line.length < inputBuf) (c : UInt8) :
    (i.enter c).1.Ok ∧ ((i.enter c).1.tty, (i.enter c).2) = i.tty.enter c := by
  have hfull := h.full_iff hroom c
  by_cases hc : c = newline ∨ c = ctrl 'D' ∨ i.unread.length + i.line.length + 1 = inputBuf
  · have hring : i.enter c = ((i.store c).commit, true) := if_pos (by rwa [hfull])
    have hlist : i.tty.enter c = (⟨i.unread ++ (i.line ++ [c]), []⟩, true) := if_pos hc
    rw [hring, hlist, ok_iff, h.commit_tty hroom c]
    refine ⟨⟨?_, List.not_mem_nil⟩, rfl⟩
    simp only [List.length_append, List.length_singleton, List.length_nil]
    omega
  · have hring : i.enter c = (i.store c, false) := if_neg (by rwa [hfull])
    have hlist : i.tty.enter c = (⟨i.unread, i.line ++ [c]⟩, false) := if_neg hc
    rw [hring, hlist, ok_iff, h.store_tty hroom c]
    simp only [List.length_append, List.length_singleton, List.mem_append, List.mem_singleton,
      not_or, and_true]
    exact ⟨by omega, h.plain, fun hn => hc (.inl hn.symm)⟩

theorem Ok.key (h : i.Ok) (c : UInt8) :
    (i.key c).1.Ok ∧ ((i.key c).1.tty, (i.key c).2) = i.tty.key c := by
  unfold Input.key Tty.key
  split
  · exact ⟨h, rfl⟩
  split
  · rw [killLine_eq h.plain]
    refine ⟨h.erased, ?_⟩
    simp only [tty, line, window_self]
    rfl
  split
  · by_cases hne : i.e = i.w
    · have hl : i.line = [] := by
        by_contra hl
        exact ne_write_iff.mpr hl hne
      simp [hne, h, tty, hl]
    · simp only [ne_eq, hne, not_false_eq_true, if_true]
      exact ⟨h.backspace hne, by rw [backspace_tty hne]; rfl⟩
  have hroom := h.room_iff
  by_cases hc : c ≠ 0 ∧ i.e - i.r < 128
  · have hc' : c ≠ 0 ∧ i.tty.queue.length + i.tty.line.length < inputBuf :=
      ⟨hc.1, hroom.mp hc.2⟩
    rw [if_pos hc, if_pos hc']
    exact h.enter hc'.2 _
  · have hc' : ¬ (c ≠ 0 ∧ i.tty.queue.length + i.tty.line.length < inputBuf) :=
      fun h' => hc ⟨h'.1, hroom.mpr h'.2⟩
    rw [if_neg hc, if_neg hc']
    exact ⟨h, rfl⟩

theorem consoleintr_tty (h : i.Ok) (cs : List UInt8) :
    (i.consoleintr cs).1.Ok ∧
      ((i.consoleintr cs).1.tty, (i.consoleintr cs).2) = i.tty.consoleintr cs := by
  induction cs generalizing i with
  | nil => exact ⟨h, rfl⟩
  | cons c cs ih =>
    obtain ⟨hok, hkey⟩ := h.key c
    obtain ⟨hok', hrest⟩ := ih hok
    refine ⟨hok', ?_⟩
    simp only [consoleintr, Tty.consoleintr, ← hkey, ← hrest]

end Input

/-- What a stretch leaves, read as two lists. -/
def Stretch.tty (r : Stretch Input) : Stretch Tty := ⟨r.taken, r.input.tty, r.stop⟩

namespace Input

variable {i : Input}

theorem consoleread_tty (h : i.Ok) (killed : Bool) (target n : Nat) :
    (i.consoleread killed target n).input.Ok ∧
      (i.consoleread killed target n).tty = i.tty.consoleread killed target n := by
  induction n generalizing i with
  | zero => exact ⟨h, rfl⟩
  | succ n ih =>
    unfold consoleread
    split
    · next he =>
      refine ⟨h, ?_⟩
      simp only [tty, Stretch.tty, eq_write_iff.mp he, Tty.consoleread]
    rename_i hne
    have hq : i.tty = ⟨i.first :: i.advance.unread, i.line⟩ := by
      rw [tty, advance_unread hne]
    have hadv := h.advance hne
    rw [hq, Tty.consoleread]
    split
    · refine ⟨?_, ?_⟩
      · split
        · rwa [advance_retreat]
        · exact hadv
      · simp only [Stretch.tty, advance_retreat, apply_ite tty, hq]
        rfl
    split
    · exact ⟨hadv, rfl⟩
    · obtain ⟨hok, hrest⟩ := ih hadv
      refine ⟨hok, ?_⟩
      simp only [Stretch.tty, Stretch.mk.injEq] at hrest ⊢
      have heq : (⟨i.advance.unread, i.line⟩ : Tty) = i.advance.tty := rfl
      rw [heq, ← hrest]
      simp

end Input

/-! ## What an interrupt commits -/

theorem Tty.enter_queue (t : Tty) (c : UInt8) : t.queue <+: (t.enter c).1.queue := by
  unfold Tty.enter
  split
  · exact List.prefix_append _ _
  · exact List.prefix_rfl

theorem Tty.key_queue (t : Tty) (c : UInt8) : t.queue <+: (t.key c).1.queue := by
  unfold Tty.key
  split
  · exact List.prefix_rfl
  split
  · exact List.prefix_rfl
  split
  · exact List.prefix_rfl
  split
  · exact t.enter_queue _
  · exact List.prefix_rfl

theorem Tty.consoleintr_queue (t : Tty) (cs : List UInt8) :
    t.queue <+: (t.consoleintr cs).1.queue := by
  induction cs generalizing t with
  | nil => exact List.prefix_rfl
  | cons c cs ih => exact (t.key_queue c).trans (ih _)

namespace Input

variable {i : Input}

theorem killLine_r (i : Input) : i.killLine.r = i.r := by
  fun_induction killLine i with
  | case1 i hgo ih => exact ih
  | case2 i hstop => rfl

theorem enter_r (i : Input) (c : UInt8) : (i.enter c).1.r = i.r := by
  simp only [enter]
  split <;> rfl

theorem key_r (i : Input) (c : UInt8) : (i.key c).1.r = i.r := by
  unfold key
  simp only [apply_ite Prod.fst, apply_ite r, killLine_r, enter_r, backspace, ite_self]

theorem consoleintr_r (i : Input) (cs : List UInt8) : (i.consoleintr cs).1.r = i.r := by
  induction cs generalizing i with
  | nil => rfl
  | cons c cs ih => exact (ih _).trans (i.key_r c)

theorem consoleintr_unread (h : i.Ok) (cs : List UInt8) :
    (i.consoleintr cs).1.unread
      = i.unread ++ (i.consoleintr cs).1.window i.w (i.consoleintr cs).1.w := by
  obtain ⟨hok, htty⟩ := consoleintr_tty h cs
  have hr := i.consoleintr_r cs
  obtain ⟨more, hmore⟩ : i.unread <+: (i.consoleintr cs).1.unread := by
    have hq : (i.consoleintr cs).1.unread = (i.tty.consoleintr cs).1.queue :=
      congrArg (fun x => x.1.queue) htty
    rw [hq]
    exact i.tty.consoleintr_queue cs
  set i' := (i.consoleintr cs).1
  -- the window over both parts ends within one turn of the ring
  have hlen := congrArg List.length hmore
  have hb := hok.bound
  have hmeet : (i.w - i'.r).toNat + (i'.w - i.w).toNat ≤ inputBuf := by
    have h1 := i.w.toNat_lt
    have h2 := i'.w.toNat_lt
    have h3 := i'.r.toNat_lt
    rw [List.length_append, length_unread, length_unread, ← hr] at hlen
    rw [length_unread] at hb
    simp only [UInt32.toNat_sub, inputBuf] at hlen hb ⊢
    omega
  have hcut : i'.unread = i'.window i'.r i.w ++ i'.window i.w i'.w := window_append hmeet
  rw [hcut] at hmore
  have hsame : i.unread = i'.window i'.r i.w := by
    refine List.append_inj_left hmore ?_
    rw [length_unread, length_window, hr]
  rw [hcut, ← hsame]

/-- What a key that takes bytes back leaves: the committed bytes, and an
edit index that has not gone back beyond them. -/
structure Keeps (i i' : Input) : Prop where
  r : i'.r = i.r
  w : i'.w = i.w
  unread : i'.unread = i.unread
  edit : i'.e - i'.w ≤ i.e - i.w

theorem Keeps.rfl : Keeps i i := ⟨Eq.refl _, Eq.refl _, Eq.refl _, UInt32.le_refl _⟩

theorem keeps_backspace (i : Input) : i.Keeps (if i.e ≠ i.w then i.backspace else i) := by
  split
  · next hne =>
    have hlt := backspace_lt hne
    exact ⟨Eq.refl _, Eq.refl _, Eq.refl _, UInt32.le_iff_toNat_le.mpr hlt.le⟩
  · exact .rfl

theorem Ok.keeps (h : i.Ok) {c : UInt8} (hc : c ∈ [ctrl 'H', 0x7f, ctrl 'U']) :
    i.Keeps (i.key c).1 := by
  simp only [List.mem_cons, List.not_mem_nil, or_false] at hc
  rcases hc with rfl | rfl | rfl
  · exact keeps_backspace i
  · exact keeps_backspace i
  · have hkill : (i.key (ctrl 'U')).1 = { i with e := i.w } := killLine_eq h.plain
    rw [hkill]
    refine ⟨Eq.refl _, Eq.refl _, Eq.refl _, UInt32.le_iff_toNat_le.mpr ?_⟩
    simp

end Input

/-! ## What a stretch takes -/

/-- A stretch of a call that asked for `target` bytes and has `n` to go:
what it gives its caller it takes off the front of the queue, and it goes
no further than the end of a line. -/
structure Reads (target n : Nat) (queue : List UInt8) (r : Stretch Tty) : Prop where
  items : queue.map item = r.items target ++ r.input.queue.map item
  plain : newline ∉ r.taken.dropLast
  asleep : ∀ m, r.stop = .sleeps m → newline ∉ r.taken ∧ m + r.taken.length = n
  count : ∀ m, r.stop = .returns m → m + r.taken.length = n

theorem Reads.mark (h : Reads target n queue r) (hn : n ≤ target) (hstop : r.stop = .returns target)
    : r.taken = [] := by
  have := h.count _ hstop
  exact List.length_eq_zero_iff.mp (by omega)

theorem Reads.plain_items (h : Reads target n queue r) (hn : n ≤ target) :
    ∀ x ∈ (r.items target).dropLast, x.ends = false := by
  unfold Stretch.items
  split
  · next hstop =>
    rw [h.mark hn hstop.1]
    simp
  · intro x hx
    rw [List.append_nil, ← List.map_dropLast] at hx
    obtain ⟨b, hb, rfl⟩ := List.mem_map.mp hx
    have hne : b ≠ newline := fun heq => h.plain (heq ▸ hb)
    simpa [Item.ends] using hne

theorem Reads.asleep_items {m : Nat} (h : Reads target n queue r) (hm : r.stop = .sleeps m) :
    ∀ x ∈ r.items target, x.ends = false := by
  intro x hx
  simp only [Stretch.items, hm, reduceCtorEq, false_and, if_false, List.append_nil,
    List.mem_map] at hx
  obtain ⟨b, hb, rfl⟩ := hx
  have hne : b ≠ newline := fun heq => (h.asleep m hm).1 (heq ▸ hb)
  simpa [Item.ends] using hne

theorem item_of_ne {c : UInt8} (h : c ≠ ctrl 'D') : item c = .byte c := if_neg h

theorem consoleread_reads (killed : Bool) (hn : n ≤ target) (t : Tty) :
    Reads target n t.queue (t.consoleread killed target n) := by
  induction n generalizing t with
  | zero =>
    refine ⟨?_, by simp [Tty.consoleread], by simp [Tty.consoleread], by simp [Tty.consoleread]⟩
    by_cases ht : target = 0
    · simp [Tty.consoleread, Stretch.items, ht]
    · simp [Tty.consoleread, Stretch.items, Ne.symm ht]
  | succ n ih =>
    obtain ⟨queue, line⟩ := t
    cases queue with
    | nil => cases killed <;> constructor <;> simp [Tty.consoleread, Stretch.items]
    | cons c queue =>
      unfold Tty.consoleread
      split
      · next hc =>
        by_cases hlt : n + 1 < target
        · constructor <;> simp [Stretch.items, hlt, hlt.ne]
        · have heq : target = n + 1 := by omega
          subst heq
          constructor <;> simp [Stretch.items, item, hc]
      next hc =>
      split
      · next hnl =>
        have hne : n ≠ target := by omega
        constructor <;> simp [Stretch.items, item_of_ne hc, hne]
      rename_i hnl
      have h := ih (by omega) ⟨queue, line⟩
      set r := Tty.consoleread killed target n ⟨queue, line⟩
      -- the rest of the stretch does not come back to `target` bytes to go
      have hopen : r.stop ≠ .returns target := by
        intro hstop
        have := h.count _ hstop
        omega
      have hitems := h.items
      constructor
      · simp only [Stretch.items, hopen, false_and, if_false, List.append_nil,
          List.map_cons, List.cons_append, item_of_ne hc] at hitems ⊢
        rw [hitems]
      · have hplain := h.plain
        show newline ∉ (c :: r.taken).dropLast
        cases htaken : r.taken with
        | nil => simp
        | cons b bs =>
          rw [htaken] at hplain
          simpa [Ne.symm hnl] using hplain
      · intro m hm
        obtain ⟨hplain, hlen⟩ := h.asleep m hm
        simp only [List.mem_cons, not_or, List.length_cons]
        exact ⟨⟨Ne.symm hnl, hplain⟩, by omega⟩
      · intro m hm
        have := h.count m hm
        simp only [List.length_cons]
        omega

/-! ## The numbers of lines -/

/-- How many lines end in a stream. -/
def ended (l : List (Nat × Item)) : Nat := l.countP (·.2.ends)

theorem numbered_append (k : Nat) (l l' : List (Nat × Item)) :
    numbered k (l ++ l') = numbered k l ++ numbered (k + ended l) l' := by
  induction l generalizing k with
  | nil => rfl
  | cons x l ih =>
    have hk : k + ended (x :: l) = (if x.2.ends then k + 1 else k) + ended l := by
      simp only [ended, List.countP_cons]
      split <;> omega
    rw [List.cons_append, numbered, ih, numbered, hk, List.cons_append]

theorem numbered_of_plain (h : ∀ x ∈ l.dropLast, x.2.ends = false) :
    ∀ y ∈ numbered k l, y.1 = k := by
  induction l generalizing k with
  | nil => simp [numbered]
  | cons x l ih =>
    intro y hy
    simp only [numbered, List.mem_cons] at hy
    rcases hy with rfl | hy
    · rfl
    · cases l with
      | nil => simp [numbered] at hy
      | cons z l =>
        simp only [List.dropLast_cons_cons, List.mem_cons, forall_eq_or_imp] at h
        rw [h.1] at hy
        exact ih h.2 y hy

theorem mem_of_mem_numbered {y : Nat × Nat × Item} (h : y ∈ numbered k l) : y.2 ∈ l := by
  induction l generalizing k with
  | nil => simp [numbered] at h
  | cons x l ih =>
    simp only [numbered, List.mem_cons] at h
    rcases h with rfl | h
    · exact List.mem_cons_self
    · exact List.mem_cons_of_mem _ (ih h)

namespace Console

/-! ## What a step can do -/

variable {I : Type} {d : Driver I} {s s' : Console I} {a : ConsoleAct}

/-- A stretch that a step can be, of a call `c` with `n` of `target` bytes
to go: a new call, or one that was asleep. -/
inductive Runs (s : Console I) : Nat → Nat → Nat → Nat → Prop
  | starts (n : Nat) : Runs s s.made n n (s.made + 1)
  | resumes {c : Nat} {q : ReadCall} : s.call c = some q → Runs s c q.target q.n s.made

/-- The steps of the machine. -/
inductive Step (d : Driver I) (s : Console I) (a : ConsoleAct) : Console I → Prop
  | intr (cs : List UInt8) : a = .intr cs → s.stretch d a = none →
      Step d s a (s.runIntr (d.consoleintr s.input cs))
  | read (killed : Bool) {c target n made : Nat} : Runs s c target n made →
      (∀ cs, a ≠ .intr cs) →
      s.stretch d a = some (c, target, d.consoleread killed target n s.input) →
      Step d s a
        { s.runRead c target (d.consoleread killed target n s.input) with made := made }

theorem step_of_next (h : s.next d a = some s') : s.Step d a s' := by
  cases a with
  | intr cs =>
    cases h
    exact .intr cs rfl rfl
  | read killed n =>
    cases h
    exact .read killed (.starts n.toNat) (by simp) rfl
  | resume killed c =>
    obtain ⟨x, hx, rfl⟩ := Option.map_eq_some_iff.mp h
    cases hq : s.call c with
    | none => simp [stretch, hq] at hx
    | some q =>
      have hgo : x = (c, q.target, d.consoleread killed q.target q.n s.input) := by
        simp only [stretch, hq, Option.ite_none_left_eq_some, Option.some.injEq] at hx
        exact hx.2.symm
      subst hgo
      exact .read killed (.resumes hq) (by simp) hx

@[simp] theorem runIntr_input (s : Console I) (r : I × Bool) : (s.runIntr r).input = r.1 := by
  unfold runIntr
  split <;> rfl

@[simp] theorem runIntr_made (s : Console I) (r : I × Bool) : (s.runIntr r).made = s.made := by
  unfold runIntr
  split <;> rfl

theorem runIntr_call {r : I × Bool} (h : (s.runIntr r).call c = some q) :
    ∃ q', s.call c = some q' ∧ q'.target = q.target ∧ q'.n = q.n := by
  unfold runIntr at h
  split at h
  · obtain ⟨q', hq', rfl⟩ := Option.map_eq_some_iff.mp h
    exact ⟨q', hq', rfl, rfl⟩
  · exact ⟨q, h, rfl, rfl⟩

/-- A call that is asleep after a stretch of `c` is `c`, or was asleep
before. -/
theorem runRead_call {r : Stretch I} (h : (s.runRead c target r).call c' = some q) :
    (c' = c ∧ q.target = target ∧ r.stop = .sleeps q.n) ∨ (c' ≠ c ∧ s.call c' = some q) := by
  by_cases hcc : c' = c
  · subst hcc
    simp only [runRead, Function.update_self] at h
    split at h
    · next m hm =>
      cases h
      exact .inl ⟨rfl, rfl, hm⟩
    · cases h
  · simp only [runRead, Function.update_of_ne hcc] at h
    exact .inr ⟨hcc, h⟩

/-! ## The machine over the two lists -/

/-- The ring read as two lists. -/
def tty (s : Console Input) : Console Tty := ⟨s.input.tty, s.call, s.made⟩

section Refine

variable {s : Console Input} {a : ConsoleAct}

theorem stretch_tty (h : s.input.Ok) (a : ConsoleAct) :
    s.tty.stretch listDriver a
      = (s.stretch ringDriver a).map fun x => (x.1, x.2.1, x.2.2.tty) := by
  cases a with
  | intr cs => rfl
  | read killed n =>
    have hr := (Input.consoleread_tty h killed n.toNat n.toNat).2
    simp only [stretch, ringDriver, Option.map_some, hr]
    rfl
  | resume killed c =>
    have hcall : s.tty.call c = s.call c := rfl
    simp only [stretch, hcall]
    cases s.call c with
    | none => rfl
    | some q =>
      simp only [apply_ite (Option.map _), Option.map_none, Option.map_some]
      congr 4
      exact (Input.consoleread_tty h killed _ _).2.symm

theorem runIntr_tty (s : Console Input) (r : Input × Bool) :
    (s.runIntr r).tty = s.tty.runIntr (r.1.tty, r.2) := by
  unfold runIntr
  cases r.2 <;> rfl

theorem next_tty (h : s.input.Ok) (a : ConsoleAct) :
    s.tty.next listDriver a = (s.next ringDriver a).map tty := by
  cases a with
  | intr cs =>
    simp only [next, Option.map_some, Option.some.injEq, runIntr_tty]
    exact congrArg s.tty.runIntr (Input.consoleintr_tty h cs).2.symm
  | read | resume =>
    simp only [next, stretch_tty h, Option.map_map]
    rfl

theorem delivered_tty (h : s.input.Ok) (a : ConsoleAct) :
    s.tty.delivered listDriver a = s.delivered ringDriver a := by
  unfold delivered
  rw [stretch_tty h]
  cases s.stretch ringDriver a <;> rfl

theorem ok_next {s' : Console Input} (h : s.input.Ok) (hs : s.next ringDriver a = some s') :
    s'.input.Ok := by
  cases step_of_next hs with
  | intr cs ha hx =>
    rw [runIntr_input]
    exact (Input.consoleintr_tty h cs).1
  | read killed hr ha hx => exact (Input.consoleread_tty h killed _ _).1

end Refine

/-- What is delivered when the actions are taken one after the other. -/
def outputs (d : Driver I) (s : Console I) : List ConsoleAct → Option (List (Nat × Item))
  | [] => some []
  | a :: as =>
    match s.next d a with
    | none => none
    | some s' => (outputs d s' as).map (s.delivered d a ++ ·)

theorem run_outputs {as : List ConsoleAct} (h : outputs d s as = some l) :
    ∃ tr s', Run (next d) s tr s' ∧ tr.map Prod.snd = as ∧ deliveries d tr = l := by
  induction as generalizing s l with
  | nil =>
    cases h
    exact ⟨[], s, .nil, rfl, rfl⟩
  | cons a as ih =>
    unfold outputs at h
    split at h
    · cases h
    rename_i s₁ hs
    obtain ⟨l', hl', rfl⟩ := Option.map_eq_some_iff.mp h
    obtain ⟨tr, s', hrun, has, hdel⟩ := ih hl'
    refine ⟨(s, a) :: tr, s', .cons hs hrun, by simp [has], ?_⟩
    simp [deliveries, ← hdel]

/-- **The ring delivers what the lists deliver.** -/
theorem outputs_tty {s : Console Input} (h : s.input.Ok) (as : List ConsoleAct) :
    outputs ringDriver s as = outputs listDriver s.tty as := by
  induction as generalizing s with
  | nil => rfl
  | cons a as ih =>
    unfold outputs
    rw [next_tty h, delivered_tty h]
    cases hs : s.next ringDriver a with
    | none => rfl
    | some s' =>
      simp only [Option.map_some]
      rw [ih (ok_next h hs)]

/-! ## Lines -/

section Lines

variable {s : Console Input} {l : List (Nat × Item)}

/-- The calls inside `consoleread` have numbers given out before, and have
not more bytes to go than they asked for. -/
def Bounded (s : Console I) : Prop :=
  ∀ c q, s.call c = some q → c < s.made ∧ q.n ≤ q.target

theorem Runs.le {s : Console I} (h : Runs s c target n made) (hs : s.Bounded) : n ≤ target := by
  cases h with
  | starts => exact le_rfl
  | resumes hq => exact (hs _ _ hq).2

theorem Runs.lt {s : Console I} (h : Runs s c target n made) (hs : s.Bounded) :
    c < made ∧ s.made ≤ made := by
  cases h with
  | starts => exact ⟨by omega, by omega⟩
  | resumes hq => exact ⟨(hs _ _ hq).1, le_rfl⟩

theorem reads (h : s.input.Ok) (killed : Bool) (hn : n ≤ target) :
    Reads target n s.input.unread (s.input.consoleread killed target n).tty := by
  rw [(Input.consoleread_tty h killed target n).2]
  exact consoleread_reads killed hn s.input.tty

/-- What the calls have been given so far: each call is on one line, a
call that is asleep on the one that has not ended yet. -/
structure Lines (l : List (Nat × Item)) (s : Console Input) : Prop where
  oneLine : OneLine l
  current : ∀ c q, s.call c = some q → ∀ k b, (k, c, .byte b) ∈ numbered 0 l → k = ended l
  untouched : ∀ c q, s.call c = some q → q.n = q.target → ∀ x, (c, x) ∉ l
  fresh : ∀ c, s.made ≤ c → ∀ x, (c, x) ∉ l

/-- The call a stretch is of has been given nothing but bytes of the line
that has not ended yet. -/
theorem Lines.of_runs (h : Lines l s) (hr : Runs s c target n made) :
    ∀ k b, (k, c, .byte b) ∈ numbered 0 l → k = ended l := by
  cases hr with
  | starts =>
    intro k b hb
    exact absurd (mem_of_mem_numbered hb) (h.fresh s.made le_rfl _)
  | resumes hq => exact h.current _ _ hq

/-- A call that a stretch leaves asleep, with as many bytes to go as it
asked for, has been given nothing. -/
theorem Lines.untouched_of_runs (h : Lines l s) (hr : Runs s c target n made) (hn : n = target) :
    ∀ x, (c, x) ∉ l := by
  cases hr with
  | starts => exact h.fresh s.made le_rfl
  | resumes hq => exact h.untouched _ _ hq hn

theorem mem_numbered_of_ne (hne : c' ≠ c) (h : (k, c', x) ∈ numbered 0 (l ++ xs.map (c, ·))) :
    (k, c', x) ∈ numbered 0 l := by
  rw [numbered_append, List.mem_append] at h
  rcases h with h | h
  · exact h
  · obtain ⟨y, -, hy⟩ := List.mem_map.mp (mem_of_mem_numbered h)
    exact absurd (congrArg Prod.fst hy).symm hne

theorem not_mem_append_of_ne (hne : c' ≠ c) (h : (c', x) ∉ l) : (c', x) ∉ l ++ xs.map (c, ·) := by
  intro hmem
  rcases List.mem_append.mp hmem with hmem | hmem
  · exact h hmem
  · obtain ⟨y, -, hy⟩ := List.mem_map.mp hmem
    exact hne (congrArg Prod.fst hy).symm

/-- A call that goes on in the line that has not ended yet stays in it, if
at most the last item it is given ends the line. -/
theorem current_append (hc : ∀ k b, (k, c, .byte b) ∈ numbered 0 l → k = ended l)
    (hxs : ∀ x ∈ xs.dropLast, x.ends = false) :
    ∀ k b, (k, c, .byte b) ∈ numbered 0 (l ++ xs.map (c, ·)) → k = ended l := by
  intro k b hk
  rw [numbered_append, Nat.zero_add, List.mem_append] at hk
  rcases hk with hk | hk
  · exact hc k b hk
  · refine numbered_of_plain ?_ _ hk
    intro x hx
    rw [← List.map_dropLast] at hx
    obtain ⟨y, hy, rfl⟩ := List.mem_map.mp hx
    exact hxs y hy

theorem oneLine_append (h : OneLine l) (hc : ∀ k b, (k, c, .byte b) ∈ numbered 0 l → k = ended l)
    (hxs : ∀ x ∈ xs.dropLast, x.ends = false) : OneLine (l ++ xs.map (c, ·)) := by
  intro c' k k' b b' hk hk'
  by_cases hcc : c' = c
  · subst hcc
    rw [current_append hc hxs k b hk, current_append hc hxs k' b' hk']
  · exact h c' k k' b b' (mem_numbered_of_ne hcc hk) (mem_numbered_of_ne hcc hk')

/-- A stretch of one call, while no other call that has been given bytes
is asleep. -/
theorem Lines.read (h : Lines l s) (hb : s.Bounded) (hr : Runs s c target n made)
    {r : Stretch Input} (hreads : Reads target n s.input.unread r.tty)
    (halone : r.items target ≠ [] → ∀ c' q, c' ≠ c → s.call c' = some q → q.n = q.target) :
    Lines (l ++ (r.items target).map (c, ·)) { s.runRead c target r with made := made } := by
  have hn := hr.le hb
  have hplain : ∀ x ∈ (r.items target).dropLast, x.ends = false := hreads.plain_items hn
  have hown := h.of_runs hr
  refine ⟨oneLine_append h.oneLine hown hplain, ?_, ?_, ?_⟩
  · intro c' q hq k b hk
    rcases runRead_call hq with ⟨rfl, -, hstop⟩ | ⟨hne, hq'⟩
    · -- the line it went to sleep in has not ended
      have hnone : ended ((r.items target).map (c', ·)) = 0 := by
        rw [ended, List.countP_map, List.countP_eq_zero]
        intro x hx
        simpa using hreads.asleep_items hstop x hx
      have hsum : ended (l ++ (r.items target).map (c', ·)) = ended l := by
        rw [ended, List.countP_append]
        exact congrArg (ended l + ·) hnone
      rw [hsum]
      exact current_append hown hplain k b hk
    · have hk' := mem_numbered_of_ne hne hk
      by_cases hnil : r.items target = []
      · rw [hnil, List.map_nil, List.append_nil]
        exact h.current c' q hq' k b hk'
      · exact absurd (mem_of_mem_numbered hk')
          (h.untouched c' q hq' (halone hnil c' q hne hq') _)
  · intro c' q hq hnq x
    rcases runRead_call hq with ⟨rfl, htarget, hstop⟩ | ⟨hne, hq'⟩
    · have hlen := (hreads.asleep _ hstop).2
      have htaken : r.taken = [] := List.length_eq_zero_iff.mp (by
        simp only [Stretch.tty] at hlen
        omega)
      have hnil : r.items target = [] := by
        simp [Stretch.items, htaken, hstop]
      rw [hnil, List.map_nil, List.append_nil]
      simp only [Stretch.tty] at hlen
      exact h.untouched_of_runs hr (by omega) x
    · exact not_mem_append_of_ne hne (h.untouched c' q hq' hnq x)
  · intro c' hc' x
    obtain ⟨hlt, hle⟩ := hr.lt hb
    have hc'' : made ≤ c' := hc'
    exact not_mem_append_of_ne (by omega) (h.fresh c' (by omega) x)

theorem Lines.intr (h : Lines l s) (r : Input × Bool) : Lines l (s.runIntr r) := by
  refine ⟨h.oneLine, ?_, ?_, ?_⟩
  · intro c q hq
    obtain ⟨q', hq', -, -⟩ := runIntr_call hq
    exact h.current c q' hq'
  · intro c q hq hn
    obtain ⟨q', hq', htarget, hn'⟩ := runIntr_call hq
    exact h.untouched c q' hq' (by omega)
  · rw [runIntr_made]
    exact h.fresh

end Lines

/-! ## Whole runs -/

section Runs

variable {s₀ s s' : Console Input} {a : ConsoleAct}

/-- The ring holds no more than it can, and no call has more to go than it
asked for. -/
structure Inv (s : Console Input) : Prop where
  ok : s.input.Ok
  bounded : s.Bounded

theorem Inv.next (h : s.Inv) (hs : s.next ringDriver a = some s') : s'.Inv := by
  refine ⟨ok_next h.ok hs, ?_⟩
  intro c q hq
  cases step_of_next hs with
  | intr cs ha hx =>
    obtain ⟨q', hq', htarget, hn⟩ := runIntr_call hq
    rw [runIntr_made, ← htarget, ← hn]
    exact h.bounded c q' hq'
  | @read killed c' target n made hr ha hx =>
    obtain ⟨hlt, hle⟩ := hr.lt h.bounded
    rcases runRead_call hq with ⟨rfl, htarget, hstop⟩ | ⟨-, hq'⟩
    · have hn := hr.le h.bounded
      have hlen := ((reads h.ok killed hn).asleep _ hstop).2
      exact ⟨hlt, by omega⟩
    · obtain ⟨h1, h2⟩ := h.bounded c q hq'
      exact ⟨lt_of_lt_of_le h1 hle, h2⟩

theorem New.inv (h : s.New) : s.Inv := by
  have hu : s.input.unread = [] := Input.eq_write_iff.mp h.read
  have hl : s.input.line = [] := by
    rw [Input.line, h.edit, Input.window_self]
  refine ⟨⟨by simp [hu, hl], by simp [hl]⟩, ?_⟩
  intro c q hq
  rw [h.idle c] at hq
  cases hq

/-- What a step delivers it takes off the front of what is not read yet,
and what it commits it appends. -/
theorem stream_step (h : s.Inv) (hs : s.next ringDriver a = some s') :
    (s.delivered ringDriver a).map Prod.snd ++ s'.input.unread.map item
      = s.input.unread.map item ++ (s.committed a).map item := by
  cases step_of_next hs with
  | intr cs ha hx =>
    subst ha
    simp only [delivered, hx, List.map_nil, List.nil_append, runIntr_input, committed]
    rw [← List.map_append, ← Input.consoleintr_unread h.ok cs]
    rfl
  | read killed hr ha hx =>
    have hitems := (reads h.ok killed (hr.le h.bounded)).items
    have hnone : s.committed a = [] := by
      cases a with
      | intr cs => exact absurd rfl (ha cs)
      | read killed n => rfl
      | resume killed c => rfl
    simp only [delivered, hx, hnone, List.map_nil, List.append_nil, List.map_map]
    rw [hitems]
    simp only [Function.comp_def, List.map_id']
    rfl

theorem stream_run (h0 : s₀.New) (hrun : Run (next ringDriver) s₀ tr s) :
    (deliveries ringDriver tr).map Prod.snd ++ s.input.unread.map item
      = (committedBytes tr).map item := by
  induction hrun with
  | nil => simp [deliveries, committedBytes, Input.eq_write_iff.mp h0.read]
  | @snoc tr s s' a hr hs ih =>
    have hinv : s.Inv := hr.always h0.inv fun _ _ _ hi hst => hi.next hst
    have hstep := stream_step hinv hs
    simp only [deliveries, committedBytes, List.flatMap_append, List.flatMap_cons,
      List.flatMap_nil, List.append_nil, List.map_append] at ih ⊢
    rw [← ih, List.append_assoc, List.append_assoc, hstep]

theorem lines_step (hinv : s.Inv) (h : Lines l s) (halone : s.Undisturbed a)
    (hs : s.next ringDriver a = some s') : Lines (l ++ s.delivered ringDriver a) s' := by
  cases step_of_next hs with
  | intr cs ha hx =>
    simp only [delivered, hx, List.append_nil]
    exact h.intr _
  | @read killed c target n made hr ha hx =>
    have hreads := reads hinv.ok killed (hr.le hinv.bounded)
    simp only [delivered, hx]
    refine h.read hinv.bounded hr hreads ?_
    intro hitems c' q hne hq
    refine halone ?_ _ hx c' q hne hq
    -- nothing is given while there is nothing to read
    intro hempty
    have hnil := hreads.items
    rw [Input.eq_write_iff.mp hempty, List.map_nil] at hnil
    exact hitems (List.append_eq_nil_iff.mp hnil.symm).1

theorem lines_run (h0 : s₀.New) (hrun : Run (next ringDriver) s₀ tr s)
    (halone : Meets Undisturbed tr) : Lines (deliveries ringDriver tr) s := by
  refine Run.history (I := fun tr s => Lines (deliveries ringDriver tr) s) ?_ ?_ hrun halone
  · refine ⟨by simp [OneLine, deliveries, numbered], ?_, ?_, by simp [deliveries]⟩
    · intro c q hq
      rw [h0.idle c] at hq
      cases hq
    · simp [deliveries]
  · intro tr s a s' hr hl ha hs
    have hinv : s.Inv := hr.always h0.inv fun _ _ _ hi hst => hi.next hst
    simp only [deliveries, List.flatMap_append, List.flatMap_cons, List.flatMap_nil,
      List.append_nil]
    exact lines_step hinv hl ha hs

/-- **The line discipline of the console.** In every run the indices keep
their order and distance, backspace and kill-line take back nothing that
is committed, and what the callers are given is what was committed, in
order. The bytes one call is given are all of one line if no call takes
bytes while another one, that has already copied some, is asleep. -/
theorem console_line_discipline (h0 : s₀.New) {tr : List (Console Input × ConsoleAct)}
    (hrun : Run (next ringDriver) s₀ tr s) :
    (s.input.w - s.input.r ≤ s.input.e - s.input.r ∧ s.input.e - s.input.r ≤ 128) ∧
    (∀ c ∈ [ctrl 'H', 0x7f, ctrl 'U'], s.input.Keeps (s.input.key c).1) ∧
    (deliveries ringDriver tr).map Prod.snd ++ s.input.unread.map item
      = (committedBytes tr).map item ∧
    (Meets Undisturbed tr → OneLine (deliveries ringDriver tr)) := by
  have hinv : s.Inv := hrun.always h0.inv fun _ _ _ hi hst => hi.next hst
  refine ⟨⟨?_, ?_⟩, fun c hc => hinv.ok.keeps hc, stream_run h0 hrun, ?_⟩
  · rw [UInt32.le_iff_toNat_le, hinv.ok.room, Input.length_unread]
    exact Nat.le_add_right _ _
  · rw [UInt32.le_iff_toNat_le, hinv.ok.room]
    exact hinv.ok.bound
  · intro halone
    exact (lines_run h0 hrun halone).oneLine

/-- Indices about to wrap. -/
def wrapping : Console Input :=
  ⟨{ buf := fun _ => 0, r := 4294967295, w := 4294967295, e := 4294967295 }, fun _ => none, 0⟩

theorem console_line_discipline_wrapping : ∃ tr s,
    wrapping.New ∧ Run (next ringDriver) wrapping tr s ∧ Meets Undisturbed tr ∧
    deliveries ringDriver tr = [(0, .byte 'a'.toUInt8), (0, .byte newline)] ∧
    s.input.r = 1 ∧ OneLine (deliveries ringDriver tr) := by
  have h0 : wrapping.New := ⟨rfl, rfl, fun _ => rfl⟩
  have hrun : Run (next ringDriver) wrapping _ _ :=
    (Run.nil.snoc (a := .intr ['a'.toUInt8, newline]) rfl).snoc (a := .read false 10) rfl
  refine ⟨_, _, h0, hrun, ?alone, rfl, rfl, (console_line_discipline h0 hrun).2.2.2 ?alone⟩
  -- no call is asleep in either state
  rw [meets_snoc, meets_snoc]
  refine ⟨⟨meets_nil _, ?_⟩, ?_⟩
  · intro _ x hx
    cases hx
  · intro _ x hx c q hne hq
    cases hq

/-- `input` as `consoleinit` finds it. -/
def booted : Console Input := ⟨{ buf := fun _ => 0 }, fun _ => none, 0⟩

theorem booted_new : booted.New := ⟨rfl, rfl, fun _ => rfl⟩

/-- A full ring of one line is read by one call, and the rest of the line
by another one before the first goes on. -/
def interleaved : List ConsoleAct :=
  [.intr (List.replicate 128 'a'.toUInt8), .read false 200, .read false 10,
    .intr ['b'.toUInt8, newline], .resume false 1,
    .intr ['c'.toUInt8, newline], .resume false 0]

theorem outputs_interleaved : outputs listDriver booted.tty interleaved = some
    (List.replicate 128 (0, .byte 'a'.toUInt8) ++
      [(1, .byte 'b'.toUInt8), (1, .byte newline), (0, .byte 'c'.toUInt8),
        (0, .byte newline)]) := by
  decide +kernel

/-- A call is given bytes of two lines. -/
theorem console_two_lines : ∃ tr s, booted.New ∧ Run (next ringDriver) booted tr s ∧
    Meets Unkilled tr ∧ tr.map Prod.snd = interleaved ∧ ¬ OneLine (deliveries ringDriver tr) := by
  have hout := outputs_interleaved
  rw [← outputs_tty booted_new.inv.ok] at hout
  obtain ⟨tr, s, hrun, hacts, hdel⟩ := run_outputs hout
  refine ⟨tr, s, booted_new, hrun, ?_, hacts, ?_⟩
  · intro e he
    have hmem : e.2 ∈ interleaved := hacts ▸ List.mem_map_of_mem he
    have hall : ∀ a ∈ interleaved, Unkilled e.1 a := by simp [interleaved, Unkilled]
    exact hall _ hmem
  · rw [hdel]
    intro h
    exact absurd (h 0 0 1 'a'.toUInt8 'c'.toUInt8 (by decide +kernel) (by decide +kernel))
      (by decide)

end Runs

end Console

end Xv6.Sync
