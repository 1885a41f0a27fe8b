/-
Xv6.Sync.Console — `consoleintr` and `consoleread` of `console.c`, and the
machine of the console with any number of calls.

The three indices of `input` are `uint`s that run on and wrap; all
arithmetic on them is that of `UInt32`, as in the source. `getc` is
`kbdgetc` or `uartgetc`, and both give bytes until they give -1: a call of
`consoleintr` is given the bytes it gets.

`cons.lock` is held from the start of a call, or from the end of a `sleep`,
to the next `sleep` or the return. Such a stretch is one step. The calls of
`consoleread` are numbered in the order they are made. A call sleeps on
`&input.r`; every call asleep there is woken by the `wakeup` in
`consoleintr`, and one whose process is killed by `kill`. Whether the
process is killed is looked at in the stretch itself.

The echo to the screen (`consputc`) and the process listing have no effect
on `input` and are left out.
-/
import Xv6.Lib.Run
import Xv6.Lib.Ring

namespace Xv6.Sync

open Xv6.Lib

abbrev inputBuf : Nat := 128

/-- `C(x)`: Control-x. -/
def ctrl (x : Char) : UInt8 := x.toUInt8 - '@'.toUInt8

/-- `'\n'`. -/
def newline : UInt8 := '\n'.toUInt8

structure Input where
  buf : Nat → UInt8
  /-- Read index. -/
  r : UInt32 := 0
  /-- Write index. -/
  w : UInt32 := 0
  /-- Edit index. -/
  e : UInt32 := 0

/-- How a stretch of `consoleread` ends, with the `n` it has come to: a
return of `target - n`, a `sleep`, or the return of -1. -/
inductive ReadStop where
  | returns (n : Nat)
  | sleeps (n : Nat)
  | failed
  deriving DecidableEq

/-- What a stretch of `consoleread` does: the bytes it copies to `dst`,
what it leaves and how it ends. -/
structure Stretch (I : Type) where
  taken : List UInt8
  input : I
  stop : ReadStop

namespace Input

/-! ## `consoleintr` -/

/-- `input.buf[(input.e-1) % INPUT_BUF]`. -/
def last (i : Input) : UInt8 := i.buf ((i.e - 1).toNat % inputBuf)

/-- `input.e--`. -/
def backspace (i : Input) : Input := { i with e := i.e - 1 }

/-- `input.buf[input.e++ % INPUT_BUF] = c`. -/
def store (i : Input) (c : UInt8) : Input :=
  { i with
    buf := Function.update i.buf (i.e.toNat % inputBuf) c
    e := i.e + 1 }

theorem backspace_lt {i : Input} (h : i.e ≠ i.w) :
    (i.backspace.e - i.backspace.w).toNat < (i.e - i.w).toNat := by
  have h1 := i.e.toNat_lt
  have h2 := i.w.toNat_lt
  have hne : i.e.toNat ≠ i.w.toNat := fun hn => h (UInt32.toNat_inj.mp hn)
  simp only [backspace, UInt32.toNat_sub, UInt32.toNat_one]
  omega

/-- The loop of `C('U')`. -/
def killLine (i : Input) : Input :=
  if _h : i.e ≠ i.w ∧ i.last ≠ newline then killLine i.backspace else i
termination_by (i.e - i.w).toNat
decreasing_by exact backspace_lt _h.1

/-- `input.w = input.e`. -/
def commit (i : Input) : Input := { i with w := i.e }

/-- A byte goes into the ring, and with a newline, a ^D or the last free
cell the line is committed; whether it is. -/
def enter (i : Input) (c : UInt8) : Input × Bool :=
  let i := i.store c
  if c = newline ∨ c = ctrl 'D' ∨ i.e = i.r + 128 then (i.commit, true) else (i, false)

/-- One turn of the loop of `consoleintr`, and whether it calls
`wakeup(&input.r)`. -/
def key (i : Input) (c : UInt8) : Input × Bool :=
  if c = ctrl 'P' then (i, false)
  else if c = ctrl 'U' then (i.killLine, false)
  else if c = ctrl 'H' ∨ c = 0x7f then (if i.e ≠ i.w then i.backspace else i, false)
  else if c ≠ 0 ∧ i.e - i.r < 128 then i.enter (if c = '\r'.toUInt8 then newline else c)
  else (i, false)

/-- `consoleintr`, and whether it calls `wakeup(&input.r)`. -/
def consoleintr (i : Input) : List UInt8 → Input × Bool
  | [] => (i, false)
  | c :: cs =>
    let k := i.key c
    let rest := consoleintr k.1 cs
    (rest.1, k.2 || rest.2)

/-! ## `consoleread` -/

/-- `input.buf[input.r % INPUT_BUF]`. -/
def first (i : Input) : UInt8 := i.buf (i.r.toNat % inputBuf)

/-- `input.r++`. -/
def advance (i : Input) : Input := { i with r := i.r + 1 }

/-- `input.r--`. -/
def retreat (i : Input) : Input := { i with r := i.r - 1 }

/-- The loop of `consoleread` with `n` bytes to go, until the lock is given
up. -/
def consoleread (killed : Bool) (target : Nat) : Nat → Input → Stretch Input
  | 0, i => ⟨[], i, .returns 0⟩
  | n + 1, i =>
    if i.r = i.w then ⟨[], i, if killed then .failed else .sleeps (n + 1)⟩
    else if i.first = ctrl 'D' then
      -- a ^D that ends bytes already copied is put back for the next call
      ⟨[], if n + 1 < target then i.advance.retreat else i.advance, .returns (n + 1)⟩
    else if i.first = newline then ⟨[i.first], i.advance, .returns n⟩
    else
      let s := consoleread killed target n i.advance
      ⟨i.first :: s.taken, s.input, s.stop⟩

/-- The bytes between two indices. -/
def window (i : Input) (start stop : UInt32) : List UInt8 :=
  ringList i.buf inputBuf (start.toNat % inputBuf) (stop - start).toNat

/-- The bytes committed and not read yet. -/
def unread (i : Input) : List UInt8 := i.window i.r i.w

/-- The bytes that can still be edited. -/
def line (i : Input) : List UInt8 := i.window i.w i.e

end Input

/-! ## The machine -/

/-- What the two functions do to the state `I` they share. -/
structure Driver (I : Type) where
  consoleintr : I → List UInt8 → I × Bool
  consoleread : Bool → Nat → Nat → I → Stretch I

/-- The driver of the source. -/
def ringDriver : Driver Input := ⟨Input.consoleintr, Input.consoleread⟩

/-- A call that is inside `consoleread`, between two stretches. -/
structure ReadCall where
  target : Nat
  n : Nat
  asleep : Bool
  deriving DecidableEq

/-- The console and the calls of `consoleread`, by their numbers. -/
structure Console (I : Type) where
  input : I
  call : Nat → Option ReadCall
  /-- How many calls have been made. -/
  made : Nat

inductive ConsoleAct where
  /-- An interrupt, with the bytes `getc` gives. -/
  | intr (cs : List UInt8)
  /-- A new call. -/
  | read (killed : Bool) (n : Int)
  /-- A call that was woken goes on. -/
  | resume (killed : Bool) (c : Nat)
  deriving DecidableEq

/-- A byte that is copied to the caller, or a return of 0 to a caller that
asked for some. -/
inductive Item where
  | byte (b : UInt8)
  | eof
  deriving DecidableEq

/-- What a stretch gives to a caller who asked for `target` bytes. -/
def Stretch.items {I : Type} (target : Nat) (r : Stretch I) : List Item :=
  r.taken.map .byte ++ if r.stop = .returns target ∧ 0 < target then [.eof] else []

/-- What a committed byte is for the one who reads it. -/
def item (b : UInt8) : Item := if b = ctrl 'D' then .eof else .byte b

/-- A line ends here. -/
def Item.ends : Item → Bool
  | .byte b => b == newline
  | .eof => true

/-- Each item of a stream with the number of its line. -/
def numbered : Nat → List (Nat × Item) → List (Nat × Nat × Item)
  | _, [] => []
  | k, x :: l => (k, x) :: numbered (if x.2.ends then k + 1 else k) l

/-- The bytes given to one call are all of one line. -/
def OneLine (l : List (Nat × Item)) : Prop :=
  ∀ c k k' b b', (k, c, .byte b) ∈ numbered 0 l → (k', c, .byte b') ∈ numbered 0 l → k = k'

namespace Console

variable {I : Type} (d : Driver I)

/-- The call a step is a stretch of, its `target`, and what it does. -/
def stretch (s : Console I) : ConsoleAct → Option (Nat × Nat × Stretch I)
  | .intr _ => none
  | .read killed n => some (s.made, n.toNat, d.consoleread killed n.toNat n.toNat s.input)
  | .resume killed c =>
    match s.call c with
    | none => none
    | some q =>
      if q.asleep && !killed then none
      else some (c, q.target, d.consoleread killed q.target q.n s.input)

def wakeup (s : Console I) : Console I :=
  { s with call := fun c => (s.call c).map fun q => { q with asleep := false } }

/-- A stretch of the call `c`. -/
def runRead (s : Console I) (c target : Nat) (r : Stretch I) : Console I :=
  { s with
    input := r.input
    call := Function.update s.call c
      (match r.stop with
        | .sleeps n => some ⟨target, n, true⟩
        | _ => none) }

def runIntr (s : Console I) (r : I × Bool) : Console I :=
  let s := { s with input := r.1 }
  if r.2 then s.wakeup else s

def next (s : Console I) : ConsoleAct → Option (Console I)
  | .intr cs => some (s.runIntr (d.consoleintr s.input cs))
  | .read killed n =>
    (s.stretch d (.read killed n)).map fun x =>
      { s.runRead x.1 x.2.1 x.2.2 with made := s.made + 1 }
  | .resume killed c =>
    (s.stretch d (.resume killed c)).map fun x => s.runRead x.1 x.2.1 x.2.2

/-- What a step gives to callers, with the number of the call. -/
def delivered (s : Console I) (a : ConsoleAct) : List (Nat × Item) :=
  match s.stretch d a with
  | none => []
  | some x => (x.2.2.items x.2.1).map (x.1, ·)

/-- All that is given to callers, in the order it is given. -/
def deliveries (tr : List (Console I × ConsoleAct)) : List (Nat × Item) :=
  tr.flatMap fun e => e.1.delivered d e.2

/-- The bytes a step commits: those that `input.w` passes. -/
def committed (s : Console Input) : ConsoleAct → List UInt8
  | .intr cs =>
    let i := (s.input.consoleintr cs).1
    i.window s.input.w i.w
  | _ => []

/-- All bytes committed, in order. -/
def committedBytes (tr : List (Console Input × ConsoleAct)) : List UInt8 :=
  tr.flatMap fun e => e.1.committed e.2

/-- The process that runs is not killed. -/
def Unkilled (_ : Console I) : ConsoleAct → Prop
  | .intr _ => True
  | .read killed _ => killed = false
  | .resume killed _ => killed = false

/-- While there is something to read, no call runs if another one is
asleep that has already copied some bytes. -/
def Undisturbed (s : Console Input) (a : ConsoleAct) : Prop :=
  s.input.r ≠ s.input.w → ∀ x, s.stretch ringDriver a = some x →
    ∀ c q, c ≠ x.1 → s.call c = some q → q.n = q.target

/-- Nothing is typed and nobody is in a call. -/
structure New (s : Console Input) : Prop where
  read : s.input.r = s.input.w
  edit : s.input.e = s.input.w
  idle : ∀ c, s.call c = none

end Console

end Xv6.Sync
