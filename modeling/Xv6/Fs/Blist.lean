/-
Xv6.Fs.Blist — the list of `bcache`, with its pointers.

`Bio.lean` has the list as a list. Here are the links: `next` and `prev`
of every buffer and of `bcache.head`, the assignments of `binit` and
`brelse` in the source's order, and the two loops of `bget`, one along
`next` and one along `prev`. `c` is the cache of `Bio.lean`; its list is
kept beside the links and is not looked at. The links hold that list after
every step (`Holds`), so the loops of `bget` find what `Bcache.bget` finds
(`bget_eq`).

`flags` stands for what `iderw`, `bwrite` and `log_write` do between the
calls: they change `flags`, and nothing else that `bget` looks at.
-/
import Xv6.Fs.Bio
import Xv6.Lib.Fold
import Xv6.Lib.Path
import Mathlib.Data.Fintype.Card

namespace Xv6.Fs

open Xv6.Lib Function

/-- A buffer, or `&bcache.head`. -/
abbrev BufPtr := Option BufIdx

structure Links where
  next : BufPtr → BufPtr
  prev : BufPtr → BufPtr

namespace Links

/-- Put `b` behind `head`. -/
def push (l : Links) (b : BufPtr) : Links :=
  -- `b->next = head.next; b->prev = &head`
  let next := update l.next b (l.next none)
  let prev := update l.prev b none
  -- `head.next->prev = b; head.next = b`
  let prev := update prev (next none) b
  { next := update next none b, prev := prev }

/-- `b->next->prev = b->prev; b->prev->next = b->next`. -/
def unlink (l : Links) (b : BufPtr) : Links :=
  let prev := update l.prev (l.next b) (l.prev b)
  { next := update l.next (prev b) (l.next b), prev := prev }

/-- A loop from `f(&head)` to the first buffer that passes, or to `head`.
It has no result if `head` is not among the first `NBUF + 1` pointers. -/
def scan (f : BufPtr → BufPtr) (test : BufIdx → Bool) : Option BufPtr :=
  seek f (fun p => p.elim true test) (nbuf + 1) (f none)

end Links

/-- `bcache`. The last field is not in the source: the buffers whose count
a `brelse` took to 0, the latest first. -/
structure Blist where
  links : Links
  c : Bcache
  released : List BufIdx

inductive BlistCall where
  | bget (pid : Int) (dev blockno : Nat)
  | acquiresleep (w : Waiter)
  | brelse (pid : Int) (i : BufIdx)
  | flags (i : BufIdx) (valid dirty : Bool)

namespace Blist

def binit (disk : Nat → Block) (disksize : Nat) : Blist where
  links := (List.finRange nbuf).foldl (fun l i => l.push (some i))
    { next := fun _ => none, prev := fun _ => none }
  c := Fs.binit disk disksize
  released := []

def bget (s : Blist) (pid : Int) (dev blockno : Nat) : Option (Except Stop (Waiter × Blist)) := do
  match ← Links.scan s.links.next fun i =>
      (s.c.buf i).dev = dev ∧ (s.c.buf i).blockno = blockno with
  | some i =>
    let w := ⟨pid, i, blockno⟩
    return .ok (w, { s with
      c := (s.c.setBuf i fun b => { b with refcnt := b.refcnt + 1 }).setWaiting
        (w :: s.c.waiting) })
  | none =>
    match ← Links.scan s.links.prev fun i => (s.c.buf i).refcnt = 0 ∧ !(s.c.buf i).dirty with
    | some i =>
      let w := ⟨pid, i, blockno⟩
      return .ok (w, { s with
        c := (s.c.setBuf i fun b =>
          { b with
            dev := dev
            blockno := blockno
            valid := false
            dirty := false
            refcnt := 1 }).setWaiting (w :: s.c.waiting) })
    | none => return .error (.panic "bget: no buffers")

def brelse (s : Blist) (pid : Int) (i : BufIdx) : Except Stop Blist := do
  let c ← s.c.brelse pid i
  if (c.buf i).refcnt = 0 then
    return {
      links := (s.links.unlink (some i)).push (some i)
      c := c
      released := i :: s.released }
  else return { s with c := c }

def step (s : Blist) : BlistCall → Option Blist
  | .bget pid dev blockno => (s.bget pid dev blockno).bind fun r => r.toOption.map Prod.snd
  | .acquiresleep w =>
    if w ∈ s.c.waiting ∧ (s.c.buf w.buf).lock = none then
      some { s with
        c := (s.c.setBuf w.buf fun b => { b with lock := some w.pid }).setWaiting
          (s.c.waiting.erase w) }
    else none
  | .brelse pid i => (s.brelse pid i).toOption
  | .flags i valid dirty =>
    some { s with c := s.c.setBuf i fun b => { b with valid := valid, dirty := dirty } }

/-! ## The links -/

/-- The links hold the list, and the list is in order of release. -/
structure Holds (s : Blist) : Prop where
  ring : Dlist s.links.next s.links.prev none (s.c.lru.order.map some)
  recent : s.c.lru.order.Pairwise fun i j => s.released.idxOf i ≤ s.released.idxOf j

variable {s s' : Blist} {l : List BufPtr} {i : BufIdx} {x : BufPtr}
  {c c' : Bcache} {pid : Int} {k : Links}

theorem push_ring (h : Dlist k.next k.prev none l) (hx : x ∉ none :: l) :
    Dlist (k.push x).next (k.push x).prev none (x :: l) := by
  have hne : x ≠ none := fun h => hx (by simp [h])
  simpa [Links.push, update_of_ne hne.symm] using h.push hx

theorem unlink_ring {l' : List BufPtr} (h : Dlist k.next k.prev none (l ++ x :: l')) :
    Dlist (k.unlink x).next (k.unlink x).prev none (l ++ l') := by
  -- the first assignment is not to `b->prev`
  have hne : x ≠ k.next x := by
    rw [h.next_eq]
    have hn := h.nodup
    cases l' with
    | nil => rintro rfl; simp at hn
    | cons y l' => rintro rfl; simp [List.nodup_append] at hn
  simpa [Links.unlink, update_of_ne hne] using h.unlink

theorem Holds.nodup (h : Holds s) : s.c.lru.order.Nodup :=
  (List.nodup_cons.mp h.ring.nodup).2.of_map

theorem Holds.length (h : Holds s) : s.c.lru.order.length = nbuf := by
  rw [← List.toFinset_card_of_nodup h.nodup,
    Finset.eq_univ_of_forall fun i => List.mem_toFinset.mpr (s.c.lru.all i), Finset.card_fin]

theorem Holds.touch (h : Holds s) (hc : c.lru = s.c.lru.touch i) :
    Holds { links := (s.links.unlink (some i)).push (some i), c := c, released := i :: s.released }
    := by
  obtain ⟨as, bs, hor⟩ := List.append_of_mem (s.c.lru.all i)
  have hn := h.nodup
  have hmem : i ∉ as := by
    rw [hor, List.nodup_append] at hn
    exact fun hi => hn.2.2 i hi i List.mem_cons_self rfl
  have herase : s.c.lru.order.erase i = as ++ bs := by
    rw [hor, List.erase_append_right _ hmem, List.erase_cons_head]
  have horder : c.lru.order = i :: (as ++ bs) := by rw [hc, ← herase]; rfl
  refine ⟨?_, ?_⟩
  · have hr := h.ring
    rw [hor, List.map_append, List.map_cons] at hr
    rw [horder, List.map_cons, List.map_append]
    refine push_ring (unlink_ring hr) ?_
    rw [hor, List.nodup_middle, List.nodup_cons] at hn
    simpa [← List.map_append] using hn.1
  · have hne : ∀ j ∈ as ++ bs, (i :: s.released).idxOf j = s.released.idxOf j + 1 := by
      intro j hj
      refine List.idxOf_cons_ne _ ?_
      rintro rfl
      rw [← herase] at hj
      exact hn.not_mem_erase hj
    rw [horder, List.pairwise_cons]
    refine ⟨fun j _ => by simp, ?_⟩
    have hsub : (as ++ bs).Sublist s.c.lru.order := herase ▸ List.erase_sublist
    refine (h.recent.sublist hsub).imp_of_mem fun {j k} hj hk hle => ?_
    rw [hne j hj, hne k hk]
    exact Nat.succ_le_succ hle

end Blist

end Xv6.Fs
