/-
Xv6.Lib.Path — lists linked through a table of successors, over an
arbitrary type of nodes.

`Path next p l q`: from `p` on, following `next`, the nodes of `l` come
one after the other, and then `q`. A circular list through `b` is a path
from `b` to `b`; it can be read from any of its nodes (`Path.rotate`). The
table changes at one node when a node is put after it or taken out behind
it (`Path.insert`, `Path.remove`), and elsewhere than on the path without
effect (`Path.update`).

With a second table for the way back the list is doubly linked (`Dlist`);
`Dlist.unlink` and `Dlist.push` are the two changes to both tables at once.

A loop over such a list is a function of the number of turns it may take.
`Yields f r` says that `f` returns `r` as soon as it may take enough of
them, and nothing else before. `seek` is the loop that follows `next` to
the first node that passes a test (`Path.seek`, `Path.seek_find`,
`Path.seek_yields`).
-/
import Mathlib.Data.List.Nodup

namespace Xv6.Lib

open Function

variable {α : Type} {next : α → α} {p q b x y : α} {l l' s t : List α}

/-- Following `next` from `p`, the nodes of `l`, and then `q`. -/
def Path (next : α → α) : α → List α → α → Prop
  | p, [], q => p = q
  | p, x :: l, q => p = x ∧ Path next (next x) l q

namespace Path

theorem append : Path next p (l ++ l') q ↔ ∃ m, Path next p l m ∧ Path next m l' q := by
  induction l generalizing p with
  | nil => simp [Path]
  | cons x l ih => simp [Path, ih, and_assoc]

theorem next_eq (h : Path next p (s ++ x :: t) q) : next x = (t ++ [q]).head (by simp) := by
  obtain ⟨m, -, -, h⟩ := append.mp h
  cases t with
  | nil => exact h
  | cons y t => exact h.1

theorem rotate (h : Path next b (s ++ x :: t) b) : Path next x (x :: (t ++ s)) x := by
  obtain ⟨m, h1, h2⟩ := append.mp h
  have hm : m = x := h2.1
  subst hm
  exact ⟨rfl, append.mpr ⟨b, h2.2, h1⟩⟩

theorem update [DecidableEq α] {v : α} (h : Path next p l q) (hx : x ∉ l) :
    Path (Function.update next x v) p l q := by
  induction l generalizing p with
  | nil => exact h
  | cons y l ih =>
    rw [List.mem_cons, not_or] at hx
    refine ⟨h.1, ?_⟩
    rw [update_of_ne (Ne.symm hx.1)]
    exact ih h.2 hx.2

theorem insert [DecidableEq α] (h : Path next p (s ++ x :: t) q) (hn : (s ++ x :: t).Nodup)
    (hy : y ∉ s ++ x :: t) :
    Path (Function.update (Function.update next y (next x)) x y) p (s ++ x :: y :: t) q := by
  obtain ⟨m, h1, hm, h2⟩ := append.mp h
  rw [List.nodup_append, List.nodup_cons] at hn
  simp only [List.mem_append, List.mem_cons, not_or] at hy
  have hx : x ∉ s := fun hmem => hn.2.2 x hmem x List.mem_cons_self rfl
  refine append.mpr ⟨m, (h1.update hy.1).update hx, hm, ?_⟩
  rw [update_self]
  refine ⟨rfl, ?_⟩
  rw [update_of_ne hy.2.1, update_self]
  exact (h2.update hy.2.2).update hn.2.1.1

theorem remove [DecidableEq α] (h : Path next p (s ++ x :: y :: t) q)
    (hn : (s ++ x :: y :: t).Nodup) :
    Path (Function.update next x (next y)) p (s ++ x :: t) q := by
  obtain ⟨m, h1, hm, hy, h2⟩ := append.mp h
  rw [List.nodup_append, List.nodup_cons] at hn
  simp only [List.mem_cons, not_or] at hn
  have hx : x ∉ s := fun hmem => hn.2.2 x hmem x (.inl rfl) rfl
  refine append.mpr ⟨m, h1.update hx, hm, ?_⟩
  rw [update_self]
  exact h2.update hn.2.1.1.2

end Path

/-! ## Doubly linked lists -/

/-- A circular list through `h`: `next` leads through `l`, `prev` back. -/
structure Dlist (next prev : α → α) (h : α) (l : List α) : Prop where
  forward : Path next h (h :: l) h
  backward : Path prev h (h :: l.reverse) h
  nodup : (h :: l).Nodup

namespace Dlist

variable {prev : α → α} {h : α}

theorem symm (hd : Dlist next prev h l) : Dlist prev next h l.reverse :=
  ⟨hd.backward, by rw [List.reverse_reverse]; exact hd.forward, by simpa using hd.nodup⟩

theorem next_head (hd : Dlist next prev h l) : next h = (l ++ [h]).head (by simp) :=
  hd.forward.next_eq (s := [])

theorem next_eq (hd : Dlist next prev h (s ++ x :: t)) : next x = (t ++ [h]).head (by simp) :=
  hd.forward.next_eq (s := h :: s)

theorem prev_eq (hd : Dlist next prev h (s ++ x :: t)) :
    prev x = (s.reverse ++ [h]).head (by simp) := by
  have hs := hd.symm
  rw [List.reverse_append, List.reverse_cons, List.append_assoc] at hs
  exact hs.next_eq

variable [DecidableEq α]

theorem forward_unlink (hd : Dlist next prev h (s ++ x :: t)) :
    Path (Function.update next (prev x) (next x)) h (h :: (s ++ t)) h := by
  rw [hd.prev_eq]
  rcases List.eq_nil_or_concat s with rfl | ⟨s, y, rfl⟩
  · exact hd.forward.remove (s := []) hd.nodup
  · have hf := hd.forward
    have hn := hd.nodup
    rw [List.concat_append] at hf hn
    simpa using hf.remove (s := h :: s) hn

theorem unlink (hd : Dlist next prev h (s ++ x :: t)) :
    Dlist (Function.update next (prev x) (next x)) (Function.update prev (next x) (prev x)) h
      (s ++ t) := by
  refine ⟨hd.forward_unlink, ?_, hd.nodup.sublist (by simp)⟩
  have hs := hd.symm
  rw [List.reverse_append, List.reverse_cons, List.append_assoc] at hs
  rw [List.reverse_append]
  exact hs.forward_unlink

theorem push (hd : Dlist next prev h l) (hx : x ∉ h :: l) :
    Dlist (Function.update (Function.update next x (next h)) h x)
      (Function.update (Function.update prev x h) (next h) x) h (x :: l) := by
  have hxs : x ≠ h ∧ x ∉ l := by simpa using hx
  refine ⟨hd.forward.insert (s := []) hd.nodup hx, ?_, ?_⟩
  · rw [hd.next_head]
    have hb := hd.backward
    have hn := hd.symm.nodup
    cases l with
    | nil => simpa [hd.symm.next_head] using hb.insert (s := []) hn hx
    | cons c l =>
      have hc : prev c = h := hd.prev_eq (s := [])
      rw [List.reverse_cons] at hb hn
      have := hb.insert (s := h :: l.reverse) hn (by simpa [and_comm] using hx)
      simpa [hc] using this
  · have := hd.nodup
    simp only [List.nodup_cons, List.mem_cons, not_or] at this ⊢
    exact ⟨⟨Ne.symm hxs.1, this.1⟩, hxs.2, this.2⟩

end Dlist

/-! ## Bounded loops -/

/-- `f` returns `r` when it may take enough turns, and before that nothing. -/
def Yields {β : Type} (f : Nat → Option β) (r : β) : Prop :=
  ∃ N, ∀ n, f n = some r ∨ n < N ∧ f n = none

namespace Yields

variable {β γ : Type} {f : Nat → Option β} {r : β}

theorem returns (h : Yields f r) : ∃ N, ∀ n, N ≤ n → f n = some r := by
  obtain ⟨N, hN⟩ := h
  refine ⟨N, fun n hn => ?_⟩
  rcases hN n with h | ⟨hlt, -⟩
  · exact h
  · omega

theorem eq_of_eq_some (h : Yields f r) {n : Nat} {r' : β} (hr : f n = some r') : r' = r := by
  obtain ⟨N, hN⟩ := h
  rcases hN n with h | ⟨-, h⟩
  · rw [h] at hr
    exact (Option.some.inj hr).symm
  · rw [h] at hr
    cases hr

theorem const (r : β) : Yields (fun _ => some r) r := ⟨0, fun _ => .inl rfl⟩

theorem turn {g : Nat → Option β} (h : Yields f r) (h0 : g 0 = none)
    (hs : ∀ n, g (n + 1) = f n) : Yields g r := by
  obtain ⟨N, hN⟩ := h
  refine ⟨N + 1, fun n => ?_⟩
  cases n with
  | zero => exact .inr ⟨Nat.succ_pos _, h0⟩
  | succ n =>
    rw [hs]
    rcases hN n with h | ⟨hlt, h⟩
    · exact .inl h
    · exact .inr ⟨Nat.succ_lt_succ hlt, h⟩

theorem bind {g : Nat → β → Option γ} {t : γ} (h : Yields f r)
    (hg : Yields (fun n => g n r) t) : Yields (fun n => (f n).bind (g n)) t := by
  obtain ⟨N, hN⟩ := h
  obtain ⟨M, hM⟩ := hg
  refine ⟨max N M, fun n => ?_⟩
  rcases hN n with h | ⟨hlt, h⟩
  · simp only [h, Option.bind_some]
    rcases hM n with h' | ⟨hlt, h'⟩
    · exact .inl h'
    · exact .inr ⟨by omega, h'⟩
  · exact .inr ⟨by omega, by simp [h]⟩

theorem map (h : Yields f r) (g : β → γ) : Yields (fun n => (f n).map g) (g r) := by
  obtain ⟨N, hN⟩ := h
  refine ⟨N, fun n => ?_⟩
  rcases hN n with h | ⟨hlt, h⟩
  · exact .inl (by simp [h])
  · exact .inr ⟨hlt, by simp [h]⟩

end Yields

/-- Follow `next` to the first node that passes a test. -/
def seek (next : α → α) (test : α → Bool) : Nat → α → Option α
  | 0, _ => none
  | n + 1, p => if test p then some p else seek next test n (next p)

theorem Path.seek {test : α → Bool} (h : Path next p l q) (hx : x ∈ l)
    (htest : ∀ y ∈ l, test y = true ↔ y = x) : Yields (fun n => seek next test n p) x := by
  induction l generalizing p with
  | nil => cases hx
  | cons y l ih =>
    obtain ⟨rfl, h⟩ := h
    by_cases hp : p = x
    · refine (Yields.const x).turn rfl fun n => ?_
      rw [Lib.seek, if_pos ((htest p List.mem_cons_self).mpr hp), hp]
    · have hx' : x ∈ l := (List.mem_cons.mp hx).resolve_left (Ne.symm hp)
      refine (ih h hx' fun y hy => htest y (List.mem_cons_of_mem _ hy)).turn rfl fun n => ?_
      rw [Lib.seek, if_neg (mt (htest p List.mem_cons_self).mp hp)]

theorem Path.seek_yields {test : α → Bool} (h : Path next p l q) (hq : test q = true) :
    Yields (fun n => Lib.seek next test n p) ((l.find? test).getD q) := by
  induction l generalizing p with
  | nil =>
    obtain rfl : p = q := h
    exact (Yields.const _).turn rfl fun n => by simp [Lib.seek, hq]
  | cons x l ih =>
    obtain ⟨rfl, h⟩ := h
    by_cases ht : test p = true
    · exact (Yields.const _).turn rfl fun n => by simp [Lib.seek, ht]
    · rw [List.find?_cons_of_neg ht]
      exact (ih h).turn rfl fun n => by rw [Lib.seek, if_neg ht]

end Xv6.Lib
