/-
Xv6.User.UmallocTheorems — the integrity of the user heap.

The invariant `Linked` counts: every byte obtained from `sbrk` is in
exactly one block of the free list or of the program, and no other byte is
in any (`covers` against `owns`). Disjointness and covering of the blocks
are read off the count (`pairwise_disjoint`, `Good.sound`), and a step that
joins or cuts blocks keeps it because the bytes of a block are those of its
two parts (`toNat_holds_split`).

`free` is taken apart in three steps (`link_eq`): the block goes in after
its place (`Linked.insert`), takes up what comes after it and is taken up
by what comes before it (`Linked.join`). Which blocks of the list may meet
is followed through the steps with `Meet`; in the end none do (`Apart`).

`malloc` walks from `freep` once around (`Linked.search`). Either it finds
a block that is large enough, and takes it out or cuts its end off
(`Linked.take`, `Linked.cut`), or all are too small and `morecore` adds one
that is not (`Linked.morecore`), so that the second round finds it. Both
loops return with enough turns (`Yields`).

`heap_integrity` is for runs without huge requests. A request so large that
rounding it up to units wraps is served with a block that is too small
(`heap_integrity_wraps`).
-/
import Xv6.User.Umalloc
import Mathlib.Data.List.Perm.Basic

namespace Xv6.User.Umalloc

open Xv6.Lib Function

variable {l : List Nat} {nunits rest : Nat} {nbytes : UInt32}

namespace Arena

/-! ## Counting blocks -/

/-- The block at `a` holds the byte `x`. -/
def holds (s : Arena) (x a : Nat) : Bool := decide (a ≤ x) && decide (x < s.fin a)

/-- How many blocks of a list hold the byte `x`. -/
def covers (s : Arena) (l : List Nat) (x : Nat) : Nat := l.countP (s.holds x)

/-- The byte `x` was obtained from `sbrk`. -/
def owns (s : Arena) (x : Nat) : Bool :=
  s.obtained.any fun g => decide (g.1 ≤ x) && decide (x < g.1 + g.2)

variable {s s' : Arena} {a b x : Nat} {l l' : List Nat}

theorem holds_iff : s.holds x a = true ↔ a ≤ x ∧ x < s.fin a := by
  simp [holds]

theorem toNat_holds : (s.holds x a).toNat = if a ≤ x ∧ x < s.fin a then 1 else 0 := by
  simp only [← holds_iff]
  cases s.holds x a <;> rfl

/-- A block from `a` to `c`, and its two parts that meet at `b`; the sizes
may be written in different states. -/
theorem toNat_holds_split {s₁ s₂ : Arena} (h₁ : s₁.fin a = b) (h₂ : s₂.fin b = s.fin a)
    (x : Nat) :
    (s₁.holds x a).toNat + (s₂.holds x b).toNat = (s.holds x a).toNat := by
  have hab : a ≤ b := h₁ ▸ Nat.le_add_right _ _
  have hbc : b ≤ s.fin a := h₂ ▸ Nat.le_add_right _ _
  simp only [toNat_holds, h₁, h₂]
  split_ifs <;> omega

theorem mem_memory : x ∈ s.memory ↔ s.owns x = true := by
  simp [memory, owns]

@[simp] theorem covers_append (x : Nat) : s.covers (l ++ l') x = s.covers l x + s.covers l' x :=
  List.countP_append

theorem covers_cons (x : Nat) :
    s.covers (a :: l) x = s.covers l x + (s.holds x a).toNat := by
  rw [covers, List.countP_cons]
  cases s.holds x a <;> rfl

theorem covers_perm (h : l.Perm l') (x : Nat) : s.covers l x = s.covers l' x :=
  h.countP_eq _

theorem covers_congr (h : ∀ a ∈ l, s.size a = s'.size a) (x : Nat) :
    s.covers l x = s'.covers l x := by
  refine List.countP_congr fun a ha => ?_
  rw [holds, holds, fin, fin, h a ha]

theorem covers_pos (ha : a ∈ l) (hx : s.holds x a = true) : 0 < s.covers l x :=
  List.countP_pos_iff.mpr ⟨a, ha, hx⟩

theorem two_le_covers (ha : a ∈ l) (hb : b ∈ l) (hab : a ≠ b) (hxa : s.holds x a = true)
    (hxb : s.holds x b = true) : 2 ≤ s.covers l x := by
  have hb' : b ∈ l.erase a := (List.mem_erase_of_ne (Ne.symm hab)).mpr hb
  have hpos := covers_pos hb' hxb
  rw [covers_perm (List.perm_cons_erase ha), covers_cons, hxa]
  simp only [Bool.toNat_true]
  omega

/-! ## The invariant -/

/-- The free list, read from `base` on, is `L`, and the program holds
`live`: every byte that was obtained is in one block of the two, and no
other byte is. -/
structure Linked (s : Arena) (L live : List Nat) : Prop where
  head : ∃ free, L = s.base :: free
  circular : Path s.ptr s.base L s.base
  sorted : L.Pairwise (· < ·)
  roving : s.freep ∈ L
  empty : s.size s.base = 0
  pos : ∀ a ∈ L ++ live, a ≠ s.base → 0 < s.size a
  count : ∀ x, s.covers (L ++ live) x = (s.owns x).toNat
  range : ∀ x, s.owns x = true → s.base < x ∧ x < s.top
  above : ∀ a ∈ live, s.base < a
  below : s.base < s.top

namespace Linked

variable {L live : List Nat}

theorem nodup (h : Linked s L live) : L.Nodup := h.sorted.imp Nat.ne_of_lt

theorem base_le (h : Linked s L live) (ha : a ∈ L) : s.base ≤ a := by
  obtain ⟨free, rfl⟩ := h.head
  rcases List.mem_cons.mp ha with rfl | ha
  · exact le_rfl
  · exact (List.rel_of_pairwise_cons h.sorted ha).le

theorem base_mem (h : Linked s L live) : s.base ∈ L := by
  obtain ⟨free, rfl⟩ := h.head
  exact List.mem_cons_self

theorem head_append {xs ys : List Nat} (h : Linked s (xs ++ a :: ys) live) (zs : List Nat) :
    ∃ free, xs ++ a :: zs = s.base :: free := by
  obtain ⟨free, hfree⟩ := h.head
  cases xs with
  | nil =>
    cases hfree
    exact ⟨zs, rfl⟩
  | cons y xs =>
    cases hfree
    exact ⟨xs ++ a :: zs, rfl⟩

section
variable (h : Linked s L live)
include h

theorem holds_self (ha : a ∈ L ++ live) (hb : a ≠ s.base) : s.holds a a = true := by
  have := h.pos a ha hb
  simp only [holds_iff, fin, headerSize]
  omega

theorem covers_le (x : Nat) : s.covers (L ++ live) x ≤ 1 := by
  rw [h.count]
  exact Bool.toNat_le _

theorem owns_of_holds (ha : a ∈ L ++ live) (hx : s.holds x a = true) : s.owns x = true := by
  have hpos := covers_pos ha hx
  rw [h.count] at hpos
  by_contra hno
  rw [Bool.not_eq_true] at hno
  rw [hno] at hpos
  exact absurd hpos (by decide)

theorem fin_le (ha : a ∈ L ++ live) (hb : b ∈ L ++ live) (hab : a < b) : s.fin a ≤ b := by
  by_contra hlt
  have hxa : s.holds b a = true := holds_iff.mpr ⟨hab.le, by omega⟩
  have hbase : b ≠ s.base := by
    rintro rfl
    rcases List.mem_append.mp ha with ha | ha
    · exact absurd (h.base_le ha) (by omega)
    · exact absurd (h.above a ha) (by omega)
  have htwo := two_le_covers ha hb hab.ne hxa (h.holds_self hb hbase)
  have := h.covers_le b
  omega

theorem not_mem_live (ha : a ∈ L) : a ∉ live := by
  intro hlive
  have hne : a ≠ s.base := (h.above a hlive).ne'
  have hself := h.holds_self (List.mem_append_left _ ha) hne
  have h1 := covers_pos ha hself
  have h2 := covers_pos hlive hself
  have hle := h.covers_le a
  rw [covers_append] at hle
  omega

end

end Linked

/-! ## Putting a block into the free list -/

/-- `bp` goes in after `p`. -/
def insertAfter (s : Arena) (p bp : Nat) : Arena :=
  { s with ptr := update (update s.ptr bp (s.ptr p)) p bp }

/-- `a` takes up the block `b` behind it. -/
def join (s : Arena) (a b : Nat) : Arena :=
  { s with
    size := update s.size a (s.size a + s.size b)
    ptr := update s.ptr a (s.ptr b) }

theorem insertAfter_upper {p bp : Nat} (hp : p ≠ bp)
    (hup : s.fin bp = s.ptr p → s.ptr p ≠ p ∧ s.ptr p ≠ bp) :
    (if s.fin bp = s.ptr p then (s.insertAfter p bp).join bp (s.ptr p) else s.insertAfter p bp)
      = { s.linkUpper p bp with ptr := update (s.linkUpper p bp).ptr p bp } := by
  unfold linkUpper
  split
  · next hu =>
    obtain ⟨hnp, hnb⟩ := hup hu
    simp only [join, insertAfter, update_of_ne hnp, update_of_ne hnb]
    rw [update_comm hp.symm, update_idem, update_comm hp]
  · rfl

/-- What `free` does to the list, in three steps: `bp` goes in after `p`,
takes up what comes after it, and is taken up by `p`. -/
theorem link_eq {p bp : Nat} (hp : p ≠ bp)
    (hup : s.fin bp = s.ptr p → s.ptr p ≠ p ∧ s.ptr p ≠ bp) :
    (s.linkUpper p bp).linkLower p bp =
      let s₂ := if s.fin bp = s.ptr p then (s.insertAfter p bp).join bp (s.ptr p)
        else s.insertAfter p bp
      if s₂.fin p = bp then s₂.join p bp else s₂ := by
  rw [insertAfter_upper hp hup]
  simp only [linkLower, join, fin, update_of_ne hp.symm, update_idem]
  rfl

/-! ### The steps keep the list -/

variable {L live xs ys : List Nat} {p bp : Nat}

theorem Linked.rove (h : Linked s L live) (hp : p ∈ L) : Linked { s with freep := p } L live :=
  { h with roving := hp }

theorem Linked.insert (h : Linked s (xs ++ p :: ys) live) (hbp : bp ∈ live) (hlo : p < bp)
    (hhi : ∀ a ∈ ys, bp < a) :
    Linked (s.insertAfter p bp) (xs ++ p :: bp :: ys) (live.erase bp) := by
  have hnot : bp ∉ xs ++ p :: ys := fun hmem => h.not_mem_live hmem hbp
  have hperm : (xs ++ p :: bp :: ys ++ live.erase bp).Perm (xs ++ p :: ys ++ live) := by
    have h1 : (xs ++ p :: bp :: ys).Perm (bp :: (xs ++ p :: ys)) := by
      simpa using (List.perm_middle : (xs ++ [p] ++ bp :: ys).Perm (bp :: (xs ++ [p] ++ ys)))
    exact (h1.append_right _).trans
      (List.perm_middle.symm.trans ((List.perm_cons_erase hbp).symm.append_left _))
  constructor
  · exact h.head_append _
  · exact h.circular.insert h.nodup hnot
  · have hs := h.sorted
    simp only [List.pairwise_append, List.pairwise_cons, List.mem_cons, forall_eq_or_imp] at hs ⊢
    obtain ⟨hxs, ⟨hp, hys⟩, hcross⟩ := hs
    refine ⟨hxs, ⟨⟨hlo, hp⟩, hhi, hys⟩, ?_⟩
    intro a ha
    exact ⟨(hcross a ha).1, (hcross a ha).1.trans hlo, (hcross a ha).2⟩
  · have hr := h.roving
    simp only [List.mem_append, List.mem_cons] at hr ⊢
    exact hr.imp id (Or.imp id .inr)
  · exact h.empty
  · intro a ha
    exact h.pos a (hperm.mem_iff.mp ha)
  · intro x
    exact (covers_perm hperm x).trans (h.count x)
  · exact h.range
  · intro a ha
    exact h.above a (List.mem_of_mem_erase ha)
  · exact h.below

theorem Linked.join (h : Linked s (xs ++ a :: b :: ys) live) (hab : s.fin a = b)
    (hfreep : s.freep ≠ b) : Linked (s.join a b) (xs ++ a :: ys) live := by
  have hn := h.nodup
  have hsub : (xs ++ a :: ys).Sublist (xs ++ a :: b :: ys) :=
    (List.Sublist.refl xs).append ((List.sublist_cons_self b ys).cons_cons a)
  have hmema : a ∈ xs ++ a :: b :: ys := by simp
  have hmemb : b ∈ xs ++ a :: b :: ys := by simp
  have hlt : a < b := by
    have := (List.pairwise_append.mp h.sorted).2.1
    exact List.rel_of_pairwise_cons this List.mem_cons_self
  have hbase : a ≠ s.base := by
    rintro rfl
    rw [fin, h.empty] at hab
    omega
  -- the size of no other block changes
  have hother : ∀ c ∈ xs ++ ys ++ live, (s.join a b).size c = s.size c := by
    intro c hc
    refine update_of_ne ?_ _ _
    rintro rfl
    simp only [List.mem_append] at hc
    rw [List.nodup_append, List.nodup_cons] at hn
    rcases hc with (hc | hc) | hc
    · exact hn.2.2 c hc c List.mem_cons_self rfl
    · exact hn.2.1.1 (List.mem_cons_of_mem _ hc)
    · exact h.not_mem_live hmema hc
  constructor
  · exact h.head_append _
  · exact h.circular.remove hn
  · exact h.sorted.sublist hsub
  · have hr := h.roving
    simp only [List.mem_append, List.mem_cons] at hr ⊢
    rcases hr with hr | hr | hr | hr
    · exact .inl hr
    · exact .inr (.inl hr)
    · exact absurd hr hfreep
    · exact .inr (.inr hr)
  · exact (update_of_ne (Ne.symm hbase) _ _).trans h.empty
  · intro c hc hcb
    by_cases hca : c = a
    · subst hca
      have := h.pos c (List.mem_append_left _ hmema) hbase
      simp only [Arena.join, update_self]
      omega
    · have hc' : c ∈ xs ++ ys ++ live := by
        simp only [List.mem_append, List.mem_cons, hca, false_or] at hc ⊢
        exact hc
      rw [hother c hc']
      refine h.pos c ?_ hcb
      rcases List.mem_append.mp hc with hc | hc
      · exact List.mem_append_left _ (hsub.subset hc)
      · exact List.mem_append_right _ hc
  · intro x
    -- the bytes of the two are the bytes of the one
    have hfin : s.fin b = (s.join a b).fin a := by
      have hab' : a + 8 * s.size a = b := hab
      simp only [Arena.join, fin, headerSize, update_self]
      omega
    have hone := toNat_holds_split hab hfin x
    have hcount := h.count x
    simp only [covers_append, covers_cons] at hcount ⊢
    rw [← hone, covers_congr fun c hc => hother c (by simp [hc]),
      covers_congr (l := ys) fun c hc => hother c (by simp [hc]),
      covers_congr (l := live) fun c hc => hother c (by simp [hc])]
    rw [show (s.join a b).owns x = s.owns x from rfl]
    omega
  · exact h.range
  · exact h.above
  · exact h.below

/-! ### `free` -/

/-- Where blocks of the list meet, they are related by `R`. -/
def Meet (s : Arena) (L : List Nat) (R : Nat → Nat → Prop) : Prop :=
  ∀ a ∈ L, ∀ b ∈ L, a ≠ s.base → s.fin a = b → R a b

/-- No block of the list ends where another one of it starts. -/
def Apart (s : Arena) (L : List Nat) : Prop := s.Meet L fun _ _ => False

theorem Apart.congr (h : s.Apart l) (hbase : s'.base = s.base)
    (hsize : ∀ a ∈ l, s'.size a = s.size a) : s'.Apart l := by
  intro a ha b hb hab hfin
  rw [hbase] at hab
  rw [fin, hsize a ha] at hfin
  exact h a ha b hb hab hfin

theorem exists_place {n : Nat} (hn : n ∉ l) (hlo : ∃ a ∈ l, a < n) :
    ∃ xs p ys, l = xs ++ p :: ys ∧ p < n ∧ ∀ a ∈ ys, n < a := by
  induction l with
  | nil => simp at hlo
  | cons x l ih =>
    rw [List.mem_cons, not_or] at hn
    by_cases hl : ∃ a ∈ l, a < n
    · obtain ⟨xs, p, ys, rfl, hp, hys⟩ := ih hn.2 hl
      exact ⟨x :: xs, p, ys, rfl, hp, hys⟩
    · have hge : ∀ a ∈ l, n < a := by
        intro a ha
        have hne : a ≠ n := fun heq => hn.2 (heq ▸ ha)
        have hle : ¬ a < n := fun hlt => hl ⟨a, ha, hlt⟩
        omega
      obtain ⟨a, ha, han⟩ := hlo
      rcases List.mem_cons.mp ha with rfl | ha
      · exact ⟨[], a, l, rfl, han, hge⟩
      · exact absurd (hge a ha) (by omega)

/-- Along a sorted list the successor of a node is larger, but for the
last. -/
theorem Linked.next_cases (h : Linked s (xs ++ a :: ys) live) :
    (ys = [] ∧ s.ptr a = s.base) ∨ ∃ y zs, ys = y :: zs ∧ s.ptr a = y ∧ a < y := by
  have hnext := h.circular.next_eq
  cases ys with
  | nil => exact .inl ⟨rfl, hnext⟩
  | cons y zs =>
    have hs := (List.pairwise_append.mp h.sorted).2.1
    exact .inr ⟨y, zs, rfl, hnext, List.rel_of_pairwise_cons hs List.mem_cons_self⟩

theorem Linked.sorted_split (h : Linked s (xs ++ a :: ys) live) (hc : b ∈ xs ++ a :: ys) :
    b < a ∨ b = a ∨ b ∈ ys := by
  rcases List.mem_append.mp hc with hc | hc
  · exact .inl ((List.pairwise_append.mp h.sorted).2.2 b hc a List.mem_cons_self)
  · exact .inr (List.mem_cons.mp hc)

theorem Linked.next_le (h : Linked s L live) (ha : a ∈ L) (hb : b ∈ L) (hab : a < b) :
    a < s.ptr a ∧ s.ptr a ≤ b := by
  obtain ⟨us, vs, rfl⟩ := List.append_of_mem ha
  have hmem : b ∈ vs := by
    rcases h.sorted_split hb with hlt | heq | hmem
    · omega
    · omega
    · exact hmem
  rcases h.next_cases with ⟨rfl, -⟩ | ⟨y, zs, rfl, hy, hay⟩
  · cases hmem
  · rw [hy]
    refine ⟨hay, ?_⟩
    rcases List.mem_cons.mp hmem with rfl | hmem
    · exact le_rfl
    · have hs := (List.pairwise_append.mp h.sorted).2.1
      exact (List.rel_of_pairwise_cons hs.of_cons hmem).le

theorem Linked.stops_iff (h : Linked s (xs ++ p :: ys) live) (hbp : bp ∈ live) (hlo : p < bp)
    (hhi : ∀ a ∈ ys, bp < a) {c : Nat} (hc : c ∈ xs ++ p :: ys) :
    s.stops bp c = true ↔ c = p := by
  have hbase := h.above bp hbp
  have hle := h.base_le hc
  simp only [stops, Bool.or_eq_true, Bool.and_eq_true, decide_eq_true_eq]
  constructor
  · intro hstop
    by_contra hne
    obtain ⟨us, vs, hsplit⟩ := List.append_of_mem hc
    have hcases := (hsplit ▸ h).next_cases
    rcases h.sorted_split hc with hlt | heq | hgt
    · have hnext := h.next_le hc (by simp) hlt
      omega
    · exact hne heq
    · have := hhi c hgt
      rcases hcases with ⟨-, hlast⟩ | ⟨y, zs, -, hy, hcy⟩ <;> omega
  · rintro rfl
    rcases h.next_cases with ⟨-, hlast⟩ | ⟨y, zs, rfl, hy, -⟩
    · have := h.base_le hc
      omega
    · have := hhi y List.mem_cons_self
      omega

theorem Linked.lt_fin (h : Linked s L live) (ha : a ∈ L ++ live) (hb : a ≠ s.base) :
    a < s.fin a := (holds_iff.mp (h.holds_self ha hb)).2

theorem Linked.insert_meet (h : Linked s (xs ++ p :: ys) live) (hap : s.Apart (xs ++ p :: ys))
    (hbp : bp ∈ live) (hlo : p < bp) (hhi : ∀ a ∈ ys, bp < a) :
    (s.insertAfter p bp).Meet (xs ++ p :: bp :: ys) fun a b =>
      a = p ∧ b = bp ∨ a = bp ∧ b = s.ptr p := by
  have hbase := h.above bp hbp
  have hbpall : bp ∈ (xs ++ p :: ys) ++ live := List.mem_append_right _ hbp
  have hmem : ∀ a ∈ xs ++ p :: bp :: ys, a = bp ∨ a ∈ xs ++ p :: ys := by
    intro a ha
    simp only [List.mem_append, List.mem_cons] at ha ⊢
    rcases ha with ha | ha | ha | ha
    · exact .inr (.inl ha)
    · exact .inr (.inr (.inl ha))
    · exact .inl ha
    · exact .inr (.inr (.inr ha))
  intro a ha b hb hab hfin
  have hfin : s.fin a = b := hfin
  rcases hmem a ha with rfl | ha' <;> rcases hmem b hb with rfl | hb'
  · exact absurd hfin (h.lt_fin hbpall hab).ne'
  · -- what the block meets comes next
    refine .inr ⟨rfl, ?_⟩
    have hlt : a < b := hfin ▸ h.lt_fin hbpall hab
    obtain ⟨hnext, hle⟩ := h.next_le (by simp : p ∈ xs ++ p :: ys) hb' (hlo.trans hlt)
    rcases h.next_cases with ⟨-, hlast⟩ | ⟨y, zs, rfl, hy, -⟩
    · have := h.base_le (by simp : p ∈ xs ++ p :: ys)
      omega
    · have := h.fin_le hbpall (by simp : y ∈ (xs ++ p :: y :: zs) ++ live)
        (hhi y List.mem_cons_self)
      omega
  · -- what meets the block is just before it
    refine .inl ⟨?_, rfl⟩
    have hlt : a < b := hfin ▸ h.lt_fin (List.mem_append_left _ ha') hab
    rcases h.sorted_split ha' with hap' | heq | hys
    · have := h.fin_le (List.mem_append_left _ ha') (by simp : p ∈ (xs ++ p :: ys) ++ live) hap'
      omega
    · exact heq
    · have := hhi a hys
      omega
  · exact (hap a ha' b hb' hab hfin).elim

theorem join_meet {R : Nat → Nat → Prop} (h : s.Meet (xs ++ a :: b :: ys) R) (hab : s.fin a = b)
    (hb : b ≠ s.base) :
    (s.join a b).Meet (xs ++ a :: ys) fun c d => c ≠ a ∧ R c d ∨ c = a ∧ R b d := by
  have hsub : ∀ c ∈ xs ++ a :: ys, c ∈ xs ++ a :: b :: ys := by
    intro c hc
    simp only [List.mem_append, List.mem_cons] at hc ⊢
    exact hc.imp id (Or.imp id .inr)
  intro c hc d hd hbase hfin
  by_cases hca : c = a
  · subst hca
    refine .inr ⟨rfl, h b (by simp) d (hsub d hd) hb ?_⟩
    have hab' : c + 8 * s.size c = b := hab
    simp only [join, fin, headerSize, update_self] at hfin ⊢
    omega
  · refine .inl ⟨hca, h c (hsub c hc) d (hsub d hd) hbase ?_⟩
    simpa only [join, fin, update_of_ne hca] using hfin

theorem Linked.seek (h : Linked s (xs ++ p :: ys) live) (hbp : bp ∈ live) (hlo : p < bp)
    (hhi : ∀ a ∈ ys, bp < a) : Yields (fun n => seek s.ptr (s.stops bp) n s.freep) p := by
  obtain ⟨us, vs, hsplit⟩ := List.append_of_mem h.roving
  have hround : ∀ c, c ∈ s.freep :: (vs ++ us) ↔ c ∈ xs ++ p :: ys := by
    intro c
    rw [hsplit]
    simp only [List.mem_cons, List.mem_append]
    exact ⟨fun hc => by rcases hc with h | h | h <;> simp [h],
      fun hc => by rcases hc with h | h | h <;> simp [h]⟩
  have hpath := (hsplit ▸ h.circular).rotate
  refine hpath.seek ((hround p).mpr (by simp)) ?_
  intro c hc
  exact h.stops_iff hbp hlo hhi ((hround c).mp hc)

/-- What `free` leaves: a list with the block in it, possibly as a part of
one of its neighbours. -/
theorem Linked.link (h : Linked s (xs ++ p :: ys) live) (hap : s.Apart (xs ++ p :: ys))
    (hbp : bp ∈ live) (hlo : p < bp) (hhi : ∀ a ∈ ys, bp < a) (hfreep : s.freep = p) :
    ∃ L', Linked ((s.linkUpper p bp).linkLower p bp) L' (live.erase bp) ∧
      ((s.linkUpper p bp).linkLower p bp).Apart L' ∧
      ∃ a ∈ L', s.size bp ≤ ((s.linkUpper p bp).linkLower p bp).size a := by
  have hbase := h.above bp hbp
  have hple := h.base_le (by simp : p ∈ xs ++ p :: ys)
  have hfin := h.lt_fin (List.mem_append_right _ hbp) hbase.ne'
  have hup : s.fin bp = s.ptr p → ∃ zs, ys = s.ptr p :: zs ∧ bp < s.ptr p := by
    intro hu
    rcases h.next_cases with ⟨-, hlast⟩ | ⟨y, zs, rfl, hy, -⟩
    · omega
    · exact ⟨zs, by rw [hy], by rw [hy]; exact hhi y List.mem_cons_self⟩
  rw [link_eq hlo.ne fun hu => by obtain ⟨zs, -, hlt⟩ := hup hu; omega]
  have h₁ := h.insert hbp hlo hhi
  have hm₁ := h.insert_meet hap hbp hlo hhi
  -- after the first join only `p` and `bp` can meet
  obtain ⟨s₂, zs, hs₂, h₂, hm₂, hsize₂, hfreep₂, hbase₂⟩ : ∃ s₂ zs,
      (if s.fin bp = s.ptr p then (s.insertAfter p bp).join bp (s.ptr p) else s.insertAfter p bp)
        = s₂ ∧ Linked s₂ (xs ++ p :: bp :: zs) (live.erase bp) ∧
      s₂.Meet (xs ++ p :: bp :: zs) (fun a b => a = p ∧ b = bp) ∧ s.size bp ≤ s₂.size bp ∧
      s₂.freep = p ∧ s₂.base = s.base := by
    by_cases hu : s.fin bp = s.ptr p
    · obtain ⟨zs, rfl, hlt⟩ := hup hu
      have hshape : ∀ l, xs ++ p :: bp :: l = (xs ++ [p]) ++ bp :: l := by simp
      rw [hshape] at h₁ hm₁
      have hjoin := h₁.join (show (s.insertAfter p bp).fin bp = s.ptr p from hu)
        (by show s.freep ≠ _; omega)
      have hmeet := join_meet hm₁ (show (s.insertAfter p bp).fin bp = s.ptr p from hu)
        (by show _ ≠ s.base; omega)
      rw [← hshape] at hjoin hmeet
      refine ⟨_, zs, if_pos hu, hjoin, ?_, ?_, hfreep, rfl⟩
      · intro a ha b hb hab hfin
        rcases hmeet a ha b hb hab hfin with ⟨hne, ⟨rfl, rfl⟩ | ⟨rfl, -⟩⟩ | ⟨-, ⟨heq, -⟩ | ⟨heq, -⟩⟩
        · exact ⟨rfl, rfl⟩
        · exact absurd rfl hne
        · omega
        · omega
      · simp only [Arena.join, update_self]
        exact Nat.le_add_right _ _
    · refine ⟨_, ys, if_neg hu, h₁, ?_, le_rfl, hfreep, rfl⟩
      intro a ha b hb hab hfin
      rcases hm₁ a ha b hb hab hfin with heq | ⟨rfl, rfl⟩
      · exact heq
      · exact absurd hfin hu
  rw [hs₂]
  simp only
  by_cases hl : s₂.fin p = bp
  · rw [if_pos hl]
    refine ⟨_, h₂.join hl (by omega), ?_, p, by simp, ?_⟩
    · intro a ha b hb hab hfin
      rcases join_meet hm₂ hl (by omega) a ha b hb hab hfin with ⟨hne, rfl, -⟩ | ⟨-, heq, -⟩
      · exact hne rfl
      · omega
    · simp only [Arena.join, update_self]
      omega
  · rw [if_neg hl]
    refine ⟨_, h₂, ?_, bp, by simp, hsize₂⟩
    intro a ha b hb hab hmeet
    obtain ⟨rfl, rfl⟩ := hm₂ a ha b hb hab hmeet
    exact hl hmeet

theorem link_size (hap : a ≠ p) (habp : a ≠ bp) :
    ((s.linkUpper p bp).linkLower p bp).size a = s.size a := by
  unfold linkLower linkUpper
  split_ifs <;> simp [update_of_ne hap, update_of_ne habp]

theorem link_rove : { (s.linkUpper p bp).linkLower p bp with freep := p } =
    (({ s with freep := p } : Arena).linkUpper p bp).linkLower p bp := by
  unfold linkLower linkUpper
  split_ifs <;> first | rfl | contradiction

theorem link_base : ((s.linkUpper p bp).linkLower p bp).base = s.base ∧
    ((s.linkUpper p bp).linkLower p bp).answers = s.answers := by
  unfold linkLower linkUpper
  split_ifs <;> exact ⟨rfl, rfl⟩

/-- The state is in order, and the program holds `live`. -/
def Ready (s : Arena) (live : List Nat) : Prop := ∃ L, Linked s L live ∧ s.Apart L

/-- What a call does to the blocks it is not about: nothing. -/
structure Kept (s s' : Arena) (live : List Nat) : Prop where
  base : s'.base = s.base
  size : ∀ a ∈ live, s'.size a = s.size a

theorem Linked.free (h : Linked s L live) (hap : s.Apart L) (hbp : bp ∈ live) :
    ∃ s' L', Yields (fun n => s.free n (bp + headerSize)) s' ∧ Linked s' L' (live.erase bp) ∧
      s'.Apart L' ∧ (∃ a ∈ L', s.size bp ≤ s'.size a) ∧ s.Kept s' (live.erase bp) ∧
      s'.answers = s.answers := by
  have hnot : bp ∉ L := fun hmem => h.not_mem_live hmem hbp
  obtain ⟨xs, p, ys, rfl, hlo, hhi⟩ := exists_place hnot ⟨s.base, h.base_mem, h.above bp hbp⟩
  have hp : p ∈ xs ++ p :: ys := by simp
  obtain ⟨L', hL', hap', hbig⟩ := (h.rove hp).link hap hbp hlo hhi rfl
  rw [← link_rove] at hL' hap' hbig
  refine ⟨_, L', (h.seek hbp hlo hhi).map _, hL', hap', hbig, ⟨link_base.1, ?_⟩, link_base.2⟩
  intro a ha
  have hlive : a ∈ live := List.mem_of_mem_erase ha
  refine link_size ?_ ?_
  · rintro rfl
    exact h.not_mem_live hp hlive
  · rintro rfl
    have hle := h.covers_le a
    have hself := h.holds_self (List.mem_append_right _ hlive) (h.above a hlive).ne'
    have hpos := covers_pos ha hself
    rw [covers_append, covers_perm (List.perm_cons_erase hlive), covers_cons, hself] at hle
    simp only [Bool.toNat_true] at hle
    omega

/-! ## `morecore` -/

theorem Linked.lt_top (h : Linked s L live) (ha : a ∈ L ++ live) : a < s.top := by
  by_cases hb : a = s.base
  · rw [hb]
    exact h.below
  · exact (h.range a (h.owns_of_holds ha (h.holds_self ha hb))).2

theorem Linked.grow {nu : Nat} (h : Linked s L live) (hp : s.top ≤ p) (hnu : 0 < nu)
    (answers : List (Option Nat)) (heap : Nat) :
    Linked { s with
      answers := answers, top := p + nu * headerSize, heap := heap
      obtained := (p, nu * headerSize) :: s.obtained
      size := update s.size p nu } L (p :: live) := by
  have hother : ∀ a ∈ L ++ live, update s.size p nu a = s.size a := by
    intro a ha
    have := h.lt_top ha
    exact update_of_ne (by omega) _ _
  have hbelow := h.below
  have hcases : ∀ a ∈ L ++ p :: live, a = p ∨ a ∈ L ++ live := by
    intro a ha
    exact List.mem_cons.mp (List.perm_middle.mem_iff.mp ha)
  constructor
  · exact h.head
  · exact h.circular
  · exact h.sorted
  · exact h.roving
  · exact (hother _ (List.mem_append_left _ h.base_mem)).trans h.empty
  · intro a ha hab
    rcases hcases a ha with rfl | ha'
    · simpa using hnu
    · simp only [hother a ha']
      exact h.pos a ha' hab
  · intro x
    rw [covers_perm List.perm_middle, covers_cons, covers_congr hother, h.count x]
    simp only [toNat_holds, fin, owns, List.any_cons, update_self]
    cases hx : s.owns x with
    | false =>
      simp only [owns] at hx
      simp only [hx, Bool.or_false, Bool.toNat_false, Nat.zero_add, headerSize, Nat.mul_comm]
      split_ifs with hin
      · simp [hin]
      · simp only [← Bool.decide_and, hin, decide_false, Bool.toNat_false]
    | true =>
      have := (h.range x hx).2
      simp only [owns] at hx
      simp only [hx, Bool.or_true, Bool.toNat_true]
      rw [if_neg (by omega)]
  · intro x hx
    simp only [owns, List.any_cons, Bool.or_eq_true, Bool.and_eq_true, decide_eq_true_eq] at hx
    rcases hx with hx | hx
    · simp only
      omega
    · have := h.range x hx
      simp only
      omega
  · intro a ha
    rcases List.mem_cons.mp ha with rfl | ha
    · simp only
      omega
    · exact h.above a ha
  · simp only
    omega

/-- `morecore` fails and nothing changes, or there is a block that is large
enough. -/
theorem Linked.morecore (h : Linked s L live) (hap : s.Apart L) (hpos : 0 < nunits)
    (hfits : nunits * headerSize < 2 ^ 32) :
    ∃ r, Yields (fun n => s.morecore n nunits) r ∧ ∃ L', Linked r.2 L' live ∧ r.2.Apart L' ∧
      s.Kept r.2 live ∧ r.2.answers = s.answers.tail ∧
      (r.1 = none ∨ r.1 = some r.2.freep ∧ ∃ a ∈ L', nunits ≤ r.2.size a) := by
  obtain ⟨nu, hnu, hle, hmul⟩ : ∃ nu, (if nunits < 4096 then 4096 else nunits) = nu ∧
      nunits ≤ nu ∧ nu * headerSize % 2 ^ 32 = nu * headerSize := by
    simp only [headerSize] at hfits ⊢
    split_ifs
    · exact ⟨4096, rfl, by omega, by omega⟩
    · exact ⟨nunits, rfl, by omega, by omega⟩
  simp only [Arena.morecore, hnu, hmul, sbrk]
  match hans : s.answers with
  | [] => exact ⟨_, .const (none, s), L, h, hap, ⟨rfl, fun _ _ => rfl⟩, hans, .inl rfl⟩
  | none :: answers =>
    exact ⟨_, .const (none, { s with answers := answers }), L, { h with }, hap,
      ⟨rfl, fun _ _ => rfl⟩, rfl, .inl rfl⟩
  | some p :: answers =>
    by_cases hok : s.top ≤ p ∧ p + nu * headerSize < 2 ^ 32 ∧ s.heap + nu * headerSize < 2 ^ 31
    · simp only [if_pos hok]
      have hnot : ∀ a ∈ L ++ live, a ≠ p := fun a ha => by
        have := h.lt_top ha
        omega
      have hgrown := h.grow hok.1 (by omega : 0 < nu) answers (s.heap + nu * headerSize)
      obtain ⟨s', L', hy, hL', hap', ⟨a, ha, hbig⟩, hkept, hans'⟩ := hgrown.free
        (hap.congr rfl fun a ha =>
          update_of_ne (hnot a (List.mem_append_left _ ha)) _ _)
        List.mem_cons_self
      rw [List.erase_cons_head] at hL' hkept
      simp only [update_self] at hbig
      refine ⟨_, hy.map _, L', hL', hap', ⟨hkept.base, fun b hb => ?_⟩, hans',
        .inr ⟨rfl, a, ha, ?_⟩⟩
      · exact (hkept.size b hb).trans
          (update_of_ne (hnot b (List.mem_append_right _ hb)) _ _)
      · exact hle.trans hbig
    · simp only [if_neg hok]
      exact ⟨_, .const (none, { s with answers := answers }), L, { h with }, hap,
        ⟨rfl, fun _ _ => rfl⟩, rfl, .inl rfl⟩

/-! ## `malloc` -/

/-- The call returned a new block of `nunits` units or nothing; the other
blocks are as before, and `sbrk` was called once at most. -/
structure Serves (s : Arena) (live : List Nat) (nunits : Nat) (r : Option Nat × Arena) : Prop where
  ready : r.2.Ready ((r.1.map (· - headerSize)).toList ++ live)
  kept : s.Kept r.2 live
  size : ∀ ap ∈ r.1, headerSize ≤ ap ∧ r.2.size (ap - headerSize) = nunits
  once : s.answers.tail <:+ r.2.answers

theorem Linked.take (h : Linked s (xs ++ a :: b :: ys) live) (hfreep : a = s.freep) :
    Linked { s with ptr := update s.ptr a (s.ptr b) } (xs ++ a :: ys) (b :: live) := by
  have hsub : (xs ++ a :: ys).Sublist (xs ++ a :: b :: ys) :=
    (List.Sublist.refl xs).append ((List.sublist_cons_self b ys).cons_cons a)
  have hperm : (xs ++ a :: ys ++ b :: live).Perm (xs ++ a :: b :: ys ++ live) := by
    have h1 : (xs ++ a :: b :: ys).Perm (b :: (xs ++ a :: ys)) := by
      simpa using (List.perm_middle : (xs ++ [a] ++ b :: ys).Perm (b :: (xs ++ [a] ++ ys)))
    exact List.perm_middle.trans (h1.append_right live).symm
  have hlt : s.base < b := by
    have hab := List.rel_of_pairwise_cons (List.pairwise_append.mp h.sorted).2.1
      (List.mem_cons_self : b ∈ b :: ys)
    have := h.base_le (by simp : a ∈ xs ++ a :: b :: ys)
    omega
  constructor
  · exact h.head_append _
  · exact h.circular.remove h.nodup
  · exact h.sorted.sublist hsub
  · simp [← hfreep]
  · exact h.empty
  · intro c hc
    exact h.pos c (hperm.mem_iff.mp hc)
  · intro x
    exact (covers_perm hperm x).trans (h.count x)
  · exact h.range
  · intro c hc
    rcases List.mem_cons.mp hc with rfl | hc
    · exact hlt
    · exact h.above c hc
  · exact h.below

section
variable (h : Linked s L live) (hb : b ∈ L) (hsize : s.size b = rest + nunits) (hrest : 0 < rest)
  (hpos : 0 < nunits) (ha : b + headerSize * rest = a)
include h hb hsize hrest hpos ha

theorem Linked.inside : ∀ c ∈ L ++ live, c ≠ a := by
  rintro c hc rfl
  simp only [headerSize] at ha
  have hle := h.fin_le (List.mem_append_left _ hb) hc (by omega)
  simp only [fin, headerSize] at hle
  omega

theorem Linked.cut :
    Linked { s with size := update (update s.size b rest) a nunits } L
      (a :: live) := by
  have hnot := h.inside hb hsize hrest hpos ha
  have hbase : b ≠ s.base := by
    rintro rfl
    rw [h.empty] at hsize
    omega
  have hba : b < a := by
    simp only [headerSize] at ha
    omega
  have hafin : a + headerSize * nunits = s.fin b := by
    simp only [headerSize, fin] at ha ⊢
    omega
  have hother : ∀ c ∈ L ++ live, c ≠ b →
      update (update s.size b rest) a nunits c = s.size c := by
    intro c hc hcb
    rw [update_of_ne (hnot c hc), update_of_ne hcb]
  have hself : update (update s.size b rest) a nunits b = rest := by
    rw [update_of_ne hba.ne, update_self]
  have hcases : ∀ c ∈ L ++ a :: live, c = a ∨ c ∈ L ++ live := by
    intro c hc
    exact List.mem_cons.mp (List.perm_middle.mem_iff.mp hc)
  have hsplit : (L ++ live).Perm (b :: (L.erase b ++ live)) :=
    (List.perm_cons_erase hb).append_right live
  have hrestL : ∀ c ∈ L.erase b ++ live, c ∈ L ++ live ∧ c ≠ b := by
    intro c hc
    rcases List.mem_append.mp hc with hc | hc
    · exact ⟨List.mem_append_left _ (List.mem_of_mem_erase hc), (h.nodup.mem_erase_iff.mp hc).1⟩
    · exact ⟨List.mem_append_right _ hc, fun heq => h.not_mem_live hb (heq ▸ hc)⟩
  constructor
  · exact h.head
  · exact h.circular
  · exact h.sorted
  · exact h.roving
  · exact (hother _ (List.mem_append_left _ h.base_mem) hbase.symm).trans h.empty
  · intro c hc hcb
    rcases hcases c hc with rfl | hc'
    · simpa using hpos
    · by_cases hceq : c = b
      · subst hceq
        simpa only [hself] using hrest
      · simp only [hother c hc' hceq]
        exact h.pos c hc' hcb
  · intro x
    have hcount := h.count x
    rw [covers_perm hsplit, covers_cons] at hcount
    rw [covers_perm List.perm_middle, covers_cons, covers_perm hsplit, covers_cons,
      covers_congr fun c hc => hother c (hrestL c hc).1 (hrestL c hc).2]
    -- the bytes of the two parts are those of the block
    refine Eq.trans ?_ hcount
    rw [Nat.add_assoc]
    congr 1
    refine toNat_holds_split ?_ ?_ x
    · simpa only [fin, hself] using ha
    · simpa only [fin, update_self] using hafin
  · exact h.range
  · intro c hc
    rcases List.mem_cons.mp hc with rfl | hc
    · have := h.base_le hb
      simp only
      omega
    · exact h.above c hc
  · exact h.below

end

theorem Linked.cut_apart (h : Linked s L live) (hap : s.Apart L) (hb : b ∈ L)
    (hsize : s.size b = rest + nunits) (hrest : 0 < rest) (hpos : 0 < nunits)
    (ha : b + headerSize * rest = a) :
    Apart { s with size := update (update s.size b rest) a nunits } L := by
  have hnot : ∀ c ∈ L, c ≠ a := fun c hc =>
    h.inside hb hsize hrest hpos ha c (List.mem_append_left _ hc)
  intro c hc d hd hbase hfin
  simp only [fin, update_of_ne (hnot c hc)] at hfin
  by_cases hcb : c = b
  · subst hcb
    rw [update_self, ha] at hfin
    exact hnot d hd hfin.symm
  · rw [update_of_ne hcb] at hfin
    exact hap c hc d hd hbase hfin

theorem Linked.carve (h : Linked s L live) (hap : s.Apart L) (ha : a ∈ L) (hpos : 0 < nunits)
    (hle : nunits ≤ s.size (s.ptr a)) : Serves s live nunits
      (some (s.carve nunits a (s.ptr a)).1, (s.carve nunits a (s.ptr a)).2) ∧
      (s.carve nunits a (s.ptr a)).2.answers = s.answers := by
  obtain ⟨xs, ys, rfl⟩ := List.append_of_mem ha
  obtain ⟨b, zs, rfl, hb⟩ : ∃ b zs, ys = b :: zs ∧ s.ptr a = b := by
    rcases h.next_cases with ⟨-, hlast⟩ | ⟨y, zs, rfl, hy, -⟩
    · rw [hlast, h.empty] at hle
      omega
    · exact ⟨y, zs, rfl, hy⟩
  rw [hb] at hle ⊢
  have hmem : b ∈ xs ++ a :: b :: zs := by simp
  have hr := h.rove ha
  unfold Arena.carve
  by_cases heq : s.size b = nunits
  · simp only [if_pos heq]
    refine ⟨⟨⟨xs ++ a :: zs, ?_, ?_⟩, ⟨rfl, fun _ _ => rfl⟩, ?_, List.tail_suffix _⟩, trivial⟩
    · simpa using hr.take rfl
    · have hsub : ∀ e ∈ xs ++ a :: zs, e ∈ xs ++ a :: b :: zs := by
        intro e he
        simp only [List.mem_append, List.mem_cons] at he ⊢
        exact he.imp id (Or.imp id .inr)
      intro c hc d hd
      exact hap c (hsub c hc) d (hsub d hd)
    · rintro ap ⟨⟩
      exact ⟨by omega, by simpa using heq⟩
  · simp only [if_neg heq]
    obtain ⟨rest, hrest⟩ : ∃ rest, s.size b - nunits = rest := ⟨_, rfl⟩
    obtain ⟨c, hc⟩ : ∃ c, b + headerSize * rest = c := ⟨_, rfl⟩
    rw [hrest, hc]
    have hsize : s.size b = rest + nunits := by omega
    have hcut := hr.cut hmem hsize (by omega) hpos hc
    have hapart := hr.cut_apart hap hmem hsize (by omega) hpos hc
    refine ⟨⟨⟨_, by simpa using hcut, hapart⟩, ⟨rfl, fun d hd => ?_⟩, ?_, List.tail_suffix _⟩,
      trivial⟩
    · have hdc : d ≠ c :=
        h.inside hmem hsize (by omega) hpos hc d (List.mem_append_right _ hd)
      have hdb : d ≠ b := fun heq => h.not_mem_live hmem (heq ▸ hd)
      simp only [update_of_ne hdc, update_of_ne hdb]
    · rintro ap ⟨⟩
      exact ⟨by omega, by simp⟩

/-- The loop of `malloc` where it reaches `freep`. -/
def more (s : Arena) (nunits fuel : Nat) : Option (Option Nat × Arena) :=
  (s.morecore fuel nunits).bind fun
    | (none, s) => some (none, s)
    | (some p, s) => Arena.search nunits fuel s p (s.ptr p)

section
variable (h : Linked s L live) (hap : s.Apart L) (hpos : 0 < nunits)
include h hap hpos

/-- The loop of `malloc`, on its way to `freep`, finds a block that is
large enough, or there is none and it asks for more memory. -/
theorem Linked.search {e : Nat} (hl : ∀ c ∈ l ++ [s.freep], c ∈ L) (hfreep : s.freep ∉ l)
    (ha : a ∈ L) (hpath : Path s.ptr (s.ptr a) (l ++ [s.freep]) e) :
    (∃ r, Yields (fun n => search nunits n s a (s.ptr a)) r ∧ Serves s live nunits r ∧
        r.2.answers = s.answers) ∨
      (∀ c ∈ l ++ [s.freep], s.size c < nunits) ∧
      ∀ r, Yields (fun n => s.more nunits n) r →
        Yields (fun n => Arena.search nunits n s a (s.ptr a)) r := by
  induction l generalizing a with
  | nil =>
    have hp : s.ptr a = s.freep := hpath.1
    by_cases hbig : nunits ≤ s.size (s.ptr a)
    · refine .inl ⟨_, (Yields.const _).turn rfl fun n => ?_, h.carve hap ha hpos hbig⟩
      rw [Arena.search, if_pos hbig]
    · refine .inr ⟨?_, fun r hr => hr.turn rfl fun n => ?_⟩
      · intro c hc
        rw [List.nil_append, List.mem_singleton] at hc
        rw [hp, ← hc] at hbig
        omega
      · rw [Arena.search, if_neg hbig, if_pos hp, more]
        match s.morecore n nunits with
        | none => rfl
        | some (none, _) => rfl
        | some (some _, _) => rfl
  | cons x l ih =>
    obtain ⟨hx, hpath⟩ := hpath
    have hmem : x ∈ L := hl x (by simp)
    rw [List.mem_cons, not_or] at hfreep
    by_cases hbig : nunits ≤ s.size (s.ptr a)
    · refine .inl ⟨_, (Yields.const _).turn rfl fun n => ?_, h.carve hap ha hpos hbig⟩
      rw [Arena.search, if_pos hbig]
    · have hturn : ∀ n, Arena.search nunits (n + 1) s a (s.ptr a) =
          Arena.search nunits n s x (s.ptr x) := by
        intro n
        rw [Arena.search, if_neg hbig, hx, if_neg (Ne.symm hfreep.1)]
      rcases ih (fun c hc => hl c (List.mem_cons_of_mem x hc)) hfreep.2 hmem hpath with
        ⟨r, hr, hfound⟩ | ⟨hsmall, hmore⟩
      · exact .inl ⟨r, hr.turn rfl hturn, hfound⟩
      · refine .inr ⟨?_, fun r hr => (hmore r hr).turn rfl hturn⟩
        intro c hc
        rcases List.mem_cons.mp hc with rfl | hc
        · rw [hx] at hbig
          omega
        · exact hsmall c hc

theorem Linked.search_freep :
    (∃ r, Yields (fun n => Arena.search nunits n s s.freep (s.ptr s.freep)) r ∧
        Serves s live nunits r ∧ r.2.answers = s.answers) ∨
      (∀ c ∈ L, s.size c < nunits) ∧
      ∀ r, Yields (fun n => s.more nunits n) r →
        Yields (fun n => Arena.search nunits n s s.freep (s.ptr s.freep)) r := by
  obtain ⟨us, vs, hsplit⟩ := List.append_of_mem h.roving
  have hn := h.nodup
  rw [hsplit, List.nodup_middle, List.nodup_cons] at hn
  have hmem : ∀ c, c ∈ (vs ++ us) ++ [s.freep] ↔ c ∈ L := by
    intro c
    rw [hsplit]
    simp only [List.mem_append, List.mem_cons, List.not_mem_nil, or_false]
    constructor
    · rintro ((hc | hc) | hc) <;> simp [hc]
    · rintro (hc | hc | hc) <;> simp [hc]
  have hround := (hsplit ▸ h.circular).rotate
  have hpath : Path s.ptr (s.ptr s.freep) ((vs ++ us) ++ [s.freep]) (s.ptr s.freep) :=
    Path.append.mpr ⟨s.freep, hround.2, rfl, rfl⟩
  have hnot : s.freep ∉ vs ++ us := fun hc => hn.1 (by simpa [or_comm] using hc)
  rcases h.search hap hpos (fun c hc => (hmem c).mp hc) hnot h.roving hpath with
    hfound | ⟨hsmall, hmore⟩
  · exact .inl hfound
  · exact .inr ⟨fun c hc => hsmall c ((hmem c).mpr hc), hmore⟩

theorem Linked.malloc (hfits : nunits * headerSize < 2 ^ 32) :
    ∃ r, Yields (fun n => Arena.search nunits n s s.freep (s.ptr s.freep)) r ∧
      Serves s live nunits r := by
  rcases h.search_freep hap hpos with ⟨r, hr, hserves, -⟩ | ⟨-, hmore⟩
  · exact ⟨r, hr, hserves⟩
  · obtain ⟨⟨res, s'⟩, hcore, L', hL', hap', hkept, hans, hres⟩ := h.morecore hap hpos hfits
    rcases hres with hnone | ⟨hsome, c, hc, hbig⟩
    · simp only at hnone hL' hap' hkept hans
      subst hnone
      refine ⟨(none, s'), hmore _ (hcore.bind (.const _)), ⟨L', hL', hap'⟩, hkept, ?_,
        hans ▸ List.suffix_refl _⟩
      rintro ap ⟨⟩
    · simp only at hsome hL' hap' hkept hans hbig
      subst hsome
      -- now there is a block that is large enough
      rcases hL'.search_freep hap' hpos with ⟨r, hr, hserves, hsame⟩ | ⟨hsmall, -⟩
      · refine ⟨r, hmore _ (hcore.bind hr), hserves.ready, ⟨?_, ?_⟩, hserves.size,
          hans ▸ hsame ▸ List.suffix_refl _⟩
        · exact hserves.kept.base.trans hkept.base
        · intro a ha
          exact (hserves.kept.size a ha).trans (hkept.size a ha)
      · exact absurd (hsmall c hc) (by omega)

end

theorem units_pos (nbytes : UInt32) : 0 < units nbytes := Nat.succ_pos _

theorem units_fits (h : nbytes.toNat + 15 < 2 ^ 32) :
    units nbytes * headerSize < 2 ^ 32 ∧ nbytes.toNat + headerSize ≤ headerSize * units nbytes := by
  simp only [units, headerSize]
  omega

theorem start_linked (hfreep : s.freep = 0) (hown : s.obtained = []) (hbelow : s.base < s.top) :
    Linked s.start [s.base] [] ∧ s.start.Apart [s.base] ∧ s.start.base = s.base := by
  have hs : s.start = { s with
      ptr := update s.ptr s.base s.base
      size := update s.size s.base 0
      freep := s.base } := if_pos hfreep
  rw [hs]
  refine ⟨?_, ?_, rfl⟩
  · constructor
    · exact ⟨[], rfl⟩
    · exact ⟨rfl, update_self _ _ _⟩
    · exact List.pairwise_singleton _ _
    · exact List.mem_singleton_self _
    · exact update_self _ _ _
    · intro a ha hab
      exact absurd (List.mem_singleton.mp ha) hab
    · intro x
      simp [covers, owns, hown, holds, fin]
    · intro x hx
      simp [owns, hown] at hx
    · simp
    · exact hbelow
  · intro a ha b hb hab
    exact absurd (List.mem_singleton.mp ha) hab

end Arena

namespace Heap

open Arena

variable {h h' h₀ : Heap} {tr : List (Heap × Call)}

/-- The list is set up and in order. -/
structure Good (h : Heap) : Prop where
  base : 0 < h.arena.base
  ready : h.arena.Ready h.live

theorem Good.start (hg : h.Good) : h.arena.start = h.arena := by
  obtain ⟨L, hL, -⟩ := hg.ready
  refine if_neg ?_
  have := hL.base_le hL.roving
  have := hg.base
  omega

theorem Good.malloc (hg : h.Good) (hfits : nbytes.toNat + 15 < 2 ^ 32) :
    ∃ r, Yields (fun n => h.arena.malloc n nbytes) r ∧
      Serves h.arena h.live (units nbytes) r := by
  obtain ⟨L, hL, hap⟩ := hg.ready
  simp only [Arena.malloc, hg.start]
  exact hL.malloc hap (units_pos nbytes) (units_fits hfits).1

theorem New.malloc (hn : h.New) (hfits : nbytes.toNat + 15 < 2 ^ 32) :
    ∃ r, Yields (fun n => h.arena.malloc n nbytes) r ∧
      r.2.base = h.arena.base ∧ Serves h.arena.start h.live (units nbytes) r := by
  have hbelow := hn.below
  obtain ⟨hL, hap, hbase⟩ := start_linked hn.freep hn.obtained (by
    simp only [headerSize] at hbelow
    omega)
  obtain ⟨r, hr, hserves⟩ := hL.malloc hap (units_pos nbytes) (units_fits hfits).1
  refine ⟨r, hr, hserves.kept.base.trans hbase, ?_⟩
  rw [hn.live]
  exact hserves

theorem Good.free (hg : h.Good) {a : Nat} (ha : a ∈ h.live) :
    ∃ s', Yields (fun n => h.arena.free n (a + headerSize)) s' ∧ s'.Ready (h.live.erase a) ∧
      h.arena.Kept s' (h.live.erase a) := by
  obtain ⟨L, hL, hap⟩ := hg.ready
  obtain ⟨s', L', hy, hL', hap', -, hkept, -⟩ := hL.free hap ha
  exact ⟨s', hy, ⟨L', hL', hap'⟩, hkept⟩

theorem next_good (hi : h.New ∨ h.Good) {c : Call} (hok : h.Fits c) (hc : h.next c = some h') :
    h'.Good := by
  cases c with
  | malloc n nbytes =>
    rw [Heap.next, Option.map_eq_some_iff] at hc
    obtain ⟨r', hr', rfl⟩ := hc
    rcases hi with hn | hg
    · obtain ⟨r, hr, hbase, hserves⟩ := hn.malloc hok
      cases hr.eq_of_eq_some hr'
      exact ⟨by rw [hbase]; exact hn.base, hserves.ready⟩
    · obtain ⟨r, hr, hserves⟩ := hg.malloc hok
      cases hr.eq_of_eq_some hr'
      exact ⟨by rw [hserves.kept.base]; exact hg.base, hserves.ready⟩
  | free n a =>
    rw [Heap.next] at hc
    split at hc
    · next ha =>
      rw [Option.map_eq_some_iff] at hc
      obtain ⟨s', hs', rfl⟩ := hc
      rcases hi with hn | hg
      · rw [hn.live] at ha
        cases ha
      · obtain ⟨s, hy, hready, hkept⟩ := hg.free ha
        cases hy.eq_of_eq_some hs'
        exact ⟨by rw [hkept.base]; exact hg.base, hready⟩
    · cases hc

theorem good_of_run (hnew : h₀.New) (hrun : Run next h₀ tr h) (hok : Meets Fits tr) :
    tr = [] ∧ h.New ∨ h.Good := by
  refine Run.history (I := fun tr h => tr = [] ∧ h.New ∨ h.Good) (.inl ⟨rfl, hnew⟩) ?_ hrun hok
  intro tr h c h' _ hi hfits hc
  exact .inr (next_good (hi.imp And.right id) hfits hc)

/-! ## What the invariant says of the blocks -/

theorem pairwise_disjoint {s : Arena} (hl : ∀ x, s.covers l x ≤ 1) :
    l.Pairwise fun a b => Disjoint (s.block a) (s.block b) := by
  induction l with
  | nil => exact List.Pairwise.nil
  | cons a l ih =>
    refine List.pairwise_cons.mpr ⟨?_, ih fun x => ?_⟩
    · intro b hb
      refine Set.disjoint_left.mpr fun x hxa hxb => ?_
      have hpos := covers_pos hb (holds_iff.mpr hxb)
      have hle := hl x
      rw [covers_cons, holds_iff.mpr hxa, Bool.toNat_true] at hle
      omega
    · have hle := hl x
      rw [covers_cons] at hle
      omega

theorem Good.sound (hg : h.Good) : ∃ free, h.Sound free := by
  obtain ⟨L, hL, hap⟩ := hg.ready
  obtain ⟨free, rfl⟩ := hL.head
  have hbase : ∀ x, h.arena.holds x h.arena.base = false := by
    intro x
    simp only [holds, fin, hL.empty]
    rw [← Bool.decide_and]
    simp
  have hcount : ∀ x, h.arena.covers (free ++ h.live) x = (h.arena.owns x).toNat := by
    intro x
    rw [← hL.count x, List.cons_append, covers_cons, hbase, Bool.toNat_false, Nat.add_zero]
  refine ⟨free, hL.circular, hL.sorted, hL.roving, pairwise_disjoint fun x => ?_, ?_, ?_⟩
  · rw [hcount]
    exact Bool.toNat_le _
  · ext x
    rw [mem_memory]
    constructor
    · rintro ⟨a, ha, hx⟩
      exact hL.owns_of_holds (List.mem_cons_of_mem _ ha) (holds_iff.mpr hx)
    · intro hx
      have hone := hcount x
      rw [hx, Bool.toNat_true] at hone
      obtain ⟨a, ha, hxa⟩ := List.countP_pos_iff.mp (hone ▸ Nat.one_pos)
      exact ⟨a, ha, holds_iff.mp hxa⟩
  · intro a ha b hb hfin
    have hlt := List.rel_of_pairwise_cons hL.sorted ha
    exact hap a (List.mem_cons_of_mem _ ha) b (List.mem_cons_of_mem _ hb) hlt.ne' hfin

theorem serves_block {s : Arena} {live : List Nat} {r : Option Nat × Arena}
    (hs : Serves s live (units nbytes) r) (hfits : nbytes.toNat + 15 < 2 ^ 32) {ap : Nat}
    (hap : r.1 = some ap) : headerSize ≤ ap ∧ ap + nbytes.toNat ≤ r.2.fin (ap - headerSize) ∧
      ∀ a ∈ live, Disjoint (r.2.block (ap - headerSize)) (r.2.block a) := by
  obtain ⟨hge, hsize⟩ := hs.size ap hap
  obtain ⟨L, hL, -⟩ := hs.ready
  rw [hap] at hL
  refine ⟨hge, ?_, ?_⟩
  · have := (units_fits hfits).2
    rw [fin, hsize]
    simp only [headerSize] at *
    omega
  · have hpair := pairwise_disjoint hL.covers_le
    exact fun a ha => List.rel_of_pairwise_cons (List.pairwise_append.mp hpair).2.1 ha

/-- **The heap keeps its integrity** in every run in which no request is so
large that rounding it up wraps: the free list is circular, in address
order, without neighbours that could be joined, and with the blocks of the
program it partitions the memory from `sbrk`; every further call returns,
and what it returns is as it should be. -/
theorem heap_integrity (hnew : h₀.New) (hrun : Run next h₀ tr h) (hok : Meets Fits tr) :
    (tr = [] ∨ ∃ free, h.Sound free) ∧
    (∀ a ∈ h.live, ∃ s N, ∀ n, N ≤ n → h.arena.free n (a + headerSize) = some s) ∧
    (∀ nbytes : UInt32, nbytes.toNat + 15 < 2 ^ 32 →
      ∃ r N, (∀ n, N ≤ n → h.arena.malloc n nbytes = some r) ∧
        ∀ ap, r.1 = some ap →
          headerSize ≤ ap ∧ ap + nbytes.toNat ≤ r.2.fin (ap - headerSize) ∧
          ∀ a ∈ h.live, Disjoint (r.2.block (ap - headerSize)) (r.2.block a)) ∧
    (∀ c h', h.Fits c → h.next c = some h' →
      ∀ a ∈ h.live, a ∈ h'.live → h'.arena.size a = h.arena.size a) := by
  have hinv := good_of_run hnew hrun hok
  refine ⟨hinv.imp And.left Good.sound, ?_, ?_, ?_⟩
  · intro a ha
    rcases hinv with ⟨-, hn⟩ | hg
    · rw [hn.live] at ha
      cases ha
    · obtain ⟨s, hy, -⟩ := hg.free ha
      exact ⟨s, hy.returns⟩
  · intro nbytes hfits
    rcases hinv with ⟨-, hn⟩ | hg
    · obtain ⟨r, hy, -, hserves⟩ := hn.malloc hfits
      obtain ⟨N, hN⟩ := hy.returns
      exact ⟨r, N, hN, fun ap hap => serves_block hserves hfits hap⟩
    · obtain ⟨r, hy, hserves⟩ := hg.malloc hfits
      obtain ⟨N, hN⟩ := hy.returns
      exact ⟨r, N, hN, fun ap hap => serves_block hserves hfits hap⟩
  · intro c h' hfits hc a ha ha'
    rcases hinv with ⟨-, hn⟩ | hg
    · rw [hn.live] at ha
      cases ha
    · cases c with
      | malloc n nbytes =>
        rw [Heap.next, Option.map_eq_some_iff] at hc
        obtain ⟨r', hr', rfl⟩ := hc
        obtain ⟨r, hr, hserves⟩ := hg.malloc hfits
        cases hr.eq_of_eq_some hr'
        exact hserves.kept.size a ha
      | free n b =>
        rw [Heap.next] at hc
        split at hc
        · next hb =>
          rw [Option.map_eq_some_iff] at hc
          obtain ⟨s', hs', rfl⟩ := hc
          obtain ⟨s, hy, -, hkept⟩ := hg.free hb
          cases hy.eq_of_eq_some hs'
          exact hkept.size a ha'
        · cases hc

/-- `base` at 0x1000, and `sbrk` ready to give memory from 0x2000 on. -/
def fresh : Heap where
  arena :=
    { base := 0x1000, freep := 0, ptr := fun _ => 0, size := fun _ => 0, top := 0x2000, heap := 0
      obtained := [], answers := [some 0x2000, none] }
  live := []

theorem fresh_new : fresh.New := ⟨rfl, rfl, rfl, by decide, by decide⟩

/-- Two blocks, and the first of them freed. -/
theorem heap_integrity_three_calls :
    ∃ h tr, Run next fresh tr h ∧ tr.length = 3 ∧ h.live.length = 1 ∧ ∃ free, h.Sound free := by
  obtain ⟨r, hr, hlen, hlive, hfits⟩ : ∃ r, follow next fresh
      [.malloc 9 100, .malloc 9 50, .free 9 0x9f90] = some r ∧ r.1.length = 3 ∧
      r.2.live.length = 1 ∧ Meets Fits r.1 := ⟨_, rfl, by decide, by decide, by decide⟩
  have hrun := run_follow hr
  refine ⟨r.2, r.1, hrun, hlen, hlive, ?_⟩
  rcases (heap_integrity fresh_new hrun hfits).1 with hnil | hsound
  · rw [hnil] at hlen
    cases hlen
  · exact hsound

/-- A request of 2^32 - 1 bytes is served by a block without a byte. -/
theorem heap_integrity_wraps :
    fresh.New ∧ ∃ h, fresh.next (.malloc 9 0xFFFFFFFF) = some h ∧ h.arena.heap < 2 ^ 31 ∧
      ∃ a, h.live = [a] ∧ h.arena.fin a = a + headerSize :=
  ⟨fresh_new, _, rfl, by decide, _, rfl, by decide⟩

end Heap

end Xv6.User.Umalloc
