/-
Xv6.Fs.ReserveTheorems — does the space `begin_op` reserves suffice?

`begin_op` lets an operation in when `MAXOPBLOCKS` blocks are left for it
and for every operation in progress, out of `LOGSIZE`. The log area that
`mkfs` makes has `LOGSIZE` blocks, one of which is the header, and
`log_write` panics when the area is full BEFORE it takes the lock and looks
whether the block is in the log already. So the reservation is two blocks too generous: it
suffices for operations of `MAXOPBLOCKS - 1` blocks, and three operations
of `MAXOPBLOCKS` blocks make the last `log_write` panic.

The argument is a potential: the blocks in the log plus what the operations
in progress may still add stays at most `LOGSIZE - 2` (`Reserved.room`).
What an operation has passed to `log_write` is read off the trace of the
run, not off the log.
-/
import Mathlib.Algebra.Order.BigOperators.Group.List
import Mathlib.Data.Finset.Card
import Xv6.Fs.LogTheorems

namespace Xv6.Fs

open Xv6.Lib Function

/-! ## What an operation has written -/

/-- The blocks each operation has passed to `log_write` since it began,
after one more action. -/
def pass (used : Op → Finset Nat) : Act → Op → Finset Nat
  | .beginOp op => update used op ∅
  | .append op b _ => update used op (insert b.toNat (used op))
  | _ => used

/-- The blocks each operation has passed to `log_write` since it began. -/
def passed (tr : List (State × Act)) : Op → Finset Nat :=
  tr.foldl (fun used e => pass used e.2) fun _ => ∅

theorem passed_snoc (tr : List (State × Act)) (s : State) (a : Act) :
    passed (tr ++ [(s, a)]) = pass (passed tr) a := by
  simp [passed]

/-- With this action its operation has passed at most `m` blocks. -/
def Budgeted (m : Nat) (used : Op → Finset Nat) : Act → Prop
  | .write op b | .append op b _ => (insert b.toNat (used op)).card ≤ m
  | _ => True

instance (m : Nat) (used : Op → Finset Nat) : (a : Act) → Decidable (Budgeted m used a)
  | .write _ _ | .append _ _ _ => Nat.decLe _ _
  | .beginOp _ | .endOp _ | .advance | .read _ | .evict _ | .crash => .isTrue trivial

/-- The machine stays up. -/
def StaysUp : Act → Prop
  | .crash => False
  | _ => True

instance (a : Act) : Decidable (StaysUp a) := by
  unfold StaysUp
  split <;> infer_instance

/-- Every action of the trace stays within `m` blocks for its operation. -/
def withinFrom (m : Nat) (used : Op → Finset Nat) : List (State × Act) → Bool
  | [] => true
  | e :: tr => decide (Budgeted m used e.2) && withinFrom m (pass used e.2) tr

/-- No operation passes more than `m` blocks to `log_write`. -/
def Within (m : Nat) (tr : List (State × Act)) : Prop :=
  withinFrom m (fun _ => ∅) tr = true
  deriving Decidable

theorem withinFrom_snoc (m : Nat) (used : Op → Finset Nat) (tr : List (State × Act)) (s : State)
    (a : Act) : withinFrom m used (tr ++ [(s, a)]) = true ↔
      withinFrom m used tr = true ∧
        Budgeted m (tr.foldl (fun used e => pass used e.2) used) a := by
  induction tr generalizing used with
  | nil => simp [withinFrom]
  | cons e tr ih => simp [withinFrom, ih, and_assoc]

theorem within_snoc (m : Nat) (tr : List (State × Act)) (s : State) (a : Act) :
    Within m (tr ++ [(s, a)]) ↔ Within m tr ∧ Budgeted m (passed tr) a :=
  withinFrom_snoc m _ tr s a

/-! ## The reservation -/

/-- What the operations in progress may still add, if each passes at most
`MAXOPBLOCKS - 1` blocks. -/
def pending (used : Op → Finset Nat) (active : List Op) : Nat :=
  (active.map fun op => maxopblocks - 1 - (used op).card).sum

theorem pending_le (used : Op → Finset Nat) (active : List Op) :
    pending used active ≤ active.length * (maxopblocks - 1) := by
  induction active with
  | nil => simp [pending]
  | cons op active ih =>
    simp only [pending, List.map_cons, List.sum_cons, List.length_cons, maxopblocks] at ih ⊢
    omega

theorem pending_erase {used : Op → Finset Nat} {active : List Op} {op : Op} (h : op ∈ active) :
    pending used active
      = (maxopblocks - 1 - (used op).card) + pending used (active.erase op) := by
  unfold pending
  exact (List.sum_map_erase _ h).symm

/-- Only the operations of the list count. -/
theorem pending_congr {used used' : Op → Finset Nat} {active : List Op}
    (h : ∀ op ∈ active, used' op = used op) : pending used' active = pending used active := by
  unfold pending
  congr 1
  apply List.map_congr_left
  intro op hop
  rw [h op hop]

/-- The reservation as an invariant. -/
structure Reserved (sb : Superblock) (used : Op → Finset Nat) (s : State) : Prop where
  outstanding : s.outstanding = s.active.length
  nodup : s.active.Nodup
  /-- Operations are in progress only while the log is ready. -/
  quiet : s.phase ≠ .ready → s.active = []
  busy : s.committing = true → s.phase ≠ .ready
  /-- After a commit or a recovery the log is empty. -/
  empty : s.active = [] → s.phase = .release ∨ s.phase = .ready → s.lh.n = 0
  named : ∀ op ∈ s.active, ∀ b ∈ used op, Named s.lh b
  room : s.lh.n + pending used s.active ≤ logsize - 2
  /-- Until `read_head`, the header on the disk is empty and a cached copy
  of it is clean. -/
  head : s.phase = .booting → State.headCount (s.disk sb.logstart) = 0 ∧
    ∀ c, s.buf sb.logstart = some c → c.data = s.disk sb.logstart

section
variable {sb : Superblock} {s s' : State} {used : Op → Finset Nat} {op : Op}

theorem reserved_boot {d : Nat → Block} (h : (header sb d).n = 0) :
    Reserved sb (fun _ => ∅) (boot d) := by
  simp only [header] at h
  refine ⟨rfl, .nil, fun _ => rfl, ?_, ?_, ?_, ?_, ?_⟩
  · simp [boot]
  · simp [boot]
  · simp [boot]
  · simp [boot, pending]
  · intro _
    exact ⟨h, by simp [boot]⟩

/-- What a step that leaves the operations and the header alone keeps. -/
theorem Reserved.of_same (h : Reserved sb used s) (hlh : s'.lh = s.lh)
    (ho : s'.outstanding = s.outstanding) (hc : s'.committing = s.committing)
    (ha : s'.active = s.active) (hp : s'.phase = s.phase)
    (hb : s.phase = .booting → State.headCount (s'.disk sb.logstart) = 0 ∧
      ∀ c, s'.buf sb.logstart = some c → c.data = s'.disk sb.logstart) :
    Reserved sb used s' where
  outstanding := by rw [ho, ha, h.outstanding]
  nodup := by rw [ha]; exact h.nodup
  quiet := by rw [ha, hp]; exact h.quiet
  busy := by rw [hc, hp]; exact h.busy
  empty := by rw [ha, hp, hlh]; exact h.empty
  named := by rw [ha, hlh]; exact h.named
  room := by rw [ha, hlh]; exact h.room
  head := by rw [hp]; exact hb

/-- Between operations only the length of the log counts. -/
theorem Reserved.of_quiet (ho : s.outstanding = 0) (ha : s.active = [])
    (hc : s.committing = true → s.phase ≠ .ready) (hb : s.phase ≠ .booting)
    (hn : s.lh.n ≤ logsize - 2) (he : s.phase = .release ∨ s.phase = .ready → s.lh.n = 0) :
    Reserved sb used s where
  outstanding := by rw [ho, ha]; rfl
  nodup := by rw [ha]; exact .nil
  quiet _ := ha
  busy := hc
  empty _ := he
  named op h := by rw [ha] at h; cases h
  room := by
    rw [ha]
    simpa [pending] using hn
  head h := absurd h hb

section
variable (h : Reserved sb used s)
include h

/-- `begin_op` lets an operation in only if there is room for it. -/
theorem Reserved.beginOp (hg : s.phase = .ready ∨ s.committing = true) (hop : op ∉ s.active)
    (hb : s.beginOp op = some s') : Reserved sb (update used op ∅) s' := by
  unfold State.beginOp at hb
  split at hb
  · cases hb
  rename_i hc
  split at hb
  · cases hb
  rename_i hroom
  cases hb
  have hready : s.phase = .ready := hg.resolve_right hc
  have hold : ∀ o ∈ s.active, update used op ∅ o = used o := by
    intro o ho
    refine update_of_ne ?_ _ _
    rintro rfl
    exact hop ho
  refine ⟨?_, ?_, ?_, ?_, ?_, ?_, ?_, ?_⟩
  · simp [h.outstanding]
  · exact List.nodup_cons.mpr ⟨hop, h.nodup⟩
  · exact fun hne => absurd hready hne
  · exact fun hct => absurd hct hc
  · intro hnil
    cases hnil
  · intro o ho b hbo
    rcases List.mem_cons.mp ho with rfl | ho
    · simp at hbo
    · rw [hold o ho] at hbo
      exact h.named o ho b hbo
  · -- an empty log has room for one operation; otherwise the test
    -- leaves a block of slack for each operation in progress
    have hle := pending_le used s.active
    have hsum : pending (update used op ∅) (op :: s.active)
        = (maxopblocks - 1) + pending used s.active := by
      rw [← pending_congr hold]
      simp [pending]
    show s.lh.n + pending (update used op ∅) (op :: s.active) ≤ logsize - 2
    rw [hsum]
    rw [h.outstanding] at hroom
    simp only [maxopblocks, logsize] at hroom hle ⊢
    rcases Nat.eq_zero_or_pos s.active.length with hlen | hlen
    · have := h.empty (List.length_eq_zero_iff.mp hlen) (.inr hready)
      omega
    · omega
  · exact fun hbt => absurd (hready.symm.trans hbt) (by simp)

theorem Reserved.bread (b : Nat) : Reserved sb used (s.bread b).2 := by
  refine h.of_same (by simp) (by simp) (by simp) (by simp) (by simp) fun hp => ?_
  obtain ⟨hcount, hclean⟩ := h.head hp
  rw [State.bread_disk]
  refine ⟨hcount, ?_⟩
  intro c hc
  unfold State.bread at hc
  split at hc
  · exact hclean c hc
  · by_cases hbl : sb.logstart = b
    · subst hbl
      simp only [update_self, Option.some.injEq] at hc
      rw [← hc]
    · simp only [update_of_ne hbl] at hc
      exact hclean c hc

/-- `log_write` takes from what its operation has reserved: a block it
passed before is in the log already. -/
theorem Reserved.logWrite {b : UInt32} (data : Block) (hop : op ∈ s.active)
    (hb : (insert b.toNat (used op)).card ≤ maxopblocks - 1) :
    Reserved sb (update used op (insert b.toNat (used op))) (s.logWrite op b data) := by
  have hne : s.active ≠ [] := List.ne_nil_of_mem hop
  have hready : s.phase = .ready := by
    by_contra hp
    exact hne (h.quiet hp)
  have hold : ∀ o ∈ s.active.erase op,
      update used op (insert b.toNat (used op)) o = used o := by
    intro o ho
    refine update_of_ne ?_ _ _
    rintro rfl
    exact h.nodup.not_mem_erase ho
  refine ⟨h.outstanding, h.nodup, fun hp => absurd hready hp,
    fun hc => absurd hready (h.busy hc), fun ha => absurd ha hne, ?_, ?_,
    fun hbt => absurd (hready.symm.trans hbt) (by simp)⟩
  · intro o ho c hc
    refine (named_absorb s.lh b.toNat c).mpr ?_
    by_cases heq : o = op
    · subst heq
      rw [update_self, Finset.mem_insert] at hc
      rcases hc with hc | hc
      · exact .inr hc
      · exact .inl (h.named o ho c hc)
    · rw [update_of_ne heq] at hc
      exact .inl (h.named o ho c hc)
  · have hroom := h.room
    rw [pending_erase hop] at hroom
    show (State.absorb s.lh b.toNat).n + pending _ s.active ≤ logsize - 2
    rw [pending_erase hop, pending_congr hold, update_self]
    rcases slot_cases s.lh b.toNat with ⟨hlt, -⟩ | ⟨heq, hnew⟩
    · have hn : (State.absorb s.lh b.toNat).n = s.lh.n := by
        simp only [State.absorb]
        rw [if_neg (by omega)]
      have hcard : (used op).card ≤ (insert b.toNat (used op)).card :=
        Finset.card_le_card (Finset.subset_insert _ _)
      omega
    · have hn : (State.absorb s.lh b.toNat).n = s.lh.n + 1 := by
        simp only [State.absorb]
        rw [if_pos heq]
      have hfresh : b.toNat ∉ used op := fun hin => hnew (h.named op hop _ hin)
      rw [Finset.card_insert_of_notMem hfresh] at hb ⊢
      omega

/-- `end_op` gives back what the operation did not use; after the last one
the log is committed. -/
theorem Reserved.endOp (hop : op ∈ s.active) (he : s.endOp op = .ok s') : Reserved sb used s' := by
  have hready : s.phase = .ready := by
    by_contra hp
    have := h.quiet hp
    rw [this] at hop
    cases hop
  have hlen : (s.active.erase op).length = s.outstanding - 1 := by
    rw [List.length_erase_of_mem hop, h.outstanding]
  have hroom := h.room
  rw [pending_erase hop] at hroom
  unfold State.endOp at he
  simp only at he
  split at he
  · cases he
  rename_i hc
  split at he
  · next hz =>
    cases he
    have hnil : s.active.erase op = [] := List.length_eq_zero_iff.mp (hlen.trans hz)
    refine .of_quiet hz hnil ?_ ?_ (by dsimp only; omega) ?_
    · intro _
      dsimp only
      split <;> simp
    · dsimp only
      split <;> simp
    · dsimp only
      split
      · intro hbad
        simp at hbad
      · intro _
        omega
  rename_i hz
  cases he
  refine ⟨hlen.symm, h.nodup.erase op, fun hp => absurd hready hp, h.busy, ?_, ?_,
    by dsimp only; omega, h.head⟩
  · intro hnil
    dsimp only at hnil
    rw [hnil] at hlen
    exact absurd hlen.symm hz
  · intro o ho
    exact h.named o (List.mem_of_mem_erase ho)

/-- Commit and recovery run between operations and only shorten the log. -/
theorem Reserved.advance (ha : s.advance sb = some s') : Reserved sb used s' := by
  have hnr : s.phase ≠ .ready := by
    intro hp
    simp [State.advance, hp] at ha
  have hact := h.quiet hnr
  have hout : s.outstanding = 0 := by
    rw [h.outstanding, hact]
    rfl
  have hroom : s.lh.n ≤ logsize - 2 := by
    have := h.room
    omega
  unfold State.advance at ha
  cases hp : s.phase with
  | booting =>
    rw [hp] at ha
    cases ha
    obtain ⟨hcount, hclean⟩ := h.head hp
    have hcached : s.cached sb.logstart = s.disk sb.logstart := by
      unfold State.cached
      cases hb : s.buf sb.logstart with
      | none => rfl
      | some c => exact hclean c hb
    have hn : (s.readHead sb).lh.n = 0 := by
      simp only [State.readHead, State.bread_fst, hcached, hcount]
    refine .of_quiet ?_ ?_ (by simp) (by simp) (by simp only [hn]; omega) (by simp)
    · simpa [State.readHead] using hout
    · simpa [State.readHead] using hact
  | writeLog tail =>
    rw [hp] at ha
    simp only [Option.some.injEq] at ha
    have hw := State.wrote_writeLogOne sb s tail
    split at ha
    · subst ha
      refine .of_quiet (hw.outstanding.trans hout) (hw.active.trans hact) (by simp) (by simp) ?_
        (by simp)
      simpa only [hw.lh] using hroom
    · subst ha
      exact .of_quiet hout hact (by simp) (by simp) hroom (by simp)
  | writeHead =>
    rw [hp] at ha
    cases ha
    have hw := State.wrote_writeHead sb s
    refine .of_quiet (hw.outstanding.trans hout) (hw.active.trans hact) (by simp) (by simp) ?_
      (by simp)
    simpa only [hw.lh] using hroom
  | install tail =>
    rw [hp] at ha
    simp only [Option.some.injEq] at ha
    have hw := State.wrote_installOne sb s tail
    split at ha
    · subst ha
      refine .of_quiet (hw.outstanding.trans hout) (hw.active.trans hact) (by simp) (by simp) ?_
        (by simp)
      simpa only [hw.lh] using hroom
    · subst ha
      exact .of_quiet hout hact (by simp) (by simp) hroom (by simp)
  | eraseHead =>
    rw [hp] at ha
    cases ha
    have hw := State.wrote_writeHead sb { s with lh := { s.lh with n := 0 } }
    have hn : (s.eraseHead sb).lh.n = 0 := congrArg Header.n hw.lh
    exact .of_quiet (hw.outstanding.trans hout) (hw.active.trans hact) (by simp) (by simp)
      (by simp only [hn]; omega) (fun _ => hn)
  | release =>
    rw [hp] at ha
    cases ha
    have hn := h.empty hact (.inl hp)
    exact .of_quiet hout hact (by simp) (by simp) hroom (fun _ => hn)
  | ready => exact absurd hp hnr

/-- **Every action keeps the reservation**, as long as the machine stays up
and its operation within `MAXOPBLOCKS - 1` blocks. -/
theorem Reserved.step {a : Act} (hup : StaysUp a) (hb : Budgeted (maxopblocks - 1) used a)
    (hn : s.next sb a = some s') : Reserved sb (pass used a) s' := by
  have hs := next_eq_some hn
  cases a with
  | beginOp op =>
    simp only [State.step] at hs
    split at hs
    · next hg =>
      obtain ⟨s₁, hs₁, heq⟩ := Option.map_eq_some_iff.mp hs
      cases heq
      exact h.beginOp hg.1 hg.2 hs₁
    · cases hs
  | write op b =>
    simp only [State.step] at hs
    split at hs
    · obtain ⟨-, -, hs⟩ := logTest_ok (Option.some.inj hs)
      rw [hs]
      exact (h.bread b.toNat).of_same rfl rfl rfl rfl rfl (h.bread b.toNat).head
    · cases hs
  | append op b data =>
    simp only [State.step] at hs
    split at hs
    · next hg =>
      cases hs
      exact h.logWrite data hg.1 hb
    · cases hs
  | endOp op =>
    simp only [State.step] at hs
    split at hs
    · next hg => exact h.endOp hg.1 (Option.some.inj hs)
    · cases hs
  | advance =>
    obtain ⟨s₁, hs₁, heq⟩ := Option.map_eq_some_iff.mp hs
    cases heq
    exact h.advance hs₁
  | read b =>
    cases hs
    exact h.bread b
  | evict b =>
    simp only [State.step] at hs
    split at hs
    · next c hb' =>
      split at hs
      · cases hs
      · cases hs
        refine h.of_same rfl rfl rfl rfl rfl fun hp => ?_
        obtain ⟨hcount, hclean⟩ := h.head hp
        refine ⟨hcount, ?_⟩
        intro c' hc'
        by_cases hbl : sb.logstart = b
        · subst hbl
          simp at hc'
        · simp only [update_of_ne hbl] at hc'
          exact hclean c' hc'
    · cases hs
  | crash => exact hup.elim

end

theorem reserved_run {d : Nat → Block} {tr : List (State × Act)} (hd : (header sb d).n = 0)
    (hr : Run (State.next sb) (boot d) tr s) (hup : Meets (fun _ => StaysUp) tr)
    (hw : Within (maxopblocks - 1) tr) : Reserved sb (passed tr) s := by
  refine Run.history (I := fun tr s => Within (maxopblocks - 1) tr → Reserved sb (passed tr) s)
    ?_ ?_ hr hup hw
  · intro _
    exact reserved_boot hd
  · intro tr s a s' _ ih ha hn hwa
    obtain ⟨hw, hba⟩ := (within_snoc _ _ _ _).mp hwa
    rw [passed_snoc]
    exact (ih hw).step ha hba hn

/-- **The reservation suffices for `MAXOPBLOCKS - 1` blocks.** On a log of
`LOGSIZE` blocks, in every run of a machine that stays up in which no
operation passes more than `MAXOPBLOCKS - 1` distinct blocks to
`log_write`: the next such `log_write` does not panic for want of space,
and every block of the log has its slot inside the log area. -/
theorem reservation_suffices {d : Nat → Block} {tr : List (State × Act)}
    (hlog : sb.nlog = logsize) (hd : (header sb d).n = 0)
    (hr : Run (State.next sb) (boot d) tr s) (hup : Meets (fun _ => StaysUp) tr)
    (hw : Within (maxopblocks - 1) tr) :
    (∀ op b, Budgeted (maxopblocks - 1) (passed tr) (.write op b) →
      s.step sb (.write op b) ≠ some (.error "too big a transaction")) ∧
    ∀ i < s.lh.n, sb.inLog (sb.logstart + i + 1) := by
  have hres := reserved_run hd hr hup hw
  have hn : s.lh.n ≤ logsize - 2 := by
    have := hres.room
    omega
  constructor
  · intro op b _ hbad
    simp only [State.step] at hbad
    split at hbad
    · have hsmall : ¬ (logsize ≤ s.lh.n ∨ sb.nlog ≤ s.lh.n + 1) := by
        simp only [logsize, maxopblocks] at hn hlog ⊢
        omega
      have herr := Option.some.inj hbad
      simp only [State.logTest, State.bread_lh, if_neg hsmall] at herr
      split at herr
      · simp at herr
      · cases herr
    · cases hbad
  · intro i hi
    exact inLog_slot (by simp only [logsize] at hn hlog; omega)

end

/-- The log as `mkfs` lays it out. -/
def mkfsLog : Superblock := ⟨2, logsize⟩

/-- Boot from an empty log, begin three operations, and let each pass `m`
blocks of its own to `log_write`, up to `n` in all. -/
def threeOps (m n : Nat) : List Act :=
  List.replicate 4 .advance ++ [.beginOp 0, .beginOp 1, .beginOp 2] ++
    (List.range n).flatMap fun i =>
      [.write (i / m) (UInt32.ofNat (100 + i)), .append (i / m) (UInt32.ofNat (100 + i)) fun _ => 1]

/-- Three operations of `MAXOPBLOCKS - 1` blocks. -/
def nineEach : List (State × Act) × State :=
  (follow (State.next mkfsLog) (boot fun _ _ => 0) (threeOps 9 27)).get (by decide +kernel)

theorem reservation_suffices_nineEach : nineEach.2.lh.n = 27 ∧
    nineEach.2.step mkfsLog (.write 0 100) ≠ some (.error "too big a transaction") ∧
    mkfsLog.inLog (mkfsLog.logstart + 26 + 1) := by
  have hr : Run (State.next mkfsLog) (boot fun _ _ => 0) nineEach.1 nineEach.2 := run_get _
  have hfacts : Meets (fun _ => StaysUp) nineEach.1 ∧ Within (maxopblocks - 1) nineEach.1 ∧
      Budgeted (maxopblocks - 1) (passed nineEach.1) (.write 0 100) ∧
      nineEach.2.lh.n = 27 := by decide +kernel
  obtain ⟨hup, hw, hb, hn⟩ := hfacts
  obtain ⟨hpanic, hslots⟩ := reservation_suffices rfl (by decide +kernel) hr hup hw
  exact ⟨hn, hpanic 0 100 hb, hslots 26 (by omega)⟩

/-- Three operations of `MAXOPBLOCKS` blocks, before the last block. -/
def tenEach : List (State × Act) × State :=
  (follow (State.next mkfsLog) (boot fun _ _ => 0) (threeOps 10 29)).get (by decide +kernel)

/-- The last block of the third operation is within its budget, and the
log is full. -/
theorem log_too_small : mkfsLog.nlog = logsize ∧
    Run (State.next mkfsLog) (boot fun _ _ => 0) tenEach.1 tenEach.2 ∧
    Meets (fun _ => StaysUp) tenEach.1 ∧ Within maxopblocks tenEach.1 ∧
    Budgeted maxopblocks (passed tenEach.1) (.write 2 129) ∧
    tenEach.2.step mkfsLog (.write 2 129) = some (.error "too big a transaction") := by
  have hr : Run (State.next mkfsLog) (boot fun _ _ => 0) tenEach.1 tenEach.2 := run_get _
  have hfacts : Meets (fun _ => StaysUp) tenEach.1 ∧ Within maxopblocks tenEach.1 ∧
      Budgeted maxopblocks (passed tenEach.1) (.write 2 129) ∧
      (2 ∈ tenEach.2.active ∧ tenEach.2.checked 2 = none ∧
        ∀ o ∈ tenEach.2.active, tenEach.2.checked o ≠ some 129) ∧
      tenEach.2.lh.n = 29 := by decide +kernel
  obtain ⟨hup, hw, hb, hact, hn⟩ := hfacts
  refine ⟨rfl, hr, hup, hw, hb, ?_⟩
  have hfull : logsize ≤ tenEach.2.lh.n ∨ mkfsLog.nlog ≤ tenEach.2.lh.n + 1 := by
    right
    rw [hn]
    exact Nat.le_refl _
  simp only [State.step, if_pos hact, State.logTest, State.bread_lh, if_pos hfull]

end Xv6.Fs
