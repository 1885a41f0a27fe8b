/-
Xv6.Kern.JoinTheorems — who created a thread, and who can join it.

`p->pthread` is a pointer to a table entry, and entries are used again.
What it should point to is a matter of HISTORY, so the history is written
down apart from the model: `Births` counts, along a run, how often each
entry was taken, and keeps for an entry taken by `KT_Create` its caller,
with the number the caller's entry had at that time. The field agrees with
the history as long as nobody exits while a thread it created is there:
`exit` hands children to `initproc`, but not threads.
-/
import Xv6.Kern.SpaceTheorems

namespace Xv6.Kern

open Xv6.Lib Xv6.Mem Function

variable {ncpu : Nat}

/-! ## The history of table entries -/

/-- How often each entry was taken; and, for an entry that `KT_Create`
took, the caller's entry and how often that one had been taken. -/
structure Births where
  count : ProcIdx → Nat
  creator : ProcIdx → Option (ProcIdx × Nat)

namespace Births

def none : Births where
  count := fun _ => 0
  creator := fun _ => .none

/-- A step after which other entries are in use; `maker` is the caller if
it was a `KT_Create`. -/
def note (b : Births) (old new : ProcIdx → Bool) (maker : Option ProcIdx) : Births where
  count := fun q => if !old q && new q then b.count q + 1 else b.count q
  creator := fun q =>
    if new q then
      if old q then b.creator q else maker.map fun p => (p, b.count p)
    else .none

section
variable {b : Births} {old new : ProcIdx → Bool} (maker : Option ProcIdx) {z nt : ProcIdx}

theorem note_same (h : ∀ q, new q = old q) (hb : ∀ q, old q = false → b.creator q = .none) :
    b.note old new maker = b := by
  have hc : (b.note old new maker).count = b.count := by
    funext q
    simp [note, h q]
  have hm : (b.note old new maker).creator = b.creator := by
    funext q
    cases ho : old q with
    | true => simp [note, h q, ho]
    | false => simp [note, h q, ho, hb q ho]
  cases b
  simp only [note] at hc hm ⊢
  rw [hc, hm]

theorem note_death (hz : new z = false) (h : ∀ q, q ≠ z → new q = old q)
    (hb : ∀ q, old q = false → b.creator q = .none) :
    (b.note old new maker).count = b.count ∧
      (b.note old new maker).creator = Function.update b.creator z .none := by
  constructor
  · funext q
    by_cases hq : q = z
    · simp [note, hq, hz]
    · simp [note, h q hq]
  · funext q
    by_cases hq : q = z
    · subst hq
      simp [note, hz]
    · cases ho : old q with
      | true => simp [note, h q hq, ho, hq]
      | false => simp [note, h q hq, ho, hq, hb q ho]

theorem note_birth (hnt : old nt = false) (hnew : new nt = true)
    (h : ∀ q, q ≠ nt → new q = old q) (hb : ∀ q, old q = false → b.creator q = .none) :
    (b.note old new maker).count = Function.update b.count nt (b.count nt + 1) ∧
      (b.note old new maker).creator
        = Function.update b.creator nt (maker.map fun p => (p, b.count p)) := by
  constructor
  · funext q
    by_cases hq : q = nt
    · subst hq
      simp [note, hnt, hnew]
    · simp [note, h q hq, hq]
  · funext q
    by_cases hq : q = nt
    · subst hq
      simp [note, hnt, hnew]
    · cases ho : old q with
      | true => simp [note, h q hq, ho, hq]
      | false => simp [note, h q hq, ho, hq, hb q ho]

end

end Births

/-! ## The field and the history -/

/-- The entries in use. -/
def inUse (th : ProcIdx → Option Thread) (q : ProcIdx) : Bool := (th q).isSome

theorem inUse_eq_false {th : ProcIdx → Option Thread} {q : ProcIdx} :
    inUse th q = false ↔ th q = none := by
  simp [inUse]

/-- `pthread` is the creator, which is alive; and a thread whose creation
was completed has its directory and stack list. -/
structure JoinInv (b : Births) (th : ProcIdx → Option Thread) : Prop where
  known : ∀ q u c, th q = some u → u.pthread = some c → b.creator q = some (c, b.count c)
  created : ∀ q c n, b.creator q = some (c, n) → ∃ u, th q = some u ∧ u.pthread = some c
  alive : ∀ q u c, th q = some u → u.pthread = some c → ∃ v, th c = some v ∧ v.life = .live
  family : ∀ q u c v, th q = some u → u.pthread = some c → u.life ≠ .embryo → th c = some v →
    u.psl ≠ none ∧ v.psl = u.psl ∧ v.pgdir = u.pgdir

section
variable {b b' : Births} {th th' : ProcIdx → Option Thread} {maker : Option ProcIdx}
  {p q z nt : ProcIdx} {t t' u : Thread}

theorem JoinInv.creator_none (h : JoinInv b th) (q : ProcIdx) (hq : inUse th q = false) :
    b.creator q = none := by
  cases hc : b.creator q with
  | none => rfl
  | some cn =>
    obtain ⟨u, hu, -⟩ := h.created q cn.1 cn.2 hc
    rw [inUse_eq_false.mp hq] at hu
    cases hu

/-- A live thread changes. It keeps `pthread`; it stays alive, unless it
has no threads; and its list and directory stay, unless it had no list, and
so neither threads nor a creator to agree with. -/
theorem JoinInv.update (h : JoinInv b th) (ht : th p = some t) (hl : t.life ≠ .embryo)
    (hp : t'.pthread = t.pthread)
    (hlive : t'.life = .live ∨ ∀ q u, th q = some u → u.pthread ≠ some p)
    (hsame : t.psl = none ∨ (t'.psl = t.psl ∧ t'.pgdir = t.pgdir)) :
    JoinInv b (Function.update th p (some t')) := by
  -- the thread an entry was before
  have hold : ∀ q u, Function.update th p (some t') q = some u → ∃ v, th q = some v ∧
      u.pthread = v.pthread ∧ (u.life ≠ .embryo → v.life ≠ .embryo) ∧
      (v.psl = none ∨ (u.psl = v.psl ∧ u.pgdir = v.pgdir)) := by
    intro q u hq
    rw [update_apply] at hq
    split at hq
    · next hqp =>
      cases hq
      exact ⟨t, hqp ▸ ht, hp, fun _ => hl, hsame⟩
    · exact ⟨u, hq, rfl, id, .inr ⟨rfl, rfl⟩⟩
  refine ⟨?_, ?_, ?_, ?_⟩
  · intro q u c hq hc
    obtain ⟨v, hv, hpv, -, -⟩ := hold q u hq
    exact h.known q v c hv (hpv ▸ hc)
  · intro q c n hq
    obtain ⟨u, hu, hc⟩ := h.created q c n hq
    by_cases hqp : q = p
    · subst hqp
      rw [ht] at hu
      cases hu
      exact ⟨t', update_self .., hp.trans hc⟩
    · exact ⟨u, by rw [update_of_ne hqp, hu], hc⟩
  · intro q u c hq hc
    obtain ⟨v, hv, hpv, -, -⟩ := hold q u hq
    obtain ⟨v', hv', hl'⟩ := h.alive q v c hv (hpv ▸ hc)
    by_cases hcp : c = p
    · subst hcp
      rcases hlive with hlive | hnone
      · exact ⟨t', update_self .., hlive⟩
      · exact absurd (hpv ▸ hc) (hnone q v hv)
    · exact ⟨v', by rw [update_of_ne hcp, hv'], hl'⟩
  · intro q u c v hq hc hne hv
    obtain ⟨u₀, hu₀, hpu, hlu, hsu⟩ := hold q u hq
    obtain ⟨v₀, hv₀, -, -, hsv⟩ := hold c v hv
    obtain ⟨hn, hpsl, hd⟩ := h.family q u₀ c v₀ hu₀ (hpu ▸ hc) (hlu hne) hv₀
    rcases hsu with h0 | ⟨hu1, hu2⟩
    · exact absurd h0 hn
    · rcases hsv with h0 | ⟨hv1, hv2⟩
      · rw [hpsl] at h0
        exact absurd h0 hn
      · rw [hu1, hu2, hv1, hv2]
        exact ⟨hn, hpsl, hd⟩

theorem JoinInv.note_same (h : JoinInv b th') (hu : ∀ q, inUse th' q = inUse th q) :
    JoinInv (b.note (inUse th) (inUse th') maker) th' := by
  rw [Births.note_same maker hu]
  · exact h
  · intro q hq
    exact h.creator_none q ((hu q).trans hq)

theorem JoinInv.death (h : JoinInv b th) (hz : th z = some u) (hl : u.life = .zombie) :
    JoinInv (b.note (inUse th) (inUse (Function.update th z none)) maker)
      (Function.update th z none) := by
  have hnew : inUse (Function.update th z none) z = false := by simp [inUse]
  obtain ⟨hcount, hcreator⟩ := Births.note_death maker hnew (fun q hq => by simp [inUse, hq])
    h.creator_none
  have hold : ∀ q v, Function.update th z none q = some v → q ≠ z ∧ th q = some v := by
    intro q v hq
    rw [update_apply] at hq
    split at hq
    · cases hq
    · next hne => exact ⟨hne, hq⟩
  refine ⟨?_, ?_, ?_, ?_⟩
  · intro q v c hq hc
    obtain ⟨hne, hq⟩ := hold q v hq
    rw [hcount, hcreator, update_of_ne hne]
    exact h.known q v c hq hc
  · intro q c n hq
    rw [hcreator, update_apply] at hq
    split at hq
    · cases hq
    rename_i hne
    obtain ⟨v, hv, hc⟩ := h.created q c n hq
    exact ⟨v, by rw [update_of_ne hne, hv], hc⟩
  · intro q v c hq hc
    obtain ⟨-, hq⟩ := hold q v hq
    obtain ⟨v', hv', hl'⟩ := h.alive q v c hq hc
    refine ⟨v', ?_, hl'⟩
    rw [update_of_ne, hv']
    rintro rfl
    rw [hz] at hv'
    cases hv'
    rw [hl] at hl'
    cases hl'
  · intro q v c v' hq hc hne hv'
    exact h.family q v c v' (hold q v hq).2 hc hne (hold c v' hv').2

/-- An entry is taken: by `fork`, for a process without creator, or by
`KT_Create` of `p`. -/
theorem JoinInv.birth (h : JoinInv b th) (hnt : th nt = none)
    (hmaker : u.pthread = maker)
    (hp : ∀ p, maker = some p → ∃ t, th p = some t ∧ t.life = .live ∧
      (u.life ≠ .embryo → u.psl ≠ none ∧ t.psl = u.psl ∧ t.pgdir = u.pgdir)) :
    JoinInv (b.note (inUse th) (inUse (Function.update th nt (some u))) maker)
      (Function.update th nt (some u)) := by
  have hnew : inUse (Function.update th nt (some u)) nt = true := by simp [inUse]
  obtain ⟨hcount, hcreator⟩ := Births.note_birth maker (inUse_eq_false.mpr hnt) hnew
    (fun q hq => by simp [inUse, hq]) h.creator_none
  have hold : ∀ q v, Function.update th nt (some u) q = some v →
      (q = nt ∧ v = u) ∨ (q ≠ nt ∧ th q = some v) := by
    intro q v hq
    rw [update_apply] at hq
    split at hq
    · next hqn => exact .inl ⟨hqn, (Option.some.inj hq).symm⟩
    · next hne => exact .inr ⟨hne, hq⟩
  -- a creator was in use before, so it is another entry
  have hother : ∀ q v c, Function.update th nt (some u) q = some v → v.pthread = some c →
      c ≠ nt ∧ ∃ t, th c = some t ∧ t.life = .live := by
    intro q v c hq hc
    have hlive : ∃ t, th c = some t ∧ t.life = .live := by
      rcases hold q v hq with ⟨-, rfl⟩ | ⟨-, hq⟩
      · obtain ⟨t, ht, hl, -⟩ := hp c (hmaker.symm.trans hc)
        exact ⟨t, ht, hl⟩
      · exact h.alive q v c hq hc
    refine ⟨?_, hlive⟩
    rintro rfl
    obtain ⟨t, ht, -⟩ := hlive
    rw [hnt] at ht
    cases ht
  refine ⟨?_, ?_, ?_, ?_⟩
  · intro q v c hq hc
    have hne := (hother q v c hq hc).1
    rw [hcount, hcreator, update_of_ne hne]
    rcases hold q v hq with ⟨rfl, rfl⟩ | ⟨hqn, hq⟩
    · rw [update_self, ← hmaker, hc]
      rfl
    · rw [update_of_ne hqn]
      exact h.known q v c hq hc
  · intro q c n hq
    rw [hcreator, update_apply] at hq
    split at hq
    · next hqn =>
      obtain ⟨p, hm, heq⟩ := Option.map_eq_some_iff.mp hq
      cases heq
      exact ⟨u, by rw [hqn, update_self], hmaker.trans hm⟩
    rename_i hne
    obtain ⟨v, hv, hc⟩ := h.created q c n hq
    exact ⟨v, by rw [update_of_ne hne, hv], hc⟩
  · intro q v c hq hc
    obtain ⟨hne, t, ht, hl⟩ := hother q v c hq hc
    exact ⟨t, by rw [update_of_ne hne, ht], hl⟩
  · intro q v c v' hq hc hne hv'
    have hcn := (hother q v c hq hc).1
    rw [update_of_ne hcn] at hv'
    rcases hold q v hq with ⟨-, rfl⟩ | ⟨-, hq⟩
    · obtain ⟨t, ht, -, hkin⟩ := hp c (hmaker.symm.trans hc)
      rw [hv'] at ht
      cases ht
      exact hkin hne
    · exact h.family q v c v' hq hc hne hv'

end

/-- The caller, if the call is a `KT_Create`. -/
def Call.maker (p : ProcIdx) : Call → Option ProcIdx
  | .ktCreate _ _ => some p
  | _ => none

namespace World

section
variable {b : Births} {w w' : World} {p : ProcIdx} {t : Thread} {fits : Nat → Nat → Prop}
  {op : Call}

theorem joinReap_thread (w : World) (z : ProcIdx) (u : Thread) :
    (w.joinReap z u).thread = Function.update w.thread z none := by
  unfold joinReap
  split <;> simp [World.set]

theorem joinInv_spawned {old : ProcIdx → Option Thread} {i : Int} (h : JoinInv b w.thread)
    (ht : w.thread p = some t) (hl : t.life = .live) (hpsl : t.psl ≠ none)
    (hold : ∀ q, inUse w.thread q = inUse old q) (hs : Spawned w p t i w') :
    JoinInv (b.note (inUse old) (inUse w'.thread) (some p)) w'.thread := by
  have hold' : inUse w.thread = inUse old := funext hold
  cases hs with
  | none => exact h.note_same hold
  | thread nt hnt =>
    rw [← hold']
    refine h.birth hnt rfl fun p' hp' => ?_
    cases hp'
    exact ⟨t, ht, hl, fun _ => ⟨hpsl, rfl, rfl⟩⟩

/-- **The field follows the history**, if a process exits only when the
threads it created are gone, and calls `exec` only without a stack list. -/
theorem JoinInv.step (hi : SlotInv w) (h : JoinInv b w.thread) (ht : w.thread p = some t)
    (hl : t.life = .live) (hexit : op = .exit → ∀ q u, w.thread q = some u → u.pthread ≠ some p)
    (hexec : ∀ f, op = .exec f → t.psl = none) (hstep : Step fits w p t op w') :
    JoinInv (b.note (inUse w.thread) (inUse w'.thread) (op.maker p)) w'.thread := by
  have hne : t.life ≠ .embryo := by simp [hl]
  have hstays : ∀ t', ∀ q, inUse (Function.update w.thread p (some t')) q = inUse w.thread q := by
    intro t' q
    by_cases hq : q = p
    · subst hq
      simp [inUse, ht]
    · simp [inUse, hq]
  have hupd : ∀ {t' : Thread} {m}, t'.pthread = t.pthread → t'.life = .live →
      (t.psl = none ∨ (t'.psl = t.psl ∧ t'.pgdir = t.pgdir)) →
      JoinInv (b.note (inUse w.thread) (inUse (Function.update w.thread p (some t'))) m)
        (Function.update w.thread p (some t')) := fun hp hl' hs =>
    (h.update ht hne hp (.inl hl') hs).note_same (hstays _)
  have hkeep : ∀ {m}, JoinInv (b.note (inUse w.thread) (inUse w.thread) m) w.thread :=
    h.note_same fun _ => rfl
  have hreap : ∀ {z u}, w.thread z = some u → u.life = .zombie →
      JoinInv (b.note (inUse w.thread) (inUse (w.waitReap z u).thread) none)
        (w.waitReap z u).thread := by
    intro z u hz hzl
    have hth : (w.waitReap z u).thread = Function.update w.thread z none := by
      cases hu : u.psl with
      | none =>
        rw [waitReap_of_none hu]
        rfl
      | some s =>
        rw [waitReap_of_some hu, World.set, clear_thread]
    rw [hth]
    exact h.death hz hzl
  cases hstep with
  | stay => exact hkeep
  | exit hp =>
    have hz : JoinInv b (Function.update w.thread p (some { t with life := .zombie })) :=
      h.update ht hne rfl (.inr (hexit rfl)) (.inr ⟨rfl, rfl⟩)
    exact hz.note_same (hstays _)
  | wait z u hz hzl => exact hreap hz hzl
  | ktJoin z u hz hzl _ =>
    rw [joinReap_eq_waitReap hi hz]
    exact hreap hz hzl
  | fork np hnp => exact h.birth hnp rfl fun p' hp' => by cases hp'
  | grow | shrink => exact hupd rfl hl (.inr ⟨rfl, rfl⟩)
  | exec f sz => exact hupd rfl hl (.inl (hexec f rfl))
  | forkFailed | growFailed | shrinkFailed | execFailed => exact hkeep
  | ktEmbryo fnc arg nt _ _ _ hnt =>
    refine h.birth hnt rfl fun p' hp' => ?_
    cases hp'
    exact ⟨t, ht, hl, fun hn => absurd rfl hn⟩
  | ktFirst fnc arg s w' _ hpsl _ hsp =>
    have hc : JoinInv b ((w.claim p t s).stack s t.pgdir 1).thread :=
      h.update ht hne rfl (.inl hl) (.inl hpsl)
    exact joinInv_spawned hc (set_thread_self _ _ _) hl (by simp [Thread.claimed])
      (hstays (t.claimed s)) hsp
  | ktFirstBad fnc arg s _ hpsl _ _ => exact hupd rfl hl (.inl hpsl)
  | ktNext fnc arg s i w' _ hpsl _ _ hsp =>
    have hc : JoinInv b ((w.count s).stack s t.pgdir i).thread := h
    exact joinInv_spawned hc ht hl (by simp [hpsl]) (fun _ => rfl) hsp
  | ktNextBad fnc arg s i _ _ _ _ _ => exact hkeep
  | ktNoSlot _ _ s w' _ hpsl hc hf _ => exact absurd hf (hi.findSlot_ne_none ht hpsl hc)

end

end World

/-! ## Runs -/

namespace Kernel

/-- The entries in use. -/
def used (k : Kernel ncpu) (q : ProcIdx) : Bool := (k.proc q).state ≠ .unused

/-- The process whose `KT_Create` the action is. -/
def maker (k : Kernel ncpu) : Act ncpu → Option ProcIdx
  | .call c op => (k.cpu c).bind fun p => op.maker p
  | _ => none

/-- The state an action leads to. -/
def after (k : Kernel ncpu) (a : Act ncpu) : Kernel ncpu := (k.next a).getD k

theorem after_eq {k k' : Kernel ncpu} {a : Act ncpu} (h : k.next a = some k') : k.after a = k' := by
  rw [after, h]
  rfl

/-- The history of a run, read off its trace. -/
def births (tr : List (Kernel ncpu × Act ncpu)) : Births :=
  tr.foldl (fun b e => b.note e.1.used (e.1.after e.2).used (e.1.maker e.2)) .none

/-- An `exit` is called by a process no entry in use has as `pthread`. -/
def exitsJoined (k : Kernel ncpu) : Act ncpu → Bool
  | .call c .exit =>
    match k.cpu c with
    | none => true
    | some p => decide (∀ q, (k.proc q).state ≠ .unused → (k.proc q).pthread ≠ some p)
  | _ => true

section
variable {k k' k₀ : Kernel ncpu} {p : ProcIdx} {t : Thread} {a : Act ncpu}
  {tr : List (Kernel ncpu × Act ncpu)}

theorem used_eq (hc : k.Clean) : k.used = inUse k.world.thread := by
  funext q
  cases ht : k.world.thread q with
  | none => simp [used, inUse, ht, (world_thread_eq_none hc).mp ht]
  | some t => simp [used, inUse, ht, state_ne_unused ht]

theorem births_snoc (hn : k.next a = some k') :
    births (tr ++ [(k, a)]) = (births tr).note k.used k'.used (k.maker a) := by
  simp [births, List.foldl_append, after_eq hn]

theorem exitsJoined_world {c : Fin ncpu} {op : Call} (hcpu : k.cpu c = some p)
    (h : k.exitsJoined (.call c op) = true) :
    op = .exit → ∀ q u, k.world.thread q = some u → u.pthread ≠ some p := by
  rintro rfl q u hu hp
  obtain ⟨-, -, -, hpt, -, -⟩ := world_thread_eq_some.mp hu
  simp only [exitsJoined, hcpu, decide_eq_true_eq] at h
  exact h q (state_ne_unused hu) (hpt.trans hp)

theorem JoinInv.next {b : Births} (hk : Kept k) (h : JoinInv b k.world.thread)
    (hx : k.execUnlisted a = true) (he : k.exitsJoined a = true) (hn : k.next a = some k') :
    JoinInv (b.note k.used k'.used (k.maker a)) k'.world.thread := by
  rw [used_eq hk.clean, used_eq (hk.step hn).clean]
  cases hk.toSound.refined hn with
  | same _ hw =>
    rw [hw]
    exact h.note_same fun _ => rfl
  | call c p t op hcpu ht hl hstep =>
    have hm : k.maker (.call c op) = op.maker p := by
      simp [maker, hcpu]
    rw [hm]
    exact World.JoinInv.step hk.slots h ht hl (exitsJoined_world hcpu he)
      (execUnlisted_world hcpu ht hx) hstep

theorem joinInv_run (h0 : Boot k₀) (hr : Run next k₀ tr k)
    (hok : Meets (fun k a => k.execUnlisted a = true ∧ k.exitsJoined a = true) tr) :
    Kept k ∧ JoinInv (births tr) k.world.thread := by
  refine Run.history (I := fun tr k => Kept k ∧ JoinInv (births tr) k.world.thread)
    ⟨kept_boot h0, ?_⟩ ?_ hr hok
  · have hnone : ∀ q u, k₀.world.thread q = some u → u.pthread = none := by
      intro q u hq
      obtain ⟨-, -, -, hp, -, -⟩ := world_thread_eq_some.mp hq
      rw [← hp, thread_boot h0 hq]
      exact h0.initPthread
    refine ⟨?_, ?_, ?_, ?_⟩
    · intro q u c hq hc
      rw [hnone q u hq] at hc
      cases hc
    · intro q c n hq
      cases hq
    · intro q u c hq hc
      rw [hnone q u hq] at hc
      cases hc
    · intro q u c v hq hc
      rw [hnone q u hq] at hc
      cases hc
  · rintro tr k a k' - ⟨hk, h⟩ ⟨hx, he⟩ hn
    rw [births_snoc hn]
    exact ⟨hk.step hn, JoinInv.next hk h hx he hn⟩

theorem ktJoin_reaps {c : Fin ncpu} {z : ProcIdx} (hs : Sound k) (hcpu : k.cpu c = some p)
    (hn : k.next (.call c .ktJoin) = some k') (hz : (k.proc z).state ≠ .unused)
    (hz' : (k'.proc z).state = .unused) :
    ∃ u, k.world.thread z = some u ∧ u.life = .zombie ∧ u.pthread = some p := by
  have hgone := (world_thread_eq_none (hs.step hn).clean).mpr hz'
  obtain ⟨u, hu⟩ := exists_thread hs.clean hz
  have hne : k'.world.thread z ≠ k.world.thread z := by
    rw [hgone, hu]
    exact fun h => by cases h
  cases hs.refined hn with
  | same _ hw =>
    rw [hw] at hne
    exact absurd rfl hne
  | call _ p' t _ hcpu' _ _ hstep =>
    rw [hcpu] at hcpu'
    cases hcpu'
    generalize k'.world = w' at hne hstep
    cases hstep with
    | stay => exact absurd rfl hne
    | ktJoin z' u' hz' hl hp =>
      have hzz : z = z' := by
        by_contra hzz
        rw [World.joinReap_thread, update_of_ne hzz] at hne
        exact hne rfl
      rw [hzz]
      exact ⟨u', hz', hl, hp⟩

/-- **Threads can be joined.** In a run in which nobody exits before the
threads it created are reaped: `pthread` of a thread is the entry that
created it, and that entry is in use and was not taken again since; a
`KT_Join` gives back only threads its caller created, which have the
caller's page table and stack list; and the creator of a dead thread is
alive. -/
theorem threads_joinable (h0 : Boot k₀) (hr : Run next k₀ tr k)
    (hok : Meets (fun k a => k.execUnlisted a = true ∧ k.exitsJoined a = true) tr) :
    (∀ q c n, (births tr).creator q = some (c, n) →
      (k.proc q).pthread = some c ∧ (k.proc c).state ≠ .unused ∧ (births tr).count c = n) ∧
    (∀ c p k' z, k.cpu c = some p → k.next (.call c .ktJoin) = some k' →
      (k.proc z).state ≠ .unused → (k'.proc z).state = .unused →
      (births tr).creator z = some (p, (births tr).count p) ∧
        (k.proc z).pgdir = (k.proc p).pgdir ∧ (k.proc z).psl = (k.proc p).psl) ∧
    (∀ z c n, (births tr).creator z = some (c, n) → (k.proc z).state = .zombie →
      (k.proc c).state.life = some .live) := by
  obtain ⟨hk, h⟩ := joinInv_run h0 hr hok
  refine ⟨?_, ?_, ?_⟩
  · intro q c n hq
    obtain ⟨u, hu, hc⟩ := h.created q c n hq
    obtain ⟨v, hv, -⟩ := h.alive q u c hu hc
    obtain ⟨-, -, -, hp, -, -⟩ := world_thread_eq_some.mp hu
    have heq := h.known q u c hu hc
    rw [hq] at heq
    cases heq
    exact ⟨hp.trans hc, state_ne_unused hv, rfl⟩
  · intro c p k' z hcpu hn hz hz'
    obtain ⟨u, hu, hl, hp⟩ := ktJoin_reaps hk.toSound hcpu hn hz hz'
    obtain ⟨t, ht, -⟩ := caller hk.sched hk.clean hcpu
    obtain ⟨-, hpsl, hd⟩ := h.family z u p t hu hp (by simp [hl]) ht
    obtain ⟨-, -, hdz, -, hlz, -⟩ := world_thread_eq_some.mp hu
    obtain ⟨-, -, hdp, -, hlp, -⟩ := world_thread_eq_some.mp ht
    rw [hdz, hdp, hlz, hlp, hd, hpsl]
    exact ⟨h.known z u p hu hp, rfl, rfl⟩
  · intro z c n hz _
    obtain ⟨u, hu, hc⟩ := h.created z c n hz
    obtain ⟨v, hv, hl⟩ := h.alive z u c hu hc
    rw [← hl]
    exact (world_thread_eq_some.mp hv).1

end

theorem threads_joinable_slotReused :
    Meets (fun k a => k.execUnlisted a = true ∧ k.exitsJoined a = true) slotReused.1 ∧
    (births slotReused.1).creator 1 = some (0, 0) ∧ (slotReused.2.proc 1).pthread = some 0 := by
  have hr : Run next threadMachine slotReused.1 slotReused.2 := run_get _
  have h : Meets (fun k a => k.execUnlisted a = true ∧ k.exitsJoined a = true) slotReused.1 ∧
      (births slotReused.1).creator 1 = some (0, 0) := by
    decide +kernel
  exact ⟨h.1, h.2, ((threads_joinable boot_threadMachine hr h.1).1 1 0 0 h.2).1⟩

/-- `initproc` forks a child, which starts a thread and exits. `initproc`
waits for it and forks another, which gets its entry. Then the thread exits
and the other child runs. -/
def creatorReplaced : List (Kernel 1 × Act 1) × Kernel 1 :=
  (follow next processMachine
    [.schedule 0 0, .call 0 (.exec onePage), .call 0 .fork, .call 0 .yield, .schedule 0 1,
      .call 0 (.ktCreate pgsize 0), .call 0 .exit, .schedule 0 0, .call 0 .wait, .call 0 .fork,
      .call 0 .yield, .schedule 0 2, .call 0 .exit, .schedule 0 1]).get (by decide +kernel)

/-- The thread was created by the FIRST process in entry 1. The second has
another page table and joins it. -/
theorem stranger_joins : Boot processMachine ∧
    Run next processMachine creatorReplaced.1 creatorReplaced.2 ∧
    (births creatorReplaced.1).creator 2 = some (1, 1) ∧
    (births creatorReplaced.1).count 1 = 2 ∧
    creatorReplaced.2.cpu 0 = some 1 ∧ (creatorReplaced.2.proc 2).state = .zombie ∧
    (creatorReplaced.2.proc 2).pgdir ≠ (creatorReplaced.2.proc 1).pgdir ∧
    creatorReplaced.2.next (.call 0 .ktJoin) = some (creatorReplaced.2.after (.call 0 .ktJoin)) ∧
    ((creatorReplaced.2.after (.call 0 .ktJoin)).proc 2).state = .unused := by
  have h : (births creatorReplaced.1).creator 2 = some (1, 1) ∧
      (births creatorReplaced.1).count 1 = 2 ∧
      creatorReplaced.2.cpu 0 = some 1 ∧ (creatorReplaced.2.proc 2).state = .zombie ∧
      (creatorReplaced.2.proc 2).pgdir ≠ (creatorReplaced.2.proc 1).pgdir ∧
      (creatorReplaced.2.next (.call 0 .ktJoin)).isSome = true ∧
      ((creatorReplaced.2.after (.call 0 .ktJoin)).proc 2).state = .unused := by
    decide +kernel
  obtain ⟨h1, h2, h3, h4, h5, h6, h7⟩ := h
  refine ⟨boot_processMachine, run_get _, h1, h2, h3, h4, h5, ?_, h7⟩
  obtain ⟨k', hk'⟩ := Option.isSome_iff_exists.mp h6
  rw [after_eq hk', hk']

end Kernel

end Xv6.Kern
