/-
Xv6.Kern.ArgTheorems — which user addresses the kernel accepts.

`fetchint`, `fetchstr` and `argptr` compare with `KERNBASE` only. Between
the heap and the stacks nothing is mapped, and the lower page of a stack
slot is mapped for the kernel alone, so an address below `KERNBASE` can be
one that the kernel faults on, or one that the process may not read.

`FetchOk` is what a fetch should do: not fault, and on success give the
kernel only bytes of present, user-accessible pages. Section 1 says when it
does, in terms of the page table; section 2 says which pages are
user-accessible in a run, in terms of `sz` and the stack slots; section 3
puts them together.
-/
import Xv6.Kern.Arg
import Xv6.Kern.GuardTheorems

namespace Xv6.Kern.Kernel

open Xv6.Lib Xv6.Mem

variable {ncpu : Nat}
  {i m : Int} {s z : Nat} {P Q : Nat → Prop} {data : Page → Nat → UInt8} {tf : Trapframe}

/-! ## 1. Loads and fetches -/

/-- The page of user address `a` is present. -/
def Present (k : Kernel ncpu) (p : ProcIdx) (a : Nat) : Prop :=
  ∃ d e, (k.proc p).pgdir = some d ∧ k.vm.entry d (a / pgsize) = some e

/-- The page of user address `a` is present and user-accessible. -/
def Accessible (k : Kernel ncpu) (p : ProcIdx) (a : Nat) : Prop :=
  ∃ d e, (k.proc p).pgdir = some d ∧ k.vm.entry d (a / pgsize) = some e ∧ e.u = true

/-- `P` holds of the `n` addresses from `a` on. -/
def Bytes (P : Nat → Prop) (a n : Nat) : Prop := ∀ b, a ≤ b → b < a + n → P b

/-- A fetch does not fault, and where it succeeds with `x` every byte of
`acc x` is in a page the process may access. -/
def FetchOk {α : Type} (k : Kernel ncpu) (p : ProcIdx) (r : Except String (Option α))
    (acc : α → Nat → Prop) : Prop :=
  (∃ o, r = .ok o) ∧ ∀ x, r = .ok (some x) → ∀ a, acc x a → k.Accessible p a

variable {k : Kernel ncpu} {p : ProcIdx} {a n : Nat} {o : Nat → Bool} {t : Thread}

theorem Accessible.present (h : k.Accessible p a) : k.Present p a := by
  obtain ⟨d, e, hd, he, -⟩ := h
  exact ⟨d, e, hd, he⟩

theorem Bytes.imp (h : Bytes P a n) (hpq : ∀ b, P b → Q b) : Bytes Q a n :=
  fun b h1 h2 => hpq b (h b h1 h2)

theorem bytes_congr (h : ∀ b, P b ↔ Q b) : Bytes P a n ↔ Bytes Q a n := by
  simp [Bytes, h]

theorem load_ok_iff : (∃ b, k.load p a = .ok b) ↔ k.Present p a := by
  unfold load Present Vm.read
  cases hd : (k.proc p).pgdir with
  | none => simp
  | some d => cases he : k.vm.entry d (a / pgsize) <;> simp [he]

theorem loadInt_ok_iff : (∃ i, k.loadInt p a = .ok i) ↔ Bytes (k.Present p) a 4 := by
  constructor
  · rintro ⟨i, hi⟩ b h1 h2
    unfold loadInt at hi
    cases h0 : k.load p a with
    | error m => simp [h0, bind, Except.bind] at hi
    | ok b0 =>
      cases h1' : k.load p (a + 1) with
      | error m => simp [h0, h1', bind, Except.bind] at hi
      | ok b1 =>
        cases h2' : k.load p (a + 2) with
        | error m => simp [h0, h1', h2', bind, Except.bind] at hi
        | ok b2 =>
          cases h3' : k.load p (a + 3) with
          | error m => simp [h0, h1', h2', h3', bind, Except.bind] at hi
          | ok b3 =>
            have hb : b = a ∨ b = a + 1 ∨ b = a + 2 ∨ b = a + 3 := by omega
            rcases hb with rfl | rfl | rfl | rfl
            · exact load_ok_iff.mp ⟨b0, h0⟩
            · exact load_ok_iff.mp ⟨b1, h1'⟩
            · exact load_ok_iff.mp ⟨b2, h2'⟩
            · exact load_ok_iff.mp ⟨b3, h3'⟩
  · intro h
    obtain ⟨b0, h0⟩ := load_ok_iff.mpr (h a (by omega) (by omega))
    obtain ⟨b1, h1⟩ := load_ok_iff.mpr (h (a + 1) (by omega) (by omega))
    obtain ⟨b2, h2⟩ := load_ok_iff.mpr (h (a + 2) (by omega) (by omega))
    obtain ⟨b3, h3⟩ := load_ok_iff.mpr (h (a + 3) (by omega) (by omega))
    exact ⟨_, by simp only [loadInt, h0, h1, h2, h3, bind, Except.bind]; rfl⟩

theorem FetchOk.refused {α : Type} {acc : α → Nat → Prop} : k.FetchOk p (.ok none) acc :=
  ⟨⟨none, rfl⟩, fun _ h => by cases h⟩

theorem fetchint_refused (h : kernbase < a + 4) : k.fetchint p a = .ok none := by
  unfold fetchint
  rw [if_pos]
  simp only [kernbase, toU32] at h ⊢
  omega

theorem fetchint_eq (h : ¬ kernbase < a + 4) :
    k.fetchint p a = (k.loadInt p a).map some := by
  unfold fetchint
  rw [if_neg]
  · cases k.loadInt p a <;> rfl
  · simp only [kernbase, toU32] at h ⊢
    omega

theorem fetchint_fetchOk_iff :
    k.FetchOk p (k.fetchint p a) (fun _ b => a ≤ b ∧ b < a + 4) ↔
      kernbase < a + 4 ∨ Bytes (k.Accessible p) a 4 := by
  by_cases hk : kernbase < a + 4
  · simp [fetchint_refused hk, FetchOk.refused, hk]
  · rw [fetchint_eq hk]
    constructor
    · rintro ⟨⟨o, ho⟩, hacc⟩
      cases hi : k.loadInt p a with
      | error m => simp [hi, Except.map] at ho
      | ok i => exact .inr fun b h1 h2 => hacc i (by simp [hi, Except.map]) b ⟨h1, h2⟩
    · rintro (h | h)
      · exact absurd h hk
      · obtain ⟨i, hi⟩ := loadInt_ok_iff.mpr (h.imp fun _ => Accessible.present)
        exact ⟨⟨some i, by simp [hi, Except.map]⟩, fun _ _ b hb => h b hb.1 hb.2⟩

theorem argptr_eq {size : Int} (hi : k.argint p m = .ok (some i)) (h1 : -2 ^ 31 ≤ size)
    (h2 : size < 2 ^ 31) : k.argptr p m size =
      .ok (if size < 0 ∨ kernbase ≤ toU32 i ∨ (kernbase : Int) < toU32 i + size then none
        else some (toU32 i)) := by
  have hiff : (size < 0 ∨ kernbase ≤ toU32 i ∨ kernbase < toU32 (toU32 i + size)) ↔
      (size < 0 ∨ kernbase ≤ toU32 i ∨ (kernbase : Int) < toU32 i + size) := by
    generalize toU32 i = j
    simp only [kernbase, toU32]
    omega
  simp only [argptr, hi, bind, Except.bind, hiff]
  split <;> rfl

theorem argptr_fetchOk_iff (size : Int) (hi : k.argint p m = .ok (some i)) (h1 : -2 ^ 31 ≤ size)
    (h2 : size < 2 ^ 31) :
    k.FetchOk p (k.argptr p m size) (fun q b => q ≤ b ∧ b < q + size.toNat) ↔
      size < 0 ∨ kernbase ≤ toU32 i ∨ (kernbase : Int) < toU32 i + size ∨
        Bytes (k.Accessible p) (toU32 i) size.toNat := by
  rw [argptr_eq hi h1 h2]
  by_cases hrej : size < 0 ∨ kernbase ≤ toU32 i ∨ (kernbase : Int) < toU32 i + size
  · rw [if_pos hrej]
    exact iff_of_true FetchOk.refused (by tauto)
  · rw [if_neg hrej]
    constructor
    · intro h
      exact .inr (.inr (.inr fun b hb1 hb2 => h.2 _ rfl b ⟨hb1, hb2⟩))
    · intro h
      have hb : Bytes (k.Accessible p) (toU32 i) size.toNat := by tauto
      refine ⟨⟨_, rfl⟩, fun x hx b hb' => ?_⟩
      cases hx
      exact hb b hb'.1 hb'.2

/-! ### Strings -/

theorem fetchstrLoop_some (h : k.fetchstrLoop p n s = .ok (some z)) :
    s ≤ z ∧ z < s + n ∧ k.load p z = .ok 0 := by
  induction n generalizing s with
  | zero => simp [fetchstrLoop] at h
  | succ n ih =>
    cases hb : k.load p s with
    | error m => simp [fetchstrLoop, hb, bind, Except.bind] at h
    | ok b =>
      by_cases h0 : b = 0
      · simp only [fetchstrLoop, hb, bind, Except.bind, h0, if_true] at h
        cases h
        exact ⟨le_refl _, by omega, by rw [hb, h0]⟩
      · simp only [fetchstrLoop, hb, bind, Except.bind, h0, if_false] at h
        obtain ⟨h1, h2, h3⟩ := ih h
        exact ⟨by omega, by omega, h3⟩

theorem fetchstrLoop_none (h : k.fetchstrLoop p n s = .ok none) : Bytes (k.Present p) s n := by
  induction n generalizing s with
  | zero => intro b h1 h2; omega
  | succ n ih =>
    cases hb : k.load p s with
    | error m => simp [fetchstrLoop, hb, bind, Except.bind] at h
    | ok b =>
      by_cases h0 : b = 0
      · simp only [fetchstrLoop, hb, bind, Except.bind, h0, if_true] at h
        cases h
      · simp only [fetchstrLoop, hb, bind, Except.bind, h0, if_false] at h
        intro c h1 h2
        rcases Nat.eq_or_lt_of_le h1 with rfl | hlt
        · exact load_ok_iff.mp ⟨b, hb⟩
        · exact ih h c hlt (by omega)

theorem fetchstrLoop_found (hs : s ≤ z) (hz : z < s + n) (h0 : k.load p z = .ok 0)
    (hp : ∀ b, s ≤ b → b ≤ z → k.Present p b) :
    ∃ z', z' ≤ z ∧ k.fetchstrLoop p n s = .ok (some z') := by
  induction n generalizing s with
  | zero => omega
  | succ n ih =>
    obtain ⟨b, hb⟩ := load_ok_iff.mpr (hp s (le_refl _) hs)
    by_cases hb0 : b = 0
    · exact ⟨s, hs, by simp only [fetchstrLoop, hb, bind, Except.bind, hb0, if_true]; rfl⟩
    · have hne : s ≠ z := by
        rintro rfl
        rw [hb] at h0
        exact hb0 (Except.ok.inj h0)
      obtain ⟨z', h1, h2⟩ := ih (s := s + 1) (by omega) (by omega)
        fun b h1 h2 => hp b (by omega) h2
      refine ⟨z', h1, ?_⟩
      simp only [fetchstrLoop, hb, bind, Except.bind, hb0, if_false]
      exact h2

/-- Where the byte below `KERNBASE` is not mapped, a search for a string
does not end at `KERNBASE`. -/
theorem fetchstr_fetchOk_iff (hend : ¬ k.Present p (kernbase - 1))
    (htop : ∀ b, k.Accessible p b → b < kernbase) :
    k.FetchOk p (k.fetchstr p a) (fun x b => x.1 ≤ b ∧ b ≤ x.1 + x.2) ↔
      kernbase ≤ a ∨ ∃ l, k.load p (a + l) = .ok 0 ∧ Bytes (k.Accessible p) a (l + 1) := by
  by_cases hk : kernbase ≤ a
  · simp [fetchstr, hk, FetchOk.refused]
  · simp only [fetchstr, hk, false_or]
    constructor
    · rintro ⟨⟨o, ho⟩, hacc⟩
      cases hl : k.fetchstrLoop p (kernbase - a) a with
      | error m => simp [hl, bind, Except.bind] at ho
      | ok r =>
        cases r with
        | none => exact absurd (fetchstrLoop_none hl (kernbase - 1) (by omega) (by omega)) hend
        | some z =>
          obtain ⟨h1, -, h3⟩ := fetchstrLoop_some hl
          refine ⟨z - a, by rw [Nat.add_sub_cancel' h1]; exact h3, fun b hb1 hb2 => ?_⟩
          exact hacc (a, z - a) (by rw [hl]; rfl) b ⟨hb1, Nat.lt_succ_iff.mp hb2⟩
    · rintro ⟨l, h0, hb⟩
      have hlt := htop _ (hb (a + l) (by omega) (by omega))
      obtain ⟨z, hz, hl⟩ := fetchstrLoop_found (n := kernbase - a) (Nat.le_add_right a l)
        (by omega) h0 fun b h1 h2 => (hb b h1 (by omega)).present
      obtain ⟨haz, -, -⟩ := fetchstrLoop_some hl
      refine ⟨⟨_, by rw [hl]; rfl⟩, fun x hx b hxb => ?_⟩
      rw [hl] at hx
      cases hx
      exact hb b hxb.1 (by simp only at hxb; omega)

/-! ## 2. The pages of a process -/

/-- User address `a` is in the heap of `p`, in the stack page of a slot in
use, or in the lower page of slot 1 where that was left open. -/
def userArea (k : Kernel ncpu) (o : Nat → Bool) (p : ProcIdx) (a : Nat) : Prop :=
  a / pgsize < npages (k.proc p).sz ∨
    (∃ i : Nat, i < 8 ∧ k.slotUsed p i ∧ a / pgsize = Vm.stackPage i) ∨
    (k.slotUsed p 1 ∧ a / pgsize = slotLow 1 ∧ ∃ d, (k.proc p).pgdir = some d ∧ o d = true)

theorem userArea_of_slot {s : PslIdx} {i : Nat} (hl : (k.proc p).psl = some s)
    (hz : (k.psl s).stackz i = true) (hi : i < 8) (ha : a / pgsize = Vm.stackPage i) :
    k.userArea o p a :=
  .inr (.inl ⟨i, hi, by simpa only [slotUsed, hl] using hz, ha⟩)

/-- Registers and memory contents are the process's own: those of `p` on
entry to the kernel can be any. -/
def userState (k : Kernel ncpu) (p : ProcIdx) (tf : Trapframe) (data : Page → Nat → UInt8) :
    Kernel ncpu :=
  { k.setProc p (fun q => { q with tf := tf }) with vm := { k.vm with data := data } }

theorem accessible_userState : (k.userState p tf data).Accessible p a ↔ k.Accessible p a := by
  simp [Accessible, userState, setProc, Vm.entry]

theorem present_userState : (k.userState p tf data).Present p a ↔ k.Present p a := by
  simp [Present, userState, setProc, Vm.entry]

theorem slotUsed_iff (ht : k.world.thread p = some t) (i : Nat) :
    k.slotUsed p i ↔ k.world.slotUsed t i := by
  obtain ⟨-, -, -, -, hl, -⟩ := world_thread_eq_some.mp ht
  simp only [slotUsed, World.slotUsed, hl]
  exact Iff.rfl

theorem present_cases (h : Settled k) (ht : k.world.thread p = some t) (ha : k.Present p a) :
    a / pgsize < npages t.sz ∨
      ∃ i, i < 8 ∧ k.world.slotUsed t i ∧ a / pgsize ∈ slot i := by
  obtain ⟨-, -, hpd, -, -, -⟩ := world_thread_eq_some.mp ht
  obtain ⟨d, e, hd, he⟩ := ha
  obtain rfl : t.pgdir = d := Option.some.inj (hpd.symm.trans hd)
  exact (h.sizes.layout p t ht).only _ (Vm.entry_ne_none.mp (by simp [he]))

theorem present_lt (h : Settled k) (ht : k.world.thread p = some t) (ha : k.Present p a) :
    a / pgsize < 524287 := by
  have hb := (h.sizes.layout p t ht).below
  simp only [heapTop, slotLow_eq] at hb
  rcases present_cases h ht ha with hlt | ⟨i, hi, -, hx⟩
  · omega
  · simp only [slot, slotLow_eq, Set.mem_Ico] at hx
    omega

theorem accessible_iff (h : Settled k) (hg : Guarded k o) (ht : k.world.thread p = some t) :
    k.Accessible p a ↔ k.userArea o p a := by
  obtain ⟨-, hsz, hpd, -, -, -⟩ := world_thread_eq_some.mp ht
  have hlay := h.sizes.layout p t ht
  have hP := hg p t ht
  have hmapped : ∀ x ∈ k.vm.maps.mapped t.pgdir, ∃ e, k.vm.entry t.pgdir x = some e :=
    fun x hx => Option.ne_none_iff_exists'.mp (Vm.entry_ne_none.mpr hx)
  unfold userArea
  rw [hsz]
  simp only [slotUsed_iff ht]
  constructor
  · intro hacc
    have hcases := present_cases h ht hacc.present
    obtain ⟨d, e, hd, he, hu⟩ := hacc
    obtain rfl : t.pgdir = d := Option.some.inj (hpd.symm.trans hd)
    rcases hcases with hlt | ⟨i, hi, hui, hx⟩
    · exact .inl hlt
    · have hpage : a / pgsize = slotLow i ∨ a / pgsize = slotLow i + 1 := by
        simp only [slot, Set.mem_Ico] at hx
        omega
      rcases hpage with hlow | htop
      · -- only the lower page of slot 1 can be user-accessible
        have hguard : GuardPage (a / pgsize) := hlow ▸ guardPage_slotLow hi
        obtain ⟨h1, hopen⟩ := (hP _ e he).2.mp hu hguard
        obtain rfl : i = 1 := slot_inj hi (by omega) hx (h1 ▸ low_mem_slot 1)
        exact .inr (.inr ⟨hui, h1, t.pgdir, hpd, hopen⟩)
      · exact .inr (.inl ⟨i, hi, hui, by rw [stackPage_eq hi, htop]⟩)
  · rintro (hlt | ⟨i, hi, hui, hx⟩ | ⟨hu1, hx, d, hd, hopen⟩)
    · obtain ⟨e, he⟩ := hmapped _ (hlay.heap _ hlt)
      have hb := hlay.below
      exact ⟨t.pgdir, e, hpd, he, (hP _ e he).user (not_guardPage_of_lt (by omega))⟩
    · rw [stackPage_eq hi] at hx
      obtain ⟨e, he⟩ := hmapped _ (hx ▸ hlay.top i hi hui)
      exact ⟨t.pgdir, e, hpd, he, (hP _ e he).user (hx ▸ not_guardPage_top hi)⟩
    · obtain rfl : t.pgdir = d := Option.some.inj (hpd.symm.trans hd)
      obtain ⟨e, he⟩ := hmapped _ (hx ▸ hlay.low 1 (by omega) (by omega) hu1)
      exact ⟨t.pgdir, e, hpd, he, (hP _ e he).2.mpr fun _ => ⟨hx, hopen⟩⟩

/-! ## 3. Arguments of a system call -/

/-- **What the argument functions accept.** In every state of a run as in
`stack_guarded`, for every process and whatever its registers and memory
hold: a fetch is in order exactly if it is refused or stays in the heap,
the stack pages and the open page. -/
theorem arguments_mapped {k₀ : Kernel ncpu} {tr : List (Kernel ncpu × Act ncpu)}
    (h0 : Started k₀) (hr : Run next k₀ tr k)
    (hok : Meets (fun k a => k.execSettled a = true ∧ k.growsOk a = true ∧ k.ktReady a = true) tr)
    (hst : (k.proc p).state ≠ .unused) (tf : Trapframe) (data : Page → Nat → UInt8) :
    let u := k.userState p tf data
    let area := k.userArea (opened tr) p
    (∀ addr, u.FetchOk p (u.fetchint p addr) (fun _ b => addr ≤ b ∧ b < addr + 4) ↔
      kernbase < addr + 4 ∨ Bytes area addr 4) ∧
    (∀ n, u.FetchOk p (u.argint p n) (fun _ b => u.argAddr p n ≤ b ∧ b < u.argAddr p n + 4) ↔
      kernbase < u.argAddr p n + 4 ∨ Bytes area (u.argAddr p n) 4) ∧
    (∀ (n : Int) (size : Int32),
      (u.FetchOk p (u.argint p n) (fun _ b => u.argAddr p n ≤ b ∧ b < u.argAddr p n + 4) ∧
        u.FetchOk p (u.argptr p n size.toInt) fun q b => q ≤ b ∧ b < q + size.toInt.toNat) ↔
      kernbase < u.argAddr p n + 4 ∨
        Bytes area (u.argAddr p n) 4 ∧ ∀ i, u.argint p n = .ok (some i) →
          size.toInt < 0 ∨ kernbase ≤ toU32 i ∨ (kernbase : Int) < toU32 i + size.toInt ∨
            Bytes area (toU32 i) size.toInt.toNat) ∧
    (∀ addr, u.FetchOk p (u.fetchstr p addr) (fun x b => x.1 ≤ b ∧ b ≤ x.1 + x.2) ↔
      kernbase ≤ addr ∨ ∃ l, u.load p (addr + l) = .ok 0 ∧ Bytes area addr (l + 1)) := by
  intro u area
  obtain ⟨h, hg⟩ := guarded_run h0 hr hok
  obtain ⟨t, ht⟩ := exists_thread h.clean hst
  have hbytes : ∀ b m, Bytes (u.Accessible p) b m ↔ Bytes area b m := fun b m =>
    bytes_congr fun c => accessible_userState.trans (accessible_iff h hg ht)
  have hlt : ∀ b, u.Present p b → b / pgsize < 524287 :=
    fun b hb => present_lt h ht (present_userState.mp hb)
  have hint : ∀ addr, u.FetchOk p (u.fetchint p addr) (fun _ b => addr ≤ b ∧ b < addr + 4) ↔
      kernbase < addr + 4 ∨ Bytes area addr 4 := fun addr => by
    rw [fetchint_fetchOk_iff, hbytes]
  refine ⟨hint, fun n => hint _, fun n size => ?_, fun addr => ?_⟩
  · have harg := hint (u.argAddr p n)
    by_cases hk : kernbase < u.argAddr p n + 4
    · have hnone : u.argint p n = .ok none := fetchint_refused hk
      have hptr : u.argptr p n size.toInt = .ok none := by
        simp only [argptr, hnone, bind, Except.bind]
        rfl
      rw [hnone, hptr]
      exact iff_of_true ⟨FetchOk.refused, FetchOk.refused⟩ (.inl hk)
    · have hi : ∀ i, u.argint p n = .ok (some i) → _ := fun i hi =>
        argptr_fetchOk_iff size.toInt hi size.le_toInt size.toInt_lt
      constructor
      · rintro ⟨h1, h2⟩
        refine .inr ⟨(harg.mp h1).resolve_left hk, fun i hi' => ?_⟩
        rw [← hbytes]
        exact (hi i hi').mp h2
      · rintro (h1 | ⟨h1, h2⟩)
        · exact absurd h1 hk
        · obtain ⟨i, hl⟩ := loadInt_ok_iff.mpr
            (((hbytes _ _).mpr h1).imp fun _ => Accessible.present)
          have hi' : u.argint p n = .ok (some i) := by
            rw [argint, fetchint_eq hk, hl]
            rfl
          refine ⟨harg.mpr (.inr h1), (hi i hi').mpr ?_⟩
          rw [hbytes]
          exact h2 i hi'
  · rw [fetchstr_fetchOk_iff]
    · simp only [hbytes]
    · intro hp
      have := hlt _ hp
      simp only [kernbase, pgsize] at this
      omega
    · intro b hb
      have := hlt _ hb.present
      simp only [kernbase, pgsize] at this ⊢
      omega

/-- The second thread with its stack pointer at the bottom of its stack
page, and with 0 as its first argument. -/
def threadState : Kernel 1 :=
  twoThreads.2.userState 2 { esp := Vm.stackPage 2 * pgsize } fun _ _ => 0

theorem arguments_mapped_twoThreads :
    Run next initLoaded twoThreads.1 twoThreads.2 ∧ threadState.argptr 2 0 4 = .ok (some 0) ∧
    threadState.FetchOk 2 (threadState.argptr 2 0 4) fun q b => q ≤ b ∧ b < q + 4 := by
  have hr : Run next initLoaded twoThreads.1 twoThreads.2 := run_get _
  have hfacts : Meets (fun k a => k.execSettled a = true ∧ k.growsOk a = true ∧
        k.ktReady a = true) twoThreads.1 ∧ (twoThreads.2.proc 2).state ≠ .unused ∧
      (twoThreads.2.proc 2).psl = some 0 ∧ (twoThreads.2.psl 0).stackz (2 : Nat) = true ∧
      npages (twoThreads.2.proc 2).sz = 1 ∧
      (threadState.argint 2 0).toOption = some (some 0) ∧
      (threadState.argptr 2 0 4).toOption = some (some 0) ∧
      threadState.argAddr 2 0 / pgsize = Vm.stackPage (2 : Nat) ∧
      threadState.argAddr 2 0 % pgsize = 4 := by
    decide +kernel
  obtain ⟨hok, hst, hpsl, hslot, hsz, hint, hptr, hpage, hoff⟩ := hfacts
  have harg :
      Bytes (twoThreads.2.userArea (opened twoThreads.1) 2) (threadState.argAddr 2 0) 4 := by
    intro b h1 h2
    refine userArea_of_slot hpsl hslot (by decide) ?_
    rw [← hpage]
    simp only [pgsize] at hoff ⊢
    omega
  have hheap : Bytes (twoThreads.2.userArea (opened twoThreads.1) 2) 0 4 := by
    intro b _ hb
    refine .inl ?_
    rw [hsz]
    simp only [pgsize]
    omega
  have h := (arguments_mapped started_initLoaded hr hok hst
    { esp := Vm.stackPage 2 * pgsize } fun _ _ => 0).2.2.1 0 4
  refine ⟨hr, eq_ok_of_toOption hptr, (h.mpr (.inr ⟨harg, fun i hi => ?_⟩)).2⟩
  cases (eq_ok_of_toOption hint).symm.trans hi
  exact .inr (.inr (.inr hheap))

/-- `init` with its stack pointer at the bottom of its stack page, and
with 8192 as its first argument. -/
def callState : Kernel 1 :=
  initLoaded.userState initproc { esp := Vm.stackPage 0 * pgsize }
    fun _ off => if off = 5 then 0x20 else 0

/-- `argptr` accepts a pointer into the gap above the heap, where a load
faults; `fetchint` reads the guard page of the stack. -/
theorem pointer_unmapped : Started initLoaded ∧
    (initLoaded.proc initproc).state = .running ∧ (callState.proc initproc).pgdir = some 1 ∧
    callState.argptr initproc 0 4 = .ok (some 8192) ∧
    callState.vm.entry 1 (8192 / pgsize) = none ∧
    callState.fetchint initproc 8192 = .error "trap" ∧
    (∃ i, callState.fetchint initproc (slotLow 0 * pgsize) = .ok (some i)) ∧
    ∃ e, callState.vm.entry 1 (slotLow 0) = some e ∧ e.u = false := by
  refine ⟨started_initLoaded, ?_, ?_, ?_, ?_, ?_, ⟨0, ?_⟩, ?_⟩ <;> decide +kernel

end Xv6.Kern.Kernel
