/-
Xv6.Mem.Perms — what is said of the permission bits of every entry.

`PermsAt P v d`: whatever directory `d` maps has bits `P` allows for its
page. The functions of `vm.c` write only three kinds of entries: new ones
with both bits set (`allocuvm`), copies with the bits of the original
(`copyuvm`), and old ones that lose `PTE_U` (`clearpteu`). So for each
function there is one lemma: `PermsAt` is kept, provided `P` allows what
the call writes. A directory the call does not touch keeps it for any `P`.
-/
import Xv6.Mem.CopyTheorems

namespace Xv6.Mem

variable {b : Bool} {i : Int} {d' d₁ : Nat}

namespace Vm

/-- Every entry of directory `d` has bits `PTE_W` and `PTE_U` as `P` allows. -/
def PermsAt (P : Nat → Bool → Bool → Prop) (v : Vm) (d : Nat) : Prop :=
  ∀ x e, v.entry d x = some e → P x e.w e.u

section
variable {P : Nat → Bool → Bool → Prop} {v v' : Vm} {d : Nat}

theorem PermsAt.of_kept (h : PermsAt P v d)
    (hk : ∀ x, v'.entry d x = v.entry d x ∨ v'.entry d x = none) : PermsAt P v' d := by
  intro x e hx
  rcases hk x with h1 | h1
  · exact h x e (h1 ▸ hx)
  · rw [h1] at hx
    cases hx

theorem PermsAt.of_entry (h : PermsAt P v d) (hk : ∀ x, v'.entry d x = v.entry d x) :
    PermsAt P v' d :=
  h.of_kept fun x => .inl (hk x)

theorem PermsAt.of_space (h : PermsAt P v d) (hs : v'.space = v.space) : PermsAt P v' d :=
  h.of_entry (entry_of_space hs d)

theorem permsAt_of_none (h : ∀ x, v.entry d x = none) : PermsAt P v d := by
  intro x e hx
  rw [h x] at hx
  cases hx

theorem PermsAt.imp {Q : Nat → Bool → Bool → Prop} (h : PermsAt P v d)
    (hPQ : ∀ x e, v.entry d x = some e → P x e.w e.u → Q x e.w e.u) : PermsAt Q v d :=
  fun x e hx => hPQ x e hx (h x e hx)

/-! ## `allocuvm` and `deallocuvm` -/

theorem PermsAt.emptied {a b : Nat} (h : PermsAt P v d) (he : Emptied v v' d₁ a b) :
    PermsAt P v' d := by
  refine h.of_kept fun x => ?_
  by_cases hx : d = d₁ ∧ a ≤ x ∧ x < b
  · obtain ⟨rfl, h1, h2⟩ := hx
    exact .inr (he.gone x h1 h2)
  · exact .inl (he.other d x (by omega))

theorem PermsAt.filled {a b : Nat} (h : PermsAt P v d) (hf : Filled v v' d₁ a b)
    (hnew : d = d₁ → ∀ x, a ≤ x → x < b → P x true true) : PermsAt P v' d := by
  intro x e hx
  by_cases hin : d = d₁ ∧ a ≤ x ∧ x < b
  · obtain ⟨rfl, h1, h2⟩ := hin
    obtain ⟨e', he', hw, hu, -⟩ := hf.new x h1 h2
    rw [hx] at he'
    cases he'
    rw [hw, hu]
    exact hnew rfl x h1 h2
  · rw [hf.other d x (by omega)] at hx
    exact h x e hx

/-- **`allocuvm` writes user-writable entries only.** -/
theorem PermsAt.allocuvm {oldsz newsz r : Nat} (h : PermsAt P v d)
    (ha : v.allocuvm d₁ oldsz newsz = .ok (r, v'))
    (hnew : d = d₁ → newsz < kernbase → ∀ x, npages oldsz ≤ x → x < npages newsz → P x true true) :
    PermsAt P v' d := by
  cases allocuvm_run ha with
  | refused => exact h
  | kept => exact h
  | grown _ hk hr => exact h.filled (filled_rounds hr) fun hd => hnew hd hk
  | failed _ _ hx hr hfail => exact h.emptied (hfail.emptied.of_filled hx.le (filled_rounds hr))

theorem PermsAt.deallocuvm (h : PermsAt P v d) (d₁ oldsz newsz : Nat) :
    PermsAt P (v.deallocuvm d₁ oldsz newsz).2 d :=
  h.emptied (emptied_deallocuvm v d₁ oldsz newsz)

/-! ## Directories -/

theorem PermsAt.freevm (h : PermsAt P v d) (d₁ : Nat) : PermsAt P (v.freevm d₁) d := by
  refine h.of_kept fun x => ?_
  rw [freevm_entry]
  split
  · exact .inr rfl
  · exact .inl rfl

theorem PermsAt.setupkvm {o : Option Nat} (h : PermsAt P v d) (hd : d < v.nspace)
    (hs : v.setupkvm = (o, v')) : PermsAt P v' d := by
  cases o with
  | none => exact h.of_entry fun x => setupkvm_none_entry hs d x (Nat.ne_of_lt hd)
  | some d' =>
    have hnew := newDir_setupkvm hs
    exact h.of_entry fun x => hnew.other d x (hnew.num ▸ Nat.ne_of_lt hd)

theorem NewDir.permsAt (h : NewDir v v' d') : PermsAt P v' d' :=
  permsAt_of_none h.empty

/-- **`clearpteu`** clears `PTE_U` of one entry. -/
theorem PermsAt.clearpteu {vpn : Nat} (h : PermsAt P v d) (hc : v.clearpteu d₁ vpn = .ok v')
    (hclr : d = d₁ → ∀ w u, P vpn w u → P vpn w false) : PermsAt P v' d := by
  obtain ⟨hself, hother, -⟩ := clearpteu_entry hc
  intro x e hx
  by_cases hin : d = d₁ ∧ x = vpn
  · obtain ⟨rfl, rfl⟩ := hin
    rw [hself] at hx
    obtain ⟨e₀, he₀, rfl⟩ := Option.map_eq_some_iff.mp hx
    exact hclr rfl _ _ (h x e₀ he₀)
  · rw [hother d x (by omega)] at hx
    exact h x e hx

/-! ## `copyuvm` -/

theorem PermsAt.copyRound {x y : Nat} (h : PermsAt P v d)
    (hsrc : d = d' → ∀ e, v.entry d₁ x = some e → P y e.w e.u)
    (hc : CopyRound d₁ d' x v y v') : PermsAt P v' d := by
  obtain ⟨e, mem, l, he, -, hp⟩ := hc
  obtain ⟨-, hnew, hother, -⟩ := mappages_entry hp
  intro z e₂ hz
  by_cases hin : d = d' ∧ z = y
  · obtain ⟨rfl, rfl⟩ := hin
    rw [hnew] at hz
    cases hz
    exact hsrc rfl e he
  · rw [hother d z (by omega)] at hz
    exact h z e₂ hz

/-- **`copyuvm` leaves the directories there were.** -/
theorem PermsAt.copyuvm {sz : Nat} {o : Option Nat} (h : PermsAt P v d) (hd : d < v.nspace)
    (hc : v.copyuvm d₁ sz i = .ok (o, v')) : PermsAt P v' d := by
  have hrounds : ∀ {d' n v₁ w}, v.setupkvm = (some d', v₁) →
      Rounds (HeapRound d₁ d') 0 v₁ n w → d ≠ d' ∧ PermsAt P w d := by
    intro d' n v₁ w hs hr
    have hne : d ≠ d' := (newDir_setupkvm hs).num ▸ Nat.ne_of_lt hd
    refine ⟨hne, hr.keeps (P := fun u => PermsAt P u d) (h.setupkvm hd hs) ?_⟩
    exact fun _ _ _ _ hone hP => hP.copyRound (fun heq => absurd heq hne) hone
  cases copyuvm_run hc with
  | nothing hs => exact h.setupkvm hd hs
  | heap hs _ hr hstop => exact ((hrounds hs hr).2.of_space hstop.1.space).freevm _
  | stack hs hr hstop => exact ((hrounds hs hr).2.of_space hstop.space).freevm _
  | done hs hr hst =>
    exact (hrounds hs hr).2.copyRound (fun heq => absurd heq (hrounds hs hr).1) hst

/-- **And gives the new one the bits of the old**, the stack page those of
the slot it comes from. -/
theorem PermsAt.copyuvm_new {sz : Nat} (h : PermsAt P v d) (hd : d < v.nspace)
    (hst : ∀ w u, P (stackPage i) w u → P (stackPage 0) w u)
    (hc : v.copyuvm d sz i = .ok (some d', v')) : PermsAt P v' d' := by
  cases copyuvm_run hc with
  | @done v₁ w _ _ hs hr hone =>
    have hnew := newDir_setupkvm hs
    have hne : d ≠ d' := hnew.num ▸ Nat.ne_of_lt hd
    have hboth : PermsAt P w d ∧ PermsAt P w d' :=
      hr.keeps (P := fun u => PermsAt P u d ∧ PermsAt P u d') ⟨h.setupkvm hd hs, hnew.permsAt⟩
        fun x _ _ _ hone hP => ⟨hP.1.copyRound (fun heq => absurd heq hne) hone,
          hP.2.copyRound (fun _ e he => hP.1 x e he) hone⟩
    exact hboth.2.copyRound (fun _ e he => hst _ _ (hboth.1 _ e he)) hone

/-! ## `copyout` -/

theorem copyoutLoop_space (fuel va : Nat) (bytes : List UInt8)
    (h : copyoutLoop d₁ fuel va bytes v = .ok (b, v')) : v'.space = v.space := by
  induction fuel generalizing va bytes v with
  | zero =>
    cases h
    rfl
  | succ fuel ih =>
    unfold copyoutLoop at h
    split at h
    · cases h
      rfl
    · split at h
      · cases h
      · cases h
        rfl
      · have hs := ih _ _ h
        exact hs

theorem PermsAt.copyout {va : Nat} {bytes : List UInt8} (h : PermsAt P v d)
    (hc : v.copyout d₁ va bytes = .ok (b, v')) : PermsAt P v' d :=
  h.of_space (copyoutLoop_space _ _ _ hc)

end

end Vm

end Xv6.Mem
