/-
Xv6.Kern.ElfTheorems — the ELF loader survives any file.

`Loaded v d sz m` is the invariant of the loop over the program headers:
directory `d` maps the pages below `sz` and no other, all for the user, no
page is held twice, and the memory is `m`, with zeros from `sz` on. An
`allocuvm` that grows keeps `m` because its new pages are zero
(`Loaded.grow`); a page that `loaduvm` fills changes `m` by an `overlay`
(`Loaded.store`), and the rounds of `loaduvm` add up to one `overlay`
(`overlay_append`).

None of the sums wraps where it matters. A segment is loaded only after
`allocuvm` accepted its end, so its addresses are below `KERNBASE`; a file
offset is used only if the bytes up to it were there.
-/
import Xv6.Kern.Elf
import Xv6.Mem.CopyTheorems
import Xv6.Mem.Pages
import Xv6.Mem.Supply

namespace Xv6.Kern.Elf

open Xv6.Mem Xv6.Lib

variable {bs : List UInt8} {a x : Nat} {e : Pte}

/-! ## Fields -/

theorem number_lt (bs : List UInt8) : number bs < 256 ^ bs.length := by
  induction bs with
  | nil => simp [number]
  | cons b bs ih =>
    have hb : b.toNat < 256 := b.toNat_lt
    have hcons : number (b :: bs) = b.toNat + 256 * number bs := rfl
    rw [hcons, List.length_cons, Nat.pow_succ]
    omega

theorem field_lt (bs : List UInt8) (off : Nat) : field bs off 4 < 2 ^ 32 := by
  have hlen : ((bs.drop off).take 4).length ≤ 4 := List.length_take_le _ _
  calc field bs off 4 < 256 ^ ((bs.drop off).take 4).length := number_lt _
    _ ≤ 256 ^ 4 := Nat.pow_le_pow_right (by decide) hlen
    _ = 2 ^ 32 := by decide

theorem field_take {n off len : Nat} (h : off + len ≤ n) :
    field (bs.take n) off len = field bs off len := by
  rw [field, field, List.drop_take, List.take_take, Nat.min_eq_left (by omega)]

theorem elfhdr_take (f : List UInt8) : elfhdr (f.take elfhdrSize) = elfhdr f := by
  simp only [elfhdr, elfhdrSize]
  rw [field_take (by decide), field_take (by decide), field_take (by decide)]

theorem readAll_eq_some {f : List UInt8} {off n : Nat} (h : readAll f off n = some bs) :
    bs = (f.drop off).take n ∧ bs.length = n ∧ off + n ≤ f.length := by
  unfold readAll readi at h
  rw [Option.filter_eq_some_iff] at h
  obtain ⟨h, hlen⟩ := h
  simp only [decide_eq_true_eq] at hlen
  split at h
  · cases h
  rename_i hno
  cases h
  refine ⟨rfl, hlen, ?_⟩
  rw [List.length_take, List.length_drop] at hlen
  omega

theorem toU32_add_of_lt {b : Nat} (h : a + b < 2 ^ 32) : toU32 (a + b) = a + b := by
  simp only [toU32]
  omega

/-! ## Overlays -/

theorem overlay_nil (m : Nat → UInt8) (va : Nat) : overlay m va [] = m := by
  funext a
  simp [overlay]

theorem overlay_of_lt {m : Nat → UInt8} {va : Nat} (h : a < va) :
    overlay m va bs a = m a := if_neg (by omega)

theorem overlay_of_ge {m : Nat → UInt8} {va : Nat} (h : va + bs.length ≤ a) :
    overlay m va bs a = m a := by
  rw [overlay, if_pos (by omega), List.getElem?_eq_none (by omega)]
  rfl

theorem overlay_append (m : Nat → UInt8) (va : Nat) (bs bs' : List UInt8) :
    overlay (overlay m va bs) (va + bs.length) bs' = overlay m va (bs ++ bs') := by
  funext a
  by_cases h1 : a < va
  · rw [overlay_of_lt (by omega), overlay_of_lt h1, overlay_of_lt h1]
  · by_cases h2 : a < va + bs.length
    · rw [overlay_of_lt h2]
      simp only [overlay, if_pos (Nat.le_of_not_lt h1)]
      rw [List.getElem?_append_left (by omega), List.getElem?_eq_getElem (by omega)]
    · have hsub : a - va - bs.length = a - (va + bs.length) := by omega
      simp only [overlay, if_pos (Nat.le_of_not_lt h1), if_pos (Nat.le_of_not_lt h2)]
      rw [List.getElem?_append_right (by omega), hsub, List.getElem?_eq_none (l := bs) (by omega)]
      rfl

theorem pgroundup_eq (sz : Nat) : pgroundup sz = npages sz * pgsize := by
  rw [npages_eq]
  simp only [pgroundup, pgrounddown, pgsize]
  omega

/-! ## The invariant -/

/-- The pages below `sz` of directory `d` hold `m`, and no other page is
mapped. -/
structure Loaded (v : Vm) (d sz : Nat) (m : Nat → UInt8) : Prop where
  nodup : (v.held d).Nodup
  size : sz < kernbase
  user : ∀ x, x < npages sz → ∃ e, v.entry d x = some e ∧ e.u = true
  none : ∀ x, npages sz ≤ x → v.entry d x = none
  holds : ∀ a, a < npages sz * pgsize → v.read d a = some (m a)
  zero : ∀ a, npages sz * pgsize ≤ a → m a = 0

namespace Loaded

variable {v v' : Vm} {d sz : Nat} {m : Nat → UInt8}

theorem not_free (h : Loaded v d sz m) (he : v.entry d x = some e) : e.page ∉ v.freelist := by
  have hx : x < npages sz := by
    by_contra hge
    rw [h.none x (Nat.le_of_not_lt hge)] at he
    cases he
  have hlt := Nat.lt_of_lt_of_le hx (npages_le_kernbase h.size.le)
  intro hfree
  exact (List.nodup_append.mp h.nodup).2.2 _ hfree _ (Vm.mem_pages_of_entry hlt he) rfl

theorem page_inj (h : Loaded v d sz m) {y : Nat} {e' : Pte} (hx : x < npages sz)
    (hy : y < npages sz) (he : v.entry d x = some e) (he' : v.entry d y = some e')
    (heq : e.page = e'.page) : x = y := by
  have hle := npages_le_kernbase h.size.le
  have hpages := (List.nodup_append.mp h.nodup).2.1
  have huser := (List.nodup_append.mp hpages).1
  refine census_inj huser (Nat.lt_of_lt_of_le hx hle) (Nat.lt_of_lt_of_le hy hle)
    (b := e.page) ?_ ?_
  · rw [← Vm.entry, he]
    rfl
  · rw [← Vm.entry, he', heq]
    rfl

theorem grow {newsz : Nat} (h : Loaded v d sz m) (hle : sz ≤ newsz) (hk : newsz < kernbase)
    (hf : v.Filled v' d (npages sz) (npages newsz)) (hp : (v'.held d).Perm (v.held d)) :
    Loaded v' d newsz m := by
  have hmono := npages_mono hle
  constructor
  · exact hp.nodup_iff.mpr h.nodup
  · exact hk
  · intro x hx
    by_cases hold : x < npages sz
    · rw [hf.other d x (.inr (.inl hold))]
      exact h.user x hold
    · obtain ⟨e, he, -, hu, -⟩ := hf.new x (Nat.le_of_not_lt hold) hx
      exact ⟨e, he, hu⟩
  · intro x hx
    rw [hf.other d x (.inr (.inr hx))]
    exact h.none x (by omega)
  · intro a ha
    have hx : a / pgsize < npages newsz := Nat.div_lt_of_lt_mul (by rwa [Nat.mul_comm])
    by_cases hold : a / pgsize < npages sz
    · have ha' : a < npages sz * pgsize := (Nat.div_lt_iff_lt_mul (by decide)).mp hold
      obtain ⟨e, he, -⟩ := h.user _ hold
      rw [← h.holds a ha', Vm.read, Vm.read, hf.other d _ (.inr (.inl hold)), he]
      rcases hf.data e.page with hd | ⟨hfree, -⟩
      · simp only [Option.map_some, hd]
      · exact absurd hfree (h.not_free he)
    · obtain ⟨e, he, -, -, -, hz⟩ := hf.new _ (Nat.le_of_not_lt hold) hx
      rw [Vm.read, he, Option.map_some, hz, h.zero a]
      exact Nat.le_of_not_lt fun hlt => hold (Nat.div_lt_of_lt_mul (by rwa [Nat.mul_comm]))
  · intro a ha
    exact h.zero a (Nat.le_trans (Nat.mul_le_mul_right _ hmono) ha)

theorem store (h : Loaded v d sz m) (hx : x < npages sz) (he : v.entry d x = some e)
    (hlen : bs.length ≤ pgsize) :
    Loaded (v.storeBytes e.page 0 bs) d sz (overlay m (x * pgsize) bs) := by
  constructor
  · exact h.nodup
  · exact h.size
  · exact h.user
  · exact h.none
  · intro a ha
    have hy : a / pgsize < npages sz := Nat.div_lt_of_lt_mul (by rwa [Nat.mul_comm])
    obtain ⟨e', he', -⟩ := h.user _ hy
    have hread := h.holds a ha
    rw [Vm.read, he', Option.map_some, Option.some.injEq] at hread
    rw [Vm.read, Vm.entry_storeBytes, he', Option.map_some]
    congr 1
    by_cases hax : a / pgsize = x
    · -- a byte of the page
      subst hax
      rw [he] at he'
      cases he'
      have hmod : a - a / pgsize * pgsize = a % pgsize := by
        have := Nat.div_add_mod' a pgsize
        omega
      simp only [Vm.storeBytes, Function.update_self, overlay, Nat.zero_le, if_true,
        Nat.sub_zero, if_pos (Nat.div_mul_le_self a pgsize), hmod, hread]
    · have hne : e'.page ≠ e.page := fun heq => hax (h.page_inj hy hx he' he heq)
      have hout : overlay m (x * pgsize) bs a = m a := by
        rcases Nat.lt_or_gt_of_ne hax with hlt | hgt
        · exact overlay_of_lt ((Nat.div_lt_iff_lt_mul (by decide)).mp hlt)
        · have hge := (Nat.le_div_iff_mul_le (by decide)).mp hgt
          rw [Nat.succ_mul] at hge
          exact overlay_of_ge (by omega)
      rw [hout, ← hread]
      simp only [Vm.storeBytes, Function.update_of_ne hne]
  · intro a ha
    have hend : x * pgsize + bs.length ≤ a := by
      have hle := Nat.mul_le_mul_right pgsize (Nat.succ_le_of_lt hx)
      rw [Nat.succ_mul] at hle
      exact (Nat.add_le_add_left hlen _).trans (hle.trans ha)
    rw [overlay_of_ge hend]
    exact h.zero a ha

end Loaded

/-! ## `loaduvm` -/

section
variable {v v' : Vm} {d sz : Nat} {m : Nat → UInt8} {f : List UInt8}

theorem loaduvmLoop_spec {addr offset filesz : Nat} (haddr : addr % pgsize = 0)
    (hend : addr + filesz ≤ npages sz * pgsize) (hsz : sz < kernbase) (hf : f.length < 2 ^ 32)
    (hoff : offset < 2 ^ 32) (fuel i : Nat) {v : Vm}
    (hi : i % pgsize = 0) (hfuel : filesz ≤ i + fuel * pgsize)
    (hfile : 0 < i → offset + min i filesz ≤ f.length)
    (h : Loaded v d sz (overlay m addr ((f.drop offset).take (min i filesz)))) :
    ∃ b v', loaduvmLoop d addr f offset filesz fuel i v = .ok (b, v') ∧
      (∀ d' x, v'.entry d' x = v.entry d' x) ∧
      (b = true → Loaded v' d sz (overlay m addr ((f.drop offset).take filesz))) := by
  induction fuel generalizing i v with
  | zero =>
    have hmin : min i filesz = filesz := by omega
    rw [hmin] at h
    refine ⟨true, v, ?_, fun _ _ => rfl, fun _ => h⟩
    rw [loaduvmLoop, if_neg (by omega)]
  | succ fuel ih =>
    by_cases hlt : i < filesz
    · have hle := npages_le_kernbase hsz.le
      have htop : npages sz * pgsize ≤ kernbase :=
        (Nat.mul_le_mul_right pgsize hle).trans (by decide)
      have hk : addr + i < kernbase := by omega
      have hwrap : toU32 (addr + i) = addr + i := toU32_add_of_lt (hk.trans (by decide))
      have hwrap' : toU32 (i + pgsize) = i + pgsize := toU32_add_of_lt (by
        have hpg : pgsize < 2 ^ 31 := by decide
        have hkern : kernbase = 2 ^ 31 := rfl
        omega)
      -- the page is mapped
      have hx : (addr + i) / pgsize < npages sz := Nat.div_lt_of_lt_mul (by
        rw [Nat.mul_comm]
        omega)
      obtain ⟨e, he, -⟩ := h.user _ hx
      obtain ⟨hpde, hpte⟩ := Space.entry_eq_some.mp he
      obtain ⟨tbl, htbl⟩ := Option.ne_none_iff_exists'.mp hpde
      have hbase : (addr + i) / pgsize * pgsize = addr + i := by
        refine Nat.div_mul_cancel (Nat.dvd_of_mod_eq_zero ?_)
        rw [Nat.add_mod, haddr, hi]
        rfl
      -- the bytes of this round
      obtain ⟨n, hn⟩ : ∃ n, (if filesz - i < pgsize then filesz - i else pgsize) = n := ⟨_, rfl⟩
      have hn' : n = min (filesz - i) pgsize := by
        rw [← hn]
        split <;> omega
      have hmin : min i filesz = i := by omega
      rw [hmin] at h hfile
      have hoffi : offset + i < 2 ^ 32 := by
        rcases Nat.eq_zero_or_pos i with h0 | h0
        · omega
        · have := hfile h0
          omega
      have hwrap'' : toU32 (offset + i) = offset + i := toU32_add_of_lt hoffi
      simp only [loaduvmLoop, if_pos hlt, hwrap, htbl, hpte, hn, hwrap'']
      cases hread : readi f (offset + i) n with
      | none => exact ⟨false, v, rfl, fun _ _ => rfl, fun hb => by cases hb⟩
      | some bs =>
        have hbs : bs = ((f.drop offset).drop i).take n ∧ offset + i ≤ f.length := by
          unfold readi at hread
          split at hread
          · cases hread
          rename_i hno
          cases hread
          rw [List.drop_drop]
          exact ⟨rfl, by omega⟩
        have hlen : bs.length ≤ pgsize := by
          rw [hbs.1, List.length_take]
          omega
        have hstore := h.store hx he hlen
        by_cases hfull : bs.length = n
        · have htake : ((f.drop offset).take i).length = i := by
            rw [List.length_take, List.length_drop]
            omega
          have hnext : min (i + pgsize) filesz = i + n := by omega
          have hcat : (f.drop offset).take i ++ bs =
              (f.drop offset).take (min (i + pgsize) filesz) := by
            rw [hnext, hbs.1, List.take_add]
          have happ := overlay_append m addr ((f.drop offset).take i) bs
          rw [htake, hcat] at happ
          rw [hbase, happ] at hstore
          have hread' : n ≤ f.length - (offset + i) := by
            have hl := congrArg List.length hbs.1
            rw [List.length_take, List.drop_drop, List.length_drop] at hl
            omega
          obtain ⟨b, v', hrun, hent, hpost⟩ := ih (i + pgsize)
            (by rw [Nat.add_mod_right, hi])
            (by rw [Nat.succ_mul] at hfuel; omega)
            (fun _ => by omega) hstore
          refine ⟨b, v', (if_pos hfull).trans ?_, hent, hpost⟩
          rw [hwrap']
          exact hrun
        · exact ⟨false, v.storeBytes e.page 0 bs, if_neg hfull, fun _ _ => rfl,
            fun hb => by cases hb⟩
    · have hmin : min i filesz = filesz := by omega
      rw [hmin] at h
      refine ⟨true, v, ?_, fun _ _ => rfl, fun _ => h⟩
      rw [loaduvmLoop, if_neg hlt]

/-- **`loaduvm`** into pages that are mapped. -/
theorem loaduvm_spec {addr offset filesz : Nat} (haddr : addr % pgsize = 0)
    (hend : addr + filesz ≤ npages sz * pgsize) (hf : f.length < 2 ^ 32) (hoff : offset < 2 ^ 32)
    (h : Loaded v d sz m) :
    ∃ b v', loaduvm v d addr f offset filesz = .ok (b, v') ∧
      (∀ d' x, v'.entry d' x = v.entry d' x) ∧
      (b = true → Loaded v' d sz (overlay m addr ((f.drop offset).take filesz))) := by
  have hfuel : filesz ≤ 0 + npages filesz * pgsize := by
    rw [npages_eq]
    simp only [pgsize]
    omega
  have h0 : Loaded v d sz (overlay m addr ((f.drop offset).take (min 0 filesz))) := by
    rw [Nat.zero_min, List.take_zero, overlay_nil]
    exact h
  rw [loaduvm, if_neg (not_not.mpr haddr)]
  exact loaduvmLoop_spec haddr hend h.size hf hoff _ 0 rfl hfuel (fun hpos => by omega) h0

/-! ## The loop over the program headers -/

/-- What one header adds. -/
def applyHeader (f : List UInt8) (m : Nat → UInt8) (ph : Proghdr) : Nat → UInt8 :=
  if ph.type = elfProgLoad then overlay m ph.vaddr ((f.drop ph.off).take ph.filesz) else m

/-- No page at or above `KERNBASE` is mapped. -/
def BelowKernel (v : Vm) (d : Nat) : Prop := ∀ x, kernbase / pgsize ≤ x → v.entry d x = none

theorem Loaded.belowKernel (h : Loaded v d sz m) : BelowKernel v d := by
  intro x hx
  exact h.none x ((npages_le_kernbase h.size.le).trans hx)

theorem Loaded.allocuvm {newsz r : Nat} (h : Loaded v d sz m)
    (halloc : v.allocuvm d sz newsz = .ok (r, v')) :
    BelowKernel v' d ∧ (r ≠ 0 → Loaded v' d r m ∧ newsz ≤ r) := by
  by_cases hk : kernbase ≤ newsz
  · rw [Vm.allocuvm, if_pos hk] at halloc
    cases halloc
    exact ⟨h.belowKernel, fun hr => absurd rfl hr⟩
  by_cases hlt : newsz < sz
  · rw [Vm.allocuvm, if_neg hk, if_pos hlt] at halloc
    cases halloc
    exact ⟨h.belowKernel, fun _ => ⟨h, hlt.le⟩⟩
  have hle := Nat.le_of_not_lt hlt
  have hk' := Nat.lt_of_not_le hk
  rcases Vm.allocuvm_entries hle hk' halloc with ⟨rfl, hfilled⟩ | ⟨rfl, hemptied⟩
  · have hgrown := h.grow hle hk' hfilled (Vm.held_allocuvm halloc)
    exact ⟨hgrown.belowKernel, fun _ => ⟨hgrown, le_rfl⟩⟩
  · refine ⟨fun x hx => ?_, fun hr => absurd rfl hr⟩
    rw [hemptied.other d x (.inr (.inr ((npages_le_kernbase hk'.le).trans hx)))]
    exact h.belowKernel x hx

theorem loadSegment_spec (ph : Proghdr) (hf : f.length < 2 ^ 32) (hva : ph.vaddr < 2 ^ 32)
    (hmem : ph.memsz < 2 ^ 32) (hoff : ph.off < 2 ^ 32) (h : Loaded v d sz m) :
    ∃ o v', loadSegment d f ph sz v = .ok (o, v') ∧ BelowKernel v' d ∧
      ∀ sz', o = some sz' → Loaded v' d sz' (applyHeader f m ph) := by
  unfold loadSegment applyHeader
  by_cases htype : ph.type = elfProgLoad
  · rw [if_neg (not_not.mpr htype), if_pos htype]
    by_cases hsize : ph.memsz < ph.filesz
    · exact ⟨none, v, if_pos hsize, h.belowKernel, fun _ ho => by cases ho⟩
    rw [if_neg hsize]
    by_cases hwraps : toU32 (ph.vaddr + ph.memsz) < ph.vaddr
    · exact ⟨none, v, if_pos hwraps, h.belowKernel, fun _ ho => by cases ho⟩
    rw [if_neg hwraps, Fs.toU32_add hva hmem hwraps]
    -- the range is not mapped yet, so `allocuvm` does not panic
    cases halloc : v.allocuvm d sz (ph.vaddr + ph.memsz) with
    | error msg =>
      obtain ⟨-, -, x, hx, hmapped⟩ := Vm.allocuvm_error halloc
      exact absurd (h.none x hx.1) (Vm.entry_ne_none.mpr hmapped)
    | ok r =>
      obtain ⟨sz', v₁⟩ := r
      obtain ⟨hbelow, hloaded⟩ := h.allocuvm halloc
      cases sz' with
      | zero => exact ⟨none, v₁, rfl, hbelow, fun _ ho => by cases ho⟩
      | succ k =>
        obtain ⟨h₁, hle⟩ := hloaded (Nat.succ_ne_zero k)
        by_cases halign : ph.vaddr % pgsize = 0
        · have hend : ph.vaddr + ph.filesz ≤ npages (k + 1) * pgsize := by
            rw [npages_eq]
            simp only [pgsize]
            omega
          obtain ⟨b, v₂, hrun, hent, hpost⟩ := loaduvm_spec halign hend hf hoff h₁
          have hbelow₂ : BelowKernel v₂ d := fun x hx => (hent d x).trans (hbelow x hx)
          simp only [halign, ne_eq, not_true_eq_false, if_false, hrun]
          cases b with
          | false => exact ⟨none, v₂, rfl, hbelow₂, fun _ ho => by cases ho⟩
          | true =>
            refine ⟨some (k + 1), v₂, rfl, hbelow₂, fun _ ho => ?_⟩
            cases ho
            exact hpost rfl
        · exact ⟨none, v₁, if_pos halign, hbelow, fun _ ho => by cases ho⟩
  · rw [if_pos htype, if_neg htype]
    exact ⟨some sz, v, rfl, h.belowKernel, fun _ ho => by cases ho; exact h⟩

theorem loadHeaders_spec (hf : f.length < 2 ^ 32) (n off : Nat) (hoff : off < 2 ^ 32)
    (h : Loaded v d sz m) :
    ∃ o v', loadHeaders d f n off sz v = .ok (o, v') ∧ BelowKernel v' d ∧
      ∀ sz', o = some sz' → Loaded v' d sz' (((List.range n).map fun k =>
        proghdr ((f.drop (off + proghdrSize * k)).take proghdrSize)).foldl (applyHeader f) m) := by
  induction n generalizing off sz v m with
  | zero => exact ⟨some sz, v, rfl, h.belowKernel, fun _ ho => by cases ho; exact h⟩
  | succ n ih =>
    unfold loadHeaders
    cases hread : readAll f off proghdrSize with
    | none => exact ⟨none, v, rfl, h.belowKernel, fun _ ho => by cases ho⟩
    | some bs =>
      obtain ⟨hbs, -, hin⟩ := readAll_eq_some hread
      obtain ⟨o, v₁, hrun, hbelow, hpost⟩ := loadSegment_spec (proghdr bs) hf (field_lt _ _)
        (field_lt _ _) (field_lt _ _) h
      simp only [hrun]
      cases o with
      | none => exact ⟨none, v₁, rfl, hbelow, fun _ ho => by cases ho⟩
      | some sz₁ =>
        have hnext : off + proghdrSize < 2 ^ 32 := by omega
        rw [toU32_add_of_lt hnext]
        obtain ⟨o, v', hrun', hbelow', hpost'⟩ :=
          ih (off + proghdrSize) hnext (hpost sz₁ rfl)
        refine ⟨o, v', hrun', hbelow', fun sz' ho => ?_⟩
        have hfinal := hpost' sz' ho
        rw [List.range_succ_eq_map, List.map_cons, List.foldl_cons, Nat.mul_zero,
          Nat.add_zero, ← hbs, List.map_map]
        have hshift : (fun k => proghdr ((f.drop (off + proghdrSize + proghdrSize * k)).take
            proghdrSize)) = (fun k => proghdr ((f.drop (off + proghdrSize * k)).take
            proghdrSize)) ∘ Nat.succ := by
          funext k
          simp only [Function.comp, Nat.mul_succ, Nat.add_assoc, Nat.add_comm]
        rw [← hshift]
        exact hfinal

theorem loaded_setupkvm {v₁ : Vm} (hn : v.freelist.Nodup) (h : v.setupkvm = (some d, v₁)) :
    Loaded v₁ d 0 fun _ => 0 := by
  have hnew := Vm.newDir_setupkvm h
  have hheld : (v₁.held d).Perm v.freelist := Vm.held_setupkvm h
  constructor
  · exact hheld.nodup_iff.mpr hn
  · decide
  · intro x hx
    rw [npages_zero] at hx
    cases hx
  · intro x _
    exact hnew.empty x
  · intro a ha
    rw [npages_zero, Nat.zero_mul] at ha
    cases ha
  · intro a _
    rfl

end

/-- **The loader survives any file**: it returns, without a panic, and when
it gets as far as the stack, the pages below `sz` are the user's, hold the
image of the file, and are all that is mapped. At no point, after any number
`k` of headers, is a page at or above `KERNBASE` mapped. -/
theorem load_survives {f : List UInt8} {v : Vm} (hf : f.length < 2 ^ 32)
    (hn : v.freelist.Nodup) :
    (∃ o v', load f v = .ok (o, v') ∧
      ∀ d sz, o = some (d, sz) → sz ≤ kernbase ∧ sz % pgsize = 0 ∧
        (∀ x, x * pgsize < sz → v'.UserPage d x) ∧
        (∀ x, sz ≤ x * pgsize → v'.entry d x = none) ∧
        ∀ a, a < sz → v'.read d a = some (image f (headers f) a)) ∧
    ∀ d v₁ k, v.setupkvm = (some d, v₁) →
      ∃ o v₂, loadHeaders d f k (elfhdr f).phoff 0 v₁ = .ok (o, v₂) ∧
        ∀ x, kernbase / pgsize ≤ x → v₂.entry d x = none := by
  have hloop : ∀ d v₁ k, v.setupkvm = (some d, v₁) → _ := fun d v₁ k hset =>
    loadHeaders_spec hf k (elfhdr f).phoff (field_lt _ _) (loaded_setupkvm hn hset)
  refine ⟨?_, fun d v₁ k hset => ?_⟩
  · unfold load
    cases hread : readAll f 0 elfhdrSize with
    | none => exact ⟨none, v, rfl, fun _ _ ho => by cases ho⟩
    | some bs =>
      obtain ⟨rfl, -, -⟩ := readAll_eq_some hread
      simp only [List.drop_zero, elfhdr_take]
      by_cases hmagic : (elfhdr f).magic = elfMagic
      · rw [if_neg (not_not.mpr hmagic)]
        match hset : v.setupkvm with
        | (none, v₁) => exact ⟨none, v₁, rfl, fun _ _ ho => by cases ho⟩
        | (some d, v₁) =>
          obtain ⟨o, v₂, hrun, -, hpost⟩ := hloop d v₁ (elfhdr f).phnum hset
          simp only [hrun]
          cases o with
          | none => exact ⟨none, v₂.freevm d, rfl, fun _ _ ho => by cases ho⟩
          | some sz =>
            refine ⟨some (d, pgroundup sz), v₂, rfl, fun d' sz' ho => ?_⟩
            cases ho
            have hl := hpost sz rfl
            rw [pgroundup_eq]
            refine ⟨?_, Nat.mul_mod_left _ _, ?_, ?_, ?_⟩
            · exact (Nat.mul_le_mul_right pgsize (npages_le_kernbase hl.size.le)).trans
                (by decide)
            · intro x hx
              obtain ⟨e, he, hu⟩ := hl.user x (Nat.lt_of_mul_lt_mul_right hx)
              obtain ⟨hpde, hpte⟩ := Space.entry_eq_some.mp he
              exact ⟨hpde, e, hpte, hu⟩
            · intro x hx
              exact hl.none x (Nat.le_of_mul_le_mul_right hx (by decide))
            · exact hl.holds
      · exact ⟨none, v, if_pos hmagic, fun _ _ ho => by cases ho⟩
  · obtain ⟨o, v₂, hrun, hbelow, -⟩ := hloop d v₁ k hset
    exact ⟨o, v₂, hrun, hbelow⟩

/-- A file with one segment: two bytes at address 0, in a page. -/
def twoBytes : List UInt8 :=
  [0x7F, 0x45, 0x4C, 0x46] ++ List.replicate 24 0 ++ [52, 0, 0, 0] ++ List.replicate 12 0 ++ [1, 0]
    ++ List.replicate 6 0
    ++ [1, 0, 0, 0, 84, 0, 0, 0, 0, 0, 0, 0, 0, 0, 0, 0, 2, 0, 0, 0, 0, 0x10, 0, 0]
    ++ List.replicate 8 0 ++ [0xEB, 0xFE]

theorem load_survives_twoBytes :
    ∃ v', load twoBytes (Vm.kinit (firstPages 67)) = .ok (some (0, 4096), v') ∧
      v'.UserPage 0 0 ∧ v'.read 0 1 = some 0xFE ∧ v'.read 0 2 = some 0 := by
  have hn : (Vm.kinit (firstPages 67)).freelist.Nodup := firstPages_nodup 67
  obtain ⟨o, v', hrun, hpost⟩ := (load_survives (by decide : twoBytes.length < 2 ^ 32) hn).1
  have hfst : (load twoBytes (Vm.kinit (firstPages 67))).toOption.map Prod.fst
      = some (some (0, 4096)) := by decide +kernel
  rw [hrun] at hfst
  obtain rfl : o = some (0, 4096) := Option.some.inj hfst
  obtain ⟨-, -, huser, -, hread⟩ := hpost 0 4096 rfl
  refine ⟨v', hrun, huser 0 (by decide), ?_, ?_⟩
  · rw [hread 1 (by decide)]
    decide +kernel
  · rw [hread 2 (by decide)]
    decide +kernel

end Xv6.Kern.Elf
