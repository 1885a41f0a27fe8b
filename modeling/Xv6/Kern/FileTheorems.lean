/-
Xv6.Kern.FileTheorems — reference counts of open files.

`Called` is the spec of the four calls of `File.lean`, `Worked` of the
process calls; both say that the account of `FileAccount.lean` stays
balanced, what happens to types and pipe ends, and that nothing panics in
`filedup` or `fileclose`. `open_file_refs` is the result for runs.
-/
import Xv6.Kern.FileAccount
import Xv6.Kern.Panics

namespace Xv6.Kern

open Xv6.Lib Xv6.Mem Function

variable {ncpu : Nat} {op : Call} {f₀ f₁ g : FileIdx} {root : InodeIdx} {slindex : Int} {sp : Nat}
  {freelist : List Page} {initcode : List UInt8}
  {a : Act ncpu} {f : FileIdx} {c : Fin ncpu} {fd : Fin nofile} {r : Int}
  {k k' l : Kernel ncpu} {fs : List FileIdx} {is : List InodeIdx} {arg fnc : Nat}
  {fresh : Option Page} {cur np p : ProcIdx} {e : String}

/-- Nothing is open. -/
structure Desk.Empty (d : Desk) : Prop where
  ofile : ∀ fd, d.ofile fd = none
  cwd : d.cwd = none

namespace Kernel

/-! ## What a call leaves -/

/-- Files that stay in use stay what they are, and a pipe end is closed
exactly if the last reference to a file that stands for it goes away. The
page `fresh` is the one a new pipe gets. -/
structure Changes (fresh : Option Page) (k k' : Kernel ncpu) : Prop where
  types : ∀ f, 0 < (k.file f).ref → 0 < (k'.file f).ref →
    (k'.file f).type = (k.file f).type ∧ (k'.file f).writable = (k.file f).writable
  ends : ∀ pi w, fresh ≠ some pi → ((k'.pipe pi).isOpen w = true ↔
    (k.pipe pi).isOpen w = true ∧
    ¬ ∃ f, Dropped k k' f ∧ (k.file f).type = .pipe pi ∧ (k.file f).writable = w)

theorem Closes.changes (h : Closes k k') (fresh : Option Page) : Changes fresh k k' :=
  ⟨fun f _ hf => (h.types f hf).2, fun pi w _ => h.ends pi w⟩

theorem Changes.of_frame (hfile : ∀ f, 0 < (k.file f).ref → k'.file f = k.file f)
    (hpipe : ∀ pi, fresh ≠ some pi → k'.pipe pi = k.pipe pi) : Changes fresh k k' := by
  refine ⟨fun f hf _ => ?_, fun pi w hpi => ?_⟩
  · rw [hfile f hf]
    exact ⟨rfl, rfl⟩
  · rw [hpipe pi hpi]
    refine ⟨fun ho => ⟨ho, ?_⟩, fun ho => ho.1⟩
    rintro ⟨f, ⟨h1, h2⟩, -⟩
    rw [hfile f h1] at h2
    exact h2 h1

/-- What a call of `cur` leaves: the account balanced, the descriptors of
others as they were. -/
structure Called (fresh : Option Page) (cur : ProcIdx) (k k' : Kernel ncpu) : Prop where
  owed : Owed [] [] k'
  changes : Changes fresh k k'
  still : Still k k'
  rest : ∀ p, p ≠ cur → k'.desks p = k.desks p

theorem setOfile_still (k : Kernel ncpu) (p : ProcIdx) (fd : Fin nofile) (v : Option FileIdx) :
    Still k (k.setOfile p fd v) := .setProc

theorem setFile_still (k : Kernel ncpu) (f : FileIdx) (g : File → File) :
    Still k (k.setFile f g) := .of_eq rfl rfl rfl rfl

theorem Called.refl (h : Owed [] [] k) : Called fresh cur k k :=
  ⟨h, (Closes.refl k).changes fresh, .refl k, fun _ _ => rfl⟩

/-! ## Allocating -/

theorem fdalloc_cases (k : Kernel ncpu) (cur : ProcIdx) (f : FileIdx) :
    k.fdalloc cur f = (none, k) ∨ ∃ fd, (k.proc cur).ofile fd = none ∧
      k.fdalloc cur f = (some fd, k.setOfile cur fd (some f)) := by
  unfold fdalloc
  split
  · exact .inl rfl
  rename_i fd hfind
  exact .inr ⟨fd, by simpa using List.find?_some hfind, rfl⟩

theorem argfd_some {n : Int} (h : k.argfd cur n = some (fd, f)) :
    (k.proc cur).ofile fd = some f := by
  unfold argfd at h
  split at h
  · simp only [Option.map_eq_some_iff] at h
    obtain ⟨g, hg, heq⟩ := h
    cases heq
    exact hg
  · cases h

theorem Owed.setType {t : FileType} {w : Bool} (h : Owed fs (t.inode?.toList ++ is) k)
    (ht : (k.file f).type = .none) (hr : (k.file f).ref ≠ 0) :
    Owed fs is (k.setFile f fun g => { g with type := t, writable := w }) := by
  refine ⟨fun g => ?_, fun i => ?_, fun g hg => ?_⟩
  · show (update k.file f _ g).ref = tally k.openSlot g + _
    by_cases hgf : g = f
    · subst hgf
      rw [update_self]
      exact h.files g
    · rw [update_of_ne hgf]
      exact h.files g
  · have hi := h.inodes i
    have hnone : k.inodes f = none := by
      show (k.file f).type.inode? = none
      rw [ht]
      rfl
    rw [setFile_inodes]
    show k.iref i = (tally (update k.inodes f t.inode?) i : Int) + tally k.cwds i + _
    rw [tally_update, hnone]
    rw [List.count_append] at hi
    cases hti : t.inode? with
    | none =>
      rw [hti] at hi
      simpa using hi
    | some j =>
      rw [hti] at hi
      by_cases hji : j = i
      · subst hji
        simp at hi ⊢
        omega
      · simpa [hji] using hi
  · simp only [Kernel.setFile] at hg ⊢
    by_cases hgf : g = f
    · subst hgf
      rw [update_self] at hg
      exact absurd hg hr
    · rw [update_of_ne hgf] at hg ⊢
      exact h.free g hg

theorem fileclose_frame (h : k.fileclose f = .ok k') : (∀ g, g ≠ f → k'.file g = k.file g) ∧
    ∀ pi, (k.file f).type ≠ .pipe pi → k'.pipe pi = k.pipe pi := by
  have hupd : ∀ (x : File) g, g ≠ f → update k.file f x g = k.file g := fun x g hg =>
    update_of_ne hg x k.file
  unfold fileclose at h
  simp only at h
  split at h
  · cases h
  · split at h
    · cases h
      exact ⟨hupd _, fun _ _ => rfl⟩
    · split at h <;> cases h
      · exact ⟨hupd _, fun _ _ => rfl⟩
      · next pj ht =>
        refine ⟨fun g hg => ?_, fun pi hpi => ?_⟩
        · rw [(pipeclose_refs _ _ _).2.1]
          exact hupd _ g hg
        · have hne : pi ≠ pj := by
            rintro rfl
            exact hpi ht
          rw [pipeclose_pipe_eq, update_of_ne hne]
      · exact ⟨hupd _, fun _ _ => rfl⟩

/-! ## `dup` and `close` -/

theorem setOfile_filedup (k : Kernel ncpu) (p : ProcIdx) (fd : Fin nofile) (v : Option FileIdx)
    (f : FileIdx) :
    (k.setOfile p fd v).filedup f = (k.filedup f).map fun l => l.setOfile p fd v := by
  have hfile : (k.setOfile p fd v).file = k.file := rfl
  unfold filedup
  rw [hfile]
  split <;> rfl

theorem sysDup_called (h : Owed [] [] k) (cur : ProcIdx) (fd : Int) :
    ∃ r k', k.sysDup cur fd = .ok (r, k') ∧ Called none cur k k' := by
  unfold sysDup
  cases ha : k.argfd cur fd with
  | none => exact ⟨_, k, rfl, .refl h⟩
  | some x =>
    obtain ⟨fd₀, f⟩ := x
    rcases fdalloc_cases k cur f with hfd | ⟨fd₁, hfree, hfd⟩
    · simp only [hfd]
      exact ⟨_, k, rfl, .refl h⟩
    obtain ⟨k₂, hdup, hproc⟩ := filedup_ok_of_pos (h.ref_pos_of_slot (argfd_some ha))
    simp only [hfd, setOfile_filedup, hdup]
    have hnil : ([] : List FileIdx).length ≤ 16 := by simp
    refine ⟨_, _, rfl, ?_, ?_, ?_, fun p hp => ?_⟩
    · exact (filedup_owed h hnil hdup).setSlot (by rw [hproc]; exact hfree)
    · exact ((filedup_closes h hnil hdup).trans (setOfile_closes _ _ _ _)).changes none
    · exact (filedup_still hdup).trans (setOfile_still _ _ _ _)
    · rw [setOfile_desks_of_ne _ _ _ hp]
      unfold desks
      rw [hproc]

theorem sysClose_called (h : Owed [] [] k) (cur : ProcIdx) (fd : Int) :
    ∃ r k', k.sysClose cur fd = .ok (r, k') ∧ Called none cur k k' := by
  unfold sysClose
  cases ha : k.argfd cur fd with
  | none => exact ⟨_, k, rfl, .refl h⟩
  | some x =>
    obtain ⟨fd₀, f⟩ := x
    obtain ⟨k₁, hk₁, howed, hcl⟩ := closeSlot_owed h (argfd_some ha)
    simp only [setOfile_fileclose, hk₁]
    refine ⟨_, _, rfl, howed, (hcl.trans (setOfile_closes _ _ _ _)).changes none,
      (fileclose_still hk₁).trans (setOfile_still _ _ _ _), fun p hp => ?_⟩
    rw [setOfile_desks_of_ne _ _ _ hp, fileclose_desks hk₁]

/-! ## `open` -/

theorem setFile_file_self (k : Kernel ncpu) (f : FileIdx) (g : File → File) :
    (k.setFile f g).file f = g (k.file f) := by
  simp [setFile]

theorem setFile_file_of_ne (k : Kernel ncpu) {x : FileIdx} (g : File → File) (h : x ≠ f) :
    (k.setFile f g).file x = k.file x := by
  simp [setFile, h]

/-- Nothing but file `f` changes; descriptors, pipes and memory are as they
were. -/
structure Beside (f : FileIdx) (k k' : Kernel ncpu) : Prop where
  file : ∀ g, g ≠ f → k'.file g = k.file g
  pipe : k'.pipe = k.pipe
  desks : k'.desks = k.desks
  still : Still k k'

theorem Beside.trans (h : Beside f k l) (h' : Beside f l k') : Beside f k k' :=
  ⟨fun g hg => (h'.file g hg).trans (h.file g hg), h'.pipe.trans h.pipe, h'.desks.trans h.desks,
    h.still.trans h'.still⟩

/-- `filealloc` finds no file, or takes one without references. -/
theorem filealloc_cases (h : Owed fs is k) : k.filealloc = (none, k) ∨
    ∃ f k', k.filealloc = (some f, k') ∧ Owed (f :: fs) is k' ∧ (k.file f).ref = 0 ∧
      (k'.file f).type = .none ∧ Beside f k k' ∧ k'.vm = k.vm := by
  cases hfa : k.filealloc with
  | mk o k' =>
    cases o with
    | none =>
      unfold filealloc at hfa
      split at hfa <;> cases hfa
      exact .inl rfl
    | some f =>
      obtain ⟨h1, hr, rfl⟩ := filealloc_owed h hfa
      refine .inr ⟨f, _, rfl, h1, hr, ?_,
        ⟨fun g => setFile_file_of_ne k _, rfl, rfl, setFile_still _ _ _⟩, rfl⟩
      rw [setFile_file_self]
      exact h.free f hr

/-- `fileclose` of a file that has no type yet, for want of a descriptor or
of memory. -/
theorem fileclose_fresh (h : Owed (f :: fs) is k) (ht : (k.file f).type = .none) :
    ∃ k', k.fileclose f = .ok k' ∧ Owed fs is k' ∧ Beside f k k' := by
  obtain ⟨k', hk', howed⟩ := fileclose_owed h
  obtain ⟨hfile, hpipe⟩ := fileclose_frame hk'
  exact ⟨k', hk', howed, hfile, funext fun pi => hpipe pi (by simp [ht]), fileclose_desks hk',
    fileclose_still hk'⟩

theorem ne_of_ref (hf : (k.file f).ref = 0) (hg : 0 < (k.file g).ref) : g ≠ f := by
  rintro rfl
  omega

/-- Only a file without references was touched. -/
theorem Beside.called (h : Beside f k k') (hr : (k.file f).ref = 0) (h' : Owed [] [] k') :
    Called fresh cur k k' :=
  ⟨h', .of_frame (fun g hg => h.file g (ne_of_ref hr hg)) fun pi _ => congrFun h.pipe pi, h.still,
    fun p _ => congrFun h.desks p⟩

theorem beside_idup (k : Kernel ncpu) (f : FileIdx) (i : InodeIdx) :
    Beside f k (k.idup (some i)) := ⟨fun _ _ => rfl, rfl, rfl, idup_still k _⟩

theorem beside_iput (k : Kernel ncpu) (f : FileIdx) (i : InodeIdx) :
    Beside f k (k.iput (some i)) := ⟨fun _ _ => rfl, rfl, rfl, iput_still k _⟩

theorem sysOpen_called (h : Owed [] [] k) (cur : ProcIdx) (found : Option (InodeIdx × Bool))
    (omode : Nat) : ∃ r k', k.sysOpen cur found omode = .ok (r, k') ∧ Called none cur k k' := by
  unfold sysOpen
  cases found with
  | none => exact ⟨_, k, rfl, .refl h⟩
  | some x =>
    obtain ⟨ip, dir⟩ := x
    have h0 : Owed [] [ip] (k.idup (some ip)) := h.idup (some ip)
    -- giving the inode back at once leaves nothing
    have hback : Called none cur k ((k.idup (some ip)).iput (some ip)) :=
      ⟨Owed.iput (some ip) h0, .of_frame (fun _ _ => rfl) fun _ _ => rfl,
        (idup_still k _).trans (iput_still _ _), fun _ _ => rfl⟩
    simp only
    split
    · exact ⟨_, _, rfl, hback⟩
    rcases filealloc_cases h0 with hfa | ⟨f, k₁, hfa, h1, hr, ht, hb1, -⟩
    · simp only [hfa]
      exact ⟨_, _, rfl, hback⟩
    have hb := (beside_idup k f ip).trans hb1
    simp only [hfa]
    rcases fdalloc_cases k₁ cur f with hfd | ⟨fd, hfree, hfd⟩
    · obtain ⟨k₃, hk₃, h3, hb3⟩ := fileclose_fresh h1 ht
      simp only [hfd, hk₃]
      exact ⟨_, _, rfl,
        ((hb.trans hb3).trans (beside_iput k₃ f ip)).called hr (Owed.iput (some ip) h3)⟩
    have hpos := h1.ref_pos_of_mem List.mem_cons_self
    simp only [hfd]
    refine ⟨_, _, rfl, Owed.setType (t := .inode ip) (h1.setSlot hfree) ht (Int.ne_of_gt hpos),
      .of_frame (fun g hg => ?_) fun pi _ => congrFun hb.pipe pi,
      (hb.still.trans (setOfile_still _ _ _ _)).trans (setFile_still _ _ _), fun p hp => ?_⟩
    · have hgf := ne_of_ref hr hg
      exact (setFile_file_of_ne _ _ hgf).trans (hb.file g hgf)
    · exact (setOfile_desks_of_ne k₁ fd _ hp).trans (congrFun hb.desks p)

/-! ## `pipe` -/

/-- Two new files stand for the ends of a new pipe in page `p`. -/
structure Piped (k k' : Kernel ncpu) (f₀ f₁ : FileIdx) (p : Page) : Prop where
  owed : Owed [f₀, f₁] [] k'
  file : ∀ g, 0 < (k.file g).ref → g ≠ f₀ ∧ g ≠ f₁ ∧ k'.file g = k.file g
  ne : f₀ ≠ f₁
  types : (k'.file f₀).type = .pipe p ∧ (k'.file f₁).type = .pipe p
  pipe : ∀ pi, pi ≠ p → k'.pipe pi = k.pipe pi
  still : Still k k'
  desks : k'.desks = k.desks

theorem Owed.swap (h : Owed [f, g] is k) : Owed [g, f] is k := by
  refine ⟨fun x => ?_, h.inodes, h.free⟩
  rw [h.files x, (List.Perm.swap g f []).count_eq x]

theorem piped_setFile {k₂ : Kernel ncpu} {p : Page} {vm : Vm} (hm : vm.maps = k₂.vm.maps)
    (hs : vm.space = k₂.vm.space) (h : Owed [f₁, f₀] [] k₂) (hne : f₀ ≠ f₁)
    (ht0 : (k₂.file f₀).type = .none) (ht1 : (k₂.file f₁).type = .none)
    (hfile : ∀ g, 0 < (k.file g).ref → g ≠ f₀ ∧ g ≠ f₁ ∧ k₂.file g = k.file g)
    (hpipe : k₂.pipe = k.pipe) (hdesks : k₂.desks = k.desks) (hstill : Still k k₂) : Piped k
      (({ k₂ with
          vm := vm
          pipe := update k₂.pipe p { readopen := true, writeopen := true }
        }.setFile f₀ fun g => { g with type := .pipe p, writable := false }).setFile f₁
          fun g => { g with type := .pipe p, writable := true }) f₀ f₁ p := by
  have hpos0 := h.ref_pos_of_mem (f := f₀) (by simp)
  have hpos1 := h.ref_pos_of_mem (f := f₁) (by simp)
  have h3 : Owed [f₁, f₀] []
      { k₂ with
        vm := vm
        pipe := update k₂.pipe p { readopen := true, writeopen := true } } :=
    h.of_eq rfl rfl rfl
  have h4 := Owed.setType (t := .pipe p) (w := false) h3 ht0 (Int.ne_of_gt hpos0)
  have h5 := Owed.setType (t := .pipe p) (w := true) (f := f₁) h4
    (by rw [setFile_file_of_ne _ _ hne.symm]; exact ht1)
    (by rw [setFile_file_of_ne _ _ hne.symm]; exact Int.ne_of_gt hpos1)
  refine ⟨h5.swap, fun g hg => ?_, hne, ⟨?_, ?_⟩, fun pi hpi => ?_,
    hstill.trans (.of_eq rfl rfl hm hs), hdesks⟩
  · obtain ⟨hg0, hg1, heq⟩ := hfile g hg
    refine ⟨hg0, hg1, ?_⟩
    rw [setFile_file_of_ne _ _ hg1, setFile_file_of_ne _ _ hg0]
    exact heq
  · rw [setFile_file_of_ne _ _ hne, setFile_file_self]
  · rw [setFile_file_self]
  · show update k₂.pipe p _ pi = _
    rw [update_of_ne hpi, hpipe]

theorem pipealloc_called (h : Owed [] [] k) (cur : ProcIdx) :
    (∃ k', k.pipealloc = .ok (none, k') ∧ Called k.vm.freelist.head? cur k k') ∨
    ∃ f₀ f₁ p k', k.pipealloc = .ok (some (f₀, f₁), k') ∧ k.vm.freelist.head? = some p ∧
      Piped k k' f₀ f₁ p := by
  unfold pipealloc
  rcases filealloc_cases h with hfa | ⟨f₀, k₁, hfa, h1, hr0, ht0, hb1, hvm1⟩
  · simp only [hfa]
    exact .inl ⟨k, rfl, .refl h⟩
  simp only [hfa]
  rcases filealloc_cases h1 with hfb | ⟨f₁, k₂, hfb, h2, hr1, ht1, hb2, hvm2⟩
  · obtain ⟨k₃, hk₃, h3, hb3⟩ := fileclose_fresh h1 ht0
    simp only [hfb, hk₃]
    exact .inl ⟨k₃, rfl, (hb1.trans hb3).called hr0 h3⟩
  have hne : f₀ ≠ f₁ := ne_of_ref hr1 (h1.ref_pos_of_mem List.mem_cons_self)
  have ht0' : (k₂.file f₀).type = .none := by
    rw [hb2.file f₀ hne]
    exact ht0
  have hfile2 : ∀ g, 0 < (k.file g).ref → g ≠ f₀ ∧ g ≠ f₁ ∧ k₂.file g = k.file g := by
    intro g hg
    have hg0 := ne_of_ref hr0 hg
    have hg1 : g ≠ f₁ := ne_of_ref hr1 (by rw [hb1.file g hg0]; exact hg)
    exact ⟨hg0, hg1, (hb2.file g hg1).trans (hb1.file g hg0)⟩
  have hpipe2 := hb2.pipe.trans hb1.pipe
  have hdesks2 := hb2.desks.trans hb1.desks
  have hstill2 := hb1.still.trans hb2.still
  simp only [hfb, Vm.kalloc, hvm2, hvm1]
  cases hfree : k.vm.freelist with
  | nil =>
    have h2' : Owed [f₀, f₁] [] { k₂ with vm := k.vm } := h2.swap.of_eq rfl rfl rfl
    obtain ⟨k₃, hk₃, h3, hb3⟩ := fileclose_fresh h2' ht0'
    have ht1' : (k₃.file f₁).type = .none := by
      rw [hb3.file f₁ hne.symm]
      exact ht1
    obtain ⟨k₄, hk₄, h4, hb4⟩ := fileclose_fresh h3 ht1'
    have hstill4 : Still k₂ k₄ :=
      Still.trans (l := { k₂ with vm := k.vm })
        (.of_eq rfl rfl (by rw [← hvm1, ← hvm2]) (by rw [← hvm1, ← hvm2]))
        (hb3.still.trans hb4.still)
    simp only [hk₃, hk₄]
    refine .inl ⟨k₄, rfl, h4, .of_frame (fun g hg => ?_) fun pi _ => ?_,
      hstill2.trans hstill4, fun p _ => ?_⟩
    · obtain ⟨hg0, hg1, heq⟩ := hfile2 g hg
      exact (hb4.file g hg1).trans ((hb3.file g hg0).trans heq)
    · exact congrFun ((hb4.pipe.trans hb3.pipe).trans hpipe2) pi
    · exact congrFun ((hb4.desks.trans hb3.desks).trans hdesks2) p
  | cons p rest =>
    exact .inr ⟨f₀, f₁, p, _, rfl, rfl,
      piped_setFile (by rw [hvm2, hvm1]; rfl) (by rw [hvm2, hvm1]) h2 hne ht0' ht1 hfile2 hpipe2
        hdesks2 hstill2⟩

theorem closeBoth_called {k₁ : Kernel ncpu} {p : Page} (h : Piped k k₁ f₀ f₁ p) :
    ∃ r k', sysPipe.closeBoth k₁ f₀ f₁ = .ok (r, k') ∧ Called (some p) cur k k' := by
  obtain ⟨k₂, hk₂, h2⟩ := fileclose_owed h.owed
  obtain ⟨k₃, hk₃, h3⟩ := fileclose_owed h2
  obtain ⟨hfile2, hpipe2⟩ := fileclose_frame hk₂
  obtain ⟨hfile3, hpipe3⟩ := fileclose_frame hk₃
  have ht1 : (k₂.file f₁).type = .pipe p := by
    rw [hfile2 f₁ h.ne.symm]
    exact h.types.2
  simp only [sysPipe.closeBoth, hk₂, hk₃]
  refine ⟨_, k₃, rfl, h3, .of_frame (fun g hg => ?_) fun pi hpi => ?_,
    h.still.trans ((fileclose_still hk₂).trans (fileclose_still hk₃)), fun q _ => ?_⟩
  · obtain ⟨hg0, hg1, heq⟩ := h.file g hg
    exact (hfile3 g hg1).trans ((hfile2 g hg0).trans heq)
  · have hne : FileType.pipe p ≠ .pipe pi := fun heq => hpi (congrArg some (FileType.pipe.inj heq))
    rw [hpipe3 pi (by rw [ht1]; exact hne), hpipe2 pi (by rw [h.types.1]; exact hne)]
    exact h.pipe pi fun heq => hpi (congrArg some heq.symm)
  · rw [fileclose_desks hk₃, fileclose_desks hk₂, h.desks]

theorem setOfile_undo (k : Kernel ncpu) (v : Option FileIdx) (h : (k.proc p).ofile fd = none) :
    (k.setOfile p fd v).setOfile p fd none = k := by
  simp only [setOfile, Kernel.setProc, update_self, update_idem]
  rw [← h, update_eq_self, update_eq_self]

theorem sysPipe_called (h : Owed [] [] k) (cur : ProcIdx) (ptr : Bool) :
    ∃ r k', k.sysPipe cur ptr = .ok (r, k') ∧ Called k.vm.freelist.head? cur k k' := by
  unfold sysPipe
  cases ptr with
  | false => exact ⟨_, k, rfl, .refl h⟩
  | true =>
    simp only [Bool.not_true, Bool.false_eq_true, if_false]
    rcases pipealloc_called h cur with ⟨k₁, hk₁, hc⟩ | ⟨f₀, f₁, p, k₁, hk₁, hp, hd⟩
    · simp only [hk₁]
      exact ⟨_, k₁, rfl, hc⟩
    simp only [hk₁, hp]
    rcases fdalloc_cases k₁ cur f₀ with hf0 | ⟨fd₀, hfree0, hf0⟩
    · simp only [hf0]
      exact closeBoth_called hd
    simp only [hf0]
    rcases fdalloc_cases (k₁.setOfile cur fd₀ (some f₀)) cur f₁ with hf1 | ⟨fd₁, hfree1, hf1⟩
    · simp only [hf1, setOfile_undo k₁ (some f₀) hfree0]
      exact closeBoth_called hd
    simp only [hf1]
    refine ⟨_, _, rfl, (hd.owed.setSlot hfree0).setSlot hfree1,
      .of_frame (fun g hg => (hd.file g hg).2.2) fun pi hpi => ?_,
      (hd.still.trans (setOfile_still _ _ _ _)).trans (setOfile_still _ _ _ _), fun q hq => ?_⟩
    · exact hd.pipe pi fun heq => hpi (congrArg some heq.symm)
    · rw [setOfile_desks_of_ne _ _ _ hq, setOfile_desks_of_ne _ _ _ hq, hd.desks]

/-- The page of the pipe an action makes. -/
def newPipe (k : Kernel ncpu) : FileAct ncpu → Option Page
  | .file _ (.pipe _) => k.vm.freelist.head?
  | _ => none

/-- **The four calls never panic** and keep the account balanced. -/
theorem fileCall_called (h : Owed [] [] k) (c : Fin ncpu) (cur : ProcIdx) (op : FileCall) :
    ∃ r k', k.fileCall cur op = .ok (r, k') ∧ Called (k.newPipe (.file c op)) cur k k' := by
  cases op with
  | «open» found omode => exact sysOpen_called h cur found omode
  | dup fd => exact sysDup_called h cur fd
  | close fd => exact sysClose_called h cur fd
  | pipe ptr => exact sysPipe_called h cur ptr

/-! ## Process calls -/

/-- What a process call leaves. An entry whose descriptors or directory
changed has none left, or is in use. -/
structure Worked (k k' : Kernel ncpu) : Prop where
  owed : Owed [] [] k'
  closes : Closes k k'
  moved : ∀ p, k'.desks p = k.desks p ∨ (k'.desks p).Empty ∨
    ((k'.proc p).state ≠ .unused ∧ (k'.proc p).state ≠ .zombie)

theorem SameFiles.worked (hs : SameFiles k k') (h : Owed [] [] k) : Worked k k' :=
  ⟨h.same hs, .of_eq hs.file hs.pipe, fun p => .inl (by rw [hs.desks])⟩

theorem Worked.after (hs : SameFiles k l) (h : Worked l k') : Worked k k' :=
  ⟨h.owed, (Closes.of_eq hs.file hs.pipe).trans h.closes, by rw [← hs.desks]; exact h.moved⟩

theorem Owed.setCwd {is' : List InodeIdx} {f : Proc → Proc} (h : Owed fs is k)
    (hof : (f (k.proc p)).ofile = (k.proc p).ofile)
    (hcount : ∀ i, (is.count i : Int) + (if (k.proc p).cwd = some i then 1 else 0) =
      is'.count i + (if (f (k.proc p)).cwd = some i then 1 else 0)) :
    Owed fs is' (k.setProc p f) := by
  have hslot : (k.setProc p f).openSlot = k.openSlot := by
    funext x
    simp only [openSlot, setProc_proc]
    split
    · next hx => rw [hof, hx]
    · rfl
  have hcwds : (k.setProc p f).cwds = update k.cwds p (f (k.proc p)).cwd := by
    funext q
    by_cases hq : q = p
    · subst hq
      simp [cwds]
    · simp [cwds, setProc_proc, hq]
  refine ⟨fun g => ?_, fun i => ?_, h.free⟩
  · rw [hslot]
    exact h.files g
  · have hi := h.inodes i
    have hc := hcount i
    rw [hcwds, tally_update]
    show k.iref i = (tally k.inodes i : Int) + (tally k.cwds i - (if (k.proc p).cwd = some i then 1
      else 0) + _) + _
    omega

theorem count_toList_append (ip : Option InodeIdx) (is : List InodeIdx) (i : InodeIdx) :
    ((ip.toList ++ is).count i : Int) = is.count i + if ip = some i then 1 else 0 := by
  cases ip with
  | none => simp
  | some j =>
    by_cases hj : j = i
    · simp [hj]
    · simp [hj]

theorem iput_files (k : Kernel ncpu) (ip : Option InodeIdx) :
    (k.iput ip).file = k.file ∧ (k.iput ip).pipe = k.pipe ∧ (k.iput ip).desks = k.desks := by
  cases ip <;> exact ⟨rfl, rfl, rfl⟩

theorem idup_files (k : Kernel ncpu) (ip : Option InodeIdx) :
    (k.idup ip).file = k.file ∧ (k.idup ip).pipe = k.pipe := by
  cases ip <;> exact ⟨rfl, rfl⟩

/-! ### `exit` -/

theorem exitClose_owed (h : Owed [] [] k) (cur : ProcIdx) :
    ∃ k', k.exitClose cur = .ok k' ∧ Owed [] [] k' ∧ Closes k k' ∧
      (∀ p, p ≠ cur → k'.desks p = k.desks p) ∧ (k'.desks cur).Empty := by
  obtain ⟨k₁, hk₁, h1, hcl, hcop, hnone⟩ := closeFiles_owed h cur
  have h2 : Owed [] (k₁.proc cur).cwd.toList (k₁.setProc cur fun q => { q with cwd := none }) :=
    h1.setCwd rfl fun i => by
      have := count_toList_append (k₁.proc cur).cwd [] i
      simp only [List.append_nil] at this
      simp [this]
  rw [← List.append_nil (k₁.proc cur).cwd.toList] at h2
  have h3 := h2.iput
  -- the order of `iput` and `curproc->cwd = 0` does not matter
  have hcomm : (k₁.iput (k₁.proc cur).cwd).setProc cur (fun q => { q with cwd := none })
      = (k₁.setProc cur fun q => { q with cwd := none }).iput (k₁.proc cur).cwd := by
    cases (k₁.proc cur).cwd <;> rfl
  obtain ⟨hfile, hpipe, hdesks⟩ :=
    iput_files (k₁.setProc cur fun q => { q with cwd := none }) (k₁.proc cur).cwd
  rw [setProc_desks] at hdesks
  refine ⟨_, by simp only [exitClose, hk₁, hcomm], h3, hcl.trans (.of_eq hfile hpipe),
    fun p hp => ?_, ?_⟩
  · rw [hdesks, update_of_ne hp, hcop.rest p hp]
  · rw [hdesks, update_self]
    exact ⟨hnone, rfl⟩

theorem exit_worked (h : Owed [] [] k) (he : k.exit c cur = .ok k') :
    Worked k k' ∧ (k'.desks cur).Empty := by
  obtain ⟨k₁, hk₁, h1, hcl, hrest, hempty⟩ := exitClose_owed h cur
  rw [exit_eq, hk₁] at he
  split at he
  · cases he
  · cases he
    have hs := exitFinish_files k₁ c cur
    have hcur : ((k₁.exitFinish c cur).desks cur).Empty := by
      rw [hs.desks]
      exact hempty
    refine ⟨⟨h1.same hs, hcl.trans (.of_eq hs.file hs.pipe), fun p => ?_⟩, hcur⟩
    by_cases hp : p = cur
    · rw [hp]
      exact .inr (.inl hcur)
    · rw [hs.desks, hrest p hp]
      exact .inl rfl

/-! ### `fork` and `KT_Create` -/

/-- An entry that `allocproc` may hand out holds nothing. -/
def Unheld (k : Kernel ncpu) : Prop :=
  ∀ p, (k.proc p).state = .unused → (k.desks p).Empty

theorem copyDesk_owed (h : Owed [] [] k) (cur : ProcIdx) {f : Kernel ncpu → Proc → Proc}
    (hnp : (k.desks np).Empty) (hof : ∀ l q, (f l q).ofile = q.ofile)
    (hcwd : ∀ l q, (f l q).cwd = (l.proc cur).cwd) : ∃ k₁, k.dupFiles cur np = .ok k₁ ∧
      Owed [] [] ((k₁.idup (k₁.proc cur).cwd).setProc np (f k₁)) ∧
      Closes k ((k₁.idup (k₁.proc cur).cwd).setProc np (f k₁)) ∧
      ∀ p, p ≠ np → ((k₁.idup (k₁.proc cur).cwd).setProc np (f k₁)).desks p = k.desks p := by
  obtain ⟨k₁, hk₁, h1, hcl, hcop⟩ := dupFiles_owed h cur hnp.ofile
  have hproc := idup_proc k₁ (k₁.proc cur).cwd
  obtain ⟨hfile, hpipe⟩ := idup_files k₁ (k₁.proc cur).cwd
  refine ⟨k₁, hk₁, (h1.idup (k₁.proc cur).cwd).setCwd (hof _ _) fun i => ?_,
    hcl.trans (.of_eq hfile hpipe), fun p hp => ?_⟩
  · have hnone : (k₁.proc np).cwd = none := hcop.cwd.trans hnp.cwd
    rw [hcwd, count_toList_append, hproc, hnone]
    simp
  · rw [setProc_desks, update_of_ne hp]
    show ((k₁.idup (k₁.proc cur).cwd).proc p).desk = _
    rw [hproc]
    exact hcop.rest p hp

theorem forkFill_false_files (hf : k.forkFill cur np = .ok (false, k')) : SameFiles k k' := by
  obtain ⟨d, o, v, -, -, ⟨-, -, pg, -, rfl⟩ | ⟨_, _, _, _, _, hb, -⟩⟩ := forkFill_eq hf
  · exact (SameFiles.vm k _).trans (.setProc rfl)
  · cases hb

/-- The entry a successful `fork` fills from `cur`, up to its files. -/
def forkFields (cur : ProcIdx) (d' : Nat) (old q : Proc) : Proc :=
  { q with
    pgdir := some d'
    sz := old.sz
    parent := some cur
    tf := { old.tf with
            eax := 0
            esp := toU32 (old.tf.esp + (if old.psl = none then 0 else old.slindex) * 2 * pgsize) } }

theorem forkFill_worked (h : Owed [] [] k) (hnp : (k.desks np).Empty)
    (hf : k.forkFill cur np = .ok (true, k')) :
    Owed [] [] k' ∧ Closes k k' ∧ ∀ p, p ≠ np → k'.desks p = k.desks p := by
  unfold forkFill at hf
  simp only at hf
  split at hf
  · cases hf
  · split at hf
    · cases hf
    · split at hf <;> cases hf
    rename_i d' vm _
    have hs : SameFiles k ({ k with vm := vm }.setProc np (forkFields cur d' (k.proc cur))) :=
      (SameFiles.vm k vm).trans (.setProc rfl)
    obtain ⟨k₁, hk₁, h1, hcl, hrest⟩ := copyDesk_owed (h.same hs) cur
      (f := fun k₁ q => { q with cwd := (k₁.proc cur).cwd, name := (k₁.proc cur).name })
      (by rw [hs.desks]; exact hnp) (fun _ _ => rfl) (fun _ _ => rfl)
    unfold forkFields at hk₁
    rw [hk₁] at hf
    cases hf
    exact ⟨h1, (Closes.of_eq hs.file hs.pipe).trans hcl,
      fun p hp => (hrest p hp).trans (by rw [hs.desks])⟩

theorem fork_worked (h : Owed [] [] k) (hu : Unheld k) (hf : k.fork cur = .ok (r, k')) :
    Worked k k' := by
  rcases fork_paths hf with ⟨-, ha⟩ | ⟨np, k1, ha, hfill⟩
  · exact (allocproc_allocs ha).files.worked h
  have hs := (allocproc_allocs ha).files
  have hnp : (k1.desks np).Empty := by
    rw [hs.desks]
    exact hu np (allocproc_allocs ha).unused
  rcases hfill with ⟨-, hfill⟩ | ⟨k2, hfill, -, rfl⟩
  · exact (hs.trans (forkFill_false_files hfill)).worked h
  obtain ⟨h2, hcl, hrest⟩ := forkFill_worked (h.same hs) hnp hfill
  have hs2 : SameFiles k2 (k2.setState np .runnable) := .setProc rfl
  refine Worked.after hs ⟨h2.same hs2, hcl.trans (.of_eq hs2.file hs2.pipe), fun p => ?_⟩
  by_cases hp : p = np
  · subst hp
    simp [setState]
  · exact .inl (by rw [hs2.desks, hrest p hp])

/-- `clone` copies to an entry that holds nothing, and leaves it `EMBRYO` if
it fails after that. -/
theorem clone_worked (h : Owed [] [] k) (hu : Unheld k)
    (hf : k.clone cur sp slindex fnc arg = .ok (r, k')) : Worked k k' := by
  unfold clone at hf
  split at hf
  · next k1 ha =>
    cases hf
    exact (tallocproc_allocs ha).files.worked h
  rename_i nt k1 ha
  have hs := (tallocproc_allocs ha).files
  obtain ⟨hun, hr, -⟩ := (tallocproc_allocs ha).roster_some
  have hs1 : SameFiles k (k1.setProc nt (cloneFields cur slindex (k1.proc cur))) :=
    hs.trans (.setProc rfl)
  obtain ⟨k₁, hk₁, h1, hcl, hrest⟩ := copyDesk_owed (h.same hs1) cur
    (f := fun k₁ q =>
      { q with
        cwd := (k₁.proc cur).cwd
        name := (k₁.proc cur).name
        pid := (k₁.proc cur).pid
        tid := toI32 ((k₁.proc cur).tid + 1) })
    (by rw [hs1.desks]; exact hu nt hun) (fun _ _ => rfl) (fun _ _ => rfl)
  -- the new entry is still `EMBRYO` here
  have hembryo : (k₁.proc nt).state = .embryo := by
    have hro := (dupFiles_same hk₁).roster
    have hst : (k₁.roster nt).state = (k1.roster nt).state := by
      rw [hro, setProc_roster, update_self]
      rfl
    rw [hr, update_self] at hst
    exact hst
  rw [hk₁] at hf
  simp only at hf
  generalize hl : ((k₁.idup (k₁.proc cur).cwd).setProc nt fun q =>
      { q with
        cwd := (k₁.proc cur).cwd
        name := (k₁.proc cur).name
        pid := (k₁.proc cur).pid
        tid := toI32 ((k₁.proc cur).tid + 1) }) = l at hf h1 hcl hrest
  have hl' : (l.proc nt).state = .embryo := by
    rw [← hl, setProc_proc_self, idup_proc]
    exact hembryo
  -- whatever follows touches neither files nor other entries
  have hdone : ∀ m, SameFiles l m →
      ((m.proc nt).state ≠ .unused ∧ (m.proc nt).state ≠ .zombie) → Worked k m := by
    intro m hm hst
    refine Worked.after hs1 ⟨h1.same hm, hcl.trans (.of_eq hm.file hm.pipe), fun p => ?_⟩
    by_cases hp : p = nt
    · rw [hp]
      exact .inr (.inr hst)
    · exact .inl (by rw [hm.desks, hrest p hp])
  split at hf
  · cases hf
  · split at hf
    · cases hf
    · next vm _ =>
      cases hf
      refine hdone _ (.vm l vm) ?_
      rw [hl']
      simp
    rename_i vm _
    cases hf
    refine hdone _ ((SameFiles.vm l vm).trans (.setProc rfl)) ?_
    simp

theorem Unheld.bare (h : Unheld k) (hb : l.bare = k.bare) : Unheld l := by
  intro p hp
  rw [(SameFiles.of_bare hb).desks]
  exact h p ((congrArg (fun k => (k.proc p).state) hb).symm.trans hp)

theorem ktCreate_worked (h : Owed [] [] k) (hu : Unheld k)
    (hf : k.ktCreate cur fnc arg = .ok (r, k')) : Worked k k' := by
  rcases ktCreate_paths k cur fnc arg with ⟨e, he, -⟩ | ⟨k₁, hk, hb⟩ | ⟨l, sp, i, hl, hb⟩
  · rw [he] at hf
    cases hf
  · rw [hk] at hf
    cases hf
    exact (SameFiles.of_bare hb).worked h
  · rw [hl] at hf
    have hs := SameFiles.of_bare hb
    exact Worked.after hs (clone_worked (h.same hs) (hu.bare hb) hf)

end Kernel

namespace Panic

/-! The three calls that copy or close files. The account rules out the
panics of `filedup` and `fileclose`. -/

section
variable {k : Kernel ncpu} {c : Fin ncpu} {cur np : ProcIdx} {e : String}

open Kernel

section
variable (ho : Owed [] [] k)
include ho

theorem exit (h : k.exit c cur = .error e) : Elsewhere e := by
  obtain ⟨k₁, hk₁, -⟩ := exitClose_owed ho cur
  rw [exit_eq, hk₁] at h
  split at h <;> cases h
  decide

theorem forkFill (hnp : (k.desks np).Empty) (h : k.forkFill cur np = .error e) : Elsewhere e := by
  unfold Kernel.forkFill at h
  simp only at h
  split at h
  · cases h
    decide
  · split at h
    · next hc =>
      cases h
      exact copyuvm hc
    · split at h
      · next hk =>
        cases h
        exact freeKstack hk
      · cases h
    rename_i d' vm _
    have hs : SameFiles k ({ k with vm := vm }.setProc np (forkFields cur d' (k.proc cur))) :=
      (SameFiles.vm k vm).trans (.setProc rfl)
    obtain ⟨k₁, hk₁, -⟩ := dupFiles_owed (ho.same hs) cur
      (fun fd => (congrArg (fun d => (d np).ofile fd) hs.desks).trans (hnp.ofile fd))
    unfold forkFields at hk₁
    rw [hk₁] at h
    cases h

theorem fork (hu : Unheld k) (h : k.fork cur = .error e) : Elsewhere e := by
  rw [fork_eq] at h
  split at h
  · cases h
  rename_i np k1 ha
  have hs := (allocproc_allocs ha).files
  have hnp : (k1.desks np).Empty := by
    rw [hs.desks]
    exact hu np (allocproc_allocs ha).unused
  split at h
  · next hf =>
    cases h
    exact forkFill (ho.same hs) hnp hf
  · cases h
  · cases h

theorem clone (hu : Unheld k) (h : k.clone cur sp slindex fnc arg = .error e) : Elsewhere e := by
  unfold Kernel.clone at h
  split at h
  · cases h
  rename_i nt k1 ha
  have hs := (tallocproc_allocs ha).files
  have hs1 : SameFiles k (k1.setProc nt (cloneFields cur slindex (k1.proc cur))) :=
    hs.trans (.setProc rfl)
  obtain ⟨k₁, hk₁, -⟩ := dupFiles_owed (ho.same hs1) cur
    (fun fd => (congrArg (fun d => (d nt).ofile fd) hs1.desks).trans
      ((hu nt (tallocproc_allocs ha).unused).ofile fd))
  rw [hk₁] at h
  simp only at h
  split at h
  · cases h
    decide
  · split at h <;> cases h
    next hc => exact copyout hc

theorem ktCreate (hu : Unheld k) (h : k.ktCreate cur fnc arg = .error e) : Elsewhere e := by
  rcases ktCreate_paths k cur fnc arg with ⟨e', he, hel⟩ | ⟨k₁, hk, -⟩ | ⟨l, sp, i, hl, hb⟩
  · rw [he] at h
    cases h
    rcases hel with rfl | ⟨l, d, i, guard, ha⟩
    · decide
    · exact stackAlloc ha
  · rw [hk] at h
    cases h
  · rw [hl] at h
    exact clone (ho.same (.of_bare hb)) (hu.bare hb) h

end

end

end Panic

namespace Kernel

/-! ## All actions -/

theorem perform_worked (h : Owed [] [] k) (hu : Unheld k) (hp : k.perform c p op = .ok k') :
    Worked k k' := by
  -- most calls leave the files alone
  have hheld : ∀ l : Kernel ncpu, l.holdings = k.holdings → Worked k l := fun l hl =>
    (SameFiles.of_holdings hl).worked h
  cases op with
  | yield =>
    cases hp
    exact hheld _ (schedOut_holdings k c p .runnable)
  | sleep chan =>
    cases hp
    exact hheld _ (sleep_holdings k c p chan)
  | kill pid =>
    cases hp
    exact hheld _ (kill_holdings k pid)
  | exit => exact (exit_worked h hp).1
  | wait =>
    obtain ⟨r, hr⟩ := map_snd_ok hp
    exact (SameFiles.of_effect (wait_effect hr)).worked h
  | ktJoin =>
    obtain ⟨r, hr⟩ := map_snd_ok hp
    exact (SameFiles.of_effect (ktJoin_effect hr)).worked h
  | fork =>
    obtain ⟨r, hr⟩ := map_snd_ok hp
    exact fork_worked h hu hr
  | ktCreate fnc arg =>
    obtain ⟨r, hr⟩ := map_snd_ok hp
    exact ktCreate_worked h hu hr
  | growproc n =>
    obtain ⟨r, hr⟩ := map_snd_ok hp
    exact (SameFiles.of_bare (growproc_bare hr)).worked h
  | exec f =>
    obtain ⟨r, hr⟩ := map_snd_ok hp
    exact (SameFiles.of_bare (exec_bare hr)).worked h
  | semInitialize n =>
    cases hp
    obtain ⟨s, hs⟩ := sysSemInitialize_eq k n.toInt
    exact hheld _ (congrArg holdings hs :)
  | semWait i =>
    cases hp
    obtain ⟨q, hq⟩ := semWait_eq k p i
    exact hheld _ (congrArg holdings hq :)
  | semSignal i =>
    cases hp
    obtain ⟨q, hq⟩ := semSignal_eq k p i
    exact hheld _ (congrArg holdings hq :)
  | semFree i =>
    cases hp
    exact hheld _ rfl

theorem worked_of_next (h : Owed [] [] k) (hu : Unheld k) (hn : k.next a = some k') :
    Worked k k' := by
  cases stepped_of_next hn with
  | schedule c p _ _ hs => exact (SameFiles.of_holdings (scheduler_holdings hs)).worked h
  | wakeup chan hk =>
    rw [hk]
    exact (wakeup1_files k chan).worked h
  | call c p op _ _ hp => exact perform_worked h hu hp
  | waitEnter c p i _ _ hk =>
    rw [hk]
    exact (SameFiles.of_holdings (semWaitEnter_holdings k c p i)).worked h
  | signalEnter c p i _ _ hk =>
    rw [hk]
    exact (SameFiles.of_holdings (semSignalEnter_holdings k p i)).worked h

theorem map_snd_error {α β : Type} {x : Except String (α × β)} (h : x.map Prod.snd = .error e) :
    x = .error e := by
  cases x with
  | error e' => exact congrArg Except.error (Except.error.inj h)
  | ok v => cases h

theorem perform_panic (h : Owed [] [] k) (hu : Unheld k) (hp : k.perform c p op = .error e) :
    Elsewhere e := by
  cases op with
  | exit => exact Panic.exit h hp
  | wait => exact Panic.wait (map_snd_error hp)
  | ktJoin => exact Panic.ktJoin (map_snd_error hp)
  | fork => exact Panic.fork h hu (map_snd_error hp)
  | ktCreate fnc arg => exact Panic.ktCreate h hu (map_snd_error hp)
  | growproc n => exact Panic.growproc (map_snd_error hp)
  | exec f => exact Panic.exec (map_snd_error hp)
  | yield => cases hp
  | sleep chan => cases hp
  | kill pid => cases hp
  | semInitialize n => cases hp
  | semWait i => cases hp
  | semSignal i => cases hp
  | semFree i => cases hp

theorem step_panic (h : Owed [] [] k) (hu : Unheld k) (hs : k.step a = some (.error e)) :
    Elsewhere e := by
  cases a with
  | schedule c p =>
    simp only [step] at hs
    split at hs
    · exact Panic.scheduler (Option.some.inj hs)
    · cases hs
  | wakeup chan => cases hs
  | call c op =>
    simp only [step] at hs
    split at hs
    · cases hs
    · split at hs
      · exact perform_panic h hu (Option.some.inj hs)
      · cases hs
  | enter c =>
    simp only [step] at hs
    split at hs
    · cases hs
    · obtain ⟨k', -, hk⟩ := Option.map_eq_some_iff.mp hs
      cases hk

/-- An entry that is `UNUSED` or `ZOMBIE` was so before, or its `exit` has
just ended. -/
theorem Recorded.idle (h : Recorded k k' a) {q : ProcIdx}
    (hq : (k'.roster q).state = .unused ∨ (k'.roster q).state = .zombie) :
    (k.roster q).state = .unused ∨ (k.roster q).state = .zombie ∨
      ∃ c, a = .call c .exit ∧ k.cpu c = some q := by
  have hlife : ∀ st st' : ProcState, st'.life = st.life → st' = .unused ∨ st' = .zombie →
      st = .unused ∨ st = .zombie := by
    intro st st' heq hor
    rw [← ProcState.life_eq_none, ← ProcState.life_eq_zombie, ← heq, ProcState.life_eq_none,
      ProcState.life_eq_zombie]
    exact hor
  have hupd : ∀ x e, k'.roster = update k.roster x e →
      (e.state = .unused ∨ e.state = .zombie →
        (k.roster x).state = .unused ∨ (k.roster x).state = .zombie) →
      (k.roster q).state = .unused ∨ (k.roster q).state = .zombie := by
    intro x e hr hx
    rw [hr] at hq
    by_cases hqx : q = x
    · subst hqx
      rw [update_self] at hq
      exact hx hq
    · rwa [update_of_ne hqx] at hq
  rw [← or_assoc]
  cases h with
  | kept _ hk => exact .inl (hlife _ _ (hk.entry q).life hq)
  | kill c pid hk =>
    rw [hk] at hq
    exact .inl (hlife _ _ (kill_entry k pid q).2.2.2.2.1 hq)
  | exit c p k₁ hc _ hw hk =>
    rw [hk] at hq
    have hl := (exitFinish_entry hw c p q).2.2.2
    by_cases hqp : q = p
    · rw [hqp]
      exact .inr ⟨c, rfl, hc⟩
    · rw [if_neg hqp] at hl
      exact .inl (hlife _ _ hl hq)
  | reap c p z op _ _ hz hr _ => exact .inl (hupd z _ hr fun _ => .inr hz)
  | forkFailed c np hu hr _ | fork c p np _ hu hr _ => exact .inl (hupd np _ hr fun _ => .inl hu)
  | spawn c p nt fnc arg st _ hu _ hr _ => exact .inl (hupd nt _ hr fun _ => .inl hu)

/-- **The account between calls.** -/
structure FileInv (k : Kernel ncpu) : Prop where
  sched : SchedInv k
  owed : Owed [] [] k
  idle : ∀ p, (k.proc p).state = .unused ∨ (k.proc p).state = .zombie → (k.desks p).Empty

theorem FileInv.unheld (h : FileInv k) : Unheld k :=
  fun p hp => h.idle p (.inl hp)

theorem FileInv.kern (h : FileInv k) (hn : k.next a = some k') :
    FileInv k' ∧ Changes none k k' := by
  have hw := worked_of_next h.owed h.unheld hn
  refine ⟨⟨schedInv_step h.sched hn, hw.owed, fun q hq => ?_⟩, hw.closes.changes none⟩
  rcases hw.moved q with hsame | hempty | hused
  · rcases (recorded h.sched hn).idle hq with hq' | hq' | ⟨c, rfl, hc⟩
    · rw [hsame]
      exact h.idle q (.inl hq')
    · rw [hsame]
      exact h.idle q (.inr hq')
    · cases stepped_of_next hn with
      | call _ p _ hp _ he =>
        rw [hc] at hp
        cases hp
        exact (exit_worked h.owed he).2
  · exact hempty
  · exact absurd hq (by simp [hused])

theorem FileInv.file (h : FileInv k) (hc : k.cpu c = some p) (hcall : Called fresh p k k') :
    FileInv k' := by
  refine ⟨schedInv_quiet h.sched hcall.still.calm.toQuiet, hcall.owed, fun q hq => ?_⟩
  have hk := hcall.still.woken.kept.entry q
  have hlife : ((k'.proc q).state).life = ((k.proc q).state).life := hk.life
  have hqp : q ≠ p := by
    rintro rfl
    rw [h.sched.onCpu c q hc] at hlife
    rcases hq with hq | hq <;> rw [hq] at hlife <;> cases hlife
  rw [hcall.rest q hqp]
  refine h.idle q ?_
  rwa [← ProcState.life_eq_none, ← ProcState.life_eq_zombie, ← hlife, ProcState.life_eq_none,
    ProcState.life_eq_zombie]

/-- **One action** keeps the account balanced. -/
theorem FileInv.step {a : FileAct ncpu} (h : FileInv k) (hn : k.fileNext a = some k') :
    FileInv k' ∧ Changes (k.newPipe a) k k' := by
  cases a with
  | kern a => exact h.kern hn
  | file c op =>
    simp only [fileNext, fileStep] at hn
    cases hc : k.cpu c with
    | none => simp [hc] at hn
    | some p =>
      obtain ⟨r, k₁, hk₁, hcall⟩ := fileCall_called h.owed c p op
      simp only [hc, hk₁] at hn
      split at hn
      · next heq =>
        split at heq
        · cases heq
          cases hn
          exact ⟨h.file hc hcall, hcall.changes⟩
        · cases heq
      · cases hn

theorem fileStep_panic {a : FileAct ncpu} (h : FileInv k) (hs : k.fileStep a = some (.error e)) :
    Elsewhere e := by
  cases a with
  | kern a => exact step_panic h.owed h.unheld hs
  | file c op =>
    simp only [fileStep] at hs
    split at hs
    · cases hs
    rename_i p _
    obtain ⟨r, k₁, hk₁, -⟩ := fileCall_called h.owed c p op
    rw [hk₁] at hs
    split at hs
    · cases hs
    · cases hs

/-! ## Runs -/

theorem fileInv_userinit (h : (cleared ncpu (Vm.kinit freelist)).userinit initcode root = .ok k) :
    FileInv k := by
  have hboot := boot_userinit h
  have hclear : Owed [] [] (cleared ncpu (Vm.kinit freelist)) := by
    have hslot : ∀ f, tally (cleared ncpu (Vm.kinit freelist)).openSlot f = 0 := fun f =>
      tally_eq_zero.mpr fun x => by simp [openSlot, cleared]
    have hinodes : ∀ i, tally (cleared ncpu (Vm.kinit freelist)).inodes i = 0 := fun i =>
      tally_eq_zero.mpr fun x => by simp [inodes, cleared, FileType.inode?]
    have hcwds : ∀ i, tally (cleared ncpu (Vm.kinit freelist)).cwds i = 0 := fun i =>
      tally_eq_zero.mpr fun x => by simp [cwds, cleared]
    refine ⟨fun f => ?_, fun i => ?_, fun f _ => rfl⟩
    · rw [hslot]
      rfl
    · rw [hinodes, hcwds]
      rfl
  refine ⟨schedInv_boot hboot, ?_, fun p hp => ?_⟩
  · unfold userinit at h
    split at h
    · cases h
    rename_i p k1 ha
    have hs := (allocproc_allocs ha).files
    split at h
    · cases h
    · split at h
      · cases h
      rename_i d vm _ vm₂ _
      cases h
      have h1 : Owed [] [] { k1 with vm := vm₂ } := (hclear.same hs).same (.vm k1 vm₂)
      have hnone : (k1.proc p).cwd = none := congrArg (fun d => (d p).cwd) hs.desks
      refine (h1.idup (some root)).setCwd rfl fun i => ?_
      show (([root] : List InodeIdx).count i : Int) + (if (k1.proc p).cwd = some i then 1
        else 0) = _
      rw [hnone]
      by_cases hi : root = i
      · simp [hi]
      · simp [hi]
  · have hne : p ≠ initproc := by
      rintro rfl
      rw [hboot.init] at hp
      rcases hp with hp | hp <;> cases hp
    show (k.proc p).desk.Empty
    rw [hboot.rest p hne]
    exact ⟨fun _ => rfl, rfl⟩

theorem fileInv_run {k₀ : Kernel ncpu} {tr : List (Kernel ncpu × FileAct ncpu)}
    (h0 : (cleared ncpu (Vm.kinit freelist)).userinit initcode root = .ok k₀)
    (hr : Run fileNext k₀ tr k) : FileInv k :=
  hr.always (fileInv_userinit h0) fun _ _ _ hi hn => (hi.step hn).1

/-- Some descriptor refers to `f`. -/
def Open (k : Kernel ncpu) (f : FileIdx) : Prop := ∃ p fd, (k.proc p).ofile fd = some f

theorem Owed.open_iff (h : Owed [] [] k) (f : FileIdx) : k.Open f ↔ 0 < (k.file f).ref := by
  constructor
  · rintro ⟨p, fd, hfd⟩
    exact h.ref_pos_of_slot hfd
  · intro hpos
    by_contra hno
    have h0 : tally k.openSlot f = 0 := tally_eq_zero.mpr fun x hx => hno ⟨x.1, x.2, hx⟩
    have := h.files f
    simp [h0] at this
    omega

/-- **Reference counts of open files**, between the calls of every run:
every count is the number of descriptors; `filedup` and `fileclose` do not
panic in any action; `filealloc` never takes a file some descriptor refers
to; every file that is an inode holds one reference to it, as does every
current directory, and nothing else does. An action leaves a file some
descriptor refers to before and after as it was, and closes a pipe end
exactly if the last descriptor of its file goes away. -/
theorem open_file_refs {freelist : List Page} {k₀ k : Kernel ncpu} {initcode : List UInt8}
    {root : InodeIdx} {tr : List (Kernel ncpu × FileAct ncpu)}
    (h0 : (cleared ncpu (Vm.kinit freelist)).userinit initcode root = .ok k₀)
    (hr : Run fileNext k₀ tr k) :
    (∀ f, (k.file f).ref = ((Finset.univ.filter fun x : ProcIdx × Fin nofile =>
      (k.proc x.1).ofile x.2 = some f).card : Int)) ∧
    (∀ a e, k.fileStep a = some (.error e) → e ≠ "filedup" ∧ e ≠ "fileclose") ∧
    (∀ f k', k.filealloc = (some f, k') → ¬ k.Open f) ∧
    (∀ f, ¬ k.Open f → (k.file f).type = .none) ∧
    (∀ ip, k.iref ip = ((Finset.univ.filter fun f => (k.file f).type = .inode ip).card : Int) +
      (Finset.univ.filter fun p => (k.proc p).cwd = some ip).card) ∧
    (∀ a k', k.fileNext a = some k' →
      (∀ f, k.Open f → k'.Open f → (k'.file f).type = (k.file f).type ∧
        (k'.file f).writable = (k.file f).writable) ∧
      ∀ pi w, k.newPipe a ≠ some pi → ((k'.pipe pi).isOpen w = true ↔
        (k.pipe pi).isOpen w = true ∧ ¬ ∃ f, k.Open f ∧ ¬ k'.Open f ∧
          (k.file f).type = .pipe pi ∧ (k.file f).writable = w)) := by
  have h := fileInv_run h0 hr
  have hslot : ∀ f x, (k.proc x.1).ofile x.2 = some f ↔ k.openSlot x = some f := fun _ _ => Iff.rfl
  have hcwd : ∀ ip p, (k.proc p).cwd = some ip ↔ k.cwds p = some ip := fun _ _ => Iff.rfl
  have hinode : ∀ ip f, (k.file f).type = .inode ip ↔ k.inodes f = some ip := by
    intro ip f
    show _ ↔ (k.file f).type.inode? = some ip
    cases (k.file f).type <;> simp [FileType.inode?]
  refine ⟨fun f => ?_, fun a e => fileStep_panic h, fun f k' ha => ?_, fun f hf => ?_,
    fun ip => ?_, fun a k' hn => ?_⟩
  · rw [card_filter_eq_tally (hslot f)]
    exact (h.owed.files f).trans (Int.add_zero _)
  · rw [h.owed.open_iff, (filealloc_owed h.owed ha).2.1]
    exact Int.lt_irrefl 0
  · refine h.owed.free f ?_
    have hr := (h.owed.ref_range f).1
    rw [h.owed.open_iff] at hf
    omega
  · rw [card_filter_eq_tally (hinode ip), card_filter_eq_tally (hcwd ip)]
    exact (h.owed.inodes ip).trans (Int.add_zero _)
  · obtain ⟨h', hch⟩ := h.step hn
    refine ⟨fun f hf hf' => ?_, fun pi w hpi => ?_⟩
    · rw [h.owed.open_iff] at hf
      rw [h'.owed.open_iff] at hf'
      exact hch.types f hf hf'
    · rw [hch.ends pi w hpi]
      simp only [Dropped, h.owed.open_iff, h'.owed.open_iff, and_assoc]

/-- `initproc` opens a file and a pipe, duplicates a descriptor, starts a
thread and closes its own write end. -/
def threadOpens : List (Kernel 1 × FileAct 1) × Kernel 1 :=
  (follow fileNext threadMachine
    [.kern (.schedule 0 0), .file 0 (.open (some (1, false)) oRdwr), .file 0 (.pipe true),
      .file 0 (.dup 0), .kern (.call 0 (.ktCreate pgsize 0)), .file 0 (.close 2)]).get
    (by decide +kernel)

theorem open_file_refs_threadOpens :
    (threadOpens.2.file 0).ref = 4 ∧ (threadOpens.2.file 2).ref = 1 ∧
    (Finset.univ.filter fun x : ProcIdx × Fin nofile =>
      (threadOpens.2.proc x.1).ofile x.2 = some 0).card = 4 ∧
    (Finset.univ.filter fun x : ProcIdx × Fin nofile =>
      (threadOpens.2.proc x.1).ofile x.2 = some 2).card = 1 := by
  have hr : Run fileNext threadMachine threadOpens.1 threadOpens.2 := run_get _
  have hrefs := (open_file_refs userinit_threadMachine hr).1
  obtain ⟨h0, h2⟩ : (threadOpens.2.file 0).ref = 4 ∧ (threadOpens.2.file 2).ref = 1 := by
    decide +kernel
  have hc0 := hrefs 0
  have hc2 := hrefs 2
  rw [h0] at hc0
  rw [h2] at hc2
  exact ⟨h0, h2, by omega, by omega⟩

end Kernel

end Xv6.Kern
