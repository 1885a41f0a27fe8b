/-
Xv6.Kern.FileAccount — the account of references to open files.

`Owed fs is k` is the account: the `ref` of every file is the number of
descriptors that point to it plus its occurrences in `fs`, the references
the call in progress holds; likewise for inodes, with files and current
directories as the places that point to them. Between calls both lists
are empty.

`Closes k k'` is what `fileclose` and `filedup` do to everything else:
types stay, and a pipe end is closed exactly if the last reference to its
file goes away.
-/
import Mathlib.Data.Fintype.Prod
import Xv6.Lib.Tally
import Xv6.Kern.File
import Xv6.Kern.Roster

namespace Xv6.Kern

open Xv6.Lib Xv6.Mem Function

variable {ncpu : Nat}
  {f : FileIdx} {c : Fin ncpu} {fd : Fin nofile} {n r : Int} {k k' l m : Kernel ncpu}
  {fs : List FileIdx} {is : List InodeIdx} {cur p : ProcIdx}

/-- What a process holds of the file system. -/
structure Desk where
  ofile : Fin nofile → Option FileIdx
  cwd : Option InodeIdx

def Proc.desk (q : Proc) : Desk := ⟨q.ofile, q.cwd⟩

/-- The inode of an open file. -/
def FileType.inode? : FileType → Option InodeIdx
  | .inode ip => some ip
  | _ => Option.none

namespace Kernel

def desks (k : Kernel ncpu) : ProcIdx → Desk := fun p => (k.proc p).desk

/-- The descriptors of all processes. -/
def openSlot (k : Kernel ncpu) : ProcIdx × Fin nofile → Option FileIdx :=
  fun x => (k.proc x.1).ofile x.2

def cwds (k : Kernel ncpu) : ProcIdx → Option InodeIdx := fun p => (k.proc p).cwd

def inodes (k : Kernel ncpu) : FileIdx → Option InodeIdx := fun f => (k.file f).type.inode?

theorem setProc_desks (k : Kernel ncpu) (p : ProcIdx) (f : Proc → Proc) :
    (k.setProc p f).desks = update k.desks p (f (k.proc p)).desk := by
  funext q
  by_cases h : q = p
  · subst h
    simp [desks]
  · simp [desks, setProc_proc, h]

/-! ## Calls that do not touch files -/

/-- No descriptor, directory, file, inode reference or pipe changes. -/
structure SameFiles (k k' : Kernel ncpu) : Prop where
  desks : k'.desks = k.desks
  file : k'.file = k.file
  iref : k'.iref = k.iref
  pipe : k'.pipe = k.pipe

namespace SameFiles

theorem refl (k : Kernel ncpu) : SameFiles k k := ⟨rfl, rfl, rfl, rfl⟩

theorem trans (h : SameFiles k l) (h' : SameFiles l m) : SameFiles k m :=
  ⟨h'.desks.trans h.desks, h'.file.trans h.file, h'.iref.trans h.iref, h'.pipe.trans h.pipe⟩

theorem of_eq (hp : m.proc = k.proc) (hf : m.file = k.file) (hi : m.iref = k.iref)
    (hpi : m.pipe = k.pipe) : SameFiles k m :=
  ⟨by unfold Kernel.desks; rw [hp], hf, hi, hpi⟩

theorem setProc {f : Proc → Proc} (hf : (f (k.proc p)).desk = (k.proc p).desk) :
    SameFiles k (k.setProc p f) := by
  refine ⟨?_, rfl, rfl, rfl⟩
  rw [setProc_desks, hf]
  exact update_eq_self p k.desks

theorem vm (k : Kernel ncpu) (vm : Vm) : SameFiles k { k with vm := vm } :=
  .of_eq rfl rfl rfl rfl

end SameFiles

theorem SameFiles.of_holdings (h : k'.holdings = k.holdings) : SameFiles k k' :=
  ⟨(congrArg Kernel.desks h :), (congrArg Kernel.file h :), (congrArg Kernel.iref h :),
    (congrArg Kernel.pipe h :)⟩

theorem wakeup1_files (k : Kernel ncpu) (chan : Chan) : SameFiles k (k.wakeup1 chan) :=
  .of_holdings (wakeup1_holdings k chan)

theorem exitFinish_files (k : Kernel ncpu) (c : Fin ncpu) (cur : ProcIdx) :
    SameFiles k (k.exitFinish c cur) := by
  obtain ⟨l, -, hl, heq⟩ := exitFinish_eq k c cur
  rw [heq]
  exact .of_holdings ((schedOut_holdings l c cur .zombie).trans hl)

theorem Allocs.files {pid : Proc → Int} {n : Int} {o : Option ProcIdx}
    (h : Allocs k pid n o k') : SameFiles k k' := by
  cases h with
  | full => exact .refl k
  | @short p v | @taken p pg v =>
    exact SameFiles.trans (l := { k with vm := v, nextpid := n }) (.of_eq rfl rfl rfl rfl)
      (.setProc rfl)

theorem SameFiles.of_bare (h : k'.bare = k.bare) : SameFiles k k' :=
  ⟨(congrArg Kernel.desks h :), (congrArg Kernel.file h :), (congrArg Kernel.iref h :),
    (congrArg Kernel.pipe h :)⟩

theorem SameFiles.of_effect
    (h : (∃ p, Reaps k k' p) ∨ k' = k ∨ ∃ chan, k' = k.sleep c cur chan) : SameFiles k k' := by
  rcases h with ⟨p, -, m, hm, rfl⟩ | rfl | ⟨chan, rfl⟩
  · exact (SameFiles.of_bare hm.bare).trans (.setProc rfl)
  · exact .refl _
  · exact .of_holdings (sleep_holdings k c cur chan)

/-! ## The account -/

/-- The references to files are the descriptors and `fs`, the references to
inodes are the open files, the current directories and `is`. A file
without references has no type. -/
structure Owed (fs : List FileIdx) (is : List InodeIdx) (k : Kernel ncpu) : Prop where
  files : ∀ f, (k.file f).ref = tally k.openSlot f + fs.count f
  inodes : ∀ i, k.iref i = tally k.inodes i + tally k.cwds i + is.count i
  free : ∀ f, (k.file f).ref = 0 → (k.file f).type = .none

namespace Owed

theorem of_eq (h : Owed fs is k) (hd : k'.desks = k.desks) (hf : k'.file = k.file)
    (hi : k'.iref = k.iref) : Owed fs is k' := by
  have hslot : k'.openSlot = k.openSlot := funext fun x => congrArg (fun d => (d x.1).ofile x.2) hd
  have hcwds : k'.cwds = k.cwds := funext fun p => congrArg (fun d => (d p).cwd) hd
  have hinodes : k'.inodes = k.inodes := by
    unfold Kernel.inodes
    rw [hf]
  refine ⟨fun f => ?_, fun i => ?_, fun f => ?_⟩
  · rw [hf, hslot]
    exact h.files f
  · rw [hi, hinodes, hcwds]
    exact h.inodes i
  · rw [hf]
    exact h.free f

theorem same (h : Owed fs is k) (hs : SameFiles k k') : Owed fs is k' :=
  h.of_eq hs.desks hs.file hs.iref

theorem ref_range (h : Owed fs is k) (f : FileIdx) :
    0 ≤ (k.file f).ref ∧ (k.file f).ref ≤ 2048 + fs.length := by
  have h1 := tally_le k.openSlot f
  have h2 := List.count_le_length (a := f) (l := fs)
  have hcard : Fintype.card (ProcIdx × Fin nofile) = 2048 := by simp [nproc, nofile]
  rw [hcard] at h1
  rw [h.files f]
  omega

theorem ref_pos_of_slot (h : Owed fs is k) (hfd : (k.proc p).ofile fd = some f) :
    0 < (k.file f).ref := by
  have h1 : 0 < tally k.openSlot f := tally_pos (g := k.openSlot) (a := (p, fd)) hfd
  rw [h.files f]
  omega

theorem ref_pos_of_mem (h : Owed fs is k) (hf : f ∈ fs) : 0 < (k.file f).ref := by
  have h1 := List.count_pos_iff.mpr hf
  rw [h.files f]
  omega

end Owed

theorem setOfile_openSlot (k : Kernel ncpu) (p : ProcIdx) (fd : Fin nofile) (v : Option FileIdx) :
    (k.setOfile p fd v).openSlot = update k.openSlot (p, fd) v := by
  funext ⟨q, i⟩
  by_cases hq : q = p
  · subst hq
    by_cases hi : i = fd
    · subst hi
      simp [openSlot, setOfile]
    · rw [update_of_ne (by simp [hi])]
      simp [openSlot, setOfile, hi]
  · rw [update_of_ne (by simp [hq])]
    simp [openSlot, setOfile, setProc_proc, hq]

theorem setOfile_cwds (k : Kernel ncpu) (p : ProcIdx) (fd : Fin nofile) (v : Option FileIdx) :
    (k.setOfile p fd v).cwds = k.cwds := by
  funext q
  simp only [cwds, setOfile, setProc_proc]
  split
  · next h => rw [h]
  · rfl

theorem setFile_inodes (k : Kernel ncpu) (f : FileIdx) (g : File → File) :
    (k.setFile f g).inodes = update k.inodes f (g (k.file f)).type.inode? := by
  funext q
  by_cases hq : q = f
  · subst hq
    simp [inodes, setFile]
  · simp [inodes, setFile, hq]

namespace Owed

theorem setSlot (h : Owed (f :: fs) is k) (hfd : (k.proc p).ofile fd = none) :
    Owed fs is (k.setOfile p fd (some f)) := by
  refine ⟨fun g => ?_, fun i => ?_, h.free⟩
  · show (k.file g).ref = _
    rw [setOfile_openSlot, tally_set (g := k.openSlot) (a := (p, fd)) hfd, h.files g,
      List.count_cons]
    simp only [beq_iff_eq]
    split <;> omega
  · rw [setOfile_cwds]
    exact h.inodes i

theorem clearSlot (h : Owed fs is k) (hfd : (k.proc p).ofile fd = some f) :
    Owed (f :: fs) is (k.setOfile p fd none) := by
  refine ⟨fun g => ?_, fun i => ?_, h.free⟩
  · show (k.file g).ref = _
    rw [setOfile_openSlot, tally_clear (g := k.openSlot) (a := (p, fd)) hfd, h.files g,
      List.count_cons]
    simp only [beq_iff_eq]
    split <;> omega
  · rw [setOfile_cwds]
    exact h.inodes i

theorem setRef (h : Owed fs is k) {gs : List FileIdx} (hn : n = tally k.openSlot f + gs.count f)
    (hrest : ∀ g, g ≠ f → gs.count g = fs.count g) (h0 : n = 0 → (k.file f).type = .none) :
    Owed gs is (k.setFile f fun g => { g with ref := n }) := by
  have hinodes : (k.setFile f fun g => { g with ref := n }).inodes = k.inodes := by
    rw [setFile_inodes]
    exact update_eq_self f k.inodes
  refine ⟨fun g => ?_, fun i => ?_, fun g hg => ?_⟩
  · show (update k.file f _ g).ref = tally k.openSlot g + _
    by_cases hgf : g = f
    · subst hgf
      rw [update_self]
      exact hn
    · rw [update_of_ne hgf, hrest g hgf]
      exact h.files g
  · rw [hinodes]
    exact h.inodes i
  · simp only [setFile] at hg ⊢
    by_cases hgf : g = f
    · subst hgf
      rw [update_self] at hg ⊢
      exact h0 hg
    · rw [update_of_ne hgf] at hg ⊢
      exact h.free g hg

end Owed

theorem filedup_owed (h : Owed fs is k) (hf : fs.length ≤ 16) (hd : k.filedup f = .ok k') :
    Owed (f :: fs) is k' := by
  have hr := h.ref_range f
  unfold filedup at hd
  split at hd
  · cases hd
  rename_i hge
  cases hd
  have hn : toI32 ((k.file f).ref + 1) = (k.file f).ref + 1 :=
    toI32_of_range (by omega) (by omega)
  refine h.setRef ?_ (fun g hg => List.count_cons_of_ne (Ne.symm hg)) ?_
  · rw [hn, h.files f, List.count_cons_self]
    omega
  · rw [hn]
    omega

theorem filealloc_owed (h : Owed fs is k) (ha : k.filealloc = (some f, k')) :
    Owed (f :: fs) is k' ∧ (k.file f).ref = 0 ∧ k' = k.setFile f fun g => { g with ref := 1 } := by
  unfold filealloc at ha
  split at ha
  · cases ha
  rename_i f' hfind
  cases ha
  have h0 : (k.file f).ref = 0 := by simpa using List.find?_some hfind
  refine ⟨h.setRef ?_ (fun g hg => List.count_cons_of_ne (Ne.symm hg)) (by omega), h0, rfl⟩
  have := h.files f
  rw [List.count_cons_self]
  omega

/-! ### Closing -/

namespace Owed

theorem idup (h : Owed fs is k) (ip : Option InodeIdx) :
    Owed fs (ip.toList ++ is) (k.idup ip) := by
  cases ip with
  | none => exact h
  | some i =>
    refine ⟨h.files, fun j => ?_, h.free⟩
    show update k.iref i _ j = tally k.inodes j + tally k.cwds j + _
    have hj := h.inodes j
    by_cases hji : j = i
    · subst hji
      simp only [update_self, Option.toList_some, List.singleton_append,
        List.count_cons_self]
      omega
    · simp only [update_of_ne hji, Option.toList_some, List.singleton_append,
        List.count_cons_of_ne (Ne.symm hji)]
      exact hj

theorem iput (ip : Option InodeIdx) (h : Owed fs (ip.toList ++ is) k) :
    Owed fs is (k.iput ip) := by
  cases ip with
  | none => exact h
  | some i =>
    refine ⟨h.files, fun j => ?_, h.free⟩
    show update k.iref i _ j = tally k.inodes j + tally k.cwds j + _
    have hj := h.inodes j
    simp only [Option.toList_some, List.singleton_append] at hj
    by_cases hji : j = i
    · subst hji
      rw [List.count_cons_self] at hj
      rw [update_self]
      omega
    · rw [List.count_cons_of_ne (Ne.symm hji)] at hj
      rw [update_of_ne hji]
      exact hj

theorem drop (h : Owed (f :: fs) is k) (hr : (k.file f).ref = 1) :
    Owed fs ((k.file f).type.inode?.toList ++ is)
      (k.setFile f fun g => { g with ref := 0, type := .none }) := by
  have hf := h.files f
  rw [List.count_cons_self] at hf
  refine ⟨fun g => ?_, fun i => ?_, fun g hg => ?_⟩
  · show (update k.file f _ g).ref = tally k.openSlot g + _
    by_cases hgf : g = f
    · subst hgf
      rw [update_self]
      show (0 : Int) = _
      omega
    · rw [update_of_ne hgf, h.files g, List.count_cons_of_ne (Ne.symm hgf)]
  · have hi := h.inodes i
    rw [setFile_inodes]
    show k.iref i = tally (update k.inodes f none) i + tally k.cwds i + _
    rw [tally_update, List.count_append, hi]
    show _ =
      (tally k.inodes i - (if (k.file f).type.inode? = some i then 1 else 0) + _ : Int) + _ + _
    cases (k.file f).type.inode? with
    | none => simp
    | some j =>
      by_cases hji : j = i
      · simp [hji]
        omega
      · simp [hji]
  · simp only [setFile] at hg ⊢
    by_cases hgf : g = f
    · subst hgf
      rw [update_self]
    · rw [update_of_ne hgf] at hg ⊢
      exact h.free g hg

end Owed

theorem pipeclose_refs (k : Kernel ncpu) (pi : Page) (w : Bool) :
    (k.pipeclose pi w).desks = k.desks ∧ (k.pipeclose pi w).file = k.file ∧
    (k.pipeclose pi w).iref = k.iref := by
  obtain ⟨v, chan, -, heq⟩ := pipeclose_eq k pi w
  rw [heq]
  exact ⟨(wakeup1_files { k with pipe := _ } chan).desks, rfl, rfl⟩

theorem fileclose_owed (h : Owed (f :: fs) is k) :
    ∃ k', k.fileclose f = .ok k' ∧ Owed fs is k' := by
  have hpos := h.ref_pos_of_mem (List.mem_cons_self)
  have hf := h.files f
  rw [List.count_cons_self] at hf
  unfold fileclose
  simp only
  rw [if_neg (by omega)]
  by_cases hlast : (k.file f).ref - 1 > 0
  · rw [if_pos hlast]
    refine ⟨_, rfl, h.setRef ?_ (fun g hg => (List.count_cons_of_ne (Ne.symm hg)).symm) ?_⟩
    · omega
    · omega
  · rw [if_neg hlast]
    have hd := h.drop (by omega)
    cases ht : (k.file f).type with
    | none =>
      rw [ht] at hd
      exact ⟨_, rfl, hd⟩
    | pipe pi =>
      rw [ht] at hd
      obtain ⟨h1, h2, h3⟩ := pipeclose_refs
        (k.setFile f fun g => { g with ref := 0, type := .none }) pi (k.file f).writable
      exact ⟨_, rfl, hd.of_eq h1 h2 h3⟩
    | inode ip =>
      rw [ht] at hd
      exact ⟨_, rfl, Owed.iput (some ip) hd⟩

/-! ## Types and pipe ends -/

end Kernel

/-- Is an end open? The write end is `true`. -/
def Pipe.isOpen (e : Pipe) (w : Bool) : Bool := if w then e.writeopen else e.readopen

namespace Kernel

/-- The last reference to `f` goes away. -/
def Dropped (k k' : Kernel ncpu) (f : FileIdx) : Prop :=
  0 < (k.file f).ref ∧ ¬ 0 < (k'.file f).ref

/-- Files in use were so before, as what they are now, and a pipe end is
closed exactly if the last reference to a file that stands for it goes
away. -/
structure Closes (k k' : Kernel ncpu) : Prop where
  types : ∀ f, 0 < (k'.file f).ref → 0 < (k.file f).ref ∧
    (k'.file f).type = (k.file f).type ∧ (k'.file f).writable = (k.file f).writable
  ends : ∀ pi w, (k'.pipe pi).isOpen w = true ↔ (k.pipe pi).isOpen w = true ∧
    ¬ ∃ f, Dropped k k' f ∧ (k.file f).type = .pipe pi ∧ (k.file f).writable = w

namespace Closes

theorem of_eq (hf : k'.file = k.file) (hp : k'.pipe = k.pipe) : Closes k k' := by
  refine ⟨fun f h => ?_, fun pi w => ?_⟩
  · rw [hf] at h ⊢
    exact ⟨h, rfl, rfl⟩
  · rw [hp]
    simp [Dropped, hf]

theorem refl (k : Kernel ncpu) : Closes k k := of_eq rfl rfl

theorem trans (h : Closes k l) (h' : Closes l m) : Closes k m := by
  refine ⟨fun f hf => ?_, fun pi w => ?_⟩
  · obtain ⟨h1, h2, h3⟩ := h'.types f hf
    obtain ⟨h4, h5, h6⟩ := h.types f h1
    exact ⟨h4, h2.trans h5, h3.trans h6⟩
  · rw [h'.ends, h.ends, and_assoc, ← not_or]
    refine and_congr_right fun _ => not_congr ⟨?_, ?_⟩
    · rintro (⟨f, ⟨h1, h2⟩, h3⟩ | ⟨f, ⟨h1, h2⟩, h3, h4⟩)
      · exact ⟨f, ⟨h1, fun h5 => h2 (h'.types f h5).1⟩, h3⟩
      · obtain ⟨h5, h6, h7⟩ := h.types f h1
        exact ⟨f, ⟨h5, h2⟩, h6.symm.trans h3, h7.symm.trans h4⟩
    · rintro ⟨f, ⟨h1, h2⟩, h3, h4⟩
      by_cases hl : 0 < (l.file f).ref
      · obtain ⟨-, h6, h7⟩ := h.types f hl
        exact .inr ⟨f, ⟨hl, h2⟩, h6.trans h3, h7.trans h4⟩
      · exact .inl ⟨f, ⟨h1, hl⟩, h3, h4⟩

end Closes

theorem pipeclose_pipe_eq (k : Kernel ncpu) (pi : Page) (w : Bool) :
    (k.pipeclose pi w).pipe = update k.pipe pi
      (if w then { k.pipe pi with writeopen := false }
        else { k.pipe pi with readopen := false }) := by
  obtain ⟨v, chan, -, heq⟩ := pipeclose_eq k pi w
  rw [heq]
  rfl

theorem pipeclose_pipe (k : Kernel ncpu) (pi : Page) (w : Bool) (pj : Page) (v : Bool) :
    ((k.pipeclose pi w).pipe pj).isOpen v = true ↔
      (k.pipe pj).isOpen v = true ∧ ¬ (pi = pj ∧ w = v) := by
  rw [pipeclose_pipe_eq]
  by_cases hp : pj = pi
  · subst hp
    rw [update_self]
    cases w <;> cases v <;> simp [Pipe.isOpen]
  · rw [update_of_ne hp]
    simp [Ne.symm hp]

theorem setRef_closes (k : Kernel ncpu) (h0 : 0 < (k.file f).ref) (hn : 0 < n) :
    Closes k (k.setFile f fun g => { g with ref := n }) := by
  have hpos : ∀ g, 0 < (k.file g).ref →
      0 < ((k.setFile f fun g => { g with ref := n }).file g).ref := by
    intro g hg
    by_cases hgf : g = f
    · subst hgf
      simpa [setFile] using hn
    · simpa [setFile, hgf] using hg
  refine ⟨fun g hg => ?_, fun pi w => ⟨fun ho => ⟨ho, ?_⟩, fun ho => ho.1⟩⟩
  · by_cases hgf : g = f
    · subst hgf
      simp [setFile, h0]
    · simpa [setFile, hgf] using hg
  · rintro ⟨g, ⟨h1, h2⟩, -⟩
    exact h2 (hpos g h1)

/-- The last reference goes away; `l` has the pipe end closed, if it was
one. -/
theorem drop_closes (h0 : 0 < (k.file f).ref)
    (hfile : l.file = update k.file f { k.file f with ref := 0, type := .none })
    (hpipe : ∀ pi w, (l.pipe pi).isOpen w = true ↔
      (k.pipe pi).isOpen w = true ∧ ¬ ((k.file f).type = .pipe pi ∧ (k.file f).writable = w)) :
    Closes k l := by
  have hother : ∀ g, g ≠ f → l.file g = k.file g := fun g hg => by
    rw [hfile, update_of_ne hg]
  have hf : ¬ 0 < (l.file f).ref := by
    rw [hfile, update_self]
    exact Int.lt_irrefl 0
  refine ⟨fun g hg => ?_, fun pi w => ?_⟩
  · have hgf : g ≠ f := by
      rintro rfl
      exact hf hg
    rw [hother g hgf] at hg ⊢
    exact ⟨hg, rfl, rfl⟩
  · rw [hpipe]
    refine and_congr_right fun _ => not_congr ⟨fun ht => ⟨f, ⟨h0, hf⟩, ht⟩, ?_⟩
    rintro ⟨g, ⟨h1, h2⟩, ht⟩
    by_cases hgf : g = f
    · rwa [hgf] at ht
    · rw [hother g hgf] at h2
      exact absurd h1 h2

theorem fileclose_closes (h : k.fileclose f = .ok k') : Closes k k' := by
  unfold fileclose at h
  simp only at h
  split at h
  · cases h
  rename_i hge
  have h0 : 0 < (k.file f).ref := by omega
  split at h
  · next hlast =>
    cases h
    exact setRef_closes k h0 hlast
  · split at h <;> cases h
    · next ht => exact drop_closes h0 rfl fun pi w => by simp [ht]
    · next pi ht =>
      refine drop_closes h0 (pipeclose_refs _ _ _).2.1 fun pj w => ?_
      rw [pipeclose_pipe, ht, FileType.pipe.injEq]
    · next ip ht => exact drop_closes h0 rfl fun pi w => by simp [Kernel.iput, ht]

theorem filedup_closes (h : Owed fs is k) (hf : fs.length ≤ 16) (hd : k.filedup f = .ok k') :
    Closes k k' := by
  have hr := h.ref_range f
  unfold filedup at hd
  split at hd
  · cases hd
  rename_i hge
  cases hd
  refine setRef_closes k (by omega) ?_
  rw [toI32_of_range (by omega) (by omega)]
  omega

/-! ## The loops over a file table -/

theorem filedup_ok_of_pos (h : 0 < (k.file f).ref) :
    ∃ k', k.filedup f = .ok k' ∧ k'.proc = k.proc :=
  ⟨_, if_neg (show ¬ (k.file f).ref < 1 by omega), rfl⟩

theorem setOfile_desks_of_ne (k : Kernel ncpu) {q : ProcIdx} (fd : Fin nofile)
    (v : Option FileIdx) (h : q ≠ p) : (k.setOfile p fd v).desks q = k.desks q := by
  rw [setOfile, setProc_desks, update_of_ne h]

theorem setOfile_closes (k : Kernel ncpu) (p : ProcIdx) (fd : Fin nofile)
    (v : Option FileIdx) : Closes k (k.setOfile p fd v) :=
  .of_eq rfl rfl

/-- What `dupFiles` does to the entries of the table: only `np` gets
descriptors. -/
structure Copied (k k' : Kernel ncpu) (np : ProcIdx) : Prop where
  rest : ∀ p, p ≠ np → k'.desks p = k.desks p
  cwd : (k'.proc np).cwd = (k.proc np).cwd

theorem dupFiles_loop_owed {np : ProcIdx} (hfs : fs.length ≤ 16) (l : List (Fin nofile))
    (hl : l.Nodup) (h : Owed fs is k) (hnp : ∀ fd ∈ l, (k.proc np).ofile fd = none) :
    ∃ k', l.foldlM (fun k fd =>
      match (k.proc cur).ofile fd with
      | none => .ok k
      | some f =>
          match k.filedup f with
          | .error e => .error e
          | .ok k => .ok (k.setProc np fun q =>
            { q with ofile := update q.ofile fd (some f) })) k
        = (.ok k' : Except String (Kernel ncpu)) ∧
      Owed fs is k' ∧ Closes k k' ∧ Copied k k' np := by
  induction l generalizing k with
  | nil => exact ⟨k, rfl, h, .refl k, fun _ _ => rfl, rfl⟩
  | cons fd l ih =>
    rw [List.nodup_cons] at hl
    rw [List.foldlM_cons]
    cases hfd : (k.proc cur).ofile fd with
    | none => exact ih hl.2 h fun i hi => hnp i (List.mem_cons_of_mem _ hi)
    | some f =>
      obtain ⟨k₁, hdup, hproc⟩ := filedup_ok_of_pos (h.ref_pos_of_slot hfd)
      simp only [hdup]
      have h1 := filedup_owed h hfs hdup
      have hfree : (k₁.proc np).ofile fd = none := by
        rw [hproc]
        exact hnp fd List.mem_cons_self
      obtain ⟨k', hk', howed, hcl, hrest, hcwd⟩ :=
        ih hl.2 (k := k₁.setOfile np fd (some f)) (h1.setSlot hfree) (by
          intro i hi
          have hne' : i ≠ fd := by
            rintro rfl
            exact hl.1 hi
          simp only [setOfile, setProc_proc_self, update_of_ne hne', hproc]
          exact hnp i (List.mem_cons_of_mem _ hi))
      refine ⟨k', hk', howed, ?_, fun p hp => ?_, ?_⟩
      · exact (filedup_closes h hfs hdup).trans ((setOfile_closes k₁ np fd _).trans hcl)
      · rw [hrest p hp, setOfile_desks_of_ne _ _ _ hp]
        unfold desks
        rw [hproc]
      · rw [hcwd]
        simp only [setOfile, setProc_proc_self, hproc]

theorem dupFiles_owed (h : Owed [] [] k) (cur : ProcIdx) {np : ProcIdx}
    (hnp : ∀ fd, (k.proc np).ofile fd = none) :
    ∃ k', k.dupFiles cur np = .ok k' ∧ Owed [] [] k' ∧ Closes k k' ∧ Copied k k' np :=
  dupFiles_loop_owed (by simp) _ (List.nodup_finRange nofile) h fun fd _ => hnp fd

/-! `exit` closes a file before it clears the descriptor, `sys_close`
after. It makes no difference. -/

theorem setOfile_wakeup1 (k : Kernel ncpu) (p : ProcIdx) (fd : Fin nofile) (v : Option FileIdx)
    (chan : Chan) : (k.setOfile p fd v).wakeup1 chan = (k.wakeup1 chan).setOfile p fd v := by
  unfold setOfile Kernel.setProc wakeup1
  congr 1
  funext q
  by_cases hq : q = p
  · subst hq
    simp only [update_self, wakeProc]
    split <;> rfl
  · simp only [update_of_ne hq]

theorem setOfile_pipeclose (k : Kernel ncpu) (p : ProcIdx) (fd : Fin nofile) (v : Option FileIdx)
    (pi : Page) (w : Bool) :
    (k.setOfile p fd v).pipeclose pi w = (k.pipeclose pi w).setOfile p fd v := by
  have h : ∀ e chan, ({ k.setOfile p fd v with pipe := e }).wakeup1 chan
      = ({ k with pipe := e }.wakeup1 chan).setOfile p fd v := fun e chan =>
    setOfile_wakeup1 { k with pipe := e } p fd v chan
  have hpipe : (k.setOfile p fd v).pipe = k.pipe := rfl
  unfold pipeclose
  cases w with
  | true =>
    simp only [if_true, h, hpipe]
    split <;> rfl
  | false =>
    simp only [Bool.false_eq_true, if_false, h, hpipe]
    split <;> rfl

theorem setOfile_fileclose (k : Kernel ncpu) (p : ProcIdx) (fd : Fin nofile) (v : Option FileIdx)
    (f : FileIdx) :
    (k.setOfile p fd v).fileclose f = (k.fileclose f).map fun l => l.setOfile p fd v := by
  have hfile : (k.setOfile p fd v).file = k.file := rfl
  unfold fileclose
  simp only [hfile]
  split
  · rfl
  · split
    · rfl
    · cases (k.file f).type with
      | none => rfl
      | pipe pi =>
        exact congrArg Except.ok (setOfile_pipeclose
          { k with file := update k.file f { k.file f with ref := 0, type := .none } }
          p fd v pi (k.file f).writable)
      | inode ip => rfl

theorem fileclose_desks (h : k.fileclose f = .ok k') : k'.desks = k.desks := by
  unfold fileclose at h
  simp only at h
  split at h
  · cases h
  · split at h
    · cases h
      rfl
    · split at h <;> cases h
      · rfl
      · exact (pipeclose_refs _ _ _).1
      · rfl

theorem closeSlot_owed (h : Owed fs is k) (hfd : (k.proc p).ofile fd = some f) :
    ∃ k₁, k.fileclose f = .ok k₁ ∧ Owed fs is (k₁.setOfile p fd none) ∧ Closes k k₁ := by
  obtain ⟨k₂, hk₂, howed⟩ := fileclose_owed (h.clearSlot hfd)
  rw [setOfile_fileclose] at hk₂
  cases hk : k.fileclose f with
  | error e =>
    rw [hk] at hk₂
    cases hk₂
  | ok k₁ =>
    rw [hk] at hk₂
    cases hk₂
    exact ⟨k₁, rfl, howed, fileclose_closes hk⟩

theorem closeFiles_loop_owed (l : List (Fin nofile)) (h : Owed fs is k) :
    ∃ k', l.foldlM (fun k fd =>
      match (k.proc cur).ofile fd with
      | none => .ok k
      | some f =>
          match k.fileclose f with
          | .error e => .error e
          | .ok k => .ok (k.setProc cur fun q =>
            { q with ofile := update q.ofile fd none })) k
        = (.ok k' : Except String (Kernel ncpu)) ∧
      Owed fs is k' ∧ Closes k k' ∧ Copied k k' cur ∧
      (∀ fd ∈ l, (k'.proc cur).ofile fd = none) ∧
      ∀ fd, (k.proc cur).ofile fd = none → (k'.proc cur).ofile fd = none := by
  induction l generalizing k with
  | nil => exact ⟨k, rfl, h, .refl k, ⟨fun _ _ => rfl, rfl⟩, by simp, fun _ => id⟩
  | cons fd l ih =>
    rw [List.foldlM_cons]
    cases hfd : (k.proc cur).ofile fd with
    | none =>
      obtain ⟨k', hk', howed, hcl, hcop, hmem, hstay⟩ := ih h
      refine ⟨k', hk', howed, hcl, hcop, fun i hi => ?_, hstay⟩
      rcases List.mem_cons.mp hi with rfl | hi
      · exact hstay i hfd
      · exact hmem i hi
    | some f =>
      obtain ⟨k₁, hclose, h1, hcl1⟩ := closeSlot_owed h hfd
      simp only [hclose]
      obtain ⟨k', hk', howed, hcl, ⟨hrest, hcwd⟩, hmem, hstay⟩ := ih h1
      have hdesk := fileclose_desks hclose
      have hcur : ∀ i, (k₁.proc cur).ofile i = (k.proc cur).ofile i := fun i =>
        congrArg (fun d => (d cur).ofile i) hdesk
      have hset : ∀ i, (k.proc cur).ofile i = none ∨ i = fd →
          ((k₁.setOfile cur fd none).proc cur).ofile i = none := by
        intro i hi
        simp only [setOfile, setProc_proc_self]
        by_cases hif : i = fd
        · rw [hif, update_self]
        · rw [update_of_ne hif, hcur]
          exact hi.resolve_right hif
      refine ⟨k', hk', howed, hcl1.trans ((setOfile_closes k₁ cur fd none).trans hcl),
        ⟨fun p hp => ?_, ?_⟩, fun i hi => ?_, fun i hi => hstay i (hset i (.inl hi))⟩
      · rw [hrest p hp, setOfile_desks_of_ne _ _ _ hp, hdesk]
      · rw [hcwd]
        simp only [setOfile, setProc_proc_self]
        exact congrArg (fun d => (d cur).cwd) hdesk
      · rcases List.mem_cons.mp hi with rfl | hi
        · exact hstay i (hset i (.inr rfl))
        · exact hmem i hi

theorem closeFiles_owed (h : Owed [] [] k) (cur : ProcIdx) :
    ∃ k', k.closeFiles cur = .ok k' ∧ Owed [] [] k' ∧ Closes k k' ∧ Copied k k' cur ∧
      ∀ fd, (k'.proc cur).ofile fd = none := by
  obtain ⟨k', hk', howed, hcl, hcop, hmem, -⟩ := closeFiles_loop_owed (List.finRange nofile) h
  exact ⟨k', hk', howed, hcl, hcop, fun fd => hmem fd (List.mem_finRange fd)⟩

end Kernel

end Xv6.Kern
