/-
Xv6.Fs.LoggedTheorems — a chunk of `filewrite` fits into its transaction.

1. `writei` with its calls of `log_write` is `writei`.
2. What one round of its loop logs: a data block, at most one block of the
   bit map for it, and the indirect block, which may take one more block
   of the bit map, once in the whole loop (`Round`).
3. The sum. A chunk touches four blocks only if it begins inside a block,
   which is then there already: in any case at most three new blocks and
   a new indirect block, so four data blocks, four blocks of the bit map,
   the indirect block and the inode.

Nothing is asked of the disk but that the blocks of the file below its end
are there and that block 0, the boot block, is never free.
-/
import Xv6.Fs.Logged
import Xv6.Fs.ByteFile
import Xv6.Fs.Filewrite
import Mathlib.Data.Finset.Card

namespace Xv6.Fs

open Xv6.Lib

variable {sb : Layout}

/-! ## 1. Without the log -/

variable {b b' : Blocks} {ip : Dinode}

theorem ballocLog_res : (ballocLog sb b).res = b.balloc := by
  simp only [ballocLog, logWrite, Traced.res_bind, Traced.res_lift, Traced.res_emit,
    Traced.res_pure]
  cases b.balloc <;> rfl

theorem addrAtLog_res (i : Nat) : (addrAtLog sb b ip i).res = b.addrAt ip i := by
  unfold addrAtLog Blocks.addrAt
  split
  · rw [Traced.res_bind, ballocLog_res]
    rfl
  · rfl

theorem listedAtLog_res (m : Nat) (x : Nat × Dinode × Blocks) :
    (listedAtLog sb m x).res = x.2.2.listedAt x.2.1 x.1 m := by
  unfold listedAtLog Blocks.listedAt
  split
  · rw [Traced.res_bind, ballocLog_res]
    rfl
  · rfl

theorem bmapLog_res (bn : Nat) : (bmapLog sb b ip bn).res = b.bmap ip bn := by
  unfold bmapLog Blocks.bmap
  by_cases hd : bn < ndirect
  · rw [if_pos hd, if_pos hd, addrAtLog_res]
  · rw [if_neg hd, if_neg hd]
    by_cases hl : bn - ndirect < nindirect
    · rw [if_pos hl, if_pos hl, Traced.res_bind, addrAtLog_res]
      simp only [listedAtLog_res]
    · rw [if_neg hl, if_neg hl, Traced.res_lift]

theorem writeLoopLog_res (fuel off : Nat) (src : List UInt8) :
    (writeLoopLog sb fuel b ip off src).res = Blocks.writeLoop fuel b ip off src := by
  induction fuel generalizing b ip off src with
  | zero => rfl
  | succ fuel ih =>
    unfold writeLoopLog Blocks.writeLoop
    split
    · rfl
    · rw [Traced.res_bind, bmapLog_res]
      congr 1
      funext r
      rw [logWrite, Traced.res_bind_ok _ _ (Traced.res_emit _), ih]

theorem writeiLog_res {s : FileSys} {ip : InodeIx} {off : Nat} {src : List UInt8}
    (hdev : (s.icache ip).din.type ≠ .dev) :
    (writeiLog sb ip src off s).res = writei ip src off s := by
  by_cases h1 : (s.icache ip).din.size < off ∨ toU32 (off + src.length) < off
  · rw [writei_refused hdev (.inl h1), writeiLog, if_pos h1, Traced.res_pure]
  by_cases h2 : maxfile * bsize < toU32 (off + src.length)
  · rw [writei_refused hdev (.inr h2), writeiLog, if_neg h1, if_pos h2, Traced.res_pure]
  have hres : (writeLoopLog sb src.length s.blocks (s.icache ip).din off src).res =
      Blocks.writeLoop src.length s.blocks (s.icache ip).din off src := writeLoopLog_res ..
  rw [writeiLog, if_neg h1, if_neg h2]
  cases hw : Blocks.writeLoop src.length s.blocks (s.icache ip).din off src with
  | error m =>
    rw [Traced.res_bind_error _ _ (hres.trans hw)]
    simp only [writei, bind, StateT.bind, get, getThe, MonadStateOf.get, StateT.get, pure,
      Except.pure, Except.bind, if_neg hdev, if_neg h1, if_neg h2, hw]
    rfl
  | ok r =>
    rw [(writei_accepted hdev h1 h2).mpr ⟨_, _, _, hw, rfl⟩, Traced.res_bind_ok _ _ (hres.trans hw)]
    split
    · rw [logWrite, Traced.res_bind_ok _ _ (Traced.res_emit _)]
      simp [FileSys.stored, FileSys.setInode]
    · rfl

/-! ## 2. One round -/

/-- 1 if the inode has no indirect block yet. -/
def noList (ip : Dinode) : Nat := if ip.addrs ndirect = 0 then 1 else 0

/-- What a call of `bmap` for `ip` logs: `a`, the block it returns, blocks
`B` of the bit map, and the indirect block `ind`. -/
structure Round (ip : Dinode) (x : LogM (Nat × Dinode × Blocks)) (a : Nat) (B : List Nat)
    (ind : Nat) : Prop where
  logged : ∀ w ∈ x.log, w = a ∨ w ∈ B ∨ w = ind
  known : ip.addrs ndirect ≠ 0 → ind = ip.addrs ndirect
  count : B.length ≤ 1 + noList ip
  result : ∀ r, x.res = .ok r → r.1 = a ∧ r.2.2.used 0 = true ∧
    B.length + noList r.2.1 ≤ 1 + noList ip ∧
    (ip.addrs ndirect ≠ 0 → r.2.1.addrs ndirect = ip.addrs ndirect) ∧
    (r.2.1.addrs ndirect ≠ 0 → ind = r.2.1.addrs ndirect) ∧
    (r.2.1.addrs ndirect = 0 → ∀ w ∈ x.log, w = a ∨ w ∈ B)

theorem ballocLog_ok {r : Nat × Blocks} (h : b.balloc = .ok r) :
    (ballocLog sb b).log = [sb.bblock r.1, r.1] := by
  simp [ballocLog, logWrite, Traced.lift, Traced.emit, bind, pure, h]

theorem ballocLog_error {m : String} (h : b.balloc = .error m) : (ballocLog sb b).log = [] := by
  simp [ballocLog, Traced.lift, bind, h]

theorem balloc_some {n : Nat} (h : b.balloc = .ok (n, b')) :
    b.used n = false ∧ b'.used = Function.update b.used n true := by
  unfold Blocks.balloc at h
  split at h
  · cases h
  rename_i m hm
  cases h
  exact ⟨by simpa using List.find?_some hm, rfl⟩

theorem balloc_boot {n : Nat} (h : b.balloc = .ok (n, b')) (h0 : b.used 0 = true) :
    n ≠ 0 ∧ b'.used 0 = true := by
  obtain ⟨hfree, hused⟩ := balloc_some h
  have hn : n ≠ 0 := by
    rintro rfl
    rw [h0] at hfree
    cases hfree
  refine ⟨hn, ?_⟩
  rw [hused, Function.update_of_ne (Ne.symm hn)]
  exact h0

/-- Code that begins with `balloc`: out of blocks it logs nothing, and
otherwise goes on with a block other than the boot block. -/
theorem ballocLog_bind {α : Type} {f : Nat × Blocks → LogM α} {x : LogM α}
    (hx : ballocLog sb b >>= f = x) (h0 : b.used 0 = true) :
    (∃ m, x.res = .error m ∧ x.log = []) ∨
    ∃ (n : Nat) (b' : Blocks), n ≠ 0 ∧ b'.used 0 = true ∧ x.res = (f (n, b')).res ∧
      x.log = sb.bblock n :: n :: (f (n, b')).log := by
  subst hx
  cases hb : b.balloc with
  | error m =>
    have hres : (ballocLog sb b).res = .error m := by rw [ballocLog_res, hb]
    refine .inl ⟨m, Traced.res_bind_error _ _ hres, ?_⟩
    rw [Traced.log_bind_error _ _ hres, ballocLog_error hb]
  | ok x =>
    obtain ⟨n, b'⟩ := x
    have hres : (ballocLog sb b).res = .ok (n, b') := by rw [ballocLog_res, hb]
    obtain ⟨hn, hboot⟩ := balloc_boot hb h0
    refine .inr ⟨n, b', hn, hboot, Traced.res_bind_ok _ _ hres, ?_⟩
    rw [Traced.log_bind_ok _ _ hres, ballocLog_ok hb]
    rfl

theorem addrAtLog_round {i : Nat} (hi : i < ndirect) (h0 : b.used 0 = true) :
    ∃ a B, Round ip (addrAtLog sb b ip i) a B (ip.addrs ndirect) := by
  unfold addrAtLog
  split
  · generalize hx : ballocLog sb b >>= _ = x
    rcases ballocLog_bind hx h0 with ⟨m, hres, hlog⟩ | ⟨n, b', -, hboot, hres, hlog⟩
    · exact ⟨0, [], by simp [hlog], fun _ => rfl, by simp, by simp [hres]⟩
    · have hsame : (ip.setAddr i n).addrs ndirect = ip.addrs ndirect :=
        Dinode.setAddr_of_ne _ _ _ (by omega)
      refine ⟨n, [sb.bblock n], ?_, fun _ => rfl, by simp, ?_⟩
      · simp [hlog]
      · intro r hr
        rw [hres] at hr
        cases hr
        refine ⟨rfl, hboot, ?_, fun _ => hsame, fun _ => hsame.symm, fun _ => by simp [hlog]⟩
        simp [noList, hsame]
  · refine ⟨ip.addrs i, [], by simp, fun _ => rfl, by simp, ?_⟩
    intro r hr
    cases hr
    exact ⟨rfl, h0, by simp, fun _ => rfl, fun _ => rfl, fun _ => by simp⟩

theorem addrAtLog_list (h0 : b.used 0 = true) :
    (∃ m, (addrAtLog sb b ip ndirect).res = .error m ∧ (addrAtLog sb b ip ndirect).log = []) ∨
    ∃ (ind : Nat) (ip' : Dinode) (b' : Blocks) (X : List Nat),
      (addrAtLog sb b ip ndirect).res = .ok (ind, ip', b') ∧ b'.used 0 = true ∧
      ind ≠ 0 ∧ ip'.addrs ndirect = ind ∧ (ip.addrs ndirect ≠ 0 → ip.addrs ndirect = ind) ∧
      X.length ≤ noList ip ∧ ∀ w ∈ (addrAtLog sb b ip ndirect).log, w ∈ X ∨ w = ind := by
  unfold addrAtLog
  split
  · next hz =>
    generalize hx : ballocLog sb b >>= _ = x
    rcases ballocLog_bind hx h0 with h | ⟨n, b', hn, hboot, hres, hlog⟩
    · exact .inl h
    · exact .inr ⟨n, ip.setAddr ndirect n, b', [sb.bblock n], hres, hboot, hn,
        Dinode.setAddr_self _ _ _, fun h => absurd hz h, by simp [noList, hz], by simp [hlog]⟩
  rename_i hz
  exact .inr ⟨ip.addrs ndirect, ip, b, [], rfl, h0, hz, rfl, fun _ => rfl, by simp, by simp⟩

theorem listedAtLog_log (sb : Layout) (m : Nat) {x : Nat × Dinode × Blocks}
    (h0 : x.2.2.used 0 = true) :
    ∃ (a : Nat) (Y : List Nat), Y.length ≤ 1 ∧
      (∀ w ∈ (listedAtLog sb m x).log, w = a ∨ w ∈ Y ∨ w = x.1) ∧
      ∀ r, (listedAtLog sb m x).res = .ok r → r.1 = a ∧ r.2.1 = x.2.1 ∧ r.2.2.used 0 = true := by
  unfold listedAtLog
  split
  · generalize hx : ballocLog sb x.2.2 >>= _ = y
    rcases ballocLog_bind hx h0 with ⟨e, hres, hlog⟩ | ⟨n, b', -, hboot, hres, hlog⟩
    · exact ⟨0, [], by simp, by simp [hlog], by simp [hres]⟩
    · refine ⟨n, [sb.bblock n], by simp, ?_, ?_⟩
      · intro w hw
        rw [hlog, logWrite, Traced.log_bind_ok _ _ (Traced.res_emit _), Traced.log_emit] at hw
        simp only [Traced.log_pure, List.append_nil, List.mem_cons, List.not_mem_nil,
          or_false] at hw ⊢
        tauto
      · intro r hr
        rw [hres] at hr
        cases hr
        exact ⟨rfl, rfl, hboot⟩
  · refine ⟨word (x.2.2.data x.1) m, [], by simp, by simp, ?_⟩
    intro r hr
    cases hr
    exact ⟨rfl, rfl, h0⟩

/-- **What `bmap` logs.** -/
theorem bmapLog_round (sb : Layout) (ip : Dinode) (bn : Nat) (h0 : b.used 0 = true) :
    ∃ a B ind, Round ip (bmapLog sb b ip bn) a B ind := by
  unfold bmapLog
  split
  · next hd =>
    obtain ⟨a, B, h⟩ := addrAtLog_round hd h0
    exact ⟨a, B, _, h⟩
  · split
    · rcases addrAtLog_list h0 with
        ⟨m, hres, hlog⟩ | ⟨ind, ip', b', X, hres, hboot, hind, hip', hknown, hX, hlog⟩
      · refine ⟨0, [], ip.addrs ndirect, ?_, fun _ => rfl, by simp, ?_⟩
        · rw [Traced.log_bind_error _ _ hres, hlog]
          simp
        · intro r hr
          rw [Traced.res_bind_error _ _ hres] at hr
          cases hr
      · obtain ⟨a, Y, hY, hlog', hr'⟩ :=
          listedAtLog_log sb (x := (ind, ip', b')) (bn - ndirect) hboot
        have hlen : (X ++ Y).length ≤ 1 + noList ip := by
          rw [List.length_append]
          omega
        refine ⟨a, X ++ Y, ind, ?_, fun h => (hknown h).symm, hlen, ?_⟩
        · intro w hw
          rw [Traced.log_bind_ok _ _ hres, List.mem_append] at hw
          rcases hw with hw | hw
          · rcases hlog w hw with h | h
            · exact .inr (.inl (List.mem_append_left _ h))
            · exact .inr (.inr h)
          · rcases hlog' w hw with h | h | h
            · exact .inl h
            · exact .inr (.inl (List.mem_append_right _ h))
            · exact .inr (.inr h)
        · intro r hr
          rw [Traced.res_bind_ok _ _ hres] at hr
          obtain ⟨hr1, hr2, hr3⟩ := hr' r hr
          have hlist : r.2.1.addrs ndirect = ind := by rw [hr2, hip']
          refine ⟨hr1, hr3, ?_, fun h => hlist.trans (hknown h).symm, fun _ => hlist.symm,
            fun hz => absurd (hlist.symm.trans hz) hind⟩
          simpa [noList, hlist, hind] using hlen
    · refine ⟨0, [], ip.addrs ndirect, by simp, fun _ => rfl, by simp, ?_⟩
      intro r hr
      cases hr

/-! ## 3. The sum -/

theorem rest_within {m n off : Nat} {src : List UInt8}
    (hm : min src.length (bsize - off % bsize) = m)
    (hend : off + src.length ≤ (off / bsize + (n + 1)) * bsize) (hne : src.drop m ≠ []) :
    off + m + (src.drop m).length ≤ ((off + m) / bsize + n) * bsize := by
  have hdm := Nat.div_add_mod off bsize
  have hmod : off % bsize < bsize := Nat.mod_lt _ (by decide)
  have hpos := List.length_pos_iff.mpr hne
  rw [List.length_drop] at hpos ⊢
  have hnext : (off + m) / bsize = off / bsize + 1 := by
    rw [show off + m = (off / bsize + 1) * bsize by simp only [bsize] at *; omega]
    exact Nat.mul_div_cancel _ (by decide)
  rw [hnext, show off / bsize + 1 + n = off / bsize + (n + 1) by omega]
  omega

/-- **What the loop of `writei` logs** where it ends within `n` blocks: `n`
data blocks, for each a block of the bit map, and the indirect block. -/
theorem writeLoopLog_log (sb : Layout) (ip : Dinode) (fuel n off : Nat) (src : List UInt8)
    (h0 : b.used 0 = true)
    (hend : src ≠ [] → off + src.length ≤ (off / bsize + n) * bsize) :
    ∃ (D B : List Nat) (ind : Nat), D.length ≤ n ∧ B.length ≤ n + noList ip ∧
      (ip.addrs ndirect ≠ 0 → ind = ip.addrs ndirect) ∧
      ∀ w ∈ (writeLoopLog sb fuel b ip off src).log, w ∈ D ∨ w ∈ B ∨ w = ind := by
  induction fuel generalizing b ip off src n with
  | zero => exact ⟨[], [], ip.addrs ndirect, by simp, by simp, fun _ => rfl, by simp [writeLoopLog]⟩
  | succ fuel ih =>
    by_cases hnil : src = []
    · exact ⟨[], [], ip.addrs ndirect, by simp, by simp, fun _ => rfl,
        by simp [writeLoopLog, hnil]⟩
    · have hlen : 0 < src.length := List.length_pos_iff.mpr hnil
      have hend' := hend hnil
      have hdm := Nat.div_add_mod off bsize
      have hmod : off % bsize < bsize := Nat.mod_lt _ (by decide)
      have hn : 0 < n := by
        by_contra hz
        simp only [bsize] at *
        have : n = 0 := by omega
        subst this
        omega
      rw [writeLoopLog, if_neg hnil]
      obtain ⟨a, B, ind, hround⟩ := bmapLog_round sb ip (off / bsize) h0
      cases hres : (bmapLog sb b ip (off / bsize)).res with
      | error e =>
        refine ⟨[a], B, ind, by simp; omega, by have := hround.count; omega, hround.known, ?_⟩
        rw [Traced.log_bind_error _ _ hres]
        simpa using hround.logged
      | ok r =>
        obtain ⟨ha, hboot, hcount, hkeep, hlist, hunlisted⟩ := hround.result r hres
        generalize hm : min src.length (bsize - off % bsize) = m
        obtain ⟨D, B', ind', hD, hB', hknown', hlog'⟩ :=
          ih (b := r.2.2.put r.1 (off % bsize) (src.take m)) r.2.1 (n - 1) (off + m)
            (src.drop m) hboot (rest_within hm (by rwa [Nat.sub_add_cancel hn]))
        refine ⟨a :: D, B ++ B', ind', by simp; omega, ?_, ?_, ?_⟩
        · rw [List.length_append]
          omega
        · intro h
          rw [hknown' (by rw [hkeep h]; exact h), hkeep h]
        · intro w hw
          rw [Traced.log_bind_ok _ _ hres, List.mem_append] at hw
          rw [List.mem_cons, List.mem_append]
          rcases hw with hw | hw
          · -- the indirect block, if it was logged, is that of the rest
            by_cases hz : r.2.1.addrs ndirect = 0
            · rcases hunlisted hz w hw with h | h
              · exact .inl (.inl h)
              · exact .inr (.inl (.inl h))
            · have hind : ind = ind' := (hlist hz).trans (hknown' hz).symm
              rcases hround.logged w hw with h | h | h
              · exact .inl (.inl h)
              · exact .inr (.inl (.inl h))
              · exact .inr (.inr (h.trans hind))
          · rw [logWrite, Traced.log_bind_ok _ _ (Traced.res_emit _), Traced.log_emit,
              List.mem_append, List.mem_singleton] at hw
            rcases hw with hw | hw
            · exact .inl (.inl (hw.trans ha))
            · rcases hlog' w hw with h | h | h
              · exact .inl (.inr h)
              · exact .inr (.inl (.inr h))
              · exact .inr (.inr h)

theorem bmapLog_of_ne {bn : Nat} (hbn : bn < maxfile) (h : b.slot ip bn ≠ 0) :
    (bmapLog sb b ip bn).log = [] := by
  unfold bmapLog
  by_cases hd : bn < ndirect
  · rw [slot_direct hd] at h
    rw [if_pos hd, addrAtLog, if_neg h, Traced.log_pure]
  · have hl : bn - ndirect < nindirect := by simp only [maxfile] at hbn; omega
    have hind : ip.addrs ndirect ≠ 0 := fun h0 => h (slot_unlisted (by omega) h0)
    have ha : addrAtLog sb b ip ndirect = pure (ip.addrs ndirect, ip, b) := by
      rw [addrAtLog, if_neg hind]
    rw [slot_listed (by omega) hbn hind] at h
    rw [if_neg hd, if_pos hl, ha, Traced.log_bind_ok _ _ (Traced.res_pure _), Traced.log_pure,
      List.nil_append, listedAtLog, if_neg h, Traced.log_pure]

theorem writeLoopLog_covered {k off : Nat} {src : List UInt8} (sb : Layout) (hk : k ≤ maxfile)
    (hfull : Full b ip k) (hboot : b.used 0 = true)
    (hmid : off % bsize ≠ 0 → off / bsize < k) (hlen : src.length ≤ writeMax) :
    ∃ L : List Nat, L.length ≤ 9 ∧
      ∀ w ∈ (writeLoopLog sb src.length b ip off src).log, w ∈ L := by
  have hdm := Nat.div_add_mod off bsize
  have hmax : writeMax = 1536 := rfl
  have hnl : noList ip ≤ 1 := by
    unfold noList
    split <;> omega
  by_cases haligned : off % bsize = 0
  · -- three blocks, all of which may be new
    obtain ⟨D, B, ind, hD, hB, -, hlog⟩ := writeLoopLog_log sb ip src.length 3 off src hboot
      (fun _ => by simp only [bsize] at *; omega)
    refine ⟨D ++ B ++ [ind], by simp; omega, ?_⟩
    intro w hw
    simpa [or_assoc] using hlog w hw
  · by_cases hnil : src = []
    · exact ⟨[], by simp, by simp [hnil, writeLoopLog]⟩
    · -- one block that is there, and three more
      obtain ⟨fuel, hfuel⟩ : ∃ fuel, src.length = fuel + 1 :=
        ⟨src.length - 1, by have := List.length_pos_iff.mpr hnil; omega⟩
      have hbn : off / bsize < maxfile := by have := hmid haligned; omega
      have hne := hfull _ (hmid haligned)
      have hmod : off % bsize < bsize := Nat.mod_lt _ (by decide)
      have hres : (bmapLog sb b ip (off / bsize)).res = .ok (b.slot ip (off / bsize), ip, b) := by
        rw [bmapLog_res, bmap_of_ne hbn hne]
      generalize hm : min src.length (bsize - off % bsize) = m
      obtain ⟨D, B, ind, hD, hB, -, hlog⟩ := writeLoopLog_log
        (b := b.put (b.slot ip (off / bsize)) (off % bsize) (src.take m)) sb ip fuel 3 (off + m)
        (src.drop m) hboot (rest_within hm (by simp only [bsize] at *; omega))
      refine ⟨b.slot ip (off / bsize) :: (D ++ B ++ [ind]), by simp; omega, ?_⟩
      intro w hw
      rw [hfuel, writeLoopLog, if_neg hnil, Traced.log_bind_ok _ _ hres, bmapLog_of_ne hbn hne,
        List.nil_append, logWrite, Traced.log_bind_ok _ _ (Traced.res_emit _), Traced.log_emit,
        List.mem_append, List.mem_singleton] at hw
      rcases hw with hw | hw
      · exact List.mem_cons.mpr (.inl hw)
      · apply List.mem_cons_of_mem
        rw [hm] at hw
        simpa [or_assoc] using hlog w hw

theorem card_le_of_covered {l L : List Nat} (h : ∀ w ∈ l, w ∈ L) :
    l.toFinset.card ≤ L.length := by
  refine Nat.le_trans (Finset.card_le_card ?_) (List.toFinset_card_le L)
  intro w hw
  exact List.mem_toFinset.mpr (h w (List.mem_toFinset.mp hw))

/-- **A chunk fits into its transaction**: a call of `writei` with at most
`writeMax` bytes, on a file that has the blocks below its end, passes at
most `MAXOPBLOCKS` distinct blocks to `log_write`, wherever inodes and bit
map are and however many blocks the disk has. The boot block is marked, as
on every `Intact` disk; a block number 0 means that there is none. -/
theorem writei_logs_at_most {s : FileSys} {ip : InodeIx} {off : Nat} {src : List UInt8}
    (sb : Layout) (hk : nblocks (s.icache ip).din.size ≤ maxfile)
    (hfull : Full s.blocks (s.icache ip).din (nblocks (s.icache ip).din.size))
    (hboot : s.blocks.used 0 = true) (hoff : off ≤ (s.icache ip).din.size)
    (hlen : src.length ≤ writeMax) :
    (writeiLog sb ip src off s).log.toFinset.card ≤ maxopblocks := by
  have hmid : off % bsize ≠ 0 → off / bsize < nblocks (s.icache ip).din.size := by
    intro h
    rw [Nat.div_lt_iff_lt_mul (by decide)]
    have h1 := Nat.le_trans hoff (nblocks_le_iff.mp (Nat.le_refl _))
    rcases Nat.lt_or_eq_of_le h1 with h2 | h2
    · exact h2
    · rw [h2, Nat.mul_mod_left] at h
      exact absurd rfl h
  obtain ⟨L, hL, hlog⟩ := writeLoopLog_covered sb hk hfull hboot hmid hlen
  refine Nat.le_trans (card_le_of_covered (L := sb.iblock (s.icache ip).inum :: L) ?_) ?_
  · intro w hw
    unfold writeiLog at hw
    split at hw
    · simp at hw
    · split at hw
      · simp at hw
      · cases hres : (writeLoopLog sb src.length s.blocks (s.icache ip).din off src).res with
        | error e =>
          rw [Traced.log_bind_error _ _ hres] at hw
          exact List.mem_cons_of_mem _ (hlog w hw)
        | ok r =>
          rw [Traced.log_bind_ok _ _ hres, List.mem_append] at hw
          rcases hw with hw | hw
          · exact List.mem_cons_of_mem _ (hlog w hw)
          · split at hw
            · rw [logWrite, Traced.log_bind_ok _ _ (Traced.res_emit _)] at hw
              simp only [Traced.log_emit, Traced.log_pure, List.append_nil,
                List.mem_singleton] at hw
              exact List.mem_cons.mpr (.inl hw)
            · simp at hw
  · simp only [List.length_cons, maxopblocks]
    omega

/-- The first byte of the empty file: bit map, the new block, and the
inode. -/
theorem writei_logs_at_most_emptyFile :
    (writeiLog ⟨32, 58⟩ 0 [1] 0 emptyFile).log = [58, 10, 10, 32] ∧
      (writeiLog ⟨32, 58⟩ 0 [1] 0 emptyFile).log.toFinset.card ≤ maxopblocks := by
  have hlen : [(1 : UInt8)].length ≤ writeMax := by decide
  refine ⟨by decide +kernel, ?_⟩
  refine writei_logs_at_most ⟨32, 58⟩ (by decide) ?_ (by decide) (Nat.zero_le _) hlen
  intro m hm
  exact absurd hm (by simp [nblocks, bsize, emptyFile])

end Xv6.Fs
