/-
Xv6.Kern.Panics — panics of the memory and process functions that are not
panics of `filedup` or `fileclose`.

Every panic is an error with the source's message. None of the functions
here calls `filedup` or `fileclose`, and the messages say so. The calls
that do (`exit`, `fork`, `clone`) need the account of the references and
come in `FileTheorems.lean`.
-/
import Xv6.Kern.Step

namespace Xv6.Kern

open Xv6.Mem

variable {ncpu : Nat} {d sz : Nat} {v : Vm}

/-- Not a panic of `filedup` or `fileclose`. -/
def Elsewhere (e : String) : Prop := e ≠ "filedup" ∧ e ≠ "fileclose"
  deriving Decidable

namespace Panic

section
variable {v : Vm} {d d' vpn : Nat} {e : String}

theorem allocuvm {oldsz newsz : Nat} (h : v.allocuvm d oldsz newsz = .error e) : Elsewhere e := by
  rw [(Vm.allocuvm_error h).1]
  decide

theorem clearpteu (h : v.clearpteu d vpn = .error e) : Elsewhere e := by
  unfold Vm.clearpteu at h
  split at h <;> cases h
  decide

theorem copyPanics {x y : Nat} (h : Vm.CopyPanics d d' x v y e) : Elsewhere e := by
  rcases h with ⟨-, rfl | rfl⟩ | ⟨-, rfl⟩ <;> decide

theorem copyuvm {i : Int} (h : v.copyuvm d sz i = .error e) : Elsewhere e := by
  cases Vm.copyuvm_run h with
  | heapPanic _ _ _ hp => exact copyPanics hp
  | stackPanic _ _ hp => exact copyPanics hp

theorem uva2ka (h : v.uva2ka d vpn = .error e) : Elsewhere e := by
  unfold Vm.uva2ka at h
  split at h
  · split at h
    · cases h
      decide
    · split at h <;> cases h
  · split at h <;> cases h
    decide

theorem copyout {va : Nat} {bytes : List UInt8} (h : v.copyout d va bytes = .error e) :
    Elsewhere e := by
  unfold Vm.copyout at h
  generalize bytes.length = n at h
  induction n generalizing va bytes v with
  | zero => cases h
  | succ n ih =>
    unfold Vm.copyoutLoop at h
    split at h
    · cases h
    · split at h
      · next hu =>
        cases h
        exact uva2ka hu
      · cases h
      · exact ih h

end

section
variable {k k' : Kernel ncpu} {c : Fin ncpu} {cur p : ProcIdx} {e : String}

open Kernel

theorem freeKstack (h : k.freeKstack p = .error e) : Elsewhere e := by
  unfold Kernel.freeKstack at h
  split at h <;> cases h
  decide

theorem freevmOf (h : k.freevmOf p = .error e) : Elsewhere e := by
  unfold Kernel.freevmOf at h
  split at h <;> cases h
  decide

theorem clearPsl? (h : k.clearPsl? p = .error e) : Elsewhere e := by
  unfold Kernel.clearPsl? Kernel.clearPsl at h
  split at h
  · cases h
  · simp only at h
    split at h <;> cases h
    decide

theorem waitReap (h : k.waitReap p = .error e) : Elsewhere e := by
  unfold Kernel.waitReap at h
  simp only at h
  split at h
  · next h1 =>
    cases h
    exact freeKstack h1
  · split at h
    · next h2 =>
      cases h
      exact clearPsl? h2
    · split at h
      · next h3 =>
        cases h
        split at h3
        · exact freevmOf h3
        · cases h3
      · cases h

theorem joinReap (h : k.joinReap p = .error e) : Elsewhere e := by
  unfold Kernel.joinReap at h
  simp only at h
  split at h
  · next h1 =>
    cases h
    exact freeKstack h1
  · split at h
    · next h2 =>
      cases h
      split at h2
      · exact freevmOf h2
      · cases h2
    · split at h
      · next h3 =>
        cases h
        exact clearPsl? h3
      · cases h

theorem wait (h : k.wait c cur = .error e) : Elsewhere e := by
  unfold Kernel.wait at h
  simp only at h
  split at h
  · split at h
    · next hr =>
      cases h
      exact waitReap hr
    · cases h
  · split at h <;> cases h

theorem ktJoin (h : k.ktJoin c cur = .error e) : Elsewhere e := by
  unfold Kernel.ktJoin at h
  simp only at h
  split at h
  · split at h
    · next hr =>
      cases h
      exact joinReap hr
    · cases h
  · split at h <;> cases h

theorem switchuvm {q : Proc} (h : Kern.switchuvm q = .error e) : Elsewhere e := by
  unfold Kern.switchuvm at h
  split at h
  · cases h
    decide
  · split at h <;> cases h
    decide

theorem scheduler (h : k.scheduler c p = .error e) : Elsewhere e := by
  unfold Kernel.scheduler at h
  split at h
  · next hs =>
    cases h
    exact switchuvm hs
  · cases h

theorem growFinish (h : k.growFinish cur sz = .error e) : Elsewhere e := by
  unfold Kernel.growFinish at h
  split at h
  · next hs =>
    cases h
    exact switchuvm hs
  · cases h

theorem growproc {n : Int} (h : k.growproc cur n = .error e) : Elsewhere e := by
  unfold Kernel.growproc at h
  simp only at h
  split at h
  · cases h
    decide
  · split at h
    · split at h
      · next ha =>
        cases h
        exact allocuvm ha
      · cases h
      · exact growFinish h
    · split at h
      · split at h
        · cases h
        · exact growFinish h
      · exact growFinish h

theorem execLoad (segs : List (Nat × Bool)) (h : Kernel.execLoad d segs sz v = .error e) :
    Elsewhere e := by
  induction segs generalizing sz v with
  | nil => cases h
  | cons s segs ih =>
    unfold Kernel.execLoad at h
    split at h
    · next ha =>
      cases h
      exact allocuvm ha
    · cases h
    · split at h
      · exact ih h
      · cases h

theorem execBuild {segs : List (Nat × Bool)} {b : Bool}
    (h : Kernel.execBuild d segs b v = .error e) : Elsewhere e := by
  unfold Kernel.execBuild at h
  split at h
  · next hl =>
    cases h
    exact execLoad _ hl
  · cases h
  · split at h
    · next ha =>
      cases h
      exact allocuvm ha
    · cases h
    · split at h
      · next hc =>
        cases h
        exact clearpteu hc
      · cases h

theorem exec {f : ExecFile} (h : k.exec cur f = .error e) : Elsewhere e := by
  unfold Kernel.exec at h
  split at h
  · cases h
  · split at h
    · cases h
    · split at h
      · next hb =>
        cases h
        exact execBuild hb
      · cases h
      · split at h
        · cases h
          decide
        · split at h
          · next hs =>
            cases h
            exact switchuvm hs
          · cases h

theorem stackAlloc {i guard : Nat} (h : k.stackAlloc d i guard = .error e) : Elsewhere e := by
  unfold Kernel.stackAlloc at h
  split at h
  · next ha =>
    cases h
    exact allocuvm ha
  · cases h
  · split at h
    · next hc =>
      cases h
      exact clearpteu hc
    · cases h

end

end Panic

end Xv6.Kern
