/-
Xv6.User.ShTheorems — the shell's parser accepts exactly its grammar.

The grammar is over the tokens that `gettoken` produces (`tokens`). The
parser sees the string only through `peek` and `gettoken`, and these see
only the tokens (`peek_run`, `gettoken_run`); from there on the proofs
are about token lists.

* `Parses` carries soundness and the bound on the calls together: a
  parser that has enough of them is not `spent`, and what it took derives
  the tree it returned (`parser_sound`).
* `Takes` carries completeness: where a derivation is followed by a token
  that can follow it, the parser takes exactly its tokens
  (`parser_complete`).
* `parsecmd_accepts` puts the two together; `nulterminate_recovers` says
  what the pointers in the tree point to after `nulterminate`.
-/
import Xv6.User.Sh
import Xv6.Lib.Descent
import Mathlib.Data.List.TakeWhile
import Mathlib.Logic.Function.Iterate

namespace Xv6.User.Sh

open Xv6.Lib

variable {rs : List Redir} {ws : List Span} {allowed ts us : List Token} {s toks : List UInt8}
  {n : Nat} {w : Span} {tok : Token} {c : UInt8}
  {cmd : Cmd} {x : Nonterminal} {rs' : List Redir} {argv : List Span}
  {rest word : List UInt8}

/-! ## Tokens -/

theorem skip_cons {t : List UInt8} (h : strchr whitespace c = false) : skip (c :: t) = c :: t :=
  List.dropWhile_cons_of_neg (by simp [h])

theorem skip_cases (s : List UInt8) :
    skip s = [] ∨ ∃ c t, skip s = c :: t ∧ strchr whitespace c = false := by
  have h := List.head?_dropWhile_not (strchr whitespace) s
  cases hs : skip s with
  | nil => exact .inl rfl
  | cons c t =>
    rw [show s.dropWhile (strchr whitespace) = c :: t from hs] at h
    exact .inr ⟨c, t, rfl, h⟩

@[simp] theorem skip_skip (s : List UInt8) : skip (skip s) = skip s := by
  rcases skip_cases s with h | ⟨c, t, h, hc⟩
  · rw [h]
    rfl
  · rw [h, skip_cons hc]

theorem length_skip_le (s : List UInt8) : (skip s).length ≤ s.length :=
  (List.dropWhile_sublist _).length_le

/-- The character a token starts with, if it is not a word. -/
def Token.symbol : Token → Option UInt8
  | .bar => some (chr '|')
  | .lpar => some (chr '(')
  | .rpar => some (chr ')')
  | .semi => some (chr ';')
  | .amp => some (chr '&')
  | .lt => some (chr '<')
  | .gt => some (chr '>')
  | .gtgt => some (chr '>')
  | .word _ => none

theorem symbol_of_single (h : single c = some tok) : tok.symbol = some c := by
  unfold single at h
  split_ifs at h <;> cases h <;> simp_all [Token.symbol]

theorem wordChar_of_none (hblank : strchr whitespace c = false) (hs : single c = none)
    (hgt : c ≠ chr '>') : wordChar c = true := by
  unfold single at hs
  split_ifs at hs
  simp_all [wordChar, strchr, symbols]

/-- A token takes at least one character, and is a word just when that
character is of a word. -/
theorem scan_cons {t : List UInt8} (h : strchr whitespace c = false) :
    ∃ tok r, scan (c :: t) = (some tok, r) ∧ r.length ≤ t.length ∧
      (tok.symbol = some c ∨ tok.symbol = none ∧ wordChar c = true) := by
  cases hs : single c with
  | some tok => exact ⟨tok, t, by simp only [scan, hs], Nat.le_refl _, .inl (symbol_of_single hs)⟩
  | none =>
    simp only [scan, hs]
    split
    · next hgt =>
      subst hgt
      split
      · exact ⟨.gtgt, t.tail, rfl, by simp, .inl rfl⟩
      · exact ⟨.gt, t, rfl, Nat.le_refl _, .inl rfl⟩
    rename_i hgt
    have hw := wordChar_of_none h hs hgt
    refine ⟨_, _, rfl, ?_, .inr ⟨rfl, hw⟩⟩
    rw [List.dropWhile_cons_of_pos hw]
    exact (List.dropWhile_sublist _).length_le

/-- There is a next token unless only blanks are left, and it takes
something off the string. -/
theorem token_cases (s : List UInt8) :
    (skip s = [] ∧ token s = (none, [])) ∨
      ∃ c t tok r, skip s = c :: t ∧ token s = (some tok, r) ∧ r.length < s.length ∧
        (tok.symbol = some c ∨ tok.symbol = none ∧ wordChar c = true) := by
  rcases skip_cases s with h | ⟨c, t, h, hc⟩
  · refine .inl ⟨h, ?_⟩
    simp only [token, h]
    rfl
  · obtain ⟨tok, r, hscan, hlen, hsym⟩ := scan_cons (t := t) hc
    refine .inr ⟨c, t, tok, skip r, h, ?_, ?_, hsym⟩
    · simp only [token, h, hscan]
    · have h1 := length_skip_le s
      have h2 := length_skip_le r
      rw [h, List.length_cons] at h1
      omega

theorem length_token_lt (h : (token s).1 = some tok) : (token s).2.length < s.length := by
  rcases token_cases s with ⟨-, htok⟩ | ⟨c, t, tok', r, -, htok, hlen, -⟩
  · rw [htok] at h
    cases h
  · rw [htok]
    exact hlen

/-- The tokens that successive calls of `gettoken` give. -/
def tokens (s : List UInt8) : List Token :=
  match _h : (token s).1 with
  | none => []
  | some tok => tok :: tokens (token s).2
termination_by s.length
decreasing_by exact length_token_lt _h

theorem tokens_of_none (h : (token s).1 = none) : tokens s = [] := by
  rw [tokens]
  split
  · rfl
  · simp_all

theorem tokens_of_some (h : (token s).1 = some tok) : tokens s = tok :: tokens (token s).2 := by
  rw [tokens]
  split <;> simp_all

theorem token_skip (s : List UInt8) : token (skip s) = token s := by
  simp [token]

@[simp] theorem tokens_skip (s : List UInt8) : tokens (skip s) = tokens s := by
  cases h : (token s).1 with
  | none => rw [tokens_of_none h, tokens_of_none (by rwa [token_skip])]
  | some tok => rw [tokens_of_some h, tokens_of_some (by rwa [token_skip]), token_skip]

theorem tokens_eq_nil_iff (s : List UInt8) : tokens s = [] ↔ skip s = [] := by
  rcases token_cases s with ⟨hs, htok⟩ | ⟨c, t, tok, r, hs, htok, -, -⟩
  · simp [hs, tokens_of_none (congrArg Prod.fst htok)]
  · simp [hs, tokens_of_some (congrArg Prod.fst htok)]

theorem length_tokens_le (s : List UInt8) : (tokens s).length ≤ s.length := by
  fun_induction tokens s with
  | case1 s h => simp
  | case2 s tok h ih =>
    have := length_token_lt h
    simp only [List.length_cons]
    omega

/-! ## `peek` and `gettoken` see only the tokens -/

/-- The next token is one of some symbols. -/
def sees (toks : List UInt8) (ts : List Token) : Bool :=
  ts.head?.any fun t => t.symbol.any (strchr toks)

theorem peek_run (h : toks ⊆ symbols) (s : List UInt8) :
    peek toks s = .ok (sees toks (tokens s), skip s) := by
  have hsee : (skip s).head?.any (strchr toks) = sees toks (tokens s) := by
    rcases token_cases s with ⟨hs, htok⟩ | ⟨c, t, tok, r, hs, htok, -, hsym⟩
    · rw [hs, tokens_of_none (congrArg Prod.fst htok)]
      rfl
    · rw [hs, tokens_of_some (congrArg Prod.fst htok)]
      rcases hsym with hsym | ⟨hsym, hw⟩
      · simp [sees, hsym]
      · -- a word starts with no symbol
        have hc : c ∉ toks := by
          intro hmem
          have := h hmem
          simp_all [wordChar, strchr]
        simp [sees, hsym, strchr, hc]
  rw [← hsee]
  rfl

theorem gettoken_run (s : List UInt8) :
    ∃ s', gettoken s = .ok ((tokens s).head?, s') ∧ tokens s' = (tokens s).tail := by
  refine ⟨(token s).2, ?_, ?_⟩
  · cases h : (token s).1 with
    | none =>
      rw [tokens_of_none h, List.head?_nil, ← h]
      rfl
    | some tok =>
      rw [tokens_of_some h, List.head?_cons, ← h]
      rfl
  · cases h : (token s).1 with
    | none =>
      rcases token_cases s with ⟨-, htok⟩ | ⟨c, t, tok, r, -, htok, -, -⟩
      · rw [tokens_of_none h, htok]
        exact (tokens_eq_nil_iff []).mpr rfl
      · rw [htok] at h
        cases h
    | some tok => rw [tokens_of_some h, List.tail_cons]

/-! ## The grammar -/

/-- `redir*`, where `redir ::= ('<' | '>' | '>>') word`. -/
inductive Redirs : List Token → List Redir → Prop
  | nil : Redirs [] []
  | cons {t : Token} {w : Span} {r : Redir} {ts : List Token} {rs : List Redir} :
      t.redir w = some r → Redirs ts rs → Redirs (t :: .word w :: ts) (r :: rs)

/-- `(word redir*)*`: the words, and the redirections between them. -/
inductive Words : List Token → List Span → List Redir → Prop
  | nil : Words [] [] []
  | cons {w : Span} {us ts : List Token} {rs rs' : List Redir} {ws : List Span} :
      Redirs us rs → Words ts ws rs' → Words (.word w :: (us ++ ts)) (w :: ws) (rs ++ rs')

/-- The nonterminals with a tree. -/
inductive Nonterminal where
  | line
  | pipe
  | exec

/-- The tokens `ts` derive from a nonterminal, with the tree of the
derivation.

    line ::= pipe '&'* [';' line]
    pipe ::= exec ['|' pipe]
    exec ::= '(' line ')' redir* | redir* (word redir*)*
-/
inductive Derives : Nonterminal → List Token → Cmd → Prop
  | line {ts : List Token} {c : Cmd} (k : Nat) : Derives .pipe ts c →
      Derives .line (ts ++ List.replicate k .amp) (Cmd.back^[k] c)
  | seq {ts us : List Token} {c d : Cmd} (k : Nat) : Derives .pipe ts c → Derives .line us d →
      Derives .line (ts ++ (List.replicate k .amp ++ .semi :: us)) (.list (Cmd.back^[k] c) d)
  | exec {ts : List Token} {c : Cmd} : Derives .exec ts c → Derives .pipe ts c
  | pipe {ts us : List Token} {c d : Cmd} : Derives .exec ts c → Derives .pipe us d →
      Derives .pipe (ts ++ .bar :: us) (.pipe c d)
  | block {ts us : List Token} {c : Cmd} {rs : List Redir} : Derives .line ts c → Redirs us rs →
      Derives .exec (.lpar :: (ts ++ .rpar :: us)) (rs.foldl redircmd c)
  | simple {us ts : List Token} {ws : List Span} {rs rs' : List Redir} :
      Redirs us rs → Words ts ws rs' → ws.length ≤ maxargs - 1 →
      Derives .exec (us ++ ts) ((rs ++ rs').foldl redircmd (.exec ws))

/-! ## What the next token can be -/

section Sees

variable {t : Token} {ts : List Token}

@[simp] theorem sees_nil (toks : List UInt8) : sees toks [] = false := rfl

theorem sees_iff : sees toks ts = true ↔ ∃ t us, ts = t :: us ∧ ∃ c ∈ toks, t.symbol = some c := by
  cases ts with
  | nil => simp
  | cons t us =>
    cases hs : t.symbol with
    | none => simp [sees, hs]
    | some c => simp [sees, hs, strchr]

theorem sees_single (h : single c = some t) : sees [c] ts = true ↔ ∃ us, ts = t :: us := by
  have hunique : ∀ t', t'.symbol = some c → t' = t := by
    intro t' ht'
    cases t' <;> cases ht' <;> cases h <;> rfl
  rw [sees_iff]
  constructor
  · rintro ⟨t', us, rfl, c', hc', hsym⟩
    rw [List.mem_singleton] at hc'
    exact ⟨us, by rw [hunique t' (hc' ▸ hsym)]⟩
  · rintro ⟨us, rfl⟩
    exact ⟨t, us, rfl, c, List.mem_singleton_self c, symbol_of_single h⟩

theorem sees_redir : sees [chr '<', chr '>'] ts = true ↔
    ∃ t us, ts = t :: us ∧ ∀ w, ∃ r, t.redir w = some r := by
  rw [sees_iff]
  constructor
  · rintro ⟨t, us, rfl, c, hc, hsym⟩
    refine ⟨t, us, rfl, ?_⟩
    intro w
    cases t <;> simp [Token.symbol, Token.redir] at hsym ⊢ <;> subst hsym <;> revert hc <;> decide
  · rintro ⟨t, us, rfl, hr⟩
    refine ⟨t, us, rfl, ?_⟩
    obtain ⟨r, hr⟩ := hr ⟨0, 0⟩
    cases t <;> simp [Token.symbol, Token.redir] at hr ⊢

theorem sees_end : sees [chr '|', chr ')', chr '&', chr ';'] ts = true ↔
    ∃ t us, ts = t :: us ∧ t ∈ [.bar, .rpar, .amp, .semi] := by
  rw [sees_iff]
  constructor
  · rintro ⟨t, us, rfl, c, hc, hsym⟩
    refine ⟨t, us, rfl, ?_⟩
    cases t <;> simp [Token.symbol] at hsym ⊢ <;> subst hsym <;> revert hc <;> decide
  · rintro ⟨t, us, rfl, ht⟩
    refine ⟨t, us, rfl, ?_⟩
    simp only [List.mem_cons, List.not_mem_nil, or_false] at ht
    rcases ht with rfl | rfl | rfl | rfl <;> simp [Token.symbol]

end Sees

/-! ## Soundness -/

section Parses

variable {α : Type} {s : List UInt8} {f : Bool → Parse α} {g : Option Token → Parse α}
  {T : List Token → α → Prop}

theorem parses_peek (h : toks ⊆ symbols)
    (hf : ∀ s', tokens s' = tokens s → Parses tokens .spent (f (sees toks (tokens s))) s' T) :
    Parses tokens .spent (peek toks >>= f) s T := by
  have hps : tokens s = [] ++ tokens (skip s) := (tokens_skip s).symm
  exact .of_ok (peek_run h s) hps (hf (skip s) (tokens_skip s))

theorem parses_gettoken_cons {t : Token} (h : tokens s = t :: ts)
    (hg : ∀ s', tokens s' = ts → Parses tokens .spent (g (some t)) s' fun ps a => T (t :: ps) a) :
    Parses tokens .spent (gettoken >>= g) s T := by
  obtain ⟨s', hrun, hs'⟩ := gettoken_run s
  rw [h] at hrun hs'
  have hps : tokens s = [t] ++ tokens s' := by
    rw [h, hs']
    rfl
  exact .of_ok hrun hps (hg s' hs')

theorem parses_gettoken_nil (h : tokens s = [])
    (hg : ∀ s', tokens s' = [] → Parses tokens .spent (g none) s' T) :
    Parses tokens .spent (gettoken >>= g) s T := by
  obtain ⟨s', hrun, hs'⟩ := gettoken_run s
  rw [h] at hrun hs'
  have hps : tokens s = [] ++ tokens s' := by
    rw [h, hs']
    rfl
  exact .of_ok hrun hps (hg s' hs')

theorem redirs_parses (h : (tokens s).length < n) : Parses tokens .spent (redirs n) s Redirs := by
  induction n generalizing s with
  | zero => omega
  | succ n ih =>
    refine parses_peek (by decide) ?_
    intro s₁ h₁
    split
    · next hsee =>
      obtain ⟨t, us, hts, hredir⟩ := sees_redir.mp hsee
      refine parses_gettoken_cons (h₁.trans hts) ?_
      intro s₂ h₂
      cases us with
      | nil =>
        refine parses_gettoken_nil h₂ ?_
        intro s₃ _
        exact .throw (by simp)
      | cons u us =>
        refine parses_gettoken_cons h₂ ?_
        intro s₃ h₃
        cases u with
        | word w =>
          obtain ⟨r, hr⟩ := hredir w
          have hlen : (tokens s₃).length < n := by
            rw [hts] at h
            simp only [h₃, List.length_cons] at h ⊢
            omega
          refine (ih hlen).bind ?_
          intro rs s₄ ps _ hrs
          refine .pure ?_
          simp only [Option.bind_some, hr, Option.toList_some, List.append_nil]
          exact .cons hr hrs
        | _ => exact .throw (by simp)
    · exact .pure .nil

theorem args_parses (h : (tokens s).length < n) (hargv : argv.length ≤ maxargs - 1) :
    Parses tokens .spent (args n argv rs) s fun ts c => ∃ ws rs', Words ts ws rs' ∧
      (argv ++ ws).length ≤ maxargs - 1 ∧ c = (rs ++ rs').foldl redircmd (.exec (argv ++ ws)) := by
  induction n generalizing s argv rs with
  | zero => omega
  | succ n ih =>
    -- the loop ends with the words it has
    have hdone : ∃ ws rs', Words [] ws rs' ∧ (argv ++ ws).length ≤ maxargs - 1 ∧
        rs.foldl redircmd (.exec argv) = (rs ++ rs').foldl redircmd (.exec (argv ++ ws)) :=
      ⟨[], [], .nil, by simpa using hargv, by simp⟩
    refine parses_peek (by decide) ?_
    intro s₁ h₁
    split
    · exact .pure hdone
    cases hts : tokens s with
    | nil =>
      refine parses_gettoken_nil (h₁.trans hts) ?_
      intro s₂ _
      exact .pure hdone
    | cons t ts =>
      refine parses_gettoken_cons (h₁.trans hts) ?_
      intro s₂ h₂
      rw [hts, List.length_cons] at h
      cases t with
      | word w =>
        simp only
        split
        · exact .throw (by simp)
        next hroom =>
        refine (redirs_parses (by rw [h₂]; omega)).bind ?_
        intro more s₃ us hus hmore
        have hlen : (tokens s₃).length < n := by
          have := congrArg List.length (h₂.symm.trans hus)
          rw [List.length_append] at this
          omega
        refine (ih hlen (by simp only [List.length_append, List.length_singleton]; omega)).imp ?_
        rintro ts' c ⟨ws, rs', hws, hle, rfl⟩
        exact ⟨w :: ws, more ++ rs', .cons hmore hws, by simpa using hle, by simp⟩
      | _ => exact .throw (by simp)

theorem backs_parses (h : (tokens s).length < n) :
    Parses tokens .spent (backs n cmd) s fun ts c =>
      ∃ k, ts = List.replicate k .amp ∧ c = Cmd.back^[k] cmd := by
  induction n generalizing s cmd with
  | zero => omega
  | succ n ih =>
    refine parses_peek (by decide) ?_
    intro s₁ h₁
    split
    · next hsee =>
      obtain ⟨us, hus⟩ := (sees_single rfl).mp hsee
      refine parses_gettoken_cons (h₁.trans hus) ?_
      intro s₂ h₂
      have hlen : (tokens s₂).length < n := by
        rw [hus] at h
        simp only [h₂, List.length_cons] at h ⊢
        omega
      refine (ih hlen).imp ?_
      rintro ts c ⟨k, rfl, rfl⟩
      exact ⟨k + 1, rfl, rfl⟩
    · exact .pure ⟨0, rfl, rfl⟩

/-- With `r` calls more than four for each token, the parser is sound for
a nonterminal. -/
def Sound (r : Nat) (parse : Nat → Parse Cmd) (x : Nonterminal) (n : Nat) : Prop :=
  ∀ s, 4 * (tokens s).length + r ≤ n → Parses tokens .spent (parse n) s (Derives x)

theorem parseline_sound (hpipe : Sound 3 parsepipe .pipe n) (hline : Sound 4 parseline .line n) :
    Sound 4 parseline .line (n + 1) := by
  intro s h
  unfold parseline
  refine (hpipe s (by omega)).bind ?_
  intro c s₁ ts hts hc
  have hlen := congrArg List.length hts
  rw [List.length_append] at hlen
  refine (backs_parses (by omega)).bind ?_
  rintro d s₂ us hus ⟨k, rfl, rfl⟩
  have hlen' := congrArg List.length hus
  rw [List.length_append] at hlen'
  refine parses_peek (by decide) ?_
  intro s₃ h₃
  split
  · next hsee =>
    obtain ⟨vs, hvs⟩ := (sees_single rfl).mp hsee
    refine parses_gettoken_cons (h₃.trans hvs) ?_
    intro s₄ h₄
    rw [hvs, List.length_cons, ← h₄] at hlen'
    refine (hline s₄ (by omega)).bind ?_
    intro d s₅ ws _ hd
    refine .pure ?_
    rw [List.append_nil]
    exact .seq k hc hd
  · refine .pure ?_
    rw [List.append_nil]
    exact .line k hc

theorem parsepipe_sound (hexec : Sound 2 parseexec .exec n) (hpipe : Sound 3 parsepipe .pipe n) :
    Sound 3 parsepipe .pipe (n + 1) := by
  intro s h
  unfold parsepipe
  refine (hexec s (by omega)).bind ?_
  intro c s₁ ts hts hc
  have hlen := congrArg List.length hts
  rw [List.length_append] at hlen
  refine parses_peek (by decide) ?_
  intro s₂ h₂
  split
  · next hsee =>
    obtain ⟨vs, hvs⟩ := (sees_single rfl).mp hsee
    refine parses_gettoken_cons (h₂.trans hvs) ?_
    intro s₃ h₃
    rw [hvs, List.length_cons, ← h₃] at hlen
    refine (hpipe s₃ (by omega)).bind ?_
    intro d s₄ ws _ hd
    refine .pure ?_
    rw [List.append_nil]
    exact .pipe hc hd
  · refine .pure ?_
    rw [List.append_nil]
    exact .exec hc

theorem parseexec_sound (hblock : Sound 1 parseblock .exec n) :
    Sound 2 parseexec .exec (n + 1) := by
  intro s h
  unfold parseexec
  refine parses_peek (by decide) ?_
  intro s₁ h₁
  rw [← h₁] at h
  split
  · exact hblock s₁ (by omega)
  · refine (redirs_parses (by omega)).bind ?_
    intro rs s₂ us hus hrs
    have hlen := congrArg List.length hus
    rw [List.length_append] at hlen
    refine (args_parses (by omega) (Nat.zero_le _)).imp ?_
    rintro ts c ⟨ws, rs', hws, hle, rfl⟩
    exact .simple hrs hws hle

theorem parseblock_sound (hline : Sound 4 parseline .line n) :
    Sound 1 parseblock .exec (n + 1) := by
  intro s h
  unfold parseblock
  refine parses_peek (by decide) ?_
  intro s₁ h₁
  split
  · next hsee =>
    obtain ⟨vs, hvs⟩ := (sees_single rfl).mp hsee
    refine parses_gettoken_cons (h₁.trans hvs) ?_
    intro s₂ h₂
    rw [hvs, List.length_cons, ← h₂] at h
    refine (hline s₂ (by omega)).bind ?_
    intro c s₃ ts hts hc
    have hlen := congrArg List.length hts
    rw [List.length_append] at hlen
    refine parses_peek (by decide) ?_
    intro s₄ h₄
    split
    · next hsee' =>
      obtain ⟨ws, hws⟩ := (sees_single rfl).mp hsee'
      refine parses_gettoken_cons (h₄.trans hws) ?_
      intro s₅ h₅
      rw [hws, List.length_cons, ← h₅] at hlen
      refine (redirs_parses (by omega)).bind ?_
      intro rs s₆ us _ hrs
      refine .pure ?_
      rw [List.append_nil]
      exact .block hc hrs
    · exact .throw (by simp)
  · exact .throw (by simp)

/-- **Soundness**: a parser with enough calls is not spent, and what it
takes derives what it returns. -/
theorem parser_sound (n : Nat) :
    Sound 4 parseline .line n ∧ Sound 3 parsepipe .pipe n ∧ Sound 2 parseexec .exec n ∧
      Sound 1 parseblock .exec n := by
  induction n with
  | zero => exact ⟨fun s h => by omega, fun s h => by omega, fun s h => by omega,
      fun s h => by omega⟩
  | succ n ih =>
    obtain ⟨hline, hpipe, hexec, hblock⟩ := ih
    exact ⟨parseline_sound hpipe hline, parsepipe_sound hexec hpipe, parseexec_sound hblock,
      parseblock_sound hline⟩

end Parses

/-! ## Completeness -/

/-- The tokens that may come after a nonterminal. -/
def follow : Nonterminal → List Token
  | .line => [.rpar]
  | .pipe => [.rpar, .amp, .semi]
  | .exec => [.bar, .rpar, .amp, .semi]

/-- There is nothing more, or one of some tokens. -/
def Follows (allowed us : List Token) : Prop := ∀ t ∈ us.head?, t ∈ allowed

theorem follows_cons {t : Token} (h : t ∈ allowed) : Follows allowed (t :: us) := by
  simp [Follows, h]

theorem Follows.mono {allowed' : List Token} (h : Follows allowed us)
    (hsub : ∀ t ∈ allowed, t ∈ allowed') : Follows allowed' us :=
  fun t ht => hsub t (h t ht)

theorem Follows.sees (h : Follows allowed us)
    (hnone : ∀ t ∈ allowed, t.symbol.any (strchr toks) = false) : sees toks us = false := by
  cases us with
  | nil => rfl
  | cons t us => exact hnone t (h t rfl)

section Takes

variable {α : Type} {s : List UInt8} {f : Bool → Parse α} {g : Option Token → Parse α}
  {a : α} {ts us : List Token}

theorem takes_peek (h : toks ⊆ symbols)
    (hf : ∀ s', tokens s' = tokens s → Takes tokens (f (sees toks (tokens s))) s' a us) :
    Takes tokens (peek toks >>= f) s a us := by
  have hpeek : Takes tokens (peek toks) s (sees toks (tokens s)) (tokens s) :=
    ⟨skip s, peek_run h s, tokens_skip s⟩
  exact hpeek.bind hf

theorem takes_gettoken (hg : ∀ s', tokens s' = (tokens s).tail →
      Takes tokens (g (tokens s).head?) s' a us) : Takes tokens (gettoken >>= g) s a us :=
  Takes.bind (gettoken_run s) hg

theorem redirs_takes (hrs : Redirs ts rs) (hs : tokens s = ts ++ us)
    (hus : sees [chr '<', chr '>'] us = false) (hn : ts.length < n) :
    Takes tokens (redirs n) s rs us := by
  induction hrs generalizing s n with
  | nil =>
    cases n with
    | zero => simp at hn
    | succ n =>
      refine takes_peek (by decide) ?_
      intro s₁ h₁
      have hsee : sees [chr '<', chr '>'] (tokens s) = false := by rwa [hs]
      rw [hsee]
      exact .pure (h₁.trans hs)
  | @cons t w r ts rs hr hrs ih =>
    cases n with
    | zero => simp at hn
    | succ n =>
      have hsee : sees [chr '<', chr '>'] (tokens s) = true := by
        rw [hs]
        refine sees_redir.mpr ⟨t, .word w :: ts ++ us, rfl, ?_⟩
        intro w'
        cases t <;> simp [Token.redir] at hr ⊢
      refine takes_peek (by decide) ?_
      intro s₁ h₁
      rw [hsee]
      refine takes_gettoken ?_
      intro s₂ h₂
      rw [h₁, hs] at h₂ ⊢
      refine takes_gettoken ?_
      intro s₃ h₃
      rw [h₂] at h₃ ⊢
      have hlen : ts.length < n := by
        simp only [List.length_cons] at hn
        omega
      refine (ih (h₃.trans rfl) hlen).bind ?_
      intro s₄ h₄
      have hone : ((some t).bind (Token.redir w)).toList ++ rs = r :: rs := by simp [hr]
      rw [← hone]
      exact .pure h₄

theorem Words.sees_redir (h : Words ts ws rs) (hus : Follows (follow .exec) us) :
    sees [chr '<', chr '>'] (ts ++ us) = false := by
  cases h with
  | nil => exact hus.sees (by decide)
  | cons _ _ => rfl

theorem args_takes (hws : Words ts ws rs') (hs : tokens s = ts ++ us)
    (hus : Follows (follow .exec) us) (hle : (argv ++ ws).length ≤ maxargs - 1)
    (hn : ts.length < n) :
    Takes tokens (args n argv rs) s ((rs ++ rs').foldl redircmd (.exec (argv ++ ws))) us := by
  induction hws generalizing s n argv rs with
  | nil =>
    cases n with
    | zero => simp at hn
    | succ n =>
      rw [List.append_nil, List.append_nil]
      refine takes_peek (by decide) ?_
      intro s₁ h₁
      split
      · exact .pure (h₁.trans hs)
      rename_i hsee
      -- the loop stops at a token that follows, or at the end
      have hend : us = [] := by
        cases us with
        | nil => rfl
        | cons t us =>
          refine absurd ?_ hsee
          rw [hs]
          exact sees_end.mpr ⟨t, us, rfl, hus t rfl⟩
      subst hend
      refine takes_gettoken ?_
      intro s₂ h₂
      rw [h₁, hs] at h₂ ⊢
      exact .pure h₂
  | @cons w vs ts rs₁ rs₂ ws hvs hws ih =>
    cases n with
    | zero => simp at hn
    | succ n =>
      simp only [List.length_cons, List.length_append] at hn
      refine takes_peek (by decide) ?_
      intro s₁ h₁
      have hsee : sees [chr '|', chr ')', chr '&', chr ';'] (tokens s) = false := by
        rw [hs]
        rfl
      rw [hsee]
      refine takes_gettoken ?_
      intro s₂ h₂
      rw [h₁, hs] at h₂ ⊢
      have hroom : ¬ argv.length + 1 ≥ maxargs := by
        simp only [List.length_append, List.length_cons] at hle
        omega
      simp only [List.cons_append, List.head?_cons, if_neg hroom]
      have hrest : tokens s₂ = vs ++ (ts ++ us) := by
        rw [h₂, List.cons_append, List.tail_cons, List.append_assoc]
      refine (redirs_takes hvs hrest (hws.sees_redir hus) (by omega)).bind ?_
      intro s₃ h₃
      have htake : Takes tokens (args n (argv ++ [w]) (rs ++ rs₁)) s₃
          ((rs ++ rs₁ ++ rs₂).foldl redircmd (.exec (argv ++ [w] ++ ws))) us :=
        ih h₃ (by simpa using hle) (by omega)
      simpa using htake

theorem backs_takes {k : Nat} (hs : tokens s = List.replicate k .amp ++ us)
    (hus : sees [chr '&'] us = false) (hn : k < n) :
    Takes tokens (backs n cmd) s (Cmd.back^[k] cmd) us := by
  induction n generalizing s k cmd with
  | zero => omega
  | succ n ih =>
    refine takes_peek (by decide) ?_
    intro s₁ h₁
    cases k with
    | zero =>
      have hsee : sees [chr '&'] (tokens s) = false := by rwa [hs]
      rw [hsee]
      exact .pure (h₁.trans hs)
    | succ k =>
      have hsee : sees [chr '&'] (tokens s) = true := by
        rw [hs]
        exact (sees_single rfl).mpr ⟨_, rfl⟩
      rw [hsee]
      refine takes_gettoken ?_
      intro s₂ h₂
      rw [h₁, hs] at h₂
      exact ih h₂ (by omega)

/-- With `r` calls more than four for each token, the parser takes every
derivation from a nonterminal that something of its follow set comes
after. -/
def Complete (r : Nat) (parse : Nat → Parse Cmd) (x : Nonterminal) (n : Nat) : Prop :=
  ∀ ts c us s, Derives x ts c → tokens s = ts ++ us → Follows (follow x) us →
    4 * (tokens s).length + r ≤ n → Takes tokens (parse n) s c us

/-- The same for `parseblock`, which takes only derivations that start
with a parenthesis. -/
def CompleteBlock (n : Nat) : Prop :=
  ∀ ts c us rs vs s, Derives .line ts c → Redirs us rs →
    tokens s = .lpar :: (ts ++ .rpar :: us) ++ vs → Follows (follow .exec) vs →
    4 * (tokens s).length + 1 ≤ n → Takes tokens (parseblock n) s (rs.foldl redircmd c) vs

theorem parseline_complete (hpipe : Complete 3 parsepipe .pipe n)
    (hline : Complete 4 parseline .line n) : Complete 4 parseline .line (n + 1) := by
  intro ts c us s hd hs hus hn
  have hlen := congrArg List.length hs
  unfold parseline
  cases hd with
  | @line ts c k hc =>
    rw [List.append_assoc] at hs
    simp only [List.length_append, List.length_replicate] at hlen
    have hfollow : Follows (follow .pipe) (List.replicate k .amp ++ us) := by
      cases k with
      | zero => exact hus.mono (by decide)
      | succ k => exact follows_cons (by decide)
    refine (hpipe ts c _ s hc hs hfollow (by omega)).bind ?_
    intro s₁ h₁
    refine (backs_takes h₁ (hus.sees (by decide)) (by omega)).bind ?_
    intro s₂ h₂
    refine takes_peek (by decide) ?_
    intro s₃ h₃
    have hsee : sees [chr ';'] (tokens s₂) = false := by
      rw [h₂]
      exact hus.sees (by decide)
    rw [hsee]
    exact .pure (h₃.trans h₂)
  | @seq ts vs c d k hc hd =>
    rw [List.append_assoc, List.append_assoc] at hs
    simp only [List.length_append, List.length_replicate, List.length_cons] at hlen
    have hfollow : Follows (follow .pipe) (List.replicate k .amp ++ (.semi :: vs ++ us)) := by
      cases k with
      | zero => exact follows_cons (by decide)
      | succ k => exact follows_cons (by decide)
    refine (hpipe ts c _ s hc hs hfollow (by omega)).bind ?_
    intro s₁ h₁
    refine (backs_takes h₁ rfl (by omega)).bind ?_
    intro s₂ h₂
    refine takes_peek (by decide) ?_
    intro s₃ h₃
    have hsee : sees [chr ';'] (tokens s₂) = true := by
      rw [h₂]
      rfl
    rw [hsee]
    refine takes_gettoken ?_
    intro s₄ h₄
    rw [h₃, h₂] at h₄
    have hlen₄ : (tokens s₄).length = vs.length + us.length := by
      rw [h₄]
      simp
    refine (hline vs d us s₄ hd h₄ hus (by omega)).bind ?_
    intro s₅ h₅
    exact .pure h₅

theorem parsepipe_complete (hexec : Complete 2 parseexec .exec n)
    (hpipe : Complete 3 parsepipe .pipe n) : Complete 3 parsepipe .pipe (n + 1) := by
  intro ts c us s hd hs hus hn
  have hlen := congrArg List.length hs
  unfold parsepipe
  cases hd with
  | exec hc =>
    refine (hexec ts c us s hc hs (hus.mono (by decide)) (by omega)).bind ?_
    intro s₁ h₁
    refine takes_peek (by decide) ?_
    intro s₂ h₂
    have hsee : sees [chr '|'] (tokens s₁) = false := by
      rw [h₁]
      exact hus.sees (by decide)
    rw [hsee]
    exact .pure (h₂.trans h₁)
  | @pipe ts vs c d hc hd =>
    rw [List.append_assoc] at hs
    simp only [List.length_append, List.length_cons] at hlen
    refine (hexec ts c _ s hc hs (follows_cons (by decide)) (by omega)).bind ?_
    intro s₁ h₁
    refine takes_peek (by decide) ?_
    intro s₂ h₂
    have hsee : sees [chr '|'] (tokens s₁) = true := by
      rw [h₁]
      rfl
    rw [hsee]
    refine takes_gettoken ?_
    intro s₃ h₃
    rw [h₂, h₁] at h₃
    have hlen₃ : (tokens s₃).length = vs.length + us.length := by
      rw [h₃]
      simp
    refine (hpipe vs d us s₃ hd h₃ hus (by omega)).bind ?_
    intro s₄ h₄
    exact .pure h₄

theorem sees_lpar_simple {vs : List Token} (hrs : Redirs us rs) (hws : Words ts ws rs')
    (hvs : Follows (follow .exec) vs) : sees [chr '('] (us ++ ts ++ vs) = false := by
  cases hrs with
  | nil =>
    cases hws with
    | nil => exact hvs.sees (by decide)
    | cons _ _ => rfl
  | @cons t w r us rs hr hrs => cases t <;> first | rfl | simp [Token.redir] at hr

theorem parseexec_complete (hblock : CompleteBlock n) : Complete 2 parseexec .exec (n + 1) := by
  intro ts c us s hd hs hus hn
  have hlen := congrArg List.length hs
  unfold parseexec
  refine takes_peek (by decide) ?_
  intro s₁ h₁
  cases hd with
  | @block ts vs c rs hc hrs =>
    have hsee : sees [chr '('] (tokens s) = true := by
      rw [hs]
      rfl
    rw [hsee]
    exact hblock ts c vs rs us s₁ hc hrs (h₁.trans hs) hus (by rw [h₁]; omega)
  | @simple vs ts ws rs rs' hrs hws hle =>
    have hsee : sees [chr '('] (tokens s) = false := by
      rw [hs]
      exact sees_lpar_simple hrs hws hus
    rw [hsee]
    simp only [List.length_append] at hlen
    rw [List.append_assoc] at hs
    refine (redirs_takes hrs (h₁.trans hs) (hws.sees_redir hus) (by omega)).bind ?_
    intro s₂ h₂
    have hle' : ([] ++ ws).length ≤ maxargs - 1 := hle
    exact args_takes hws h₂ hus hle' (by omega)

theorem parseblock_complete (hline : Complete 4 parseline .line n) : CompleteBlock (n + 1) := by
  intro ts c us rs vs s hd hrs hs hvs hn
  have hlen := congrArg List.length hs
  simp only [List.length_append, List.length_cons] at hlen
  unfold parseblock
  refine takes_peek (by decide) ?_
  intro s₁ h₁
  have hsee : sees [chr '('] (tokens s) = true := by
    rw [hs]
    rfl
  rw [hsee]
  refine takes_gettoken ?_
  intro s₂ h₂
  have hrest : tokens s₂ = ts ++ (.rpar :: us ++ vs) := by
    rw [h₂, h₁, hs, List.cons_append, List.tail_cons, List.append_assoc]
  have hlen₂ := congrArg List.length hrest
  simp only [List.length_append, List.length_cons] at hlen₂
  refine (hline ts c _ s₂ hd hrest (follows_cons (by decide)) (by omega)).bind ?_
  intro s₃ h₃
  refine takes_peek (by decide) ?_
  intro s₄ h₄
  have hsee' : sees [chr ')'] (tokens s₃) = true := by
    rw [h₃]
    rfl
  rw [hsee']
  refine takes_gettoken ?_
  intro s₅ h₅
  rw [h₄, h₃] at h₅
  refine (redirs_takes hrs h₅ (hvs.sees (by decide)) (by omega)).bind ?_
  intro s₆ h₆
  exact .pure h₆

/-- **Completeness**: a parser with enough calls takes every derivation. -/
theorem parser_complete (n : Nat) :
    Complete 4 parseline .line n ∧ Complete 3 parsepipe .pipe n ∧ Complete 2 parseexec .exec n ∧
      CompleteBlock n := by
  induction n with
  | zero =>
    exact ⟨fun _ _ _ _ _ _ _ h => by omega, fun _ _ _ _ _ _ _ h => by omega,
      fun _ _ _ _ _ _ _ h => by omega, fun _ _ _ _ _ _ _ _ _ _ h => by omega⟩
  | succ n ih =>
    obtain ⟨hline, hpipe, hexec, hblock⟩ := ih
    exact ⟨parseline_complete hpipe hline, parsepipe_complete hexec hpipe,
      parseexec_complete hblock, parseblock_complete hline⟩

end Takes

/-! ## The words -/

/-- A stretch of word characters of `s` that goes on until it has to
stop, with the pointers to its ends. -/
def IsWord (s : List UInt8) (w : Span) : Prop :=
  ∃ pre word rest, s = pre ++ (word ++ rest) ∧ w.q = (word ++ rest).length ∧ w.eq = rest.length ∧
    (∀ c ∈ word, wordChar c = true) ∧ ∀ c ∈ rest.head?, wordChar c = false

theorem IsWord.append (h : IsWord s w) (pre : List UInt8) : IsWord (pre ++ s) w := by
  obtain ⟨pre', word, rest, rfl, hw⟩ := h
  exact ⟨pre ++ pre', word, rest, by simp, hw⟩

theorem suffix_skip (s : List UInt8) : skip s <:+ s := List.dropWhile_suffix _

theorem suffix_scan (s : List UInt8) : (scan s).2 <:+ s := by
  cases s with
  | nil => exact List.suffix_rfl
  | cons c t =>
    simp only [scan]
    split
    · exact List.suffix_cons c t
    · split
      · split
        · exact (List.tail_suffix t).trans (List.suffix_cons c t)
        · exact List.suffix_cons c t
      · exact List.dropWhile_suffix _

theorem suffix_token (s : List UInt8) : (token s).2 <:+ s :=
  (suffix_skip _).trans ((suffix_scan _).trans (suffix_skip s))

theorem isWord_of_scan (h : (scan s).1 = some (.word w)) : IsWord s w := by
  cases s with
  | nil => cases h
  | cons c t =>
    simp only [scan] at h
    split at h
    · next tok hs =>
      cases h
      exact absurd (symbol_of_single hs) (by simp [Token.symbol])
    · split at h
      · split at h <;> cases h
      · cases h
        refine ⟨[], (c :: t).takeWhile wordChar, (c :: t).dropWhile wordChar, ?_, ?_, rfl, ?_, ?_⟩
        · rw [List.nil_append, List.takeWhile_append_dropWhile]
        · rw [List.takeWhile_append_dropWhile]
        · intro d hd
          exact List.mem_takeWhile_imp hd
        · intro d hd
          have hstop := List.head?_dropWhile_not wordChar (c :: t)
          rw [Option.mem_def.mp hd] at hstop
          exact hstop

theorem isWord_of_mem_tokens (h : .word w ∈ tokens s) : IsWord s w := by
  fun_induction tokens s with
  | case1 s htok => cases h
  | case2 s tok htok ih =>
    rcases List.mem_cons.mp h with heq | hmem
    · subst heq
      obtain ⟨pre, hpre⟩ := suffix_skip s
      rw [← hpre]
      exact (isWord_of_scan htok).append pre
    · obtain ⟨pre, hpre⟩ := suffix_token s
      rw [← hpre]
      exact (ih hmem).append pre

/-! ### What `nulterminate` writes -/

/-- `*eq = 0` for each of some words. -/
def nuls (ws : List Span) (s : List UInt8) : List UInt8 := ws.foldl (fun s w => nul w.eq s) s

theorem nuls_append (ws ws' : List Span) (s : List UInt8) :
    nuls (ws ++ ws') s = nuls ws' (nuls ws s) :=
  List.foldl_append

theorem nulterminate_eq (c : Cmd) (s : List UInt8) : nulterminate c s = nuls c.words s := by
  induction c generalizing s with
  | exec argv => rfl
  | redir cmd file mode fd ih =>
    rw [nulterminate, Cmd.words, nuls_append, ih]
    rfl
  | pipe left right ihl ihr | list left right ihl ihr =>
    rw [nulterminate, Cmd.words, nuls_append, ihl, ihr]
  | back cmd ih => rw [nulterminate, Cmd.words, ih]

@[simp] theorem length_nul (p : Nat) (s : List UInt8) : (nul p s).length = s.length := by
  simp [nul]

theorem getElem?_nuls (ws : List Span) (s : List UInt8) (i : Nat) :
    (nuls ws s)[i]?
      = if i ∈ ws.map (fun w => s.length - w.eq) then s[i]?.map fun _ => 0 else s[i]? := by
  induction ws generalizing s with
  | nil => simp [nuls]
  | cons w ws ih =>
    have hstep : nuls (w :: ws) s = nuls ws (nul w.eq s) := rfl
    rw [hstep, ih, length_nul]
    by_cases hi : i = s.length - w.eq
    · have hset : (nul w.eq s)[i]? = s[i]?.map fun _ => 0 := by
        rw [nul, ← hi, List.getElem?_set_self']
        rfl
      rw [hset, Option.map_map, List.map_cons, if_pos (List.mem_cons.mpr (.inl hi))]
      exact ite_self _
    · have hset : (nul w.eq s)[i]? = s[i]? := List.getElem?_set_ne (Ne.symm hi)
      simp only [hset, List.map_cons, List.mem_cons, hi, false_or]

theorem length_nuls (ws : List Span) (s : List UInt8) : (nuls ws s).length = s.length := by
  induction ws generalizing s with
  | nil => rfl
  | cons w ws ih => exact (ih (nul w.eq s)).trans (length_nul _ _)

theorem IsWord.end_not_mem {pre : List UInt8} (h : IsWord s w) (hs : s = pre ++ (word ++ rest))
    (hword : ∀ c ∈ word, wordChar c = true) {i : Nat} (hi : i < word.length) :
    pre.length + i ≠ s.length - w.eq := by
  obtain ⟨pre', word', rest', hs', -, heq, -, hstop⟩ := h
  intro hpos
  have hin : s[pre.length + i]? = word[i]? := by
    rw [hs, List.getElem?_append_right (Nat.le_add_right _ _), Nat.add_sub_cancel_left,
      List.getElem?_append_left hi]
  have hlen : s.length = (pre' ++ word').length + rest'.length := by
    rw [hs']
    simp [Nat.add_assoc]
  have hout : s[pre.length + i]? = rest'.head? := by
    have hposition : pre.length + i = (pre' ++ word').length := by omega
    rw [hposition, hs', ← List.append_assoc, List.getElem?_append_right (Nat.le_refl _),
      Nat.sub_self, List.head?_eq_getElem?]
  have hc : word[i]? = some word[i] := List.getElem?_eq_getElem hi
  have htrue := hword word[i] (List.getElem_mem hi)
  have hfalse := hstop word[i] (by rw [← hout, hin, hc]; rfl)
  rw [htrue] at hfalse
  cases hfalse

theorem takeWhile_ne_zero (hword : 0 ∉ word) (hrest : ∀ c ∈ rest.head?, c = 0) :
    (word ++ rest).takeWhile (· ≠ 0) = word := by
  rw [List.takeWhile_append_of_pos]
  · cases rest with
    | nil => simp
    | cons c rest => simp [hrest c rfl]
  · intro c hc
    simp only [ne_eq, decide_not, Bool.not_eq_eq_eq_not, Bool.not_true, decide_eq_false_iff_not]
    exact fun heq => hword (heq ▸ hc)

theorem text_nuls (hws : ∀ w ∈ ws, IsWord s w) (h : IsWord s w) :
    w.text (nuls ws s) = w.text s := by
  obtain ⟨pre, word, rest, hs, hq, heq, hword, -⟩ := h
  have hlen : s.length = w.q + pre.length := by
    rw [hs, hq, List.length_append, Nat.add_comm]
  apply List.ext_getElem?
  intro i
  simp only [Span.text, length_nuls, hlen, Nat.add_sub_cancel_left, List.getElem?_take,
    List.getElem?_drop]
  split
  · next hi =>
    have hi : i < word.length := by
      rw [hq, heq, List.length_append] at hi
      omega
    rw [getElem?_nuls, if_neg]
    intro hmem
    obtain ⟨w', hw', hpos⟩ := List.mem_map.mp hmem
    exact (hws w' hw').end_not_mem hs hword hi hpos.symm
  · rfl

/-- After the ends of some words are overwritten, a pointer to the start
of one of them points to that word. -/
theorem cstring_nuls (h0 : 0 ∉ s) (hws : ∀ w ∈ ws, IsWord s w) (hw : w ∈ ws) :
    cstring w.q (nuls ws s) = w.text s := by
  have htext := text_nuls hws (hws w hw)
  obtain ⟨pre, word, rest, hs, hq, heq, -, -⟩ := hws w hw
  have hle : w.eq ≤ w.q := by
    rw [hq, heq, List.length_append]
    omega
  have hlen : s.length = w.q + pre.length := by
    rw [hs, hq, List.length_append, Nat.add_comm]
  have hzero : 0 ∉ w.text s := fun hmem => h0 (List.mem_of_mem_drop (List.mem_of_mem_take hmem))
  -- what comes after the word is a NUL
  have hnul : ∀ c ∈ (((nuls ws s).drop pre.length).drop (w.q - w.eq)).head?, c = 0 := by
    intro c hc
    have hpos : pre.length + (w.q - w.eq) = s.length - w.eq := by omega
    rw [List.drop_drop, List.head?_drop, getElem?_nuls, hpos,
      if_pos (List.mem_map_of_mem hw)] at hc
    obtain ⟨_, -, hc'⟩ := Option.map_eq_some_iff.mp (Option.mem_def.mp hc)
    exact hc'.symm
  have hcut := List.take_append_drop (w.q - w.eq) ((nuls ws s).drop pre.length)
  rw [Span.text, length_nuls, hlen, Nat.add_sub_cancel_left] at htext
  rw [htext] at hcut
  rw [cstring, length_nuls, hlen, Nat.add_sub_cancel_left, ← hcut]
  exact takeWhile_ne_zero hzero hnul

/-! ### The words of a tree -/

theorem words_foldl_redircmd (rs : List Redir) (c : Cmd) :
    (rs.foldl redircmd c).words = c.words ++ rs.map Redir.file := by
  induction rs generalizing c with
  | nil => simp
  | cons r rs ih =>
    rw [List.foldl_cons, ih]
    simp [redircmd, Cmd.words]

theorem words_back (k : Nat) (c : Cmd) : (Cmd.back^[k] c).words = c.words := by
  induction k generalizing c with
  | zero => rfl
  | succ k ih => exact ih (.back c)

/-- The word that `gettoken` has delimited. -/
def Token.span : Token → Option Span
  | .word w => some w
  | _ => none

theorem Redirs.words (h : Redirs ts rs) : rs.map Redir.file = ts.filterMap Token.span := by
  induction h with
  | nil => rfl
  | @cons t w r ts rs hr hrs ih =>
    cases t <;> simp [Token.redir] at hr <;> simp [← hr, ih, List.filterMap_cons, Token.span]

theorem Words.words (h : Words ts ws rs) :
    (ws ++ rs.map Redir.file).Perm (ts.filterMap Token.span) := by
  induction h with
  | nil => exact .nil
  | @cons w us ts rs rs' ws hus hts ih =>
    simp only [List.map_append, List.cons_append, List.filterMap_cons, List.filterMap_append,
      Token.span, ← hus.words]
    refine .cons w (.trans ?_ (ih.append_left _))
    simp only [← List.append_assoc]
    exact List.perm_append_comm.append_right _

theorem Derives.words {c : Cmd} (h : Derives x ts c) : c.words.Perm (ts.filterMap Token.span) := by
  induction h with
  | line k hc ih => simpa [words_back, List.filterMap_replicate, Token.span] using ih
  | seq k hc hd ihc ihd =>
    simpa [Cmd.words, words_back, List.filterMap_cons, List.filterMap_replicate, Token.span]
      using ihc.append ihd
  | exec hc ih => exact ih
  | pipe hc hd ihc ihd =>
    simpa [Cmd.words, List.filterMap_cons, Token.span] using ihc.append ihd
  | block hc hrs ih =>
    simpa [words_foldl_redircmd, List.filterMap_cons, Token.span, ← hrs.words]
      using ih.append_right _
  | simple hrs hws hle =>
    rw [words_foldl_redircmd, List.map_append, List.filterMap_append, ← hrs.words]
    refine .trans ?_ (hws.words.append_left _)
    simp only [← List.append_assoc]
    exact List.perm_append_comm.append_right _

/-! ## `parsecmd` -/

theorem parseline_whole (s : List UInt8) :
    parseline (4 * s.length + 4) s ≠ .error .spent ∧
      ∀ c, Derives .line (tokens s) c ↔
        ∃ rest, parseline (4 * s.length + 4) s = .ok (c, rest) ∧ skip rest = [] := by
  have hn : 4 * (tokens s).length + 4 ≤ 4 * s.length + 4 := by
    have := length_tokens_le s
    omega
  obtain ⟨hspent, hsound⟩ := (parser_sound _).1 s hn
  refine ⟨hspent, ?_⟩
  intro c
  constructor
  · intro hd
    obtain ⟨rest, hrun, hrest⟩ := (parser_complete _).1 (tokens s) c [] s hd
      (List.append_nil _).symm (by simp [Follows]) hn
    exact ⟨rest, hrun, (tokens_eq_nil_iff rest).mp hrest⟩
  · rintro ⟨rest, hrun, hrest⟩
    obtain ⟨ts, hts, hd⟩ := hsound c rest hrun
    rw [(tokens_eq_nil_iff rest).mpr hrest, List.append_nil] at hts
    rwa [hts]

theorem parsecmd_ok_iff (s : CString) (c : Cmd) (b : List UInt8) :
    parsecmd s = .ok (c, b) ↔ Derives .line (tokens s.1) c ∧ b = nulterminate c s.1 := by
  rw [(parseline_whole s.1).2]
  unfold parsecmd
  cases hrun : parseline (4 * s.1.length + 4) s.1 with
  | error e => simp [Bind.bind, Except.bind]
  | ok r =>
    obtain ⟨c', rest⟩ := r
    simp only [Bind.bind, Except.bind, Except.ok.injEq, Prod.mk.injEq]
    split
    · next hrest =>
      constructor
      · intro h
        cases h
        exact ⟨⟨rest, ⟨rfl, rfl⟩, hrest⟩, rfl⟩
      · rintro ⟨⟨_, ⟨rfl, rfl⟩, -⟩, rfl⟩
        rfl
    rename_i hrest
    constructor
    · intro h
      cases h
    · rintro ⟨⟨_, ⟨rfl, rfl⟩, hrest'⟩, -⟩
      exact absurd hrest' hrest

theorem Derives.isWord {c : Cmd} (h : Derives x (tokens s) c) (hw : w ∈ c.words) : IsWord s w := by
  obtain ⟨tok, hmem, hspan⟩ := List.mem_filterMap.mp (h.words.mem_iff.mp hw)
  cases tok <;> cases hspan
  exact isWord_of_mem_tokens hmem

theorem cstring_parsecmd {s : CString} {c : Cmd} {b : List UInt8} (h : parsecmd s = .ok (c, b))
    (hw : w ∈ c.words) : cstring w.q b = w.text s.1 := by
  obtain ⟨hd, rfl⟩ := (parsecmd_ok_iff s c b).mp h
  rw [nulterminate_eq]
  exact cstring_nuls s.2 (fun _ hw' => hd.isWord hw') hw

/-- **The shell's parser accepts exactly its grammar.** It always ends; it
returns just the trees of the derivations of the string's tokens and
panics if there is none; and the words in the tree are the words of the
string. -/
theorem parsecmd_accepts (s : CString) :
    (∀ c b, parsecmd s = .ok (c, b) ↔ Derives .line (tokens s.1) c ∧ b = nulterminate c s.1) ∧
    (∀ e, parsecmd s = .error e → ∃ msg, e = .panic msg) ∧
    ∀ c b, parsecmd s = .ok (c, b) → ∀ w ∈ c.words, cstring w.q b = w.text s.1 := by
  refine ⟨parsecmd_ok_iff s, ?_, fun _ _ h _ hw => cstring_parsecmd h hw⟩
  have hspent := (parseline_whole s.1).1
  intro e he
  cases e with
  | panic msg => exact ⟨msg, rfl⟩
  | spent =>
    unfold parsecmd at he
    cases hrun : parseline (4 * s.1.length + 4) s.1 with
    | error e =>
      rw [hrun] at he hspent
      exact absurd he hspent
    | ok r =>
      simp only [hrun, Bind.bind, Except.bind] at he
      split at he <;> cases he

/-- **`nulterminate` recovers every word.** The pointers in a tree are those
of the words that `gettoken` delimited, each once; a pointer to a word
points to it afterwards; and whichever of the terminators are written,
no word is altered by them. -/
theorem nulterminate_recovers {s : CString} {c : Cmd} {b : List UInt8}
    (h : parsecmd s = .ok (c, b)) :
    c.words.Perm ((tokens s.1).filterMap Token.span) ∧ b = nuls c.words s.1 ∧
    ∀ w ∈ c.words, cstring w.q b = w.text s.1 ∧
      ∀ ws ⊆ c.words, w.text (nuls ws s.1) = w.text s.1 := by
  obtain ⟨hd, hb⟩ := (parsecmd_ok_iff s c b).mp h
  refine ⟨hd.words, hb.trans (nulterminate_eq c s.1), ?_⟩
  intro w hw
  refine ⟨cstring_parsecmd h hw, ?_⟩
  intro ws hws
  exact text_nuls (fun w' hw' => hd.isWord (hws hw')) (hd.isWord hw)

/-- `a|b` with its pointers, and the string in which `|` is now the end of
the first word. -/
theorem nulterminate_recovers_bar :
    cstring 3 [chr 'a', 0, chr 'b'] = [chr 'a'] ∧ cstring 1 [chr 'a', 0, chr 'b'] = [chr 'b'] := by
  have h : parsecmd ⟨[chr 'a', chr '|', chr 'b'], by decide⟩
      = .ok (.pipe (.exec [⟨3, 2⟩]) (.exec [⟨1, 0⟩]), [chr 'a', 0, chr 'b']) := by
    decide +kernel
  obtain ⟨-, -, hw⟩ := nulterminate_recovers h
  exact ⟨(hw ⟨3, 2⟩ (by decide)).1, (hw ⟨1, 0⟩ (by decide)).1⟩

end Xv6.User.Sh
