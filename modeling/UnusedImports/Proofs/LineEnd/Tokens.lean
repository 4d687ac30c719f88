import UnusedImports.Proofs.LineEnd.Lexer

/-!
The tokens of a text with carriage returns. The lexer on it keeps step with the lexer on the text
without them, with two steps for one where a literal that spans lines takes a line end. There is
one place where they part: a backslash before a line end in a literal that does not span lines. It
takes the line feed with it, but of a carriage return and a line feed only the first, and the
line feed that is left breaks the literal off.
-/
namespace UnusedImports.Token

open UnusedImports.Text

namespace Lexer

/-- Whether a backslash is about to take a line feed into a literal that does not span lines. -/
def folds (lexer : Lexer) (c : Char) (rest : List Char) : Bool :=
  match lexer.frames with
  | .literal quoting _ :: _ => !quoting.spansLines && c == '\\' && rest.head? == some '\n'
  | _ => false

def foldsLine (lexer : Lexer) : Bool :=
  match _hrest : lexer.rest with
  | [] => false
  | c :: rest =>
    lexer.folds c rest ||
      match _hstep : lexer.step c rest with
      | .error _ => false
      | .ok next => next.foldsLine
termination_by lexer.rest.length
decreasing_by
  have shorter := rest_length_step lexer next c rest _hstep
  simp only [_hrest, List.length_cons]
  omega

section Steps

variable {lexer other : Lexer} {c : Char} {rest : List Char}

theorem step_literal {quoting : Quoting} {opened : Nat} {outer : List Frame}
    (hframes : lexer.frames = .literal quoting opened :: outer) :
    lexer.step c rest = lexer.literalStep quoting opened outer c rest := by
  simp only [step, hframes]

/-- In code a step is one of code, unless a brace closes an interpolated expression. -/
theorem step_code (hcode : isCode lexer.frames = true)
    (hopen : ∀ opened outer, lexer.frames = .hole opened 0 :: outer → c ≠ '\x7d') :
    lexer.step c rest = lexer.codeStep c rest := by
  unfold step
  split
  · rename_i hframes
    simp [hframes, isCode] at hcode
  · rename_i opened outer hframes
    exact if_neg (hopen opened outer hframes)
  · rfl

theorem Follows.step_code (h : lexer.Follows other) (hsound : Sound lexer.tokens)
    (hrest : lexer.rest = c :: rest) (hlexer : lexer.step c rest = lexer.codeStep c rest)
    (hother : ∀ d later, d = c ∨ d = '\r' → other.step d later = other.codeStep d later) :
    ∃ result, Together Follows (lexer.step c rest) result ∧ other.run = result.bind run := by
  have hreading := h.rest
  rw [hrest] at hreading
  rw [hlexer]
  by_cases hfeed : c = '\n'
  · subst hfeed
    refine ⟨_, ?_, run_cons hreading⟩
    rw [hother _ _ (Or.inr rfl)]
    exact h.codeStep_feed hrest
  · rw [withReturns_cons hfeed] at hreading
    refine ⟨_, ?_, run_cons hreading⟩
    rw [hother _ _ (Or.inl rfl)]
    exact h.codeStep hsound hrest hfeed

section Literal

variable {quoting : Quoting} {opened : Nat} {outer : List Frame}
  (hframes : lexer.frames = .literal quoting opened :: outer)

include hframes

theorem run_of_literalStep {next : Lexer} (hrest : lexer.rest = c :: rest)
    (hstep : lexer.literalStep quoting opened outer c rest = .ok next) : lexer.run = next.run := by
  rw [run_cons hrest, step_literal hframes, hstep]
  rfl

/-- A line end in a literal that spans lines is read in two steps. -/
theorem run_line (hspans : quoting.spansLines = true) (hrest : lexer.rest = '\r' :: '\n' :: rest) :
    lexer.run = run { lexer with piece := '\n' :: '\r' :: lexer.piece, rest } := by
  have hafter : frames { lexer with piece := '\r' :: lexer.piece, rest := '\n' :: rest } =
      .literal quoting opened :: outer := hframes
  rw [run_of_literalStep hframes hrest (literalStep_line hspans (Or.inr rfl))]
  exact run_of_literalStep hafter rfl (literalStep_line hspans (Or.inl rfl))

/-- A backslash takes a line end into a literal that spans lines, in two steps. -/
theorem run_folded (hspans : quoting.spansLines = true)
    (hescapes : quoting.escapes '\\' '\n' = true)
    (hrest : lexer.rest = '\\' :: '\r' :: '\n' :: rest) :
    lexer.run = run { lexer with piece := '\n' :: '\r' :: '\\' :: lexer.piece, rest } := by
  have hreturn := (escapes_return quoting '\\').trans hescapes
  have hafter : frames { lexer with piece := '\r' :: '\\' :: lexer.piece, rest := '\n' :: rest } =
      .literal quoting opened :: outer := hframes
  rw [run_of_literalStep hframes hrest (literalStep_backslash hreturn)]
  exact run_of_literalStep hafter rfl (literalStep_line hspans (Or.inl rfl))

/-- A backslash does not take a line end of two characters into a literal that does not span
lines. -/
theorem exists_fault_folded (hspans : quoting.spansLines = false)
    (hrest : lexer.rest = '\\' :: '\r' :: '\n' :: rest) :
    ∃ fault, lexer.run = .error fault := by
  have hescapes : quoting.escapes '\\' '\r' = true := by
    cases quoting with
    | dollarSlashy => simp [Quoting.spansLines] at hspans
    | _ => rfl
  have hafter : frames { lexer with piece := '\r' :: '\\' :: lexer.piece, rest := '\n' :: rest } =
      .literal quoting opened :: outer := hframes
  rw [run_of_literalStep hframes hrest (literalStep_backslash hescapes), run_cons rfl,
    step_literal hafter, literalStep_break hspans (Or.inl rfl)]
  exact ⟨_, rfl⟩

end Literal

theorem Follows.step_literal (h : lexer.Follows other) {quoting : Quoting}
    {opened reopened : Nat} {outer reouter : List Frame}
    (hframes : lexer.frames = .literal quoting opened :: outer)
    (hother : other.frames = .literal quoting reopened :: reouter)
    (houter : List.Forall₂ Frame.Mirrors outer reouter) (hrest : lexer.rest = c :: rest)
    (hfolds : lexer.folds c rest = false) :
    ∃ result, Together Follows (lexer.step c rest) result ∧ other.run = result.bind run := by
  have hreading := h.rest
  rw [hrest] at hreading
  rw [Lexer.step_literal hframes]
  by_cases hfeed : c = '\n'
  · subst hfeed
    cases hspans : quoting.spansLines with
    | true =>
      refine ⟨.ok _, ?_, run_line hother hspans hreading⟩
      rw [literalStep_line hspans (Or.inl rfl)]
      exact Together.ok (h.extend ['\n'] hrest)
    | false =>
      refine ⟨_, ?_, run_cons hreading⟩
      rw [Lexer.step_literal hother, literalStep_break hspans (Or.inl rfl),
        literalStep_break hspans (Or.inr rfl)]
      exact Together.error _ _
  rw [withReturns_cons hfeed] at hreading
  by_cases hescapes : rest.head? = some '\n' ∧ quoting.escapes c '\n' = true
  · obtain ⟨hnext, hescapes⟩ := hescapes
    obtain ⟨after, rfl⟩ := List.head?_eq_some_iff.mp hnext
    have hc : c = '\\' := by
      cases quoting with
      | dollarSlashy => simp [Quoting.escapes] at hescapes
      | _ => simpa [Quoting.escapes] using hescapes
    subst hc
    have hspans : quoting.spansLines = true := by simpa [folds, hframes] using hfolds
    refine ⟨.ok _, ?_, run_folded hother hspans hescapes hreading⟩
    rw [literalStep_backslash hescapes]
    exact Together.ok (h.extend ['\\', '\n'] hrest)
  · refine ⟨_, ?_, run_cons hreading⟩
    rw [Lexer.step_literal hother]
    exact h.literalStep houter hrest hfeed fun hnext => by simpa [hnext] using hescapes

/-- The brace that closes an interpolated expression is read on both sides. -/
theorem Follows.closeHole (h : lexer.Follows other) {outer reouter : List Frame}
    (houter : List.Forall₂ Frame.Mirrors outer reouter) (hrest : lexer.rest = '\x7d' :: rest) :
    Follows
      ({ lexer with frames := outer, rest }.emit .interpolationEnd
        (depth { lexer with frames := outer, rest }) ['\x7d'])
      ({ other with frames := reouter, rest := withReturns rest }.emit .interpolationEnd
        (depth { other with frames := reouter, rest := withReturns rest }) ['\x7d']) := by
  have hmirrors : Mirrors { lexer with frames := outer, rest }
      { other with frames := reouter, rest := withReturns rest } := ⟨h.tokens, houter, h.piece⟩
  rw [hmirrors.depth]
  exact ⟨hmirrors.emit _ _ rfl, rfl, (h.not_return hrest).2⟩

/-- Step by step the second lexer comes as far as the first, or both fail. -/
theorem Follows.step (h : lexer.Follows other) (hsound : Sound lexer.tokens)
    (hrest : lexer.rest = c :: rest) (hfolds : lexer.folds c rest = false) :
    ∃ result, Together Follows (lexer.step c rest) result ∧ other.run = result.bind run := by
  -- Code is read in the same way outside of all literals and in an interpolated expression; only
  -- a brace that closes the expression is not left to it.
  have hcode : isCode lexer.frames = true → isCode other.frames = true →
      (c = '\x7d' → ∀ opened outer, lexer.frames ≠ .hole opened 0 :: outer ∧
        other.frames ≠ .hole opened 0 :: outer) →
      ∃ result, Together Follows (lexer.step c rest) result ∧ other.run = result.bind run := by
    intro hlexer hother hopen
    refine h.step_code hsound hrest
      (Lexer.step_code hlexer fun _ _ heq hc => (hopen hc _ _).1 heq) ?_
    rintro d later (rfl | rfl)
    · exact Lexer.step_code hother fun _ _ heq hc => (hopen hc _ _).2 heq
    · exact Lexer.step_code hother fun _ _ _ => by decide
  have hframes := h.frames
  generalize hlexer : lexer.frames = frames at hframes hcode
  generalize hother : other.frames = reframes at hframes hcode
  cases hframes with
  | nil => exact hcode rfl rfl (by simp)
  | cons hframe houter =>
    cases hframe with
    | literal quoting opened reopened => exact h.step_literal hlexer hother houter hrest hfolds
    | hole opened reopened braces =>
      by_cases hclose : braces = 0 ∧ c = '\x7d'
      · obtain ⟨rfl, rfl⟩ := hclose
        have hreading := h.rest
        rw [hrest, withReturns_cons (by decide)] at hreading
        refine ⟨_, ?_, run_cons hreading⟩
        simp only [Lexer.step, hlexer, hother, if_pos]
        exact Together.ok (h.closeHole houter hrest)
      · refine hcode rfl rfl fun hc opened outer => ?_
        have hbraces : braces ≠ 0 := fun hzero => hclose ⟨hzero, hc⟩
        simp [hbraces]

/-- A line end that a backslash takes into a literal which does not span lines ends the reading
of the text with carriage returns. -/
theorem Follows.exists_fault (h : lexer.Follows other) (hrest : lexer.rest = c :: rest)
    (hfolds : lexer.folds c rest = true) : ∃ fault, other.run = .error fault := by
  have hframes := h.frames
  have hreading := h.rest
  unfold folds at hfolds
  split at hfolds
  · rename_i quoting opened outer hlexer
    simp only [Bool.and_eq_true, Bool.not_eq_true', beq_iff_eq] at hfolds
    obtain ⟨⟨hspans, rfl⟩, hnext⟩ := hfolds
    obtain ⟨after, rfl⟩ := List.head?_eq_some_iff.mp hnext
    rw [hrest, withReturns_cons (by decide), withReturns_feed] at hreading
    rw [hlexer] at hframes
    generalize hother : other.frames = reframes at hframes
    cases hframes with
    | cons hframe houter =>
      cases hframe with
      | literal quoting opened reopened => exact exists_fault_folded hother hspans hreading
  · simp at hfolds

end Steps

section Runs

variable {text : List Char} {lexer other : Lexer}

theorem Mirrors.finish (h : lexer.Mirrors other) :
    Together (List.Forall₂ Token.Mirrors) lexer.finish other.finish := by
  have hframes := h.frames
  unfold Lexer.finish
  generalize lexer.frames = frames at hframes
  generalize other.frames = reframes at hframes
  cases hframes with
  | nil => exact Together.ok (List.forall₂_reverse_iff.mpr h.tokens)
  | cons hframe houter => cases hframe <;> exact Together.error _ _

theorem foldsLine_cons {c : Char} {rest : List Char} (h : lexer.rest = c :: rest) :
    lexer.foldsLine = (lexer.folds c rest || (lexer.step c rest).toOption.any foldsLine) := by
  rw [foldsLine]
  split
  · simp_all
  · rename_i heq
    obtain ⟨rfl, rfl⟩ := List.cons.inj (h.symm.trans heq)
    congr 1
    split
    · rename_i hstep
      rw [hstep]
      rfl
    · rename_i hstep
      rw [hstep]
      rfl

/-- If a backslash takes a line feed into a literal that does not span lines, the text with
carriage returns cannot be cut into tokens. -/
theorem Follows.exists_fault_run (h : lexer.Follows other) (hinvariant : Invariant text lexer)
    (hfolds : lexer.foldsLine = true) : ∃ fault, other.run = .error fault := by
  -- The induction follows the steps without carriage returns; each is matched by one step or two.
  fun_induction Lexer.run lexer generalizing other with
  | case1 lexer hrest =>
    rw [foldsLine] at hfolds
    split at hfolds
    · simp at hfolds
    · simp_all
  | case2 lexer c rest hrest fault hstep =>
    rw [foldsLine_cons hrest, hstep] at hfolds
    exact h.exists_fault hrest (by simpa [Except.toOption] using hfolds)
  | case3 lexer c rest hrest next hstep ih =>
    rw [foldsLine_cons hrest, hstep] at hfolds
    cases hnow : lexer.folds c rest with
    | true => exact h.exists_fault hrest hnow
    | false =>
      obtain ⟨result, htogether, hrun⟩ := h.step hinvariant.laid.sound hrest hnow
      rw [hstep] at htogether
      cases htogether with
      | ok hnext =>
        rw [hrun]
        exact ih hnext (hinvariant.step hrest hstep) (by simpa [hnow, Except.toOption] using hfolds)

/-- Otherwise the tokens are the same but for the carriage returns. -/
theorem Follows.run (h : lexer.Follows other) (hinvariant : Invariant text lexer)
    (hfolds : lexer.foldsLine = false) :
    Together (List.Forall₂ Token.Mirrors) lexer.run other.run := by
  fun_induction Lexer.run lexer generalizing other with
  | case1 lexer hrest =>
    have hreading := h.rest
    rw [hrest, withReturns_nil] at hreading
    rw [Lexer.run]
    split
    · exact h.finish
    · simp_all
  | case2 lexer c rest hrest fault hstep =>
    rw [foldsLine_cons hrest, Bool.or_eq_false_iff] at hfolds
    obtain ⟨result, htogether, hrun⟩ := h.step hinvariant.laid.sound hrest hfolds.1
    rw [hstep] at htogether
    cases htogether with
    | error _ other =>
      rw [hrun]
      exact Together.error _ _
  | case3 lexer c rest hrest next hstep ih =>
    rw [foldsLine_cons hrest, hstep, Bool.or_eq_false_iff] at hfolds
    obtain ⟨result, htogether, hrun⟩ := h.step hinvariant.laid.sound hrest hfolds.1
    rw [hstep] at htogether
    cases htogether with
    | ok hnext =>
      rw [hrun]
      exact ih hnext (hinvariant.step hrest hstep) hfolds.2

theorem follows_afterMark (hreturn : '\r' ∉ text) :
    (afterMark text).Follows (afterMark (withReturns text)) := by
  have hplain : Follows ⟨[], 0, [], [], text⟩ ⟨[], 0, [], [], withReturns text⟩ :=
    ⟨⟨List.Forall₂.nil, List.Forall₂.nil, rfl⟩, rfl, hreturn⟩
  cases text with
  | nil => exact hplain
  | cons c rest =>
    by_cases hfeed : c = '\n'
    · subst hfeed
      exact hplain
    · rw [withReturns_cons hfeed] at hplain ⊢
      unfold afterMark
      simp only
      split
      · refine ⟨⟨?_, List.Forall₂.nil, rfl⟩, rfl, fun hmem => hreturn (List.mem_cons_of_mem c hmem)⟩
        refine List.Forall₂.cons ⟨rfl, rfl, ?_⟩ List.Forall₂.nil
        simp [withReturns_cons hfeed]
      · exact hplain

/-- The comment of a first line that names an interpreter ends before the line end. -/
theorem Follows.afterShebang (h : lexer.Follows other) :
    lexer.afterShebang.Follows other.afterShebang := by
  have hreading := h.rest
  unfold Lexer.afterShebang
  split
  · rename_i rest hrest
    have hnoReturn := (h.not_return hrest).2
    rw [hrest, withReturns_cons (by decide), withReturns_cons (by decide)] at hreading
    have hline := length_withReturns_take (not_mem_take_lineLength ('!' :: rest))
      (lineLength_le ('!' :: rest))
    have htake := take_withReturns (lineLength ('!' :: rest)) ('!' :: rest)
    have hdrop := drop_withReturns (lineLength ('!' :: rest)) ('!' :: rest)
    have hlength := lineLength_withReturns hnoReturn
    rw [hline] at htake hdrop
    rw [withReturns_cons (by decide)] at htake hdrop hlength
    simp only [hreading, hlength, htake, hdrop]
    have hemit := h.emit .comment 0 (withReturns_cons (by decide : '#' ≠ '\n')
      (('!' :: rest).take (lineLength ('!' :: rest)))).symm
    exact ⟨⟨hemit.tokens, h.frames, h.piece⟩, rfl,
      fun hmem => hnoReturn (List.mem_of_mem_drop hmem)⟩
  · rename_i hne
    split
    · rename_i rest hother
      have hprefix : ['#', '!'].isPrefixOf (withReturns lexer.rest) =
          ['#', '!'].isPrefixOf lexer.rest := isPrefixOf_withReturns (by decide) (by decide) _
      rw [← hreading, hother] at hprefix
      obtain ⟨later, hlater⟩ := List.isPrefixOf_iff_prefix.mp
        (show ['#', '!'].isPrefixOf lexer.rest = true from hprefix.symm)
      exact absurd hlater.symm (hne later)
    · exact h

end Runs

end Lexer

def foldsLine (text : List Char) : Bool := (Lexer.afterMark text).afterShebang.foldsLine

section Texts

variable {text : List Char} (hreturn : '\r' ∉ text)

include hreturn

theorem exists_fault_lex (hfolds : foldsLine text = true) :
    ∃ fault, lex (withReturns text) = .error fault :=
  (Lexer.follows_afterMark hreturn).afterShebang.exists_fault_run
    ((Lexer.Invariant.afterMark text).afterShebang (Lexer.frames_afterMark text)) hfolds

theorem together_lex (hfolds : foldsLine text = false) :
    Together (List.Forall₂ Mirrors) (lex text) (lex (withReturns text)) :=
  (Lexer.follows_afterMark hreturn).afterShebang.run
    ((Lexer.Invariant.afterMark text).afterShebang (Lexer.frames_afterMark text)) hfolds

end Texts

end UnusedImports.Token
