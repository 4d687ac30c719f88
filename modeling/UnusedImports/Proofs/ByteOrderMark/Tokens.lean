import UnusedImports.Proofs.LineEnd.Tokens

/-!
Tokens after a byte order mark. The mark is a token of its own, and what follows is cut as if it
stood alone: every step of the lexer is the same step with all offsets moved on by the size of the
mark, and the extra token is trivia, so no slash reads differently for it.
-/
namespace UnusedImports

def Extent.advance (count : Nat) (extent : Extent) : Extent :=
  ⟨extent.start + count, extent.stop + count⟩

def Text.markSize : Nat := Text.byteOrderMark.utf8Size

namespace Token

open UnusedImports.Text

def advance (count : Nat) (token : Token) : Token := { token with start := token.start + count }

def ofMark : Token := ⟨.blank, String.ofList [byteOrderMark], 0, 0⟩

def afterMark (tokens : List Token) : List Token := ofMark :: tokens.map (advance markSize)

def Frame.advance (count : Nat) : Frame → Frame
  | .literal quoting opened => .literal quoting (opened + count)
  | .hole opened braces => .hole (opened + count) braces

namespace Lexer

def marked (lexer : Lexer) : Lexer where
  tokens := lexer.tokens.map (Token.advance markSize) ++ [ofMark]
  reached := lexer.reached + markSize
  frames := lexer.frames.map (Frame.advance markSize)
  piece := lexer.piece
  rest := lexer.rest

section Steps

variable (lexer : Lexer) (c : Char) (rest : List Char)

theorem emit_marked (kind : Kind) (depth : Nat) (text : List Char) :
    lexer.marked.emit kind depth text = (lexer.emit kind depth text).marked := by
  simp only [marked, emit, Token.advance, List.map_cons, List.cons_append, Nat.add_right_comm]

theorem depth_marked : lexer.marked.depth = lexer.depth := by
  have hhole : Frame.isHole ∘ Frame.advance markSize = Frame.isHole := by
    funext frame
    cases frame <;> rfl
  rw [depth, marked, List.countP_map, hhole, depth]

theorem flush_marked : lexer.marked.flush = lexer.flush.marked := by
  unfold flush
  by_cases hpiece : lexer.piece = []
  · simp [marked, hpiece]
  · have hne : lexer.marked.piece ≠ [] := hpiece
    rw [if_neg (by simpa using hne), if_neg (by simpa using hpiece), depth_marked, emit_marked]
    rfl

theorem operandExpected_marked :
    operandExpected lexer.marked.tokens = operandExpected lexer.tokens := by
  have htrivia : (fun token : Token => !token.isTrivia) ∘ Token.advance markSize =
      fun token => !token.isTrivia := rfl
  unfold operandExpected marked
  rw [List.find?_append, List.find?_map, htrivia]
  cases lexer.tokens.find? fun token => !token.isTrivia with
  | none => rfl
  | some token => rfl

theorem countBraces_marked (frames : List Frame) :
    countBraces c (frames.map (Frame.advance markSize)) =
      (countBraces c frames).map (Frame.advance markSize) := by
  cases frames with
  | nil => rfl
  | cons frame outer => cases frame <;> rfl

theorem codeStep_marked :
    (lexer.marked.codeStep c rest).toOption = (lexer.codeStep c rest).toOption.map marked := by
  unfold codeStep
  rw [operandExpected_marked]
  cases head (operandExpected lexer.tokens) c rest with
  | token kind more =>
    simp only [depth_marked, emit_marked, Except.toOption, Option.map_some]
    simp only [marked, countBraces_marked]
  | literal quoting => rfl
  | fault cause more => rfl

theorem namePath_marked (depth : Nat) :
    lexer.marked.namePath depth c rest = (lexer.namePath depth c rest).marked := by
  fun_induction namePath lexer depth c rest with
  | case1 lexer c rest =>
    rename_i next after hafter hstart ih
    rw [namePath_next hafter hstart, emit_marked, emit_marked]
    exact ih
  | case2 lexer c rest =>
    rename_i next after hafter hstart
    have hstop : ∀ first later, rest.dropWhile isNameChar = '.' :: first :: later →
        isShortNameStart first = false := by
      intro first later heq
      obtain ⟨-, heq⟩ := List.cons.inj (hafter.symm.trans heq)
      obtain ⟨rfl, -⟩ := List.cons.inj heq
      simpa using hstart
    rw [namePath_stop hstop, emit_marked, hafter]
    rfl
  | case3 lexer c rest =>
    rename_i hne
    rw [namePath_stop fun first later heq => absurd heq (hne first later), emit_marked]
    rfl

theorem literalStep_marked (quoting : Quoting) (opened reopened : Nat) (outer : List Frame) :
    (lexer.marked.literalStep quoting reopened (outer.map (Frame.advance markSize)) c
        rest).toOption = (lexer.literalStep quoting opened outer c rest).toOption.map marked := by
  unfold literalStep
  split
  · simp only [depth_marked, emit_marked, Except.toOption, Option.map_some]
    rfl
  · split
    · rfl
    · split
      · rfl
      · split
        · rfl
        · split
          · simp only [flush_marked, depth_marked, emit_marked, Except.toOption, Option.map_some]
            rfl
          · split
            · simp only [flush_marked, depth_marked, emit_marked, namePath_marked,
                Except.toOption, Option.map_some]
            · rfl

theorem step_marked :
    (lexer.marked.step c rest).toOption = (lexer.step c rest).toOption.map marked := by
  unfold step
  cases hframes : lexer.frames with
  | nil =>
    have hmarked : lexer.marked.frames = [] := by simp [marked, hframes]
    simp only [hmarked]
    exact codeStep_marked lexer c rest
  | cons frame outer =>
    have hmarked : lexer.marked.frames =
        frame.advance markSize :: outer.map (Frame.advance markSize) := by
      simp [marked, hframes]
    cases frame with
    | literal quoting opened =>
      simp only [hmarked, Frame.advance]
      exact literalStep_marked lexer c rest quoting opened _ outer
    | hole opened braces =>
      cases braces with
      | zero =>
        have hclosed : { lexer.marked with frames := outer.map (Frame.advance markSize), rest } =
          marked { lexer with frames := outer, rest } := rfl
        simp only [hmarked, Frame.advance, hclosed, depth_marked, emit_marked]
        split
        · rfl
        · exact codeStep_marked lexer c rest
      | succ braces =>
        simp only [hmarked, Frame.advance]
        exact codeStep_marked lexer c rest

theorem finish_marked :
    lexer.marked.finish.toOption = lexer.finish.toOption.map Token.afterMark := by
  unfold finish
  cases hframes : lexer.frames with
  | nil =>
    have hmarked : lexer.marked.frames = [] := by simp [marked, hframes]
    simp only [hmarked, Except.toOption, Option.map_some]
    simp [marked, Token.afterMark]
  | cons frame outer =>
    have hmarked : lexer.marked.frames =
        frame.advance markSize :: outer.map (Frame.advance markSize) := by
      simp [marked, hframes]
    cases frame <;> simp [hmarked, Frame.advance, Except.toOption]

end Steps

/-- After a byte order mark a lexer makes the same tokens, moved on. -/
theorem run_marked (lexer : Lexer) :
    lexer.marked.run.toOption = lexer.run.toOption.map Token.afterMark := by
  fun_induction run lexer with
  | case1 lexer hrest =>
    have hmarked : lexer.marked.rest = [] := hrest
    rw [run]
    split
    · exact finish_marked lexer
    · simp_all
  | case2 lexer c rest hrest fault hstep =>
    have hmarked := step_marked lexer c rest
    rw [hstep] at hmarked
    rw [run_cons (show lexer.marked.rest = c :: rest from hrest)]
    cases hnext : lexer.marked.step c rest with
    | error _ => rfl
    | ok _ => simp [hnext, Except.toOption] at hmarked
  | case3 lexer c rest hrest next hstep ih =>
    have hmarked := step_marked lexer c rest
    rw [hstep] at hmarked
    rw [run_cons (show lexer.marked.rest = c :: rest from hrest)]
    cases hnext : lexer.marked.step c rest with
    | error _ => simp [hnext, Except.toOption] at hmarked
    | ok after =>
      rw [hnext] at hmarked
      obtain rfl := Option.some.inj hmarked
      exact ih

theorem afterShebang_marked (lexer : Lexer) :
    lexer.marked.afterShebang = lexer.afterShebang.marked := by
  unfold afterShebang
  have hrest : lexer.marked.rest = lexer.rest := rfl
  rw [hrest]
  split
  · rw [emit_marked]
    rfl
  · rfl

end Lexer

/-- A byte order mark is a token before those of the text. -/
theorem lex_mark {text : List Char} (h : text.head? ≠ some byteOrderMark) :
    (lex (byteOrderMark :: text)).toOption = (lex text).toOption.map afterMark := by
  have hplain : Lexer.afterMark text = ⟨[], 0, [], [], text⟩ := by
    unfold Lexer.afterMark
    split
    · rename_i c rest
      have hc : c ≠ byteOrderMark := by simpa using h
      rw [if_neg hc]
    · rfl
  have hmarked : Lexer.afterMark (byteOrderMark :: text) =
      Lexer.marked ⟨[], 0, [], [], text⟩ := by
    simp [Lexer.afterMark, Lexer.marked, Lexer.emit, ofMark, byteLength, markSize]
  rw [lex, lex, hplain, hmarked, Lexer.afterShebang_marked, Lexer.run_marked]

end Token

end UnusedImports
