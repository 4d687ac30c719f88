import UnusedImports.Token.Head

/-!
Cutting a text into tokens. The lexer is a machine with a stack of what is open around the
text still to be read: string literals, and expressions interpolated into them, in turn.
Each step reads at least one character, and what was read is exactly the texts of the
tokens made so far followed by the literal piece that is not yet a token.
-/
namespace UnusedImports.Token

open UnusedImports.Text

inductive Frame where
  /-- A string literal whose opening delimiter starts at the offset `opened`. -/
  | literal (quoting : Quoting) (opened : Nat)
  /-- An interpolated expression in braces whose opening sign starts at `opened`, with the
  number of braces open inside it. -/
  | hole (opened : Nat) (braces : Nat)
deriving DecidableEq

namespace Frame

def isHole : Frame → Bool
  | .literal .. => false
  | .hole .. => true

end Frame

structure Lexer where
  /-- The tokens made so far, the latest first. -/
  tokens : List Token
  /-- The offset just past those tokens. -/
  reached : Nat
  /-- What is open, the innermost first; nothing is open in the code of the file itself. -/
  frames : List Frame
  /-- The characters of the current literal piece, the latest first. -/
  piece : List Char
  /-- The characters still to be read. -/
  rest : List Char

namespace Lexer

def cursor (lexer : Lexer) : Nat := lexer.reached + byteLength lexer.piece

def depth (lexer : Lexer) : Nat := lexer.frames.countP Frame.isHole

def emit (lexer : Lexer) (kind : Kind) (depth : Nat) (text : List Char) : Lexer :=
  { lexer with
    tokens := ⟨kind, String.ofList text, lexer.reached, depth⟩ :: lexer.tokens
    reached := lexer.reached + byteLength text }

def flush (lexer : Lexer) : Lexer :=
  if lexer.piece.isEmpty then lexer
  else { lexer.emit .literal lexer.depth lexer.piece.reverse with piece := [] }

/-- Whether an operand may start here, so that a slash opens a literal: the last token that
is not trivia does not end an operand. -/
def operandExpected (tokens : List Token) : Bool :=
  match tokens.find? fun token => !token.isTrivia with
  | none => true
  | some token =>
    match token.kind with
    | .identifier | .number | .literal | .interpolationEnd => false
    | .keyword => !Lexicon.isValueWord token.text
    | .operator => !Lexicon.endsOperand token.text
    | .interpolationStart | .comment | .blank | .newline => true

def countBrace (c : Char) (braces : Nat) : Nat :=
  if c = '\x7b' then braces + 1 else if c = '\x7d' then braces - 1 else braces

/-- The frames after a token of code that starts with `c`: braces are counted in an
interpolated expression and nowhere else. -/
def countBraces (c : Char) : List Frame → List Frame
  | .hole opened braces :: outer => .hole opened (countBrace c braces) :: outer
  | frames => frames

def codeStep (lexer : Lexer) (c : Char) (rest : List Char) : Except LexFault Lexer :=
  match head (operandExpected lexer.tokens) c rest with
  | .token kind more =>
    .ok { lexer.emit kind lexer.depth (c :: rest.take more) with
      frames := countBraces c lexer.frames
      rest := rest.drop more }
  | .literal quoting =>
    .ok { lexer with
      frames := .literal quoting lexer.reached :: lexer.frames
      piece := quoting.opening.reverse
      rest := rest.drop (quoting.opening.length - 1) }
  | .fault cause more =>
    .error ⟨cause, lexer.reached, lexer.reached + byteLength (c :: rest.take more)⟩

/-- Reads the name after a `$` in literal text, whose first character is `c`, and the names
joined to it by points; the tokens stand at the given depth. -/
def namePath (lexer : Lexer) (depth : Nat) (c : Char) (rest : List Char) : Lexer :=
  let word := c :: rest.takeWhile isNameChar
  let lexer := lexer.emit (wordKind word) depth word
  match _h : rest.dropWhile isNameChar with
  | '.' :: next :: after =>
    if isShortNameStart next then namePath (lexer.emit .operator depth ['.']) depth next after
    else { lexer with rest := '.' :: next :: after }
  | after => { lexer with rest := after }
termination_by rest.length
decreasing_by
  have shorter := (List.dropWhile_sublist isNameChar (l := rest)).length_le
  simp only [_h, List.length_cons] at shorter
  omega

def literalStep (lexer : Lexer) (quoting : Quoting) (opened : Nat) (outer : List Frame)
    (c : Char) (rest : List Char) : Except LexFault Lexer :=
  if quoting.closing.isPrefixOf (c :: rest) then
    .ok { lexer.emit .literal lexer.depth (lexer.piece.reverse ++ quoting.closing) with
      frames := outer
      piece := []
      rest := rest.drop (quoting.closing.length - 1) }
  else if (c = '\n' ∨ c = '\r') ∧ !quoting.spansLines then
    .error ⟨.unterminatedString, opened, lexer.cursor⟩
  else
    match rest with
    | [] => .ok { lexer with piece := c :: lexer.piece, rest := [] }
    | next :: after =>
      if quoting.escapes c next then
        .ok { lexer with piece := next :: c :: lexer.piece, rest := after }
      else if c = '$' ∧ quoting.interpolates ∧ next = '\x7b' then
        let lexer := lexer.flush
        .ok { lexer.emit .interpolationStart lexer.depth ['$', '\x7b'] with
          frames := .hole lexer.reached 0 :: lexer.frames
          rest := after }
      else if c = '$' ∧ quoting.interpolates ∧ isShortNameStart next then
        let lexer := lexer.flush
        let depth := lexer.depth
        .ok (((lexer.emit .interpolationStart depth ['$']).namePath (depth + 1) next after).emit
          .interpolationEnd depth [])
      else .ok { lexer with piece := c :: lexer.piece, rest := next :: after }

def step (lexer : Lexer) (c : Char) (rest : List Char) : Except LexFault Lexer :=
  match lexer.frames with
  | .literal quoting opened :: outer => lexer.literalStep quoting opened outer c rest
  | .hole _ 0 :: outer =>
    if c = '\x7d' then
      let lexer := { lexer with frames := outer, rest }
      .ok (lexer.emit .interpolationEnd lexer.depth ['\x7d'])
    else lexer.codeStep c rest
  | _ => lexer.codeStep c rest

def outermostHole (inner : Nat) : List Frame → Nat
  | [] => inner
  | .hole opened _ :: outer => outermostHole opened outer
  | .literal .. :: outer => outermostHole inner outer

def finish (lexer : Lexer) : Except LexFault (List Token) :=
  match lexer.frames with
  | [] => .ok lexer.tokens.reverse
  | .literal _ opened :: _ => .error ⟨.unterminatedString, opened, lexer.cursor⟩
  | .hole opened _ :: outer =>
    .error ⟨.unterminatedInterpolation, outermostHole opened outer, lexer.cursor⟩

theorem rest_length_namePath (lexer : Lexer) (depth : Nat) (c : Char) (rest : List Char) :
    (lexer.namePath depth c rest).rest.length ≤ rest.length := by
  fun_induction namePath lexer depth c rest with
  | case1 lexer c rest word lexer' next after h hstart ih =>
    have shorter := (List.dropWhile_sublist isNameChar (l := rest)).length_le
    simp only [h, List.length_cons] at shorter
    omega
  | case2 lexer c rest word lexer' next after h hstart =>
    have shorter := (List.dropWhile_sublist isNameChar (l := rest)).length_le
    simpa only [h] using shorter
  | case3 lexer c rest word lexer' hne =>
    exact (List.dropWhile_sublist isNameChar (l := rest)).length_le

/-- Every step reads a character. -/
theorem rest_length_step (lexer next : Lexer) (c : Char) (rest : List Char)
    (h : lexer.step c rest = .ok next) : next.rest.length ≤ rest.length := by
  have code : ∀ next : Lexer, lexer.codeStep c rest = .ok next →
      next.rest.length ≤ rest.length := by
    intro next h
    unfold codeStep at h
    split at h <;> simp only [Except.ok.injEq, reduceCtorEq] at h <;> subst h <;>
      simp only [List.length_drop] <;> omega
  unfold step at h
  split at h
  · unfold literalStep at h
    split at h
    · simp only [Except.ok.injEq] at h
      subst h
      simp only [List.length_drop]
      omega
    split at h
    · simp only [reduceCtorEq] at h
    split at h
    · simp only [Except.ok.injEq] at h
      subst h
      exact Nat.le_refl _
    split at h
    · simp only [Except.ok.injEq] at h
      subst h
      exact Nat.le_succ _
    split at h
    · simp only [Except.ok.injEq] at h
      subst h
      exact Nat.le_succ _
    split at h
    · simp only [Except.ok.injEq] at h
      subst h
      exact Nat.le_succ_of_le (rest_length_namePath ..)
    · simp only [Except.ok.injEq] at h
      subst h
      exact Nat.le_refl _
  · split at h
    · simp only [Except.ok.injEq] at h
      subst h
      exact Nat.le_refl _
    · exact code next h
  · exact code next h

def run (lexer : Lexer) : Except LexFault (List Token) :=
  match _hrest : lexer.rest with
  | [] => lexer.finish
  | c :: rest =>
    match _hstep : lexer.step c rest with
    | .error fault => .error fault
    | .ok next => next.run
termination_by lexer.rest.length
decreasing_by
  have shorter := rest_length_step lexer next c rest _hstep
  simp only [_hrest, List.length_cons]
  omega

/-- The lexer at the start of a text: a byte order mark there counts as white space. -/
def afterMark (text : List Char) : Lexer :=
  match text with
  | c :: rest =>
    if c = byteOrderMark then Lexer.emit ⟨[], 0, [], [], rest⟩ .blank 0 [c]
    else ⟨[], 0, [], [], text⟩
  | [] => ⟨[], 0, [], [], []⟩

def afterShebang (lexer : Lexer) : Lexer :=
  match lexer.rest with
  | '#' :: '!' :: rest =>
    { lexer.emit .comment 0 ('#' :: ('!' :: rest).take (lineLength ('!' :: rest))) with
      rest := ('!' :: rest).drop (lineLength ('!' :: rest)) }
  | _ => lexer

end Lexer

def lex (text : List Char) : Except LexFault (List Token) :=
  (Lexer.afterMark text).afterShebang.run

end UnusedImports.Token
