import Mathlib.Data.List.Basic
import UnusedImports.Proofs.Token.Moves

/-!
The slash in code. After an operand it divides, elsewhere it opens a literal, and the lexer tells
the two apart by the last token that is not trivia. What ends an operand never comes before a
literal that a slash opens. A keyword does not end an operand, not even where it names a member, so
after such a name a slash opens a literal as well.
-/
namespace UnusedImports.Token

open UnusedImports.Text

def significantBefore (tokens : List Token) (position : Nat) : List Token :=
  (tokens.take position).reverse.filter fun token => !token.isTrivia

def EndsOperand (token : Token) : Prop :=
  match token.kind with
  | .identifier | .number | .literal | .interpolationEnd => True
  | .keyword => token.text ∈ ["this", "super", "true", "false", "null"]
  | .operator => token.text ∈ [")", "]", "\x7d", "++", "--"]
  | .interpolationStart | .comment | .blank | .newline => False

/-- The latest of the tokens is a word of this kind that names a member of a receiver. -/
def NamesMember (kind : Kind) (latest : List Token) : Prop :=
  ∃ word access earlier, latest = word :: access :: earlier ∧ word.kind = kind ∧
    access.kind = .operator ∧ access.text ∈ [".", "?.", "*.", ".&", ".@", "::"]

def OperandEnds (latest : List Token) : Prop :=
  (∃ last, latest.head? = some last ∧ EndsOperand last) ∨ NamesMember .identifier latest ∨
    NamesMember .keyword latest

/-- At the position stands the first piece of a literal that a slash opens: a piece that begins with
a slash and does not go on behind an interpolated expression. -/
def OpensSlashy (tokens : List Token) (position : Nat) : Prop :=
  ∃ token, tokens[position]? = some token ∧ token.kind = .literal ∧
    token.text.toList.head? = some '/' ∧
    ∀ last, (tokens.take position).getLast? = some last → last.kind ≠ .interpolationEnd

def SlashyOpened (text : List Char) (earlier : List Token) : Prop :=
  ∃ lexer next rest, Lexer.Reads text lexer ∧ lexer.tokens = earlier ∧ lexer.rest = '/' :: rest ∧
    lexer.step '/' rest = .ok next ∧ next.frames = .literal .slashy lexer.reached :: lexer.frames

section Slashes

theorem head?_significantBefore (tokens : List Token) (position : Nat) :
    (significantBefore tokens position).head? =
      (tokens.take position).reverse.find? fun token => !token.isTrivia :=
  List.head?_filter ..

theorem operandExpected_eq_false_iff {earlier : List Token} :
    Lexer.operandExpected earlier = false ↔
      ∃ last, (earlier.find? fun token => !token.isTrivia) = some last ∧ EndsOperand last := by
  unfold Lexer.operandExpected
  cases hlast : earlier.find? fun token => !token.isTrivia with
  | none => simp
  | some last =>
    simp only [Option.some.injEq, exists_eq_left', EndsOperand]
    cases last.kind <;> simp only [Lexicon.isValueWord, Lexicon.endsOperand, Bool.not_eq_false',
      List.contains_iff_mem, reduceCtorEq]

/-- A slash that starts no comment opens a literal where an operand is expected, and is an operator
anywhere else. -/
theorem head_slash (operand : Bool) (rest : List Char) :
    (∃ more, head operand '/' rest = .token .comment more) ∨
      (∃ cause more, head operand '/' rest = .fault cause more) ∨
      (head operand '/' rest = .literal .slashy ∧ operand = true) ∨
      ∃ more, head operand '/' rest = .token .operator more ∧ operand = false := by
  have hspace : isWhiteSpace '/' = false := by decide
  have hname : isNameStart '/' = false := by decide
  have hdigit : isAsciiDigit '/' = false := by decide
  simp only [head, hspace, hname, hdigit, reduceCtorEq, Char.reduceEq, false_and, true_and,
    if_false]
  split
  · exact Or.inl ⟨_, rfl⟩
  split
  · split
    · exact Or.inl ⟨_, rfl⟩
    · exact Or.inr (Or.inl ⟨_, _, rfl⟩)
  split
  · rename_i hoperand
    exact Or.inr (Or.inr (Or.inl ⟨rfl, hoperand⟩))
  rename_i hoperand
  split
  · exact Or.inr (Or.inr (Or.inr ⟨_, rfl, Bool.eq_false_iff.mpr hoperand⟩))
  · exact Or.inr (Or.inl ⟨_, _, rfl⟩)

/-- A slash is an operator only where no operand is expected. -/
theorem operand_of_head_operator {operand : Bool} {rest : List Char} {more : Nat}
    (h : head operand '/' rest = .token .operator more) : operand = false := by
  obtain ⟨_, hhead⟩ | ⟨_, _, hhead⟩ | ⟨hhead, -⟩ | ⟨_, -, hoperand⟩ := head_slash operand rest
  · simp [hhead] at h
  · simp [hhead] at h
  · simp [hhead] at h
  · exact hoperand

/-- A slash opens a literal only where an operand is expected. -/
theorem operand_of_head_literal {operand : Bool} {rest : List Char} {quoting : Quoting}
    (h : head operand '/' rest = .literal quoting) : operand = true ∧ quoting = .slashy := by
  obtain ⟨_, hhead⟩ | ⟨_, _, hhead⟩ | ⟨hhead, hoperand⟩ | ⟨_, hhead, -⟩ := head_slash operand rest
  · simp [hhead] at h
  · simp [hhead] at h
  · exact ⟨hoperand, (Head.literal.inj (hhead.symm.trans h)).symm⟩
  · simp [hhead] at h

end Slashes

namespace Lexer

section Reading

variable {text : List Char} {lexer next : Lexer} {c : Char} {rest : List Char}

/-- What is made of the slashes in tokens, the latest first: a token that is an operator with a
slash in front stands where no operand is expected, and a literal with one in front is opened by it
or goes on behind an interpolated expression. -/
inductive SlashesRead (text : List Char) : List Token → Prop
  | nil : SlashesRead text []
  | cons {token : Token} {earlier : List Token}
      (hdivides : token.kind = .operator → token.text.toList.head? = some '/' →
        operandExpected earlier = false)
      (hopens : token.kind = .literal → token.text.toList.head? = some '/' →
        (∃ last, earlier.head? = some last ∧ last.kind = .interpolationEnd) ∨
          SlashyOpened text earlier)
      (hearlier : SlashesRead text earlier) : SlashesRead text (token :: earlier)

/-- The lexer keeps slashes apart: a slash in front of the piece under way opens it, unless the
piece goes on behind an interpolated expression. -/
structure KeepsSlashes (text : List Char) (lexer : Lexer) : Prop where
  read : SlashesRead text lexer.tokens
  piece : isCode lexer.frames = false →
    (∃ last, lexer.tokens.head? = some last ∧ last.kind = .interpolationEnd) ∨
      lexer.piece ≠ [] ∧ (lexer.piece.getLast? = some '/' → SlashyOpened text lexer.tokens)

/-- Tokens that are neither pieces of literals nor operators with a slash in front may follow. -/
theorem SlashesRead.append {tokens later : List Token} (h : SlashesRead text tokens)
    (hlater : ∀ token ∈ later, token.kind ≠ .literal ∧
      (token.kind = .operator → token.text.toList.head? ≠ some '/')) :
    SlashesRead text (later ++ tokens) := by
  induction later with
  | nil => exact h
  | cons token later ih =>
    obtain ⟨⟨hliteral, hoperator⟩, hlater⟩ := List.forall_mem_cons.mp hlater
    exact .cons (fun hkind hslash => absurd hslash (hoperator hkind))
      (fun hkind => absurd hkind hliteral) (ih hlater)

/-- The piece under way becomes a token, with some of the text behind it. -/
theorem KeepsSlashes.literal (h : KeepsSlashes text lexer) (hliteral : isCode lexer.frames = false)
    (more : List Char) (depth : Nat) :
    SlashesRead text
      (⟨.literal, String.ofList (lexer.piece.reverse ++ more), lexer.reached, depth⟩ ::
        lexer.tokens) := by
  refine .cons (by simp) (fun _ hslash => ?_) h.read
  refine (h.piece hliteral).imp_right fun ⟨hne, hopened⟩ => hopened ?_
  rw [String.toList_ofList, List.head?_append_of_ne_nil _ (by simpa using hne),
    List.head?_reverse] at hslash
  exact hslash

theorem KeepsSlashes.flush (h : KeepsSlashes text lexer) (hliteral : isCode lexer.frames = false) :
    SlashesRead text lexer.flush.tokens := by
  unfold Lexer.flush
  split
  · exact h.read
  · have hread := h.literal hliteral [] lexer.depth
    rwa [List.append_nil] at hread

theorem KeepsSlashes.extend (h : KeepsSlashes text lexer) (hliteral : isCode lexer.frames = false)
    (read later : List Char) :
    KeepsSlashes text { lexer with piece := read ++ lexer.piece, rest := later } where
  read := h.read
  piece _ := by
    refine (h.piece hliteral).imp_right fun ⟨hne, hopened⟩ => ⟨by simp [hne], fun hslash => ?_⟩
    rw [List.getLast?_append_of_ne_nil _ hne] at hslash
    exact hopened hslash

theorem KeepsSlashes.of_isCode (h : SlashesRead text lexer.tokens)
    (hcode : isCode lexer.frames = true) : KeepsSlashes text lexer where
  read := h
  piece hliteral := by simp [hcode] at hliteral

/-- Every step keeps slashes apart. -/
theorem KeepsSlashes.step (h : KeepsSlashes text lexer) (hreads : Reads text lexer)
    (hrest : lexer.rest = c :: rest) (hstep : lexer.step c rest = .ok next) :
    KeepsSlashes text next := by
  cases moves_of_step hstep with
  | @token kind more hcode _ hhead =>
    have hdelivers := delivers_head (operandExpected lexer.tokens) c rest
    rw [hhead] at hdelivers
    refine .of_isCode (.cons (fun hkind hslash => ?_) (fun hkind => ?_) h.read)
      (by simpa using hcode)
    · obtain rfl : c = '/' := by simpa using hslash
      obtain rfl : kind = .operator := hkind
      exact operand_of_head_operator hhead
    · exact absurd hkind hdelivers.1
  | @openLiteral quoting hcode _ hhead =>
    have hdelivers := delivers_head (operandExpected lexer.tokens) c rest
    rw [hhead] at hdelivers
    have hne : quoting.opening ≠ [] := by cases quoting <;> simp [Quoting.opening]
    refine ⟨h.read, fun _ => Or.inr ⟨by simpa using hne, fun hslash => ?_⟩⟩
    rw [List.getLast?_reverse] at hslash
    obtain rfl : c = '/' := by
      rw [← List.head?_append_of_ne_nil _ hne, ← hdelivers] at hslash
      exact Option.some.inj hslash
    obtain ⟨-, rfl⟩ := operand_of_head_literal hhead
    exact ⟨lexer, _, rest, hreads, rfl, hrest, hstep, rfl⟩
  | closeHole _ _ => exact ⟨.cons (by simp) (by simp) h.read, fun _ => Or.inl ⟨_, rfl, rfl⟩⟩
  | @closeLiteral quoting opened outer hframes _ =>
    have halternates : Alternates (.literal quoting opened :: outer) :=
      hframes ▸ hreads.invariant.alternates
    exact .of_isCode (h.literal (by rw [hframes]; rfl) _ _) halternates.1
  | plain hframes _ _ => exact h.extend (by rw [hframes]; rfl) [c] rest
  | escaped hframes _ _ _ => exact h.extend (by rw [hframes]; rfl) [_, c] _
  | openHole hframes _ _ _ =>
    exact .of_isCode (.cons (by simp) (by simp) (h.flush (by rw [hframes]; rfl))) rfl
  | @shortName _ _ _ d after hframes _ _ _ hstart =>
    obtain ⟨names, htokens, hnames⟩ := exists_names_namePath
      (lexer.flush.emit .interpolationStart lexer.flush.depth ['$']) (lexer.flush.depth + 1) after
      hstart
    refine ⟨.cons (by simp) (by simp) ?_, fun _ => Or.inl ⟨_, rfl, rfl⟩⟩
    rw [htokens]
    refine SlashesRead.append ?_ fun token hmem => ?_
    · exact .cons (by simp) (by simp) (h.flush (by rw [hframes]; rfl))
    · obtain ⟨-, hname | ⟨hkind, htext⟩⟩ := hnames token (List.mem_reverse.mp hmem)
      · rw [hname.kind]
        rcases wordKind_cases token.text.toList with hkind | hkind
        · simp [hkind]
        · simp [hkind]
      · simp [hkind, htext]

theorem Reads.keepsSlashes (h : Reads text lexer) : KeepsSlashes text lexer := by
  induction h with
  | start =>
    refine .of_isCode ?_ (by rw [frames_start]; rfl)
    rw [← List.append_nil (afterMark text).afterShebang.tokens]
    refine SlashesRead.append .nil fun token hmem => ?_
    have htrivia := (trivia_start text token hmem).1
    constructor
    · intro hkind
      simp [isTrivia, hkind] at htrivia
    · intro hkind
      simp [isTrivia, hkind] at htrivia
  | step hreads hrest hstep ih => exact ih.step hreads hrest hstep

/-- What holds of all tokens holds of the earlier ones among them. -/
theorem SlashesRead.of_append {tokens later : List Token} (h : SlashesRead text (later ++ tokens)) :
    SlashesRead text tokens := by
  induction later with
  | nil => exact h
  | cons token later ih =>
    cases h with
    | cons _ _ hearlier => exact ih hearlier

def PieceBecomes (lexer : Lexer) (token : Token) : Prop :=
  token.kind = .literal ∧ token.text.toList.head? = lexer.piece.getLast?

theorem exists_piece_flush (hpiece : lexer.piece ≠ []) :
    ∃ token, lexer.flush.tokens = token :: lexer.tokens ∧ lexer.PieceBecomes token := by
  unfold Lexer.flush
  rw [if_neg (by simpa using hpiece)]
  exact ⟨_, rfl, rfl, by simp⟩

/-- In a literal a move makes the piece under way a token, or goes on with it. -/
theorem Moves.piece (h : Moves lexer c rest next) (hliteral : isCode lexer.frames = false)
    (hpiece : lexer.piece ≠ []) :
    (isCode next.frames = false ∧ next.tokens = lexer.tokens ∧ next.piece ≠ [] ∧
        next.piece.getLast? = lexer.piece.getLast?) ∨
      ∃ made token, next.tokens = made ++ token :: lexer.tokens ∧ lexer.PieceBecomes token := by
  cases h with
  | token hcode _ _ => simp [hcode] at hliteral
  | openLiteral hcode _ _ => simp [hcode] at hliteral
  | closeHole hframes _ => simp [hframes, isCode] at hliteral
  | closeLiteral _ _ =>
    refine Or.inr ⟨[], _, rfl, rfl, ?_⟩
    rw [String.toList_ofList, List.head?_append_of_ne_nil _ (by simpa using hpiece),
      List.head?_reverse]
  | plain _ _ _ =>
    exact Or.inl ⟨hliteral, rfl, by simp, List.getLast?_append_of_ne_nil [c] hpiece⟩
  | @escaped _ _ _ d _ _ _ _ _ =>
    exact Or.inl ⟨hliteral, rfl, by simp, List.getLast?_append_of_ne_nil [d, c] hpiece⟩
  | openHole _ _ _ _ =>
    obtain ⟨token, htoken, hbecomes⟩ := exists_piece_flush hpiece
    exact Or.inr ⟨[_], token, congrArg (_ :: ·) htoken, hbecomes⟩
  | shortName _ _ _ _ hstart =>
    obtain ⟨token, htoken, hbecomes⟩ := exists_piece_flush hpiece
    obtain ⟨path, hpath⟩ := exists_made_shortName lexer.flush lexer.flush.depth _ hstart
    exact Or.inr ⟨path, token, by rw [hpath, htoken], hbecomes⟩

/-- The piece under way is the front of the token behind those made so far. -/
theorem exists_piece_of_run {tokens : List Token} (hrun : lexer.run = .ok tokens)
    (hliteral : isCode lexer.frames = false) (hpiece : lexer.piece ≠ []) :
    ∃ token later, tokens = lexer.tokens.reverse ++ token :: later ∧ lexer.PieceBecomes token := by
  fun_induction Lexer.run lexer with
  | case1 lexer hrest =>
    unfold Lexer.finish at hrun
    split at hrun
    · rename_i hframes
      simp [hframes, isCode] at hliteral
    · simp at hrun
    · simp at hrun
  | case2 => simp at hrun
  | case3 lexer c rest hrest next hstep ih =>
    obtain ⟨hnext, htokens, hne, hlast⟩ | ⟨made, token, htokens, hbecomes⟩ :=
      (moves_of_step hstep).piece hliteral hpiece
    · obtain ⟨token, later, hlater, hbecomes⟩ := ih hrun hnext hne
      exact ⟨token, later, htokens ▸ hlater, hbecomes.1, hbecomes.2.trans hlast⟩
    · obtain ⟨later, hlater⟩ := exists_later_of_run hrun
      refine ⟨token, made.reverse ++ later, ?_, hbecomes⟩
      rw [hlater, htokens]
      simp

/-- The literal that a slash opens is read from the slash on, and an operand is expected there. -/
theorem exists_slashy_of_opened {earlier : List Token} (h : SlashyOpened text earlier) :
    operandExpected earlier = true ∧ ∃ next, Reads text next ∧ next.tokens = earlier ∧
      isCode next.frames = false ∧ next.piece = ['/'] := by
  obtain ⟨lexer, next, rest, hreads, rfl, hrest, hstep, hframes⟩ := h
  have hnext := hreads.step hrest hstep
  have hlength := congrArg List.length hframes
  cases moves_of_step hstep with
  | token hcode _ _ =>
    have hstill := isCode_countBraces '/' lexer.frames
    simp only at hframes
    rw [hframes, hcode] at hstill
    exact absurd hstill Bool.false_ne_true
  | openLiteral _ _ hhead =>
    obtain ⟨hoperand, rfl⟩ := operand_of_head_literal hhead
    exact ⟨hoperand, _, hnext, rfl, rfl, rfl⟩
  | closeHole _ hc => simp at hc
  | closeLiteral hopen _ =>
    simp only [hopen, List.length_cons] at hlength
    omega
  | plain _ _ _ => simp at hlength
  | escaped _ _ _ _ => simp at hlength
  | openHole _ _ hc _ => simp at hc
  | shortName _ _ hc _ _ => simp at hc

end Reading

end Lexer

section Positions

variable {text : List Char} {tokens : List Token} {position : Nat}

theorem slashesRead_of_lex (h : lex text = .ok tokens) {token : Token}
    (htoken : tokens[position]? = some token) :
    Lexer.SlashesRead text (token :: (tokens.take position).reverse) := by
  obtain ⟨last, later, hreads, hlast⟩ := Lexer.exists_reads_of_getElem? h htoken
  exact (hlast ▸ hreads.keepsSlashes.read).of_append

/-- The first pieces of slashy literals are the places where the lexer opens one at a slash. -/
theorem opensSlashy_iff (h : lex text = .ok tokens) :
    OpensSlashy tokens position ↔ SlashyOpened text (tokens.take position).reverse := by
  constructor
  · rintro ⟨token, htoken, hkind, hslash, hbefore⟩
    cases slashesRead_of_lex h htoken with
    | cons _ hopens _ =>
      rcases hopens hkind hslash with ⟨last, hlast, hend⟩ | hopened
      · rw [List.head?_reverse] at hlast
        exact absurd hend (hbefore last hlast)
      · exact hopened
  · intro hopened
    obtain ⟨hoperand, next, hreads, hnext, hliteral, hpiece⟩ :=
      Lexer.exists_slashy_of_opened hopened
    obtain ⟨token, later, hlater, hkind, hhead⟩ :=
      Lexer.exists_piece_of_run (hreads.lex_eq.symm.trans h) hliteral (by simp [hpiece])
    rw [hnext, List.reverse_reverse] at hlater
    refine ⟨token, ?_, hkind, by rw [hhead, hpiece]; rfl, fun last hlast hend => ?_⟩
    · have hposition : (tokens.take position).length = position := by
        have hlength := congrArg List.length hlater
        simp only [List.length_append, List.length_take, List.length_cons] at hlength ⊢
        omega
      rw [hlater, List.getElem?_append_right (Nat.le_of_eq hposition), hposition, Nat.sub_self]
      rfl
    · -- The end of an expression ends an operand, so none would be expected.
      rw [← List.head?_reverse] at hlast
      obtain ⟨before, hbefore⟩ := List.head?_eq_some_iff.mp hlast
      rw [hbefore, ← Bool.not_eq_false, operandExpected_eq_false_iff] at hoperand
      exact hoperand ⟨last, by simp [isTrivia, hend], by simp [EndsOperand, hend]⟩

/-- Nothing that ends an operand comes right before the slash of a literal. -/
theorem not_endsOperand_of_opensSlashy (h : lex text = .ok tokens)
    (hopens : OpensSlashy tokens position) {last : Token}
    (hlast : (significantBefore tokens position).head? = some last) : ¬ EndsOperand last := by
  intro hends
  obtain ⟨hoperand, -⟩ := Lexer.exists_slashy_of_opened ((opensSlashy_iff h).mp hopens)
  rw [head?_significantBefore] at hlast
  rw [← Bool.not_eq_false, operandExpected_eq_false_iff] at hoperand
  exact hoperand ⟨last, hlast, hends⟩

/-- Right before a slash that divides comes what ends an operand. -/
theorem endsOperand_of_operator (h : lex text = .ok tokens) {token : Token}
    (htoken : tokens[position]? = some token) (hkind : token.kind = .operator)
    (hslash : token.text.toList.head? = some '/') :
    ∃ last, (significantBefore tokens position).head? = some last ∧ EndsOperand last := by
  cases slashesRead_of_lex h htoken with
  | cons hdivides _ _ =>
    rw [head?_significantBefore]
    exact operandExpected_eq_false_iff.mp (hdivides hkind hslash)

theorem operandEnds_iff {latest : List Token}
    (h : ∀ last, latest.head? = some last → ¬ EndsOperand last) :
    OperandEnds latest ↔ NamesMember .keyword latest := by
  constructor
  · rintro (⟨last, hlast, hends⟩ | ⟨word, access, earlier, rfl, hkind, -⟩ | hmember)
    · exact absurd hends (h last hlast)
    · exact absurd (by simp [EndsOperand, hkind]) (h word rfl)
    · exact hmember
  · exact fun hmember => Or.inr (Or.inr hmember)

end Positions

/-- The slashes of a text that is cut into tokens. The lexer opens a literal at a slash exactly
where the first piece of a slashy literal stands. No token that ends an operand comes before it, and
if an operand ends there nevertheless, it is with a keyword that names a member. A slash that is an
operator comes behind a token that ends an operand. -/
theorem slashes_of_lex {text : List Char} {tokens : List Token} (h : lex text = .ok tokens)
    (position : Nat) :
    (OpensSlashy tokens position ↔ SlashyOpened text (tokens.take position).reverse) ∧
    (OpensSlashy tokens position →
      (∀ last, (significantBefore tokens position).head? = some last → ¬ EndsOperand last) ∧
      (OperandEnds (significantBefore tokens position) ↔
        NamesMember .keyword (significantBefore tokens position))) ∧
    ∀ token, tokens[position]? = some token → token.kind = .operator →
      token.text.toList.head? = some '/' →
      ∃ last, (significantBefore tokens position).head? = some last ∧ EndsOperand last := by
  refine ⟨opensSlashy_iff h, fun hopens => ?_, fun token => endsOperand_of_operator h⟩
  have hends : ∀ last, (significantBefore tokens position).head? = some last →
      ¬ EndsOperand last := fun last => not_endsOperand_of_opensSlashy h hopens
  exact ⟨hends, operandEnds_iff hends⟩

/-- A literal as an argument, and a division behind the call. -/
theorem slashes_of_lex_call :
    ∃ tokens, lex "f(/a/) / 2".toList = .ok tokens ∧ OpensSlashy tokens 2 ∧
      (∀ last, (significantBefore tokens 2).head? = some last → ¬ EndsOperand last) ∧
      ∃ last, (significantBefore tokens 5).head? = some last ∧ EndsOperand last := by
  have hrun : ((lex "f(/a/) / 2".toList).toOption.any fun tokens =>
      tokens[1]? == some ⟨.operator, "(", 1, 0⟩ && tokens[2]? == some ⟨.literal, "/a/", 2, 0⟩ &&
        tokens[5]? == some ⟨.operator, "/", 7, 0⟩) = true := by decide +kernel
  generalize "f(/a/) / 2".toList = text at hrun ⊢
  cases hlex : lex text with
  | error fault => simp [hlex, Except.toOption] at hrun
  | ok tokens =>
    simp only [hlex, Except.toOption, Option.any_some, Bool.and_eq_true, beq_iff_eq] at hrun
    obtain ⟨⟨hparen, hliteral⟩, hslash⟩ := hrun
    have hopens : OpensSlashy tokens 2 := by
      refine ⟨_, hliteral, rfl, rfl, fun last hlast => ?_⟩
      rw [List.getLast?_take, if_neg (by decide), hparen] at hlast
      simp [← Option.some.inj hlast]
    exact ⟨tokens, rfl, hopens, ((slashes_of_lex hlex 2).2.1 hopens).1,
      (slashes_of_lex hlex 5).2.2 _ hslash rfl rfl⟩

/-- A keyword that names a member does not count as an operand: the slash behind it, which divides,
opens a literal. -/
theorem exists_slashy_after_member :
    ∃ tokens, lex "a.in/b/c".toList = .ok tokens ∧ OpensSlashy tokens 3 ∧
      OperandEnds (significantBefore tokens 3) := by
  have hrun : (lex "a.in/b/c".toList).toOption = some
      [⟨.identifier, "a", 0, 0⟩, ⟨.operator, ".", 1, 0⟩, ⟨.keyword, "in", 2, 0⟩,
        ⟨.literal, "/b/", 4, 0⟩, ⟨.identifier, "c", 7, 0⟩] := by decide +kernel
  generalize "a.in/b/c".toList = text at hrun ⊢
  cases hlex : lex text with
  | error fault => simp [hlex, Except.toOption] at hrun
  | ok tokens =>
    obtain rfl : tokens = _ := by simpa [hlex, Except.toOption] using hrun
    refine ⟨_, rfl, ⟨_, rfl, rfl, rfl, by simp⟩, Or.inr (Or.inr ?_)⟩
    exact ⟨_, _, _, rfl, rfl, rfl, by simp⟩

end UnusedImports.Token
