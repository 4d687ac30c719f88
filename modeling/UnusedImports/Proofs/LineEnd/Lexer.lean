import Mathlib.Data.List.Forall2
import UnusedImports.Proofs.LineEnd.Head
import UnusedImports.Proofs.Noninterference
import UnusedImports.Proofs.Token.Layout

/-!
Two lexers side by side, one on a text and one on the text with carriage returns. They make
tokens of the same kinds, whose texts differ by the carriage returns alone. Away from line ends
every step of the one is a step of the other; in code a line end is one step for both, and in a
literal that spans lines its two characters are read one by one.
-/
namespace UnusedImports.Token

open UnusedImports.Text

/-- The second token is the first with carriage returns, wherever it stands. -/
structure Mirrors (token other : Token) : Prop where
  kind : other.kind = token.kind
  depth : other.depth = token.depth
  text : other.text.toList = withReturns token.text.toList

/-- Names, words and operators hold no line feed, so they are the same. -/
theorem Mirrors.alike {token other : Token} (h : token.Mirrors other) {earlier : List Token}
    (hfits : Fits earlier token) : token.Alike other where
  kind := h.kind
  depth := h.depth
  text := by
    intro hkind
    have hspelled : token.Spelled := by
      unfold Fits at hfits
      rcases hkind with hkind | hkind | hkind <;> simpa only [hkind] using hfits
    refine String.toList_inj.mp (h.text.trans (withReturns_of_not_mem fun hmem => ?_))
    simpa [isSpacing] using hspelled.2 '\n' hmem

theorem Sound.alike {tokens others : List Token} (h : Sound tokens)
    (hmirrors : List.Forall₂ Mirrors tokens others) : List.Forall₂ Alike tokens others := by
  induction hmirrors with
  | nil => exact List.Forall₂.nil
  | cons hmirrors _ ih =>
    cases h with
    | cons hfits _ hearlier => exact List.Forall₂.cons (hmirrors.alike hfits) (ih hearlier)

inductive Together {α β : Type} (related : α → β → Prop) :
    Except LexFault α → Except LexFault β → Prop
  | error (fault other : LexFault) : Together related (.error fault) (.error other)
  | ok {result : α} {other : β} (h : related result other) :
      Together related (.ok result) (.ok other)

inductive Frame.Mirrors : Frame → Frame → Prop
  | literal (quoting : Quoting) (opened reopened : Nat) :
      Mirrors (.literal quoting opened) (.literal quoting reopened)
  | hole (opened reopened braces : Nat) : Mirrors (.hole opened braces) (.hole reopened braces)

namespace Lexer

structure Mirrors (lexer other : Lexer) : Prop where
  tokens : List.Forall₂ Token.Mirrors lexer.tokens other.tokens
  frames : List.Forall₂ Frame.Mirrors lexer.frames other.frames
  piece : other.piece.reverse = withReturns lexer.piece.reverse

structure Follows (lexer other : Lexer) : Prop extends Mirrors lexer other where
  rest : other.rest = withReturns lexer.rest
  noReturn : '\r' ∉ lexer.rest

section Making

variable {lexer other : Lexer}

theorem Mirrors.depth (h : lexer.Mirrors other) : other.depth = lexer.depth := by
  have hcount : ∀ {frames others : List Frame}, List.Forall₂ Frame.Mirrors frames others →
      others.countP Frame.isHole = frames.countP Frame.isHole := by
    intro frames others hframes
    induction hframes with
    | nil => rfl
    | cons hframe _ ih =>
      rw [List.countP_cons, List.countP_cons, ih]
      cases hframe <;> rfl
  exact hcount h.frames

theorem Mirrors.emit (h : lexer.Mirrors other) (kind : Kind) (depth : Nat) {text retext : List Char}
    (htext : retext = withReturns text) :
    (lexer.emit kind depth text).Mirrors (other.emit kind depth retext) where
  tokens := List.Forall₂.cons ⟨rfl, rfl, by simpa using htext⟩ h.tokens
  frames := h.frames
  piece := h.piece

theorem Mirrors.flush (h : lexer.Mirrors other) : lexer.flush.Mirrors other.flush := by
  have hpiece := h.piece
  unfold Lexer.flush
  by_cases hnil : lexer.piece = []
  · rw [hnil, List.reverse_nil, withReturns_nil, List.reverse_eq_nil_iff] at hpiece
    simpa [hnil, hpiece] using h
  · have hother : other.piece ≠ [] := by
      intro hother
      rw [hother, List.reverse_nil] at hpiece
      exact hnil (List.reverse_eq_nil_iff.mp (withReturns_eq_nil.mp hpiece.symm))
    have hemit := h.emit .literal lexer.depth hpiece
    rw [if_neg (by simpa using hnil), if_neg (by simpa using hother), h.depth]
    exact ⟨hemit.tokens, hemit.frames, rfl⟩

/-- What is told from the tokens alone is told from those with carriage returns. -/
theorem operandExpected_of_alike {tokens others : List Token}
    (h : List.Forall₂ Alike tokens others) : operandExpected others = operandExpected tokens := by
  induction h with
  | nil => rfl
  | @cons token other tokens others halike _ ih =>
    have htrivia : other.isTrivia = token.isTrivia := by
      unfold isTrivia
      rw [halike.kind]
    unfold operandExpected at ih ⊢
    rw [List.find?_cons, List.find?_cons, htrivia]
    cases token.isTrivia with
    | true => exact ih
    | false =>
      simp only [Bool.not_false, halike.kind]
      cases hkind : token.kind with
      | keyword | operator => simp only [halike.text (by simp [hkind])]
      | _ => rfl

theorem frames_countBraces {frames others : List Frame}
    (h : List.Forall₂ Frame.Mirrors frames others) {c d : Char}
    (hcount : ∀ braces, countBrace d braces = countBrace c braces) :
    List.Forall₂ Frame.Mirrors (countBraces c frames) (countBraces d others) := by
  cases h with
  | nil => exact List.Forall₂.nil
  | cons hframe houter =>
    cases hframe with
    | literal quoting opened reopened =>
      exact List.Forall₂.cons (.literal quoting opened reopened) houter
    | hole opened reopened braces =>
      rw [countBraces, countBraces, hcount]
      exact List.Forall₂.cons (.hole opened reopened _) houter

end Making

section Paths

variable {lexer other : Lexer} {depth : Nat} {c : Char} {rest : List Char}

theorem namePath_next {next : Char} {after : List Char}
    (hafter : rest.dropWhile isNameChar = '.' :: next :: after)
    (hnext : isShortNameStart next = true) :
    lexer.namePath depth c rest =
      ((lexer.emit (wordKind (c :: rest.takeWhile isNameChar)) depth
          (c :: rest.takeWhile isNameChar)).emit .operator depth ['.']).namePath
        depth next after := by
  rw [namePath]
  split
  · rename_i heq
    rw [hafter] at heq
    obtain ⟨-, heq⟩ := List.cons.inj heq
    obtain ⟨rfl, rfl⟩ := List.cons.inj heq
    rw [if_pos hnext]
  · rename_i hne
    exact absurd hafter (hne next after)

theorem namePath_stop
    (hstop : ∀ next after, rest.dropWhile isNameChar = '.' :: next :: after →
      isShortNameStart next = false) :
    lexer.namePath depth c rest =
      { lexer.emit (wordKind (c :: rest.takeWhile isNameChar)) depth
          (c :: rest.takeWhile isNameChar) with rest := rest.dropWhile isNameChar } := by
  rw [namePath]
  split
  · rename_i next after heq
    rw [if_neg (by simp [hstop next after heq]), heq]
  · rfl

theorem withReturns_word (hc : c ≠ '\n') (rest : List Char) :
    withReturns (c :: rest.takeWhile isNameChar) = c :: rest.takeWhile isNameChar := by
  refine withReturns_of_not_mem fun hmem => ?_
  rcases List.mem_cons.mp hmem with heq | hmem
  · exact hc heq.symm
  · have hname := List.all_eq_true.mp List.all_takeWhile _ hmem
    simpa [isSpacing] using isSpacing_of_isNameChar hname

theorem stop_withReturns
    (hstop : ∀ next after, rest = '.' :: next :: after → isShortNameStart next = false) :
    ∀ next after, withReturns rest = '.' :: next :: after → isShortNameStart next = false := by
  intro next after heq
  cases rest with
  | nil => simp at heq
  | cons first rest =>
    by_cases hfirst : first = '\n'
    · simp [hfirst] at heq
    · rw [withReturns_cons hfirst] at heq
      obtain ⟨rfl, hrest⟩ := List.cons.inj heq
      cases rest with
      | nil => simp at hrest
      | cons second rest =>
        by_cases hsecond : second = '\n'
        · rw [hsecond, withReturns_feed] at hrest
          obtain ⟨rfl, -⟩ := List.cons.inj hrest
          rfl
        · rw [withReturns_cons hsecond] at hrest
          obtain ⟨rfl, -⟩ := List.cons.inj hrest
          exact hstop _ rest rfl

theorem Mirrors.namePath_stop (h : lexer.Mirrors other) (depth : Nat) (hc : c ≠ '\n')
    (hreturn : '\r' ∉ rest)
    (hstop : ∀ next after, rest.dropWhile isNameChar = '.' :: next :: after →
      isShortNameStart next = false) :
    Follows
      { lexer.emit (wordKind (c :: rest.takeWhile isNameChar)) depth
          (c :: rest.takeWhile isNameChar) with rest := rest.dropWhile isNameChar }
      (other.namePath depth c (withReturns rest)) := by
  have hemit := h.emit (wordKind (c :: rest.takeWhile isNameChar)) depth
    (withReturns_word hc rest).symm
  rw [Lexer.namePath_stop (by rw [dropWhile_withReturns rfl rfl]; exact stop_withReturns hstop),
    takeWhile_withReturns rfl rfl, dropWhile_withReturns rfl rfl]
  exact ⟨⟨hemit.tokens, hemit.frames, hemit.piece⟩, rfl,
    fun hmem => hreturn ((List.dropWhile_sublist _).subset hmem)⟩

/-- A path is read name by name. -/
theorem Mirrors.namePath (h : lexer.Mirrors other) (depth : Nat) (hc : c ≠ '\n')
    (hreturn : '\r' ∉ rest) :
    (lexer.namePath depth c rest).Follows (other.namePath depth c (withReturns rest)) := by
  fun_induction Lexer.namePath lexer depth c rest generalizing other with
  | case1 lexer c rest =>
    rename_i next after hafter hstart ih
    have hnext : next ≠ '\n' := by
      rintro rfl
      simpa [isSpacing] using isSpacing_of_isShortNameStart hstart
    have hnoReturn : '\r' ∉ '.' :: next :: after := by
      rw [← hafter]
      exact fun hmem => hreturn ((List.dropWhile_sublist _).subset hmem)
    have hreafter : (withReturns rest).dropWhile isNameChar = '.' :: next :: withReturns after := by
      rw [dropWhile_withReturns rfl rfl, hafter, withReturns_cons (by decide),
        withReturns_cons hnext]
    rw [namePath_next hreafter hstart, takeWhile_withReturns rfl rfl]
    refine ih (Mirrors.emit (h.emit _ depth ?_) _ depth rfl) hnext fun hmem => hnoReturn ?_
    · exact (withReturns_word hc rest).symm
    · exact List.mem_cons_of_mem _ (List.mem_cons_of_mem _ hmem)
  | case2 lexer c rest =>
    rename_i next after hafter hstart
    rw [← hafter]
    refine h.namePath_stop depth hc hreturn fun first later heq => ?_
    obtain ⟨-, heq⟩ := List.cons.inj (hafter.symm.trans heq)
    obtain ⟨rfl, -⟩ := List.cons.inj heq
    simpa using hstart
  | case3 lexer c rest =>
    rename_i hne
    exact h.namePath_stop depth hc hreturn fun first later heq => absurd heq (hne first later)

end Paths

section Code

variable {lexer other : Lexer} {c : Char} {rest : List Char}

theorem Follows.not_return (h : lexer.Follows other) (hrest : lexer.rest = c :: rest) :
    c ≠ '\r' ∧ '\r' ∉ rest := by
  have hnoReturn := h.noReturn
  rw [hrest, List.mem_cons, not_or] at hnoReturn
  exact ⟨Ne.symm hnoReturn.1, hnoReturn.2⟩

/-- A word without line feeds at the start of a text is skipped alike. -/
theorem drop_withReturns_word {word : List Char} (hfeed : '\n' ∉ word) (hne : word ≠ [])
    (hword : c :: rest = word ++ rest.drop (word.length - 1)) :
    (withReturns rest).drop (word.length - 1) = withReturns (rest.drop (word.length - 1)) := by
  obtain ⟨first, more, rfl⟩ := List.exists_cons_of_ne_nil hne
  obtain ⟨-, hrest⟩ := List.cons.inj hword
  rw [List.length_cons, Nat.add_sub_cancel] at hrest ⊢
  have htake : rest.take more.length = more := by
    rw [hrest]
    exact List.take_left
  have hdrop := drop_withReturns more.length rest
  rwa [htake, withReturns_of_not_mem fun hmem => hfeed (List.mem_cons_of_mem first hmem)] at hdrop

theorem opening_spelled (quoting : Quoting) : '\n' ∉ quoting.opening ∧ quoting.opening ≠ [] := by
  cases quoting <;> decide

theorem closing_spelled (quoting : Quoting) :
    '\n' ∉ quoting.closing ∧ '\r' ∉ quoting.closing ∧ quoting.closing ≠ [] := by
  cases quoting <;> decide

theorem Follows.codeStep_feed (h : lexer.Follows other) (hrest : lexer.rest = '\n' :: rest) :
    Together Follows (lexer.codeStep '\n' rest)
      (other.codeStep '\r' ('\n' :: withReturns rest)) := by
  have hemit := h.emit .newline lexer.depth (show ['\r', '\n'] = withReturns ['\n'] from rfl)
  refine Together.ok ⟨⟨?_, frames_countBraces h.frames fun _ => rfl, h.piece⟩, rfl, ?_⟩
  · simpa [Lexer.emit, h.depth] using hemit.tokens
  · exact (h.not_return hrest).2

/-- Away from line ends, code is read alike. -/
theorem Follows.codeStep (h : lexer.Follows other) (hsound : Sound lexer.tokens)
    (hrest : lexer.rest = c :: rest) (hfeed : c ≠ '\n') :
    Together Follows (lexer.codeStep c rest) (other.codeStep c (withReturns rest)) := by
  obtain ⟨hreturn, hnoReturn⟩ := h.not_return hrest
  have hdelivers := delivers_head (operandExpected lexer.tokens) c rest
  unfold Lexer.codeStep
  rw [operandExpected_of_alike (hsound.alike h.tokens),
    head_withReturns _ hfeed hreturn hnoReturn]
  cases hhead : head (operandExpected lexer.tokens) c rest with
  | token kind more =>
    have hemit := h.emit kind lexer.depth (withReturns_cons hfeed (rest.take more)).symm
    simp only [Head.withReturns, take_withReturns, drop_withReturns, h.depth]
    exact Together.ok ⟨⟨hemit.tokens, frames_countBraces h.frames fun _ => rfl, h.piece⟩, rfl,
      fun hmem => hnoReturn (List.mem_of_mem_drop hmem)⟩
  | literal quoting =>
    obtain ⟨hopening, hne⟩ := opening_spelled quoting
    rw [hhead] at hdelivers
    simp only [Head.withReturns, drop_withReturns_word hopening hne hdelivers]
    refine Together.ok ⟨⟨h.tokens, List.Forall₂.cons (.literal ..) h.frames, ?_⟩, rfl,
      fun hmem => hnoReturn (List.mem_of_mem_drop hmem)⟩
    rw [List.reverse_reverse, withReturns_of_not_mem hopening]
  | fault cause more => exact Together.error _ _

end Code

section Literals

variable {lexer other : Lexer} {quoting : Quoting} {opened : Nat} {outer : List Frame} {c : Char}
  {rest : List Char}

/-- Neither a line end nor a backslash closes a literal. -/
theorem not_closing (quoting : Quoting) (hc : c = '\n' ∨ c = '\r' ∨ c = '\\')
    (rest : List Char) : quoting.closing.isPrefixOf (c :: rest) = false := by
  rcases hc with rfl | rfl | rfl <;> cases quoting <;> rfl

theorem not_escapes (quoting : Quoting) (hc : c = '\n' ∨ c = '\r') (next : Char) :
    quoting.escapes c next = false := by
  rcases hc with rfl | rfl <;> cases quoting <;> rfl

/-- Whether a line end is escaped does not depend on how it is written. -/
theorem escapes_return (quoting : Quoting) (c : Char) :
    quoting.escapes c '\r' = quoting.escapes c '\n' := by
  cases quoting with
  | dollarSlashy => simp [Quoting.escapes]
  | _ => rfl

theorem literalStep_line (hspans : quoting.spansLines = true) (hc : c = '\n' ∨ c = '\r') :
    lexer.literalStep quoting opened outer c rest =
      .ok { lexer with piece := c :: lexer.piece, rest } := by
  have hdollar : c ≠ '$' := by rcases hc with rfl | rfl <;> decide
  unfold literalStep
  rw [if_neg (by simp [not_closing quoting (hc.imp_right Or.inl)]), if_neg (by simp [hspans])]
  cases rest with
  | nil => rfl
  | cons next after => simp [not_escapes quoting hc, hdollar]

/-- A line end breaks off a literal that does not span lines. -/
theorem literalStep_break (hspans : quoting.spansLines = false) (hc : c = '\n' ∨ c = '\r') :
    lexer.literalStep quoting opened outer c rest =
      .error ⟨.unterminatedString, opened, lexer.cursor⟩ := by
  unfold literalStep
  rw [if_neg (by simp [not_closing quoting (hc.imp_right Or.inl)]), if_pos ⟨hc, by simp [hspans]⟩]

theorem literalStep_backslash {next : Char} (hescapes : quoting.escapes '\\' next = true) :
    lexer.literalStep quoting opened outer '\\' (next :: rest) =
      .ok { lexer with piece := next :: '\\' :: lexer.piece, rest } := by
  unfold literalStep
  rw [if_neg (by simp [not_closing]), if_neg (by simp)]
  simp only [if_pos hescapes]

theorem Follows.extend (h : lexer.Follows other) (read : List Char) {later : List Char}
    (hrest : lexer.rest = read ++ later) :
    Follows { lexer with piece := read.reverse ++ lexer.piece, rest := later }
      { other with
        piece := (withReturns read).reverse ++ other.piece
        rest := withReturns later } where
  tokens := h.tokens
  frames := h.frames
  piece := by simp [h.piece]
  rest := rfl
  noReturn := by
    have hnoReturn := h.noReturn
    rw [hrest, List.mem_append, not_or] at hnoReturn
    exact hnoReturn.2

theorem Follows.close (h : lexer.Follows other) {reouter : List Frame}
    (houter : List.Forall₂ Frame.Mirrors outer reouter) (hrest : lexer.rest = c :: rest)
    (hclosing : quoting.closing.isPrefixOf (c :: rest) = true) :
    Follows
      { lexer.emit .literal lexer.depth (lexer.piece.reverse ++ quoting.closing) with
        frames := outer
        piece := []
        rest := rest.drop (quoting.closing.length - 1) }
      { other.emit .literal other.depth (other.piece.reverse ++ quoting.closing) with
        frames := reouter
        piece := []
        rest := (withReturns rest).drop (quoting.closing.length - 1) } := by
  obtain ⟨hfeed, -, hne⟩ := closing_spelled quoting
  have htext : other.piece.reverse ++ quoting.closing =
      withReturns (lexer.piece.reverse ++ quoting.closing) := by
    rw [withReturns_append, h.piece, withReturns_of_not_mem hfeed]
  have hemit := h.emit .literal lexer.depth htext
  refine ⟨⟨?_, houter, rfl⟩, ?_,
    fun hmem => (h.not_return hrest).2 (List.mem_of_mem_drop hmem)⟩
  · rw [h.depth]
    exact hemit.tokens
  · exact drop_withReturns_word hfeed hne (take_of_isPrefixOf hclosing hne).1

/-- An interpolated expression in braces is opened on both sides. -/
theorem Follows.openHole (h : lexer.Follows other) {after : List Char}
    (hrest : lexer.rest = '$' :: '\x7b' :: after) :
    Follows
      { lexer.flush.emit .interpolationStart lexer.flush.depth ['$', '\x7b'] with
        frames := .hole lexer.flush.reached 0 :: lexer.flush.frames
        rest := after }
      { other.flush.emit .interpolationStart other.flush.depth ['$', '\x7b'] with
        frames := .hole other.flush.reached 0 :: other.flush.frames
        rest := withReturns after } := by
  have hflush := h.flush
  have hemit := hflush.emit .interpolationStart lexer.flush.depth
    (show ['$', '\x7b'] = withReturns ['$', '\x7b'] from rfl)
  refine ⟨⟨?_, List.Forall₂.cons (.hole ..) hflush.frames, hemit.piece⟩, rfl, ?_⟩
  · rw [hflush.depth]
    exact hemit.tokens
  · exact fun hmem => (h.not_return hrest).2 (List.mem_cons_of_mem _ hmem)

theorem Follows.shortName (h : lexer.Follows other) {next : Char} {after : List Char}
    (hrest : lexer.rest = '$' :: next :: after) (hnext : next ≠ '\n') :
    Follows
      (((lexer.flush.emit .interpolationStart lexer.flush.depth ['$']).namePath
        (lexer.flush.depth + 1) next after).emit .interpolationEnd lexer.flush.depth [])
      (((other.flush.emit .interpolationStart other.flush.depth ['$']).namePath
        (other.flush.depth + 1) next (withReturns after)).emit
        .interpolationEnd other.flush.depth []) := by
  have hafter : '\r' ∉ after := fun hmem => (h.not_return hrest).2 (List.mem_cons_of_mem _ hmem)
  have hflush := h.flush
  have hpath := (hflush.emit .interpolationStart lexer.flush.depth
    (show ['$'] = withReturns ['$'] from rfl)).namePath (lexer.flush.depth + 1) hnext hafter
  rw [hflush.depth]
  have hemit := hpath.emit .interpolationEnd lexer.flush.depth (show [] = withReturns [] from rfl)
  exact ⟨hemit, hpath.rest, hpath.noReturn⟩

/-- Away from line ends, the text of a literal is read alike. -/
theorem Follows.literalStep (h : lexer.Follows other) {reopened : Nat} {reouter : List Frame}
    (houter : List.Forall₂ Frame.Mirrors outer reouter) (hrest : lexer.rest = c :: rest)
    (hfeed : c ≠ '\n') (hescape : rest.head? = some '\n' → quoting.escapes c '\n' = false) :
    Together Follows (lexer.literalStep quoting opened outer c rest)
      (other.literalStep quoting reopened reouter c (withReturns rest)) := by
  obtain ⟨hclosingFeed, hclosingReturn, -⟩ := closing_spelled quoting
  have hreturn := (h.not_return hrest).1
  have hextend := h.extend [c] hrest
  rw [withReturns_cons hfeed, withReturns_nil] at hextend
  unfold Lexer.literalStep
  rw [← withReturns_cons hfeed, isPrefixOf_withReturns hclosingFeed hclosingReturn]
  by_cases hclosing : quoting.closing.isPrefixOf (c :: rest) = true
  · rw [if_pos hclosing, if_pos hclosing]
    exact Together.ok (h.close houter hrest hclosing)
  rw [if_neg hclosing, if_neg hclosing, if_neg (by simp [hfeed, hreturn]),
    if_neg (by simp [hfeed, hreturn])]
  cases rest with
  | nil => exact Together.ok hextend
  | cons next after =>
    -- A line feed right after `c` is read as a carriage return by the other lexer, and neither of
    -- the two is escaped or opens an interpolated expression.
    by_cases hnext : next = '\n'
    · subst hnext
      have hplain : quoting.escapes c '\n' = false := hescape rfl
      have hescapes := (escapes_return quoting c).trans hplain
      have hname : isShortNameStart '\n' = false ∧ isShortNameStart '\r' = false := ⟨rfl, rfl⟩
      rw [withReturns_feed] at hextend ⊢
      simp only [hplain, hescapes, hname]
      simpa using Together.ok hextend
    · have hextendTwo := h.extend [c, next] hrest
      rw [withReturns_cons hfeed, withReturns_cons hnext, withReturns_nil] at hextendTwo
      rw [withReturns_cons hnext] at hextend ⊢
      simp only
      split
      · exact Together.ok hextendTwo
      split
      · rename_i hhole
        obtain ⟨rfl, -, rfl⟩ := hhole
        exact Together.ok (h.openHole hrest)
      split
      · rename_i hname
        obtain ⟨rfl, -, -⟩ := hname
        exact Together.ok (h.shortName hrest hnext)
      · exact Together.ok hextend

end Literals

end Lexer

end UnusedImports.Token
