import UnusedImports.Proofs.Text.Counting
import UnusedImports.Proofs.Token.Layout
import UnusedImports.Proofs.Token.ShortName
import UnusedImports.Proofs.Token.Word

/-!
How far tokens go. Operators are found in several places: in the table, where braces are signs like
any other, and at the point that joins the names after a `$`. Words are found in two. All of them
take as much of the text as they can, so what a token is depends on the text at its start alone. Of
the tokens that may hold a line feed only those do that span lines: line ends, comments in `/*` and
`*/`, and pieces of literals.
-/
namespace UnusedImports.Token

open UnusedImports.Text

def LongestOperator (ahead : List Char) (operator : String) : Prop :=
  operator ∈ Lexicon.operators ∧ operator.toList <+: ahead ∧
    ∀ other ∈ Lexicon.operators, other.toList <+: ahead →
      other.toList.length ≤ operator.toList.length

/-- How far a token goes, by the text from its start on and the text from its stop on. -/
def GoesFar (ahead behind : List Char) (token : Token) : Prop :=
  match token.kind with
  | .operator => LongestOperator ahead token.text
  | .identifier | .keyword => behind.head?.any isNameChar = false
  | .comment => '\n' ∈ token.text.toList → ['/', '*'] <+: token.text.toList
  | .number | .literal | .interpolationStart | .interpolationEnd | .blank | .newline => True

section Heads

variable {c : Char} {rest : List Char}

/-- No operator of the table stands before a longer one. -/
theorem pairwise_operators :
    Lexicon.operators.Pairwise fun first second => second.toList.length ≤ first.toList.length := by
  decide +kernel

/-- The operator that is found in the table is the longest that the text starts with. -/
theorem longestOperator_of_operator? {ahead : List Char} {operator : String}
    (h : operator? ahead = some operator) : LongestOperator ahead operator := by
  obtain ⟨hspells, longer, shorter, htable, hlonger⟩ := List.find?_eq_some_iff_append.mp h
  refine ⟨htable ▸ by simp, List.isPrefixOf_iff_prefix.mp hspells, fun other hmem hother => ?_⟩
  have hpairs := pairwise_operators
  rw [htable] at hmem hpairs
  rcases List.mem_append.mp hmem with hmem | hmem
  · have hnone := hlonger other hmem
    simp [List.isPrefixOf_iff_prefix.mpr hother] at hnone
  rcases List.mem_cons.mp hmem with rfl | hmem
  · exact Nat.le_refl _
  · exact (List.pairwise_cons.mp (List.pairwise_append.mp hpairs).2.1).1 other hmem

/-- No longer operator starts with a point that a letter or an underscore follows. -/
theorem longestOperator_point {next : Char} (hnext : isShortNameStart next = true)
    (after : List Char) : LongestOperator ('.' :: next :: after) "." := by
  refine ⟨by decide, ⟨next :: after, rfl⟩, fun other hmem hother => ?_⟩
  have hsigns : ∀ operator ∈ Lexicon.operators, operator.toList.length ≤ 1 ∨
      operator.toList.tail.head?.any isShortNameStart = false := by decide +kernel
  rcases hsigns other hmem with hshort | hsign
  · exact hshort
  · obtain ⟨later, hlater⟩ := hother
    match hword : other.toList with
    | [] => simp
    | [_] => simp
    | _ :: d :: more =>
      rw [hword] at hlater hsign
      obtain rfl : d = next := (List.cons.inj (List.cons.inj hlater).2).1
      simp [hnext] at hsign

def Head.GoesFar (c : Char) (rest : List Char) : Head → Prop
  | .token kind more => ∀ start depth,
      Token.GoesFar (c :: rest) (rest.drop more)
        ⟨kind, String.ofList (c :: rest.take more), start, depth⟩
  | .literal _ | .fault .. => True

theorem goesFar_lineComment (hc : c ≠ '\n') :
    (Head.token .comment (lineLength rest)).GoesFar c rest := by
  intro start depth hfeed
  rw [String.toList_ofList, List.mem_cons] at hfeed
  rcases hfeed with hfeed | hfeed
  · exact absurd hfeed.symm hc
  · exact absurd hfeed (not_mem_take_lineLength rest)

theorem goesFar_blockComment (h : rest.head? = some '*') (more : Nat) :
    (Head.token .comment (more + 1)).GoesFar '/' rest := by
  obtain ⟨later, rfl⟩ := List.head?_eq_some_iff.mp h
  intro start depth _
  rw [String.toList_ofList]
  exact ⟨later.take more, rfl⟩

/-- What is left of the text behind a word does not go on with it. -/
theorem goesFar_behind_word (word : List Char) (ahead rest : List Char) (text : String)
    (start depth : Nat) :
    Token.GoesFar ahead (rest.dropWhile isNameChar) ⟨wordKind word, text, start, depth⟩ := by
  have hbehind : (rest.dropWhile isNameChar).head?.any isNameChar = false := by
    have hnot := List.head?_dropWhile_not isNameChar rest
    cases hrest : rest.dropWhile isNameChar with
    | nil => rfl
    | cons d more => simpa [hrest] using hnot
  rcases wordKind_cases word with hkind | hkind
  · rw [hkind]
    exact hbehind
  · rw [hkind]
    exact hbehind

theorem goesFar_word (c : Char) (rest : List Char) :
    (Head.token (wordKind (c :: rest.takeWhile isNameChar)) (nameLength rest)).GoesFar c rest := by
  intro start depth
  have hdrop : rest.drop (nameLength rest) = rest.dropWhile isNameChar := by
    have hsplit : (rest.takeWhile isNameChar ++ rest.dropWhile isNameChar).drop
        (rest.takeWhile isNameChar).length = rest.dropWhile isNameChar := List.drop_left
    rwa [List.takeWhile_append_dropWhile] at hsplit
  rw [hdrop]
  exact goesFar_behind_word _ _ _ _ start depth

theorem goesFar_operator (c : Char) (rest : List Char) :
    Head.GoesFar c rest
      (match operator? (c :: rest) with
        | some operator => .token .operator (operator.toList.length - 1)
        | none => .fault (.unexpectedCharacter c) 0) := by
  cases hoperator : operator? (c :: rest) with
  | none => trivial
  | some operator =>
    intro start depth
    have hlongest := longestOperator_of_operator? hoperator
    have hne := (operators_spell operator hlongest.1).1
    have hprefix := List.isPrefixOf_iff_prefix.mpr hlongest.2.1
    rw [(take_of_isPrefixOf hprefix hne).2, String.ofList_toList]
    exact hlongest

theorem goesFar_head (operand : Bool) (c : Char) (rest : List Char) :
    (head operand c rest).GoesFar c rest := by
  unfold head
  refine iteInduction (motive := Head.GoesFar c rest) (fun _ _ _ => trivial) fun hfeed => ?_
  refine iteInduction (motive := Head.GoesFar c rest) (fun _ _ _ => trivial) fun _ => ?_
  refine iteInduction (motive := Head.GoesFar c rest) (fun _ _ _ => trivial) fun _ => ?_
  refine iteInduction (motive := Head.GoesFar c rest) (fun _ => goesFar_lineComment hfeed)
    fun _ => ?_
  refine iteInduction (motive := Head.GoesFar c rest) ?_ fun _ => ?_
  · rintro ⟨rfl, hrest⟩
    split
    · exact goesFar_blockComment hrest _
    · trivial
  refine iteInduction (motive := Head.GoesFar c rest) (fun _ => trivial) fun _ => ?_
  refine iteInduction (motive := Head.GoesFar c rest) (fun _ => trivial) fun _ => ?_
  refine iteInduction (motive := Head.GoesFar c rest) (fun _ => trivial) fun _ => ?_
  refine iteInduction (motive := Head.GoesFar c rest) (fun _ => trivial) fun _ => ?_
  refine iteInduction (motive := Head.GoesFar c rest) (fun _ => goesFar_word c rest) fun _ => ?_
  refine iteInduction (motive := Head.GoesFar c rest) (fun _ _ _ => trivial) fun _ => ?_
  exact goesFar_operator c rest

end Heads

namespace Lexer

def AllGoFar (text : List Char) (tokens : List Token) : Prop :=
  ∀ token ∈ tokens, GoesFar (dropBytes token.start text) (dropBytes token.stop text) token

section Moving

variable {text : List Char} {lexer next : Lexer} {c : Char} {rest : List Char}

theorem Leaves.dropBytes_eq {remaining : List Char} (h : lexer.Leaves text remaining) :
    dropBytes lexer.reached text = remaining := by
  obtain ⟨read, rfl, hread⟩ := h
  rw [← hread, dropBytes_byteLength]

/-- A token is made of the text that the earlier ones leave. -/
theorem AllGoFar.emit (h : AllGoFar text lexer.tokens) (word remaining : List Char)
    (hleaves : lexer.Leaves text (word ++ remaining)) {kind : Kind} {depth : Nat}
    (hfar : GoesFar (word ++ remaining) remaining
      ⟨kind, String.ofList word, lexer.reached, depth⟩) :
    AllGoFar text (lexer.emit kind depth word).tokens := by
  refine List.forall_mem_cons.mpr ⟨?_, h⟩
  have hstop : (Token.mk kind (String.ofList word) lexer.reached depth).stop =
      (lexer.emit kind depth word).reached := by
    simp [Token.stop, Lexer.emit]
  rw [hstop, (hleaves.emit word kind depth).dropBytes_eq]
  rw [← hleaves.dropBytes_eq] at hfar
  exact hfar

/-- A path goes as far as it can, name by name and point by point. -/
theorem AllGoFar.namePath (h : AllGoFar text lexer.tokens)
    (hleaves : lexer.Leaves text (c :: rest)) (depth : Nat) :
    AllGoFar text (lexer.namePath depth c rest).tokens := by
  have hword : ∀ {lexer : Lexer} {c rest}, AllGoFar text lexer.tokens →
      lexer.Leaves text (c :: rest) → AllGoFar text
        (lexer.emit (wordKind (c :: rest.takeWhile isNameChar)) depth
          (c :: rest.takeWhile isNameChar)).tokens := by
    intro lexer c rest h hleaves
    refine h.emit _ (rest.dropWhile isNameChar) ?_ (goesFar_behind_word _ _ _ _ _ _)
    rwa [List.cons_append, List.takeWhile_append_dropWhile]
  fun_induction Lexer.namePath lexer depth c rest with
  | case1 lexer c rest word named next after hafter hstart ih =>
    have hbehind := hleaves.word depth
    rw [hafter] at hbehind
    exact ih ((hword h hleaves).emit ['.'] _ hbehind (longestOperator_point hstart after))
      (Leaves.emit ['.'] hbehind _ _)
  | case2 lexer c rest word named next after hafter hstart => exact hword h hleaves
  | case3 lexer c rest word named hne => exact hword h hleaves

theorem AllGoFar.flush (h : AllGoFar text lexer.tokens) : AllGoFar text lexer.flush.tokens := by
  unfold Lexer.flush
  split
  · exact h
  · exact List.forall_mem_cons.mpr ⟨trivial, h⟩

/-- Every move makes tokens that go as far as they can. -/
theorem AllGoFar.move (h : AllGoFar text lexer.tokens) (hinvariant : Invariant text lexer)
    (hrest : lexer.rest = c :: rest) (hmove : lexer.Moves c rest next) :
    AllGoFar text next.tokens := by
  have hplain : ∀ {token : Token} {tokens : List Token}, AllGoFar text tokens →
      (∀ ahead behind, GoesFar ahead behind token) → AllGoFar text (token :: tokens) :=
    fun htokens htoken => List.forall_mem_cons.mpr ⟨htoken _ _, htokens⟩
  cases hmove with
  | @token kind more hcode _ hhead =>
    have hfar := goesFar_head (operandExpected lexer.tokens) c rest
    rw [hhead] at hfar
    have hleaves := hinvariant.laid.leaves
    rw [hinvariant.piece_nil hcode, hrest] at hleaves
    have hsplit : c :: rest = (c :: rest.take more) ++ rest.drop more := by
      rw [List.cons_append, List.take_append_drop]
    refine h.emit _ (rest.drop more) (hsplit ▸ hleaves) ?_
    rw [← hsplit]
    exact hfar _ _
  | openLiteral _ _ _ => exact h
  | closeHole _ _ => exact hplain h fun _ _ => trivial
  | closeLiteral _ _ => exact hplain h fun _ _ => trivial
  | plain _ _ _ => exact h
  | escaped _ _ _ _ => exact h
  | openHole _ _ _ _ => exact hplain h.flush fun _ _ => trivial
  | @shortName _ _ _ d after hframes _ hc hafter _ =>
    have hleaves := (hinvariant.flush (by rw [hframes]; rfl)).leaves
    rw [hrest, hc, hafter] at hleaves
    have hopening : AllGoFar text
        (lexer.flush.emit .interpolationStart lexer.flush.depth ['$']).tokens :=
      hplain h.flush fun _ _ => trivial
    exact hplain (hopening.namePath (Leaves.emit ['$'] hleaves _ _) _) fun _ _ => trivial

/-- The first line of a text may be a comment, but does not span lines. -/
theorem allGoFar_start (text : List Char) :
    AllGoFar text (afterMark text).afterShebang.tokens := by
  have hmark : AllGoFar text (afterMark text).tokens := by
    unfold afterMark
    split
    · split
      · exact List.forall_mem_cons.mpr ⟨trivial, by simp⟩
      · simp [AllGoFar]
    · simp [AllGoFar]
  unfold afterShebang
  split
  · refine List.forall_mem_cons.mpr ⟨fun hfeed => ?_, hmark⟩
    rw [String.toList_ofList, List.mem_cons] at hfeed
    rcases hfeed with hfeed | hfeed
    · simp at hfeed
    · exact absurd hfeed (not_mem_take_lineLength _)
  · exact hmark

theorem Reads.allGoFar (h : Reads text lexer) : AllGoFar text lexer.tokens := by
  induction h with
  | start => exact allGoFar_start text
  | step hreads hrest hstep ih => exact ih.move hreads.invariant hrest (moves_of_step hstep)

end Moving

end Lexer

section Texts

variable {text : List Char} {tokens : List Token} {token : Token}

theorem goesFar_of_lex (h : lex text = .ok tokens) (hmem : token ∈ tokens) :
    GoesFar (dropBytes token.start text) (dropBytes token.stop text) token := by
  obtain ⟨last, hreads, -, -, rfl⟩ := Lexer.exists_reads_of_lex h
  exact hreads.allGoFar token (List.mem_reverse.mp hmem)

theorem isNameChar_of_isNameStart {c : Char} (h : isNameStart c = true) : isNameChar c = true := by
  simp only [isNameStart, Bool.or_eq_true] at h
  rcases h with (h | h) | h <;> simp [isNameChar, h]

theorem wordKind_eq_keyword_iff {word : String} :
    wordKind word.toList = .keyword ↔ word ∈ Lexicon.keywords := by
  rw [wordKind, String.ofList_toList, Lexicon.isKeyword]
  split
  · rename_i hword
    simpa using hword
  · rename_i hword
    simpa using hword

/-- A line feed of the text is in a token that spans lines. -/
theorem exists_token_of_feed (h : lex text = .ok tokens) {offset : Nat}
    (hfeed : charAt? offset text = some '\n') :
    ∃ token ∈ tokens, token.start ≤ offset ∧ offset < token.stop ∧
      (token.kind = .newline ∨ token.kind = .literal ∨
        token.kind = .comment ∧ ['/', '*'] <+: token.text.toList) := by
  obtain ⟨position, token, htoken, hstart, hstop⟩ := exists_token h (lt_of_charAt? hfeed)
  have hmem := List.mem_of_getElem? htoken
  refine ⟨token, hmem, hstart, hstop, ?_⟩
  have hheld : '\n' ∈ token.text.toList := (stands_token h hmem).mem hfeed hstart hstop
  have hspacing : isSpacing '\n' = true := rfl
  have hfits := fits_token h htoken
  have hfar := goesFar_of_lex h hmem
  unfold Fits at hfits
  unfold GoesFar at hfar
  cases hkind : token.kind with
  | newline => exact Or.inl rfl
  | literal => exact Or.inr (Or.inl rfl)
  | comment =>
    simp only [hkind] at hfar
    exact Or.inr (Or.inr ⟨rfl, hfar hheld⟩)
  | blank =>
    simp only [hkind] at hfits
    exact absurd hheld hfits.2
  | interpolationEnd =>
    simp only [hkind] at hfits
    rcases hfits with hfits | ⟨hfits, -⟩ <;> simp [hfits] at hheld
  | identifier | keyword | number | operator | interpolationStart =>
    simp only [hkind] at hfits
    simp [hfits.2 _ hheld] at hspacing

end Texts

/-- The shape of tokens. An operator is the longest of the table that the text starts with where
the operator starts. A word starts with a character that names start with, takes all characters
of names from there on, and is a keyword exactly if it is in the table of keywords. A line end is
a line feed, by itself or after a carriage return. And a line feed of the text is in a line end, in
a comment that starts with `/*` or in a piece of a literal. -/
theorem shape_of_lex {text : List Char} {tokens : List Token} (h : lex text = .ok tokens) :
    (∀ token ∈ tokens, token.kind = .operator →
      LongestOperator (dropBytes token.start text) token.text) ∧
    (∀ token ∈ tokens, token.kind = .identifier ∨ token.kind = .keyword →
      token.text.toList <+: dropBytes token.start text ∧
        token.text.toList.head?.any isNameStart = true ∧
        (∀ c ∈ token.text.toList, isNameChar c = true) ∧
        (dropBytes token.stop text).head?.any isNameChar = false ∧
        (token.kind = .keyword ↔ token.text ∈ Lexicon.keywords)) ∧
    (∀ token ∈ tokens, token.kind = .newline → token.text = "\n" ∨ token.text = "\r\n") ∧
    ∀ offset, (encode (String.ofList text))[offset]? = some 10 →
      ∃ token ∈ tokens, token.start ≤ offset ∧ offset < token.stop ∧
        (token.kind = .newline ∨ token.kind = .literal ∨
          token.kind = .comment ∧ "/*".toList <+: token.text.toList) := by
  refine ⟨fun token hmem hkind => ?_, fun token hmem hkind => ?_, fun token hmem hkind => ?_,
    fun offset hfeed => ?_⟩
  · have hfar := goesFar_of_lex h hmem
    rwa [GoesFar, hkind] at hfar
  · obtain ⟨hword, c, more, htext, hstart, hmore⟩ := holdsName_of_lex h hmem hkind
    obtain ⟨before, after, hwhole, hbefore⟩ := stands_token h hmem
    have hfar := goesFar_of_lex h hmem
    refine ⟨?_, ?_, ?_, ?_, ?_⟩
    · rw [← hbefore, hwhole, dropBytes_byteLength]
      exact ⟨after, rfl⟩
    · rw [htext]
      exact hstart
    · rw [htext]
      exact List.forall_mem_cons.mpr ⟨isNameChar_of_isNameStart hstart, hmore⟩
    · rcases hkind with hkind | hkind
      · rwa [GoesFar, hkind] at hfar
      · rwa [GoesFar, hkind] at hfar
    · rw [hword, wordKind_eq_keyword_iff]
  · obtain ⟨position, htoken⟩ := List.mem_iff_getElem?.mp hmem
    have hfits := fits_token h htoken
    rw [Fits, hkind] at hfits
    exact hfits.imp String.toList_inj.mp String.toList_inj.mp
  · rw [encode_ofList] at hfeed
    exact exists_token_of_feed h (charAt?_of_feed hfeed)

/-- A text with operators from the table and from a name in a literal, with words of both kinds
and with line feeds in all three places. -/
theorem shape_of_lex_mixed :
    ∃ tokens, lex "a?.b\r\n/*\n*/new C(\"\"\"$d.e\n\"\"\")".toList = .ok tokens ∧
      tokens.length = 17 ∧
      (∀ token ∈ tokens, token.kind = .operator → LongestOperator
        (dropBytes token.start "a?.b\r\n/*\n*/new C(\"\"\"$d.e\n\"\"\")".toList) token.text) ∧
      ∀ token ∈ tokens, token.kind = .newline → token.text = "\n" ∨ token.text = "\r\n" := by
  have hrun : ((lex "a?.b\r\n/*\n*/new C(\"\"\"$d.e\n\"\"\")".toList).toOption.any fun tokens =>
      tokens.length == 17) = true := by decide +kernel
  generalize "a?.b\r\n/*\n*/new C(\"\"\"$d.e\n\"\"\")".toList = text at hrun ⊢
  cases hlex : lex text with
  | error fault => simp [hlex, Except.toOption] at hrun
  | ok tokens =>
    have hshape := shape_of_lex hlex
    exact ⟨tokens, rfl, by simpa [hlex, Except.toOption] using hrun, hshape.1, hshape.2.2.1⟩

end UnusedImports.Token
