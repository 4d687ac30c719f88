import UnusedImports.Proofs.Token.Moves

/-!
Names written after a `$` in a literal. Such a name is the longest run of characters of names
from a letter or an underscore on, points join further names to it, and the interpolated
expression ends after the last of them without a sign of its own. The characters of names include
`$`: a name that a `$` follows goes on with it, and no expression starts there. Every other `$`
that may start one does, since none is left in the pieces of literals.
-/
namespace UnusedImports.Token

open UnusedImports.Text

/-- The token is a name as one is read after a `$`: the longest run of characters of names from
its start on, of which the first is a letter or an underscore. -/
structure ShortName (text : List Char) (token : Token) : Prop where
  kind : token.kind = .identifier ∨ token.kind = .keyword
  first : token.text.toList.head?.any isShortNameStart = true
  chars : ∀ c ∈ token.text.toList, isNameChar c = true
  longest : ∃ before after, text = before ++ (token.text.toList ++ after) ∧
    byteLength before = token.start ∧ after.head?.any isNameChar = false

def DollarFollows (text : List Char) (start : Nat) : Prop :=
  ∃ proper, proper ≠ [] ∧ (∀ c ∈ proper, isNameChar c = true ∧ c ≠ '$') ∧
    Stands text (proper ++ ['$']) start

inductive Names (text : List Char) : List Token → Prop
  | last {name : Token} (hname : ShortName text name) : Names text [name]
  | next {name dot : Token} {names : List Token} (hname : ShortName text name)
      (hdot : dot.kind = .operator ∧ dot.text = ".") (hnames : Names text names) :
      Names text (name :: dot :: names)

def OpensName (token : Token) : Prop := token.kind = .interpolationStart ∧ token.text = "$"

def ClosesName (token : Token) : Prop := token.kind = .interpolationEnd ∧ token.text = ""

/-- Tokens, the latest first, in which every name in a literal is opened, read and closed. -/
inductive Paved (text : List Char) : List Token → Prop
  | nil : Paved text []
  | other {token : Token} {earlier : List Token} (htoken : ¬ OpensName token)
      (hearlier : Paved text earlier) : Paved text (token :: earlier)
  | name {opening closing : Token} {names earlier : List Token} (hopening : OpensName opening)
      (hnames : Names text names) (hclosing : ClosesName closing)
      (hearlier : Paved text earlier) :
      Paved text (closing :: (names.reverse ++ opening :: earlier))

/-- Characters of a literal in which no interpolated expression starts: a character that escapes
the next one is taken together with it, and no other opens an expression before what follows. -/
inductive Inert (quoting : Quoting) (after : List Char) : List Char → Prop
  | nil : Inert quoting after []
  | escaped {first second : Char} {body : List Char}
      (hescapes : quoting.escapes first second = true) (hbody : Inert quoting after body) :
      Inert quoting after (first :: second :: body)
  | plain {c : Char} {body : List Char}
      (hnext : ∀ next, (body ++ after).head? = some next →
        quoting.escapes c next = false ∧ ¬ Lexer.OpensHole quoting c next)
      (hbody : Inert quoting after body) : Inert quoting after (c :: body)

def ReadIn (text : List Char) (quoting : Quoting) (token : Token) : Prop :=
  ∃ lexer opened outer, Lexer.Reads text lexer ∧
    lexer.frames = .literal quoting opened :: outer ∧ lexer.reached = token.start

def Plain (text : List Char) (quoting : Quoting) (token : Token) : Prop :=
  ∃ before opening body closing after,
    text = before ++ (token.text.toList ++ after) ∧ byteLength before = token.start ∧
    token.text.toList = opening ++ body ++ closing ∧
    (opening = [] ∨ opening = quoting.opening) ∧ (closing = [] ∨ closing = quoting.closing) ∧
    Inert quoting (closing ++ after) body

section Words

variable {text : List Char} {token : Token}

theorem isNameChar_of_isShortNameStart {c : Char} (h : isShortNameStart c = true) :
    isNameChar c = true := by
  rcases Bool.or_eq_true_iff.mp h with h | h
  · simp [isNameChar, h]
  · simp [isNameChar, h]

/-- A name goes on with a `$` exactly where one follows. -/
theorem ShortName.dollar_mem_iff (h : ShortName text token) :
    '$' ∈ token.text.toList ↔ DollarFollows text token.start := by
  obtain ⟨before, after, htext, hbefore, hafter⟩ := h.longest
  constructor
  · intro hmem
    obtain ⟨proper, more, hword, hproper⟩ := List.eq_append_cons_of_mem hmem
    refine ⟨proper, ?_, fun c hc => ⟨h.chars c ?_, fun heq => hproper (heq ▸ hc)⟩,
      before, more ++ after, ?_, hbefore⟩
    · rintro rfl
      have hfirst := h.first
      rw [hword] at hfirst
      exact absurd hfirst (show ¬ isShortNameStart '$' = true by decide)
    · rw [hword]
      exact List.mem_append_left _ hc
    · rw [htext, hword]
      simp
  · rintro ⟨proper, -, hproper, before', after', htext', hbefore'⟩
    have hsame : token.text.toList ++ after = (proper ++ ['$']) ++ after' := by
      rw [← dropBytes_byteLength before (token.text.toList ++ after), ← htext, hbefore, ← hbefore',
        htext', dropBytes_byteLength]
    rcases List.append_eq_append_iff.mp hsame with ⟨more, hword, hmore⟩ | ⟨more, hword, -⟩
    · -- The run of characters of names would have gone on with what is left over.
      cases more with
      | nil =>
        rw [List.append_nil] at hword
        simp [← hword]
      | cons d more =>
        have hmem : d ∈ proper ++ ['$'] := by simp [hword]
        have hchar : isNameChar d = true := by
          rcases List.mem_append.mp hmem with hmem | hmem
          · exact (hproper d hmem).1
          · rw [List.mem_singleton.mp hmem]
            rfl
        simp [hmore, hchar] at hafter
    · simp [hword]

theorem Names.shortName {names : List Token} (h : Names text names) :
    ∀ token ∈ names, token.kind ≠ .operator → ShortName text token := by
  induction h with
  | last hname => simpa using fun _ => hname
  | next hname hdot _ ih =>
    intro token hmem hkind
    rcases List.mem_cons.mp hmem with rfl | hmem
    · exact hname
    rcases List.mem_cons.mp hmem with rfl | hmem
    · exact absurd hdot.1 hkind
    · exact ih token hmem hkind

theorem Names.not_opensName {names : List Token} (h : Names text names) {token : Token}
    (hmem : token ∈ names) : ¬ OpensName token := by
  intro hopens
  have hkind := (h.shortName token hmem (by simp [hopens.1])).kind
  simp [hopens.1] at hkind

/-- After a token that opens a name come the names and the token that closes them. -/
theorem Paved.exists_names {tokens : List Token} (h : Paved text tokens) {opening : Token}
    {later earlier : List Token} (htokens : tokens = later ++ opening :: earlier)
    (hopening : OpensName opening) :
    ∃ names closing more, later = more ++ closing :: names.reverse ∧ Names text names ∧
      ClosesName closing := by
  induction h generalizing later with
  | nil => simp at htokens
  | other htoken _ ih =>
    cases later with
    | nil =>
      obtain ⟨rfl, -⟩ := List.cons.inj htokens
      exact absurd hopening htoken
    | cons last later =>
      obtain ⟨-, hlater⟩ := List.cons.inj htokens
      obtain ⟨names, closing, more, rfl, hnames, hclosing⟩ := ih hlater
      exact ⟨names, closing, last :: more, rfl, hnames, hclosing⟩
  | @name first closing names before hfirst hnames hclosing _ ih =>
    cases later with
    | nil =>
      obtain ⟨rfl, -⟩ := List.cons.inj htokens
      simp [hopening.1, ClosesName] at hclosing
    | cons last later =>
      obtain ⟨rfl, hlater⟩ := List.cons.inj htokens
      rcases List.append_eq_append_iff.mp hlater with ⟨more, rfl, hmore⟩ | ⟨more, hnames', hmore⟩
      · cases more with
        | nil => exact ⟨names, closing, [], by simp, hnames, hclosing⟩
        | cons other more =>
          obtain ⟨rfl, hbefore⟩ := List.cons.inj hmore
          obtain ⟨names', closing', more', rfl, hnames', hclosing'⟩ := ih hbefore
          exact ⟨names', closing', closing :: (names.reverse ++ first :: more'), by simp,
            hnames', hclosing'⟩
      · cases more with
        | nil =>
          rw [List.append_nil] at hnames'
          exact ⟨names, closing, [], by simp [hnames'], hnames, hclosing⟩
        | cons other more =>
          obtain ⟨rfl, -⟩ := List.cons.inj hmore
          have hmem : opening ∈ names.reverse := by simp [hnames']
          exact absurd hopening (hnames.not_opensName (List.mem_reverse.mp hmem))

theorem Inert.append {quoting : Quoting} {first second after : List Char}
    (hfirst : Inert quoting (second ++ after) first) (hsecond : Inert quoting after second) :
    Inert quoting after (first ++ second) := by
  induction hfirst with
  | nil => exact hsecond
  | escaped hescapes _ ih => exact .escaped hescapes ih
  | plain hnext _ ih => exact .plain (by simpa using hnext) ih

end Words

namespace Lexer

def Leaves (text : List Char) (lexer : Lexer) (remaining : List Char) : Prop :=
  ∃ read, text = read ++ remaining ∧ byteLength read = lexer.reached

section Leaving

variable {text : List Char} {lexer next : Lexer} {c : Char} {rest : List Char}

theorem Laid.leaves {remaining : List Char}
    (h : Laid text lexer.tokens lexer.reached remaining) : lexer.Leaves text remaining := by
  have hcovers := h.covers [(lexer.reached, remaining)] ⟨rfl, [], by simp, rfl⟩
  refine ⟨(lexer.tokens.reverse.map part).flatMap Prod.snd, ?_, ?_⟩
  · have htext := hcovers.flatMap_eq
    rw [List.flatMap_append, List.flatMap_singleton] at htext
    exact htext.symm
  · have hlast : ((lexer.tokens.reverse.map part ++ [(lexer.reached, remaining)]).map
        extentOf).getLast? = some (extentOf (lexer.reached, remaining)) := by simp
    have hstop := hcovers.tiles.stop_eq hlast
    have hlength := congrArg byteLength hcovers.flatMap_eq
    rw [List.flatMap_append, List.flatMap_singleton, byteLength_append] at hlength
    simp only [extentOf] at hlength hstop
    omega

theorem Leaves.emit {remaining : List Char} (word : List Char)
    (h : lexer.Leaves text (word ++ remaining)) (kind : Kind) (depth : Nat) :
    (lexer.emit kind depth word).Leaves text remaining := by
  obtain ⟨read, htext, hread⟩ := h
  exact ⟨read ++ word, by simp [htext], by rw [byteLength_append, hread]; rfl⟩

theorem Leaves.shortName (h : lexer.Leaves text (c :: rest)) (hc : isShortNameStart c = true)
    (depth : Nat) :
    ShortName text ⟨wordKind (c :: rest.takeWhile isNameChar),
      String.ofList (c :: rest.takeWhile isNameChar), lexer.reached, depth⟩ := by
  obtain ⟨read, htext, hread⟩ := h
  refine ⟨kind_word _, by simpa using hc, ?_, read, rest.dropWhile isNameChar, ?_, hread, ?_⟩
  · intro d hd
    rw [String.toList_ofList] at hd
    rcases List.mem_cons.mp hd with rfl | hd
    · exact isNameChar_of_isShortNameStart hc
    · exact List.all_eq_true.mp List.all_takeWhile d hd
  · rw [String.toList_ofList, List.cons_append, List.takeWhile_append_dropWhile]
    exact htext
  · cases hafter : rest.dropWhile isNameChar with
    | nil => rfl
    | cons d after =>
      have hd := List.head?_dropWhile_not isNameChar rest
      simpa [hafter] using hd

theorem Leaves.word (h : lexer.Leaves text (c :: rest)) (depth : Nat) :
    (lexer.emit (wordKind (c :: rest.takeWhile isNameChar)) depth
      (c :: rest.takeWhile isNameChar)).Leaves text (rest.dropWhile isNameChar) := by
  refine Leaves.emit _ ?_ _ _
  rwa [List.cons_append, List.takeWhile_append_dropWhile]

theorem Leaves.exists_names (h : lexer.Leaves text (c :: rest)) (hc : isShortNameStart c = true)
    (depth : Nat) :
    ∃ names, Names text names ∧
      (lexer.namePath depth c rest).tokens = names.reverse ++ lexer.tokens := by
  fun_induction Lexer.namePath lexer depth c rest with
  | case1 lexer c rest word named next after hafter hstart ih =>
    have hleaves := h.word depth
    rw [hafter] at hleaves
    obtain ⟨names, hnames, htokens⟩ := ih (Leaves.emit ['.'] hleaves _ _) hstart
    let dot : Token := ⟨.operator, ".", named.reached, depth⟩
    refine ⟨_, .next (h.shortName hc depth) (show dot.kind = .operator ∧ dot.text = "." from
      ⟨rfl, rfl⟩) hnames, ?_⟩
    rw [htokens]
    simp [dot, named, word, Lexer.emit]
  | case2 lexer c rest word named next after hafter hstart =>
    exact ⟨_, .last (h.shortName hc depth), rfl⟩
  | case3 lexer c rest word named hne => exact ⟨_, .last (h.shortName hc depth), rfl⟩

end Leaving

def LiteralsPlain (text : List Char) (tokens : List Token) : Prop :=
  ∀ token ∈ tokens, token.kind = .literal →
    ∃ quoting, ReadIn text quoting token ∧ Plain text quoting token

def PieceInert (lexer : Lexer) : Prop :=
  ∀ quoting opened outer, lexer.frames = .literal quoting opened :: outer →
    ∃ opening body, lexer.piece.reverse = opening ++ body ∧
      (opening = [] ∨ opening = quoting.opening) ∧ Inert quoting lexer.rest body

section Moving

variable {text : List Char} {lexer next : Lexer} {c : Char} {rest : List Char}

theorem LiteralsPlain.cons {tokens : List Token} {token : Token} (h : LiteralsPlain text tokens)
    (htoken : token.kind = .literal →
      ∃ quoting, ReadIn text quoting token ∧ Plain text quoting token) :
    LiteralsPlain text (token :: tokens) := by
  intro other hmem hkind
  rcases List.mem_cons.mp hmem with rfl | hmem
  · exact htoken hkind
  · exact h other hmem hkind

theorem literalsPlain_append {names tokens : List Token} (hnames : Names text names)
    (h : LiteralsPlain text tokens) : LiteralsPlain text (names.reverse ++ tokens) := by
  intro token hmem hkind
  rcases List.mem_append.mp hmem with hmem | hmem
  · have hword := (hnames.shortName token (List.mem_reverse.mp hmem) (by simp [hkind])).kind
    simp [hkind] at hword
  · exact h token hmem hkind

/-- The piece under way becomes a token, alone or with the delimiter after it. -/
theorem PieceInert.plain (h : lexer.PieceInert) (hreads : Reads text lexer) {quoting : Quoting}
    {opened : Nat} {outer : List Frame} (hframes : lexer.frames = .literal quoting opened :: outer)
    (closing : List Char) {after : List Char} (hclosing : closing = [] ∨ closing = quoting.closing)
    (hrest : lexer.rest = closing ++ after) (depth : Nat) :
    ∃ quoting, ReadIn text quoting
        ⟨.literal, String.ofList (lexer.piece.reverse ++ closing), lexer.reached, depth⟩ ∧
      Plain text quoting
        ⟨.literal, String.ofList (lexer.piece.reverse ++ closing), lexer.reached, depth⟩ := by
  obtain ⟨read, htext, hread⟩ := hreads.invariant.laid.leaves
  obtain ⟨opening, body, hpiece, hopening, hbody⟩ := h quoting opened outer hframes
  refine ⟨quoting, ⟨lexer, opened, outer, hreads, hframes, rfl⟩,
    read, opening, body, closing, after, ?_, hread, ?_, hopening, hclosing, hrest ▸ hbody⟩
  · rw [String.toList_ofList, htext, hrest, List.append_assoc lexer.piece.reverse]
  · rw [String.toList_ofList, hpiece]

theorem PieceInert.flush (h : lexer.PieceInert) (hreads : Reads text lexer) {quoting : Quoting}
    {opened : Nat} {outer : List Frame} (hframes : lexer.frames = .literal quoting opened :: outer)
    (hliterals : LiteralsPlain text lexer.tokens) : LiteralsPlain text lexer.flush.tokens := by
  unfold Lexer.flush
  split
  · exact hliterals
  · refine hliterals.cons fun _ => ?_
    have hplain := h.plain hreads hframes [] (Or.inl rfl) rfl lexer.depth
    rwa [List.append_nil] at hplain

structure Tidy (text : List Char) (lexer : Lexer) : Prop where
  paved : Paved text lexer.tokens
  literals : LiteralsPlain text lexer.tokens
  inert : lexer.PieceInert

theorem paved_flush (h : Paved text lexer.tokens) : Paved text lexer.flush.tokens := by
  unfold Lexer.flush
  split
  · exact h
  · exact .other (by simp [OpensName]) h

theorem paved_of_trivia {tokens : List Token} (h : ∀ token ∈ tokens, token.isTrivia = true) :
    Paved text tokens := by
  induction tokens with
  | nil => exact .nil
  | cons token tokens ih =>
    refine .other (fun hopens => ?_) (ih fun other hmem => h other (List.mem_cons_of_mem _ hmem))
    have htrivia := h token List.mem_cons_self
    simp [isTrivia, hopens.1] at htrivia

theorem pieceInert_of_isCode (h : isCode lexer.frames = true) : lexer.PieceInert := by
  intro quoting opened outer hframes
  simp [hframes, isCode] at h

theorem pieceInert_of_piece (h : lexer.piece = []) : lexer.PieceInert := by
  intro quoting opened outer _
  exact ⟨[], [], by simp [h], Or.inl rfl, .nil⟩

theorem PieceInert.extend (h : lexer.PieceInert) {quoting : Quoting} {opened : Nat}
    {outer : List Frame} (hframes : lexer.frames = .literal quoting opened :: outer)
    (read : List Char) {later : List Char} (hrest : lexer.rest = read ++ later)
    (hread : Inert quoting later read) :
    PieceInert { lexer with piece := read.reverse ++ lexer.piece, rest := later } := by
  intro other opened' outer' hframes'
  obtain ⟨⟨rfl, -⟩, -⟩ : (quoting = other ∧ opened = opened') ∧ outer = outer' := by
    simpa using hframes.symm.trans hframes'
  obtain ⟨opening, body, hpiece, hopening, hbody⟩ := h quoting opened outer hframes
  rw [hrest] at hbody
  exact ⟨opening, body ++ read, by simp [hpiece], hopening, hbody.append hread⟩

/-- A `$` and the names after it are tokens of their own, and a new piece begins behind them. -/
theorem Tidy.shortName (h : Tidy text lexer) (hreads : Reads text lexer) {quoting : Quoting}
    {opened : Nat} {outer : List Frame} (hframes : lexer.frames = .literal quoting opened :: outer)
    {d : Char} {after : List Char} (hrest : lexer.rest = '$' :: d :: after)
    (hstart : isShortNameStart d = true) :
    Tidy text (((lexer.flush.emit .interpolationStart lexer.flush.depth ['$']).namePath
      (lexer.flush.depth + 1) d after).emit .interpolationEnd lexer.flush.depth []) := by
  have hliteral : isCode lexer.frames = false := by rw [hframes]; rfl
  have hleaves : lexer.flush.Leaves text ('$' :: d :: after) := by
    rw [← hrest]
    exact (hreads.invariant.flush hliteral).leaves
  obtain ⟨names, hnames, htokens⟩ := (Leaves.emit ['$'] hleaves .interpolationStart
    lexer.flush.depth).exists_names hstart (lexer.flush.depth + 1)
  have hpiece : ((lexer.flush.emit .interpolationStart lexer.flush.depth ['$']).namePath
      (lexer.flush.depth + 1) d after).piece = [] :=
    (piece_namePath _ _ _ _).trans (piece_flush lexer)
  refine ⟨?_, LiteralsPlain.cons ?_ (by simp), pieceInert_of_piece hpiece⟩
  · rw [Lexer.emit, htokens]
    exact .name ⟨rfl, rfl⟩ hnames ⟨rfl, rfl⟩ (paved_flush h.paved)
  · rw [htokens]
    exact literalsPlain_append hnames ((h.inert.flush hreads hframes h.literals).cons (by simp))

/-- Every move keeps names and pieces of literals tidy. -/
theorem Tidy.move (h : Tidy text lexer) (hreads : Reads text lexer) (hrest : lexer.rest = c :: rest)
    (hmove : lexer.Moves c rest next) : Tidy text next := by
  have hinvariant := hreads.invariant
  cases hmove with
  | @token kind more hcode _ hhead =>
    have hfree := holeFree_head (operandExpected lexer.tokens) c rest
    have hdelivers := delivers_head (operandExpected lexer.tokens) c rest
    rw [hhead] at hfree hdelivers
    refine ⟨.other (fun hopens => hfree (Or.inl hopens.1)) h.paved,
      h.literals.cons fun hkind => absurd hkind hdelivers.1, pieceInert_of_isCode ?_⟩
    simpa using hcode
  | openLiteral hcode _ _ =>
    refine ⟨h.paved, h.literals, fun other opened outer hframes => ?_⟩
    obtain ⟨hframe, -⟩ := List.cons.inj hframes
    obtain ⟨rfl, -⟩ := Frame.literal.inj hframe
    exact ⟨_, [], by simp, Or.inr rfl, .nil⟩
  | closeHole hframes _ =>
    refine ⟨.other (by simp [OpensName]) h.paved, h.literals.cons (by simp), ?_⟩
    exact pieceInert_of_piece (hinvariant.piece_nil (by rw [hframes]; rfl))
  | @closeLiteral quoting opened outer hframes hclosing =>
    have halternates : Alternates (.literal quoting opened :: outer) :=
      hframes ▸ hinvariant.alternates
    obtain ⟨after, hafter⟩ := List.isPrefixOf_iff_prefix.mp hclosing
    refine ⟨.other (by simp [OpensName]) h.paved, h.literals.cons fun _ => ?_,
      pieceInert_of_isCode halternates.1⟩
    exact h.inert.plain hreads hframes _ (Or.inr rfl) (hrest.trans hafter.symm) lexer.depth
  | plain hframes _ hnext =>
    refine ⟨h.paved, h.literals, ?_⟩
    exact h.inert.extend hframes [c] hrest (.plain hnext .nil)
  | escaped hframes _ hafter hescapes =>
    refine ⟨h.paved, h.literals, ?_⟩
    rw [hafter] at hrest
    exact h.inert.extend hframes [c, _] hrest (.escaped hescapes .nil)
  | openHole hframes _ _ _ =>
    refine ⟨.other (by simp [OpensName]) (paved_flush h.paved),
      (h.inert.flush hreads hframes h.literals).cons (by simp), pieceInert_of_isCode rfl⟩
  | shortName hframes _ hc hafter hstart =>
    exact h.shortName hreads hframes (by rw [hrest, hc, hafter]) hstart

theorem Reads.tidy (h : Reads text lexer) : Tidy text lexer := by
  induction h with
  | start =>
    refine ⟨?_, ?_, pieceInert_of_isCode (by rw [frames_start]; rfl)⟩
    · exact paved_of_trivia fun token hmem => (trivia_start text token hmem).1
    · intro token hmem hkind
      have htrivia := (trivia_start text token hmem).1
      simp [isTrivia, hkind] at htrivia
  | step hreads hrest hstep ih => exact ih.move hreads hrest (moves_of_step hstep)

end Moving

end Lexer

/-- Names and literals in the tokens of a text. After every `$` that opens a name there are
names joined by points and the empty token that closes them; each name is the longest run of
characters of names from a letter or an underscore on, so it holds a `$` exactly if one follows the
letters, digits and underscores there. In the pieces of literals no expression starts, so every
other `$` that may start one, and is not escaped, does so. -/
theorem names_of_lex {text : List Char} {tokens : List Token} (h : lex text = .ok tokens) :
    (∀ before opening after, tokens = before ++ opening :: after → OpensName opening →
      ∃ names closing later, after = names ++ closing :: later ∧ Names text names ∧
        ClosesName closing ∧ ∀ name ∈ names, name.kind ≠ .operator →
          ('$' ∈ name.text.toList ↔ DollarFollows text name.start)) ∧
    ∀ token ∈ tokens, token.kind = .literal →
      ∃ quoting, ReadIn text quoting token ∧ Plain text quoting token := by
  obtain ⟨last, hreads, -, -, rfl⟩ := Lexer.exists_reads_of_lex h
  have htidy := hreads.tidy
  constructor
  · intro before opening after htokens hopening
    have hlatest : last.tokens = after.reverse ++ opening :: before.reverse := by
      rw [← List.reverse_reverse last.tokens, htokens]
      simp
    obtain ⟨names, closing, later, hafter, hnames, hclosing⟩ :=
      htidy.paved.exists_names hlatest hopening
    refine ⟨names, closing, later.reverse, ?_, hnames, hclosing, fun name hmem hkind => ?_⟩
    · rw [← List.reverse_reverse after, hafter]
      simp
    · exact (hnames.shortName name hmem hkind).dollar_mem_iff
  · intro token hmem
    exact htidy.literals token (List.mem_reverse.mp hmem)

/-- A name that ends before a quote, after a point, and one that goes on with a `$`. -/
theorem names_of_lex_joined :
    ∃ tokens, lex "\"$a.b $c$d\"".toList = .ok tokens ∧
      (tokens.filter fun token => token.kind = .identifier).map Token.text = ["a", "b", "c$d"] ∧
      ∀ before opening after, tokens = before ++ opening :: after → OpensName opening →
        ∃ names closing later, after = names ++ closing :: later ∧ ClosesName closing ∧
          ∀ name ∈ names, name.kind ≠ .operator →
            ('$' ∈ name.text.toList ↔ DollarFollows "\"$a.b $c$d\"".toList name.start) := by
  have hrun : ((lex "\"$a.b $c$d\"".toList).toOption.any fun tokens =>
      (tokens.filter fun token => token.kind = .identifier).map Token.text =
        ["a", "b", "c$d"]) = true := by decide +kernel
  generalize "\"$a.b $c$d\"".toList = text at hrun ⊢
  cases hlex : lex text with
  | error fault => simp [hlex, Except.toOption] at hrun
  | ok tokens =>
    refine ⟨tokens, rfl, by simpa [hlex, Except.toOption] using hrun,
      fun before opening after htokens hopening => ?_⟩
    obtain ⟨names, closing, later, hafter, -, hclosing, hdollar⟩ :=
      (names_of_lex hlex).1 before opening after htokens hopening
    exact ⟨names, closing, later, hafter, hclosing, hdollar⟩

/-- A name that is directly followed by a second `$` and a letter takes both in, so the second
`$` opens no expression. -/
theorem dollar_in_name :
    lex "\"$a$b\"".toList = .ok
      [⟨.literal, "\"", 0, 0⟩, ⟨.interpolationStart, "$", 1, 0⟩, ⟨.identifier, "a$b", 2, 1⟩,
        ⟨.interpolationEnd, "", 5, 0⟩, ⟨.literal, "\"", 5, 0⟩] := by
  have hrun : (lex "\"$a$b\"".toList).toOption = some
      [⟨.literal, "\"", 0, 0⟩, ⟨.interpolationStart, "$", 1, 0⟩, ⟨.identifier, "a$b", 2, 1⟩,
        ⟨.interpolationEnd, "", 5, 0⟩, ⟨.literal, "\"", 5, 0⟩] := by
    decide +kernel
  generalize lex "\"$a$b\"".toList = result at hrun ⊢
  cases result with
  | error fault => simp [Except.toOption] at hrun
  | ok tokens => exact congrArg Except.ok (Option.some.inj hrun)

end UnusedImports.Token
