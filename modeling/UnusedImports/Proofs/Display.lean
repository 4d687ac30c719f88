import Mathlib.Data.List.ReduceOption
import UnusedImports.Proofs.ImportReading
import UnusedImports.Proofs.Token.Word

/-!
The display of an import, read again. What an import says is written with single blanks, and each
part of it is read as the part it is: a name is a name wherever it stands, and only the first word
behind the keyword may be taken for `static`. So the display of an import is a source by itself,
with nothing in it but an import that says the same.
-/
namespace UnusedImports

namespace Outline

open Token

namespace Part

def written : Part → String
  | reserved text | segment text | identifier text => text
  | dot => "."
  | star => "*"
  | semicolon => ";"

def kind (part : Part) : Token.Kind :=
  match part with
  | reserved _ | segment _ | identifier _ => wordKind part.written.toList
  | dot | star | semicolon => .operator

/-- The part is read as itself where it is written. -/
def Proper : Part → Prop
  | reserved word => IsName word.toList ∧ wordKind word.toList = .keyword
  | segment text => IsName text.toList
  | identifier name => IsName name.toList ∧ wordKind name.toList = .identifier
  | dot | star | semicolon => True

theorem Spells.proper {part : Part} {text : List Char} {tokens : List Token} {token : Token}
    (h : part.Spells token) (hlex : lex text = .ok tokens) (hmem : token ∈ tokens) :
    part.Proper := by
  cases part with
  | reserved word =>
    simp only [Spells, isWord, Bool.and_eq_true, beq_iff_eq] at h
    have hname := holdsName_of_lex hlex hmem (Or.inr h.1)
    exact h.2 ▸ ⟨hname.name, hname.kind.symm.trans h.1⟩
  | segment word => exact h.2 ▸ (holdsName_of_lex hlex hmem h.1).name
  | identifier name =>
    have hname := holdsName_of_lex hlex hmem (Or.inl h.1)
    exact h.2 ▸ ⟨hname.name, hname.kind.symm.trans h.1⟩
  | dot | star | semicolon => trivial

/-- A proper part is spelt by a token that is written so. -/
theorem Proper.spells {part : Part} (h : part.Proper) {token : Token}
    (hkind : token.kind = part.kind) (htext : token.text = part.written) : part.Spells token := by
  cases part with
  | reserved word => simp [Spells, isWord, hkind, htext, kind, written, h.2]
  | segment word =>
    refine ⟨?_, htext⟩
    rw [hkind]
    exact (wordKind_cases _).symm
  | identifier name => exact ⟨hkind.trans h.2, htext⟩
  | dot => simp [Spells, isSign, hkind, htext, kind, written]
  | star => simp [Spells, isSign, hkind, htext, kind, written]
  | semicolon => simp [Spells, isSign, hkind, htext, kind, written]

end Part

def glyph : Option Part → Kind × List Char
  | some part => (part.kind, part.written.toList)
  | none => (.blank, [' '])

/-- An import that says this, written with its keyword: the parts and the blanks between. -/
def ImportClause.writing (clause : ImportClause) : List (Option Part) :=
  [some (.reserved "import"), none] ++
    (if clause.isStatic then [some (.reserved "static"), none] else []) ++
    (dottedParts clause.segments).map some ++
    (if clause.wildcard then [some .dot, some .star] else []) ++
    clause.aliasName.elim [] fun name =>
      [none, some (.reserved "as"), none, some (.identifier name)]

structure ImportClause.Proper (clause : ImportClause) : Prop where
  parts : ∀ part ∈ clause.parts false, part.Proper
  named : clause.segments ≠ []
  exclusive : clause.wildcard = true → clause.aliasName = none
  unmarked : clause.isStatic = false → clause.segments.head? ≠ some "static"

/-- Each part that is spelt is so by one of the tokens. -/
theorem exists_of_spells {parts : List Part} {tokens : List Token}
    (h : List.Forall₂ Part.Spells parts tokens) {part : Part} (hpart : part ∈ parts) :
    ∃ token ∈ tokens, part.Spells token := by
  induction h with
  | nil => simp at hpart
  | cons hfirst _ ih =>
    rcases List.mem_cons.mp hpart with rfl | hpart
    · exact ⟨_, List.mem_cons_self, hfirst⟩
    · obtain ⟨token, hmem, hspells⟩ := ih hpart
      exact ⟨token, List.mem_cons_of_mem _ hmem, hspells⟩

theorem proper_of_readsImport {text : List Char} {tokens : List Token} {keyword stop : Nat}
    {clause : ImportClause} {ended : Bool} (hlex : lex text = .ok tokens)
    (h : ReadsImport tokens keyword stop clause ended) : clause.Proper where
  parts part hpart := by
    have hended : part ∈ .reserved "import" :: clause.parts ended := by
      refine List.mem_cons_of_mem _ ?_
      simp only [ImportClause.parts, Bool.false_eq_true, if_false, List.append_nil] at hpart ⊢
      exact List.mem_append_left _ hpart
    obtain ⟨token, hmem, hspells⟩ := exists_of_spells h.parts hended
    have htoken := List.mem_of_mem_drop (List.mem_of_mem_take (List.mem_of_mem_filter hmem))
    exact hspells.proper hlex htoken
  named := h.named
  exclusive := h.exclusive
  unmarked hplain := by
    intro hfirst
    have hspells := (readsImport_iff h.starts h.forward h.stop_le).mp h
    obtain ⟨words, hwords⟩ := List.head?_eq_some_iff.mp hfirst
    have hspelt := hspells.spelt
    rw [ImportClause.parts, hplain, hwords, dottedParts_cons] at hspelt
    obtain ⟨symbol, rest, hnext, hfits, -⟩ := spelt_cons.mp hspelt
    have hmem : symbol ∈ (tokens.drop (keyword + 1)).map Token.symbol :=
      (List.dropWhile_sublist _).subset (hnext ▸ List.mem_cons_self)
    obtain ⟨token, htoken, rfl⟩ := List.mem_map.mp hmem
    obtain ⟨hkind, htext⟩ := Part.fits_symbol.mp hfits
    have hname := holdsName_of_lex hlex (List.mem_of_mem_drop htoken) hkind
    have hreserved : token.isWord "static" = true := by
      rw [isWord, hname.kind, htext]
      decide
    refine hspells.unmarked hplain ?_
    rw [next?, hnext, List.head?_cons, symbol_of_isWord hreserved]

section Writing

variable {clause : ImportClause}

theorem reduceOption_writing (clause : ImportClause) :
    clause.writing.reduceOption = .reserved "import" :: clause.parts false := by
  cases hstatic : clause.isStatic <;> cases hstar : clause.wildcard <;>
    cases halias : clause.aliasName <;>
    simp [ImportClause.writing, ImportClause.parts, hstatic, hstar, halias, List.reduceOption]

/-- What is written is legible, and behind a word it may go on so. -/
structure Follows (writing : List (Option Part)) : Prop where
  legible : Legible (writing.map glyph)
  stops : ∀ part, writing.head? = some part → part = none ∨ part = some .dot

variable {writing : List (Option Part)}

theorem Follows.word (h : Follows writing) (part : Part) (hname : IsName part.written.toList)
    (hkind : part.kind = wordKind part.written.toList) :
    Legible ((some part :: writing).map glyph) := by
  rw [List.map_cons, glyph, hkind]
  refine h.legible.name hname fun piece hpiece => ?_
  rw [List.head?_map] at hpiece
  obtain ⟨part, hpart, rfl⟩ := Option.map_eq_some_iff.mp hpiece
  rcases h.stops part hpart with rfl | rfl
  · exact Or.inl rfl
  · exact Or.inr rfl

theorem Follows.blank (h : Follows writing) (part : Part) (hname : IsName part.written.toList)
    (hkind : part.kind = wordKind part.written.toList) :
    Follows (none :: some part :: writing) where
  legible := by
    have hword := h.word part hname hkind
    rw [List.map_cons, glyph, hkind] at hword
    rw [List.map_cons, List.map_cons, glyph, glyph, hkind]
    exact hword.blank hname
  stops := by simp

theorem Follows.segments (h : Follows writing) {words : List String}
    (hnames : ∀ word ∈ words, IsName word.toList) :
    Follows ((words.flatMap fun word => [some .dot, some (.segment word)]) ++ writing) := by
  induction words with
  | nil => exact h
  | cons word words ih =>
    obtain ⟨hname, hnames⟩ := List.forall_mem_cons.mp hnames
    have hword := (ih hnames).word (.segment word) hname rfl
    exact ⟨hword.point hname, by simp⟩

theorem dottedParts_map (word : String) (words : List String) :
    (dottedParts (word :: words)).map some =
      some (.segment word) :: words.flatMap fun word => [some .dot, some (.segment word)] := by
  simp [dottedParts_cons, List.map_flatMap]

theorem isName_import : IsName "import".toList :=
  ⟨'i', "mport".toList, by decide, by decide, List.all_eq_true.mp (by decide)⟩

/-- What is written for a clause that can be read back is legible, with the keyword first. -/
theorem legible_writing (h : clause.Proper) :
    ∃ later, clause.writing = some (.reserved "import") :: later ∧
      Legible (clause.writing.map glyph) := by
  obtain ⟨word, words, hsegments⟩ := List.exists_cons_of_ne_nil h.named
  have hnone : Follows [] := ⟨.nil, by simp⟩
  have halias : Follows (clause.aliasName.elim [] fun name =>
      [none, some (.reserved "as"), none, some (.identifier name)]) := by
    cases hname : clause.aliasName with
    | none => exact hnone
    | some name =>
      have has := h.parts (.reserved "as") (by simp [ImportClause.parts, hname])
      have hidentifier := h.parts (.identifier name) (by simp [ImportClause.parts, hname])
      exact (hnone.blank (.identifier name) hidentifier.1 rfl).blank (.reserved "as") has.1 rfl
  have hstar : Follows ((if clause.wildcard then [some .dot, some .star] else []) ++
      clause.aliasName.elim [] fun name =>
        [none, some (.reserved "as"), none, some (.identifier name)]) := by
    cases hwildcard : clause.wildcard with
    | false => exact halias
    | true =>
      rw [h.exclusive hwildcard]
      exact ⟨legible_star, by simp⟩
  have hsegment : ∀ other ∈ word :: words, IsName other.toList := by
    intro other hmem
    refine h.parts (.segment other) ?_
    simp only [ImportClause.parts, hsegments, dottedParts_cons]
    rcases List.mem_cons.mp hmem with rfl | hmem
    · simp
    · simp [hmem]
  obtain ⟨hfirst, hrest⟩ := List.forall_mem_cons.mp hsegment
  have hpath := hstar.segments hrest
  have hwriting : clause.writing = some (.reserved "import") :: none ::
      ((if clause.isStatic then [some (.reserved "static"), none] else []) ++
        some (.segment word) :: ((words.flatMap fun word => [some .dot, some (.segment word)]) ++
          ((if clause.wildcard then [some .dot, some .star] else []) ++
            clause.aliasName.elim [] fun name =>
              [none, some (.reserved "as"), none, some (.identifier name)]))) := by
    simp [ImportClause.writing, hsegments, dottedParts_map]
  refine ⟨_, hwriting, ?_⟩
  rw [hwriting]
  have hbehind := hpath.blank (.segment word) hfirst rfl
  cases hstatic : clause.isStatic with
  | false => exact hbehind.word (.reserved "import") isName_import rfl
  | true =>
    have hmark := h.parts (.reserved "static") (by simp [ImportClause.parts, hstatic])
    have hstart := hbehind.blank (.reserved "static") hmark.1 rfl
    exact hstart.word (.reserved "import") isName_import rfl

end Writing

section Reading

variable {clause : ImportClause} {writing : List (Option Part)}

def seen (part : Option Part) : Symbol :=
  Token.symbol ⟨(glyph part).1, String.ofList (glyph part).2, 0, 0⟩

theorem symbols_of_glyphs {tokens : List Token}
    (h : tokens.map (fun token => (token.kind, token.text.toList)) = writing.map glyph) :
    tokens.map Token.symbol = writing.map seen := by
  have hsymbol : ∀ token : Token,
      token.symbol = Token.symbol ⟨token.kind, String.ofList token.text.toList, 0, 0⟩ := by
    intro token
    rw [String.ofList_toList]
    rfl
  have hsymbols := congrArg (List.map fun piece : Kind × List Char =>
    Token.symbol ⟨piece.1, String.ofList piece.2, 0, 0⟩) h
  rw [List.map_map, List.map_map] at hsymbols
  exact (List.map_congr_left fun token _ => hsymbol token).trans hsymbols

theorem Part.Proper.fits_seen {part : Part} (h : part.Proper) : part.Fits (seen (some part)) :=
  Part.fits_symbol.mpr (h.spells rfl (String.ofList_toList))

/-- What is written is read as its parts, provided that it does not end with a blank. -/
theorem spelt_seen (hproper : ∀ part ∈ writing.reduceOption, part.Proper)
    (hlast : writing.getLast? ≠ some none) :
    Spelt writing.reduceOption (writing.map seen) [] := by
  have hsolid : ∀ part, some part ∈ writing → (seen (some part)).isTrivia = false :=
    fun part hmem => (hproper part (List.reduceOption_mem_iff.mpr hmem)).fits_seen.isTrivia
  have hfilter : (writing.map seen).filter (!·.isTrivia) =
      writing.reduceOption.map fun part => seen (some part) := by
    clear hproper hlast
    induction writing with
    | nil => rfl
    | cons part writing ih =>
      have htail := ih fun part hmem => hsolid part (List.mem_cons_of_mem _ hmem)
      cases part with
      | none => simpa [seen, glyph, Token.symbol, Symbol.isTrivia] using htail
      | some part => simpa [hsolid part List.mem_cons_self] using htail
  refine spelt_iff.mpr ⟨writing.map seen, by simp, ?_, ?_, ?_⟩
  · intro hmem
    obtain ⟨part, hpart, hnewline⟩ := List.mem_map.mp hmem
    cases part with
    | none => simp [seen, glyph, Token.symbol] at hnewline
    | some part => simpa [hnewline, Symbol.isTrivia] using hsolid part hpart
  · rw [hfilter, List.forall₂_map_right_iff, List.forall₂_same]
    exact fun part hmem => (hproper part hmem).fits_seen
  · intro last hend
    rw [List.getLast?_map] at hend
    obtain ⟨part, hpart, rfl⟩ := Option.map_eq_some_iff.mp hend
    cases part with
    | none => exact absurd hpart hlast
    | some part => exact hsolid part (List.mem_of_getLast? hpart)

/-- A source that is nothing but an import is read as this import. -/
theorem ofSymbols_of_clause {rest : List Symbol}
    (h : importClause (.keyword "import") rest = .ok (clause, [])) :
    ofSymbols (.keyword "import" :: rest) =
      .ok ⟨none, [⟨none, clause, ⟨0, rest.length + 1⟩⟩], []⟩ := by
  have hnests : Nests [] (.keyword "import" :: rest) := by
    obtain ⟨⟨read, hread, hparts, -⟩, -⟩ := spells_importClause h
    rw [List.append_nil] at hread
    refine .plain rfl (.of_plain fun symbol hmem => ?_)
    exact Symbol.isBracket_of_isClausePart (hparts symbol (hread ▸ hmem))
  have hopening : openingOf true none (.keyword "import" :: rest) = .importKeyword rest := by
    have hbare : afterAnnotations (.keyword "import" :: rest) = .keyword "import" :: rest := by
      rw [afterAnnotations, skipAnnotations]
      simp [skipTrivia, Symbol.isTrivia]
    unfold openingOf
    rw [hbare]
    simp [passed, lastSignificant]
  rw [ofSymbols, bracketFault_of_nests hnests,
    topLevel_import _ (by simp [isSeparator, Symbol.isTrivia]) hopening h]
  simp [topLevel, addImport, empty, Except.map]

theorem importClause_of_spelt (h : clause.Proper) {symbols : List Symbol}
    (hspelt : Spelt (clause.parts false) symbols []) :
    importClause (.keyword "import") symbols = .ok (clause, []) := by
  refine importClause_eq_ok_iff.mpr ⟨false, hspelt, h.named, h.exclusive, fun hplain => ?_,
    fun _ => by simp [next?, skipGap]⟩
  obtain ⟨word, words, hsegments⟩ := List.exists_cons_of_ne_nil h.named
  rw [ImportClause.parts, hplain, hsegments, dottedParts_cons] at hspelt
  refine Spelt.next_ne hspelt fun hfits => ?_
  have hfirst := h.unmarked hplain
  rw [hsegments] at hfirst
  exact hfirst (by simpa [Part.Fits, Symbol.word?, eq_comm] using hfits)

theorem getLast?_writing (h : clause.Proper) : clause.writing.getLast? ≠ some none := by
  have hpath : (dottedParts clause.segments).map some ≠ [] := by
    obtain ⟨word, words, hsegments⟩ := List.exists_cons_of_ne_nil h.named
    simp [hsegments, dottedParts_map]
  unfold ImportClause.writing
  cases clause.aliasName with
  | some name =>
    rw [Option.elim_some, List.getLast?_append_of_ne_nil _ (by simp)]
    simp
  | none =>
    rw [Option.elim_none, List.append_nil]
    cases clause.wildcard with
    | true =>
      rw [if_pos rfl, List.getLast?_append_of_ne_nil _ (by simp)]
      simp
    | false =>
      rw [if_neg Bool.false_ne_true, List.append_nil, List.getLast?_append_of_ne_nil _ hpath,
        List.getLast?_map]
      simp

/-- What is written for a clause that can be read back is a source of an import that says so. -/
theorem exists_read_writing (h : clause.Proper) :
    ∃ source stop, Source.read (spell (clause.writing.map glyph)) = .ok source ∧
      source.outline = ⟨none, [⟨none, clause, ⟨0, stop⟩⟩], []⟩ := by
  obtain ⟨later, hwriting, hlegible⟩ := legible_writing h
  obtain ⟨tokens, hlex, htokens⟩ : ∃ tokens, lex (spell (clause.writing.map glyph)) = .ok tokens ∧
      tokens.map (fun token => (token.kind, token.text.toList)) = clause.writing.map glyph := by
    rw [hwriting] at hlegible ⊢
    exact hlegible.exists_lex isName_import
  have hproper : ∀ part ∈ clause.writing.reduceOption, part.Proper := by
    rw [reduceOption_writing]
    exact List.forall_mem_cons.mpr ⟨⟨isName_import, by decide⟩, h.parts⟩
  have hspelt := spelt_seen hproper (getLast?_writing h)
  have hsymbols := symbols_of_glyphs htokens
  have hkeyword : seen (some (.reserved "import")) = .keyword "import" := by decide
  rw [reduceOption_writing, hwriting, List.map_cons, hkeyword] at hspelt
  rw [hwriting, List.map_cons, hkeyword] at hsymbols
  obtain ⟨symbol, rest, hnext, -, hspelt⟩ := spelt_cons.mp hspelt
  obtain ⟨-, rfl⟩ := List.cons.inj (hnext : _ :: later.map seen = symbol :: rest)
  have houtline := ofSymbols_of_clause (importClause_of_spelt h hspelt)
  rw [← hsymbols] at houtline
  refine ⟨⟨spell (clause.writing.map glyph), .ofText (spell (clause.writing.map glyph)), tokens,
    ⟨none, [⟨none, clause, ⟨0, (later.map seen).length + 1⟩⟩], []⟩⟩, _, ?_, rfl⟩
  simp only [Source.read, Source.tokenize, hlex, houtline]

end Reading

end Outline

namespace ImportDeclaration

open Outline Token

theorem spell_dottedParts (words : List String) :
    spell (((dottedParts words).map some).map glyph) =
      (String.intercalate "." words).toList := by
  cases words with
  | nil => rfl
  | cons word words =>
    rw [dottedParts_map, String.toList_intercalate]
    induction words generalizing word with
    | nil => simp [spell, glyph, Part.written]
    | cons second words ih =>
      have hsecond := ih second
      simp only [List.map_cons, List.flatMap_cons, List.intercalate_cons_cons] at hsecond ⊢
      simpa [spell, glyph, Part.written] using hsecond

/-- The display of a declaration is what is written for the import that makes it. -/
theorem display_ofStatement (locate : Extent → Span) (statement : ImportStatement) :
    (ofStatement locate statement).display.toList =
      spell (statement.clause.writing.map glyph) := by
  have hspell : ∀ first second : List (Option Part), spell ((first ++ second).map glyph) =
      spell (first.map glyph) ++ spell (second.map glyph) := by
    intro first second
    rw [spell, List.map_append, List.flatMap_append]
    rfl
  obtain ⟨annotations, ⟨isStatic, segments, wildcard, aliasName⟩, tokens⟩ := statement
  simp only [ImportClause.writing, hspell, spell_dottedParts]
  cases isStatic <;> cases wildcard <;> cases aliasName <;>
    simp [display, ofStatement, ImportKind.ofMarks, ImportKind.isStatic, ImportKind.isWildcard,
      spell, glyph, Part.written]

end ImportDeclaration

namespace Source

/-- The display of every import of a source is itself a source. It holds just this import, without
annotations: one of the same kind that imports the same path under the same names. -/
theorem exists_read_display {text : List Char} {source : Source} (h : read text = .ok source)
    {declaration : ImportDeclaration} (hmem : declaration ∈ source.declarations) :
    ∃ again, read declaration.display.toList = .ok again ∧ again.outline.package = none ∧
      again.outline.body = [] ∧
      ∃ span, again.declarations = [{ declaration with annotated := false, span := span }] := by
  obtain ⟨statement, hstatement, rfl⟩ := List.mem_map.mp hmem
  obtain ⟨ended, hreads⟩ := readsImport_of_read h hstatement
  have hproper := Outline.proper_of_readsImport (of_read h).2.2.1 hreads
  obtain ⟨again, stop, hagain, houtline⟩ := Outline.exists_read_writing hproper
  rw [ImportDeclaration.display_ofStatement]
  refine ⟨again, hagain, by rw [houtline], by rw [houtline], again.locateTokens ⟨0, stop⟩, ?_⟩
  rw [declarations, houtline]
  rfl

/-- The keyword `as` as a word of the path of an annotated import, and `static` as the second word
behind the keyword of another one, with a comment in it. -/
theorem exists_read_display_keywords :
    ∃ source, read "@A import a.as . $b as C;import static static /* */.c.*".toList = .ok source ∧
      source.declarations.map ImportDeclaration.display =
        ["import a.as.$b as C", "import static static.c.*"] ∧
      ∀ declaration ∈ source.declarations, ∃ again,
        read declaration.display.toList = .ok again ∧ again.outline.package = none ∧
          again.outline.body = [] ∧
          ∃ span, again.declarations = [{ declaration with annotated := false, span := span }] := by
  have hrun : ((read "@A import a.as . $b as C;import static static /* */.c.*".toList).toOption.any
      fun source => source.declarations.map ImportDeclaration.display =
        ["import a.as.$b as C", "import static static.c.*"]) = true := by decide +kernel
  generalize "@A import a.as . $b as C;import static static /* */.c.*".toList = text at hrun ⊢
  cases hread : read text with
  | error failure => simp [hread, Except.toOption] at hrun
  | ok source =>
    refine ⟨source, rfl, by simpa [hread, Except.toOption] using hrun, fun declaration hmem => ?_⟩
    exact exists_read_display hread hmem

end Source

end UnusedImports
