import Mathlib.Data.List.TakeWhile
import UnusedImports.Proofs.Outline.Collection
import UnusedImports.Proofs.Outline.ImportGrammar
import UnusedImports.Proofs.Source

/-!
The imports of a source as they stand in its tokens. Behind its annotations, an import is its
keyword and the parts of what it says, all of them on one line up to comments that span lines, and
it takes every part it can. Where the tokens behind a keyword cannot be taken so, the source is
refused for a malformed import.
-/
namespace UnusedImports

theorem Extent.slice_append_drop {α : Type} {list : List α} {start stop : Nat}
    (h : start ≤ stop) : Extent.slice ⟨start, stop⟩ list ++ list.drop stop = list.drop start := by
  conv => rhs; rw [← List.take_append_drop (stop - start) (list.drop start)]
  rw [List.drop_drop, Nat.add_sub_cancel' h]
  rfl

namespace Token

def isGap (token : Token) : Bool := token.kind == .blank || token.kind == .comment

def solidFrom? (tokens : List Token) (position : Nat) : Option Token :=
  (tokens.drop position).find? (!·.isGap)

def IsImportKeyword (tokens : List Token) (position : Nat) : Prop :=
  ∃ token, tokens[position]? = some token ∧ token.isWord "import" = true

/-- The tokens from a keyword to a position are an import that says what the clause says, with a
semicolon at its end or without. Without one, no part that the import lacks comes next. -/
structure ReadsImport (tokens : List Token) (keyword stop : Nat) (clause : Outline.ImportClause)
    (ended : Bool) : Prop where
  forward : keyword < stop
  starts : IsImportKeyword tokens keyword
  last : ∃ token, tokens[stop - 1]? = some token ∧ token.isTrivia = false
  unbroken : ∀ token ∈ Extent.slice ⟨keyword, stop⟩ tokens, token.kind ≠ .newline
  parts : List.Forall₂ Outline.Part.Spells (.reserved "import" :: clause.parts ended)
    ((Extent.slice ⟨keyword, stop⟩ tokens).filter (!·.isTrivia))
  named : clause.segments ≠ []
  exclusive : clause.wildcard = true → clause.aliasName = none
  unmarked : clause.isStatic = false →
    ∀ token ∈ solidFrom? tokens (keyword + 1), token.isWord "static" = false
  complete : ended = false → ∀ token ∈ solidFrom? tokens stop, token.isSign ";" = false ∧
    (clause.aliasName = none → token.isWord "as" = false) ∧
    (clause.aliasName = none → clause.wildcard = false → token.isSign "." = false)

theorem ReadsImport.stop_le {tokens : List Token} {keyword stop : Nat}
    {clause : Outline.ImportClause} {ended : Bool}
    (h : ReadsImport tokens keyword stop clause ended) : stop ≤ tokens.length := by
  obtain ⟨token, htoken, -⟩ := h.last
  obtain ⟨hlt, -⟩ := List.getElem?_eq_some_iff.mp htoken
  omega

section Symbols

variable {tokens : List Token} {keyword stop : Nat} {clause : Outline.ImportClause} {ended : Bool}

theorem next?_symbols (tokens : List Token) (position : Nat) :
    Outline.next? ((tokens.drop position).map symbol) =
      (solidFrom? tokens position).map symbol := by
  have hfind : ∀ symbols : List Symbol, Outline.next? symbols = symbols.find? (· != .gap) := by
    intro symbols
    rw [List.find?_eq_head?_dropWhile_not]
    simp [Outline.next?, Outline.skipGap, bne]
  rw [hfind, List.find?_map, solidFrom?]
  congr 2
  funext token
  rw [Function.comp_apply, symbol_bne_gap, isGap, Bool.not_or]
  rfl

/-- A symbol does not come next exactly if its part does not. -/
theorem next?_ne_iff (tokens : List Token) (position : Nat) (part : Outline.Part) {next : Symbol}
    (hpart : ∀ symbol, part.Fits symbol ↔ symbol = next) :
    Outline.next? ((tokens.drop position).map symbol) ≠ some next ↔
      ∀ token ∈ solidFrom? tokens position, ¬ part.Spells token := by
  rw [next?_symbols]
  cases solidFrom? tokens position with
  | none => simp
  | some token => simp [← Outline.Part.fits_symbol, hpart]

theorem symbol_eq_newline_iff (token : Token) :
    token.symbol = .newline ↔ token.kind = .newline := by
  unfold symbol
  cases token.kind with
  | operator =>
    have htrivia := (Symbol.signs_ofOperator token.text).isTrivia
    simp only [reduceCtorEq, iff_false]
    intro hnewline
    simp [hnewline, Symbol.isTrivia] at htrivia
  | _ => simp

/-- Parts are spelt from one position to another exactly if they are the tokens between, beside
white space and comments, and the last of the tokens is one of them. -/
theorem spelt_symbols (tokens : List Token) (parts : List Outline.Part) {start : Nat}
    (hstart : start ≤ stop) :
    Outline.Spelt parts ((tokens.drop start).map symbol) ((tokens.drop stop).map symbol) ↔
      (∀ token ∈ Extent.slice ⟨start, stop⟩ tokens, token.kind ≠ .newline) ∧
      List.Forall₂ Outline.Part.Spells parts
        ((Extent.slice ⟨start, stop⟩ tokens).filter (!·.isTrivia)) ∧
      ∀ token, (Extent.slice ⟨start, stop⟩ tokens).getLast? = some token →
        token.isTrivia = false := by
  have hsplit : (tokens.drop start).map symbol =
      (Extent.slice ⟨start, stop⟩ tokens).map symbol ++ (tokens.drop stop).map symbol := by
    rw [← List.map_append, Extent.slice_append_drop hstart]
  have hline : Symbol.newline ∉ (Extent.slice ⟨start, stop⟩ tokens).map symbol ↔
      ∀ token ∈ Extent.slice ⟨start, stop⟩ tokens, token.kind ≠ .newline := by
    simp [symbol_eq_newline_iff]
  have hparts : List.Forall₂ Outline.Part.Fits parts
      (((Extent.slice ⟨start, stop⟩ tokens).map symbol).filter (!·.isTrivia)) ↔
      List.Forall₂ Outline.Part.Spells parts
        ((Extent.slice ⟨start, stop⟩ tokens).filter (!·.isTrivia)) := by
    rw [List.filter_map, List.forall₂_map_right_iff]
    simp only [Outline.Part.fits_symbol, Function.comp_def, isTrivia_symbol]
  have hlast : (∀ last, ((Extent.slice ⟨start, stop⟩ tokens).map symbol).getLast? = some last →
      last.isTrivia = false) ↔ ∀ token, (Extent.slice ⟨start, stop⟩ tokens).getLast? = some token →
        token.isTrivia = false := by
    rw [List.getLast?_map]
    simp
  rw [Outline.spelt_iff, ← hline, ← hparts, ← hlast]
  constructor
  · rintro ⟨read, hread, h⟩
    rw [hsplit] at hread
    obtain rfl := List.append_cancel_right hread
    exact h
  · exact fun h => ⟨_, hsplit, h⟩

/-- The grammar sees an import behind its keyword where the parts are spelt from the keyword on. -/
theorem spelt_keyword_iff {parts : List Outline.Part} {later : List Symbol}
    (hkeyword : IsImportKeyword tokens keyword) :
    Outline.Spelt (.reserved "import" :: parts) ((tokens.drop keyword).map symbol) later ↔
      Outline.Spelt parts ((tokens.drop (keyword + 1)).map symbol) later := by
  obtain ⟨token, htoken, hword⟩ := hkeyword
  obtain ⟨hlt, rfl⟩ := List.getElem?_eq_some_iff.mp htoken
  have hfirst : Outline.skipGap ((tokens.drop keyword).map symbol) =
      .keyword "import" :: (tokens.drop (keyword + 1)).map symbol := by
    rw [List.drop_eq_getElem_cons hlt, List.map_cons, symbol_of_isWord hword]
    rfl
  rw [Outline.spelt_cons, hfirst]
  simp [Outline.Part.Fits]

theorem getLast?_slice (hforward : keyword < stop) (hstop : stop ≤ tokens.length) :
    (Extent.slice ⟨keyword, stop⟩ tokens).getLast? = tokens[stop - 1]? := by
  have hlast : tokens[stop - 1]? = some (tokens[stop - 1]) := List.getElem?_eq_getElem (by omega)
  rw [Extent.slice, List.getLast?_take, if_neg (Nat.sub_ne_zero_of_lt hforward), List.getElem?_drop,
    show keyword + (stop - keyword - 1) = stop - 1 by omega, hlast, Option.some_or]

/-- The tokens are an import exactly if the grammar sees one. -/
theorem readsImport_iff (hkeyword : IsImportKeyword tokens keyword) (hforward : keyword < stop)
    (hstop : stop ≤ tokens.length) :
    ReadsImport tokens keyword stop clause ended ↔
      Outline.SpellsImport ((tokens.drop (keyword + 1)).map symbol) ((tokens.drop stop).map symbol)
        clause ended := by
  have hspelt := spelt_symbols tokens (.reserved "import" :: clause.parts ended)
    (Nat.le_of_lt hforward)
  rw [spelt_keyword_iff hkeyword, getLast?_slice hforward hstop] at hspelt
  have hstatic := next?_ne_iff tokens (keyword + 1) (.reserved "static") fun _ => Iff.rfl
  have hsemicolon := next?_ne_iff tokens stop .semicolon fun _ => Iff.rfl
  have has := next?_ne_iff tokens stop (.reserved "as") fun _ => Iff.rfl
  have hdot := next?_ne_iff tokens stop .dot fun _ => Iff.rfl
  simp only [Outline.Part.Spells, Bool.not_eq_true] at hstatic hsemicolon has hdot
  obtain ⟨last, hlast⟩ : ∃ last, tokens[stop - 1]? = some last :=
    ⟨_, List.getElem?_eq_getElem (by omega)⟩
  constructor
  · intro h
    refine ⟨hspelt.mpr ⟨h.unbroken, h.parts, ?_⟩, h.named, h.exclusive,
      fun hplain => hstatic.mpr (h.unmarked hplain), fun hended => ?_⟩
    · intro token htoken
      obtain ⟨last, hlast, htrivia⟩ := h.last
      obtain rfl := Option.some.inj (hlast.symm.trans htoken)
      exact htrivia
    · have hcomplete := h.complete hended
      exact ⟨hsemicolon.mpr fun token hnext => (hcomplete token hnext).1,
        fun hnone => has.mpr fun token hnext => (hcomplete token hnext).2.1 hnone,
        fun hnone hplain => hdot.mpr fun token hnext => (hcomplete token hnext).2.2 hnone hplain⟩
  · intro h
    obtain ⟨hunbroken, hparts, htrivia⟩ := hspelt.mp h.spelt
    refine ⟨hforward, hkeyword, ⟨last, hlast, htrivia last hlast⟩, hunbroken, hparts, h.named,
      h.exclusive, fun hplain => hstatic.mp (h.unmarked hplain), fun hended token hnext => ?_⟩
    obtain ⟨hends, hrenames, hgoes⟩ := h.complete hended
    exact ⟨hsemicolon.mp hends token hnext, fun hnone => has.mp (hrenames hnone) token hnext,
      fun hnone hplain => hdot.mp (hgoes hnone hplain) token hnext⟩

/-- What is read behind a keyword is an import. -/
theorem exists_readsImport {later : List Symbol} (hkeyword : IsImportKeyword tokens keyword)
    (hclause : Outline.importClause (.keyword "import") ((tokens.drop (keyword + 1)).map symbol) =
      .ok (clause, later)) :
    ∃ ended, ReadsImport tokens keyword (tokens.length - later.length) clause ended := by
  obtain ⟨ended, hspells⟩ := Outline.importClause_eq_ok_iff.mp hclause
  have hlength := Outline.length_importClause hclause
  obtain ⟨⟨read, hread, -⟩, -⟩ := Outline.spells_importClause hclause
  have hlater : later = (tokens.drop (tokens.length - later.length)).map symbol := by
    have hsuffix : later <:+ tokens.map symbol :=
      (List.IsSuffix.trans ⟨read, hread.symm⟩ ((List.drop_suffix _ _).map symbol))
    have heq := List.suffix_iff_eq_drop.mp hsuffix
    rwa [List.length_map, ← List.map_drop] at heq
  simp only [List.length_map, List.length_drop] at hlength
  refine ⟨ended, (readsImport_iff hkeyword (by omega) (by omega)).mpr ?_⟩
  rwa [← hlater]

/-- Where no import can be read behind its keyword, reading fails, and only there. -/
theorem importClause_error_iff (hkeyword : IsImportKeyword tokens keyword) :
    (∃ wrong, Outline.importClause (.keyword "import") ((tokens.drop (keyword + 1)).map symbol) =
      .error wrong) ↔ ¬ ∃ stop clause ended, ReadsImport tokens keyword stop clause ended := by
  constructor
  · rintro ⟨wrong, hwrong⟩ ⟨stop, clause, ended, hreads⟩
    have hspells := (readsImport_iff hkeyword hreads.forward hreads.stop_le).mp hreads
    have hclause : Outline.importClause (.keyword "import")
        ((tokens.drop (keyword + 1)).map symbol) = .ok (clause, (tokens.drop stop).map symbol) :=
      Outline.importClause_eq_ok_iff.mpr ⟨ended, hspells⟩
    rw [hwrong] at hclause
    exact absurd hclause (by simp)
  · intro hnone
    cases hclause : Outline.importClause (.keyword "import")
      ((tokens.drop (keyword + 1)).map symbol) with
    | error wrong => exact ⟨wrong, rfl⟩
    | ok result =>
      obtain ⟨ended, hreads⟩ := exists_readsImport hkeyword hclause
      exact absurd ⟨_, _, ended, hreads⟩ hnone

end Symbols

end Token

namespace Outline

variable {before symbols : List Symbol} {packageAllowed : Bool} {outline : Outline}

/-- Where an import of the outline stands: the keyword comes behind the annotations, and the clause
is read from the symbols behind the keyword. -/
theorem Reading.exists_clause (h : Reading before packageAllowed symbols outline)
    {statement : ImportStatement} (hmem : statement ∈ outline.imports) :
    ∃ first read later, before ++ symbols = first ++ .keyword "import" :: (read ++ later) ∧
      first.length = statement.keyword ∧
      importClause (.keyword "import") (read ++ later) = .ok (statement.clause, later) ∧
      statement.tokens.stop = statement.keyword + (1 + read.length) := by
  induction h with
  | nil => simp [empty] at hmem
  | separator _ _ ih => simpa using ih hmem
  | @importStatement before annotations read later packageAllowed first outline hnests
      hannotations htokens _ hclause _ ih =>
    rcases List.mem_cons.mp hmem with rfl | hmem
    · have hkeyword := keyword_of_annotations hannotations (by rw [htokens])
      refine ⟨before ++ annotations, read, later, by simp, ?_, hclause, ?_⟩
      · rw [hkeyword, List.length_append]
      · rw [hkeyword, htokens]
    · simpa using ih hmem
  | package _ _ _ ih => simpa using ih hmem
  | @item before read rest later symbol packageAllowed item outline _ _ hread _ _ _ _ _ ih =>
    rw [hread]
    simpa using ih hmem

end Outline

namespace Source

/-- An import of a source that was read, from its keyword on. -/
theorem readsImport_of_read {text : List Char} {source : Source} (h : read text = .ok source)
    {statement : ImportStatement} (hmem : statement ∈ source.outline.imports) :
    ∃ ended, Token.ReadsImport source.tokens statement.keyword statement.tokens.stop
      statement.clause ended := by
  obtain ⟨-, hreading⟩ := Outline.reading_ofSymbols (ofSymbols_of_read h)
  obtain ⟨first, read, later, hsplit, hkeyword, hclause, hstop⟩ := hreading.exists_clause hmem
  rw [List.nil_append] at hsplit
  have hlength : source.tokens.length = statement.keyword + (1 + read.length) + later.length := by
    have hlength := congrArg List.length hsplit
    simp only [List.length_map, List.length_append, List.length_cons] at hlength
    omega
  have hat : Token.IsImportKeyword source.tokens statement.keyword := by
    have hword := (Outline.importAt_ofSymbols (ofSymbols_of_read h) hmem).clause.keyword_eq
    obtain ⟨token, htoken, hsymbol⟩ := exists_token_of_symbol hword
    obtain ⟨hkind, htext⟩ := Token.kind_of_symbol_keyword hsymbol
    exact ⟨token, htoken, by simp [Token.isWord, hkind, htext]⟩
  have hbehind : (source.tokens.drop (statement.keyword + 1)).map Token.symbol = read ++ later := by
    rw [List.map_drop, hsplit, ← hkeyword, ← List.drop_drop, List.drop_left]
    rfl
  rw [← hbehind] at hclause
  obtain ⟨ended, hreads⟩ := Token.exists_readsImport hat hclause
  refine ⟨ended, ?_⟩
  rwa [hstop, show statement.keyword + (1 + read.length) =
    source.tokens.length - later.length by omega]

/-- Imports are read faithfully. Each import of a source that was read is its annotations, if any,
and behind them its keyword and what it says, with every part that can be read. Behind the keyword
of an import, reading fails exactly if nothing there can be taken so, and then the source is refused
for a malformed import. -/
theorem imports_spelt :
    (∀ text source, read text = .ok source → ∀ statement ∈ source.outline.imports,
      statement.tokens.start ≤ statement.keyword ∧
      statement.annotations = (if statement.tokens.start < statement.keyword then
        some ⟨statement.tokens.start, statement.keyword⟩ else none) ∧
      ∃ ended, Token.ReadsImport source.tokens statement.keyword statement.tokens.stop
        statement.clause ended) ∧
    ∀ tokens keyword, Token.IsImportKeyword tokens keyword →
      ((∃ wrong, Outline.importClause (.keyword "import")
          ((tokens.drop (keyword + 1)).map Token.symbol) = .error wrong) ↔
        ¬ ∃ stop clause ended, Token.ReadsImport tokens keyword stop clause ended) ∧
      ∀ start token packageAllowed last, tokens[start]? = some token →
        Outline.isSeparator token.symbol = false →
        Outline.openingOf packageAllowed last ((tokens.drop start).map Token.symbol) =
          .importKeyword ((tokens.drop (keyword + 1)).map Token.symbol) →
        (¬ ∃ stop clause ended, Token.ReadsImport tokens keyword stop clause ended) →
        ∃ position, Outline.topLevel tokens.length packageAllowed last
          ((tokens.drop start).map Token.symbol) = .error ⟨.malformedImport, position⟩ := by
  refine ⟨fun text source hread statement hmem => ?_, fun tokens keyword hkeyword => ⟨?_, ?_⟩⟩
  · have hat := Outline.importAt_ofSymbols (ofSymbols_of_read hread) hmem
    exact ⟨hat.start_le_keyword, hat.annotations_eq, readsImport_of_read hread hmem⟩
  · exact Token.importClause_error_iff hkeyword
  · intro start token packageAllowed last htoken hsolid hopening hnone
    obtain ⟨wrong, hwrong⟩ := (Token.importClause_error_iff hkeyword).mpr hnone
    obtain ⟨hlt, rfl⟩ := List.getElem?_eq_some_iff.mp htoken
    rw [List.drop_eq_getElem_cons hlt, List.map_cons] at hopening ⊢
    exact ⟨_, Outline.topLevel_malformedImport hsolid hopening hwrong⟩

/-- An annotated static import with an alias, one with a star, and a keyword with a dot behind the
name that nothing follows. -/
theorem imports_spelt_annotated :
    (∃ source, read "@A import static a.as /* b */ . B as C\nimport d.*;\n".toList = .ok source ∧
      source.outline.imports.map ImportStatement.clause =
        [⟨true, ["a", "as", "B"], false, some "C"⟩, ⟨false, ["d"], true, none⟩] ∧
      ∀ statement ∈ source.outline.imports, ∃ ended, Token.ReadsImport source.tokens
        statement.keyword statement.tokens.stop statement.clause ended) ∧
    ∃ tokens : List Token, tokens = [⟨.keyword, "import", 0, 0⟩, ⟨.blank, " ", 6, 0⟩,
        ⟨.identifier, "a", 7, 0⟩, ⟨.operator, ".", 8, 0⟩] ∧
      (¬ ∃ stop clause ended, Token.ReadsImport tokens 0 stop clause ended) ∧
      ∃ position, Outline.topLevel tokens.length true none (tokens.map Token.symbol) =
        .error ⟨.malformedImport, position⟩ := by
  constructor
  · have hrun : ((read "@A import static a.as /* b */ . B as C\nimport d.*;\n".toList).toOption.any
        fun source => source.outline.imports.map ImportStatement.clause =
          [⟨true, ["a", "as", "B"], false, some "C"⟩, ⟨false, ["d"], true, none⟩]) = true := by
      decide +kernel
    generalize "@A import static a.as /* b */ . B as C\nimport d.*;\n".toList = text at hrun ⊢
    cases hread : read text with
    | error failure => simp [hread, Except.toOption] at hrun
    | ok source =>
      simp only [hread, Except.toOption, Option.any_some, decide_eq_true_eq] at hrun
      exact ⟨source, rfl, hrun, fun statement hmem =>
        (imports_spelt.1 text source hread statement hmem).2.2⟩
  · refine ⟨_, rfl, ?_⟩
    have hmalformed : ∃ wrong, Outline.importClause (.keyword "import")
        [.gap, .identifier "a", .dot] = .error wrong := by
      have hrun : (Outline.importClause (.keyword "import")
          [.gap, .identifier "a", .dot]).isOk = false := by decide +kernel
      cases hclause : Outline.importClause (.keyword "import") [.gap, .identifier "a", .dot] with
      | error wrong => exact ⟨wrong, rfl⟩
      | ok result => simp [hclause, Except.isOk, Except.toBool] at hrun
    have hopening : Outline.openingOf true none [.keyword "import", .gap, .identifier "a", .dot] =
        .importKeyword [.gap, .identifier "a", .dot] := by
      unfold Outline.openingOf Outline.afterAnnotations Outline.skipAnnotations
      simp [Outline.skipTrivia, Symbol.isTrivia, Outline.passed, Outline.lastSignificant]
    obtain ⟨hfails, hrefused⟩ := imports_spelt.2 [⟨.keyword, "import", 0, 0⟩, ⟨.blank, " ", 6, 0⟩,
        ⟨.identifier, "a", 7, 0⟩, ⟨.operator, ".", 8, 0⟩] 0 ⟨_, rfl, by decide⟩
    have hnone := hfails.mp hmalformed
    exact ⟨hnone, hrefused 0 _ true none rfl (by decide) hopening hnone⟩

end Source

end UnusedImports
