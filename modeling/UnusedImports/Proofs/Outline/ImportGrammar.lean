import Mathlib.Data.List.Forall2
import UnusedImports.Proofs.Outline.Phrase
import UnusedImports.Proofs.Outline.Symbol

/-!
The grammar of an import. What an import says fixes the parts it is spelt with, up to a final
semicolon; between two parts stand only white space and comments. A clause is read exactly where
its parts stand, where the word after the keyword is `static` only in a static import, and where no
part that could still be read comes next. In particular, reading fails where no clause is spelt so.
-/
namespace UnusedImports.Outline

inductive Part where
  | reserved (word : String)
  /-- A word of a dotted name: an identifier or a keyword. -/
  | segment (text : String)
  | identifier (name : String)
  | dot
  | star
  | semicolon

namespace Part

def Fits (part : Part) (symbol : Symbol) : Prop :=
  match part with
  | .reserved word => symbol = .keyword word
  | .segment text => symbol.word? = some text
  | .identifier name => symbol = .identifier name
  | .dot => symbol = .dot
  | .star => symbol = .star
  | .semicolon => symbol = .semicolon

def Spells (part : Part) (token : Token) : Prop :=
  match part with
  | .reserved word => token.isWord word = true
  | .segment text => (token.kind = .identifier ∨ token.kind = .keyword) ∧ token.text = text
  | .identifier name => token.kind = .identifier ∧ token.text = name
  | .dot => token.isSign "." = true
  | .star => token.isSign "*" = true
  | .semicolon => token.isSign ";" = true

theorem Fits.isTrivia {part : Part} {symbol : Symbol} (h : part.Fits symbol) :
    symbol.isTrivia = false := by
  cases part with
  | segment text => cases symbol <;> simp_all [Fits, Symbol.word?, Symbol.isTrivia]
  | _ => obtain rfl := h; rfl

/-- The grammar sees a part in the symbol of a token exactly if the token is the part. -/
theorem fits_symbol {part : Part} {token : Token} :
    part.Fits token.symbol ↔ part.Spells token := by
  have hsign : ∀ {text : String} {symbol : Symbol}, symbol.sign? = some text →
      Symbol.ofOperator text = symbol → (token.symbol = symbol ↔ token.isSign text = true) := by
    intro text symbol hsign hsymbol
    refine ⟨fun h => Token.isSign_of_symbol (h ▸ hsign), fun h => ?_⟩
    simp only [Token.isSign, Bool.and_eq_true, beq_iff_eq] at h
    rw [Token.symbol, h.1, h.2]
    exact hsymbol
  cases part with
  | reserved word =>
    refine ⟨fun h => ?_, Token.symbol_of_isWord⟩
    obtain ⟨hkind, htext⟩ := Token.kind_of_symbol_keyword h
    simp [Spells, Token.isWord, hkind, htext]
  | segment text =>
    unfold Fits Spells Token.symbol
    cases token.kind with
    | operator => simp [(Symbol.signs_ofOperator token.text).word]
    | _ => simp [Symbol.word?]
  | identifier name =>
    refine ⟨fun h => ?_, fun h => by simp [Fits, Token.symbol, h.1, h.2]⟩
    have hkind := Token.kind_of_symbol_identifier h
    simp only [Fits, Token.symbol, hkind, Symbol.identifier.injEq] at h
    exact ⟨hkind, h⟩
  | dot => exact hsign rfl (by decide)
  | star => exact hsign rfl (by decide)
  | semicolon => exact hsign rfl (by decide)

end Part

def dottedParts (words : List String) : List Part := (words.map Part.segment).intersperse .dot

def ImportClause.parts (clause : ImportClause) (ended : Bool) : List Part :=
  (if clause.isStatic then [.reserved "static"] else []) ++ dottedParts clause.segments ++
    (if clause.wildcard then [.dot, .star] else []) ++
    (clause.aliasName.elim [] fun name => [.reserved "as", .identifier name]) ++
    if ended then [.semicolon] else []

def next? (symbols : List Symbol) : Option Symbol := (skipGap symbols).head?

/-- The parts stand on the line one after the other, and the later symbols follow the last. -/
inductive Spelt : List Part → List Symbol → List Symbol → Prop
  | nil (symbols : List Symbol) : Spelt [] symbols symbols
  | cons {part : Part} {parts : List Part} {symbol : Symbol} {symbols rest later : List Symbol}
      (hnext : skipGap symbols = symbol :: rest) (hpart : part.Fits symbol)
      (hrest : Spelt parts rest later) : Spelt (part :: parts) symbols later

section Spelling

variable {symbols later : List Symbol} {part : Part} {parts : List Part}

@[simp]
theorem spelt_nil : Spelt [] symbols later ↔ symbols = later := by
  constructor
  · rintro ⟨⟩
    rfl
  · rintro rfl
    exact .nil _

theorem spelt_cons : Spelt (part :: parts) symbols later ↔
    ∃ symbol rest, skipGap symbols = symbol :: rest ∧ part.Fits symbol ∧
      Spelt parts rest later := by
  constructor
  · rintro (_ | ⟨hnext, hpart, hrest⟩)
    exact ⟨_, _, hnext, hpart, hrest⟩
  · rintro ⟨symbol, rest, hnext, hpart, hrest⟩
    exact .cons hnext hpart hrest

theorem spelt_append {first second : List Part} : Spelt (first ++ second) symbols later ↔
    ∃ middle, Spelt first symbols middle ∧ Spelt second middle later := by
  induction first generalizing symbols with
  | nil => simp
  | cons part first ih =>
    simp only [List.cons_append, spelt_cons, ih]
    constructor
    · rintro ⟨symbol, rest, hnext, hpart, middle, hfirst, hsecond⟩
      exact ⟨middle, ⟨symbol, rest, hnext, hpart, hfirst⟩, hsecond⟩
    · rintro ⟨middle, ⟨symbol, rest, hnext, hpart, hfirst⟩, hsecond⟩
      exact ⟨symbol, rest, hnext, hpart, middle, hfirst, hsecond⟩

theorem Spelt.next_ne {symbol : Symbol} (h : Spelt (part :: parts) symbols later)
    (hother : ¬ part.Fits symbol) : next? symbols ≠ some symbol := by
  obtain ⟨found, rest, hnext, hpart, -⟩ := spelt_cons.mp h
  rw [next?, hnext, List.head?_cons, ne_eq, Option.some.injEq]
  rintro rfl
  exact hother hpart

theorem skipGap_eq_cons_iff {symbol : Symbol} {rest : List Symbol} :
    skipGap symbols = symbol :: rest ↔
      symbol ≠ .gap ∧ ∃ gaps, symbols = gaps ++ symbol :: rest ∧ ∀ part ∈ gaps, part = .gap := by
  constructor
  · intro h
    refine ⟨?_, symbols.takeWhile (· == .gap), ?_, fun part hmem => ?_⟩
    · have hhead := List.head?_dropWhile_not (· == Symbol.gap) symbols
      rw [show symbols.dropWhile (· == .gap) = symbol :: rest from h] at hhead
      simpa using hhead
    · rw [← h]
      exact List.takeWhile_append_dropWhile.symm
    · simpa using List.all_eq_true.mp List.all_takeWhile _ hmem
  · rintro ⟨hsolid, gaps, rfl, hgaps⟩
    rw [skipGap, List.dropWhile_append_of_pos (by simpa using hgaps),
      List.dropWhile_cons_of_neg (by simpa using hsolid)]

/-- The first part of what is read stands behind white space and comments. -/
theorem forall₂_cons_filter {read : List Symbol} (hline : Symbol.newline ∉ read) :
    List.Forall₂ Part.Fits (part :: parts) (read.filter (!·.isTrivia)) ↔
      ∃ gaps symbol rest, read = gaps ++ symbol :: rest ∧ (∀ part ∈ gaps, part = .gap) ∧
        part.Fits symbol ∧ List.Forall₂ Part.Fits parts (rest.filter (!·.isTrivia)) := by
  rw [List.forall₂_cons_left_iff]
  constructor
  · rintro ⟨symbol, solid, hpart, hparts, hfilter⟩
    obtain ⟨gaps, rest, rfl, hgaps, -, rfl⟩ := List.filter_eq_cons_iff.mp hfilter
    refine ⟨gaps, symbol, rest, rfl, fun part hmem => ?_, hpart, hparts⟩
    have htrivia := hgaps part hmem
    cases part with
    | newline => simp [hmem] at hline
    | _ => simp_all [Symbol.isTrivia]
  · rintro ⟨gaps, symbol, rest, rfl, hgaps, hpart, hparts⟩
    refine ⟨symbol, _, hpart, hparts, List.filter_eq_cons_iff.mpr ⟨gaps, rest, rfl, ?_, ?_, rfl⟩⟩
    · intro part hmem
      simp [hgaps part hmem, Symbol.isTrivia]
    · simp [hpart.isTrivia]

/-- What is read where parts are spelt: no line end, and beside white space and comments just the
parts, the last of them at the end. -/
theorem spelt_iff : Spelt parts symbols later ↔
    ∃ read, symbols = read ++ later ∧ Symbol.newline ∉ read ∧
      List.Forall₂ Part.Fits parts (read.filter (!·.isTrivia)) ∧
      ∀ last, read.getLast? = some last → last.isTrivia = false := by
  constructor
  · intro h
    induction h with
    | nil symbols => exact ⟨[], by simp⟩
    | cons hnext hpart hrest ih =>
      rename_i part parts symbol symbols rest later
      obtain ⟨hsolid, gaps, rfl, hgaps⟩ := skipGap_eq_cons_iff.mp hnext
      obtain ⟨read, rfl, hline, hparts, hlast⟩ := ih
      have hbreak : Symbol.newline ∉ gaps ++ symbol :: read := by
        simp only [List.mem_append, List.mem_cons, not_or]
        refine ⟨fun hmem => by simpa using hgaps _ hmem, ?_, hline⟩
        rintro rfl
        simpa [Symbol.isTrivia] using hpart.isTrivia
      refine ⟨gaps ++ symbol :: read, by simp, hbreak,
        (forall₂_cons_filter hbreak).mpr ⟨gaps, symbol, read, rfl, hgaps, hpart, hparts⟩, ?_⟩
      intro last hfinal
      rw [List.getLast?_append_cons, List.getLast?_cons] at hfinal
      cases hend : read.getLast? with
      | none =>
        rw [hend] at hfinal
        obtain rfl := Option.some.inj hfinal
        exact hpart.isTrivia
      | some final =>
        rw [hend] at hfinal
        obtain rfl := Option.some.inj hfinal
        exact hlast final hend
  · rintro ⟨read, rfl, hline, hparts, hlast⟩
    induction parts generalizing read with
    | nil =>
      rw [List.forall₂_nil_left_iff, List.filter_eq_nil_iff] at hparts
      cases hend : read.getLast? with
      | none => simp [List.getLast?_eq_none_iff.mp hend]
      | some last => simpa [hlast last hend] using hparts last (List.mem_of_getLast? hend)
    | cons part parts ih =>
      obtain ⟨gaps, symbol, rest, rfl, hgaps, hpart, hrest⟩ := (forall₂_cons_filter hline).mp hparts
      have hsolid : symbol ≠ .gap := by
        rintro rfl
        simpa [Symbol.isTrivia] using hpart.isTrivia
      have hnext : skipGap (gaps ++ symbol :: rest ++ later) = symbol :: (rest ++ later) :=
        skipGap_eq_cons_iff.mpr ⟨hsolid, gaps, by simp, hgaps⟩
      refine .cons hnext hpart (ih rest ?_ hrest ?_)
      · simp_all
      · intro last hend
        apply hlast
        rw [List.getLast?_append_cons, List.getLast?_cons, hend, Option.getD_some]

end Spelling

section Reading

variable {symbols later : List Symbol}

theorem next?_eq_some_iff {symbol : Symbol} :
    next? symbols = some symbol ↔ ∃ rest, skipGap symbols = symbol :: rest :=
  List.head?_eq_some_iff

theorem spelt_singleton {part : Part} : Spelt [part] symbols later ↔
    ∃ symbol, skipGap symbols = symbol :: later ∧ part.Fits symbol := by
  simp only [spelt_cons, spelt_nil]
  constructor
  · rintro ⟨symbol, rest, hnext, hpart, rfl⟩
    exact ⟨symbol, hnext, hpart⟩
  · rintro ⟨symbol, hnext, hpart⟩
    exact ⟨symbol, later, hnext, hpart, rfl⟩

theorem spelt_pair {first second : Part} : Spelt [first, second] symbols later ↔
    ∃ symbol rest, skipGap symbols = symbol :: rest ∧ first.Fits symbol ∧
      ∃ symbol, skipGap rest = symbol :: later ∧ second.Fits symbol := by
  rw [spelt_cons]
  simp only [spelt_singleton]

theorem staticMark_eq_iff {marked : Bool} : staticMark symbols = (marked, later) ↔
    Spelt (if marked then [.reserved "static"] else []) symbols later ∧
      (marked = false → next? symbols ≠ some (.keyword "static")) := by
  unfold staticMark
  split
  · rename_i word rest hskip
    by_cases hword : word = "static" <;>
      cases marked <;> simp [hword, hskip, next?, spelt_singleton, Part.Fits]
  · rename_i hother
    have hnone : ∀ rest, skipGap symbols ≠ .keyword "static" :: rest := fun rest => hother _ rest
    cases marked <;> simp [hnone, next?_eq_some_iff, spelt_singleton, Part.Fits]

theorem wildcardMark_eq_ok_iff {starred : Bool} : wildcardMark symbols = .ok (starred, later) ↔
    Spelt (if starred then [.dot, .star] else []) symbols later ∧
      (starred = false → next? symbols ≠ some .dot) := by
  unfold wildcardMark
  split
  · rename_i rest hdot
    split
    · rename_i after hstar
      cases starred <;> simp [hdot, hstar, next?, spelt_pair, Part.Fits]
    · rename_i hother
      have hnone : ∀ after, skipGap rest ≠ .star :: after := hother
      cases starred <;> simp [hdot, hnone, next?, spelt_pair, Part.Fits]
  · rename_i hother
    have hnone : ∀ rest, skipGap symbols ≠ .dot :: rest := hother
    cases starred <;> simp [hnone, next?_eq_some_iff, spelt_pair, Part.Fits]

theorem aliasMark_eq_ok_iff {wildcard : Bool} {renamed : Option String} :
    aliasMark wildcard symbols = .ok (renamed, later) ↔
      Spelt (renamed.elim [] fun name => [.reserved "as", .identifier name]) symbols later ∧
        (wildcard = true → renamed = none) ∧
        (renamed = none → next? symbols ≠ some (.keyword "as")) := by
  unfold aliasMark
  split
  · rename_i word rest hword
    by_cases has : word = "as"
    · rw [if_pos has]
      split
      · rename_i name after hname
        cases renamed <;> cases wildcard <;>
          simp [has, hword, hname, next?, spelt_pair, Part.Fits]
      · rename_i hother
        have hnone : ∀ name after, skipGap rest ≠ .identifier name :: after := hother
        cases renamed <;> simp [has, hword, hnone, next?, spelt_pair, Part.Fits]
    · rw [if_neg has]
      cases renamed <;> simp [has, hword, next?, spelt_pair, Part.Fits]
  · rename_i hother
    have hnone : ∀ rest, skipGap symbols ≠ .keyword "as" :: rest := fun rest => hother _ rest
    cases renamed <;> simp [hnone, next?_eq_some_iff, spelt_pair, Part.Fits]

theorem skipSemicolon_eq_iff : skipSemicolon symbols = later ↔
    ∃ ended : Bool, Spelt (if ended then [.semicolon] else []) symbols later ∧
      (ended = false → next? symbols ≠ some .semicolon) := by
  unfold skipSemicolon
  split
  · rename_i rest hskip
    simp [hskip, next?, spelt_singleton, Part.Fits]
  · rename_i hother
    have hnone : ∀ rest, skipGap symbols ≠ .semicolon :: rest := hother
    simp [hnone, next?_eq_some_iff, spelt_singleton, Part.Fits]

theorem dottedParts_cons (word : String) (words : List String) :
    dottedParts (word :: words) =
      .segment word :: words.flatMap fun word => [.dot, .segment word] := by
  unfold dottedParts
  induction words generalizing word with
  | nil => rfl
  | cons second words ih =>
    rw [List.map_cons, List.map_cons, List.intersperse_cons_cons, ← List.map_cons, ih]
    rfl

def NameGoesOn (symbols : List Symbol) : Prop :=
  ∃ word later, Spelt [.dot, .segment word] symbols later

theorem NameGoesOn.next_eq_dot (h : NameGoesOn symbols) : next? symbols = some .dot := by
  obtain ⟨word, later, hspelt⟩ := h
  obtain ⟨symbol, rest, hdot, rfl, -⟩ := spelt_pair.mp hspelt
  exact next?_eq_some_iff.mpr ⟨rest, hdot⟩

theorem not_nameGoesOn_of_star (h : Spelt [.dot, .star] symbols later) : ¬ NameGoesOn symbols := by
  rintro ⟨word, after, hspelt⟩
  obtain ⟨symbol, rest, hdot, rfl, second, hstar, rfl⟩ := spelt_pair.mp h
  simp [spelt_pair, hdot, hstar, Part.Fits, Symbol.word?] at hspelt

theorem eq_stop_iff {words : List String} (hstop : ¬ NameGoesOn symbols) :
    ([], symbols) = (words, later) ↔
      Spelt (words.flatMap fun word => [.dot, .segment word]) symbols later ∧
        ¬ NameGoesOn later := by
  cases words with
  | nil =>
    simp only [Prod.mk.injEq, true_and, List.flatMap_nil, spelt_nil]
    constructor
    · rintro rfl
      exact ⟨rfl, hstop⟩
    · exact fun h => h.1
  | cons word words =>
    simp only [Prod.mk.injEq, List.nil_eq, reduceCtorEq, false_and, false_iff]
    rintro ⟨hspelt, -⟩
    rw [List.flatMap_cons, spelt_append] at hspelt
    obtain ⟨middle, hfirst, -⟩ := hspelt
    exact hstop ⟨word, middle, hfirst⟩

theorem dottedRest_eq_iff {words : List String} : dottedRest symbols = (words, later) ↔
    Spelt (words.flatMap fun word => [.dot, .segment word]) symbols later ∧ ¬ NameGoesOn later := by
  fun_induction dottedRest symbols generalizing words with
  | case1 symbols rest hdot symbol after hword word hw ih =>
    cases words with
    | nil =>
      have hmore : NameGoesOn symbols :=
        ⟨word, after, spelt_pair.mpr ⟨.dot, rest, hdot, rfl, symbol, hword, hw⟩⟩
      have hne : (dottedRest after).map (word :: ·) id ≠ ([], later) := by simp [Prod.ext_iff]
      simp only [hne, false_iff, List.flatMap_nil, spelt_nil]
      rintro ⟨rfl, hnone⟩
      exact hnone hmore
    | cons first words =>
      have hspelt : Spelt (.dot :: .segment first ::
          words.flatMap fun word => [.dot, .segment word]) symbols later ↔
          word = first ∧ Spelt (words.flatMap fun word => [.dot, .segment word]) after later := by
        simp [spelt_cons, hdot, hword, hw, Part.Fits]
      rw [List.flatMap_cons, List.cons_append, List.singleton_append, hspelt, and_assoc, ← ih]
      simp [Prod.ext_iff, and_assoc]
  | case2 symbols rest hdot symbol after hword hw =>
    apply eq_stop_iff
    rintro ⟨word, later, hspelt⟩
    simp [spelt_pair, hdot, hword, hw, Part.Fits] at hspelt
  | case3 symbols rest hdot hword =>
    apply eq_stop_iff
    rintro ⟨word, later, hspelt⟩
    simp [spelt_pair, hdot, hword, Part.Fits] at hspelt
  | case4 symbols hother =>
    apply eq_stop_iff
    intro hmore
    obtain ⟨rest, hdot⟩ := next?_eq_some_iff.mp hmore.next_eq_dot
    exact hother rest hdot

theorem dottedName?_eq_some_iff {words : List String} :
    dottedName? symbols = some (words, later) ↔
      words ≠ [] ∧ Spelt (dottedParts words) symbols later ∧ ¬ NameGoesOn later := by
  unfold dottedName?
  cases words with
  | nil =>
    split
    · simp [Prod.ext_iff]
    · simp
  | cons word words =>
    rw [dottedParts_cons, spelt_cons]
    split
    · rename_i symbol after hskip
      simp only [hskip, List.cons.injEq, Option.map_eq_some_iff, Prod.ext_iff, Prod.map_fst,
        Prod.map_snd, id, Part.Fits]
      have hrest : Spelt (words.flatMap fun word => [.dot, .segment word]) after later ∧
          ¬ NameGoesOn later ↔ (dottedRest after).1 = words ∧ (dottedRest after).2 = later := by
        rw [← dottedRest_eq_iff, Prod.ext_iff]
      constructor
      · rintro ⟨found, hword, ⟨rfl, hwords⟩, hlater⟩
        obtain ⟨hspelt, hstop⟩ := hrest.mpr ⟨hwords, hlater⟩
        exact ⟨by simp, ⟨symbol, after, ⟨rfl, rfl⟩, hword, hspelt⟩, hstop⟩
      · rintro ⟨-, ⟨_, _, ⟨rfl, rfl⟩, hword, hspelt⟩, hstop⟩
        obtain ⟨hwords, hlater⟩ := hrest.mp ⟨hspelt, hstop⟩
        exact ⟨word, hword, ⟨rfl, hwords⟩, hlater⟩
    · rename_i hskip
      simp [hskip]

/-- An import without its keyword: its parts stand from the symbols to the later ones, and no part
that it lacks comes next. -/
structure SpellsImport (symbols later : List Symbol) (clause : ImportClause) (ended : Bool) :
    Prop where
  spelt : Spelt (clause.parts ended) symbols later
  named : clause.segments ≠ []
  exclusive : clause.wildcard = true → clause.aliasName = none
  unmarked : clause.isStatic = false → next? symbols ≠ some (.keyword "static")
  complete : ended = false → next? later ≠ some .semicolon ∧
    (clause.aliasName = none → next? later ≠ some (.keyword "as")) ∧
    (clause.aliasName = none → clause.wildcard = false → next? later ≠ some .dot)

/-- A clause is read part by part. -/
theorem importClause_eq_ok {keyword : Symbol} {clause : ImportClause} :
    importClause keyword symbols = .ok (clause, later) ↔
      ∃ name star renamed rest, staticMark symbols = (clause.isStatic, name) ∧
        dottedName? name = some (clause.segments, star) ∧
        wildcardMark star = .ok (clause.wildcard, renamed) ∧
        aliasMark clause.wildcard renamed = .ok (clause.aliasName, rest) ∧
        skipSemicolon rest = later := by
  unfold importClause
  constructor
  · intro h
    simp only at h
    split at h
    · simp at h
    · rename_i name hname
      split at h
      · simp at h
      · rename_i star hstar
        split at h
        · simp at h
        · rename_i renamed hrenamed
          obtain ⟨rfl, hlater⟩ := Prod.mk.inj (Except.ok.inj h)
          exact ⟨_, _, _, _, rfl, hname, hstar, hrenamed, hlater⟩
  · rintro ⟨name, star, renamed, rest, hstatic, hname, hstar, hrenamed, rfl⟩
    simp only [hstatic, hname, hstar, hrenamed]

/-- A clause is read exactly where it is spelt and no part that it lacks comes next. -/
theorem importClause_eq_ok_iff {keyword : Symbol} {clause : ImportClause} :
    importClause keyword symbols = .ok (clause, later) ↔
      ∃ ended, SpellsImport symbols later clause ended := by
  simp only [importClause_eq_ok, staticMark_eq_iff, dottedName?_eq_some_iff,
    wildcardMark_eq_ok_iff, aliasMark_eq_ok_iff, skipSemicolon_eq_iff]
  constructor
  · rintro ⟨name, star, renamed, rest, ⟨hstatic, hunmarked⟩, ⟨hnamed, hname, -⟩, ⟨hstar, hdot⟩,
      ⟨halias, hexclusive, has⟩, ended, hend, hsemicolon⟩
    refine ⟨ended, ⟨?_, hnamed, hexclusive, hunmarked, ?_⟩⟩
    · unfold ImportClause.parts
      simp only [spelt_append]
      exact ⟨rest, ⟨renamed, ⟨star, ⟨name, hstatic, hname⟩, hstar⟩, halias⟩, hend⟩
    · rintro rfl
      obtain rfl : rest = later := by simpa using hend
      refine ⟨hsemicolon rfl, fun hnone => ?_, fun hnone hplain => ?_⟩
      · obtain rfl : renamed = rest := by simpa [hnone] using halias
        exact has hnone
      · obtain rfl : renamed = rest := by simpa [hnone] using halias
        obtain rfl : star = renamed := by simpa [hplain] using hstar
        exact hdot hplain
  · rintro ⟨ended, hspelt, hnamed, hexclusive, hunmarked, hcomplete⟩
    unfold ImportClause.parts at hspelt
    simp only [spelt_append] at hspelt
    obtain ⟨rest, ⟨renamed, ⟨star, ⟨name, hstatic, hname⟩, hstar⟩, halias⟩, hend⟩ := hspelt
    -- What comes next where a part may stand: a later part, or what the clause leaves.
    have hsemicolon : ended = false → next? rest ≠ some .semicolon := by
      rintro rfl
      obtain rfl : rest = later := by simpa using hend
      exact (hcomplete rfl).1
    have has : clause.aliasName = none → next? renamed ≠ some (.keyword "as") := by
      intro hnone
      obtain rfl : renamed = rest := by simpa [hnone] using halias
      cases ended with
      | true => exact Spelt.next_ne hend (by simp [Part.Fits])
      | false =>
        obtain rfl : renamed = later := by simpa using hend
        exact (hcomplete rfl).2.1 hnone
    have hdot : clause.wildcard = false → next? star ≠ some .dot := by
      intro hplain
      obtain rfl : star = renamed := by simpa [hplain] using hstar
      cases hname : clause.aliasName with
      | some name =>
        rw [hname] at halias
        exact Spelt.next_ne halias (by simp [Part.Fits])
      | none =>
        obtain rfl : star = rest := by simpa [hname] using halias
        cases ended with
        | true => exact Spelt.next_ne hend (by simp [Part.Fits])
        | false =>
          obtain rfl : star = later := by simpa using hend
          exact (hcomplete rfl).2.2 hname hplain
    have hstop : ¬ NameGoesOn star := by
      intro hmore
      cases hplain : clause.wildcard with
      | false => exact hdot hplain hmore.next_eq_dot
      | true =>
        rw [hplain] at hstar
        exact not_nameGoesOn_of_star hstar hmore
    exact ⟨name, star, renamed, rest, ⟨hstatic, hunmarked⟩, ⟨hnamed, hname, hstop⟩, ⟨hstar, hdot⟩,
      ⟨halias, hexclusive, has⟩, ended, hend, hsemicolon⟩

end Reading

end UnusedImports.Outline
