import UnusedImports.Proofs.Outline.Separation
import UnusedImports.Proofs.Safety
import UnusedImports.Proofs.Token.Depth

/-!
The imports at the top level of a source. A keyword of an import that starts a statement outside
brackets is collected unless the header of a type declaration or annotations that began earlier
run on over it. Conversely the keyword of every import that is collected stands outside brackets;
it stands in an interpolated expression only if the expression is opened in an item or in
annotations that have ended before the keyword, since a statement ends with its line even there.
-/
namespace UnusedImports

namespace Token

def opensGroup (token : Token) : Bool :=
  token.isSign "(" || token.isSign "[" || token.isSign "\x7b"

def closesGroup (token : Token) : Bool :=
  token.isSign ")" || token.isSign "]" || token.isSign "\x7d"

def breaks (token : Token) : Bool := token.kind == .newline || token.isSign ";"

def bracketDepth (tokens : List Token) (position : Nat) : Nat :=
  (tokens.take position).countP opensGroup - (tokens.take position).countP closesGroup

def solidBefore? (tokens : List Token) (position : Nat) : Option Token :=
  (tokens.take position).reverse.find? fun token => token.kind != .blank && token.kind != .comment

section Symbols

theorem isOpening_symbol (token : Token) : token.symbol.isOpening = token.opensGroup := by
  unfold symbol opensGroup isSign
  cases token.kind with
  | operator =>
    simp only [Symbol.ofOperator, apply_ite Symbol.isOpening]
    simp only [Symbol.isOpening, ite_self]
    grind
  | _ => simp [Symbol.isOpening]

theorem isClosing_symbol (token : Token) : token.symbol.isClosing = token.closesGroup := by
  unfold symbol closesGroup isSign
  cases token.kind with
  | operator =>
    simp only [Symbol.ofOperator, apply_ite Symbol.isClosing]
    simp only [Symbol.isClosing, ite_self]
    grind
  | _ => simp [Symbol.isClosing]

theorem breaks_symbol (token : Token) : token.symbol.breaks = token.breaks := by
  unfold symbol breaks isSign
  cases token.kind with
  | operator =>
    by_cases hsign : token.text = ";"
    · rw [hsign]
      rfl
    · simp only [Symbol.ofOperator, hsign, apply_ite Symbol.breaks]
      simp [Symbol.breaks, hsign]
  | _ => simp [Symbol.breaks]

theorem level_symbols (tokens : List Token) (position : Nat) :
    Outline.level ((tokens.map symbol).take position) = bracketDepth tokens position := by
  rw [← List.map_take, Outline.level, List.countP_map, List.countP_map, bracketDepth]
  congr 1
  · exact List.countP_congr fun token _ => by simp [isOpening_symbol]
  · exact List.countP_congr fun token _ => by simp [isClosing_symbol]

theorem find?_symbols (tokens : List Token) (position : Nat) :
    ((tokens.map symbol).take position).reverse.find? (· != .gap) =
      (solidBefore? tokens position).map symbol := by
  rw [← List.map_take, ← List.map_reverse, List.find?_map, solidBefore?]
  congr 2
  funext token
  exact symbol_bne_gap token

end Symbols

end Token

namespace Source

/-- A keyword of an import stands outside brackets and starts a statement: no token stands before
it on its line, unless a semicolon comes last of them, other than white space and comments, and the
last token that is not trivia is no member access operator. -/
structure StartsImport (source : Source) (position : Nat) : Prop where
  keyword : (source.tokens[position]?).any (Token.isWord · "import") = true
  outside : Token.bracketDepth source.tokens position = 0
  first : (Token.solidBefore? source.tokens position).all Token.breaks = true
  receiver : source.hasReceiver position = false

instance (source : Source) (position : Nat) : Decidable (source.StartsImport position) :=
  decidable_of_iff
    ((source.tokens[position]?).any (Token.isWord · "import") = true ∧
      Token.bracketDepth source.tokens position = 0 ∧
      (Token.solidBefore? source.tokens position).all Token.breaks = true ∧
      source.hasReceiver position = false)
    ⟨fun h => ⟨h.1, h.2.1, h.2.2.1, h.2.2.2⟩,
      fun h => ⟨h.keyword, h.outside, h.first, h.receiver⟩⟩

section Tops

variable {source : Source} {position : Nat}

theorem any_isMemberAccess_take (source : Source) (position : Nat) :
    (Outline.lastSignificant none ((source.tokens.map Token.symbol).take position)).any
      Symbol.isMemberAccess = source.hasReceiver position := by
  rw [← List.map_take, source.lastSignificant_take, Option.any_map, hasReceiver]
  congr 1
  funext token
  exact Token.isMemberAccess_symbol token

theorem StartsImport.symbols (h : source.StartsImport position) :
    Outline.StartsImport (source.tokens.map Token.symbol) position where
  keyword := by
    have hkeyword := h.keyword
    cases htoken : source.tokens[position]? with
    | none => simp [htoken] at hkeyword
    | some token =>
      rw [htoken, Option.any_some] at hkeyword
      rw [List.getElem?_map, htoken, Option.map_some, Token.symbol_of_isWord hkeyword]
  outside := by rw [Token.level_symbols, h.outside]
  first := by
    intro symbol hsymbol
    rw [Token.find?_symbols] at hsymbol
    obtain ⟨token, htoken, rfl⟩ := Option.map_eq_some_iff.mp hsymbol
    have hfirst := h.first
    rw [htoken, Option.all_some] at hfirst
    rw [Token.breaks_symbol, hfirst]
  receiver := by rw [any_isMemberAccess_take, h.receiver]

end Tops

/-- The imports of a source that was read. A keyword of an import that starts a statement outside
brackets is collected exactly if nothing that began earlier runs on over it. The keyword of a
collected import is one and stands outside brackets and after no member access operator; it stands
in an interpolated expression exactly if one is opened in an item or in annotations that have
ended before it. -/
theorem collects_of_read {text : List Char} {source : Source} (h : read text = .ok source) :
    (∀ position, source.StartsImport position →
      (source.outline.Collects position ↔ ¬ source.outline.Absorbs position)) ∧
    ∀ position, source.outline.Collects position →
      (∃ token, source.tokens[position]? = some token ∧ token.isWord "import" = true ∧
        (0 < token.depth ↔ ∃ opening, Token.Encloses source.tokens opening position ∧
          ∃ extent ∈ source.outline.stretches, extent.contains opening = true ∧
            extent.stop ≤ position)) ∧
      Token.bracketDepth source.tokens position = 0 ∧ source.hasReceiver position = false := by
  obtain ⟨-, -, hlex, houtline⟩ := of_read h
  obtain ⟨pieces, hcuts⟩ := Outline.exists_cuts houtline
  obtain ⟨hnests, hreading⟩ := Outline.reading_ofSymbols houtline
  constructor
  · intro position hstarts
    refine ⟨hcuts.not_absorbs, fun hfree => ?_⟩
    exact (hreading.settles Outline.Nests.nil hnests hstarts.symbols (Nat.zero_le _)).resolve_right
      hfree
  · intro position hcollects
    obtain ⟨statement, hmem, rfl⟩ := hcollects
    obtain ⟨first, later, hsplit, hlength, hbefore, hreceiver⟩ :=
      hreading.exists_keyword Outline.Nests.nil hnests hmem
    rw [List.nil_append] at hsplit
    have htake : (source.tokens.map Token.symbol).take statement.keyword = first := by
      rw [← hlength, hsplit, List.take_left]
    have hkeyword : (source.tokens.map Token.symbol)[statement.keyword]? =
        some (.keyword "import") := by
      rw [← hlength, hsplit]
      exact Outline.getElem?_append_length first later _
    obtain ⟨token, htoken, hsymbol⟩ := exists_token_of_symbol hkeyword
    obtain ⟨hkind, hword⟩ := Token.kind_of_symbol_keyword hsymbol
    refine ⟨⟨token, htoken, by simp [Token.isWord, hkind, hword], ?_⟩, ?_, ?_⟩
    · constructor
      · intro hdepth
        obtain ⟨opening, hencloses⟩ :=
          Token.exists_encloses hlex htoken (by simp [hkind]) hdepth
        refine ⟨opening, hencloses, ?_⟩
        obtain ⟨hlt, sign, hsign, hsignkind, -⟩ := hencloses
        refine hcuts.exists_stretch ⟨statement, hmem, rfl⟩ hlt ?_
        rw [List.getElem?_map, hsign, Option.map_some, Token.symbol, hsignkind]
      · rintro ⟨opening, ⟨hlt, sign, -, -, hinside⟩, -⟩
        have hdeeper := hinside statement.keyword token hlt (Nat.le_refl _) htoken
        omega
    · rw [← Token.level_symbols, htake, Outline.level_eq_zero hbefore]
    · rw [← any_isMemberAccess_take, htake, hreceiver]

/-- An import that the header of what looks like a type declaration runs on over, and one that is
collected. -/
theorem collects_of_read_record :
    ∃ source, read "record x\nimport a.B\nrun \x7b \x7d\nimport c.D\n".toList = .ok source ∧
      source.StartsImport 4 ∧ ¬ source.outline.Collects 4 ∧ source.outline.Absorbs 4 ∧
      source.StartsImport 16 ∧ source.outline.Collects 16 ∧ ¬ source.outline.Absorbs 16 := by
  have hrun : ((read "record x\nimport a.B\nrun \x7b \x7d\nimport c.D\n".toList).toOption.any
      fun source => source.StartsImport 4 ∧ source.StartsImport 16 ∧
        source.outline.imports.map ImportStatement.keyword = [16]) = true := by decide +kernel
  generalize "record x\nimport a.B\nrun \x7b \x7d\nimport c.D\n".toList = text at hrun ⊢
  cases hread : read text with
  | error failure => simp [hread, Except.toOption] at hrun
  | ok source =>
    simp only [hread, Except.toOption, Option.any_some, decide_eq_true_eq] at hrun
    obtain ⟨hfirst, hsecond, hkeywords⟩ := hrun
    have hcollects : ∀ position, source.outline.Collects position ↔ position = 16 := by
      intro position
      rw [Outline.Collects, ← List.mem_map, hkeywords, List.mem_singleton]
    have hfree : ¬ source.outline.Collects 4 := by simp [hcollects]
    have hcollected : source.outline.Collects 16 := by simp [hcollects]
    refine ⟨source, rfl, hfirst, hfree, ?_, hsecond, hcollected, ?_⟩
    · exact Classical.not_not.mp fun hnot => hfree (((collects_of_read hread).1 4 hfirst).mpr hnot)
    · exact ((collects_of_read hread).1 16 hsecond).mp hcollected

/-- An import outside brackets and interpolated expressions at the start of its line is not
collected, and one in an interpolated expression is. -/
theorem not_collects_record_and_collects_interpolated :
    (∃ source, read "record x\nimport a.B\nrun \x7b \x7d\n".toList = .ok source ∧
      source.StartsImport 4 ∧ (source.tokens[4]?).map Token.depth = some 0 ∧
      ¬ source.outline.Collects 4) ∧
    ∃ source, read "def s = \"$\x7b\nimport a.B\n\x7d\"\n".toList = .ok source ∧
      (source.tokens[9]?).map Token.depth = some 1 ∧ source.outline.Collects 9 := by
  have hrecord : ((read "record x\nimport a.B\nrun \x7b \x7d\n".toList).toOption.any
      fun source => source.StartsImport 4 ∧ (source.tokens[4]?).map Token.depth = some 0 ∧
        source.outline.imports.map ImportStatement.keyword = []) = true := by decide +kernel
  have hhole : ((read "def s = \"$\x7b\nimport a.B\n\x7d\"\n".toList).toOption.any
      fun source => (source.tokens[9]?).map Token.depth = some 1 ∧
        source.outline.imports.map ImportStatement.keyword = [9]) = true := by decide +kernel
  generalize "record x\nimport a.B\nrun \x7b \x7d\n".toList = first at hrecord ⊢
  generalize "def s = \"$\x7b\nimport a.B\n\x7d\"\n".toList = second at hhole ⊢
  constructor
  · cases hread : read first with
    | error failure => simp [hread, Except.toOption] at hrecord
    | ok source =>
      simp only [hread, Except.toOption, Option.any_some, decide_eq_true_eq] at hrecord
      obtain ⟨hstarts, hdepth, hkeywords⟩ := hrecord
      refine ⟨source, rfl, hstarts, hdepth, ?_⟩
      rw [Outline.Collects, ← List.mem_map, hkeywords]
      exact List.not_mem_nil
  · cases hread : read second with
    | error failure => simp [hread, Except.toOption] at hhole
    | ok source =>
      simp only [hread, Except.toOption, Option.any_some, decide_eq_true_eq] at hhole
      obtain ⟨hdepth, hkeywords⟩ := hhole
      refine ⟨source, rfl, hdepth, ?_⟩
      rw [Outline.Collects, ← List.mem_map, hkeywords]
      exact List.mem_singleton.mpr rfl

end Source

end UnusedImports
