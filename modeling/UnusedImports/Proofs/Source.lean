import UnusedImports.Proofs.Outline.Pieces
import UnusedImports.Proofs.Outline.Symbol
import UnusedImports.Proofs.Token.Layout
import UnusedImports.Source

/-!
A source that was read. Its tokens are those of its text and its outline is that of their
symbols. What the outline says of positions carries over to bytes: an extent of tokens holds an
offset exactly when it holds the token there, and a clause never ends where an interpolated name
does.
-/
namespace UnusedImports.Source

theorem lex_of_tokenize {text : List Char} {tokens : List Token}
    (h : tokenize text = .ok tokens) : Token.lex text = .ok tokens := by
  unfold tokenize at h
  split at h
  · rename_i found hfound
    rw [hfound, Except.ok.inj h]
  · simp at h

/-- A source that was read has the text, its lines, its tokens and their outline. -/
theorem of_read {text : List Char} {source : Source} (h : read text = .ok source) :
    source.text = text ∧ source.index = .ofText text ∧ Token.lex text = .ok source.tokens ∧
      Outline.ofSymbols (source.tokens.map Token.symbol) = .ok source.outline := by
  unfold read at h
  split at h
  · simp at h
  · rename_i tokens htokens
    have hlex := lex_of_tokenize htokens
    simp only at h
    split at h
    · rename_i outline houtline
      obtain rfl := Except.ok.inj h
      exact ⟨rfl, rfl, hlex, houtline⟩
    · simp at h

theorem ofSymbols_of_read {text : List Char} {source : Source} (h : read text = .ok source) :
    Outline.ofSymbols (source.tokens.map Token.symbol) = .ok source.outline := (of_read h).2.2.2

/-- A text that cannot be cut into tokens cannot be read. -/
theorem exists_failure_of_fault {text : List Char} {fault : LexFault}
    (h : Token.lex text = .error fault) : ∃ failure, read text = .error failure := by
  unfold read tokenize
  rw [h]
  exact ⟨_, rfl⟩

section Tokens

variable {source : Source} {text : List Char}

theorem exists_token_of_symbol {position : Nat} {symbol : Symbol}
    (h : (source.tokens.map Token.symbol)[position]? = some symbol) :
    ∃ token, source.tokens[position]? = some token ∧ token.symbol = symbol := by
  rw [List.getElem?_map] at h
  exact Option.map_eq_some_iff.mp h

theorem exists_bytesOf {tokens : List Token} (extent : Extent)
    (hforward : extent.start < extent.stop) (hstop : extent.stop ≤ tokens.length) :
    ∃ first last, tokens[extent.start]? = some first ∧ tokens[extent.stop - 1]? = some last ∧
      Token.bytesOf tokens extent = ⟨first.start, last.stop⟩ := by
  have hfirst : tokens[extent.start]? = some tokens[extent.start] :=
    List.getElem?_eq_getElem (by omega)
  have hlast : tokens[extent.stop - 1]? = some tokens[extent.stop - 1] :=
    List.getElem?_eq_getElem (by omega)
  refine ⟨_, _, hfirst, hlast, ?_⟩
  simp [Token.bytesOf, hfirst, hlast]

/-- An offset lies in the bytes of a run of tokens exactly when its token lies in the run. -/
theorem contains_bytesOf (hlex : Token.lex text = .ok source.tokens) {extent : Extent}
    (hforward : extent.start < extent.stop) (hstop : extent.stop ≤ source.tokens.length)
    {position offset : Nat} {token : Token} (htoken : source.tokens[position]? = some token)
    (hstart : token.start ≤ offset) (hoffset : offset < token.stop) :
    (Token.bytesOf source.tokens extent).contains offset = extent.contains position := by
  obtain ⟨first, last, hfirst, hlast, hbytes⟩ := exists_bytesOf extent hforward hstop
  rw [hbytes, Bool.eq_iff_iff, Extent.contains_iff, Extent.contains_iff]
  simp only
  constructor
  · intro hinside
    have hfirstle := Token.le_of_start_lt_stop hlex hfirst htoken (by omega)
    have hlastle := Token.le_of_start_lt_stop hlex htoken hlast (by omega)
    omega
  · intro hinside
    have hfirststart := Token.start_le_start hlex hfirst htoken hinside.1
    have hlaststop := Token.stop_le_stop hlex htoken hlast (by omega)
    omega

end Tokens

section Spelling

variable {source : Source} {text : List Char}

/-- A name, a word or a sign is written out and without spacing. -/
theorem spelled_of_symbol {tokens : List Token} (hlex : Token.lex text = .ok tokens)
    {position : Nat} {token : Token} (htoken : tokens[position]? = some token)
    (hother : token.symbol ≠ .other) (htrivia : token.symbol.isTrivia = false) :
    token.Spelled := by
  have hfits := Token.fits_token hlex htoken
  unfold Token.Fits at hfits
  unfold Token.symbol at hother htrivia
  cases hkind : token.kind with
  | identifier | keyword | operator => simpa only [hkind] using hfits
  | number | literal | interpolationStart | interpolationEnd => simp [hkind] at hother
  | comment | blank | newline => simp [hkind, Symbol.isTrivia] at htrivia

theorem start_lt_stop_of_spelled {token : Token} (h : token.Spelled) :
    token.start < token.stop := by
  have hpositive := Text.byteLength_pos h.1
  unfold Token.stop
  omega

theorem exists_of_reverse_take {tokens rest : List Token} {first : Token} {position : Nat}
    (h : (tokens.take position).reverse = first :: rest) (hposition : position ≤ tokens.length) :
    ∃ last, position = last + 1 ∧ tokens[last]? = some first ∧
      (tokens.take last).reverse = rest := by
  cases position with
  | zero => simp at h
  | succ last =>
    obtain ⟨token, htoken⟩ : ∃ token, tokens[last]? = some token :=
      ⟨_, List.getElem?_eq_getElem (by omega)⟩
    rw [List.take_add_one, htoken, Option.toList_some, List.reverse_append, List.reverse_singleton,
      List.singleton_append] at h
    obtain ⟨rfl, hrest⟩ := List.cons.inj h
    exact ⟨last, rfl, htoken, hrest⟩

/-- No path of names leads back from the end of a clause to the sign of an interpolated
expression: all before the end are parts of the clause, and its keyword does not follow a dot. -/
theorem not_path_of_clauseAt {word : String} {keyword stop : Nat}
    (h : Outline.ClauseAt (source.tokens.map Token.symbol) word keyword stop) :
    ∀ position, keyword < position → position ≤ stop →
      ¬ Token.Path (source.tokens.take position).reverse := by
  have hbefore : ∀ position token, source.tokens[position]? = some token →
      token.symbol = .dot ∨ token.symbol = .other → keyword ≤ position + 1 →
        position < stop → token.symbol = .dot ∧ keyword < position := by
    intro position token htoken hsymbol hkeyword hstop
    have hat : (source.tokens.map Token.symbol)[position]? = some token.symbol := by
      rw [List.getElem?_map, htoken]
      rfl
    rcases Nat.lt_trichotomy keyword position with hlt | heq | hgt
    · obtain ⟨symbol, hpart, hclause⟩ := h.parts position hlt hstop
      obtain rfl := Option.some.inj (hat.symm.trans hpart)
      rcases hsymbol with hdot | hother
      · exact ⟨hdot, hlt⟩
      · simp [hother, Symbol.isClausePart] at hclause
    · subst heq
      have hword := Option.some.inj (hat.symm.trans h.keyword_eq)
      rcases hsymbol with hdot | hother <;> simp_all
    · have hopens : token.symbol.mayPrecede = true := by
        apply h.opens
        rw [List.getLast?_take, if_neg (by omega), show keyword - 1 = position by omega, hat,
          Option.some_or]
      rcases hsymbol with hdot | hother
      · simp [hdot, Symbol.mayPrecede] at hopens
      · simp [hother, Symbol.mayPrecede] at hopens
  have hlength := h.stop_le
  rw [List.length_map] at hlength
  intro position
  induction position using Nat.strongRecOn with
  | ind position ih =>
    intro hkeyword hstop hpath
    generalize hearlier : (source.tokens.take position).reverse = earlier at hpath
    cases hpath with
    | first _ hopening =>
      obtain ⟨last, rfl, -, hrest⟩ := exists_of_reverse_take hearlier (by omega)
      obtain ⟨before, rfl, htoken, -⟩ := exists_of_reverse_take hrest (by omega)
      have hother := (hbefore before _ htoken
        (Or.inr (by simp [Token.symbol, hopening])) (by omega) (by omega)).1
      simp [Token.symbol, hopening] at hother
    | next _ hdot hpath =>
      obtain ⟨last, rfl, -, hrest⟩ := exists_of_reverse_take hearlier (by omega)
      obtain ⟨before, rfl, htoken, rfl⟩ := exists_of_reverse_take hrest (by omega)
      have hlt := (hbefore before _ htoken
        (Or.inl (by simp [Token.symbol, hdot.1, hdot.2, Symbol.ofOperator])) (by omega)
        (by omega)).2
      exact ih before (by omega) hlt (by omega) hpath

/-- An import starts with the sign of an annotation or with its keyword. -/
theorem exists_first_of_importAt {statement : ImportStatement}
    (h : Outline.ImportAt (source.tokens.map Token.symbol) statement) :
    ∃ token, source.tokens[statement.tokens.start]? = some token ∧
      (token.symbol = .atSign ∨ token.symbol = .keyword "import") := by
  by_cases hannotated : statement.tokens.start < statement.keyword
  · obtain ⟨token, htoken, hsymbol⟩ := exists_token_of_symbol (h.first hannotated)
    exact ⟨token, htoken, Or.inl hsymbol⟩
  · have hstart : statement.tokens.start = statement.keyword := by
      have hle := h.start_le_keyword
      omega
    rw [hstart]
    obtain ⟨token, htoken, hsymbol⟩ := exists_token_of_symbol h.clause.keyword_eq
    exact ⟨token, htoken, Or.inr hsymbol⟩

theorem spelled_of_first (hlex : Token.lex text = .ok source.tokens) {position : Nat}
    {token : Token} (htoken : source.tokens[position]? = some token)
    (h : token.symbol = .atSign ∨ token.symbol = .keyword "import") : token.Spelled := by
  apply spelled_of_symbol hlex htoken
  · rcases h with h | h <;> simp [h]
  · rcases h with h | h <;> simp [h, Symbol.isTrivia]

end Spelling

end UnusedImports.Source
