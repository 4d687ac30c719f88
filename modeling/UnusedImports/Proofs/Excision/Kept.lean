import UnusedImports.Proofs.Excision.Selection
import UnusedImports.Proofs.Excision.Visible

/-!
What is not selected stays. A statement or clause that no chosen import is part of starts with
a visible character. Each later character of it has another visible one behind it in a token
that has to stay, or else it belongs to the spaces and comments that end its line. Either way
it is sheltered.
-/
namespace UnusedImports

open UnusedImports.Text

namespace Source

open Excision

variable {source : Source} {text : List Char} {chosen : List ImportStatement}

/-- A chosen import that holds an offset holds the token there. -/
theorem Selects.contains_of_bytes (h : source.Selects text chosen) {statement : ImportStatement}
    (hmem : statement ∈ chosen) {position offset : Nat} {token : Token}
    (htoken : source.tokens[position]? = some token) (hstart : token.start ≤ offset)
    (hstop : offset < token.stop) :
    (Token.bytesOf source.tokens statement.tokens).contains offset =
      statement.tokens.contains position := by
  have hat := h.importAt (h.chosen_mem statement hmem)
  have hkeyword := hat.start_le_keyword
  have hforward := hat.clause.keyword_lt_stop
  have hlength := hat.clause.stop_le
  rw [List.length_map] at hlength
  exact contains_bytesOf h.lexed (by omega) hlength htoken hstart hstop

/-- Nothing is removed between two offsets when no token there belongs to a chosen import. -/
theorem Selects.clear (h : source.Selects text chosen) {first last : Nat}
    (hspares : ∀ position token, source.tokens[position]? = some token → first < token.stop →
      token.start ≤ last → Spares chosen position) :
    ∀ removal ∈ source.bytesOfImports chosen, ∀ between, first ≤ between → between ≤ last →
      removal.contains between = false := by
  intro removal hremoval between hfirst hlast
  obtain ⟨statement, hmem, rfl⟩ := List.mem_map.mp hremoval
  cases hcontains : (Token.bytesOf source.tokens statement.tokens).contains between with
  | false => rfl
  | true =>
    have hend := (h.aligned hmem).stop_le
    have hinside := (Extent.contains_iff.mp hcontains).2
    obtain ⟨position, token, htoken, hstart, hstop⟩ :=
      Token.exists_token h.lexed (show between < byteLength text by omega)
    rw [h.contains_of_bytes hmem htoken hstart hstop,
      hspares position token htoken (by omega) (by omega) statement hmem] at hcontains
    simp at hcontains

theorem Selects.holds (h : source.Selects text chosen) {position offset : Nat}
    (hshows : Shows text source.tokens position offset) (hspares : Spares chosen position) :
    Holds text source.tokens (source.bytesOfImports chosen) offset := by
  obtain ⟨hvisible, token, htoken, hstart, hstop, hfixed⟩ := hshows
  refine ⟨hvisible, ⟨token, List.mem_of_getElem? htoken, hstart, hstop, hfixed⟩, ?_⟩
  intro removal hremoval
  obtain ⟨statement, hmem, rfl⟩ := List.mem_map.mp hremoval
  rw [h.contains_of_bytes hmem htoken hstart hstop]
  exact hspares statement hmem

/-- Tokens that reach into a stretch between two tokens stand between them. -/
theorem Selects.spares_between (h : source.Selects text chosen) {first last : Nat}
    {token other : Token} (htoken : source.tokens[first]? = some token)
    (hother : source.tokens[last]? = some other)
    (hspares : ∀ position, first ≤ position → position ≤ last → Spares chosen position)
    {low high : Nat} (hlow : token.start ≤ low) (hhigh : high < other.stop) :
    ∀ position between, source.tokens[position]? = some between → low < between.stop →
      between.start ≤ high → Spares chosen position := by
  intro position between hbetween hstop hstart
  apply hspares position
  · exact Token.le_of_start_lt_stop h.lexed htoken hbetween (by omega)
  · exact Token.le_of_start_lt_stop h.lexed hbetween hother (by omega)

/-- Between two characters that show, with nothing removed between them, all is sheltered. -/
theorem Selects.sheltered_of_shows (h : source.Selects text chosen)
    {first last offset low high : Nat} (hfirst : Shows text source.tokens first low)
    (hlast : Shows text source.tokens last high)
    (hspares : ∀ position, first ≤ position → position ≤ last → Spares chosen position)
    (hle : first ≤ last) (hlow : low ≤ offset) (hhigh : offset ≤ high) :
    Sheltered text source.tokens (source.bytesOfImports chosen) offset := by
  have hholds := h.holds hlast (hspares last hle (Nat.le_refl _))
  obtain ⟨token, htoken, htokenstart, -, -⟩ := hfirst.fixed
  obtain ⟨other, hother, -, hotherstop, -⟩ := hlast.fixed
  refine ⟨low, high, hlow, hhigh, h.holds hfirst (hspares first (Nat.le_refl _) hle),
    h.clear (h.spares_between htoken hother hspares htokenstart hotherstop), ?_, Or.inl hholds⟩
  intro c hc
  obtain ⟨d, hd, hvisible⟩ := hholds.visible
  obtain rfl := Option.some.inj (hc.symm.trans hd)
  simp only [isSpacing, Bool.or_eq_false_iff] at hvisible
  exact hvisible.1.1

/-- After a line feed in a statement, something of the statement shows. -/
theorem exists_shows_after_feed (hlex : Token.lex text = .ok source.tokens) {start stop : Nat}
    (hstatement : Outline.StatementAt (source.tokens.map Token.symbol) start stop)
    {position feed : Nat} {token : Token} (htoken : source.tokens[position]? = some token)
    (hfirst : start ≤ position) (hlast : position < stop) (hfeed : charAt? feed text = some '\n')
    (hstart : token.start ≤ feed) (hstop : feed < token.stop) :
    ∃ shown later, start ≤ shown ∧ shown < stop ∧ feed < later ∧
      Shows text source.tokens shown later := by
  have hmem := (Token.stands_token hlex (List.mem_of_getElem? htoken)).mem hfeed hstart hstop
  -- What follows the statement is no piece of a literal and no interpolated expression.
  have hinside : ∀ shown, shown ≤ stop →
      (source.tokens.map Token.symbol)[shown]? = some .other → shown < stop := by
    intro shown hle hother
    by_cases heq : shown = stop
    · have hends := hstatement.ends .other (heq ▸ hother)
      simp [Outline.endsStatement] at hends
    · omega
  by_cases hfixed : token.isFixed = true
  · obtain ⟨shown, later, hle, hshows, hshown⟩ :=
      exists_shows_from hlex htoken hfixed hfeed hstart hstop
    refine ⟨shown, later, by omega, ?_, ?_, hshows⟩
    · rcases hshown with rfl | ⟨rfl, hother⟩
      · exact hlast
      · exact hinside _ hlast hother
    · by_cases heq : feed = later
      · obtain ⟨c, hc, hvisible⟩ := hshows.visible
        rw [← heq, hfeed] at hc
        rw [← Option.some.inj hc] at hvisible
        simp [isSpacing] at hvisible
      · omega
  · have hnewline := kind_eq_newline hlex htoken hfixed hmem
    have hat : (source.tokens.map Token.symbol)[position]? = some .newline := by
      simp [htoken, Token.symbol, hnewline]
    obtain ⟨further, symbol, hlt, hltstop, hsymbol, hsignificant⟩ :=
      hstatement.continues position hfirst hlast hat
    obtain ⟨next, hnext, rfl⟩ := exists_token_of_symbol hsymbol
    rw [Token.isTrivia_symbol] at hsignificant
    obtain ⟨shown, later, hshows, hshown⟩ := exists_shows_of_significant hlex hnext hsignificant
    have hbounds : position < shown ∧ shown < stop := by
      rcases hshown with rfl | ⟨rfl, hother⟩ | ⟨hbefore, htrivia⟩
      · exact ⟨hlt, hltstop⟩
      · exact ⟨by omega, hinside _ hltstop hother⟩
      · by_cases heq : shown = position
        · have hsolid := htrivia .newline (heq ▸ hat)
          simp [Symbol.isTrivia] at hsolid
        · omega
    obtain ⟨solid, hsolid, hsolidstart, -, -⟩ := hshows.fixed
    have hafter := Token.stop_le_start hlex htoken hsolid hbounds.1
    exact ⟨shown, later, by omega, hbounds.2, by omega, hshows⟩

/-- A character that holds its line is found before any offset, if one is found again after
each line feed on the way. -/
theorem exists_holds_on_line {tokens : List Token} {removals : List Extent} {offset : Nat}
    (count : Nat) : ∀ start, offset - start = count → start ≤ offset →
      Holds text tokens removals start →
      (∀ feed, start ≤ feed → feed < offset → charAt? feed text = some '\n' →
        ∃ next, feed < next ∧ next ≤ offset ∧ Holds text tokens removals next) →
      ∃ first, start ≤ first ∧ first ≤ offset ∧ Holds text tokens removals first ∧
        ∀ between, first ≤ between → between < offset → charAt? between text ≠ some '\n' := by
  induction count using Nat.strongRecOn with
  | ind count ih =>
    intro start hcount hstart hholds hagain
    by_cases hfeed : ∃ feed, start ≤ feed ∧ feed < offset ∧ charAt? feed text = some '\n'
    · obtain ⟨feed, hlow, hhigh, hat⟩ := hfeed
      obtain ⟨next, hnext, hle, hholds'⟩ := hagain feed hlow hhigh hat
      obtain ⟨first, hfirst, hrest⟩ := ih (offset - next) (by omega) next rfl hle hholds'
        fun feed hlow => hagain feed (by omega)
      exact ⟨first, by omega, hrest⟩
    · refine ⟨start, Nat.le_refl _, hstart, hholds, ?_⟩
      intro between hlow hhigh hat
      exact hfeed ⟨between, hlow, hhigh, hat⟩

/-- What follows a statement starts with a sign or a line end. -/
theorem head_of_endsStatement (hlex : Token.lex text = .ok source.tokens) {position : Nat}
    {token : Token} (htoken : source.tokens[position]? = some token)
    (hends : Outline.endsStatement token.symbol = true) :
    ∃ c, token.text.toList.head? = some c ∧ isSpaceOrTab c = false := by
  by_cases hnewline : token.kind = .newline
  · have hfits := Token.fits_token hlex htoken
    unfold Token.Fits at hfits
    simp only [hnewline] at hfits
    rcases hfits with hfeed | hreturn
    · exact ⟨'\n', by rw [hfeed]; rfl, rfl⟩
    · exact ⟨'\r', by rw [hreturn]; rfl, rfl⟩
  · have hspelled : token.Spelled := by
      apply spelled_of_symbol hlex htoken
      · intro hother
        simp [hother, Outline.endsStatement] at hends
      · cases hsymbol : token.symbol with
        | newline =>
          unfold Token.symbol at hsymbol
          cases hkind : token.kind with
          | newline => exact absurd hkind hnewline
          | operator =>
            have hsign := (Symbol.signs_ofOperator token.text).isTrivia
            simp only [hkind] at hsymbol
            simp [hsymbol, Symbol.isTrivia] at hsign
          | _ => simp [hkind] at hsymbol
        | gap => simp [hsymbol, Outline.endsStatement] at hends
        | _ => rfl
    have hvisible := hspelled.2 _ (List.head_mem hspelled.1)
    simp only [isSpacing, Bool.or_eq_false_iff] at hvisible
    exact ⟨_, List.head?_eq_some_head hspelled.1, hvisible.1.1⟩

/-- Behind a statement there is an offset with no space, before all that comes later. -/
theorem exists_end_of_statement (hlex : Token.lex text = .ok source.tokens) {start stop : Nat}
    (hstatement : Outline.StatementAt (source.tokens.map Token.symbol) start stop) :
    ∃ last, (∀ position token, source.tokens[position]? = some token → position < stop →
        token.stop ≤ last) ∧
      (∀ position token, source.tokens[position]? = some token → token.start ≤ last →
        position ≤ stop) ∧
      ∀ c, charAt? last text = some c → isSpaceOrTab c = false := by
  by_cases hlt : stop < source.tokens.length
  · have hnext : source.tokens[stop]? = some source.tokens[stop] := List.getElem?_eq_getElem hlt
    generalize source.tokens[stop] = next at hnext
    have hends := hstatement.ends next.symbol (by simp [hnext])
    obtain ⟨head, hhead, hsolid⟩ := head_of_endsStatement hlex hnext hends
    have hstands := Token.stands_token hlex (List.mem_of_getElem? hnext)
    have hpositive := byteLength_pos (List.ne_nil_of_mem (List.mem_of_mem_head? hhead))
    refine ⟨next.start, ?_, ?_, ?_⟩
    · intro position token htoken hbefore
      exact Token.stop_le_start hlex htoken hnext hbefore
    · intro position token htoken hstart
      exact Token.le_of_start_lt_stop hlex htoken hnext (by unfold Token.stop; omega)
    · intro c hc
      rw [← Option.some.inj ((hstands.head hhead).symm.trans hc)]
      exact hsolid
  · refine ⟨byteLength text, ?_, ?_, ?_⟩
    · intro position token htoken _
      exact (Token.stands_token hlex (List.mem_of_getElem? htoken)).le_byteLength
    · intro position token htoken _
      have hposition := (List.getElem?_eq_some_iff.mp htoken).1
      omega
    · intro c hc
      exact absurd (lt_of_charAt? hc) (Nat.lt_irrefl _)

/-- If nothing of a statement shows from an offset on, what showed last holds the line of the
offset. -/
theorem Selects.exists_held (h : source.Selects text chosen) {start stop low : Nat}
    (hstatement : Outline.StatementAt (source.tokens.map Token.symbol) start stop)
    (hshows : Shows text source.tokens start low)
    (hspares : ∀ position token, source.tokens[position]? = some token → start ≤ position →
      position ≤ stop → Spares chosen position)
    {position offset : Nat} {token : Token} (htoken : source.tokens[position]? = some token)
    (hlast : position < stop) (hlow : low ≤ offset) (hstop : offset < token.stop)
    (hbefore : ∀ shown later, start ≤ shown → shown < stop →
      Shows text source.tokens shown later → later < offset) :
    ∃ held, low ≤ held ∧ held ≤ offset ∧
      Holds text source.tokens (source.bytesOfImports chosen) held ∧
      ∀ between, held ≤ between → between < offset → charAt? between text ≠ some '\n' := by
  obtain ⟨first, hfirst, hfirststart, -, -⟩ := hshows.fixed
  have hforward := hstatement.start_lt_stop
  apply exists_holds_on_line _ low rfl hlow
    (h.holds hshows (hspares start first hfirst (Nat.le_refl _) (by omega)))
  intro feed hfeedlow hfeedhigh hfeed
  obtain ⟨number, other, hother, hotherstart, hotherstop⟩ :=
    Token.exists_token h.lexed (lt_of_charAt? hfeed)
  have hge := Token.le_of_start_lt_stop h.lexed hfirst hother (by omega)
  have hle := Token.le_of_start_lt_stop h.lexed hother htoken (by omega)
  obtain ⟨shown, later, hshownge, hshownlt, hgt, hshown⟩ := exists_shows_after_feed h.lexed
    hstatement hother hge (by omega) hfeed hotherstart hotherstop
  have hend := hbefore shown later hshownge hshownlt hshown
  obtain ⟨solid, hsolid, -⟩ := hshown.fixed
  exact ⟨later, hgt, by omega, h.holds hshown
    (hspares shown solid hsolid hshownge (by omega))⟩

/-- Every character of a statement is sheltered, if it starts with a visible one and neither it
nor what follows it belongs to a chosen import. -/
theorem Selects.sheltered_of_statement (h : source.Selects text chosen) {start stop low : Nat}
    (hstatement : Outline.StatementAt (source.tokens.map Token.symbol) start stop)
    (hshows : Shows text source.tokens start low)
    (hspares : ∀ position token, source.tokens[position]? = some token → start ≤ position →
      position ≤ stop → Spares chosen position)
    {position offset : Nat} {token : Token} (htoken : source.tokens[position]? = some token)
    (hlast : position < stop) (hlow : low ≤ offset) (hstop : offset < token.stop) :
    Sheltered text source.tokens (source.bytesOfImports chosen) offset := by
  by_cases hlater : ∃ shown later, start ≤ shown ∧ shown < stop ∧ offset ≤ later ∧
      Shows text source.tokens shown later
  · obtain ⟨shown, later, hge, hlt, hle, hshown⟩ := hlater
    obtain ⟨solid, hsolid, -⟩ := hshown.fixed
    have hlength := (List.getElem?_eq_some_iff.mp hsolid).1
    refine h.sheltered_of_shows hshows hshown ?_ hge hlow hle
    intro between hstart hend
    exact hspares between _ (List.getElem?_eq_getElem (by omega)) hstart (by omega)
  · obtain ⟨held, hheld, hheldoffset, hholds, hfeeds⟩ :=
      h.exists_held hstatement hshows hspares htoken hlast hlow hstop (by
        intro shown later hge hlt hshown
        by_cases hle : offset ≤ later
        · exact absurd ⟨shown, later, hge, hlt, hle, hshown⟩ hlater
        · omega)
    obtain ⟨last, hlaststop, hlaststart, hspace⟩ := exists_end_of_statement h.lexed hstatement
    obtain ⟨first, hfirst, hfirststart, -, -⟩ := hshows.fixed
    refine ⟨held, last, hheldoffset, ?_, hholds, h.clear ?_, hspace, Or.inr hfeeds⟩
    · have hle := hlaststop position token htoken hlast
      omega
    · intro number other hother hotherstop hotherstart
      exact hspares number other hother
        (Token.le_of_start_lt_stop h.lexed hfirst hother (by omega))
        (hlaststart number other hother hotherstart)

section Pieces

variable {pieces : List Outline.Piece} {piece : Outline.Piece}

/-- An interpolated name never ends where an item starts: what stands before an item is a
separator, a clause or another item. -/
theorem not_path_of_bodyItem
    (hcuts : Outline.Cuts [] (source.tokens.map Token.symbol) true source.outline pieces)
    {item : Outline.Item} (hpiece : .bodyItem item ∈ pieces)
    (hforward : item.tokens.start < item.tokens.stop) {token : Token}
    (htoken : source.tokens[item.tokens.start]? = some token) (hother : token.symbol = .other) :
    ¬ Token.Path (source.tokens.take item.tokens.start).reverse := by
  intro hpath
  have hlength := (List.getElem?_eq_some_iff.mp htoken).1
  obtain ⟨last, word, hstart, hword, hkind⟩ := exists_word_of_path hpath (by omega)
  have hsymbol : (source.tokens.map Token.symbol)[item.tokens.start]? = some .other := by
    simp [htoken, hother]
  have hbefore : (source.tokens.map Token.symbol)[last]? = some word.symbol := by simp [hword]
  have hwords : word.symbol = .identifier word.text ∨ word.symbol = .keyword word.text := by
    rcases hkind with hkind | hkind <;> simp [Token.symbol, hkind]
  obtain ⟨previous, hprevious, hnonempty, hstop⟩ := hcuts.tiles.exists_before hpiece hforward
    (show 0 < item.tokens.start by omega)
  have hvalid : previous.Valid (source.tokens.map Token.symbol) := hcuts.valid previous hprevious
  rw [show Outline.Piece.extent (.bodyItem item) = item.tokens from rfl] at hstop
  cases previous with
  | separator position =>
    obtain ⟨symbol, hat, hseparator⟩ := hvalid
    have hposition : position = last := by
      simp only [Outline.Piece.extent] at hstop
      omega
    rw [hposition, hbefore] at hat
    rw [← Option.some.inj hat] at hseparator
    rcases hwords with hwords | hwords <;>
      simp [hwords, Outline.isSeparator, Symbol.isTrivia] at hseparator
  | importStatement statement =>
    apply not_path_of_clauseAt hvalid.clause statement.tokens.stop hvalid.clause.keyword_lt_stop
      (Nat.le_refl _)
    rw [show statement.tokens.stop = item.tokens.start from hstop]
    exact hpath
  | heading tokens =>
    have hpackage := hvalid.2.2.2
    rw [show tokens.stop = item.tokens.start from hstop, hsymbol] at hpackage
    simp at hpackage
  | package tokens =>
    have hclause : Outline.ClauseAt _ "package" tokens.start tokens.stop := hvalid
    apply not_path_of_clauseAt hclause tokens.stop hclause.keyword_lt_stop (Nat.le_refl _)
    rw [show tokens.stop = item.tokens.start from hstop]
    exact hpath
  | bodyItem other =>
    obtain ⟨-, hplaced⟩ := hvalid
    cases hplaced with
    | @statement start stop hstatement =>
      have hends := hstatement.ends .other (by
        rw [show stop = item.tokens.start from hstop]
        exact hsymbol)
      simp [Outline.endsStatement] at hends
    | @declaration start brace close members symbol _ _ _ _ _ hclose =>
      have hposition : close = last := by
        have hnext : close + 1 = item.tokens.start := hstop
        omega
      rw [hposition, hbefore] at hclose
      rcases hwords with hwords | hwords <;> simp [hwords] at hclose

theorem shows_of_bodyItem (hlex : Token.lex text = .ok source.tokens)
    (hcuts : Outline.Cuts [] (source.tokens.map Token.symbol) true source.outline pieces)
    {item : Outline.Item} (hpiece : .bodyItem item ∈ pieces)
    (hforward : item.tokens.start < item.tokens.stop) {token : Token}
    (htoken : source.tokens[item.tokens.start]? = some token) (htrivia : token.isTrivia = false) :
    Shows text source.tokens item.tokens.start token.start := by
  have hfixed := Token.isFixed_of_isTrivia htrivia
  have hfits := Token.fits_token hlex htoken
  have hnonempty : token.text.toList ≠ [] := by
    intro hnil
    obtain ⟨hkind, hpath⟩ := path_of_nil hlex htoken hnil
    exact not_path_of_bodyItem hcuts hpiece hforward htoken (by simp [Token.symbol, hkind]) hpath
  apply shows_of_head hlex htoken hfixed (List.head?_eq_some_head hnonempty)
  unfold Token.Fits at hfits
  unfold Token.isTrivia at htrivia
  cases hkind : token.kind with
  | identifier | keyword | number | operator | interpolationStart =>
    simp only [hkind] at hfits
    exact hfits.2 _ (List.head_mem hnonempty)
  | comment | blank | newline => simp [hkind] at htrivia
  | interpolationEnd =>
    simp only [hkind] at hfits
    rcases hfits with hbrace | ⟨hnil, -⟩
    · simp [hbrace, isSpacing, isSpaceOrTab]
    · exact absurd hnil hnonempty
  | literal =>
    simp only [hkind] at hfits
    cases hspacing : isSpacing (token.text.toList.head hnonempty) with
    | false => rfl
    | true =>
      -- The literal would go on after an interpolated expression, where no item starts.
      have hearlier := hfits.2 (by simp [List.head?_eq_some_head hnonempty, hspacing])
      rw [List.head?_reverse] at hearlier
      cases hprevious : (source.tokens.take item.tokens.start).getLast? with
      | none => simp [hprevious] at hearlier
      | some previous =>
        rw [hprevious, Option.any_some, beq_iff_eq] at hearlier
        have hvalid : Outline.Opens (source.tokens.map Token.symbol) item.tokens.start :=
          (hcuts.valid _ hpiece).1
        have hopens := hvalid previous.symbol (by
          rw [← List.map_take, List.getLast?_map, hprevious]
          rfl)
        simp [Token.symbol, hearlier, Symbol.mayPrecede] at hopens

/-- A stretch that starts with a visible character is sheltered up to any word or sign, if no
token of it belongs to a chosen import. -/
theorem Selects.sheltered_of_solid (h : source.Selects text chosen) {start position last low : Nat}
    {token word : Token} (hshows : Shows text source.tokens start low)
    (htoken : source.tokens[position]? = some token) (hword : source.tokens[last]? = some word)
    (hother : word.symbol ≠ .other) (htrivia : word.symbol.isTrivia = false)
    (hstart : start ≤ position) (hlast : position ≤ last)
    (hspares : ∀ between, start ≤ between → between ≤ last → Spares chosen between) {offset : Nat}
    {c : Char} (hc : charAt? offset text = some c) (hlow : low ≤ offset)
    (htokenstart : token.start ≤ offset) (hstop : offset < token.stop) :
    Sheltered text source.tokens (source.bytesOfImports chosen) offset := by
  obtain ⟨later, hle, hlater⟩ :=
    exists_shows_of_solid h.lexed htoken hword hother htrivia hlast hc htokenstart hstop
  exact h.sheltered_of_shows hshows hlater hspares (by omega) hlow hle

/-- Every character of a clause is sheltered, annotations before it included. -/
theorem Selects.sheltered_of_clause (h : source.Selects text chosen) {word : String}
    {start keyword stop : Nat}
    (hclause : Outline.ClauseAt (source.tokens.map Token.symbol) word keyword stop)
    {first : Token} (hfirst : source.tokens[start]? = some first) (hother : first.symbol ≠ .other)
    (htrivia : first.symbol.isTrivia = false)
    (hspares : ∀ between, start ≤ between → between < stop → Spares chosen between)
    {position offset : Nat} {token : Token} (htoken : source.tokens[position]? = some token)
    (hstart : start ≤ position) (hlast : position < stop) {c : Char}
    (hc : charAt? offset text = some c) (htokenstart : token.start ≤ offset)
    (hstop : offset < token.stop) :
    Sheltered text source.tokens (source.bytesOfImports chosen) offset := by
  have hshows : Shows text source.tokens start first.start := by
    apply shows_of_spelled h.lexed hfirst
    · rw [Token.isTrivia_symbol] at htrivia
      exact Token.isFixed_of_isTrivia htrivia
    · exact spelled_of_symbol h.lexed hfirst hother htrivia
  obtain ⟨symbol, hsymbol, hends⟩ := hclause.last
  obtain ⟨last, hlasttoken, rfl⟩ := exists_token_of_symbol hsymbol
  obtain ⟨hlastother, hlasttrivia⟩ := Symbol.solid_of_endsClause hends
  have hle := Token.start_le_start h.lexed hfirst htoken hstart
  refine h.sheltered_of_solid hshows htoken hlasttoken hlastother hlasttrivia hstart (by omega) ?_
    hc (by omega) htokenstart hstop
  intro between hlow hhigh
  exact hspares between hlow (by omega)

/-- Every character of an item that is not removed is sheltered. -/
theorem Selects.sheltered_of_bodyItem (h : source.Selects text chosen)
    (hcuts : Outline.Cuts [] (source.tokens.map Token.symbol) true source.outline pieces)
    {item : Outline.Item} (hpiece : .bodyItem item ∈ pieces) {position offset : Nat}
    {token : Token} (htoken : source.tokens[position]? = some token)
    (hcontains : item.tokens.contains position = true) {c : Char}
    (hc : charAt? offset text = some c) (htokenstart : token.start ≤ offset)
    (hstop : offset < token.stop) :
    Sheltered text source.tokens (source.bytesOfImports chosen) offset := by
  have hspares : ∀ between, item.tokens.start ≤ between → between < item.tokens.stop →
      Spares chosen between := fun between hlow hhigh =>
    h.spares hcuts hpiece (by simp) (Extent.contains_iff.mpr ⟨hlow, hhigh⟩)
  have hshown : ∀ first : Token, source.tokens[item.tokens.start]? = some first →
      Outline.isSeparator first.symbol = false →
        Shows text source.tokens item.tokens.start first.start := by
    intro first hfirst hsolid
    have hbounds := Extent.contains_iff.mp hcontains
    rw [Outline.isSeparator, Bool.or_eq_false_iff, Token.isTrivia_symbol] at hsolid
    exact shows_of_bodyItem h.lexed hcuts hpiece (by omega) hfirst hsolid.1
  obtain ⟨hstart, hlast⟩ := Extent.contains_iff.mp hcontains
  have hplaced : Outline.Placed (source.tokens.map Token.symbol) item := (hcuts.valid _ hpiece).2
  cases hplaced with
  | @statement start stop hstatement =>
    obtain ⟨symbol, hsymbol, hsolid⟩ := hstatement.first
    obtain ⟨first, hfirst, rfl⟩ := exists_token_of_symbol hsymbol
    have hlow := Token.start_le_start h.lexed hfirst htoken hstart
    refine h.sheltered_of_statement hstatement (hshown first hfirst hsolid) ?_ htoken hlast
      (by omega) hstop
    intro between other hother hge hle
    by_cases heq : between = stop
    · subst heq
      have hends := hstatement.ends other.symbol (by simp [hother])
      apply h.spares_stop hcuts hpiece (by simp) hstatement.start_lt_stop hother
      · intro hsign
        simp [hsign, Outline.endsStatement] at hends
      · intro hword
        simp [hword, Outline.endsStatement] at hends
    · exact hspares between hge (show between < stop by omega)
  | @declaration start brace close members symbol hsymbol hsolid _ _ _ hclose =>
    obtain ⟨first, hfirst, rfl⟩ := exists_token_of_symbol hsymbol
    obtain ⟨last, hlasttoken, hbrace⟩ := exists_token_of_symbol hclose
    have hlow := Token.start_le_start h.lexed hfirst htoken hstart
    have hlast : position < close + 1 := hlast
    exact h.sheltered_of_solid (hshown first hfirst hsolid) htoken hlasttoken (by simp [hbrace])
      (by simp [hbrace, Symbol.isTrivia]) hstart (by omega)
      (fun between hge hle => hspares between hge (show between < close + 1 by omega)) hc
      (by omega) htokenstart hstop

/-- Every character of a piece that is neither a separator nor a chosen import is sheltered. -/
theorem Selects.sheltered_of_piece (h : source.Selects text chosen)
    (hcuts : Outline.Cuts [] (source.tokens.map Token.symbol) true source.outline pieces)
    (hpiece : piece ∈ pieces) (hkept : ∀ statement ∈ chosen, piece ≠ .importStatement statement)
    (hsolid : ∀ position, piece ≠ .separator position) {position offset : Nat}
    {token : Token} (htoken : source.tokens[position]? = some token)
    (hcontains : piece.extent.contains position = true) {c : Char}
    (hc : charAt? offset text = some c) (htokenstart : token.start ≤ offset)
    (hstop : offset < token.stop) :
    Sheltered text source.tokens (source.bytesOfImports chosen) offset := by
  have hspares : ∀ between, piece.extent.start ≤ between → between < piece.extent.stop →
      Spares chosen between := fun between hlow hhigh =>
    h.spares hcuts hpiece hkept (Extent.contains_iff.mpr ⟨hlow, hhigh⟩)
  obtain ⟨hstart, hlast⟩ := Extent.contains_iff.mp hcontains
  have hvalid : piece.Valid (source.tokens.map Token.symbol) := hcuts.valid piece hpiece
  cases piece with
  | separator position => exact absurd rfl (hsolid position)
  | importStatement statement =>
    obtain ⟨first, hfirst, hsymbol⟩ := exists_first_of_importAt hvalid
    refine h.sheltered_of_clause hvalid.clause hfirst ?_ ?_ hspares htoken hstart hlast hc
      htokenstart hstop
    · rcases hsymbol with hsymbol | hsymbol <;> simp [hsymbol]
    · rcases hsymbol with hsymbol | hsymbol <;> simp [hsymbol, Symbol.isTrivia]
  | heading tokens =>
    obtain ⟨hforward, -, hsign, hpackage⟩ := hvalid
    obtain ⟨first, hfirst, hfirstsign⟩ := exists_token_of_symbol hsign
    obtain ⟨word, hword, hwordsymbol⟩ := exists_token_of_symbol hpackage
    have hlow := Token.start_le_start h.lexed hfirst htoken hstart
    have hstopspares := h.spares_stop hcuts hpiece hkept hforward hword (by simp [hwordsymbol])
      (by simp [hwordsymbol])
    have hshows := shows_of_spelled h.lexed hfirst
      (Token.isFixed_of_isTrivia (by simp [← Token.isTrivia_symbol, hfirstsign, Symbol.isTrivia]))
      (spelled_of_symbol h.lexed hfirst (by simp [hfirstsign])
        (by simp [hfirstsign, Symbol.isTrivia]))
    refine h.sheltered_of_solid hshows htoken hword (by simp [hwordsymbol])
      (by simp [hwordsymbol, Symbol.isTrivia]) hstart (Nat.le_of_lt hlast) ?_ hc (by omega)
      htokenstart hstop
    intro between hge hle
    by_cases heq : between = tokens.stop
    · rw [heq]
      exact hstopspares
    · exact hspares between hge (show between < tokens.stop by omega)
  | package tokens =>
    have hclause : Outline.ClauseAt _ "package" tokens.start tokens.stop := hvalid
    obtain ⟨first, hfirst, hsymbol⟩ := exists_token_of_symbol hclause.keyword_eq
    exact h.sheltered_of_clause hclause hfirst (by simp [hsymbol])
      (by simp [hsymbol, Symbol.isTrivia]) hspares htoken hstart hlast hc htokenstart hstop
  | bodyItem item =>
    exact h.sheltered_of_bodyItem hcuts hpiece htoken hcontains hc htokenstart hstop

/-- Between the pieces, a sign and a comment of several lines are sheltered. -/
theorem Selects.sheltered_of_separator (h : source.Selects text chosen) {position offset : Nat}
    {token : Token} (htoken : source.tokens[position]? = some token)
    (hseparator : Outline.isSeparator token.symbol = true) (hspares : Spares chosen position)
    (hfixed : token.isFixed = true) {c : Char} (hc : charAt? offset text = some c)
    (htokenstart : token.start ≤ offset) (hstop : offset < token.stop) :
    Sheltered text source.tokens (source.bytesOfImports chosen) offset := by
  have hspared : ∀ between, position ≤ between → between ≤ position → Spares chosen between :=
    fun between hge hle => Nat.le_antisymm hge hle ▸ hspares
  by_cases htrivia : token.symbol.isTrivia = false
  · have hsemicolon : token.symbol = .semicolon := by
      simpa [Outline.isSeparator, htrivia] using hseparator
    have hshows := shows_of_spelled h.lexed htoken hfixed
      (spelled_of_symbol h.lexed htoken (by simp [hsemicolon]) htrivia)
    exact h.sheltered_of_solid hshows htoken htoken (by simp [hsemicolon]) htrivia
      (Nat.le_refl _) (Nat.le_refl _) hspared hc htokenstart htokenstart hstop
  · have hcomment : token.kind = .comment ∧ '\n' ∈ token.text.toList := by
      rw [Token.isTrivia_symbol] at htrivia
      unfold Token.isTrivia at htrivia
      unfold Token.isFixed at hfixed
      cases hkind : token.kind <;> simp_all
    have hfits := Token.fits_token h.lexed htoken
    unfold Token.Fits at hfits
    simp only [hcomment.1] at hfits
    have hnonempty := List.ne_nil_of_mem hcomment.2
    have hhead := hfits.1
    rw [List.head?_eq_some_head hnonempty, Option.any_some, Bool.not_eq_true'] at hhead
    have hend := hfits.2 hcomment.2
    rw [List.getLast?_eq_some_getLast hnonempty, Option.any_some, Bool.not_eq_true'] at hend
    obtain ⟨later, hle, hlater⟩ := exists_shows_of_getLast h.lexed htoken hfixed
      (List.getLast?_eq_some_getLast hnonempty) hend hc hstop
    exact h.sheltered_of_shows
      (shows_of_head h.lexed htoken hfixed (List.head?_eq_some_head hnonempty) hhead) hlater
      hspared (Nat.le_refl _) htokenstart hle

end Pieces

end Source

end UnusedImports
