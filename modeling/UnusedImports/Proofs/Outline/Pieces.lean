import UnusedImports.Outline.Basic
import UnusedImports.Proofs.Outline.Item
import UnusedImports.Proofs.Tiling

/-!
The pieces of an outline. Reading the top level cuts the symbols of a source into pieces that
tile it: separators, import statements, the package clause with the annotations before it, and
items. Each piece stands where it says and has the shape of its kind, and the outline is put
together from the pieces in their order.
-/
namespace UnusedImports

def ImportStatement.keyword (statement : ImportStatement) : Nat :=
  (statement.annotations.map Extent.stop).getD statement.tokens.start

namespace Outline

def Opens (all : List Symbol) (position : Nat) : Prop :=
  ∀ symbol, (all.take position).getLast? = some symbol → symbol.mayPrecede = true

structure ClauseAt (all : List Symbol) (word : String) (keyword stop : Nat) : Prop where
  keyword_lt_stop : keyword < stop
  opens : Opens all keyword
  keyword_eq : all[keyword]? = some (.keyword word)
  parts : ∀ position, keyword < position → position < stop →
    ∃ symbol, all[position]? = some symbol ∧ symbol.isClausePart = true
  last : ∃ symbol, all[stop - 1]? = some symbol ∧ symbol.endsClause = true

theorem ClauseAt.stop_le {all : List Symbol} {word : String} {keyword stop : Nat}
    (h : ClauseAt all word keyword stop) : stop ≤ all.length := by
  obtain ⟨symbol, hsymbol, -⟩ := h.last
  have hlast := (List.getElem?_eq_some_iff.mp hsymbol).1
  omega

structure ImportAt (all : List Symbol) (statement : ImportStatement) : Prop where
  start_le_keyword : statement.tokens.start ≤ statement.keyword
  annotations_eq : statement.annotations =
    if statement.tokens.start < statement.keyword then
      some ⟨statement.tokens.start, statement.keyword⟩ else none
  opens : Opens all statement.tokens.start
  first : statement.tokens.start < statement.keyword →
    all[statement.tokens.start]? = some .atSign
  clause : ClauseAt all "import" statement.keyword statement.tokens.stop
  unaliased : statement.clause.wildcard = true → statement.clause.aliasName = none

inductive Piece where
  | separator (position : Nat)
  | importStatement (statement : ImportStatement)
  /-- The annotations before the package clause. -/
  | heading (tokens : Extent)
  | package (tokens : Extent)
  | bodyItem (item : Item)

namespace Piece

def extent : Piece → Extent
  | separator position => ⟨position, position + 1⟩
  | importStatement statement => statement.tokens
  | heading tokens => tokens
  | package tokens => tokens
  | bodyItem item => item.tokens

def addTo (outline : Outline) : Piece → Outline
  | separator _ => outline
  | importStatement statement => outline.addImport statement
  | heading tokens => outline.addItems [.statement tokens]
  | package tokens => { outline with package := some tokens }
  | bodyItem item => outline.addItems [item]

def Valid (all : List Symbol) : Piece → Prop
  | separator position => ∃ symbol, all[position]? = some symbol ∧ isSeparator symbol = true
  | importStatement statement => ImportAt all statement
  | heading tokens => tokens.start < tokens.stop ∧ Opens all tokens.start ∧
      all[tokens.start]? = some .atSign ∧ all[tokens.stop]? = some (.keyword "package")
  | package tokens => ClauseAt all "package" tokens.start tokens.stop
  | bodyItem item => Opens all item.tokens.start ∧ Placed all item

end Piece

theorem Piece.Valid.start_lt_stop {all : List Symbol} {piece : Piece} (h : piece.Valid all) :
    piece.extent.start < piece.extent.stop := by
  cases piece with
  | separator position => exact Nat.lt_succ_self position
  | importStatement statement =>
    exact Nat.lt_of_le_of_lt h.start_le_keyword h.clause.keyword_lt_stop
  | heading tokens => exact h.1
  | package tokens => exact ClauseAt.keyword_lt_stop h
  | bodyItem item =>
    obtain ⟨-, hplaced⟩ := h
    cases hplaced with
    | statement hstatement => exact hstatement.start_lt_stop
    | @declaration start brace close members symbol _ _ hheader _ hmembers _ _ =>
      have hle := hmembers.start_le_stop
      show start < close + 1
      omega

def assemble (pieces : List Piece) : Outline :=
  pieces.foldr (fun piece outline => piece.addTo outline) empty

@[simp]
theorem assemble_cons (piece : Piece) (pieces : List Piece) :
    assemble (piece :: pieces) = piece.addTo (assemble pieces) := rfl

theorem opens_append {before after : List Symbol}
    (h : ∀ symbol, before.getLast? = some symbol → symbol.mayPrecede = true) :
    Opens (before ++ after) before.length := by
  intro symbol hsymbol
  rw [List.take_left] at hsymbol
  exact h symbol hsymbol

theorem getElem?_append_of_head {before read later : List Symbol} {symbol : Symbol}
    (h : read.head? = some symbol) : (before ++ (read ++ later))[before.length]? = some symbol := by
  rw [List.getElem?_append_right (Nat.le_refl _), Nat.sub_self, ← List.head?_eq_getElem?,
    List.head?_append, h, Option.some_or]

/-- What a clause reads after its keyword is a clause at its position in a larger list. -/
theorem ClauseAt.of_spells (word : String) {before rest later : List Symbol}
    (hopens : ∀ symbol, before.getLast? = some symbol → symbol.mayPrecede = true)
    (hspells : Spells rest later) (hlength : later.length < rest.length) :
    ClauseAt (before ++ .keyword word :: rest) word before.length
      (before.length + (1 + (rest.length - later.length))) := by
  obtain ⟨read, rfl, hparts, hlast⟩ := hspells
  have hread : (read ++ later).length - later.length = read.length := by simp
  have hnonempty : read ≠ [] := by
    rintro rfl
    simp at hlength
  rw [hread]
  refine ⟨by omega, opens_append hopens, by simp, ?_, ?_⟩
  · intro position hstart hstop
    obtain ⟨offset, rfl⟩ := Nat.exists_eq_add_of_lt hstart
    have hoffset : offset < read.length := by omega
    refine ⟨read[offset], ?_, hparts _ (List.getElem_mem hoffset)⟩
    rw [Nat.add_assoc, List.getElem?_append_right (by omega), Nat.add_sub_cancel_left,
      List.getElem?_cons_succ, List.getElem?_append_left hoffset, List.getElem?_eq_getElem]
  · refine ⟨read.getLast hnonempty, ?_, hlast _ (List.getLast?_eq_some_getLast hnonempty)⟩
    have hpositive := List.length_pos_iff.mpr hnonempty
    have hposition : before.length + (1 + read.length) - 1 =
        before.length + (read.length - 1 + 1) := by omega
    rw [hposition, List.getElem?_append_right (by omega), Nat.add_sub_cancel_left,
      List.getElem?_cons_succ, List.getElem?_append_left (by omega), List.getLast_eq_getElem,
      List.getElem?_eq_getElem]

theorem afterAnnotations_of_importKeyword {packageAllowed : Bool} {last : Option Symbol}
    {symbols rest : List Symbol}
    (h : openingOf packageAllowed last symbols = .importKeyword rest) :
    afterAnnotations symbols = .keyword "import" :: rest := by
  unfold openingOf at h
  split at h
  · rename_i word after hafter
    split at h
    · rename_i hword
      split at h
      · simp at h
      · simp only [Opening.importKeyword.injEq] at h
        rw [hafter, hword, h]
    · split at h <;> simp at h
  · simp at h

theorem afterAnnotations_of_packageKeyword {packageAllowed : Bool} {last : Option Symbol}
    {symbols rest : List Symbol}
    (h : openingOf packageAllowed last symbols = .packageKeyword rest) :
    packageAllowed = true ∧ afterAnnotations symbols = .keyword "package" :: rest := by
  unfold openingOf at h
  split at h
  · rename_i word after hafter
    split at h
    · split at h <;> simp at h
    · split at h
      · rename_i hpackage
        simp only [Opening.packageKeyword.injEq] at h
        exact ⟨hpackage.2, by rw [hafter, hpackage.1, h]⟩
      · simp at h
  · simp at h

/-- The annotations that an item starts with, before a keyword. -/
theorem exists_annotations {symbol : Symbol} {rest later : List Symbol}
    (hsolid : isSeparator symbol = false) (hnests : Nests [] (symbol :: rest))
    (h : afterAnnotations (symbol :: rest) = later) :
    ∃ annotations, symbol :: rest = annotations ++ later ∧ Nests [] annotations ∧
      (∀ last, annotations.getLast? = some last → last.mayPrecede = true) ∧
      (annotations ≠ [] → annotations.head? = some .atSign) := by
  obtain ⟨annotations, hread, hbalanced, hlast⟩ := h ▸ passes_afterAnnotations hnests
  refine ⟨annotations, hread, hbalanced, hlast, ?_⟩
  intro hnonempty
  suffices hsign : symbol = .atSign by
    obtain ⟨first, later, rfl⟩ := List.exists_cons_of_ne_nil hnonempty
    rw [← hsign, (List.cons.inj hread).1]
    rfl
  cases hskip : skipAnnotations false (symbol :: rest) with
  | none =>
    rw [← h, afterAnnotations, hskip, Option.getD_none] at hread
    exact absurd (List.self_eq_append_left.mp hread) hnonempty
  | some result =>
    refine head_of_skipAnnotations ?_ hskip
    simp only [isSeparator, Bool.or_eq_false_iff] at hsolid
    exact hsolid.1

def Ready (before symbols : List Symbol) : Prop :=
  ∀ symbol, symbols.head? = some symbol → isSeparator symbol = false →
    ∀ previous, before.getLast? = some previous → previous.mayPrecede = true

theorem Ready.of_last {before read later : List Symbol} (hread : read ≠ [])
    (hlast : ∀ symbol, read.getLast? = some symbol → symbol.mayPrecede = true) :
    Ready (before ++ read) later := by
  intro symbol _ _ previous hprevious
  rw [List.getLast?_append, List.getLast?_eq_some_getLast hread, Option.some_or] at hprevious
  exact hlast previous (hprevious ▸ List.getLast?_eq_some_getLast hread)

/-- The pieces tile some symbols that stand after others, and make up an outline. A package
clause is among them only where one is allowed. -/
structure Cuts (before symbols : List Symbol) (packageAllowed : Bool) (outline : Outline)
    (pieces : List Piece) : Prop where
  assembled : outline = assemble pieces
  tiles : Extent.Tiles before.length (before.length + symbols.length)
    (pieces.map Piece.extent)
  valid : ∀ piece ∈ pieces, piece.Valid (before ++ symbols)
  package : ∀ tokens, Piece.package tokens ∈ pieces →
    packageAllowed = true ∧ outline.package = some tokens

section Cutting

variable {before read later : List Symbol} {outline : Outline} {pieces : List Piece}

theorem Cuts.nil (before : List Symbol) (packageAllowed : Bool) :
    Cuts before [] packageAllowed empty [] where
  assembled := rfl
  tiles := rfl
  valid := by simp
  package := by simp

theorem tiles_cons {piece : Piece}
    (hextent : piece.extent = ⟨before.length, before.length + read.length⟩)
    (h : Extent.Tiles (before ++ read).length ((before ++ read).length + later.length)
      (pieces.map Piece.extent)) :
    Extent.Tiles before.length (before.length + (read ++ later).length)
      ((piece :: pieces).map Piece.extent) := by
  rw [List.map_cons, hextent]
  refine ⟨rfl, Nat.le_add_right _ _, ?_⟩
  simpa [Nat.add_assoc] using h

theorem valid_cons {piece : Piece} (hvalid : piece.Valid (before ++ (read ++ later)))
    (h : ∀ piece ∈ pieces, piece.Valid (before ++ read ++ later)) :
    ∀ other ∈ piece :: pieces, other.Valid (before ++ (read ++ later)) := by
  intro other hmem
  rcases List.mem_cons.mp hmem with rfl | hmem
  · exact hvalid
  · rw [← List.append_assoc]
    exact h other hmem

/-- A piece other than the package comes before the pieces of what follows it. -/
theorem Cuts.cons (piece : Piece) {packageAllowed allowedLater : Bool}
    (h : Cuts (before ++ read) later allowedLater outline pieces)
    (hallowed : allowedLater = true → packageAllowed = true)
    (hextent : piece.extent = ⟨before.length, before.length + read.length⟩)
    (hvalid : piece.Valid (before ++ (read ++ later)))
    (hpackage : ∀ tokens, piece ≠ .package tokens) :
    Cuts before (read ++ later) packageAllowed (piece.addTo outline) (piece :: pieces) where
  assembled := by rw [assemble_cons, h.assembled]
  tiles := tiles_cons hextent h.tiles
  valid := valid_cons hvalid h.valid
  package := by
    intro tokens hmem
    have hlater : Piece.package tokens ∈ pieces := by
      rcases List.mem_cons.mp hmem with hpiece | hmem
      · exact absurd hpiece.symm (hpackage tokens)
      · exact hmem
    obtain ⟨htrue, hsome⟩ := h.package tokens hlater
    refine ⟨hallowed htrue, ?_⟩
    cases piece with
    | package other => exact absurd rfl (hpackage other)
    | _ => exact hsome

/-- The package clause comes before pieces without another. -/
theorem Cuts.package_cons (tokens : Extent)
    (h : Cuts (before ++ read) later false outline pieces)
    (hextent : tokens = ⟨before.length, before.length + read.length⟩)
    (hclause : ClauseAt (before ++ (read ++ later)) "package" tokens.start tokens.stop) :
    Cuts before (read ++ later) true { outline with package := some tokens }
      (.package tokens :: pieces) where
  assembled := by
    rw [assemble_cons, ← h.assembled]
    rfl
  tiles := tiles_cons hextent h.tiles
  valid := valid_cons hclause h.valid
  package := by
    intro others hmem
    rcases List.mem_cons.mp hmem with hpiece | hmem
    · obtain rfl := Piece.package.inj hpiece
      exact ⟨rfl, rfl⟩
    · exact absurd (h.package others hmem).1 (by simp)

end Cutting

theorem exists_of_map_eq_ok {ε α β : Type} {f : α → β} {result : Except ε α} {b : β}
    (h : result.map f = .ok b) : ∃ a, result = .ok a ∧ f a = b := by
  cases result with
  | error fault => simp [Except.map] at h
  | ok a => exact ⟨a, rfl, by simpa [Except.map] using h⟩

/-- After annotations a clause may start where it could before them. -/
theorem mayPrecede_append {before annotations : List Symbol}
    (hbefore : ∀ symbol, before.getLast? = some symbol → symbol.mayPrecede = true)
    (hlast : ∀ symbol, annotations.getLast? = some symbol → symbol.mayPrecede = true) :
    ∀ symbol, (before ++ annotations).getLast? = some symbol → symbol.mayPrecede = true := by
  intro symbol hsymbol
  rw [List.getLast?_append] at hsymbol
  cases h : annotations.getLast? with
  | none =>
    rw [h, Option.none_or] at hsymbol
    exact hbefore symbol hsymbol
  | some final =>
    rw [h, Option.some_or] at hsymbol
    exact hlast symbol (hsymbol ▸ h)

theorem importAt_of_read {before annotations rest later : List Symbol} {clause : ImportClause}
    (hbefore : ∀ symbol, before.getLast? = some symbol → symbol.mayPrecede = true)
    (hlast : ∀ symbol, annotations.getLast? = some symbol → symbol.mayPrecede = true)
    (hsign : annotations ≠ [] → annotations.head? = some .atSign)
    (hclause : importClause (.keyword "import") rest = .ok (clause, later)) :
    ImportAt (before ++ annotations ++ .keyword "import" :: rest)
      ⟨if before.length < before.length + annotations.length then
          some ⟨before.length, before.length + annotations.length⟩ else none, clause,
        ⟨before.length,
          before.length + annotations.length + (1 + (rest.length - later.length))⟩⟩ := by
  obtain ⟨hspells, hunaliased⟩ := spells_importClause hclause
  have hkeyword : ImportStatement.keyword
      ⟨if before.length < before.length + annotations.length then
          some ⟨before.length, before.length + annotations.length⟩ else none, clause,
        ⟨before.length, before.length + annotations.length + (1 + (rest.length - later.length))⟩⟩ =
      before.length + annotations.length := by
    unfold ImportStatement.keyword
    split
    · rfl
    · simp only [Option.map_none, Option.getD_none]
      omega
  have hat := ClauseAt.of_spells "import" (mayPrecede_append hbefore hlast) hspells
    (length_importClause hclause)
  rw [List.length_append] at hat
  refine ⟨?_, ?_, ?_, ?_, ?_, hunaliased⟩
  · rw [hkeyword]
    exact Nat.le_add_right _ _
  · rw [hkeyword]
  · rw [List.append_assoc]
    exact opens_append hbefore
  · rw [hkeyword]
    intro hlt
    have hnonempty : annotations ≠ [] := by
      rintro rfl
      simp at hlt
    rw [List.append_assoc]
    exact getElem?_append_of_head (hsign hnonempty)
  · rw [hkeyword]
    exact hat

/-- What follows a clause is well nested, and a clause or an item may start there. -/
theorem ready_after_clause (before : List Symbol) {read later : List Symbol} {word : String}
    (hparts : ∀ symbol ∈ read, symbol.isClausePart = true)
    (hends : ∀ symbol, read.getLast? = some symbol → symbol.endsClause = true)
    (hnests : Nests [] (.keyword word :: (read ++ later))) :
    Nests [] later ∧ Ready (before ++ .keyword word :: read) later := by
  refine ⟨?_, Ready.of_last (by simp) ?_⟩
  · refine Nests.of_append (Nests.of_plain fun symbol hmem => ?_) (hnests.tail rfl)
    exact Symbol.isBracket_of_isClausePart (hparts symbol hmem)
  · intro symbol hsymbol
    rw [List.getLast?_cons, Option.some.injEq] at hsymbol
    cases h : read.getLast? with
    | none =>
      rw [← hsymbol, h]
      rfl
    | some final =>
      rw [← hsymbol, h]
      exact Symbol.mayPrecede_of_endsClause (hends final h)

def CutsBefore (stop : Nat) (symbols : List Symbol) (packageAllowed : Bool) (outline : Outline) :
    Prop :=
  ∀ before : List Symbol, stop = before.length + symbols.length → Nests [] symbols →
    Ready before symbols → ∃ pieces, Cuts before symbols packageAllowed outline pieces

section Steps

variable {stop : Nat} {before rest later : List Symbol} {symbol : Symbol} {packageAllowed : Bool}
  {outline : Outline}

theorem exists_cuts_separator (hseparator : isSeparator symbol = true)
    (hlater : CutsBefore stop rest packageAllowed outline)
    (hstop : stop = before.length + (rest.length + 1)) (hnests : Nests [] (symbol :: rest)) :
    ∃ pieces, Cuts before (symbol :: rest) packageAllowed outline pieces := by
  have hplain : symbol.isBracket = false := by
    cases symbol <;> simp_all [isSeparator, Symbol.isTrivia, Symbol.isBracket]
  have hmay : symbol.mayPrecede = true := by
    cases symbol <;> simp_all [isSeparator, Symbol.isTrivia, Symbol.mayPrecede]
  obtain ⟨pieces, hcuts⟩ := hlater (before ++ [symbol])
    (by simp only [List.length_append, List.length_cons, List.length_nil]; omega)
    (hnests.tail hplain) (Ready.of_last (by simp) (by simp [hmay]))
  refine ⟨.separator before.length :: pieces, ?_⟩
  exact hcuts.cons (.separator before.length) (fun h => h) rfl ⟨symbol, by simp, hseparator⟩
    (by simp)

theorem exists_cuts_import {clause : ImportClause} (hsolid : isSeparator symbol = false)
    (hafter : afterAnnotations (symbol :: rest) = .keyword "import" :: later)
    {next : List Symbol} (hclause : importClause (.keyword "import") later = .ok (clause, next))
    (hlater : CutsBefore stop next packageAllowed outline)
    (hstop : stop = before.length + (rest.length + 1)) (hnests : Nests [] (symbol :: rest))
    (hready : Ready before (symbol :: rest)) :
    ∃ pieces, Cuts before (symbol :: rest) packageAllowed
      (outline.addImport
        ⟨if stop - (rest.length + 1) < stop - (later.length + 1) then
            some ⟨stop - (rest.length + 1), stop - (later.length + 1)⟩ else none, clause,
          ⟨stop - (rest.length + 1), stop - next.length⟩⟩) pieces := by
  have hbefore := hready symbol rfl hsolid
  obtain ⟨annotations, hread, hbalanced, hlast, hsign⟩ := exists_annotations hsolid hnests hafter
  have hat := importAt_of_read hbefore hlast hsign hclause
  obtain ⟨⟨read, rfl, hparts, hends⟩, -⟩ := spells_importClause hclause
  rw [hread] at hnests ⊢
  obtain ⟨hnext, hready⟩ := ready_after_clause (before ++ annotations) hparts hends
    (Nests.of_append hbalanced hnests)
  have hlength := congrArg List.length hread
  simp only [List.length_append, List.length_cons] at hlength
  obtain ⟨pieces, hcuts⟩ := hlater _
    (by simp only [List.length_append, List.length_cons]; omega) hnext hready
  have hstart : stop - (rest.length + 1) = before.length := by omega
  have hkeyword : stop - ((read ++ next).length + 1) = before.length + annotations.length := by
    simp only [List.length_append]
    omega
  have hend : stop - next.length = before.length + annotations.length + (1 + read.length) := by
    omega
  have hrest : (read ++ next).length - next.length = read.length := by simp
  rw [hstart, hkeyword, hend]
  rw [hrest] at hat
  have hsplit : annotations ++ .keyword "import" :: (read ++ next) =
      annotations ++ .keyword "import" :: read ++ next := by simp
  rw [hsplit]
  rw [List.append_assoc] at hat hcuts
  refine ⟨_, hcuts.cons (.importStatement _) (fun h => h) ?_ (hsplit ▸ hat) (by simp)⟩
  simp only [Piece.extent, List.length_append, List.length_cons]
  congr 1
  omega

theorem exists_cuts_package (hsolid : isSeparator symbol = false)
    (hafter : afterAnnotations (symbol :: rest) = .keyword "package" :: later)
    {next : List Symbol} (hclause : packageClause? later = some next)
    (hlater : CutsBefore stop next false outline)
    (hstop : stop = before.length + (rest.length + 1)) (hnests : Nests [] (symbol :: rest))
    (hready : Ready before (symbol :: rest)) :
    ∃ pieces, Cuts before (symbol :: rest) true
      { outline.addItems
          (if stop - (rest.length + 1) < stop - (later.length + 1) then
            [.statement ⟨stop - (rest.length + 1), stop - (later.length + 1)⟩] else [])
        with package := some ⟨stop - (later.length + 1), stop - next.length⟩ } pieces := by
  have hbefore := hready symbol rfl hsolid
  obtain ⟨annotations, hread, hbalanced, hlast, hsign⟩ := exists_annotations hsolid hnests hafter
  have hat := ClauseAt.of_spells "package" (mayPrecede_append hbefore hlast)
    (spells_packageClause hclause) (length_packageClause hclause)
  obtain ⟨read, rfl, hparts, hends⟩ := spells_packageClause hclause
  rw [hread] at hnests ⊢
  obtain ⟨hnext, hready⟩ := ready_after_clause (before ++ annotations) hparts hends
    (Nests.of_append hbalanced hnests)
  have hlength := congrArg List.length hread
  simp only [List.length_append, List.length_cons] at hlength
  obtain ⟨pieces, hcuts⟩ := hlater _
    (by simp only [List.length_append, List.length_cons]; omega) hnext hready
  have hstart : stop - (rest.length + 1) = before.length := by omega
  have hkeyword : stop - ((read ++ next).length + 1) = (before ++ annotations).length := by
    simp only [List.length_append]
    omega
  have hend : stop - next.length = (before ++ annotations).length + (1 + read.length) := by
    simp only [List.length_append]
    omega
  have hrest : (read ++ next).length - next.length = read.length := by simp
  rw [hrest, ← hkeyword, hkeyword, ← hend] at hat
  rw [hstart, hkeyword]
  have hpackage := hcuts.package_cons ⟨(before ++ annotations).length, stop - next.length⟩
    (by rw [hend, List.length_cons, Nat.add_comm 1]) hat
  by_cases hnone : annotations = []
  · subst hnone
    rw [List.append_nil] at hpackage ⊢
    rw [if_neg (Nat.lt_irrefl _)]
    exact ⟨_, hpackage⟩
  · have hpositive := List.length_pos_iff.mpr hnone
    rw [if_pos (by simp only [List.length_append]; omega)]
    refine ⟨_, hpackage.cons (.heading ⟨before.length, (before ++ annotations).length⟩)
      (fun h => h) (by simp [Piece.extent]) ⟨?_, opens_append hbefore, ?_, ?_⟩ (by simp)⟩
    · simp only [List.length_append]
      omega
    · exact getElem?_append_of_head (hsign hnone)
    · simp

/-- After an item a clause or another item may start: a type declaration ends with a brace, and
what follows a statement separates it from the rest. -/
theorem Placed.ready {all read : List Symbol} {item : Item} (h : Placed all item)
    (hall : all = read ++ later) (hstop : item.tokens.stop = read.length)
    (hnests : Nests [] later) : Ready read later := by
  intro next hnext hsolid previous hprevious
  subst hall
  cases h with
  | statement hstatement =>
    rename_i start stop
    have hstop : stop = read.length := hstop
    have hat : (read ++ later)[stop]? = some next := by
      rw [hstop, List.getElem?_append_right (Nat.le_refl _), Nat.sub_self,
        ← List.head?_eq_getElem?, hnext]
    have hends := hstatement.ends next hat
    cases next with
    | newline => simp [isSeparator, Symbol.isTrivia] at hsolid
    | semicolon => simp [isSeparator] at hsolid
    | closing bracket =>
      obtain ⟨rest, rfl⟩ := List.head?_eq_some_iff.mp hnext
      exact absurd hnests Nests.head_ne_closing
    | _ => simp [endsStatement] at hends
  | declaration _ _ _ _ _ hclose hinside =>
    rename_i start brace close members symbol hfirst hsolid hheader hbrace hmembers
    have hstop : close + 1 = read.length := hstop
    rw [List.getElem?_append_left (by omega)] at hclose
    rw [List.getLast?_eq_getElem?, ← hstop, Nat.add_sub_cancel, hclose] at hprevious
    obtain rfl := Option.some.inj hprevious
    rfl

theorem exists_cuts_item (hsolid : isSeparator symbol = false)
    (hlater : CutsBefore stop (firstItem stop symbol rest).2 false outline)
    (hstop : stop = before.length + (rest.length + 1)) (hnests : Nests [] (symbol :: rest))
    (hready : Ready before (symbol :: rest)) :
    ∃ pieces, Cuts before (symbol :: rest) packageAllowed
      (outline.addItems [(firstItem stop symbol rest).1]) pieces := by
  have hbefore := hready symbol rfl hsolid
  obtain ⟨⟨read, hread, hbalanced, -⟩, hplaced, htokens⟩ :=
    placed_firstItem before hsolid hnests hstop
  have hlength := congrArg List.length hread
  simp only [List.length_append, List.length_cons] at hlength
  have hshorter := length_firstItem stop symbol rest
  generalize (firstItem stop symbol rest).1 = item at *
  generalize (firstItem stop symbol rest).2 = later at *
  rw [hread] at hnests hplaced ⊢
  have hnext := Nests.of_append hbalanced hnests
  obtain ⟨pieces, hcuts⟩ := hlater (before ++ read)
    (by simp only [List.length_append]; omega) hnext
    (hplaced.ready (List.append_assoc before read later).symm
      (by rw [htokens, List.length_append]; simp only; omega) hnext)
  refine ⟨_, hcuts.cons (.bodyItem item) (by simp) ?_ ⟨?_, hplaced⟩ (by simp)⟩
  · rw [Piece.extent, htokens]
    congr 1
    omega
  · rw [htokens]
    exact opens_append hbefore

end Steps

/-- Reading the top level cuts it into pieces. -/
theorem cutsBefore_topLevel {stop : Nat} {packageAllowed : Bool} {last : Option Symbol}
    {symbols : List Symbol} {outline : Outline}
    (h : topLevel stop packageAllowed last symbols = .ok outline) :
    CutsBefore stop symbols packageAllowed outline := by
  intro before hstop hnests hready
  fun_induction topLevel stop packageAllowed last symbols generalizing before outline with
  | case1 =>
    obtain rfl := Except.ok.inj h
    exact ⟨[], Cuts.nil before _⟩
  | case2 =>
    rename_i hseparator ih
    exact exists_cuts_separator hseparator (fun before => ih h before) hstop hnests
  | case3 => simp at h
  | case4 =>
    rename_i hsolid after hopening keyword clause next hclause ih
    obtain ⟨outline, hlater, rfl⟩ := exists_of_map_eq_ok h
    exact exists_cuts_import (by simpa using hsolid) (afterAnnotations_of_importKeyword hopening)
      hclause (fun before => ih hlater before) hstop hnests hready
  | case5 => simp at h
  | case6 =>
    rename_i hsolid after hopening keyword next hclause ih
    obtain ⟨outline, hlater, rfl⟩ := exists_of_map_eq_ok h
    obtain ⟨rfl, hafter⟩ := afterAnnotations_of_packageKeyword hopening
    exact exists_cuts_package (by simpa using hsolid) hafter hclause
      (fun before => ih hlater before) hstop hnests hready
  | case7 =>
    rename_i hsolid hopening first ih
    obtain ⟨outline, hlater, rfl⟩ := exists_of_map_eq_ok h
    exact exists_cuts_item (by simpa using hsolid) (fun before => ih hlater before) hstop hnests
      hready

/-- The symbols of a source are cut into pieces, from the first to the last. -/
theorem exists_cuts {symbols : List Symbol} {outline : Outline}
    (h : ofSymbols symbols = .ok outline) : ∃ pieces, Cuts [] symbols true outline pieces := by
  unfold ofSymbols at h
  split at h
  · simp at h
  · rename_i hfault
    exact cutsBefore_topLevel h [] (by simp) (nests_of_bracketFault hfault)
      (fun _ _ _ _ hprevious => by simp at hprevious)

section Members

variable {pieces : List Piece}

theorem mem_imports_assemble {statement : ImportStatement} :
    statement ∈ (assemble pieces).imports ↔ Piece.importStatement statement ∈ pieces := by
  induction pieces with
  | nil => simp [assemble, empty]
  | cons piece pieces ih =>
    rw [assemble_cons, List.mem_cons]
    cases piece with
    | importStatement first => simp [Piece.addTo, addImport, ih]
    | _ => simpa [Piece.addTo, addItems] using ih

theorem mem_body_assemble {item : Item} :
    item ∈ (assemble pieces).body ↔ Piece.bodyItem item ∈ pieces ∨
      ∃ tokens, item = .statement tokens ∧ Piece.heading tokens ∈ pieces := by
  induction pieces with
  | nil => simp [assemble, empty]
  | cons piece pieces ih =>
    simp only [assemble_cons, List.mem_cons]
    cases piece with
    | bodyItem first => simp [Piece.addTo, addItems, ih, or_assoc]
    | heading tokens =>
      simp only [Piece.addTo, addItems, List.cons_append, List.nil_append, List.mem_cons, ih,
        reduceCtorEq, false_or, Piece.heading.injEq]
      constructor
      · intro hcase
        rcases hcase with rfl | hitem | ⟨others, rfl, hmem⟩
        · exact Or.inr ⟨tokens, rfl, Or.inl rfl⟩
        · exact Or.inl hitem
        · exact Or.inr ⟨others, rfl, Or.inr hmem⟩
      · intro hcase
        rcases hcase with hitem | ⟨others, rfl, rfl | hmem⟩
        · exact Or.inr (Or.inl hitem)
        · exact Or.inl rfl
        · exact Or.inr (Or.inr ⟨others, rfl, hmem⟩)
    | _ => simpa [Piece.addTo, addImport] using ih

theorem mem_of_package_assemble {tokens : Extent} (h : (assemble pieces).package = some tokens) :
    Piece.package tokens ∈ pieces := by
  induction pieces with
  | nil => simp [assemble, empty] at h
  | cons piece pieces ih =>
    rw [assemble_cons] at h
    cases piece with
    | package first =>
      obtain rfl : first = tokens := by simpa [Piece.addTo] using h
      exact List.mem_cons_self
    | _ => exact List.mem_cons_of_mem _ (ih h)

theorem importAt_ofSymbols {symbols : List Symbol} {outline : Outline}
    (h : ofSymbols symbols = .ok outline) {statement : ImportStatement}
    (hmem : statement ∈ outline.imports) : ImportAt symbols statement := by
  obtain ⟨pieces, hcuts⟩ := exists_cuts h
  rw [hcuts.assembled] at hmem
  exact hcuts.valid _ (mem_imports_assemble.mp hmem)

end Members

end Outline

end UnusedImports
