import UnusedImports.Proofs.Outline.Division
import UnusedImports.Proofs.Safety

/-!
Every bare name is found once. The search of the body goes over the parts of its items, and these
leave out nothing that could be a name, so what it finds are the bare names outside the package
clause and outside the imports, in the order of the source. A further search for each import
finds the bare names in its annotations. No token is found by two of these searches.
-/
namespace UnusedImports

namespace Reference

def collect (find : Nat → Option Reference) (start stop : Nat) : List Reference :=
  (List.range' start (stop - start)).filterMap find

section Collecting

variable {find : Nat → Option Reference} {start middle stop : Nat}

theorem collect_append (hfirst : start ≤ middle) (hsecond : middle ≤ stop) :
    collect find start middle ++ collect find middle stop = collect find start stop := by
  have hrange : List.range' start (middle - start) ++ List.range' middle (stop - middle) =
      List.range' start (stop - start) := by
    have happend := @List.range'_append start (middle - start) (stop - middle) 1
    rwa [Nat.one_mul, Nat.add_sub_cancel' hfirst,
      show middle - start + (stop - middle) = stop - start by omega] at happend
  unfold collect
  rw [← List.filterMap_append, hrange]

theorem collect_eq_nil (h : ∀ position, start ≤ position → position < stop → find position = none) :
    collect find start stop = [] := by
  refine List.filterMap_eq_nil_iff.mpr fun position hmem => ?_
  obtain ⟨hstart, hstop⟩ := List.mem_range'_1.mp hmem
  exact h position hstart (by omega)

theorem collect_congr {other : Nat → Option Reference}
    (h : ∀ position, start ≤ position → position < stop → find position = other position) :
    collect find start stop = collect other start stop := by
  refine List.filterMap_congr fun position hmem => ?_
  obtain ⟨hstart, hstop⟩ := List.mem_range'_1.mp hmem
  exact h position hstart (by omega)

/-- A position at which nothing is found can be passed over. -/
theorem collect_succ (hnone : find start = none) (hlt : start < stop) :
    collect find (start + 1) stop = collect find start stop := by
  have hempty : collect find start (start + 1) = [] := by
    refine collect_eq_nil fun position hlow hhigh => ?_
    obtain rfl : position = start := by omega
    exact hnone
  rw [← collect_append (Nat.le_succ start) hlt, hempty, List.nil_append]

/-- The references of an extent are those found at its positions. -/
theorem within_eq_collect (references : List (Option Reference)) (extent : Extent) :
    within references extent =
      collect (fun position => references[position]?.join) extent.start extent.stop := by
  unfold within Extent.slice collect
  generalize extent.stop - extent.start = count
  generalize extent.start = start
  induction count generalizing start with
  | zero => simp
  | succ count ih =>
    rw [List.range'_succ, List.filterMap_cons, ← ih]
    by_cases hstart : start < references.length
    · rw [List.drop_eq_getElem_cons hstart, List.take_succ_cons, List.filterMap_cons,
        List.getElem?_eq_getElem hstart]
      rfl
    · rw [List.drop_eq_nil_of_le (by omega), List.drop_eq_nil_of_le (by omega),
        List.getElem?_eq_none (by omega)]
      simp

end Collecting

end Reference

namespace Outline

open Reference

/-- The parts of the items that tile a stretch hold all that is found there, if it is found only
at identifiers. -/
theorem Tiled.flatMap_collect {all : List Symbol} {start stop : Nat} {items : List Item}
    (h : Tiled all start stop items) {find : Nat → Option Reference}
    (hnone : ∀ position symbol, all[position]? = some symbol →
      (∀ name, symbol ≠ .identifier name) → find position = none) :
    (partsOf items).flatMap (fun part => collect find part.start part.stop) =
      collect find start stop := by
  induction h with
  | nil stop => simp [partsOf, collect]
  | separator hsymbol hseparator hrest ih =>
    rw [ih]
    refine collect_succ (hnone _ _ hsymbol ?_) hrest.start_le_stop
    rintro name rfl
    simp [Outline.isSeparator, Symbol.isTrivia] at hseparator
  | statement hstatement hrest ih =>
    rw [partsOf, Item.parts, List.flatMap_append, ih, List.flatMap_singleton]
    exact collect_append (Nat.le_of_lt hstatement.start_lt_stop) hrest.start_le_stop
  | declaration hfirst hsolid hheader hbrace hmembers hclose hinside hrest ihmembers ihrest =>
    -- The braces around the members are no identifiers.
    rename_i first brace close stop members items symbol
    have hlater := hrest.start_le_stop
    have hbody : brace ≤ close := Nat.le_of_lt hmembers.start_le_stop
    have hafter : brace ≤ stop := by omega
    rw [partsOf, Item.parts, List.flatMap_append, List.flatMap_cons, ihmembers, ihrest,
      collect_succ (hnone _ _ hbrace (by simp)) hmembers.start_le_stop, List.append_assoc,
      collect_succ (hnone _ _ hclose (by simp)) hlater, collect_append hbody (by omega)]
    exact collect_append (Nat.le_of_lt hheader) hafter

def Piece.isSearched : Piece → Bool
  | separator _ | heading _ | bodyItem _ => true
  | importStatement _ | package _ => false

/-- The parts of the body of an outline hold all that is found in the pieces that it was put
together from, apart from the imports and the package clause. -/
theorem flatMap_collect_assemble {all : List Symbol} {pieces : List Piece} {start stop : Nat}
    (htiles : Extent.Tiles start stop (pieces.map Piece.extent))
    (hvalid : ∀ piece ∈ pieces, piece.Valid all) {find : Nat → Option Reference}
    (hnone : ∀ position symbol, all[position]? = some symbol →
      (∀ name, symbol ≠ .identifier name) → find position = none)
    {inBody : Nat → Bool}
    (hbody : ∀ piece ∈ pieces, ∀ position, piece.extent.contains position = true →
      inBody position = piece.isSearched) :
    (partsOf (assemble pieces).body).flatMap (fun part => collect find part.start part.stop) =
      collect (fun position => if inBody position then find position else none) start stop := by
  induction pieces generalizing start with
  | nil =>
    obtain rfl : start = stop := htiles
    simp [assemble, empty, partsOf, collect]
  | cons piece pieces ih =>
    obtain ⟨hstart, hforward, hrest⟩ := htiles
    have hlater := ih hrest (fun other hother => hvalid other (List.mem_cons_of_mem _ hother))
      fun other hother => hbody other (List.mem_cons_of_mem _ hother)
    have hhere : collect (fun position => if inBody position then find position else none)
        piece.extent.start piece.extent.stop =
          if piece.isSearched then collect find piece.extent.start piece.extent.stop else [] := by
      have hinside : ∀ position, piece.extent.start ≤ position → position < piece.extent.stop →
          inBody position = piece.isSearched := fun position hlow hhigh =>
        hbody piece List.mem_cons_self position (Extent.contains_iff.mpr ⟨hlow, hhigh⟩)
      split
      · rename_i hsearched
        exact collect_congr fun position hlow hhigh => by
          rw [hinside position hlow hhigh, hsearched]
          rfl
      · rename_i hsearched
        exact collect_eq_nil fun position hlow hhigh => by
          rw [hinside position hlow hhigh, if_neg hsearched]
    rw [assemble_cons, ← hstart, ← collect_append hforward hrest.bounds.1, ← hlater, hhere]
    cases piece with
    | separator position =>
      obtain ⟨symbol, hsymbol, hseparator⟩ := hvalid _ List.mem_cons_self
      have hempty : collect find position (position + 1) = [] := by
        refine collect_eq_nil fun other hlow hhigh => ?_
        obtain rfl : other = position := by omega
        refine hnone _ _ hsymbol ?_
        rintro name rfl
        simp [Outline.isSeparator, Symbol.isTrivia] at hseparator
      simp [Piece.isSearched, Piece.extent, Piece.addTo, hempty]
    | importStatement statement => simp [Piece.isSearched, Piece.addTo, addImport]
    | package tokens => simp [Piece.isSearched, Piece.addTo]
    | heading tokens =>
      simp [Piece.isSearched, Piece.extent, Piece.addTo, addItems, partsOf, Item.parts]
    | bodyItem item =>
      obtain ⟨-, hplaced⟩ := hvalid _ List.mem_cons_self
      have hitem := (hplaced.cons (Tiled.nil _)).flatMap_collect hnone
      rw [partsOf, partsOf, List.append_nil] at hitem
      simp [Piece.isSearched, Piece.extent, Piece.addTo, addItems, partsOf, hitem]

end Outline

namespace Source

/-- The reference that the token at a position makes, if it is a bare name: an identifier that
does not belong to a receiver. -/
def bareName? (source : Source) (position : Nat) : Option Reference :=
  source.tokens[position]?.bind fun token =>
    if token.kind = .identifier ∧ source.hasReceiver position = false then
      some ⟨token.text, source.contextAt position token, source.locate token.extent⟩
    else none

def inBody (source : Source) (position : Nat) : Bool :=
  !source.outline.package.any (·.contains position) &&
    !source.outline.imports.any fun statement => statement.tokens.contains position

def inAnnotations (statement : ImportStatement) (position : Nat) : Bool :=
  statement.annotations.any (·.contains position)

theorem bareName?_eq_none (source : Source) {position : Nat} {symbol : Symbol}
    (hsymbol : (source.tokens.map Token.symbol)[position]? = some symbol)
    (hname : ∀ name, symbol ≠ .identifier name) : source.bareName? position = none := by
  obtain ⟨token, htoken, rfl⟩ := exists_token_of_symbol hsymbol
  unfold bareName?
  rw [htoken, Option.bind_some, if_neg]
  rintro ⟨hkind, -⟩
  exact hname token.text (by simp [Token.symbol, hkind])

/-- Exactly the bare names make references. -/
theorem join_references (source : Source) (position : Nat) :
    source.references[position]?.join = source.bareName? position := by
  cases htoken : source.tokens[position]? with
  | none =>
    have hnone : source.references[position]? = none := by
      unfold references Reference.ofTokens
      rw [List.getElem?_zipWith, htoken]
    simp [bareName?, htoken, hnone]
  | some token =>
    by_cases hbare : token.kind = .identifier ∧ source.hasReceiver position = false
    · rw [source.getElem?_references htoken hbare.1 hbare.2]
      simp [bareName?, htoken, hbare]
    · have hbefore := source.lastSignificant_take position
      rw [show source.bareName? position = none by simp [bareName?, htoken, hbare]]
      unfold references Reference.ofTokens Reference.uses
      rw [List.getElem?_zipWith, htoken, Reference.getElem?_usesFrom, List.getElem?_map, htoken,
        ← List.map_take, List.map_map]
      simp only [Option.map_some, Option.join_some, Reference.useAt]
      rw [Option.map_eq_none_iff]
      split
      · rename_i name hsymbol
        have hkind := Token.kind_of_symbol_identifier hsymbol
        rw [if_pos]
        rw [show Prod.fst ∘ (fun token : Token => (token.symbol, token.depth)) =
          Token.symbol from rfl, hbefore, Option.any_map]
        unfold hasReceiver at hbare
        simpa [hkind, Function.comp_def] using hbare
      · rfl

def bareNames (source : Source) (test : Nat → Bool) : List Reference :=
  ((List.range source.tokens.length).filter test).filterMap source.bareName?

section Reading

variable {source : Source}

theorem bareNames_eq_collect (test : Nat → Bool) :
    source.bareNames test =
      Reference.collect (fun position => if test position then source.bareName? position else none)
        0 source.tokens.length := by
  unfold bareNames Reference.collect
  rw [List.filterMap_filter, List.range_eq_range', Nat.sub_zero]

theorem mem_bareNames {test : Nat → Bool} {reference : Reference} :
    reference ∈ source.bareNames test ↔
      ∃ position, test position = true ∧ source.bareName? position = some reference := by
  unfold bareNames
  simp only [List.mem_filterMap, List.mem_filter, List.mem_range]
  constructor
  · rintro ⟨position, ⟨-, htest⟩, hname⟩
    exact ⟨position, htest, hname⟩
  · rintro ⟨position, htest, hname⟩
    refine ⟨position, ⟨?_, htest⟩, hname⟩
    obtain ⟨token, htoken, -⟩ := Option.bind_eq_some_iff.mp hname
    exact (List.getElem?_eq_some_iff.mp htoken).1

/-- What is found in an extent are the bare names in it. -/
theorem within_references {extent : Extent} (hforward : extent.start ≤ extent.stop)
    (hstop : extent.stop ≤ source.tokens.length) :
    Reference.within source.references extent = source.bareNames extent.contains := by
  have hoff : ∀ start stop, stop ≤ extent.start ∨ extent.stop ≤ start →
      Reference.collect (fun position =>
        if extent.contains position then source.bareName? position else none) start stop = [] := by
    intro start stop hapart
    refine Reference.collect_eq_nil fun position hlow hhigh => if_neg fun hcontains => ?_
    have hbounds := Extent.contains_iff.mp hcontains
    omega
  rw [Reference.within_eq_collect, bareNames_eq_collect,
    ← Reference.collect_append (Nat.zero_le extent.start) (Nat.le_trans hforward hstop),
    ← Reference.collect_append hforward hstop, hoff _ _ (Or.inl (Nat.le_refl _)),
    hoff _ _ (Or.inr (Nat.le_refl _)), List.nil_append, List.append_nil]
  refine Reference.collect_congr fun position hlow hhigh => ?_
  rw [join_references, if_pos (Extent.contains_iff.mpr ⟨hlow, hhigh⟩)]

/-- A position lies in the body exactly if its piece is searched. -/
theorem inBody_of_piece {pieces : List Outline.Piece} {piece : Outline.Piece}
    (hcuts : Outline.Cuts [] (source.tokens.map Token.symbol) true source.outline pieces)
    (hpiece : piece ∈ pieces) {position : Nat}
    (hcontains : piece.extent.contains position = true) :
    source.inBody position = piece.isSearched := by
  have hsame : ∀ other ∈ pieces, other.extent.contains position = true → other = piece :=
    fun other hother hcontains' => hcuts.tiles.eq_of_contains hother hpiece hcontains' hcontains
  have hpackage : source.outline.package.any (·.contains position) = true ↔
      ∃ tokens, piece = .package tokens := by
    constructor
    · intro hany
      cases htokens : source.outline.package with
      | none => simp [htokens] at hany
      | some tokens =>
        rw [htokens, Option.any_some] at hany
        rw [hcuts.assembled] at htokens
        exact ⟨tokens, (hsame _ (Outline.mem_of_package_assemble htokens) hany).symm⟩
    · rintro ⟨tokens, rfl⟩
      rw [(hcuts.package tokens hpiece).2]
      exact hcontains
  have himport : (source.outline.imports.any fun statement =>
      statement.tokens.contains position) = true ↔
        ∃ statement, piece = .importStatement statement := by
    rw [List.any_eq_true, hcuts.assembled]
    constructor
    · rintro ⟨statement, hmem, hinside⟩
      exact ⟨statement, (hsame _ (Outline.mem_imports_assemble.mp hmem) hinside).symm⟩
    · rintro ⟨statement, rfl⟩
      exact ⟨statement, Outline.mem_imports_assemble.mpr hpiece, hcontains⟩
  unfold inBody
  rw [Bool.eq_iff_iff, Bool.and_eq_true, Bool.not_eq_true', Bool.not_eq_true', Bool.eq_false_iff,
    Bool.eq_false_iff, ne_eq, ne_eq, hpackage, himport]
  cases piece <;> simp [Outline.Piece.isSearched]

/-- The search of the body finds the bare names in it. -/
theorem bodyReferences_eq
    (houtline : Outline.ofSymbols (source.tokens.map Token.symbol) = .ok source.outline) :
    source.bodyReferences = source.bareNames source.inBody := by
  obtain ⟨pieces, hcuts⟩ := Outline.exists_cuts houtline
  have hparts := Outline.flatMap_collect_assemble hcuts.tiles hcuts.valid
    (fun position symbol => source.bareName?_eq_none) fun piece hpiece position =>
      inBody_of_piece hcuts hpiece
  have hwithin : Reference.within source.references =
      fun part => Reference.collect source.bareName? part.start part.stop := by
    funext part
    simp only [Reference.within_eq_collect, join_references]
  rw [bareNames_eq_collect, bodyReferences, hwithin]
  rw [← hcuts.assembled] at hparts
  simpa using hparts

theorem annotations_within {statement : ImportStatement}
    (h : Outline.ImportAt (source.tokens.map Token.symbol) statement) {extent : Extent}
    (hextent : statement.annotations = some extent) :
    extent.start ≤ extent.stop ∧ extent.stop ≤ source.tokens.length ∧
      ∀ position, extent.contains position = true → statement.tokens.contains position = true := by
  have hlength := h.clause.stop_le
  have hkeyword := h.clause.keyword_lt_stop
  have hstart := h.start_le_keyword
  have hannotations := h.annotations_eq
  rw [hextent] at hannotations
  split at hannotations
  · obtain rfl := Option.some.inj hannotations
    rw [List.length_map] at hlength
    refine ⟨hstart, by simp only; omega, ?_⟩
    intro position hcontains
    obtain ⟨hlow, hhigh⟩ := Extent.contains_iff.mp hcontains
    exact Extent.contains_iff.mpr ⟨hlow, by simp only at hhigh; omega⟩
  · simp at hannotations

/-- The search of the annotations of the imports finds the bare names in them. -/
theorem annotationReferences_eq
    (houtline : Outline.ofSymbols (source.tokens.map Token.symbol) = .ok source.outline) :
    source.annotationReferences =
      source.outline.imports.map fun statement => source.bareNames (inAnnotations statement) := by
  obtain ⟨pieces, hcuts⟩ := Outline.exists_cuts houtline
  unfold annotationReferences
  refine List.map_congr_left fun statement hmem => ?_
  rw [hcuts.assembled] at hmem
  have hat := hcuts.valid _ (Outline.mem_imports_assemble.mp hmem)
  unfold inAnnotations
  cases hannotations : statement.annotations with
  | none => simp [bareNames]
  | some extent =>
    obtain ⟨hforward, hstop, -⟩ := annotations_within hat hannotations
    exact within_references hforward hstop

theorem start_lt_start_of_bareName {text : List Char} (hlex : Token.lex text = .ok source.tokens)
    {first second : Nat} {reference other : Reference} (hlt : first < second)
    (hfirst : source.bareName? first = some reference)
    (hsecond : source.bareName? second = some other) :
    reference.span.start < other.span.start := by
  have hplace : ∀ {position : Nat} {reference : Reference},
      source.bareName? position = some reference →
        ∃ token, source.tokens[position]? = some token ∧ token.kind = .identifier ∧
          reference.span.start = token.start := by
    intro position reference hname
    obtain ⟨token, htoken, hsome⟩ := Option.bind_eq_some_iff.mp hname
    split at hsome
    · rename_i hbare
      obtain rfl := Option.some.inj hsome
      exact ⟨token, htoken, hbare.1, rfl⟩
    · simp at hsome
  obtain ⟨token, htoken, hkind, hstart⟩ := hplace hfirst
  obtain ⟨later, hlater, -, hlaterStart⟩ := hplace hsecond
  have hle := Token.stop_le_start hlex htoken hlater hlt
  have hforward := Token.start_le_stop token
  have hne : token.start ≠ token.stop := by
    intro hempty
    simp [Token.kind_of_start_eq_stop hlex (List.mem_of_getElem? htoken) hempty] at hkind
  omega

theorem pairwise_bareNames {text : List Char} (hlex : Token.lex text = .ok source.tokens)
    (test : Nat → Bool) :
    (source.bareNames test).Pairwise fun first second => first.span.start < second.span.start := by
  unfold bareNames
  rw [List.pairwise_filterMap]
  refine (List.pairwise_lt_range.filter test).imp ?_
  intro first second hlt reference hfirst other hsecond
  exact start_lt_start_of_bareName hlex hlt hfirst hsecond

/-- Bare names at different positions start at different places. -/
theorem bareNames_apart {text : List Char} (hlex : Token.lex text = .ok source.tokens)
    {test other : Nat → Bool} (hapart : ∀ position, test position = true → other position = false) :
    ∀ reference ∈ source.bareNames test, ∀ again ∈ source.bareNames other,
      reference.span.start ≠ again.span.start := by
  intro reference hreference again hagain
  obtain ⟨first, hfirst, hname⟩ := mem_bareNames.mp hreference
  obtain ⟨second, hsecond, hother⟩ := mem_bareNames.mp hagain
  rcases Nat.lt_trichotomy first second with hlt | rfl | hgt
  · exact Nat.ne_of_lt (start_lt_start_of_bareName hlex hlt hname hother)
  · simp [hapart first hfirst] at hsecond
  · exact Nat.ne_of_gt (start_lt_start_of_bareName hlex hgt hother hname)

end Reading

/-- The search of the body finds exactly the bare names outside the package clause and outside
the imports, and the search of the annotations of an import finds exactly the bare names in them,
each with its text and its place. Every search finds them in the order of the source, each once,
and no token is found by two searches. -/
theorem bareNames_of_read {text : List Char} {source : Source} (h : read text = .ok source) :
    source.bodyReferences = source.bareNames source.inBody ∧
    source.annotationReferences =
      (source.outline.imports.map fun statement => source.bareNames (inAnnotations statement)) ∧
    (∀ search ∈ source.bodyReferences :: source.annotationReferences,
      search.Pairwise fun first second => first.span.start < second.span.start) ∧
    (source.bodyReferences :: source.annotationReferences).Pairwise fun search other =>
      ∀ reference ∈ search, ∀ again ∈ other, reference.span.start ≠ again.span.start := by
  obtain ⟨-, -, hlex, houtline⟩ := of_read h
  obtain ⟨pieces, hcuts⟩ := Outline.exists_cuts houtline
  have hbody := bodyReferences_eq houtline
  have hannotations := annotationReferences_eq houtline
  -- The annotations of an import lie in it, and no position lies in two imports.
  have hinside : ∀ statement ∈ source.outline.imports, ∀ position,
      inAnnotations statement position = true → statement.tokens.contains position = true := by
    intro statement hmem position hannotated
    rw [hcuts.assembled] at hmem
    have hat := hcuts.valid _ (Outline.mem_imports_assemble.mp hmem)
    unfold inAnnotations at hannotated
    cases hextent : statement.annotations with
    | none => simp [hextent] at hannotated
    | some extent =>
      rw [hextent, Option.any_some] at hannotated
      exact (annotations_within hat hextent).2.2 position hannotated
  refine ⟨hbody, hannotations, ?_, ?_⟩
  · rw [hbody, hannotations]
    simp only [List.forall_mem_cons, List.forall_mem_map]
    exact ⟨pairwise_bareNames hlex _, fun statement _ => pairwise_bareNames hlex _⟩
  · rw [hbody, hannotations, List.pairwise_cons, List.pairwise_map]
    constructor
    · refine List.forall_mem_map.mpr fun statement hmem => bareNames_apart hlex ?_
      intro position hin
      rw [Bool.eq_false_iff]
      intro hannotated
      have hany : (source.outline.imports.any fun statement =>
          statement.tokens.contains position) = true :=
        List.any_eq_true.mpr ⟨statement, hmem, hinside statement hmem position hannotated⟩
      simp [inBody, hany] at hin
    · refine hcuts.pairwise_imports.imp_of_mem fun hfirst hsecond hle => bareNames_apart hlex ?_
      intro position hannotated
      rw [Bool.eq_false_iff]
      intro hagain
      have hlow := Extent.contains_iff.mp (hinside _ hfirst position hannotated)
      have hhigh := Extent.contains_iff.mp (hinside _ hsecond position hagain)
      omega

/-- The member `y` belongs to its receiver, and the annotation of the import is searched apart
from the body. -/
theorem bareNames_of_read_annotated :
    ∃ source, read "package p\n@G(Q.R) import a.B\nclass C \x7b B b = x.y(B) \x7d\n".toList =
        .ok source ∧
      source.bodyReferences.map Reference.name = ["C", "B", "b", "x", "B"] ∧
      source.annotationReferences.map (List.map Reference.name) = [["G", "Q"]] ∧
      source.bodyReferences = source.bareNames source.inBody ∧
      ∀ reference ∈ source.bodyReferences, ∀ search ∈ source.annotationReferences,
        ∀ again ∈ search, reference.span.start ≠ again.span.start := by
  have hrun : ((read
      "package p\n@G(Q.R) import a.B\nclass C \x7b B b = x.y(B) \x7d\n".toList).toOption.any
        fun source =>
          source.bodyReferences.map Reference.name == ["C", "B", "b", "x", "B"] &&
          source.annotationReferences.map (List.map Reference.name) == [["G", "Q"]]) = true := by
    decide +kernel
  generalize "package p\n@G(Q.R) import a.B\nclass C \x7b B b = x.y(B) \x7d\n".toList =
    text at hrun ⊢
  cases hread : read text with
  | error failure => simp [hread, Except.toOption] at hrun
  | ok source =>
    simp only [hread, Except.toOption, Option.any_some, Bool.and_eq_true, beq_iff_eq] at hrun
    obtain ⟨hbody, -, -, hapart⟩ := bareNames_of_read hread
    refine ⟨source, rfl, hrun.1, hrun.2, hbody, ?_⟩
    intro reference hreference search hsearch
    exact (List.pairwise_cons.mp hapart).1 search hsearch reference hreference

end Source

end UnusedImports
