import UnusedImports.Proofs.Outline.Reading

/-!
Which imports are collected. A keyword of an import that starts a statement outside brackets is
read as one, unless something that began earlier runs on over it: the header of a type
declaration, or annotations. All other statements break off before it, and what stands in the body
of a declaration stands in its braces. Each import that is collected has its keyword outside
brackets and after no member access operator.
-/
namespace UnusedImports

/-- In a clause a statement can break off only at a semicolon. -/
theorem Symbol.eq_semicolon_of_breaks {symbol : Symbol} (hbreaks : symbol.breaks = true)
    (hpart : symbol.isClausePart = true) : symbol = .semicolon := by
  cases symbol <;> simp_all [breaks, isClausePart]

namespace Outline

/-- A keyword of an import stands outside brackets and starts a statement: the last symbol before
it, other than white space and comments, is a line end or a semicolon, and the last one that is not
trivia is no member access operator. -/
structure StartsImport (all : List Symbol) (position : Nat) : Prop where
  keyword : all[position]? = some (.keyword "import")
  outside : level (all.take position) = 0
  first : ∀ symbol, (all.take position).reverse.find? (· != .gap) = some symbol →
    symbol.breaks = true
  receiver : (lastSignificant none (all.take position)).any Symbol.isMemberAccess = false

/-- Something that began earlier runs on over a position: the header of a type declaration, the
annotations of an import, or those before the package clause. -/
inductive Absorbs (outline : Outline) (position : Nat) : Prop
  | header {tokens header : Extent} {members : List Item}
      (hitem : .declaration tokens header members ∈ outline.body)
      (hcontains : header.contains position = true)
  | annotations {statement : ImportStatement} {extent : Extent}
      (hstatement : statement ∈ outline.imports)
      (hannotations : statement.annotations = some extent)
      (hcontains : extent.contains position = true)
  | heading {package tokens : Extent} (hpackage : outline.package = some package)
      (hitem : .statement tokens ∈ outline.body) (hstop : tokens.stop = package.start)
      (hcontains : tokens.contains position = true)

def Collects (outline : Outline) (position : Nat) : Prop :=
  ∃ statement ∈ outline.imports, statement.keyword = position

section Starting

variable {before read later rest : List Symbol} {symbol : Symbol} {position offset : Nat}

theorem StartsImport.lt {all : List Symbol} (h : StartsImport all position) :
    position < all.length := (List.getElem?_eq_some_iff.mp h.keyword).1

/-- Behind any symbol that is no white space, a statement breaks off before the keyword. -/
theorem StartsImport.exists_break
    (h : StartsImport (before ++ symbol :: rest) (before.length + offset)) (hoffset : 0 < offset)
    (hgap : symbol ≠ .gap) :
    ∃ first broken gaps, (symbol :: rest).take offset = first ++ broken :: gaps ∧
      broken.breaks = true ∧ level (before ++ first) = 0 := by
  have htake : (before ++ symbol :: rest).take (before.length + offset) =
      before ++ (symbol :: rest).take offset := List.take_length_add_append offset
  obtain ⟨broken, hbroken⟩ : ∃ broken,
      ((symbol :: rest).take offset).reverse.find? (· != .gap) = some broken := by
    refine Option.isSome_iff_exists.mp (List.find?_isSome.mpr ⟨symbol, ?_, by simpa using hgap⟩)
    obtain ⟨count, rfl⟩ := Nat.exists_eq_add_of_lt hoffset
    simp
  have hbreaks : broken.breaks = true := by
    apply h.first
    rw [htake, List.reverse_append, List.find?_append, hbroken, Option.some_or]
  obtain ⟨-, gaps, first, hsplit, hgaps⟩ := List.find?_eq_some_iff_append.mp hbroken
  have hread : (symbol :: rest).take offset = first.reverse ++ broken :: gaps.reverse := by
    rw [← List.reverse_reverse ((symbol :: rest).take offset), hsplit]
    simp
  have hplain : ∀ part ∈ broken :: gaps.reverse, part.isBracket = false := by
    intro part hmem
    rcases List.mem_cons.mp hmem with rfl | hmem
    · cases part <;> simp_all [Symbol.breaks, Symbol.isBracket]
    · obtain rfl : part = .gap := by simpa using hgaps part (List.mem_reverse.mp hmem)
      rfl
  refine ⟨first.reverse, broken, gaps.reverse, hread, hbreaks, ?_⟩
  rw [← level_append_of_plain _ hplain, List.append_assoc, ← hread, ← htake]
  exact h.outside

/-- No import starts within a clause. -/
theorem StartsImport.clause_le {word : String}
    (h : StartsImport (before ++ .keyword word :: (read ++ later)) (before.length + offset))
    (hparts : ∀ part ∈ read, part.isClausePart = true)
    (honce : ∀ first second, read = first ++ .semicolon :: second → second = [])
    (hoffset : 0 < offset) : read.length < offset := by
  refine Nat.lt_of_not_le fun hle => ?_
  obtain ⟨first, broken, gaps, hbreak, hbreaks, -⟩ := h.exists_break hoffset (by simp)
  obtain ⟨count, rfl⟩ : ∃ count, offset = count + 1 := ⟨offset - 1, by omega⟩
  rw [List.take_succ_cons, List.take_append_of_le_length (by omega)] at hbreak
  cases first with
  | nil =>
    obtain ⟨rfl, -⟩ := List.cons.inj hbreak
    simp [Symbol.breaks] at hbreaks
  | cons head first =>
    have hread : read = first ++ broken :: (gaps ++ read.drop count) := by
      conv => lhs; rw [← List.take_append_drop count read, (List.cons.inj hbreak).2]
      simp
    obtain rfl := Symbol.eq_semicolon_of_breaks hbreaks (hparts broken (by rw [hread]; simp))
    have hnil := (List.append_eq_nil_iff.mp (honce _ _ hread)).2
    have hlength := List.drop_eq_nil_iff.mp hnil
    omega

theorem StartsImport.statement_le
    (h : StartsImport (before ++ symbol :: rest) (before.length + offset))
    (hbefore : Nests [] before) (hsolid : isSeparator symbol = false)
    (hread : symbol :: rest = read ++ later) (hunbroken : Unbroken read) (hoffset : 0 < offset) :
    read.length ≤ offset := by
  refine Nat.le_of_not_lt fun hlt => ?_
  have hgap : symbol ≠ .gap := by
    rintro rfl
    simp [isSeparator, Symbol.isTrivia] at hsolid
  obtain ⟨first, broken, gaps, hbreak, hbreaks, hlevel⟩ := h.exists_break hoffset hgap
  rw [hread, List.take_append_of_le_length (by omega)] at hbreak
  have hsplit : read = first ++ broken :: (gaps ++ read.drop offset) := by
    conv => lhs; rw [← List.take_append_drop offset read, hbreak]
    simp
  have hpositive := hunbroken first broken _ hsplit hbreaks
  rw [level_append hbefore] at hlevel
  omega

/-- A keyword that starts a statement opens an import, and not an item. -/
theorem StartsImport.opening_ne_body {packageAllowed : Bool}
    (h : StartsImport (before ++ symbol :: rest) before.length) :
    openingOf packageAllowed (lastSignificant none before) (symbol :: rest) ≠ .body := by
  obtain rfl : symbol = .keyword "import" := by simpa using h.keyword
  have hreceiver := h.receiver
  rw [List.take_left] at hreceiver
  have hafter : afterAnnotations (.keyword "import" :: rest) = .keyword "import" :: rest := by
    unfold afterAnnotations
    cases hskip : skipAnnotations false (.keyword "import" :: rest) with
    | none => rfl
    | some later => exact absurd (head_of_skipAnnotations rfl hskip) (by simp)
  have hpassed : lastSignificant (lastSignificant none before)
      (passed (.keyword "import" :: rest) (.keyword "import" :: rest)) =
      lastSignificant none before := by
    simp [passed, lastSignificant]
  rw [openingOf, hafter]
  simp [hpassed, hreceiver]

/-- In a type declaration, an import can only start in the header: in the body it would stand in
the braces. -/
theorem StartsImport.header_contains {all : List Symbol} (h : StartsImport all position)
    (hall : Nests [] all) {tokens header : Extent} {members : List Item}
    (hplaced : Placed all (.declaration tokens header members))
    (hcontains : tokens.contains position = true) : header.contains position = true := by
  obtain ⟨hstart, hstop⟩ := Extent.contains_iff.mp hcontains
  cases hplaced with
  | @declaration start brace close _ _ _ _ _ hbrace _ _ hinside =>
    refine Extent.contains_iff.mpr ⟨hstart, Nat.lt_of_not_le fun hle => ?_⟩
    rcases Nat.eq_or_lt_of_le hle with heq | hlt
    · have hkeyword := h.keyword
      simp only at heq
      rw [← heq, hbrace] at hkeyword
      simp at hkeyword
    · have hpositive := level_take_pos hall hbrace hinside hlt (Nat.le_of_lt_succ hstop)
      have houtside := h.outside
      omega

end Starting

section Collecting

variable {before symbols : List Symbol} {packageAllowed : Bool} {outline : Outline}
  {position : Nat}

theorem keyword_of_annotations {statement : ImportStatement} {start : Nat}
    {annotations : List Symbol}
    (hannotations : statement.annotations = if annotations = [] then none else
      some ⟨start, start + annotations.length⟩) (hstart : statement.tokens.start = start) :
    statement.keyword = start + annotations.length := by
  unfold ImportStatement.keyword
  rw [hannotations]
  split
  · rename_i hnil
    simp [hnil, hstart]
  · rfl

theorem Reading.package_eq_none (h : Reading before false symbols outline) :
    outline.package = none := by
  generalize hallowed : false = packageAllowed at h
  induction h with
  | nil => rfl
  | separator _ _ ih => exact ih hallowed
  | importStatement _ _ _ _ _ _ ih => exact ih hallowed
  | package => simp at hallowed
  | item _ _ _ _ _ _ _ _ ih => exact ih rfl

/-- What is absorbed stays so when more is read before it. -/
theorem Absorbs.mono {other : Outline} (h : outline.Absorbs position)
    (himports : ∀ statement ∈ outline.imports, statement ∈ other.imports)
    (hbody : ∀ item ∈ outline.body, item ∈ other.body)
    (hpackage : outline.package = none ∨ other.package = outline.package) :
    other.Absorbs position := by
  cases h with
  | header hitem hcontains => exact .header (hbody _ hitem) hcontains
  | annotations hstatement hannotations hcontains =>
    exact .annotations (himports _ hstatement) hannotations hcontains
  | heading hsome hitem hstop hcontains =>
    rcases hpackage with hnone | hsame
    · simp [hnone] at hsome
    · exact .heading (hsame.trans hsome) (hbody _ hitem) hstop hcontains

def Settles (outline : Outline) (position : Nat) : Prop :=
  outline.Collects position ∨ outline.Absorbs position

theorem Settles.mono {other : Outline} (h : outline.Settles position)
    (himports : ∀ statement ∈ outline.imports, statement ∈ other.imports)
    (hbody : ∀ item ∈ outline.body, item ∈ other.body)
    (hpackage : outline.package = none ∨ other.package = outline.package) :
    other.Settles position := by
  rcases h with ⟨statement, hmem, hkeyword⟩ | habsorbs
  · exact Or.inl ⟨statement, himports _ hmem, hkeyword⟩
  · exact Or.inr (habsorbs.mono himports hbody hpackage)

/-- What is read of a clause is parts of a clause, and only the last may be a semicolon. -/
theorem parts_of_clause {read later : List Symbol} (hspells : Spells (read ++ later) later)
    (honce : EndsOnce (read ++ later) later) :
    (∀ part ∈ read, part.isClausePart = true) ∧
      ∀ first second, read = first ++ .semicolon :: second → second = [] := by
  obtain ⟨parts, hparts, hspelled, -⟩ := hspells
  obtain rfl := List.append_cancel_right hparts
  obtain ⟨ended, hended, honce⟩ := honce
  obtain rfl := List.append_cancel_right hended
  exact ⟨hspelled, honce⟩

theorem nests_importClause {annotations read later : List Symbol} {clause : ImportClause}
    (hannotations : Nests [] annotations)
    (hclause : importClause (.keyword "import") (read ++ later) = .ok (clause, later)) :
    Nests [] (annotations ++ .keyword "import" :: read) :=
  nests_clause "import" hannotations
    (parts_of_clause (spells_importClause hclause).1 (endsOnce_importClause hclause)).1

theorem nests_packageClause {annotations read later : List Symbol}
    (hannotations : Nests [] annotations) (hclause : packageClause? (read ++ later) = some later) :
    Nests [] (annotations ++ .keyword "package" :: read) :=
  nests_clause "package" hannotations
    (parts_of_clause (spells_packageClause hclause) (endsOnce_packageClause hclause)).1

/-- An import starts in the annotations before a clause, at its keyword or behind it. -/
theorem StartsImport.cases_clause {word : String} {annotations read later : List Symbol}
    (h : StartsImport (before ++ (annotations ++ .keyword word :: (read ++ later))) position)
    (hparts : ∀ part ∈ read, part.isClausePart = true)
    (honce : ∀ first second, read = first ++ .semicolon :: second → second = []) :
    position < before.length + annotations.length ∨
      position = before.length + annotations.length ∨
      (before ++ (annotations ++ .keyword word :: read)).length ≤ position := by
  rcases Nat.lt_trichotomy position (before.length + annotations.length) with hlt | heq | hgt
  · exact Or.inl hlt
  · exact Or.inr (Or.inl heq)
  · obtain ⟨offset, rfl⟩ := Nat.exists_eq_add_of_lt hgt
    rw [← List.append_assoc, Nat.add_assoc, ← List.length_append] at h
    have hlong := h.clause_le hparts honce (Nat.succ_pos offset)
    simp only [List.length_append, List.length_cons]
    omega

theorem settles_import {annotations read later : List Symbol} {statement : ImportStatement}
    (hannotations : statement.annotations = if annotations = [] then none else
      some ⟨before.length, before.length + annotations.length⟩)
    (htokens : statement.tokens =
      ⟨before.length, before.length + annotations.length + (1 + read.length)⟩)
    (hclause : importClause (.keyword "import") (read ++ later) = .ok (statement.clause, later))
    (hstarts : StartsImport (before ++ (annotations ++ .keyword "import" :: (read ++ later)))
      position) (hposition : before.length ≤ position)
    (hlater : (before ++ (annotations ++ .keyword "import" :: read)).length ≤ position →
      outline.Settles position) :
    (outline.addImport statement).Settles position := by
  obtain ⟨hparts, honce⟩ :=
    parts_of_clause (spells_importClause hclause).1 (endsOnce_importClause hclause)
  have hfirst : statement ∈ (outline.addImport statement).imports := List.mem_cons_self
  rcases hstarts.cases_clause hparts honce with hlt | heq | hle
  · refine Or.inr (.annotations hfirst
      (hannotations.trans (if_neg ?_)) (Extent.contains_iff.mpr ⟨hposition, hlt⟩))
    rintro rfl
    simp only [List.length_nil, Nat.add_zero] at hlt
    omega
  · refine Or.inl ⟨statement, hfirst, ?_⟩
    rw [heq]
    exact keyword_of_annotations hannotations (by rw [htokens])
  · exact (hlater hle).mono (fun _ hmem => List.mem_cons_of_mem _ hmem) (fun _ hmem => hmem)
      (Or.inr rfl)

theorem settles_package {annotations read later : List Symbol}
    (hclause : packageClause? (read ++ later) = some later)
    (hstarts : StartsImport (before ++ (annotations ++ .keyword "package" :: (read ++ later)))
      position) (hposition : before.length ≤ position) (hnone : outline.package = none)
    (hlater : (before ++ (annotations ++ .keyword "package" :: read)).length ≤ position →
      outline.Settles position) :
    Settles { outline.addItems (if annotations = [] then [] else
        [.statement ⟨before.length, before.length + annotations.length⟩])
      with package := some ⟨before.length + annotations.length,
        before.length + annotations.length + (1 + read.length)⟩ } position := by
  obtain ⟨hparts, honce⟩ :=
    parts_of_clause (spells_packageClause hclause) (endsOnce_packageClause hclause)
  rcases hstarts.cases_clause hparts honce with hlt | heq | hle
  · have hne : annotations ≠ [] := by
      rintro rfl
      simp only [List.length_nil, Nat.add_zero] at hlt
      omega
    have hcontains : Extent.contains ⟨before.length, before.length + annotations.length⟩ position =
        true := Extent.contains_iff.mpr ⟨hposition, hlt⟩
    exact Or.inr (.heading rfl (by simp [addItems, hne]) rfl hcontains)
  · have hkeyword := hstarts.keyword
    rw [heq, ← List.append_assoc, ← List.length_append, getElem?_append_length] at hkeyword
    simp at hkeyword
  · exact (hlater hle).mono (fun _ hmem => hmem) (fun _ hmem => List.mem_append_right _ hmem)
      (Or.inl hnone)

theorem settles_item {read rest later : List Symbol} {symbol : Symbol} {item : Item}
    (hbefore : Nests [] before) (hsymbols : Nests [] (symbol :: rest))
    (hsolid : isSeparator symbol = false)
    (hbody : openingOf packageAllowed (lastSignificant none before) (symbol :: rest) = .body)
    (hread : symbol :: rest = read ++ later)
    (hplaced : Placed (before ++ symbol :: rest) item)
    (htokens : item.tokens = ⟨before.length, before.length + read.length⟩)
    (hunbroken : ∀ tokens, item = .statement tokens → Unbroken read)
    (hstarts : StartsImport (before ++ symbol :: rest) position)
    (hposition : before.length ≤ position)
    (hlater : (before ++ read).length ≤ position → outline.Settles position) :
    (outline.addItems [item]).Settles position := by
  have hbehind : (before ++ read).length ≤ position →
      (outline.addItems [item]).Settles position := fun hle =>
    (hlater hle).mono (fun _ hmem => hmem) (fun _ hmem => List.mem_cons_of_mem _ hmem) (Or.inr rfl)
  cases item with
  | statement tokens =>
    obtain ⟨offset, rfl⟩ := Nat.exists_eq_add_of_le hposition
    rcases Nat.eq_zero_or_pos offset with rfl | hoffset
    · exact absurd hbody hstarts.opening_ne_body
    · apply hbehind
      have hlong := hstarts.statement_le hbefore hsolid hread (hunbroken tokens rfl) hoffset
      rw [List.length_append]
      omega
  | declaration tokens header members =>
    by_cases hinside : position < before.length + read.length
    · have hcontains : tokens.contains position = true := by
        rw [show tokens = _ from htokens]
        exact Extent.contains_iff.mpr ⟨hposition, hinside⟩
      exact Or.inr (.header List.mem_cons_self
        (hstarts.header_contains (hbefore.append hsymbols) hplaced hcontains))
    · apply hbehind
      rw [List.length_append]
      omega

/-- Every keyword that starts a statement among the symbols is settled. -/
theorem Reading.settles (h : Reading before packageAllowed symbols outline)
    (hbefore : Nests [] before) (hsymbols : Nests [] symbols)
    (hstarts : StartsImport (before ++ symbols) position) (hposition : before.length ≤ position) :
    outline.Settles position := by
  induction h with
  | nil before packageAllowed =>
    have hlt := hstarts.lt
    rw [List.append_nil] at hlt
    omega
  | @separator before rest symbol packageAllowed outline hseparator _ ih =>
    have hplain := isBracket_of_isSeparator hseparator
    refine ih (hbefore.append (Nests.plain hplain Nests.nil)) (hsymbols.tail hplain)
      (by simpa using hstarts) ?_
    rw [List.length_append]
    refine Nat.lt_of_le_of_ne hposition fun heq => ?_
    have hkeyword := hstarts.keyword
    rw [← heq, getElem?_append_length] at hkeyword
    obtain rfl := Option.some.inj hkeyword
    simp [isSeparator, Symbol.isTrivia] at hseparator
  | @importStatement before annotations read later packageAllowed statement outline hnests
      hannotations htokens _ hclause _ ih =>
    have hread := nests_importClause hnests hclause
    refine settles_import hannotations htokens hclause hstarts hposition fun hle =>
      ih (hbefore.append hread) (Nests.of_append hread (by simpa using hsymbols))
        (by simpa using hstarts) hle
  | @package before annotations read later outline hnests hclause hlater ih =>
    have hread := nests_packageClause hnests hclause
    refine settles_package hclause hstarts hposition hlater.package_eq_none fun hle =>
      ih (hbefore.append hread) (Nests.of_append hread (by simpa using hsymbols))
        (by simpa using hstarts) hle
  | @item before read rest later symbol packageAllowed item outline hsolid hbody hread hnests
      hplaced htokens hunbroken _ ih =>
    refine settles_item hbefore hsymbols hsolid hbody hread hplaced htokens hunbroken hstarts
      hposition fun hle => ?_
    rw [hread] at hsymbols hstarts
    exact ih (hbefore.append hnests) (Nests.of_append hnests hsymbols) (by simpa using hstarts) hle

/-- Before the keyword of an import that is collected, brackets are closed and no member access
operator comes last. -/
theorem Reading.exists_keyword (h : Reading before packageAllowed symbols outline)
    (hbefore : Nests [] before) (hsymbols : Nests [] symbols) {statement : ImportStatement}
    (hmem : statement ∈ outline.imports) :
    ∃ first later, before ++ symbols = first ++ .keyword "import" :: later ∧
      first.length = statement.keyword ∧ Nests [] first ∧
      (lastSignificant none first).any Symbol.isMemberAccess = false := by
  induction h with
  | nil => simp [empty] at hmem
  | @separator before rest symbol packageAllowed outline hseparator _ ih =>
    have hplain := isBracket_of_isSeparator hseparator
    simpa using ih (hbefore.append (Nests.plain hplain Nests.nil)) (hsymbols.tail hplain) hmem
  | @importStatement before annotations read later packageAllowed first outline hnests
      hannotations htokens hreceiver hclause _ ih =>
    rcases List.mem_cons.mp hmem with rfl | hmem
    · refine ⟨before ++ annotations, read ++ later, by simp, ?_, hbefore.append hnests, hreceiver⟩
      rw [keyword_of_annotations hannotations (by rw [htokens]), List.length_append]
    · have hread := nests_importClause hnests hclause
      simpa using ih (hbefore.append hread) (Nests.of_append hread (by simpa using hsymbols)) hmem
  | @package before annotations read later outline hnests hclause _ ih =>
    have hread := nests_packageClause hnests hclause
    simpa using ih (hbefore.append hread) (Nests.of_append hread (by simpa using hsymbols)) hmem
  | @item before read rest later symbol packageAllowed item outline _ _ hread hnests _ _ _ _ ih =>
    rw [hread] at hsymbols ⊢
    simpa using ih (hbefore.append hnests) (Nests.of_append hnests hsymbols) hmem

end Collecting

end Outline

end UnusedImports
