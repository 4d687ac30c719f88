import UnusedImports.Proofs.Outline.Level
import UnusedImports.Proofs.Outline.Pieces

/-!
Reading the top level, step by step. At each step the symbols start with a separator, an import,
the package clause or an item, whichever their opening tells, and the rest is read behind it. What
is true of every import or item of an outline is shown by induction on these steps.
-/
namespace UnusedImports.Outline

section Clauses

variable {symbols later latest : List Symbol}

def Joined (symbols later : List Symbol) : Prop :=
  ∃ read, symbols = read ++ later ∧ Symbol.semicolon ∉ read

def EndsOnce (symbols later : List Symbol) : Prop :=
  ∃ read, symbols = read ++ later ∧
    ∀ first second, read = first ++ .semicolon :: second → second = []

theorem Joined.refl (symbols : List Symbol) : Joined symbols symbols := ⟨[], rfl, by simp⟩

theorem Joined.trans (hfirst : Joined symbols later) (hsecond : Joined later latest) :
    Joined symbols latest := by
  obtain ⟨first, rfl, hfirst⟩ := hfirst
  obtain ⟨second, rfl, hsecond⟩ := hsecond
  exact ⟨first ++ second, by simp, by simp [hfirst, hsecond]⟩

theorem joined_of_skipGap {symbol : Symbol} (h : skipGap symbols = symbol :: later)
    (hsymbol : symbol ≠ .semicolon) : Joined symbols later := by
  refine ⟨symbols.takeWhile (· == .gap) ++ [symbol], ?_, ?_⟩
  · rw [List.append_assoc, List.singleton_append, ← h]
    exact List.takeWhile_append_dropWhile.symm
  · intro hmem
    rcases List.mem_append.mp hmem with hmem | hmem
    · simpa using List.all_eq_true.mp List.all_takeWhile _ hmem
    · exact hsymbol (List.mem_singleton.mp hmem).symm

theorem joined_dottedRest (symbols : List Symbol) : Joined symbols (dottedRest symbols).2 := by
  fun_induction dottedRest symbols with
  | case1 symbols rest hdot symbol after hword word hw ih =>
    refine ((joined_of_skipGap hdot (by simp)).trans (joined_of_skipGap hword ?_)).trans ih
    rintro rfl
    simp [Symbol.word?] at hw
  | case2 symbols => exact Joined.refl symbols
  | case3 symbols => exact Joined.refl symbols
  | case4 symbols => exact Joined.refl symbols

theorem joined_dottedName {name : List String × List Symbol} (h : dottedName? symbols = some name) :
    Joined symbols name.2 := by
  unfold dottedName? at h
  split at h
  · rename_i symbol after hskip
    obtain ⟨word, hword, rfl⟩ := Option.map_eq_some_iff.mp h
    refine (joined_of_skipGap hskip ?_).trans (joined_dottedRest after)
    rintro rfl
    simp [Symbol.word?] at hword
  · simp at h

theorem joined_staticMark (symbols : List Symbol) : Joined symbols (staticMark symbols).2 := by
  unfold staticMark
  split
  · rename_i word rest h
    split
    · exact joined_of_skipGap h (by simp)
    · exact Joined.refl symbols
  · exact Joined.refl symbols

theorem joined_wildcardMark {star : Bool × List Symbol} (h : wildcardMark symbols = .ok star) :
    Joined symbols star.2 := by
  unfold wildcardMark at h
  split at h
  · rename_i rest hdot
    split at h
    · rename_i after hstar
      obtain rfl := Except.ok.inj h
      exact (joined_of_skipGap hdot (by simp)).trans (joined_of_skipGap hstar (by simp))
    · simp at h
  · obtain rfl := Except.ok.inj h
    exact Joined.refl symbols

theorem joined_aliasMark {wildcard : Bool} {renamed : Option String × List Symbol}
    (h : aliasMark wildcard symbols = .ok renamed) : Joined symbols renamed.2 := by
  unfold aliasMark at h
  split at h
  · rename_i word rest hword
    split at h
    · split at h
      · rename_i name after hname
        split at h
        · simp at h
        · obtain rfl := Except.ok.inj h
          exact (joined_of_skipGap hword (by simp)).trans (joined_of_skipGap hname (by simp))
      · simp at h
    · obtain rfl := Except.ok.inj h
      exact Joined.refl symbols
  · obtain rfl := Except.ok.inj h
    exact Joined.refl symbols

theorem eq_nil_of_semicolon {read first second : List Symbol} (hread : Symbol.semicolon ∉ read)
    (hsplit : read ++ [.semicolon] = first ++ .semicolon :: second) : second = [] := by
  rcases List.eq_nil_or_concat second with rfl | ⟨more, last, rfl⟩
  · rfl
  · rw [List.concat_eq_append, ← List.cons_append, ← List.append_assoc] at hsplit
    obtain ⟨rfl, -⟩ := List.append_inj' hsplit rfl
    simp at hread

theorem Joined.endsOnce (h : Joined symbols later) : EndsOnce symbols (skipSemicolon later) := by
  obtain ⟨read, rfl, hread⟩ := h
  unfold skipSemicolon
  split
  · rename_i rest hskip
    have hgaps : Symbol.semicolon ∉ later.takeWhile (· == .gap) := fun hmem => by
      simpa using List.all_eq_true.mp List.all_takeWhile _ hmem
    refine ⟨read ++ later.takeWhile (· == .gap) ++ [.semicolon], ?_, ?_⟩
    · rw [List.append_assoc, List.append_assoc, List.singleton_append, ← hskip]
      exact congrArg (read ++ ·) List.takeWhile_append_dropWhile.symm
    · intro first second hsplit
      refine eq_nil_of_semicolon (fun hmem => ?_) hsplit
      rcases List.mem_append.mp hmem with hmem | hmem
      · exact hread hmem
      · exact hgaps hmem
  · refine ⟨read, rfl, fun first second hsplit => ?_⟩
    exact absurd (by simp [hsplit]) hread

theorem endsOnce_importClause {keyword : Symbol} {clause : ImportClause}
    (h : importClause keyword symbols = .ok (clause, later)) : EndsOnce symbols later := by
  unfold importClause at h
  simp only at h
  split at h
  · simp at h
  · rename_i name hname
    split at h
    · simp at h
    · rename_i star hstar
      split at h
      · simp at h
      · rename_i renamed hrenamed
        obtain ⟨-, rfl⟩ := Prod.mk.inj (Except.ok.inj h)
        exact (((joined_staticMark symbols).trans (joined_dottedName hname)).trans
          ((joined_wildcardMark hstar).trans (joined_aliasMark hrenamed))).endsOnce

theorem endsOnce_packageClause (h : packageClause? symbols = some later) :
    EndsOnce symbols later := by
  unfold packageClause? at h
  obtain ⟨name, hname, rfl⟩ := Option.map_eq_some_iff.mp h
  exact (joined_dottedName hname).endsOnce

end Clauses

inductive Reading : List Symbol → Bool → List Symbol → Outline → Prop
  | nil (before : List Symbol) (packageAllowed : Bool) : Reading before packageAllowed [] empty
  | separator {before rest : List Symbol} {symbol : Symbol} {packageAllowed : Bool}
      {outline : Outline} (hseparator : isSeparator symbol = true)
      (hrest : Reading (before ++ [symbol]) packageAllowed rest outline) :
      Reading before packageAllowed (symbol :: rest) outline
  | importStatement {before annotations read later : List Symbol} {packageAllowed : Bool}
      {statement : ImportStatement} {outline : Outline} (hnests : Nests [] annotations)
      (hannotations : statement.annotations = if annotations = [] then none else
        some ⟨before.length, before.length + annotations.length⟩)
      (htokens : statement.tokens =
        ⟨before.length, before.length + annotations.length + (1 + read.length)⟩)
      (hreceiver : (lastSignificant none (before ++ annotations)).any Symbol.isMemberAccess = false)
      (hclause : importClause (.keyword "import") (read ++ later) = .ok (statement.clause, later))
      (hlater : Reading (before ++ (annotations ++ .keyword "import" :: read)) packageAllowed later
        outline) :
      Reading before packageAllowed (annotations ++ .keyword "import" :: (read ++ later))
        (outline.addImport statement)
  | package {before annotations read later : List Symbol} {outline : Outline}
      (hnests : Nests [] annotations) (hclause : packageClause? (read ++ later) = some later)
      (hlater : Reading (before ++ (annotations ++ .keyword "package" :: read)) false later
        outline) :
      Reading before true (annotations ++ .keyword "package" :: (read ++ later))
        { outline.addItems (if annotations = [] then [] else
            [.statement ⟨before.length, before.length + annotations.length⟩])
          with package := some ⟨before.length + annotations.length,
            before.length + annotations.length + (1 + read.length)⟩ }
  | item {before read rest later : List Symbol} {symbol : Symbol} {packageAllowed : Bool}
      {item : Item} {outline : Outline} (hsolid : isSeparator symbol = false)
      (hbody : openingOf packageAllowed (lastSignificant none before) (symbol :: rest) = .body)
      (hread : symbol :: rest = read ++ later) (hnests : Nests [] read)
      (hplaced : Placed (before ++ symbol :: rest) item)
      (htokens : item.tokens = ⟨before.length, before.length + read.length⟩)
      (hunbroken : ∀ tokens, item = .statement tokens → Unbroken read)
      (hlater : Reading (before ++ read) false later outline) :
      Reading before packageAllowed (symbol :: rest) (outline.addItems [item])

section Steps

variable {before symbols rest later : List Symbol} {symbol : Symbol} {packageAllowed : Bool}
  {outline : Outline} {stop : Nat}

theorem lastSignificant_append (last : Option Symbol) (first second : List Symbol) :
    lastSignificant last (first ++ second) = lastSignificant (lastSignificant last first) second :=
  List.foldl_append

@[simp]
theorem passed_append (read later : List Symbol) : passed (read ++ later) later = read := by
  simp [passed]

theorem isBracket_of_isSeparator (h : isSeparator symbol = true) : symbol.isBracket = false := by
  cases symbol <;> simp_all [isSeparator, Symbol.isTrivia, Symbol.isBracket]

/-- The keyword of an import that is opened follows no member access operator. -/
theorem receiver_of_importKeyword {last : Option Symbol}
    (h : openingOf packageAllowed last symbols = .importKeyword rest) :
    (lastSignificant last (passed symbols (.keyword "import" :: rest))).any
      Symbol.isMemberAccess = false := by
  unfold openingOf at h
  split at h
  · rename_i word after hafter
    split at h
    · rename_i hword
      split at h
      · simp at h
      · rename_i hreceiver
        obtain rfl := Opening.importKeyword.inj h
        simpa [hword] using hreceiver
    · split at h <;> simp at h
  · simp at h

/-- A statement that is read as the first item is unbroken. -/
theorem unbroken_firstItem (hsolid : isSeparator symbol = false)
    (hnests : Nests [] (symbol :: rest)) {read : List Symbol}
    (hread : symbol :: rest = read ++ (firstItem stop symbol rest).2) {tokens : Extent}
    (hitem : (firstItem stop symbol rest).1 = .statement tokens) : Unbroken read := by
  unfold firstItem at hread hitem
  split at hitem
  · simp at hitem
  · rename_i hbody
    rw [hbody] at hread
    exact unbroken_of_afterStatement hsolid hnests hread

theorem ite_lt_add_length {α : Type} (start : Nat) (annotations : List Symbol) (a b : α) :
    (if start < start + annotations.length then a else b) = if annotations = [] then b else a := by
  cases annotations with
  | nil => simp
  | cons symbol annotations => simp

def ReadsBefore (stop : Nat) (last : Option Symbol) (symbols : List Symbol) (packageAllowed : Bool)
    (outline : Outline) : Prop :=
  ∀ before : List Symbol, stop = before.length + symbols.length →
    last = lastSignificant none before → Nests [] symbols →
      Reading before packageAllowed symbols outline

theorem ReadsBefore.behind {read : List Symbol}
    (h : ReadsBefore stop (lastSignificant (lastSignificant none before) (passed symbols later))
      later packageAllowed outline)
    (hsplit : symbols = read ++ later) (hread : Nests [] read) (hnests : Nests [] symbols)
    (hstop : stop = before.length + symbols.length) :
    Reading (before ++ read) packageAllowed later outline := by
  subst hsplit
  refine h (before ++ read) ?_ ?_ (Nests.of_append hread hnests)
  · rw [hstop, List.length_append, List.length_append, Nat.add_assoc]
  · rw [passed_append, lastSignificant_append none before]

/-- Annotations, a keyword and parts of a clause are well nested. -/
theorem nests_clause {annotations read : List Symbol} (word : String)
    (hannotations : Nests [] annotations) (hparts : ∀ part ∈ read, part.isClausePart = true) :
    Nests [] (annotations ++ .keyword word :: read) :=
  hannotations.append (Nests.plain rfl (Nests.of_plain fun part hmem =>
    Symbol.isBracket_of_isClausePart (hparts part hmem)))

/-- Where a clause starts, has its keyword and stops, told by what is left of the symbols. -/
theorem positions_of_clause {keyword : Symbol} {annotations read next : List Symbol}
    (hread : symbol :: rest = annotations ++ keyword :: (read ++ next))
    (hstop : stop = before.length + (rest.length + 1)) :
    stop - (rest.length + 1) = before.length ∧
      stop - ((read ++ next).length + 1) = before.length + annotations.length ∧
      stop - next.length = before.length + annotations.length + (1 + read.length) := by
  have hlength := congrArg List.length hread
  simp only [List.length_append, List.length_cons] at hlength ⊢
  omega

theorem reading_import {clause : ImportClause} {after next : List Symbol}
    (hsolid : isSeparator symbol = false)
    (hopening : openingOf packageAllowed (lastSignificant none before) (symbol :: rest) =
      .importKeyword after)
    (hclause : importClause (.keyword "import") after = .ok (clause, next))
    (hlater : ReadsBefore stop
      (lastSignificant (lastSignificant none before) (passed (symbol :: rest) next)) next
      packageAllowed outline)
    (hstop : stop = before.length + (rest.length + 1)) (hnests : Nests [] (symbol :: rest)) :
    Reading before packageAllowed (symbol :: rest)
      (outline.addImport
        ⟨if stop - (rest.length + 1) < stop - (after.length + 1) then
            some ⟨stop - (rest.length + 1), stop - (after.length + 1)⟩ else none, clause,
          ⟨stop - (rest.length + 1), stop - next.length⟩⟩) := by
  have hreceiver := receiver_of_importKeyword hopening
  obtain ⟨annotations, hread, hbalanced, -, -⟩ :=
    exists_annotations hsolid hnests (afterAnnotations_of_importKeyword hopening)
  obtain ⟨⟨read, rfl, hparts, -⟩, -⟩ := spells_importClause hclause
  have hreading := hlater.behind (by simp [hread]) (nests_clause "import" hbalanced hparts) hnests
    hstop
  rw [hread, passed_append, ← lastSignificant_append] at hreceiver
  obtain ⟨hstart, hkeyword, hend⟩ := positions_of_clause hread hstop
  rw [hstart, hkeyword, hend, ite_lt_add_length, hread]
  exact .importStatement hbalanced rfl rfl hreceiver hclause hreading

theorem reading_package {after next : List Symbol} (hsolid : isSeparator symbol = false)
    (hafter : afterAnnotations (symbol :: rest) = .keyword "package" :: after)
    (hclause : packageClause? after = some next)
    (hlater : ReadsBefore stop
      (lastSignificant (lastSignificant none before) (passed (symbol :: rest) next)) next false
      outline)
    (hstop : stop = before.length + (rest.length + 1)) (hnests : Nests [] (symbol :: rest)) :
    Reading before true (symbol :: rest)
      { outline.addItems
          (if stop - (rest.length + 1) < stop - (after.length + 1) then
            [.statement ⟨stop - (rest.length + 1), stop - (after.length + 1)⟩] else [])
        with package := some ⟨stop - (after.length + 1), stop - next.length⟩ } := by
  obtain ⟨annotations, hread, hbalanced, -, -⟩ := exists_annotations hsolid hnests hafter
  obtain ⟨read, rfl, hparts, -⟩ := spells_packageClause hclause
  have hreading := hlater.behind (by simp [hread]) (nests_clause "package" hbalanced hparts) hnests
    hstop
  obtain ⟨hstart, hkeyword, hend⟩ := positions_of_clause hread hstop
  rw [hstart, hkeyword, hend, ite_lt_add_length, hread]
  exact .package hbalanced hclause hreading

theorem reading_item (hsolid : isSeparator symbol = false)
    (hbody : openingOf packageAllowed (lastSignificant none before) (symbol :: rest) = .body)
    (hlater : ReadsBefore stop
      (lastSignificant (lastSignificant none before)
        (passed (symbol :: rest) (firstItem stop symbol rest).2))
      (firstItem stop symbol rest).2 false outline)
    (hstop : stop = before.length + (rest.length + 1)) (hnests : Nests [] (symbol :: rest)) :
    Reading before packageAllowed (symbol :: rest)
      (outline.addItems [(firstItem stop symbol rest).1]) := by
  obtain ⟨⟨read, hread, hbalanced, -⟩, hplaced, htokens⟩ :=
    placed_firstItem before hsolid hnests hstop
  have hunbroken : ∀ tokens, (firstItem stop symbol rest).1 = .statement tokens → Unbroken read :=
    fun tokens hitem => unbroken_firstItem hsolid hnests hread hitem
  have hlength := congrArg List.length hread
  simp only [List.length_append, List.length_cons] at hlength
  have hreading := hlater.behind hread hbalanced hnests hstop
  refine .item hsolid hbody hread hbalanced hplaced ?_ hunbroken hreading
  rw [htokens, Extent.mk.injEq]
  omega

/-- Reading the top level stops at an import that cannot be read. -/
theorem topLevel_malformedImport {last : Option Symbol} {after wrong : List Symbol}
    (hsolid : isSeparator symbol = false)
    (hopening : openingOf packageAllowed last (symbol :: rest) = .importKeyword after)
    (hclause : importClause (.keyword "import") after = .error wrong) :
    topLevel stop packageAllowed last (symbol :: rest) =
      .error ⟨.malformedImport, stop - wrong.length⟩ := by
  rw [topLevel, if_neg (by simp [hsolid])]
  split
  · rename_i other hother
    obtain rfl := Opening.importKeyword.inj (hopening.symm.trans hother)
    simp only
    split
    · rename_i found hfound
      rw [Except.error.inj (hclause.symm.trans hfound)]
    · simp_all
  · simp_all
  · simp_all

end Steps

section Equations

variable {packageAllowed : Bool} {before : Option Symbol} {symbol : Symbol}
  {rest after next : List Symbol} (stop : Nat) (hsolid : ¬ isSeparator symbol = true)

include hsolid

theorem topLevel_import {clause : ImportClause}
    (hopening : openingOf packageAllowed before (symbol :: rest) = .importKeyword after)
    (hclause : importClause (.keyword "import") after = .ok (clause, next)) :
    topLevel stop packageAllowed before (symbol :: rest) =
      (topLevel stop packageAllowed
          (lastSignificant before (passed (symbol :: rest) next)) next).map
        (addImport
          ⟨if stop - (rest.length + 1) < stop - (after.length + 1) then
              some ⟨stop - (rest.length + 1), stop - (after.length + 1)⟩ else none, clause,
            ⟨stop - (rest.length + 1), stop - next.length⟩⟩) := by
  rw [topLevel, if_neg hsolid]
  split
  · rename_i other hother
    obtain rfl := Opening.importKeyword.inj (hopening.symm.trans hother)
    simp only
    split
    · simp_all
    · rename_i again later hagain
      obtain ⟨rfl, rfl⟩ := Prod.mk.inj (Except.ok.inj (hclause.symm.trans hagain))
      rfl
  · simp_all
  · simp_all

theorem topLevel_package
    (hopening : openingOf packageAllowed before (symbol :: rest) = .packageKeyword after)
    (hclause : packageClause? after = some next) :
    topLevel stop packageAllowed before (symbol :: rest) =
      (topLevel stop false (lastSignificant before (passed (symbol :: rest) next)) next).map
        fun outline =>
          { outline.addItems (if stop - (rest.length + 1) < stop - (after.length + 1) then
              [.statement ⟨stop - (rest.length + 1), stop - (after.length + 1)⟩] else [])
            with package := some ⟨stop - (after.length + 1), stop - next.length⟩ } := by
  rw [topLevel, if_neg hsolid]
  split
  · simp_all
  · rename_i other hother
    obtain rfl := Opening.packageKeyword.inj (hopening.symm.trans hother)
    simp only
    split
    · simp_all
    · rename_i later hlater
      obtain rfl := Option.some.inj (hclause.symm.trans hlater)
      rfl
  · simp_all

theorem topLevel_malformedPackage
    (hopening : openingOf packageAllowed before (symbol :: rest) = .packageKeyword after)
    (hclause : packageClause? after = none) :
    (topLevel stop packageAllowed before (symbol :: rest)).toOption = none := by
  rw [topLevel, if_neg hsolid]
  split
  · simp_all
  · rename_i other hother
    obtain rfl := Opening.packageKeyword.inj (hopening.symm.trans hother)
    simp only
    split
    · rfl
    · simp_all
  · simp_all

theorem topLevel_body
    (hopening : openingOf packageAllowed before (symbol :: rest) = .body) :
    topLevel stop packageAllowed before (symbol :: rest) =
      (topLevel stop false (lastSignificant before
          (passed (symbol :: rest) (firstItem stop symbol rest).2))
        (firstItem stop symbol rest).2).map (addItems [(firstItem stop symbol rest).1]) := by
  rw [topLevel, if_neg hsolid]
  split
  · simp_all
  · simp_all
  · rfl

end Equations

/-- What the top level is read to is read step by step. -/
theorem readsBefore_topLevel {stop : Nat} {packageAllowed : Bool} {last : Option Symbol}
    {symbols : List Symbol} {outline : Outline}
    (h : topLevel stop packageAllowed last symbols = .ok outline) :
    ReadsBefore stop last symbols packageAllowed outline := by
  intro before hstop hlast hnests
  fun_induction topLevel stop packageAllowed last symbols generalizing before outline with
  | case1 =>
    obtain rfl := Except.ok.inj h
    exact .nil before _
  | case2 packageAllowed last symbol rest hseparator ih =>
    refine .separator hseparator (ih h (before ++ [symbol]) ?_ ?_
      (hnests.tail (isBracket_of_isSeparator hseparator)))
    · simp only [List.length_append, List.length_cons, List.length_nil] at hstop ⊢
      omega
    · rw [hlast, lastSignificant_append none before]
  | case3 => simp at h
  | case4 =>
    rename_i hsolid after hopening keyword clause next hclause ih
    obtain ⟨outline, hlater, rfl⟩ := exists_of_map_eq_ok h
    subst hlast
    exact reading_import (by simpa using hsolid) hopening hclause (fun before => ih hlater before)
      hstop hnests
  | case5 => simp at h
  | case6 =>
    rename_i hsolid after hopening keyword next hclause ih
    obtain ⟨outline, hlater, rfl⟩ := exists_of_map_eq_ok h
    obtain ⟨rfl, hafter⟩ := afterAnnotations_of_packageKeyword hopening
    subst hlast
    exact reading_package (by simpa using hsolid) hafter hclause (fun before => ih hlater before)
      hstop hnests
  | case7 =>
    rename_i hsolid hopening first ih
    obtain ⟨outline, hlater, rfl⟩ := exists_of_map_eq_ok h
    subst hlast
    exact reading_item (by simpa using hsolid) hopening (fun before => ih hlater before) hstop
      hnests

/-- The symbols of a source are well nested and read to its outline from the start. -/
theorem reading_ofSymbols {symbols : List Symbol} {outline : Outline}
    (h : ofSymbols symbols = .ok outline) : Nests [] symbols ∧ Reading [] true symbols outline := by
  unfold ofSymbols at h
  split at h
  · simp at h
  · rename_i hfault
    have hnests := nests_of_bracketFault hfault
    exact ⟨hnests, readsBefore_topLevel h [] (by simp) rfl hnests⟩

end UnusedImports.Outline
