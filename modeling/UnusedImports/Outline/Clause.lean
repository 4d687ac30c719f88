import UnusedImports.Outline.Phrase

/-!
The two clauses at the top of a source: imports and the package. Both stay within a line,
up to comments that span lines, and both take the semicolon that ends them. A clause that
cannot be read is refused at the symbol where reading failed.
-/
namespace UnusedImports.Outline

structure ImportClause where
  isStatic : Bool
  /-- The words of the dotted name. -/
  segments : List String
  /-- Whether the name ends in a star. -/
  wildcard : Bool
  aliasName : Option String
deriving DecidableEq

def skipSemicolon (symbols : List Symbol) : List Symbol :=
  match skipGap symbols with
  | .semicolon :: rest => rest
  | _ => symbols

def staticMark (symbols : List Symbol) : Bool × List Symbol :=
  match skipGap symbols with
  | .keyword word :: rest => if word = "static" then (true, rest) else (false, symbols)
  | _ => (false, symbols)

/-- Whether a dot and a star come next on the line, and what follows them. A dot without a
star is an error at the dot. -/
def wildcardMark (symbols : List Symbol) : Except (List Symbol) (Bool × List Symbol) :=
  match skipGap symbols with
  | .dot :: rest =>
    match skipGap rest with
    | .star :: after => .ok (true, after)
    | _ => .error (.dot :: rest)
  | _ => .ok (false, symbols)

/-- The alias that comes next on the line, and what follows it. The word `as` without an
identifier is an error at that word, and so is an alias after a star. -/
def aliasMark (wildcard : Bool) (symbols : List Symbol) :
    Except (List Symbol) (Option String × List Symbol) :=
  match skipGap symbols with
  | .keyword word :: rest =>
    if word = "as" then
      match skipGap rest with
      | .identifier name :: after =>
        if wildcard then .error (.keyword word :: rest) else .ok (some name, after)
      | _ => .error (.keyword word :: rest)
    else .ok (none, symbols)
  | _ => .ok (none, symbols)

/-- Reads an import from the symbols after its keyword. The answer is what it says and what
follows it, or the symbols from the one where reading failed on; with no name to import,
that is the `keyword` itself. -/
def importClause (keyword : Symbol) (rest : List Symbol) :
    Except (List Symbol) (ImportClause × List Symbol) :=
  let mark := staticMark rest
  match dottedName? mark.2 with
  | none => .error (keyword :: rest)
  | some name =>
    match wildcardMark name.2 with
    | .error wrong => .error wrong
    | .ok star =>
      match aliasMark star.1 star.2 with
      | .error wrong => .error wrong
      | .ok renamed =>
        .ok (⟨mark.1, name.1, star.1, renamed.1⟩, skipSemicolon renamed.2)

def packageClause? (rest : List Symbol) : Option (List Symbol) :=
  (dottedName? rest).map fun name => skipSemicolon name.2

theorem length_skipSemicolon (symbols : List Symbol) :
    (skipSemicolon symbols).length ≤ symbols.length := by
  unfold skipSemicolon
  split
  · rename_i rest h
    exact Nat.le_of_lt (length_of_skipGap h)
  · exact Nat.le_refl _

theorem length_staticMark (symbols : List Symbol) :
    (staticMark symbols).2.length ≤ symbols.length := by
  unfold staticMark
  split
  · rename_i word rest h
    split
    · exact Nat.le_of_lt (length_of_skipGap h)
    · exact Nat.le_refl _
  · exact Nat.le_refl _

theorem length_wildcardMark {symbols : List Symbol} {star : Bool × List Symbol}
    (h : wildcardMark symbols = .ok star) : star.2.length ≤ symbols.length := by
  unfold wildcardMark at h
  split at h
  · rename_i rest hdot
    split at h
    · rename_i after hstar
      simp only [Except.ok.injEq] at h
      subst h
      have := length_of_skipGap hdot
      have := length_of_skipGap hstar
      simp only
      omega
    · simp at h
  · simp only [Except.ok.injEq] at h
    subst h
    exact Nat.le_refl _

theorem length_aliasMark {wildcard : Bool} {symbols : List Symbol}
    {renamed : Option String × List Symbol} (h : aliasMark wildcard symbols = .ok renamed) :
    renamed.2.length ≤ symbols.length := by
  unfold aliasMark at h
  split at h
  · rename_i word rest hword
    split at h
    · split at h
      · rename_i name after hname
        split at h
        · simp at h
        · simp only [Except.ok.injEq] at h
          subst h
          have := length_of_skipGap hword
          have := length_of_skipGap hname
          simp only
          omega
      · simp at h
    · simp only [Except.ok.injEq] at h
      subst h
      exact Nat.le_refl _
  · simp only [Except.ok.injEq] at h
    subst h
    exact Nat.le_refl _

theorem length_importClause {keyword : Symbol} {rest after : List Symbol}
    {clause : ImportClause} (h : importClause keyword rest = .ok (clause, after)) :
    after.length < rest.length := by
  unfold importClause at h
  simp only at h
  split at h
  · simp at h
  · rename_i name hname
    have := length_dottedName hname
    have := length_staticMark rest
    split at h
    · simp at h
    · rename_i star hstar
      have := length_wildcardMark hstar
      split at h
      · simp at h
      · rename_i renamed hrenamed
        have := length_aliasMark hrenamed
        have := length_skipSemicolon renamed.2
        simp only [Except.ok.injEq, Prod.mk.injEq] at h
        rw [← h.2]
        omega

theorem length_packageClause {rest after : List Symbol}
    (h : packageClause? rest = some after) : after.length < rest.length := by
  unfold packageClause? at h
  obtain ⟨name, hname, hafter⟩ := Option.map_eq_some_iff.mp h
  have := length_dottedName hname
  have := length_skipSemicolon name.2
  rw [← hafter]
  omega

end UnusedImports.Outline
