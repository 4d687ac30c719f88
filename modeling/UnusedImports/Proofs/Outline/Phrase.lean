import UnusedImports.Outline.Clause
import UnusedImports.Outline.Item
import UnusedImports.Proofs.Outline.Nesting

/-!
What reading a phrase passes over. Every reader of the outline answers with symbols that its
own symbols end with, so what it read is what stands before them. Here it is said what that
is: well nested symbols throughout, nothing but names, dots, stars and semicolons in a clause,
and a last symbol after which an item may start.
-/
namespace UnusedImports

namespace Symbol

def isClausePart : Symbol → Bool
  | .gap | .identifier _ | .keyword _ | .dot | .star | .semicolon => true
  | _ => false

def endsClause : Symbol → Bool
  | .identifier _ | .keyword _ | .star | .semicolon => true
  | _ => false

def mayPrecede : Symbol → Bool
  | .newline | .gap | .semicolon | .identifier _ | .keyword _ | .star | .closing _ => true
  | _ => false

theorem isBracket_of_isClausePart {symbol : Symbol} (h : symbol.isClausePart = true) :
    symbol.isBracket = false := by
  cases symbol <;> simp_all [isClausePart, isBracket]

theorem isBracket_of_isTrivia {symbol : Symbol} (h : symbol.isTrivia = true) :
    symbol.isBracket = false := by
  cases symbol <;> simp_all [isTrivia, isBracket]

theorem mayPrecede_of_endsClause {symbol : Symbol} (h : symbol.endsClause = true) :
    symbol.mayPrecede = true := by
  cases symbol <;> simp_all [endsClause, mayPrecede]

theorem mayPrecede_of_isTrivia {symbol : Symbol} (h : symbol.isTrivia = true) :
    symbol.mayPrecede = true := by
  cases symbol <;> simp_all [isTrivia, mayPrecede]

theorem solid_of_endsClause {symbol : Symbol} (h : symbol.endsClause = true) :
    symbol ≠ .other ∧ symbol.isTrivia = false := by
  cases symbol <;> simp_all [endsClause, isTrivia]

theorem endsClause_of_word {symbol : Symbol} {word : String} (h : symbol.word? = some word) :
    symbol.isClausePart = true ∧ symbol.endsClause = true := by
  cases symbol <;> simp_all [word?, isClausePart, endsClause]

end Symbol

namespace Outline

/-- What stands between the symbols and the later ones is well nested, and its last symbol
passes a test. -/
def Passes (last : Symbol → Bool) (symbols later : List Symbol) : Prop :=
  ∃ read, symbols = read ++ later ∧ Nests [] read ∧
    ∀ symbol, read.getLast? = some symbol → last symbol = true

def Spells (symbols later : List Symbol) : Prop :=
  ∃ read, symbols = read ++ later ∧ (∀ symbol ∈ read, symbol.isClausePart = true) ∧
    ∀ symbol, read.getLast? = some symbol → symbol.endsClause = true

section Passing

variable {last : Symbol → Bool} {symbols later latest : List Symbol}

theorem Passes.refl (last : Symbol → Bool) (symbols : List Symbol) : Passes last symbols symbols :=
  ⟨[], rfl, Nests.nil, by simp⟩

theorem Passes.trans (hfirst : Passes last symbols later) (hsecond : Passes last later latest) :
    Passes last symbols latest := by
  obtain ⟨first, rfl, hnests, hlast⟩ := hfirst
  obtain ⟨second, rfl, hnests', hlast'⟩ := hsecond
  refine ⟨first ++ second, by simp, hnests.append hnests', ?_⟩
  intro symbol hsymbol
  rw [List.getLast?_append] at hsymbol
  cases h : second.getLast? with
  | none =>
    rw [h] at hsymbol
    exact hlast symbol hsymbol
  | some final =>
    rw [h] at hsymbol
    exact hlast' symbol (by simpa [h] using hsymbol)

theorem Passes.balanced (h : Passes last symbols later) :
    Passes (fun _ => true) symbols later := by
  obtain ⟨read, hread, hnests, -⟩ := h
  exact ⟨read, hread, hnests, fun _ _ => rfl⟩

theorem Passes.plain {symbol : Symbol} (hplain : symbol.isBracket = false)
    (hlast : last symbol = true) (rest : List Symbol) : Passes last (symbol :: rest) rest := by
  refine ⟨[symbol], rfl, Nests.plain hplain Nests.nil, ?_⟩
  intro final hfinal
  simp only [List.getLast?_singleton, Option.some.injEq] at hfinal
  exact hfinal ▸ hlast

theorem Passes.nests (h : Passes last symbols later) (hnests : Nests [] symbols) :
    Nests [] later := by
  obtain ⟨read, rfl, hread, -⟩ := h
  exact Nests.of_append hread hnests

theorem passes_dropWhile {test : Symbol → Bool}
    (hplain : ∀ symbol, test symbol = true → symbol.isBracket = false)
    (hlast : ∀ symbol, test symbol = true → last symbol = true) (symbols : List Symbol) :
    Passes last symbols (symbols.dropWhile test) := by
  induction symbols with
  | nil => exact Passes.refl last []
  | cons symbol rest ih =>
    by_cases h : test symbol = true
    · rw [List.dropWhile_cons_of_pos h]
      exact (Passes.plain (hplain symbol h) (hlast symbol h) rest).trans ih
    · rw [List.dropWhile_cons_of_neg h]
      exact Passes.refl last _

theorem passes_skipTrivia (symbols : List Symbol) :
    Passes Symbol.mayPrecede symbols (skipTrivia symbols) :=
  passes_dropWhile (fun _ => Symbol.isBracket_of_isTrivia)
    (fun _ => Symbol.mayPrecede_of_isTrivia) symbols

/-- A group is passed over as a whole. -/
theorem passes_afterGroup {bracket : Bracket} {rest : List Symbol}
    (h : Nests [] (.opening bracket :: rest)) (hlast : last (.closing bracket) = true) :
    Passes last (.opening bracket :: rest) (afterGroup rest) := by
  obtain ⟨hsplit, hinside, -⟩ := splitGroup_zero_of_nests h
  refine ⟨.opening bracket :: ((splitGroup 0 rest).1 ++ [.closing bracket]), ?_, ?_, ?_⟩
  · conv => lhs; rw [hsplit]
    simp [afterGroup]
  · exact Nests.opening (hinside.append (Nests.closing Nests.nil))
  · intro symbol hsymbol
    rw [List.getLast?_cons, List.getLast?_append] at hsymbol
    simp only [List.getLast?_singleton, Option.some_or, Option.getD_some,
      Option.some.injEq] at hsymbol
    exact hsymbol ▸ hlast

end Passing

section Spelling

variable {symbols later latest : List Symbol}

theorem Spells.refl (symbols : List Symbol) : Spells symbols symbols :=
  ⟨[], rfl, by simp, by simp⟩

theorem Spells.trans (hfirst : Spells symbols later) (hsecond : Spells later latest) :
    Spells symbols latest := by
  obtain ⟨first, rfl, hparts, hlast⟩ := hfirst
  obtain ⟨second, rfl, hparts', hlast'⟩ := hsecond
  refine ⟨first ++ second, by simp, ?_, ?_⟩
  · intro symbol hmem
    rcases List.mem_append.mp hmem with hmem | hmem
    · exact hparts symbol hmem
    · exact hparts' symbol hmem
  · intro symbol hsymbol
    rw [List.getLast?_append] at hsymbol
    cases h : second.getLast? with
    | none =>
      rw [h] at hsymbol
      exact hlast symbol hsymbol
    | some final =>
      rw [h] at hsymbol
      exact hlast' symbol (by simpa [h] using hsymbol)

theorem Spells.passes (h : Spells symbols later) : Passes Symbol.mayPrecede symbols later := by
  obtain ⟨read, hread, hparts, hlast⟩ := h
  refine ⟨read, hread, Nests.of_plain fun symbol hmem => ?_, fun symbol hsymbol => ?_⟩
  · exact Symbol.isBracket_of_isClausePart (hparts symbol hmem)
  · exact Symbol.mayPrecede_of_endsClause (hlast symbol hsymbol)

theorem Spells.of_append {read : List Symbol} {symbol : Symbol}
    (hread : symbols = read ++ symbol :: later)
    (hparts : ∀ part ∈ read, part.isClausePart = true)
    (hsymbol : symbol.isClausePart = true ∧ symbol.endsClause = true) :
    Spells symbols later := by
  refine ⟨read ++ [symbol], by simp [hread], ?_, ?_⟩
  · intro part hmem
    rcases List.mem_append.mp hmem with hmem | hmem
    · exact hparts part hmem
    · rw [List.mem_singleton.mp hmem]
      exact hsymbol.1
  · intro final hfinal
    rw [List.getLast?_append] at hfinal
    simp only [List.getLast?_singleton, Option.some_or, Option.some.injEq] at hfinal
    exact hfinal ▸ hsymbol.2

theorem exists_gaps {symbol : Symbol} (h : skipGap symbols = symbol :: later) :
    ∃ gaps, symbols = gaps ++ symbol :: later ∧ ∀ part ∈ gaps, part.isClausePart = true := by
  refine ⟨symbols.takeWhile (· == .gap), ?_, ?_⟩
  · rw [← h]
    exact List.takeWhile_append_dropWhile.symm
  · intro part hmem
    have hgap := List.all_eq_true.mp List.all_takeWhile part hmem
    rw [beq_iff_eq.mp hgap]
    rfl

/-- The next symbol on the line, if it may end a clause. -/
theorem spells_of_skipGap {symbol : Symbol} (h : skipGap symbols = symbol :: later)
    (hsymbol : symbol.isClausePart = true ∧ symbol.endsClause = true) : Spells symbols later := by
  obtain ⟨gaps, hgaps, hparts⟩ := exists_gaps h
  exact Spells.of_append hgaps hparts hsymbol

/-- The next two symbols on the line, if the second may end a clause. -/
theorem spells_of_skipGap_skipGap {first second : Symbol} {rest : List Symbol}
    (hfirst : skipGap symbols = first :: rest) (hsecond : skipGap rest = second :: later)
    (hpart : first.isClausePart = true)
    (hsymbol : second.isClausePart = true ∧ second.endsClause = true) : Spells symbols later := by
  obtain ⟨gaps, rfl, hparts⟩ := exists_gaps hfirst
  obtain ⟨gaps', rfl, hparts'⟩ := exists_gaps hsecond
  refine Spells.of_append (show _ = (gaps ++ first :: gaps') ++ _ by simp) ?_ hsymbol
  intro part hmem
  simp only [List.mem_append, List.mem_cons] at hmem
  rcases hmem with hmem | rfl | hmem
  · exact hparts part hmem
  · exact hpart
  · exact hparts' part hmem

theorem spells_dottedRest (symbols : List Symbol) : Spells symbols (dottedRest symbols).2 := by
  fun_induction dottedRest symbols with
  | case1 symbols rest hdot symbol after hword word hw ih =>
    exact (spells_of_skipGap_skipGap hdot hword rfl (Symbol.endsClause_of_word hw)).trans ih
  | case2 symbols => exact Spells.refl symbols
  | case3 symbols => exact Spells.refl symbols
  | case4 symbols => exact Spells.refl symbols

theorem spells_dottedName {name : List String × List Symbol} (h : dottedName? symbols = some name) :
    Spells symbols name.2 := by
  unfold dottedName? at h
  split at h
  · rename_i symbol after hskip
    obtain ⟨word, hword, rfl⟩ := Option.map_eq_some_iff.mp h
    exact (spells_of_skipGap hskip (Symbol.endsClause_of_word hword)).trans
      (spells_dottedRest after)
  · simp at h

theorem spells_skipSemicolon (symbols : List Symbol) : Spells symbols (skipSemicolon symbols) := by
  unfold skipSemicolon
  split
  · rename_i rest h
    exact spells_of_skipGap h ⟨rfl, rfl⟩
  · exact Spells.refl symbols

theorem spells_staticMark (symbols : List Symbol) : Spells symbols (staticMark symbols).2 := by
  unfold staticMark
  split
  · rename_i word rest h
    split
    · exact spells_of_skipGap h ⟨rfl, rfl⟩
    · exact Spells.refl symbols
  · exact Spells.refl symbols

theorem spells_wildcardMark {star : Bool × List Symbol} (h : wildcardMark symbols = .ok star) :
    Spells symbols star.2 := by
  unfold wildcardMark at h
  split at h
  · rename_i rest hdot
    split at h
    · rename_i after hstar
      simp only [Except.ok.injEq] at h
      subst h
      exact spells_of_skipGap_skipGap hdot hstar rfl ⟨rfl, rfl⟩
    · simp at h
  · simp only [Except.ok.injEq] at h
    subst h
    exact Spells.refl symbols

/-- The alias is read as part of the clause, and a name with a star has none. -/
theorem spells_aliasMark {wildcard : Bool} {renamed : Option String × List Symbol}
    (h : aliasMark wildcard symbols = .ok renamed) :
    Spells symbols renamed.2 ∧ (wildcard = true → renamed.1 = none) := by
  unfold aliasMark at h
  split at h
  · rename_i word rest hword
    split at h
    · split at h
      · rename_i name after hname
        split at h
        · simp at h
        · rename_i hwildcard
          simp only [Except.ok.injEq] at h
          subst h
          exact ⟨spells_of_skipGap_skipGap hword hname rfl ⟨rfl, rfl⟩,
            fun hstar => absurd hstar hwildcard⟩
      · simp at h
    · simp only [Except.ok.injEq] at h
      subst h
      exact ⟨Spells.refl symbols, fun _ => rfl⟩
  · simp only [Except.ok.injEq] at h
    subst h
    exact ⟨Spells.refl symbols, fun _ => rfl⟩

theorem spells_importClause {keyword : Symbol} {clause : ImportClause}
    (h : importClause keyword symbols = .ok (clause, later)) :
    Spells symbols later ∧ (clause.wildcard = true → clause.aliasName = none) := by
  unfold importClause at h
  simp only at h
  split at h
  · simp at h
  · rename_i name hname
    split at h
    · simp at h
    · rename_i star hstar
      split at h
      · simp at h
      · rename_i renamed hrenamed
        obtain ⟨halias, hnone⟩ := spells_aliasMark hrenamed
        simp only [Except.ok.injEq, Prod.mk.injEq] at h
        obtain ⟨rfl, rfl⟩ := h
        refine ⟨?_, hnone⟩
        exact ((((spells_staticMark symbols).trans (spells_dottedName hname)).trans
          (spells_wildcardMark hstar)).trans halias).trans (spells_skipSemicolon renamed.2)

theorem spells_packageClause (h : packageClause? symbols = some later) : Spells symbols later := by
  unfold packageClause? at h
  obtain ⟨name, hname, rfl⟩ := Option.map_eq_some_iff.mp h
  exact (spells_dottedName hname).trans (spells_skipSemicolon name.2)

end Spelling

section Annotations

variable {symbols : List Symbol}

theorem passes_of_skipTrivia {symbol : Symbol} {rest : List Symbol}
    (h : skipTrivia symbols = symbol :: rest) :
    Passes Symbol.mayPrecede symbols (symbol :: rest) := h ▸ passes_skipTrivia symbols

theorem passes_skipArguments (hnests : Nests [] symbols) :
    Passes Symbol.mayPrecede symbols (skipArguments symbols) := by
  unfold skipArguments
  split
  · rename_i rest h
    have hgaps : Passes Symbol.mayPrecede symbols (skipGap symbols) :=
      passes_dropWhile (fun symbol hgap => by rw [beq_iff_eq.mp hgap]; rfl)
        (fun symbol hgap => by rw [beq_iff_eq.mp hgap]; rfl) symbols
    rw [h] at hgaps
    exact hgaps.trans (passes_afterGroup (hgaps.nests hnests) rfl)
  · exact Passes.refl _ symbols

/-- The sign of an annotation and its name, and the words joined to it. -/
theorem passes_annotationName {rest after : List Symbol} {name : Symbol}
    (hat : skipTrivia symbols = .atSign :: rest) (hname : skipTrivia rest = name :: after)
    (hword : name.word?.isSome = true) : Passes Symbol.mayPrecede symbols (dottedRest after).2 := by
  obtain ⟨word, hword⟩ := Option.isSome_iff_exists.mp hword
  obtain ⟨hpart, hends⟩ := Symbol.endsClause_of_word hword
  obtain ⟨trivia, hread, hnests, -⟩ := passes_of_skipTrivia hat
  obtain ⟨trivia', hread', hnests', -⟩ := passes_of_skipTrivia hname
  have hsign : Passes Symbol.mayPrecede symbols after := by
    refine ⟨trivia ++ (.atSign :: trivia') ++ [name], by simp [hread, hread'], ?_, ?_⟩
    · refine (hnests.append (Nests.plain rfl hnests')).append (Nests.plain ?_ Nests.nil)
      exact Symbol.isBracket_of_isClausePart hpart
    · intro symbol hsymbol
      rw [List.getLast?_append] at hsymbol
      simp only [List.getLast?_singleton, Option.some_or, Option.some.injEq] at hsymbol
      exact hsymbol ▸ Symbol.mayPrecede_of_endsClause hends
  exact hsign.trans (spells_dottedRest after).passes

theorem passes_skipAnnotations (found : Bool) (symbols : List Symbol) (hnests : Nests [] symbols) :
    ∀ rest, skipAnnotations found symbols = some rest →
      Passes Symbol.mayPrecede symbols rest := by
  fun_induction skipAnnotations found symbols with
  | case1 => intro rest h; simp at h
  | case2 found symbols rest hat name after hname hword ih =>
    intro result h
    have hfirst := passes_annotationName hat hname hword.1
    have hsecond := passes_skipArguments (hfirst.nests hnests)
    have hboth := hfirst.trans hsecond
    exact hboth.trans (ih (hboth.nests hnests) result h)
  | case3 symbols rest hat name after hname hword =>
    intro result h
    simp only [Option.some.injEq] at h
    exact h ▸ passes_of_skipTrivia hat
  | case4 => intro rest h; simp at h
  | case5 symbols hne =>
    intro result h
    simp only [Option.some.injEq] at h
    exact h ▸ passes_skipTrivia symbols
  | case6 => intro rest h; simp at h

theorem passes_afterAnnotations (hnests : Nests [] symbols) :
    Passes Symbol.mayPrecede symbols (afterAnnotations symbols) := by
  unfold afterAnnotations
  cases h : skipAnnotations false symbols with
  | none => exact Passes.refl _ symbols
  | some rest => exact passes_skipAnnotations false symbols hnests rest h

theorem head_of_skipAnnotations {symbol : Symbol} {rest later : List Symbol}
    (hsymbol : symbol.isTrivia = false)
    (h : skipAnnotations false (symbol :: rest) = some later) : symbol = .atSign := by
  have hskip : skipTrivia (symbol :: rest) = symbol :: rest :=
    List.dropWhile_cons_of_neg (by simp [hsymbol])
  unfold skipAnnotations at h
  split at h
  · rename_i hat
    rw [hskip] at hat
    exact (List.cons.inj hat).1
  · simp at h

end Annotations

end Outline

end UnusedImports
