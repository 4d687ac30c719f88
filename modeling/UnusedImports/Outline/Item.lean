import UnusedImports.Outline.Phrase

/-!
Body items. What is neither a package clause nor an import is a type declaration, whose
members are body items again, or else a statement, which is never looked into and ends at
the end of its line or at a semicolon outside brackets.
-/
namespace UnusedImports.Outline

inductive Item where
  | statement (tokens : Extent)
  /-- A type declaration: `header` is everything before the brace that opens the body. -/
  | declaration (tokens header : Extent) (members : List Item)

namespace Item

def tokens : Item → Extent
  | statement tokens => tokens
  | declaration tokens _ _ => tokens

end Item

def isSeparator (symbol : Symbol) : Bool := symbol.isTrivia || symbol == .semicolon

/-- Whether a symbol may stand before the word that opens a type declaration: a modifier, or
a hyphen inside one. -/
def isModifier : Symbol → Bool
  | .minus => true
  | .identifier name => Lexicon.isModifier name
  | .keyword word => Lexicon.isModifier word
  | _ => false

def opensType : Symbol → Bool
  | .identifier name => name == "record"
  | .keyword word => Lexicon.opensType word
  | _ => false

/-- What follows annotations, or just the sign of one where none can be read. -/
def passAnnotations (rest : List Symbol) : List Symbol :=
  (skipAnnotations false (.atSign :: rest)).getD rest

theorem length_passAnnotations (rest : List Symbol) :
    (passAnnotations rest).length ≤ rest.length := by
  unfold passAnnotations
  cases h : skipAnnotations false (.atSign :: rest) with
  | none => exact Nat.le_refl _
  | some after =>
    have := length_skipAnnotations false _ _ h
    simp only [Option.getD_some]
    simp only [Bool.false_eq_true, ↓reduceIte, List.length_cons] at this
    omega

/-- What follows the word that opens a type declaration. Before it may stand modifiers and
annotations; the sign of an annotation before `interface` declares an annotation type. -/
def afterTypeWord? (symbols : List Symbol) : Option (List Symbol) :=
  match _h : skipTrivia symbols with
  | [] => none
  | symbol :: rest =>
    if isModifier symbol then afterTypeWord? rest
    else if symbol = .atSign then
      if (skipTrivia rest).head? = some (.keyword "interface") then some (skipTrivia rest).tail
      else afterTypeWord? (passAnnotations rest)
    else if opensType symbol then some rest
    else none
termination_by symbols.length
decreasing_by
  all_goals
    have := length_of_skipTrivia _h
    have := length_passAnnotations rest
    omega

/-- What follows the brace that opens a body. Groups in round and square brackets are
passed over; a semicolon or a closing brace before it means that there is no body. -/
def afterBodyBrace? (symbols : List Symbol) : Option (List Symbol) :=
  match _h : skipTrivia symbols with
  | [] => none
  | symbol :: rest =>
    if symbol = .opening .curly then some rest
    else if symbol = .semicolon ∨ symbol = .closing .curly then none
    else if symbol = .opening .round ∨ symbol = .opening .square then
      afterBodyBrace? (afterGroup rest)
    else afterBodyBrace? rest
termination_by symbols.length
decreasing_by
  all_goals
    have := length_of_skipTrivia _h
    have := length_afterGroup rest
    omega

/-- What follows the brace that opens the body of the type declaration that the symbols
start with: annotations and modifiers, the word that opens it, and a name come first. -/
def typeBody? (symbols : List Symbol) : Option (List Symbol) :=
  match afterTypeWord? (afterAnnotations symbols) with
  | some rest =>
    match skipTrivia rest with
    | .identifier _ :: after => afterBodyBrace? after
    | _ => none
  | none => none

/-- The symbols from the end of a statement on: from the next line end or semicolon that
stands outside brackets. -/
def statementEnd (symbols : List Symbol) : List Symbol :=
  match symbols with
  | [] => []
  | symbol :: rest =>
    match symbol with
    | .newline | .semicolon => symbol :: rest
    | .opening _ => statementEnd (afterGroup rest)
    | _ => statementEnd rest
termination_by symbols.length
decreasing_by
  all_goals
    have := length_afterGroup rest
    simp only [List.length_cons]
    omega

def afterStatement (symbol : Symbol) (rest : List Symbol) : List Symbol :=
  match symbol with
  | .opening _ => statementEnd (afterGroup rest)
  | _ => statementEnd rest

theorem length_afterTypeWord (symbols : List Symbol) :
    ∀ rest, afterTypeWord? symbols = some rest → rest.length < symbols.length := by
  fun_induction afterTypeWord? symbols with
  | case1 => intro result h; simp at h
  | case2 symbols symbol rest hskip hmod ih =>
    intro result h
    have := length_of_skipTrivia hskip
    have := ih result h
    omega
  | case3 symbols rest hinterface hskip hmod =>
    intro result h
    simp only [Option.some.injEq] at h
    have := length_of_skipTrivia hskip
    have := length_skipTrivia rest
    simp only [← h, List.length_tail]
    omega
  | case4 symbols rest hinterface hskip hmod ih =>
    intro result h
    have := length_of_skipTrivia hskip
    have := length_passAnnotations rest
    have := ih result h
    omega
  | case5 symbols symbol rest hskip hmod hat hopens =>
    intro result h
    simp only [Option.some.injEq] at h
    have := length_of_skipTrivia hskip
    simpa only [← h] using this
  | case6 => intro result h; simp at h

theorem length_afterBodyBrace (symbols : List Symbol) :
    ∀ rest, afterBodyBrace? symbols = some rest → rest.length < symbols.length := by
  fun_induction afterBodyBrace? symbols with
  | case1 => intro result h; simp at h
  | case2 symbols rest hskip =>
    intro result h
    simp only [Option.some.injEq] at h
    have := length_of_skipTrivia hskip
    simpa only [← h] using this
  | case3 => intro result h; simp at h
  | case4 symbols symbol rest hskip hcurly hstop hgroup ih =>
    intro result h
    have := length_of_skipTrivia hskip
    have := length_afterGroup rest
    have := ih result h
    omega
  | case5 symbols symbol rest hskip hcurly hstop hgroup ih =>
    intro result h
    have := length_of_skipTrivia hskip
    have := ih result h
    omega

theorem length_typeBody {symbols rest : List Symbol} (h : typeBody? symbols = some rest) :
    rest.length < symbols.length := by
  unfold typeBody? at h
  split at h
  · rename_i after hword
    have := length_afterTypeWord _ _ hword
    have := length_afterAnnotations symbols
    split at h
    · rename_i name after' hname
      have := length_of_skipTrivia hname
      have := length_afterBodyBrace _ _ h
      omega
    · simp at h
  · simp at h

theorem length_statementEnd (symbols : List Symbol) :
    (statementEnd symbols).length ≤ symbols.length := by
  fun_induction statementEnd symbols with
  | case1 => exact Nat.le_refl _
  | case2 => exact Nat.le_refl _
  | case3 => exact Nat.le_refl _
  | case4 rest bracket ih =>
    have := length_afterGroup rest
    simp only [List.length_cons]
    omega
  | case5 symbol rest _ _ _ ih =>
    simp only [List.length_cons]
    omega

theorem length_afterStatement (symbol : Symbol) (rest : List Symbol) :
    (afterStatement symbol rest).length ≤ rest.length := by
  unfold afterStatement
  split
  · have := length_afterGroup rest
    have := length_statementEnd (afterGroup rest)
    omega
  · exact length_statementEnd rest

def items (stop : Nat) (symbols : List Symbol) : List Item :=
  match symbols with
  | [] => []
  | symbol :: rest =>
    if isSeparator symbol then items stop rest
    else
      match _h : typeBody? (symbol :: rest) with
      | some body =>
        let after := (splitGroup 0 body).2
        .declaration ⟨stop - (rest.length + 1), stop - after.length⟩
          ⟨stop - (rest.length + 1), stop - (body.length + 1)⟩
          (items (stop - (after.length + 1)) (splitGroup 0 body).1) :: items stop after
      | none =>
        .statement ⟨stop - (rest.length + 1), stop - (afterStatement symbol rest).length⟩ ::
          items stop (afterStatement symbol rest)
termination_by symbols.length
decreasing_by
  · exact Nat.lt_succ_self _
  · have := length_typeBody _h
    have := length_splitGroup 0 body
    omega
  · have := length_typeBody _h
    have := length_splitGroup 0 body
    omega
  · have := length_afterStatement symbol rest
    simp only [List.length_cons]
    omega

def firstItem (stop : Nat) (symbol : Symbol) (rest : List Symbol) : Item × List Symbol :=
  match typeBody? (symbol :: rest) with
  | some body =>
    let after := (splitGroup 0 body).2
    (.declaration ⟨stop - (rest.length + 1), stop - after.length⟩
      ⟨stop - (rest.length + 1), stop - (body.length + 1)⟩
      (items (stop - (after.length + 1)) (splitGroup 0 body).1), after)
  | none =>
    (.statement ⟨stop - (rest.length + 1), stop - (afterStatement symbol rest).length⟩,
      afterStatement symbol rest)

theorem length_firstItem (stop : Nat) (symbol : Symbol) (rest : List Symbol) :
    (firstItem stop symbol rest).2.length ≤ rest.length := by
  unfold firstItem
  split
  · rename_i body h
    have := length_typeBody h
    have := length_splitGroup 0 body
    simp only [List.length_cons] at *
    omega
  · exact length_afterStatement symbol rest

end UnusedImports.Outline
