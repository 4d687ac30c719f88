import UnusedImports.Outline.Nesting

/-!
Phrases that several parts of a source share: dotted names and annotations. A position in
a source is given by the symbols from it on, so reading a phrase maps the symbols at its
start to the symbols after it.
-/
namespace UnusedImports.Outline

def skipTrivia (symbols : List Symbol) : List Symbol := symbols.dropWhile Symbol.isTrivia

/-- The symbols from the next one on that is neither white space nor a comment: the next
of the same line, or the line end. -/
def skipGap (symbols : List Symbol) : List Symbol := symbols.dropWhile (· == .gap)

theorem length_skipTrivia (symbols : List Symbol) :
    (skipTrivia symbols).length ≤ symbols.length :=
  (List.dropWhile_sublist _).length_le

theorem length_skipGap (symbols : List Symbol) : (skipGap symbols).length ≤ symbols.length :=
  (List.dropWhile_sublist _).length_le

theorem length_of_skipTrivia {symbols rest : List Symbol} {symbol : Symbol}
    (h : skipTrivia symbols = symbol :: rest) : rest.length < symbols.length := by
  have shorter := length_skipTrivia symbols
  rw [h, List.length_cons] at shorter
  exact shorter

theorem length_of_skipGap {symbols rest : List Symbol} {symbol : Symbol}
    (h : skipGap symbols = symbol :: rest) : rest.length < symbols.length := by
  have shorter := length_skipGap symbols
  rw [h, List.length_cons] at shorter
  exact shorter

/-- The further words of a dotted name on the line, and what follows the last of them. A
dot that no word follows is left alone. -/
def dottedRest (symbols : List Symbol) : List String × List Symbol :=
  match _hdot : skipGap symbols with
  | .dot :: rest =>
    match _hword : skipGap rest with
    | symbol :: after =>
      match symbol.word? with
      | some word => (dottedRest after).map (word :: ·) id
      | none => ([], symbols)
    | [] => ([], symbols)
  | _ => ([], symbols)
termination_by symbols.length
decreasing_by
  all_goals
    have := length_of_skipGap _hdot
    have := length_of_skipGap _hword
    omega

def dottedName? (symbols : List Symbol) : Option (List String × List Symbol) :=
  match skipGap symbols with
  | symbol :: after =>
    symbol.word?.map fun word => (dottedRest after).map (word :: ·) id
  | [] => none

theorem length_dottedRest (symbols : List Symbol) :
    (dottedRest symbols).2.length ≤ symbols.length := by
  fun_induction dottedRest symbols with
  | case1 symbols rest hdot symbol after hword word hw ih =>
    have := length_of_skipGap hdot
    have := length_of_skipGap hword
    simp only [Prod.map_snd, id]
    omega
  | case2 => exact Nat.le_refl _
  | case3 => exact Nat.le_refl _
  | case4 => exact Nat.le_refl _

theorem length_dottedName {symbols : List Symbol} {name : List String × List Symbol}
    (h : dottedName? symbols = some name) : name.2.length < symbols.length := by
  unfold dottedName? at h
  split at h
  · rename_i symbol rest hskip
    obtain ⟨word, _, hname⟩ := Option.map_eq_some_iff.mp h
    have := length_of_skipGap hskip
    have := length_dottedRest rest
    rw [← hname]
    simp only [Prod.map_snd, id]
    omega
  · simp at h

def skipArguments (symbols : List Symbol) : List Symbol :=
  match skipGap symbols with
  | .opening .round :: rest => afterGroup rest
  | _ => symbols

theorem length_skipArguments (symbols : List Symbol) :
    (skipArguments symbols).length ≤ symbols.length := by
  unfold skipArguments
  split
  · rename_i rest h
    have := length_of_skipGap h
    have := length_afterGroup rest
    omega
  · exact Nat.le_refl _

/-- What follows the annotations that the symbols start with, from the next symbol on that
is not trivia. There is no answer when no annotation stands there, unless some were `found`
before, nor when the last thing in the source is the sign of an annotation without a name.
The declaration of an annotation type is not an annotation. -/
def skipAnnotations (found : Bool) (symbols : List Symbol) : Option (List Symbol) :=
  match _hat : skipTrivia symbols with
  | .atSign :: rest =>
    match _hname : skipTrivia rest with
    | [] => none
    | name :: after =>
      if name.word?.isSome ∧ name ≠ .keyword "interface" then
        skipAnnotations true (skipArguments (dottedRest after).2)
      else if found then some (.atSign :: rest) else none
  | rest => if found then some rest else none
termination_by symbols.length
decreasing_by
  have := length_of_skipTrivia _hat
  have := length_of_skipTrivia _hname
  have := length_dottedRest after
  have := length_skipArguments (dottedRest after).2
  omega

theorem length_skipAnnotations (found : Bool) (symbols : List Symbol) :
    ∀ rest, skipAnnotations found symbols = some rest →
      rest.length + (if found then 0 else 1) ≤ symbols.length := by
  fun_induction skipAnnotations found symbols with
  | case1 => intro rest h; simp at h
  | case2 found symbols rest hat name after hname hword ih =>
    intro result h
    have := ih result h
    have := length_of_skipTrivia hat
    have := length_of_skipTrivia hname
    have := length_dottedRest after
    have := length_skipArguments (dottedRest after).2
    split <;> simp_all <;> omega
  | case3 symbols rest hat name after hname hword =>
    intro result h
    have := length_skipTrivia symbols
    simp only [Option.some.injEq] at h
    subst h
    simpa [hat] using this
  | case4 => intro rest h; simp at h
  | case5 symbols hne =>
    intro result h
    simp only [Option.some.injEq] at h
    subst h
    simpa using length_skipTrivia symbols
  | case6 => intro rest h; simp at h

def afterAnnotations (symbols : List Symbol) : List Symbol :=
  (skipAnnotations false symbols).getD symbols

theorem length_afterAnnotations (symbols : List Symbol) :
    (afterAnnotations symbols).length ≤ symbols.length := by
  unfold afterAnnotations
  cases h : skipAnnotations false symbols with
  | none => exact Nat.le_refl _
  | some rest =>
    have := length_skipAnnotations false symbols rest h
    simp only [Option.getD_some]
    simp at this
    omega

end UnusedImports.Outline
