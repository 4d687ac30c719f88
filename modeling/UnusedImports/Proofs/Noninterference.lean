import UnusedImports.Proofs.Removal

/-!
What the verdicts depend on. Two texts whose tokens agree in kind and depth, and in text where
they are names, words or operators, have the same symbols, so the same outline and the same uses
of names. The places of declarations and references differ, but no verdict looks at a place: the
rounds of settling keep step with each other, and the same imports are removed. So neither
comments nor white space, numbers or the text of literals have any influence.
-/
namespace UnusedImports

namespace Token

/-- Two tokens differ at most in text that does not matter, and in where they stand. -/
structure Alike (token other : Token) : Prop where
  kind : other.kind = token.kind
  depth : other.depth = token.depth
  text : token.kind = .identifier ∨ token.kind = .keyword ∨ token.kind = .operator →
    other.text = token.text

instance (token other : Token) : Decidable (token.Alike other) :=
  decidable_of_iff
    (other.kind = token.kind ∧ other.depth = token.depth ∧
      (token.kind = .identifier ∨ token.kind = .keyword ∨ token.kind = .operator →
        other.text = token.text))
    ⟨fun ⟨hkind, hdepth, htext⟩ => ⟨hkind, hdepth, htext⟩, fun h => ⟨h.kind, h.depth, h.text⟩⟩

theorem Alike.symbol {token other : Token} (h : token.Alike other) :
    other.symbol = token.symbol := by
  unfold Token.symbol
  rw [h.kind]
  cases hkind : token.kind with
  | identifier | keyword | operator => simp only [h.text (by simp [hkind])]
  | _ => rfl

theorem sites_of_alike {tokens others : List Token} (h : List.Forall₂ Alike tokens others) :
    (others.map fun token => (token.symbol, token.depth)) =
      tokens.map fun token => (token.symbol, token.depth) := by
  induction h with
  | nil => rfl
  | cons halike _ ih => rw [List.map_cons, List.map_cons, ih, halike.symbol, halike.depth]

theorem symbols_of_alike {tokens others : List Token} (h : List.Forall₂ Alike tokens others) :
    others.map Token.symbol = tokens.map Token.symbol := by
  have hsites := congrArg (List.map Prod.fst) (sites_of_alike h)
  rwa [List.map_map, List.map_map] at hsites

end Token

namespace Reference

def use (reference : Reference) : Use := ⟨reference.name, reference.context⟩

theorem length_usesFrom (before : Option Symbol) (sites : List Site) :
    (usesFrom before sites).length = sites.length := by
  induction sites generalizing before with
  | nil => rfl
  | cons site rest ih => rw [usesFrom, List.length_cons, List.length_cons, ih]

/-- The references at the tokens make the uses found there. -/
theorem map_use_ofTokens (locate : Extent → Span) (tokens : List Token) :
    (ofTokens locate tokens).map (Option.map use) = uses tokens := by
  have hlength : (uses tokens).length = tokens.length := by
    unfold uses
    rw [length_usesFrom, List.length_map]
  unfold ofTokens
  generalize uses tokens = found at hlength ⊢
  induction tokens generalizing found with
  | nil => simp [List.length_eq_zero_iff.mp hlength]
  | cons token tokens ih =>
    cases found with
    | nil => simp at hlength
    | cons first found =>
      rw [List.zipWith_cons_cons, List.map_cons, ih found (by simpa using hlength), Option.map_map]
      congr 1
      cases first <;> rfl

theorem map_use_within (references : List (Option Reference)) (extent : Extent) :
    (within references extent).map use =
      (extent.slice (references.map (Option.map use))).filterMap id := by
  unfold within Extent.slice
  rw [List.map_filterMap, ← List.map_drop, ← List.map_take, List.filterMap_map]
  rfl

/-- References that make the same uses in the same order. -/
theorem exists_use_eq {references others : List Reference}
    (h : others.map use = references.map use) {reference : Reference}
    (hmem : reference ∈ references) : ∃ other ∈ others, other.use = reference.use := by
  have huse : reference.use ∈ others.map use := by
    rw [h]
    exact List.mem_map_of_mem hmem
  exact List.mem_map.mp huse

end Reference

namespace Decision

/-- Whether the import of a statement is used depends neither on its place nor on the place of
the reference. -/
theorem isUsedBy_ofStatement {locate relocate : Extent → Span} {names : List String}
    {statement : ImportStatement} {reference other : Reference}
    (h : other.use = reference.use) :
    isUsedBy names (.ofStatement relocate statement) other =
      isUsedBy names (.ofStatement locate statement) reference := by
  obtain ⟨hname, hcontext⟩ := Use.mk.inj h
  unfold isUsedBy mayBeMember
  rw [hname, hcontext]
  rfl

theorem staticNames_ofStatement (locate relocate : Extent → Span)
    (imports : List ImportStatement) :
    staticNames (imports.map (.ofStatement relocate)) =
      staticNames (imports.map (.ofStatement locate)) := by
  unfold staticNames
  rw [List.filterMap_map, List.filterMap_map]
  rfl

/-- An import kept by some references is kept by others that make the same uses. -/
theorem isRemove_of_uses {policy : Policy} {locate relocate : Extent → Span}
    {references others : List Reference}
    (h : others.map Reference.use = references.map Reference.use)
    {names : List String} {statement : ImportStatement}
    (hkept : (verdictOn policy references names (.ofStatement locate statement)).isRemove = false) :
    (verdictOn policy others names (.ofStatement relocate statement)).isRemove = false := by
  rw [isRemove_verdictOn] at hkept ⊢
  rcases hkept with hprotected | ⟨reference, hmem, hused⟩
  · exact Or.inl hprotected
  · obtain ⟨other, hother, huse⟩ := Reference.exists_use_eq h hmem
    exact Or.inr ⟨other, hother, by rwa [isUsedBy_ofStatement huse]⟩

/-- What a round removes does not depend on places. -/
theorem removals_judge (policy : Policy) (locate relocate : Extent → Span)
    (imports : List ImportStatement) {references others : List Reference}
    (h : others.map Reference.use = references.map Reference.use) :
    (judge policy (imports.map (.ofStatement relocate)) others).map
        (fun decision => decision.verdict.isRemove) =
      (judge policy (imports.map (.ofStatement locate)) references).map
        fun decision => decision.verdict.isRemove := by
  unfold judge
  rw [staticNames_ofStatement locate relocate]
  simp only [List.map_map]
  apply List.map_congr_left
  intro statement _
  rw [Bool.eq_iff_iff, ← Bool.not_eq_false, ← Bool.not_eq_false, not_iff_not]
  exact ⟨isRemove_of_uses h.symm, isRemove_of_uses h⟩

end Decision

namespace Settlement

section Rounds

variable {decisions others : List Decision} {waiting left : List (List Reference)}

/-- The uses that a round adds are told by what it removes and by the uses that wait. -/
theorem map_use_joining
    (hremovals : others.map (fun decision => decision.verdict.isRemove) =
      decisions.map fun decision => decision.verdict.isRemove)
    (hwaiting : left.map (List.map Reference.use) = waiting.map (List.map Reference.use)) :
    (joining others left).map Reference.use = (joining decisions waiting).map Reference.use := by
  have htold : ∀ (decisions : List Decision) (waiting : List (List Reference)),
      (joining decisions waiting).map Reference.use =
        (List.zipWith (fun isRemove own => if isRemove then [] else own)
          (decisions.map fun decision => decision.verdict.isRemove)
          (waiting.map (List.map Reference.use))).flatten := by
    intro decisions waiting
    unfold joining
    rw [List.map_flatten, List.map_zipWith, List.zipWith_map]
    congr 2
    funext decision own
    split <;> rfl
  rw [htold, htold, hremovals, hwaiting]

theorem map_use_stillWaiting
    (hremovals : others.map (fun decision => decision.verdict.isRemove) =
      decisions.map fun decision => decision.verdict.isRemove)
    (hwaiting : left.map (List.map Reference.use) = waiting.map (List.map Reference.use)) :
    (stillWaiting others left).map (List.map Reference.use) =
      (stillWaiting decisions waiting).map (List.map Reference.use) := by
  have htold : ∀ (decisions : List Decision) (waiting : List (List Reference)),
      (stillWaiting decisions waiting).map (List.map Reference.use) =
        List.zipWith (fun isRemove own => if isRemove then own else [])
          (decisions.map fun decision => decision.verdict.isRemove)
          (waiting.map (List.map Reference.use)) := by
    intro decisions waiting
    unfold stillWaiting
    rw [List.map_zipWith, List.zipWith_map]
    congr 1
    funext decision own
    split <;> rfl
  rw [htold, htold, hremovals, hwaiting]

theorem keeps_of_removals
    (hremovals : others.map (fun decision => decision.verdict.isRemove) =
      decisions.map fun decision => decision.verdict.isRemove) (position : Nat) :
    keeps others position = keeps decisions position := by
  have htold : ∀ decisions : List Decision, keeps decisions position =
      (decisions.map fun decision => decision.verdict.isRemove)[position]?.any (!·) := by
    intro decisions
    unfold keeps
    rw [List.getElem?_map, Option.any_map]
  rw [htold, htold, hremovals]

end Rounds

/-- Settling keeps step on references that make the same uses: every round of one is matched by
a round of the other, and both stop together. -/
theorem settle_of_uses (policy : Policy) (locate relocate : Extent → Span)
    (imports : List ImportStatement) {references others : List Reference}
    {waiting left : List (List Reference)}
    (hreferences : others.map Reference.use = references.map Reference.use)
    (hwaiting : left.map (List.map Reference.use) = waiting.map (List.map Reference.use)) :
    (settle policy (imports.map (.ofStatement relocate)) others left).references.map
        Reference.use =
      (settle policy (imports.map (.ofStatement locate)) references waiting).references.map
        Reference.use ∧
    (settle policy (imports.map (.ofStatement relocate)) others left).decisions.map
        (fun decision => decision.verdict.isRemove) =
      (settle policy (imports.map (.ofStatement locate)) references waiting).decisions.map
        fun decision => decision.verdict.isRemove := by
  -- The induction follows the rounds of the one; the other makes the same ones.
  generalize hdeclarations :
    imports.map (ImportDeclaration.ofStatement locate) = declarations
  fun_induction settle policy declarations references waiting generalizing others left with
  | case1 references waiting =>
    rename_i hadded
    subst hdeclarations
    have hremovals := Decision.removals_judge policy locate relocate imports hreferences
    have hnone : joining (Decision.judge policy (imports.map (.ofStatement relocate)) others) left =
        [] := by
      have hjoining := map_use_joining hremovals hwaiting
      rw [show joining (Decision.judge policy _ references) waiting = [] from hadded] at hjoining
      exact List.map_eq_nil_iff.mp hjoining
    rw [settle, dif_pos hnone]
    exact ⟨hreferences, hremovals⟩
  | case2 references waiting =>
    rename_i hadded later ih
    subst hdeclarations
    have hremovals := Decision.removals_judge policy locate relocate imports hreferences
    have hjoining := map_use_joining hremovals hwaiting
    have hsome : joining (Decision.judge policy (imports.map (.ofStatement relocate)) others) left ≠
        [] := by
      intro hnone
      rw [hnone, List.map_nil] at hjoining
      exact hadded (List.map_eq_nil_iff.mp hjoining.symm)
    rw [settle, dif_neg hsome]
    refine ih ?_ (map_use_stillWaiting hremovals hwaiting)
    rw [List.map_append, List.map_append, hreferences, hjoining]

end Settlement

namespace Source

structure Alike (source other : Source) : Prop where
  outline : other.outline = source.outline
  uses : Reference.uses other.tokens = Reference.uses source.tokens

variable {source other : Source}

theorem Alike.within (h : source.Alike other) (extent : Extent) :
    (Reference.within other.references extent).map Reference.use =
      (Reference.within source.references extent).map Reference.use := by
  rw [Reference.map_use_within, Reference.map_use_within]
  unfold references
  rw [Reference.map_use_ofTokens, Reference.map_use_ofTokens, h.uses]

theorem Alike.bodyReferences (h : source.Alike other) :
    other.bodyReferences.map Reference.use = source.bodyReferences.map Reference.use := by
  unfold Source.bodyReferences
  rw [h.outline, List.map_flatMap, List.map_flatMap]
  congr 1
  funext extent
  exact h.within extent

theorem Alike.annotationReferences (h : source.Alike other) :
    other.annotationReferences.map (List.map Reference.use) =
      source.annotationReferences.map (List.map Reference.use) := by
  unfold Source.annotationReferences
  rw [h.outline, List.map_map, List.map_map]
  apply List.map_congr_left
  intro statement _
  simp only [Function.comp_apply]
  cases statement.annotations with
  | none => rfl
  | some extent => exact h.within extent

/-- A text that was cut into tokens has an outline or the fault of its symbols. -/
theorem read_of_lex {text : List Char} {tokens : List Token} (h : Token.lex text = .ok tokens) :
    read text =
      match Outline.ofSymbols (tokens.map Token.symbol) with
      | .ok outline => .ok ⟨text, .ofText text, tokens, outline⟩
      | .error fault => .error
        (.parse fault.cause ((LineIndex.ofText text).span (faultExtent text tokens fault))) := by
  cases houtline : Outline.ofSymbols (tokens.map Token.symbol) with
  | ok outline => simp only [read, tokenize, h, houtline]
  | error fault => simp only [read, tokenize, h, houtline]

theorem alike_of_tokens {text rewritten : List Char} {index reindex : LineIndex}
    {tokens others : List Token} (h : List.Forall₂ Token.Alike tokens others) (outline : Outline) :
    Alike ⟨text, index, tokens, outline⟩ ⟨rewritten, reindex, others, outline⟩ where
  outline := rfl
  uses := by
    unfold Reference.uses
    rw [Token.sites_of_alike h]

end Source

namespace Analysis

structure Alike (analysis other : Analysis) : Prop where
  outline : other.source.outline = analysis.source.outline
  bodyReferences : other.bodyReferences.map Reference.use =
    analysis.bodyReferences.map Reference.use
  annotationReferences : other.source.annotationReferences.map (List.map Reference.use) =
    analysis.source.annotationReferences.map (List.map Reference.use)
  references : other.settlement.references.map Reference.use =
    analysis.settlement.references.map Reference.use
  unusedPositions : other.unusedPositions = analysis.unusedPositions

/-- The positions of the imports to be removed are told by which decisions remove. -/
theorem unusedPositions_of_removals {analysis other : Analysis}
    (h : other.settlement.decisions.map (fun decision => decision.verdict.isRemove) =
      analysis.settlement.decisions.map fun decision => decision.verdict.isRemove) :
    other.unusedPositions = analysis.unusedPositions := by
  have hlength := congrArg List.length h
  rw [List.length_map, List.length_map] at hlength
  unfold unusedPositions
  rw [hlength]
  apply List.filter_congr
  intro position _
  rw [Settlement.keeps_of_removals h]

/-- Judging keeps the agreement of sources. -/
theorem alike_ofSource (policy : Policy) {source other : Source} (h : source.Alike other) :
    (ofSource policy source).Alike (ofSource policy other) := by
  have hsettle := Settlement.settle_of_uses policy source.locateTokens other.locateTokens
    source.outline.imports h.bodyReferences h.annotationReferences
  rw [← h.outline] at hsettle
  obtain ⟨hreferences, hremovals⟩ := hsettle
  refine ⟨h.outline, h.bodyReferences, h.annotationReferences, ?_, ?_⟩
  · unfold ofSource Source.declarations
    rw [← h.outline]
    exact hreferences
  · apply unusedPositions_of_removals
    unfold ofSource Source.declarations
    rw [← h.outline]
    exact hremovals

/-- Comments, white space, numbers and the text of literals have no influence. Two texts whose
tokens agree in kind and depth, and in text where they are identifiers, keywords or operators,
are refused for the same cause or both analysed. Then their imports and bodies are the same by
the positions of tokens, the references make the same uses of names in the same order, and the
imports at the same positions are removed, whatever the policy. -/
theorem analyze_of_alike {text other : String} {tokens others : List Token}
    (hlex : Token.lex text.toList = .ok tokens) (hother : Token.lex other.toList = .ok others)
    (halike : List.Forall₂ Token.Alike tokens others) (policy : Policy) :
    (∃ cause span moved, analyze policy text = .error (.parse cause span) ∧
      analyze policy other = .error (.parse cause moved)) ∨
    ∃ analysis again, analyze policy text = .ok analysis ∧ analyze policy other = .ok again ∧
      analysis.Alike again := by
  unfold analyze
  rw [Source.read_of_lex hlex, Source.read_of_lex hother, Token.symbols_of_alike halike]
  cases Outline.ofSymbols (tokens.map Token.symbol) with
  | error fault => exact Or.inl ⟨fault.cause, _, _, rfl, rfl⟩
  | ok outline =>
    exact Or.inr ⟨_, _, rfl, rfl, alike_ofSource policy (Source.alike_of_tokens halike outline)⟩

/-- Names of imports in a comment and in a literal come and go without effect. -/
theorem analyze_of_alike_rewritten :
    ∃ tokens others analysis again,
      Token.lex "import a.B\nimport c.D\nB x = 'D' + 1 // D\n".toList = .ok tokens ∧
      Token.lex "import a.B\nimport c.D\r\nB\tx =  '\\'B' + 0xF //\n".toList = .ok others ∧
      List.Forall₂ Token.Alike tokens others ∧
      analyze ⟨[], true, true⟩ "import a.B\nimport c.D\nB x = 'D' + 1 // D\n" = .ok analysis ∧
      analyze ⟨[], true, true⟩ "import a.B\nimport c.D\r\nB\tx =  '\\'B' + 0xF //\n" = .ok again ∧
      analysis.unusedPositions = [1] ∧ analysis.Alike again := by
  have hrun : ((Token.lex "import a.B\nimport c.D\nB x = 'D' + 1 // D\n".toList).toOption.any
      fun tokens => (Token.lex
        "import a.B\nimport c.D\r\nB\tx =  '\\'B' + 0xF //\n".toList).toOption.any
          fun others => decide (List.Forall₂ Token.Alike tokens others)) = true := by
    decide +kernel
  have hunused : ((analyze ⟨[], true, true⟩
      "import a.B\nimport c.D\nB x = 'D' + 1 // D\n").toOption.any
        fun analysis => analysis.unusedPositions == [1]) = true := by decide +kernel
  generalize "import a.B\nimport c.D\nB x = 'D' + 1 // D\n" = text at hrun hunused ⊢
  generalize "import a.B\nimport c.D\r\nB\tx =  '\\'B' + 0xF //\n" = other at hrun ⊢
  cases hlex : Token.lex text.toList with
  | error fault => simp [hlex, Except.toOption] at hrun
  | ok tokens =>
    cases hother : Token.lex other.toList with
    | error fault => simp [hlex, hother, Except.toOption] at hrun
    | ok others =>
      simp only [hlex, hother, Except.toOption, Option.any_some, decide_eq_true_eq] at hrun
      rcases analyze_of_alike hlex hother hrun ⟨[], true, true⟩ with
        ⟨cause, span, moved, herror, -⟩ | ⟨analysis, again, hanalysis, hagain, halike⟩
      · simp [herror, Except.toOption] at hunused
      · simp only [hanalysis, Except.toOption, Option.any_some, beq_iff_eq] at hunused
        exact ⟨tokens, others, analysis, again, rfl, rfl, hrun, hanalysis, hagain, hunused, halike⟩

end Analysis

end UnusedImports
