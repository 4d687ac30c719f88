import UnusedImports.Proofs.Safety

/-!
Which imports are removed, by position. The removed imports are those that the last round does
not keep. A policy that protects more closes off more choices of imports, and the imports kept
are the least closed choice, so with it no import goes that would have stayed without it.
-/
namespace UnusedImports

namespace Analysis

def unusedPositions (analysis : Analysis) : List Nat :=
  (List.range analysis.settlement.decisions.length).filter fun position =>
    !Settlement.keeps analysis.settlement.decisions position

section Positions

variable {policy : Policy} {source : Source}

theorem length_decisions :
    (ofSource policy source).settlement.decisions.length = source.declarations.length := by
  rw [decisions_ofSource, Settlement.length_judge]

theorem mem_unusedPositions {position : Nat} :
    position ∈ (ofSource policy source).unusedPositions ↔
      position < source.declarations.length ∧
        Settlement.keeps (ofSource policy source).settlement.decisions position = false := by
  unfold unusedPositions
  rw [List.mem_filter, List.mem_range, length_decisions, Bool.not_eq_true']

/-- The declarations at the positions that a list of decisions does not keep. -/
theorem unused_eq_filterMap (decisions : List Decision) :
    Decision.unused decisions =
      ((List.range decisions.length).filter fun position =>
        !Settlement.keeps decisions position).filterMap fun position =>
          (decisions.map Decision.declaration)[position]? := by
  induction decisions with
  | nil => rfl
  | cons decision decisions ih =>
    have hshift : (List.range (decision :: decisions).length).filter (fun position =>
        !Settlement.keeps (decision :: decisions) position) =
          (if decision.verdict.isRemove then [0] else []) ++
            ((List.range decisions.length).filter fun position =>
              !Settlement.keeps decisions position).map (· + 1) := by
      rw [List.length_cons, List.range_succ_eq_map, List.filter_cons, List.filter_map]
      cases hremove : decision.verdict.isRemove <;>
        simp [Settlement.keeps, hremove, Function.comp_def]
    unfold Decision.unused at ih ⊢
    rw [hshift, List.filterMap_append, List.filterMap_map, List.filter_cons]
    cases hremove : decision.verdict.isRemove with
    | true => simpa [Function.comp_def] using ih
    | false => simpa [Function.comp_def] using ih

theorem map_declaration_ofSource :
    (ofSource policy source).settlement.decisions.map Decision.declaration =
      source.declarations := by
  rw [decisions_ofSource, Decision.judge, List.map_map]
  exact List.map_id _

/-- The imports that are removed are those at these positions. -/
theorem unused_ofSource :
    (ofSource policy source).unused =
      (ofSource policy source).unusedPositions.filterMap fun position =>
        source.declarations[position]? := by
  unfold unused unusedPositions
  rw [unused_eq_filterMap, map_declaration_ofSource]

theorem unusedPositions_eq_nil_iff :
    (ofSource policy source).unusedPositions = [] ↔ (ofSource policy source).unused = [] := by
  constructor
  · intro hnone
    rw [unused_ofSource, hnone, List.filterMap_nil]
  · intro hunused
    rw [unused_ofSource, List.filterMap_eq_nil_iff] at hunused
    apply List.eq_nil_iff_forall_not_mem.mpr
    intro position hmem
    have hposition := (mem_unusedPositions.mp hmem).1
    have hnone := List.getElem?_eq_none_iff.mp (hunused position hmem)
    omega

/-- The bytes that are removed, by the positions of the imports. -/
theorem extents_unused (policy : Policy) (source : Source) :
    (ofSource policy source).unused.map (fun declaration => declaration.span.extent) =
      (ofSource policy source).unusedPositions.filterMap fun position =>
        source.outline.imports[position]?.map fun statement =>
          Token.bytesOf source.tokens statement.tokens := by
  rw [unused_ofSource, List.map_filterMap]
  congr 1
  funext position
  rw [Source.declarations, List.getElem?_map, Option.map_map]
  rfl

end Positions

end Analysis

def removedPositions (policy : Policy) (text : String) : List Nat :=
  match analyze policy text with
  | .ok analysis => analysis.unusedPositions
  | .error _ => []

section Outcomes

variable (policy : Policy) {text : String}

theorem trim_of_failure {failure : Failure} (h : Source.read text.toList = .error failure) :
    (trim policy text).code = text ∧ (trim policy text).removed = [] ∧
      removedPositions policy text = [] := by
  unfold trim removedPositions analyze
  rw [h]
  exact ⟨rfl, rfl, rfl⟩

/-- What trimming does to a text that can be read. -/
theorem trim_of_read {source : Source} (h : Source.read text.toList = .ok source) :
    (trim policy text).code =
        (if (Analysis.ofSource policy source).unusedPositions = [] then text
          else String.ofList (Analysis.ofSource policy source).trimmedText) ∧
      (trim policy text).removed = (Analysis.ofSource policy source).unused ∧
      removedPositions policy text = (Analysis.ofSource policy source).unusedPositions := by
  unfold trim removedPositions analyze
  rw [h]
  refine ⟨?_, ?_, rfl⟩
  · simp only [Except.map, Trimmed.ofAnalysis, Analysis.unusedPositions_eq_nil_iff,
      List.isEmpty_iff]
    split
    · rfl
    · rfl
  · simp only [Except.map, Trimmed.ofAnalysis, List.isEmpty_iff]
    split
    · rename_i hnone
      rw [hnone]
      rfl
    · rfl

theorem removedPositions_eq_nil_iff :
    removedPositions policy text = [] ↔ (trim policy text).removed = [] := by
  cases hread : Source.read text.toList with
  | error failure =>
    obtain ⟨-, hremoved, hpositions⟩ := trim_of_failure policy hread
    exact iff_of_true hpositions hremoved
  | ok source =>
    obtain ⟨-, hremoved, hpositions⟩ := trim_of_read policy hread
    rw [hremoved, hpositions, Analysis.unusedPositions_eq_nil_iff]

/-- A text from which nothing is removed is left as it is. -/
theorem code_trim_of_removed_nil (h : (trim policy text).removed = []) :
    (trim policy text).code = text := by
  cases hread : Source.read text.toList with
  | error failure => exact (trim_of_failure policy hread).1
  | ok source =>
    obtain ⟨hcode, hremoved, -⟩ := trim_of_read policy hread
    rw [hcode, if_pos (Analysis.unusedPositions_eq_nil_iff.mpr (hremoved ▸ h))]

end Outcomes

namespace Policy

/-- A policy protects whatever another one protects: it has all its patterns and keeps what the
other keeps. -/
structure Extends (policy other : Policy) : Prop where
  preserve : ∀ pattern ∈ other.preserve, pattern ∈ policy.preserve
  keepStaticWildcards : other.keepStaticWildcards = true → policy.keepStaticWildcards = true
  keepAnnotated : other.keepAnnotated = true → policy.keepAnnotated = true

variable {policy other : Policy}

theorem Extends.allows (h : policy.Extends other) {path : String}
    (hallows : other.allows path = true) : policy.allows path = true := by
  obtain ⟨pattern, hmem, hcovers⟩ := List.any_eq_true.mp hallows
  exact List.any_eq_true.mpr ⟨pattern, h.preserve pattern hmem, hcovers⟩

theorem Extends.protects (h : policy.Extends other) {declaration : ImportDeclaration}
    (hprotects : other.protects declaration = true) : policy.protects declaration = true := by
  unfold Policy.protects at hprotects ⊢
  simp only [Bool.or_eq_true, Bool.and_eq_true] at hprotects ⊢
  rcases hprotects with ((hallows | hannotated) | hwildcard) | hstatic
  · exact Or.inl (Or.inl (Or.inl (h.allows hallows)))
  · exact Or.inl (Or.inl (Or.inr ⟨hannotated.1, h.keepAnnotated hannotated.2⟩))
  · exact Or.inl (Or.inr hwildcard)
  · exact Or.inr ⟨hstatic.1, h.keepStaticWildcards hstatic.2⟩

end Policy

namespace Settlement

variable {policy other : Policy} {declarations : List ImportDeclaration}

/-- A round under a policy that protects more keeps more. -/
theorem keeps_of_extends (h : policy.Extends other) {references : List Reference} {position : Nat}
    (hkeeps : keeps (Decision.judge other declarations references) position = true) :
    keeps (Decision.judge policy declarations references) position = true := by
  rw [keeps_judge] at hkeeps ⊢
  obtain ⟨declaration, hdeclaration, hprotected | hused⟩ := hkeeps
  · exact ⟨declaration, hdeclaration, Or.inl (h.protects hprotected)⟩
  · exact ⟨declaration, hdeclaration, Or.inr hused⟩

/-- What is closed under a policy is closed under every policy that protects less. -/
theorem Closed.of_extends (h : policy.Extends other) {body : List Reference}
    {own : List (List Reference)} {chosen : Finset Nat}
    (hclosed : Closed policy declarations body own chosen) :
    Closed other declarations body own chosen := by
  intro position hmem
  apply hclosed
  rw [mem_keptPositions] at hmem ⊢
  exact keeps_of_extends h hmem

end Settlement

namespace Analysis

/-- What is kept under a policy is kept under every policy that protects more. -/
theorem keeps_ofSource_of_extends {policy other : Policy} (h : policy.Extends other)
    {source : Source} {position : Nat}
    (hkeeps : Settlement.keeps (ofSource other source).settlement.decisions position = true) :
    Settlement.keeps (ofSource policy source).settlement.decisions position = true := by
  have hlength := source.length_annotationReferences
  have hleast := Settlement.isLeast_keptPositions other source.declarations source.bodyReferences
    source.annotationReferences hlength
  have hclosed := (Settlement.isLeast_keptPositions policy source.declarations
    source.bodyReferences source.annotationReferences hlength).1
  have hsubset := hleast.2 (Settlement.Closed.of_extends h hclosed)
  exact Settlement.mem_keptPositions.mp (hsubset (Settlement.mem_keptPositions.mpr hkeeps))

/-- A source that can be analysed under a policy can be analysed under one that protects more,
and the imports removed then are among those removed before. -/
theorem unusedPositions_subset_of_extends {policy other : Policy} (h : policy.Extends other)
    {text : String} {analysis : Analysis} (hanalyze : analyze other text = .ok analysis) :
    ∃ guarded, analyze policy text = .ok guarded ∧
      guarded.unusedPositions ⊆ analysis.unusedPositions := by
  unfold analyze at hanalyze ⊢
  obtain ⟨source, hread, rfl⟩ := Outline.exists_of_map_eq_ok hanalyze
  refine ⟨ofSource policy source, by rw [hread]; rfl, ?_⟩
  intro position hunused
  rw [mem_unusedPositions] at hunused ⊢
  refine ⟨hunused.1, ?_⟩
  cases hkeeps : Settlement.keeps (ofSource other source).settlement.decisions position with
  | false => rfl
  | true => simp [keeps_ofSource_of_extends h hkeeps] at hunused

/-- To preserve an annotated import also keeps the import that its annotation names. -/
theorem unusedPositions_subset_of_extends_annotated :
    ∃ analysis guarded,
      Policy.Extends ⟨["c.*"], false, false⟩ ⟨[], false, false⟩ ∧
      analyze ⟨[], false, false⟩ "import a.B\nimport static m.N.*\n@B import c.D\n" =
        .ok analysis ∧
      analyze ⟨["c.*"], false, false⟩ "import a.B\nimport static m.N.*\n@B import c.D\n" =
        .ok guarded ∧
      analysis.unusedPositions = [0, 1, 2] ∧ guarded.unusedPositions = [1] ∧
      guarded.unusedPositions ⊆ analysis.unusedPositions := by
  have hextends : Policy.Extends ⟨["c.*"], false, false⟩ ⟨[], false, false⟩ :=
    ⟨by simp, by simp, by simp⟩
  have hrun : ((analyze ⟨[], false, false⟩
      "import a.B\nimport static m.N.*\n@B import c.D\n").toOption.any fun analysis =>
        (analyze ⟨["c.*"], false, false⟩
          "import a.B\nimport static m.N.*\n@B import c.D\n").toOption.any fun guarded =>
            analysis.unusedPositions == [0, 1, 2] && guarded.unusedPositions == [1]) = true := by
    decide +kernel
  generalize "import a.B\nimport static m.N.*\n@B import c.D\n" = text at hrun ⊢
  cases hanalyze : analyze ⟨[], false, false⟩ text with
  | error failure => simp [hanalyze, Except.toOption] at hrun
  | ok analysis =>
    obtain ⟨guarded, hguarded, hsubset⟩ := unusedPositions_subset_of_extends hextends hanalyze
    simp only [hanalyze, hguarded, Except.toOption, Option.any_some, Bool.and_eq_true,
      beq_iff_eq] at hrun
    exact ⟨analysis, guarded, hextends, rfl, hguarded, hrun.1, hrun.2, hsubset⟩

end Analysis

end UnusedImports
