import Mathlib.Data.Finset.Filter
import Mathlib.Data.Finset.Range
import Mathlib.Order.Bounds.Basic
import UnusedImports.Proofs.Verdict
import UnusedImports.Trim

/-!
What settling arrives at. The imports that have joined so far are recorded by position; the
invariant `Joined` says that the references in force are those of the body followed by those of
the joined imports, that the joined imports are all kept, and that no closed choice of imports
can leave one of them out. Every round preserves it, so the imports kept in the end are the
least choice that keeps whatever its own annotations call for.
-/
namespace UnusedImports.Settlement

def keeps (decisions : List Decision) (position : Nat) : Bool :=
  decisions[position]?.any fun decision => !decision.verdict.isRemove

def keptPositions (decisions : List Decision) : Finset Nat :=
  (Finset.range decisions.length).filter fun position => keeps decisions position

def ownAt (own : List (List Reference)) (position : Nat) : List Reference :=
  own[position]?.getD []

def ownOf (own : List (List Reference)) (chosen : Finset Nat) : List Reference :=
  ((List.range own.length).filter fun position => position ∈ chosen).flatMap (ownAt own)

/-- A choice of imports is closed when it holds every import that is kept by the references of
the body and those of the imports chosen. -/
def Closed (policy : Policy) (declarations : List ImportDeclaration) (body : List Reference)
    (own : List (List Reference)) (chosen : Finset Nat) : Prop :=
  keptPositions (Decision.judge policy declarations (body ++ ownOf own chosen)) ⊆ chosen

theorem lt_of_keeps {decisions : List Decision} {position : Nat}
    (h : keeps decisions position = true) : position < decisions.length := by
  unfold keeps at h
  by_contra hge
  rw [List.getElem?_eq_none (by omega)] at h
  simp at h

theorem mem_keptPositions {decisions : List Decision} {position : Nat} :
    position ∈ keptPositions decisions ↔ keeps decisions position = true := by
  unfold keptPositions
  rw [Finset.mem_filter, Finset.mem_range]
  exact ⟨fun h => h.2, fun h => ⟨lt_of_keeps h, h⟩⟩

theorem mem_ownOf {own : List (List Reference)} {chosen : Finset Nat} {reference : Reference} :
    reference ∈ ownOf own chosen ↔ ∃ position ∈ chosen, reference ∈ ownAt own position := by
  unfold ownOf
  simp only [List.mem_flatMap, List.mem_filter, List.mem_range, decide_eq_true_eq]
  constructor
  · intro hcase
    obtain ⟨position, ⟨-, hchosen⟩, hmem⟩ := hcase
    exact ⟨position, hchosen, hmem⟩
  · intro hcase
    obtain ⟨position, hchosen, hmem⟩ := hcase
    refine ⟨position, ⟨?_, hchosen⟩, hmem⟩
    by_contra hge
    rw [ownAt, List.getElem?_eq_none (by omega)] at hmem
    simp at hmem

@[simp]
theorem length_judge (policy : Policy) (declarations : List ImportDeclaration)
    (references : List Reference) :
    (Decision.judge policy declarations references).length = declarations.length := by
  simp [Decision.judge]

/-- An import is kept exactly when the policy protects it or a reference uses it. -/
theorem keeps_judge (policy : Policy) (declarations : List ImportDeclaration)
    (references : List Reference) (position : Nat) :
    keeps (Decision.judge policy declarations references) position = true ↔
      ∃ declaration, declarations[position]? = some declaration ∧
        (policy.protects declaration = true ∨ ∃ reference ∈ references,
          Decision.isUsedBy (Decision.staticNames declarations) declaration reference = true) := by
  unfold keeps Decision.judge
  rw [List.getElem?_map]
  cases hdeclaration : declarations[position]? with
  | none => simp
  | some declaration =>
    simp only [Option.map_some, Option.any_some, Bool.not_eq_true', Option.some.injEq,
      exists_eq_left']
    exact Decision.isRemove_verdictOn ..

/-- More references keep more imports: what a static wildcard may not be used for depends on
the imports alone. -/
theorem keeps_mono {policy : Policy} {declarations : List ImportDeclaration}
    {references others : List Reference} (hsub : ∀ reference ∈ references, reference ∈ others)
    {position : Nat} (h : keeps (Decision.judge policy declarations references) position = true) :
    keeps (Decision.judge policy declarations others) position = true := by
  rw [keeps_judge] at h ⊢
  obtain ⟨declaration, hdeclaration, hprotected | ⟨reference, hmem, hused⟩⟩ := h
  · exact ⟨declaration, hdeclaration, Or.inl hprotected⟩
  · exact ⟨declaration, hdeclaration, Or.inr ⟨reference, hsub reference hmem, hused⟩⟩

def newcomers (decisions : List Decision) (order : List Nat) : List Nat :=
  (List.range decisions.length).filter fun position =>
    keeps decisions position && !order.contains position

theorem mem_newcomers {decisions : List Decision} {order : List Nat} {position : Nat} :
    position ∈ newcomers decisions order ↔
      keeps decisions position = true ∧ position ∉ order := by
  unfold newcomers
  simp only [List.mem_filter, List.mem_range, Bool.and_eq_true, Bool.not_eq_true',
    List.contains_eq_mem, decide_eq_false_iff_not]
  exact ⟨fun h => h.2, fun h => ⟨lt_of_keeps h.1, h⟩⟩

structure Joined (policy : Policy) (declarations : List ImportDeclaration)
    (body : List Reference) (own : List (List Reference)) (order : List Nat)
    (references : List Reference) (waiting : List (List Reference)) : Prop where
  nodup : order.Nodup
  references_eq : references = body ++ order.flatMap (ownAt own)
  length_waiting : waiting.length = declarations.length
  waiting_eq : ∀ position, ownAt waiting position =
    if position ∈ order then [] else ownAt own position
  kept : ∀ position ∈ order,
    keeps (Decision.judge policy declarations references) position = true
  least : ∀ chosen, Closed policy declarations body own chosen →
    ∀ position ∈ order, position ∈ chosen

theorem Joined.start (policy : Policy) (declarations : List ImportDeclaration)
    (body : List Reference) (own : List (List Reference))
    (hlength : own.length = declarations.length) :
    Joined policy declarations body own [] body own where
  nodup := List.nodup_nil
  references_eq := by simp
  length_waiting := hlength
  waiting_eq := by simp
  kept := by simp
  least := by simp

theorem joining_eq (decisions : List Decision) (waiting : List (List Reference))
    (hlength : waiting.length = decisions.length) :
    joining decisions waiting = (List.range decisions.length).flatMap fun position =>
      if keeps decisions position then ownAt waiting position else [] := by
  unfold joining
  rw [List.flatMap_def]
  congr 1
  apply List.ext_getElem
  · simp [hlength]
  · intro position hleft hright
    simp only [List.length_map, List.length_range] at hright
    have hwaiting : position < waiting.length := by omega
    simp only [List.getElem_zipWith, List.getElem_map, List.getElem_range, keeps, ownAt,
      List.getElem?_eq_getElem hright, List.getElem?_eq_getElem hwaiting, Option.any_some,
      Option.getD_some]
    cases decisions[position].verdict.isRemove <;> simp

theorem ownAt_stillWaiting (decisions : List Decision) (waiting : List (List Reference))
    (hlength : waiting.length = decisions.length) (position : Nat) :
    ownAt (stillWaiting decisions waiting) position =
      if keeps decisions position then [] else ownAt waiting position := by
  unfold ownAt stillWaiting keeps
  rw [List.getElem?_zipWith]
  by_cases hlt : position < decisions.length
  · have hwaiting : position < waiting.length := by omega
    simp only [List.getElem?_eq_getElem hlt, List.getElem?_eq_getElem hwaiting, Option.any_some,
      Option.getD_some]
    cases decisions[position].verdict.isRemove <;> simp
  · simp [List.getElem?_eq_none (Nat.le_of_not_lt hlt),
      List.getElem?_eq_none (show waiting.length ≤ position by omega)]

/-- Positions without references may be left out of a collection. -/
theorem flatMap_filter_of_nil {positions : List Nat} {collect : Nat → List Reference}
    {test : Nat → Bool}
    (h : ∀ position ∈ positions, test position = false → collect position = []) :
    (positions.filter test).flatMap collect = positions.flatMap collect := by
  induction positions with
  | nil => rfl
  | cons position positions ih =>
    have hrest := ih fun other hother => h other (List.mem_cons_of_mem position hother)
    by_cases htest : test position = true
    · rw [List.filter_cons_of_pos htest, List.flatMap_cons, List.flatMap_cons, hrest]
    · rw [List.filter_cons_of_neg htest, List.flatMap_cons, hrest,
        h position List.mem_cons_self (by simpa using htest), List.nil_append]

section Rounds

variable {policy : Policy} {declarations : List ImportDeclaration} {body : List Reference}
  {own : List (List Reference)} {order : List Nat} {references : List Reference}
  {waiting : List (List Reference)}

theorem Joined.joining_eq (h : Joined policy declarations body own order references waiting) :
    joining (Decision.judge policy declarations references) waiting =
      (newcomers (Decision.judge policy declarations references) order).flatMap (ownAt own) := by
  rw [Settlement.joining_eq _ _ (by simpa using h.length_waiting), newcomers]
  generalize Decision.judge policy declarations references = decisions
  induction List.range decisions.length with
  | nil => rfl
  | cons position positions ih =>
    rw [List.flatMap_cons, ih, List.filter_cons, h.waiting_eq]
    by_cases hkeeps : keeps decisions position = true
    · by_cases hmem : position ∈ order
      · simp [hkeeps, hmem]
      · simp [hkeeps, hmem]
    · simp [hkeeps]

/-- The references in force are among those of any closed choice. -/
theorem Joined.mem_closed (h : Joined policy declarations body own order references waiting)
    {chosen : Finset Nat} (hclosed : Closed policy declarations body own chosen) :
    ∀ reference ∈ references, reference ∈ body ++ ownOf own chosen := by
  intro reference hmem
  rw [h.references_eq, List.mem_append, List.mem_flatMap] at hmem
  rw [List.mem_append]
  rcases hmem with hbody | ⟨position, horder, hown⟩
  · exact Or.inl hbody
  · exact Or.inr (mem_ownOf.mpr ⟨position, h.least chosen hclosed position horder, hown⟩)

/-- A round preserves the invariant, with the imports it adds. -/
theorem Joined.round (h : Joined policy declarations body own order references waiting) :
    Joined policy declarations body own
      (order ++ newcomers (Decision.judge policy declarations references) order)
      (references ++ joining (Decision.judge policy declarations references) waiting)
      (stillWaiting (Decision.judge policy declarations references) waiting) where
  nodup := by
    refine List.nodup_append.mpr ⟨h.nodup, List.nodup_range.filter _, ?_⟩
    rintro position horder other hnew rfl
    exact (mem_newcomers.mp hnew).2 horder
  references_eq := by
    rw [h.joining_eq, List.flatMap_append, ← List.append_assoc, ← h.references_eq]
  length_waiting := by
    simp [stillWaiting, h.length_waiting]
  waiting_eq := by
    intro position
    rw [ownAt_stillWaiting _ _ (by simpa using h.length_waiting), h.waiting_eq]
    simp only [List.mem_append, mem_newcomers]
    by_cases horder : position ∈ order
    · simp [horder]
    · simp [horder]
  kept := by
    intro position hmem
    have hgrown : ∀ reference ∈ references, reference ∈
        references ++ joining (Decision.judge policy declarations references) waiting :=
      fun reference hreference => List.mem_append_left _ hreference
    rcases List.mem_append.mp hmem with horder | hnew
    · exact keeps_mono hgrown (h.kept position horder)
    · exact keeps_mono hgrown (mem_newcomers.mp hnew).1
  least := by
    intro chosen hclosed position hmem
    rcases List.mem_append.mp hmem with horder | hnew
    · exact h.least chosen hclosed position horder
    · exact hclosed (mem_keptPositions.mpr
        (keeps_mono (h.mem_closed hclosed) (mem_newcomers.mp hnew).1))

/-- When the rounds are over, the invariant holds with the verdicts of the last round, which
adds nothing more. -/
theorem Joined.settle (h : Joined policy declarations body own order references waiting) :
    ∃ joined left, Joined policy declarations body own joined
        (settle policy declarations references waiting).references left ∧
      (settle policy declarations references waiting).decisions =
        Decision.judge policy declarations
          (settle policy declarations references waiting).references ∧
      joining (settle policy declarations references waiting).decisions left = [] := by
  -- The induction follows the rounds; `order` grows with them.
  fun_induction Settlement.settle policy declarations references waiting
    generalizing order with
  | case1 =>
    rename_i hadded
    exact ⟨order, _, h, rfl, hadded⟩
  | case2 =>
    rename_i ih
    exact ih h.round

/-- Every round but the last uses up the references of some import. -/
theorem length_earlier_settle (policy : Policy) (declarations : List ImportDeclaration)
    (references : List Reference) (waiting : List (List Reference)) :
    (Settlement.settle policy declarations references waiting).earlier.length ≤
      countWaiting waiting := by
  fun_induction Settlement.settle policy declarations references waiting with
  | case1 => exact Nat.zero_le _
  | case2 references waiting decisions added hadded later ih =>
    have hfewer := countWaiting_stillWaiting_lt decisions waiting hadded
    change later.earlier.length + 1 ≤ countWaiting waiting
    exact Nat.lt_of_le_of_lt ih hfewer

end Rounds

section Outcome

variable (policy : Policy) (declarations : List ImportDeclaration) (body : List Reference)
  (own : List (List Reference)) (hlength : own.length = declarations.length)

include hlength

/-- The verdicts are those that the final references give. -/
theorem decisions_settle :
    (settle policy declarations body own).decisions =
      Decision.judge policy declarations (settle policy declarations body own).references := by
  obtain ⟨_, _, _, hdecisions, _⟩ := (Joined.start policy declarations body own hlength).settle
  exact hdecisions

/-- The kept imports join once each, and nothing else joins. -/
theorem exists_order_settle :
    ∃ order : List Nat, order.Nodup ∧
      (∀ position, position ∈ order ↔
        keeps (settle policy declarations body own).decisions position = true) ∧
      (settle policy declarations body own).references = body ++ order.flatMap (ownAt own) := by
  obtain ⟨joined, left, hjoined, hdecisions, hnone⟩ :=
    (Joined.start policy declarations body own hlength).settle
  rw [hdecisions] at hnone ⊢
  refine ⟨_, hjoined.round.nodup, ?_, ?_⟩
  · intro position
    rw [List.mem_append, mem_newcomers]
    constructor
    · intro hcase
      rcases hcase with hmem | ⟨hkept, -⟩
      · exact hjoined.kept position hmem
      · exact hkept
    · intro hkept
      by_cases hmem : position ∈ joined
      · exact Or.inl hmem
      · exact Or.inr ⟨hkept, hmem⟩
  · rw [← hjoined.round.references_eq, hnone, List.append_nil]

theorem mem_references_settle {reference : Reference} :
    reference ∈ (settle policy declarations body own).references ↔
      reference ∈ body ∨ ∃ position,
        keeps (settle policy declarations body own).decisions position = true ∧
          reference ∈ ownAt own position := by
  obtain ⟨order, -, horder, hreferences⟩ := exists_order_settle policy declarations body own hlength
  simp only [hreferences, List.mem_append, List.mem_flatMap, horder]

/-- The references in force are those that the kept imports call for. -/
theorem mem_references_iff_mem_ownOf {reference : Reference} :
    reference ∈ (settle policy declarations body own).references ↔
      reference ∈ body ++
        ownOf own (keptPositions (settle policy declarations body own).decisions) := by
  rw [mem_references_settle policy declarations body own hlength, List.mem_append, mem_ownOf]
  simp only [mem_keptPositions]

/-- The kept imports are the least closed choice. -/
theorem isLeast_keptPositions :
    IsLeast {chosen | Closed policy declarations body own chosen}
      (keptPositions (settle policy declarations body own).decisions) := by
  constructor
  · intro position hmem
    rw [mem_keptPositions] at hmem ⊢
    rw [decisions_settle policy declarations body own hlength]
    exact keeps_mono
      (fun reference h => (mem_references_iff_mem_ownOf policy declarations body own hlength).mpr h)
      hmem
  · intro chosen hclosed position hmem
    obtain ⟨joined, left, hjoined, hdecisions, -⟩ :=
      (Joined.start policy declarations body own hlength).settle
    rw [mem_keptPositions, hdecisions] at hmem
    exact hclosed (mem_keptPositions.mpr (keeps_mono (hjoined.mem_closed hclosed) hmem))

end Outcome

end UnusedImports.Settlement

namespace UnusedImports.Source

def isAnnotated (source : Source) (position : Nat) : Bool :=
  (source.outline.imports[position]?.bind ImportStatement.annotations).isSome

theorem length_annotationReferences (source : Source) :
    source.annotationReferences.length = source.declarations.length := by
  simp [annotationReferences, declarations]

theorem ownAt_annotationReferences (source : Source) (position : Nat) :
    Settlement.ownAt source.annotationReferences position =
      (source.outline.imports[position]?.bind ImportStatement.annotations).elim []
        (Reference.within source.references) := by
  unfold Settlement.ownAt annotationReferences
  rw [List.getElem?_map]
  cases source.outline.imports[position]? with
  | none => rfl
  | some statement => cases h : statement.annotations <;> simp [h]

theorem ownAt_of_not_isAnnotated (source : Source) {position : Nat}
    (h : source.isAnnotated position = false) :
    Settlement.ownAt source.annotationReferences position = [] := by
  unfold isAnnotated at h
  rw [ownAt_annotationReferences]
  cases hextent : source.outline.imports[position]?.bind ImportStatement.annotations with
  | none => rfl
  | some extent => simp [hextent] at h

theorem countWaiting_annotationReferences (source : Source) :
    Settlement.countWaiting source.annotationReferences ≤
      source.outline.imports.countP fun statement => statement.annotations.isSome := by
  unfold Settlement.countWaiting annotationReferences
  rw [List.countP_map]
  apply List.countP_mono_left
  intro statement _ hwaiting
  cases h : statement.annotations with
  | none => simp [h] at hwaiting
  | some extent => rfl

end UnusedImports.Source

namespace UnusedImports.Analysis

/-- Settling ends after at most one round more than there are annotated imports. In the end the
verdicts are those that the references in force give; the references in force are those of the
body followed by those of the annotations of exactly the annotated imports that are kept, each
taken once; and the imports kept are the least choice that holds every import kept by the
references of the body and those of the annotations of the imports chosen. -/
theorem settlement_ofSource (policy : Policy) (source : Source) :
    (ofSource policy source).settlement.earlier.length + 1 ≤
        (source.outline.imports.countP fun statement => statement.annotations.isSome) + 1 ∧
      (ofSource policy source).settlement.decisions =
        Decision.judge policy source.declarations
          (ofSource policy source).settlement.references ∧
      (∃ order : List Nat, order.Nodup ∧
        (∀ position, position ∈ order ↔ source.isAnnotated position = true ∧
          Settlement.keeps (ofSource policy source).settlement.decisions position = true) ∧
        (ofSource policy source).settlement.references =
          source.bodyReferences ++
            order.flatMap (Settlement.ownAt source.annotationReferences)) ∧
      IsLeast
        {chosen | Settlement.Closed policy source.declarations source.bodyReferences
          source.annotationReferences chosen}
        (Settlement.keptPositions (ofSource policy source).settlement.decisions) := by
  have hlength := source.length_annotationReferences
  refine ⟨?_, ?_, ?_, ?_⟩
  · have hrounds := Settlement.length_earlier_settle policy source.declarations
      source.bodyReferences source.annotationReferences
    have hwaiting := source.countWaiting_annotationReferences
    exact Nat.succ_le_succ (Nat.le_trans hrounds hwaiting)
  · exact Settlement.decisions_settle _ _ _ _ hlength
  · obtain ⟨order, hnodup, horder, hreferences⟩ :=
      Settlement.exists_order_settle policy source.declarations source.bodyReferences
        source.annotationReferences hlength
    refine ⟨order.filter source.isAnnotated, hnodup.filter _, ?_, ?_⟩
    · intro position
      rw [List.mem_filter, horder]
      exact and_comm
    · rw [Settlement.flatMap_filter_of_nil]
      · exact hreferences
      · intro position _ hbare
        exact source.ownAt_of_not_isAnnotated hbare
  · exact Settlement.isLeast_keptPositions _ _ _ _ hlength

end UnusedImports.Analysis
