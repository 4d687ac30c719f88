import UnusedImports.Proofs.Verdict

/-!
The rules behind the verdicts. Which imports a policy lists, which references answer to one and
when it stays is said here for whole lists, without saying how a verdict is reached. Every verdict
follows these rules and they leave no other, except that any reference that keeps a static wildcard
may be cited for it. Two results come from that: the imports to be removed depend on nothing but
the names and contexts that occur, and those that were kept are kept again, for the same reason,
once the others are gone.
-/
namespace UnusedImports

namespace Policy

/-- A pattern of the policy is the path itself, or it ends in a dot and a star and the path is
what stands before them or goes on from there after a dot. -/
def Lists (policy : Policy) (path : String) : Prop :=
  path ∈ policy.preserve ∨ ∃ stem, stem ++ ".*" ∈ policy.preserve ∧
    (path = stem ∨ ∃ below, path = stem ++ "." ++ below)

/-- A pattern covers the path that it is, and below a star also the stem and what goes on from
it. -/
theorem covers_iff {pattern path : List Char} :
    covers pattern path = true ↔ path = pattern ∨
      ∃ stem, pattern = stem ++ ['.', '*'] ∧ (path = stem ∨ (stem ++ ['.']) <+: path) := by
  unfold covers
  by_cases hstar : ['.', '*'].isSuffixOf pattern = true
  · obtain ⟨stem, rfl⟩ := List.isSuffixOf_iff_suffix.mp hstar
    have htake : (stem ++ ['.', '*']).take ((stem ++ ['.', '*']).length - 2) = stem := by simp
    rw [if_pos hstar, htake]
    simp only [Bool.or_eq_true, beq_iff_eq, List.isPrefixOf_iff_prefix, List.append_cancel_right_eq]
    constructor
    · exact fun hcovers => Or.inr ⟨stem, rfl, hcovers⟩
    · rintro (rfl | ⟨other, rfl, hcovers⟩)
      · exact Or.inr ⟨['*'], by simp⟩
      · exact hcovers
  · rw [if_neg hstar, beq_iff_eq]
    constructor
    · exact Or.inl
    · rintro (hsame | ⟨stem, rfl, -⟩)
      · exact hsame
      · exact absurd (List.isSuffixOf_iff_suffix.mpr ⟨stem, rfl⟩) hstar

theorem allows_iff {policy : Policy} {path : String} :
    policy.allows path = true ↔ policy.Lists path := by
  unfold allows Lists
  rw [List.any_eq_true]
  constructor
  · rintro ⟨pattern, hmem, hcovers⟩
    rcases covers_iff.mp hcovers with hsame | ⟨stem, hpattern, hpath⟩
    · exact Or.inl (String.toList_inj.mp hsame ▸ hmem)
    · refine Or.inr ⟨String.ofList stem, ?_, ?_⟩
      · have hwritten : pattern = String.ofList stem ++ ".*" :=
          String.toList_inj.mp (by simp [hpattern])
        exact hwritten ▸ hmem
      · rcases hpath with hstem | ⟨below, hbelow⟩
        · exact Or.inl (String.toList_inj.mp (by simp [hstem]))
        · exact Or.inr ⟨String.ofList below, String.toList_inj.mp (by simp [← hbelow])⟩
  · rintro (hmem | ⟨stem, hmem, hpath⟩)
    · exact ⟨path, hmem, covers_iff.mpr (Or.inl rfl)⟩
    · refine ⟨_, hmem, covers_iff.mpr (Or.inr ⟨stem.toList, by simp, ?_⟩)⟩
      rcases hpath with rfl | ⟨below, rfl⟩
      · exact Or.inl rfl
      · exact Or.inr ⟨below.toList, by simp⟩

end Policy

namespace Decision

section Rules

variable (policy : Policy) (declarations : List ImportDeclaration) (references : List Reference)
  (declaration : ImportDeclaration)

/-- The reference may be to what the import brings in. Nothing answers to a wildcard; to a static
wildcard a call, a value or an interpolated name answers that no static import of the list binds;
to a plain import without an alias its name answers unless it is called; and to all others the
name that they bind. -/
def Answers (reference : Reference) : Prop :=
  match declaration.kind with
  | .wildcard => False
  | .staticWildcard =>
    (reference.context = .staticMember ∨ reference.context = .value ∨
      reference.context = .interpolation) ∧
      ∀ other ∈ declarations, other.kind = .static → other.boundName ≠ some reference.name
  | .static => declaration.boundName = some reference.name
  | .plain =>
    if declaration.aliasName.isSome then declaration.boundName = some reference.name
    else declaration.simpleName = some reference.name ∧ reference.context ≠ .staticMember

def Exempt : Prop :=
  policy.Lists declaration.path ∨ declaration.annotated = true ∧ policy.keepAnnotated = true

def Open : Prop :=
  declaration.kind = .wildcard ∨
    declaration.kind = .staticWildcard ∧ policy.keepStaticWildcards = true

inductive Ruled : Verdict → Prop
  | allowListed (hlisted : policy.Lists declaration.path) : Ruled (.keep .allowListed)
  | annotated (hlisted : ¬ policy.Lists declaration.path)
      (hannotated : declaration.annotated = true ∧ policy.keepAnnotated = true) :
      Ruled (.keep .annotated)
  | wildcard (hexempt : ¬ Exempt policy declaration) (hkind : declaration.kind = .wildcard) :
      Ruled (.keep .wildcard)
  | staticWildcard (hexempt : ¬ Exempt policy declaration)
      (hkind : declaration.kind = .staticWildcard)
      (hkeep : policy.keepStaticWildcards = true) : Ruled (.keep .staticWildcard)
  /-- Of several references the first counts, except for a static wildcard. -/
  | referenced {earlier later : List Reference} {reference : Reference}
      (hexempt : ¬ Exempt policy declaration) (hopen : ¬ Open policy declaration)
      (hreferences : references = earlier ++ reference :: later)
      (hanswers : Answers declarations declaration reference)
      (hfirst : declaration.kind ≠ .staticWildcard →
        ∀ other ∈ earlier, ¬ Answers declarations declaration other) :
      Ruled (.keep (.referenced reference.context reference.span))
  | remove (hexempt : ¬ Exempt policy declaration) (hopen : ¬ Open policy declaration)
      (hnone : ∀ reference ∈ references, ¬ Answers declarations declaration reference) :
      Ruled .remove

/-- The import stays: by the policy, as a wildcard, or because a reference answers to it. -/
def Stays : Prop :=
  Exempt policy declaration ∨ Open policy declaration ∨
    ∃ reference ∈ references, Answers declarations declaration reference

end Rules

section Searching

/-- Looking for a name that may be missing is one search. -/
theorem bind_firstNamed (name : Option String) (references : List Reference) :
    name.bind (firstNamed references) =
      references.find? fun reference => name == some reference.name := by
  cases name with
  | none => exact (List.find?_eq_none.mpr (by simp)).symm
  | some bound =>
    unfold firstNamed
    simp only [Option.bind_some, Option.some_beq_some]
    congr 1
    funext reference
    exact BEq.comm

theorem bind_firstNamedType (name : Option String) (references : List Reference) :
    name.bind (firstNamedType references) = references.find? fun reference =>
      name == some reference.name && reference.context != .staticMember := by
  cases name with
  | none => exact (List.find?_eq_none.mpr (by simp)).symm
  | some bound =>
    unfold firstNamedType
    simp only [Option.bind_some, Option.some_beq_some]
    congr 1
    funext reference
    rw [BEq.comm]

/-- A verdict is a choice between the ways to be kept without a reference, and then a search for
the first reference that uses the import. -/
theorem verdictOn_eq (policy : Policy) (references : List Reference) (names : List String)
    (declaration : ImportDeclaration) :
    verdictOn policy references names declaration =
      if policy.allows declaration.path then .keep .allowListed
      else if declaration.annotated ∧ policy.keepAnnotated then .keep .annotated
      else if declaration.kind = .wildcard then .keep .wildcard
      else if declaration.kind = .staticWildcard ∧ policy.keepStaticWildcards then
        .keep .staticWildcard
      else .ofReference? (references.find? (isUsedBy names declaration)) := by
  unfold verdictOn
  congr 2
  rw [bind_firstNamed, bind_firstNamedType]
  unfold isUsedBy
  cases declaration.kind with
  | wildcard => simp
  | staticWildcard => cases policy.keepStaticWildcards <;> simp
  | static => simp
  | plain => cases declaration.aliasName.isSome <;> simp

theorem mem_staticNames {declarations : List ImportDeclaration} {name : String} :
    name ∈ staticNames declarations ↔
      ∃ other ∈ declarations, other.kind = .static ∧ other.boundName = some name := by
  unfold staticNames
  simp only [List.mem_filterMap, Option.ite_none_right_eq_some]

/-- A reference answers to an import exactly when the search for one stops there. -/
theorem answers_iff {declarations : List ImportDeclaration} {declaration : ImportDeclaration}
    {reference : Reference} :
    Answers declarations declaration reference ↔
      isUsedBy (staticNames declarations) declaration reference = true := by
  unfold Answers isUsedBy
  cases declaration.kind with
  | wildcard => simp
  | staticWildcard =>
    simp only [mayBeMember, Bool.and_eq_true, Bool.or_eq_true, beq_iff_eq, Bool.not_eq_true',
      List.contains_eq_mem, decide_eq_false_iff_not, mem_staticNames, or_assoc]
    grind
  | static => simp
  | plain => cases declaration.aliasName.isSome <;> simp

end Searching

section Deciding

variable {policy : Policy} {declarations : List ImportDeclaration} {references : List Reference}
  {declaration : ImportDeclaration}

instance (path : String) : Decidable (policy.Lists path) :=
  decidable_of_iff (policy.allows path = true) Policy.allows_iff

instance (reference : Reference) : Decidable (Answers declarations declaration reference) :=
  decidable_of_iff (isUsedBy (staticNames declarations) declaration reference = true)
    answers_iff.symm

instance : Decidable (Exempt policy declaration) := inferInstanceAs (Decidable (_ ∨ _))

instance : Decidable (Open policy declaration) := inferInstanceAs (Decidable (_ ∨ _))

instance : Decidable (Stays policy declarations references declaration) :=
  inferInstanceAs (Decidable (_ ∨ _))

end Deciding

section Verdicts

variable {policy : Policy} {declarations : List ImportDeclaration} {references : List Reference}
  {declaration : ImportDeclaration}

/-- A search that finds nothing to stop at, or the first place to stop at. -/
theorem ruled_ofReference (hexempt : ¬ Exempt policy declaration)
    (hopen : ¬ Open policy declaration) :
    Ruled policy declarations references declaration (.ofReference? (references.find?
      (isUsedBy (staticNames declarations) declaration))) := by
  cases hfound : references.find? (isUsedBy (staticNames declarations) declaration) with
  | none =>
    refine .remove hexempt hopen fun reference hmem hanswers => ?_
    exact List.find?_eq_none.mp hfound reference hmem (answers_iff.mp hanswers)
  | some reference =>
    obtain ⟨hused, earlier, later, hsplit, hfirst⟩ := List.find?_eq_some_iff_append.mp hfound
    refine .referenced hexempt hopen hsplit (answers_iff.mpr hused) fun _ other hother => ?_
    rw [answers_iff]
    simpa using hfirst other hother

/-- Every verdict follows the rules. -/
theorem ruled_verdictOn (policy : Policy) (declarations : List ImportDeclaration)
    (references : List Reference) (declaration : ImportDeclaration) :
    Ruled policy declarations references declaration
      (verdictOn policy references (staticNames declarations) declaration) := by
  rw [verdictOn_eq]
  split
  · rename_i hallows
    exact .allowListed (Policy.allows_iff.mp hallows)
  rename_i hallows
  have hlisted : ¬ policy.Lists declaration.path := fun h => hallows (Policy.allows_iff.mpr h)
  split
  · rename_i hannotated
    exact .annotated hlisted hannotated
  rename_i hannotated
  have hexempt : ¬ Exempt policy declaration := not_or.mpr ⟨hlisted, hannotated⟩
  split
  · rename_i hkind
    exact .wildcard hexempt hkind
  rename_i hwildcard
  split
  · rename_i hstatic
    exact .staticWildcard hexempt hstatic.1 hstatic.2
  rename_i hstatic
  exact ruled_ofReference hexempt (not_or.mpr ⟨hwildcard, hstatic⟩)

/-- The rules leave no other verdict, up to which reference is cited for a static wildcard. -/
theorem Ruled.eq_verdictOn {verdict : Verdict}
    (h : Ruled policy declarations references declaration verdict)
    (hkind : declaration.kind ≠ .staticWildcard) :
    verdict = verdictOn policy references (staticNames declarations) declaration := by
  rw [verdictOn_eq]
  simp only [Policy.allows_iff]
  cases h with
  | allowListed hlisted => rw [if_pos hlisted]
  | annotated hlisted hannotated => rw [if_neg hlisted, if_pos hannotated]
  | wildcard hexempt hwildcard =>
    obtain ⟨hlisted, hannotated⟩ := not_or.mp hexempt
    rw [if_neg hlisted, if_neg hannotated, if_pos hwildcard]
  | staticWildcard _ hstatic _ => exact absurd hstatic hkind
  | referenced hexempt hopen hreferences hanswers hfirst =>
    obtain ⟨hlisted, hannotated⟩ := not_or.mp hexempt
    obtain ⟨hwildcard, hstatic⟩ := not_or.mp hopen
    rw [if_neg hlisted, if_neg hannotated, if_neg hwildcard, if_neg hstatic,
      List.find?_eq_some_iff_append.mpr ⟨answers_iff.mp hanswers, _, _, hreferences, ?_⟩]
    · rfl
    · intro other hother
      simpa [answers_iff] using hfirst hkind other hother
  | remove hexempt hopen hnone =>
    obtain ⟨hlisted, hannotated⟩ := not_or.mp hexempt
    obtain ⟨hwildcard, hstatic⟩ := not_or.mp hopen
    rw [if_neg hlisted, if_neg hannotated, if_neg hwildcard, if_neg hstatic,
      List.find?_eq_none.mpr ?_]
    · rfl
    · intro reference hmem hused
      exact hnone reference hmem (answers_iff.mpr hused)

theorem Ruled.isRemove_iff {verdict : Verdict}
    (h : Ruled policy declarations references declaration verdict) :
    verdict.isRemove = true ↔ ¬ Stays policy declarations references declaration := by
  unfold Stays
  cases h with
  | allowListed hlisted => simp [Verdict.isRemove, Exempt, hlisted]
  | annotated _ hannotated => simp [Verdict.isRemove, Exempt, hannotated]
  | wildcard _ hkind => simp [Verdict.isRemove, Open, hkind]
  | staticWildcard _ hkind hkeep => simp [Verdict.isRemove, Open, hkind, hkeep]
  | referenced _ _ hreferences hanswers _ =>
    have hstays : ∃ reference ∈ references, Answers declarations declaration reference :=
      ⟨_, by simp [hreferences], hanswers⟩
    simp [Verdict.isRemove, hstays]
  | remove hexempt hopen hnone =>
    simp only [Verdict.isRemove, not_or, true_iff]
    refine ⟨hexempt, hopen, ?_⟩
    rintro ⟨reference, hmem, hanswers⟩
    exact hnone reference hmem hanswers

/-- An import is to be removed exactly when it does not stay by the rules. -/
theorem unused_judge (policy : Policy) (declarations : List ImportDeclaration)
    (references : List Reference) :
    unused (judge policy declarations references) =
      declarations.filter fun declaration =>
        ¬ Stays policy declarations references declaration := by
  unfold unused judge
  rw [List.filter_map, List.map_map]
  refine (List.map_id _).trans (List.filter_congr fun declaration _ => ?_)
  rw [Function.comp_apply, Bool.eq_iff_iff, decide_eq_true_iff]
  exact (ruled_verdictOn policy declarations references declaration).isRemove_iff

end Verdicts

section Rearranging

variable {policy : Policy} {declarations rearranged : List ImportDeclaration}
  {references others : List Reference}

/-- The same names are used in the same contexts, wherever and however often. -/
def SameUses (references others : List Reference) : Prop :=
  ∀ name context,
    (∃ reference ∈ references, reference.name = name ∧ reference.context = context) ↔
      ∃ reference ∈ others, reference.name = name ∧ reference.context = context

/-- Whether a reference answers to an import is told by its name and its context, and of the
other imports by which of them there are. -/
theorem Answers.congr {declaration : ImportDeclaration} {reference other : Reference}
    (hmembers : ∀ other, other ∈ rearranged ↔ other ∈ declarations)
    (hname : other.name = reference.name) (hcontext : other.context = reference.context)
    (h : Answers declarations declaration reference) :
    Answers rearranged declaration other := by
  unfold Answers at h ⊢
  simpa only [hname, hcontext, hmembers] using h

theorem exists_answers_iff {declaration : ImportDeclaration}
    (hmembers : ∀ other, other ∈ rearranged ↔ other ∈ declarations)
    (huses : SameUses references others) :
    (∃ reference ∈ others, Answers rearranged declaration reference) ↔
      ∃ reference ∈ references, Answers declarations declaration reference := by
  constructor
  · rintro ⟨reference, hmem, hanswers⟩
    obtain ⟨other, hother, hname, hcontext⟩ :=
      (huses reference.name reference.context).mpr ⟨reference, hmem, rfl, rfl⟩
    exact ⟨other, hother, hanswers.congr (fun other => (hmembers other).symm) hname hcontext⟩
  · rintro ⟨reference, hmem, hanswers⟩
    obtain ⟨other, hother, hname, hcontext⟩ :=
      (huses reference.name reference.context).mp ⟨reference, hmem, rfl, rfl⟩
    exact ⟨other, hother, hanswers.congr hmembers hname hcontext⟩

/-- Rearranging the imports and the references does not change what is to be removed. -/
theorem unused_rearranged
    (hmembers : ∀ other, other ∈ rearranged ↔ other ∈ declarations)
    (huses : SameUses references others) :
    unused (judge policy rearranged others) = rearranged.filter fun declaration =>
      declaration ∈ unused (judge policy declarations references) := by
  rw [unused_judge, unused_judge]
  refine List.filter_congr fun declaration hmem => ?_
  rw [Bool.eq_iff_iff, decide_eq_true_iff, decide_eq_true_iff, List.mem_filter,
    decide_eq_true_iff, ← hmembers, and_iff_right hmem]
  unfold Stays
  rw [exists_answers_iff hmembers huses]

end Rearranging

/-- Judging gives one decision for each import, in order. Its verdict is the one that the rules
give, up to which reference is cited for a static wildcard; the imports to be removed are those
that do not stay by the rules; and this depends neither on the order and number of the imports
and references nor on where the references stand. -/
theorem judge_ruled (policy : Policy) (declarations : List ImportDeclaration)
    (references : List Reference) :
    (judge policy declarations references).map Decision.declaration = declarations ∧
    (∀ decision ∈ judge policy declarations references,
      Ruled policy declarations references decision.declaration decision.verdict ∧
      ∀ verdict, Ruled policy declarations references decision.declaration verdict →
        verdict = decision.verdict ∨ decision.declaration.kind = .staticWildcard ∧
          verdict.isRemove = decision.verdict.isRemove) ∧
    unused (judge policy declarations references) = (declarations.filter fun declaration =>
      ¬ Stays policy declarations references declaration) ∧
    ∀ rearranged others, (∀ other, other ∈ rearranged ↔ other ∈ declarations) →
      SameUses references others →
        unused (judge policy rearranged others) = rearranged.filter fun declaration =>
          declaration ∈ unused (judge policy declarations references) := by
  refine ⟨?_, ?_, unused_judge policy declarations references,
    fun _ _ hmembers huses => unused_rearranged hmembers huses⟩
  · rw [judge, List.map_map]
    exact List.map_id _
  · intro decision hmem
    obtain ⟨declaration, -, rfl⟩ := List.mem_map.mp hmem
    have hruled := ruled_verdictOn policy declarations references declaration
    refine ⟨hruled, fun verdict hverdict => ?_⟩
    by_cases hkind : declaration.kind = .staticWildcard
    · refine Or.inr ⟨hkind, ?_⟩
      rw [Bool.eq_iff_iff, hverdict.isRemove_iff, hruled.isRemove_iff]
    · exact Or.inl (hverdict.eq_verdictOn hkind)

def kept (decisions : List Decision) : List ImportDeclaration :=
  (decisions.filter fun decision => !decision.verdict.isRemove).map Decision.declaration

section Again

variable {policy : Policy} {declarations : List ImportDeclaration} {references : List Reference}

theorem mem_kept {declaration : ImportDeclaration} :
    declaration ∈ kept (judge policy declarations references) ↔ declaration ∈ declarations ∧
      Stays policy declarations references declaration := by
  have hremove :=
    (ruled_verdictOn policy declarations references declaration).isRemove_iff
  rw [kept, judge, List.filter_map, List.map_map]
  simp only [List.mem_map, List.mem_filter, Function.comp_apply, Bool.not_eq_true',
    exists_eq_right]
  rw [← Bool.not_eq_true, hremove, Decidable.not_not]

/-- A static import whose name is used stays, so the names that are used and statically bound
are the same without the imports that go. -/
theorem mem_staticNames_kept {reference : Reference} (hmem : reference ∈ references) :
    reference.name ∈ staticNames (kept (judge policy declarations references)) ↔
      reference.name ∈ staticNames declarations := by
  rw [mem_staticNames, mem_staticNames]
  constructor
  · rintro ⟨other, hother, hkind, hbound⟩
    exact ⟨other, (mem_kept.mp hother).1, hkind, hbound⟩
  · rintro ⟨other, hother, hkind, hbound⟩
    have hanswers : Answers declarations other reference := by
      unfold Answers
      rw [hkind]
      exact hbound
    exact ⟨other, mem_kept.mpr ⟨hother, Or.inr (Or.inr ⟨reference, hmem, hanswers⟩)⟩, hkind, hbound⟩

/-- The names bound elsewhere matter only where they are used. -/
theorem verdictOn_congr {names others : List String}
    (h : ∀ reference ∈ references, reference.name ∈ others ↔ reference.name ∈ names)
    (declaration : ImportDeclaration) :
    verdictOn policy references others declaration =
      verdictOn policy references names declaration := by
  rw [verdictOn_eq, verdictOn_eq]
  have hfind : references.find? (isUsedBy others declaration) =
      references.find? (isUsedBy names declaration) := by
    rw [← List.head?_filter, ← List.head?_filter]
    refine congrArg List.head? (List.filter_congr fun reference hmem => ?_)
    unfold isUsedBy mayBeMember
    simp only [List.contains_eq_mem, h reference hmem]
  rw [hfind]

end Again

/-- The imports that are kept are kept again when they are judged by themselves, each with the
same verdict. -/
theorem judge_kept (policy : Policy) (declarations : List ImportDeclaration)
    (references : List Reference) :
    judge policy (kept (judge policy declarations references)) references =
      (judge policy declarations references).filter fun decision =>
        !decision.verdict.isRemove := by
  have hverdict : ∀ declaration,
      verdictOn policy references
          (staticNames (kept (judge policy declarations references))) declaration =
        verdictOn policy references (staticNames declarations) declaration :=
    fun declaration => verdictOn_congr (fun _ hmem => mem_staticNames_kept hmem) declaration
  rw [judge]
  simp only [hverdict]
  rw [kept, List.map_map]
  refine (List.map_congr_left fun decision hmem => ?_).trans (List.map_id _)
  obtain ⟨declaration, -, rfl⟩ := List.mem_map.mp (List.mem_filter.mp hmem).1
  rfl

end Decision

end UnusedImports
