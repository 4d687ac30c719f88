import UnusedImports.Proofs.Excision.Reach
import UnusedImports.Proofs.Excision.Selection
import UnusedImports.Proofs.Safety

/-!
When trimming is stable. An import is needed when it is protected, when the body refers to what
it binds, or when the annotations of a needed import do. The imports that stay are exactly the
needed ones, and removing any other makes the text shorter. So a text that was trimmed stays as
it is exactly when every import that is read in it is needed there. That is not always so: once
an import is gone, a slash after it may open a literal where it was a division before, and the
names inside are no longer references.
-/
namespace UnusedImports

/-- A reference to the same name in the same context uses an import as well, and all the more
when fewer names are bound by static imports. -/
theorem Decision.isUsedBy_again {names others : List String} {declaration : ImportDeclaration}
    {reference again : Reference} (hsub : ∀ name ∈ others, name ∈ names)
    (hname : again.name = reference.name) (hcontext : again.context = reference.context)
    (h : isUsedBy names declaration reference = true) :
    isUsedBy others declaration again = true := by
  unfold isUsedBy at h ⊢
  rw [hname, hcontext]
  cases hkind : declaration.kind with
  | staticWildcard =>
    simp only [hkind, mayBeMember, Bool.and_eq_true, Bool.not_eq_true', List.contains_eq_mem,
      decide_eq_false_iff_not, hname, hcontext] at h ⊢
    exact ⟨h.1, fun hmem => h.2 (hsub _ hmem)⟩
  | _ => simpa only [hkind] using h

namespace Source

inductive Needed (policy : Policy) (source : Source) : Nat → Prop
  | preserved {position : Nat} {declaration : ImportDeclaration}
      (hdeclaration : source.declarations[position]? = some declaration)
      (hprotects : policy.protects declaration = true) : Needed policy source position
  | body {position : Nat} {declaration : ImportDeclaration} {reference : Reference}
      (hdeclaration : source.declarations[position]? = some declaration)
      (hreference : reference ∈ source.bodyReferences)
      (huses : Decision.isUsedBy (Decision.staticNames source.declarations) declaration reference =
        true) : Needed policy source position
  | annotated {position other : Nat} {declaration : ImportDeclaration} {reference : Reference}
      (hdeclaration : source.declarations[position]? = some declaration)
      (hother : Needed policy source other)
      (hreference : reference ∈ Settlement.ownAt source.annotationReferences other)
      (huses : Decision.isUsedBy (Decision.staticNames source.declarations) declaration reference =
        true) : Needed policy source position

theorem Needed.lt_length {policy : Policy} {source : Source} {position : Nat}
    (h : source.Needed policy position) : position < source.declarations.length := by
  cases h with
  | preserved hdeclaration _ => exact (List.getElem?_eq_some_iff.mp hdeclaration).1
  | body hdeclaration _ _ => exact (List.getElem?_eq_some_iff.mp hdeclaration).1
  | annotated hdeclaration _ _ _ => exact (List.getElem?_eq_some_iff.mp hdeclaration).1

/-- A source is read again as it was, less what it does not need. The import at a position has
its origin in a needed one of the earlier source, every needed one is found again, and no
reference is lost, though all may stand elsewhere. -/
structure Rereads (policy : Policy) (source left : Source) (origin : Nat → Nat) : Prop where
  declared : ∀ position declaration, left.declarations[position]? = some declaration →
    ∃ original, source.declarations[origin position]? = some original ∧
      declaration = { original with span := declaration.span }
  needed : ∀ position < left.declarations.length, source.Needed policy (origin position)
  found : ∀ position, source.Needed policy position →
    ∃ again < left.declarations.length, origin again = position
  body : ∀ reference ∈ source.bodyReferences, ∃ again ∈ left.bodyReferences,
    again.name = reference.name ∧ again.context = reference.context
  annotated : ∀ position < left.declarations.length,
    ∀ reference ∈ Settlement.ownAt source.annotationReferences (origin position),
      ∃ again ∈ Settlement.ownAt left.annotationReferences position,
        again.name = reference.name ∧ again.context = reference.context

section Rereading

variable {policy : Policy} {source left : Source} {origin : Nat → Nat}

theorem Rereads.mem_staticNames (h : Rereads policy source left origin) {name : String}
    (hname : name ∈ Decision.staticNames left.declarations) :
    name ∈ Decision.staticNames source.declarations := by
  obtain ⟨declaration, hmem, hbound⟩ := List.mem_filterMap.mp hname
  obtain ⟨position, hposition⟩ := List.mem_iff_getElem?.mp hmem
  obtain ⟨original, horiginal, heq⟩ := h.declared position declaration hposition
  apply List.mem_filterMap.mpr
  refine ⟨original, List.mem_of_getElem? horiginal, ?_⟩
  rw [heq] at hbound
  exact hbound

/-- What was needed is needed again: the induction follows the reasons. -/
theorem Rereads.needed_again (h : Rereads policy source left origin) {position : Nat}
    (hneeded : source.Needed policy position) :
    ∀ again < left.declarations.length, origin again = position → left.Needed policy again := by
  have hdeclared : ∀ again < left.declarations.length, ∀ declaration,
      source.declarations[origin again]? = some declaration →
        ∃ span, left.declarations[again]? = some { declaration with span := span } := by
    intro again hlt declaration hdeclaration
    obtain ⟨original, horiginal, heq⟩ :=
      h.declared again _ (List.getElem?_eq_getElem hlt)
    obtain rfl := Option.some.inj (hdeclaration.symm.trans horiginal)
    rw [List.getElem?_eq_getElem hlt]
    exact ⟨_, congrArg some heq⟩
  induction hneeded with
  | preserved hdeclaration hprotects =>
    intro again hlt horigin
    obtain ⟨span, hagain⟩ := hdeclared again hlt _ (horigin ▸ hdeclaration)
    exact .preserved hagain hprotects
  | body hdeclaration hreference huses =>
    intro again hlt horigin
    obtain ⟨span, hagain⟩ := hdeclared again hlt _ (horigin ▸ hdeclaration)
    obtain ⟨other, hother, hname, hcontext⟩ := h.body _ hreference
    exact .body hagain hother
      (Decision.isUsedBy_again (fun name => h.mem_staticNames) hname hcontext huses)
  | annotated hdeclaration hother hreference huses ih =>
    intro again hlt horigin
    obtain ⟨span, hagain⟩ := hdeclared again hlt _ (horigin ▸ hdeclaration)
    obtain ⟨further, hfurther, rfl⟩ := h.found _ hother
    obtain ⟨other, hmem, hname, hcontext⟩ := h.annotated further hfurther _ hreference
    exact .annotated hagain (ih further hfurther rfl) hmem
      (Decision.isUsedBy_again (fun name => h.mem_staticNames) hname hcontext huses)

end Rereading

end Source

namespace Analysis

variable {policy : Policy} {source : Source}

/-- What is needed is kept. -/
theorem keeps_of_needed {position : Nat} (h : source.Needed policy position) :
    Settlement.keeps (ofSource policy source).settlement.decisions position = true := by
  have hreferences : ∀ reference, reference ∈ (ofSource policy source).settlement.references ↔ _ :=
    fun reference => Settlement.mem_references_settle policy source.declarations
      source.bodyReferences source.annotationReferences source.length_annotationReferences
  induction h with
  | preserved hdeclaration hprotects =>
    rw [decisions_ofSource, Settlement.keeps_judge]
    exact ⟨_, hdeclaration, Or.inl hprotects⟩
  | body hdeclaration hreference huses =>
    rw [decisions_ofSource, Settlement.keeps_judge]
    exact ⟨_, hdeclaration, Or.inr ⟨_, (hreferences _).mpr (Or.inl hreference), huses⟩⟩
  | annotated hdeclaration _ hreference huses ih =>
    rw [decisions_ofSource, Settlement.keeps_judge]
    exact ⟨_, hdeclaration, Or.inr ⟨_, (hreferences _).mpr (Or.inr ⟨_, ih, hreference⟩), huses⟩⟩

/-- The needed imports are closed, and what is kept is the least such choice. -/
theorem needed_of_keeps {position : Nat}
    (h : Settlement.keeps (ofSource policy source).settlement.decisions position = true) :
    source.Needed policy position := by
  classical
  have hleast := (Settlement.isLeast_keptPositions policy source.declarations
    source.bodyReferences source.annotationReferences source.length_annotationReferences).2
  have hclosed : Settlement.Closed policy source.declarations source.bodyReferences
      source.annotationReferences
      ((Finset.range source.declarations.length).filter (source.Needed policy)) := by
    intro other hmem
    rw [Settlement.mem_keptPositions, Settlement.keeps_judge] at hmem
    obtain ⟨declaration, hdeclaration, hkept⟩ := hmem
    have hneeded : source.Needed policy other := by
      rcases hkept with hprotects | ⟨reference, hreference, huses⟩
      · exact .preserved hdeclaration hprotects
      · rcases List.mem_append.mp hreference with hbody | hown
        · exact .body hdeclaration hbody huses
        · obtain ⟨further, hfurther, hreference⟩ := Settlement.mem_ownOf.mp hown
          exact .annotated hdeclaration (Finset.mem_filter.mp hfurther).2 hreference huses
    exact Finset.mem_filter.mpr ⟨Finset.mem_range.mpr hneeded.lt_length, hneeded⟩
  exact (Finset.mem_filter.mp (hleast hclosed (Settlement.mem_keptPositions.mpr h))).2

theorem unused_eq_nil_iff :
    (ofSource policy source).unused = [] ↔
      ∀ position < source.declarations.length, source.Needed policy position := by
  constructor
  · intro hnone position hposition
    apply needed_of_keeps
    apply keeps_of_not_mem_unused (List.getElem?_eq_getElem hposition)
    rw [hnone]
    exact List.not_mem_nil
  · intro hneeded
    apply List.eq_nil_iff_forall_not_mem.mpr
    intro declaration hunused
    obtain ⟨hmem, hprotects, huses⟩ := mem_unused_ofSource.mp hunused
    obtain ⟨position, hdeclaration⟩ := List.mem_iff_getElem?.mp hmem
    have hkept := keeps_of_needed
      (hneeded position (List.getElem?_eq_some_iff.mp hdeclaration).1)
    rw [decisions_ofSource, Settlement.keeps_judge] at hkept
    obtain ⟨other, hother, hkept⟩ := hkept
    obtain rfl := Option.some.inj (hdeclaration.symm.trans hother)
    rcases hkept with hprotected | ⟨reference, hreference, hused⟩
    · simp [hprotects] at hprotected
    · simp [huses reference hreference] at hused

/-- What is removed are the bytes of some of the imports. -/
theorem exists_chosen (policy : Policy) (source : Source) :
    ∃ chosen : List ImportStatement, (∀ statement ∈ chosen, statement ∈ source.outline.imports) ∧
      (ofSource policy source).unused.map (fun declaration => declaration.span.extent) =
        source.bytesOfImports chosen := by
  have hlift : ∀ unused : List ImportDeclaration,
      (∀ declaration ∈ unused, declaration ∈ source.declarations) →
        ∃ chosen : List ImportStatement,
          (∀ statement ∈ chosen, statement ∈ source.outline.imports) ∧
            unused.map (fun declaration => declaration.span.extent) =
              source.bytesOfImports chosen := by
    intro unused hmem
    induction unused with
    | nil => exact ⟨[], by simp, rfl⟩
    | cons declaration unused ih =>
      obtain ⟨chosen, hchosen, hbytes⟩ :=
        ih fun other hother => hmem other (List.mem_cons_of_mem _ hother)
      obtain ⟨statement, hstatement, rfl⟩ := List.mem_map.mp (hmem _ List.mem_cons_self)
      refine ⟨statement :: chosen, ?_, ?_⟩
      · intro other hother
        rcases List.mem_cons.mp hother with rfl | hother
        · exact hstatement
        · exact hchosen other hother
      · rw [List.map_cons, hbytes]
        rfl
  exact hlift _ fun declaration hunused => (mem_unused_ofSource.mp hunused).1

end Analysis

namespace Analysis

/-- What is left of a source that was read is its text without what the cuts take. -/
theorem trimmedText_eq_erase (policy : Policy) {text : List Char} {source : Source}
    (hread : Source.read text = .ok source) :
    (ofSource policy source).trimmedText =
      Excision.erase (ofSource policy source).plan.cuts 0 text := by
  obtain ⟨htext, -, hlex, houtline⟩ := Source.of_read hread
  obtain ⟨chosen, hchosen, hbytes⟩ := exists_chosen policy source
  have h : source.Selects text chosen := ⟨hlex, houtline, hchosen⟩
  unfold trimmedText plan
  rw [hbytes, show (ofSource policy source).source = source from rfl, htext]
  exact Excision.remove_eq_erase _ _ _ fun cut hcut =>
    Excision.start_le_stop_of_mem_plan h.aligned_bytes hcut

theorem length_trimmedText_lt {policy : Policy} {text : List Char} {source : Source}
    (hread : Source.read text = .ok source) (hunused : (ofSource policy source).unused ≠ []) :
    (ofSource policy source).trimmedText.length < text.length := by
  obtain ⟨htext, -, hlex, houtline⟩ := Source.of_read hread
  obtain ⟨chosen, hchosen, hbytes⟩ := exists_chosen policy source
  have h : source.Selects text chosen := ⟨hlex, houtline, hchosen⟩
  have hnonempty : source.bytesOfImports chosen ≠ [] := by
    rw [← hbytes]
    simpa using hunused
  obtain ⟨removal, hremoval⟩ := List.exists_mem_of_ne_nil _ hnonempty
  have haligned := h.aligned_bytes removal hremoval
  obtain ⟨c, hc⟩ := haligned.starts
  have hhits := Excision.hits_of_removed h.aligned_bytes h.not_mark hremoval
    (Extent.contains_iff.mpr ⟨Nat.le_refl _, haligned.start_lt_stop⟩)
  rw [trimmedText_eq_erase policy hread, plan, hbytes,
    show (ofSource policy source).source = source from rfl, htext]
  have hshorter := @Excision.length_erase_lt _ [] 0 text (by simp [Excision.Hits]) _ c hc
    (by rwa [Nat.zero_add]) (by simp [Excision.Hits])
  rwa [Excision.erase_nil] at hshorter

end Analysis

def plannedCuts (policy : Policy) (text : String) : List Extent :=
  match analyze policy text with
  | .ok analysis => if analysis.unused.isEmpty then [] else analysis.plan.cuts
  | .error _ => []

theorem code_trim_eq_erase (policy : Policy) (text : String) :
    (trim policy text).code =
      String.ofList (Excision.erase (plannedCuts policy text) 0 text.toList) := by
  unfold trim plannedCuts analyze
  cases hread : Source.read text.toList with
  | error failure =>
    simp only [Except.map, Excision.erase_nil, String.ofList_toList]
    rfl
  | ok source =>
    simp only [Except.map, Trimmed.ofAnalysis]
    split
    · rw [Excision.erase_nil, String.ofList_toList]
      rfl
    · rw [Analysis.trimmedText_eq_erase policy hread]

/-- Trimming leaves a text as it is exactly when it cannot be read or needs all its imports. -/
theorem code_trim_eq_iff (policy : Policy) (text : String) :
    (trim policy text).code = text ↔
      ∀ source, Source.read text.toList = .ok source →
        ∀ position < source.declarations.length, source.Needed policy position := by
  unfold trim analyze
  cases hread : Source.read text.toList with
  | error failure =>
    constructor
    · intro _ source hsource
      simp at hsource
    · intro _
      rfl
  | ok source =>
    have hcode : (Trimmed.ofAnalysis text
        (Except.map (Analysis.ofSource policy) (.ok source))).code = text ↔
          (Analysis.ofSource policy source).unused = [] := by
      simp only [Except.map, Trimmed.ofAnalysis]
      by_cases hunused : (Analysis.ofSource policy source).unused = []
      · simp [hunused, Trimmed.unchanged]
      · have hshorter := Analysis.length_trimmedText_lt hread hunused
        rw [if_neg (by simpa using hunused)]
        simp only [hunused, iff_false]
        intro heq
        rw [← heq, String.toList_ofList] at hshorter
        exact absurd hshorter (Nat.lt_irrefl _)
    rw [hcode, Analysis.unused_eq_nil_iff]
    constructor
    · intro hneeded other hother
      rw [← Except.ok.inj hother]
      exact hneeded
    · intro hneeded
      exact hneeded source rfl

/-- Trimming a second time changes nothing exactly when what the first time left cannot be read
or needs all its imports. That is so whenever it is read again as it was. -/
theorem code_trim_trim_eq_iff (policy : Policy) (text : String) :
    ((trim policy (trim policy text).code).code = (trim policy text).code ↔
      ∀ left, Source.read (trim policy text).code.toList = .ok left →
        ∀ position < left.declarations.length, left.Needed policy position) ∧
    ∀ source left origin, Source.read text.toList = .ok source →
      Source.read (trim policy text).code.toList = .ok left →
      source.Rereads policy left origin →
        (trim policy (trim policy text).code).code = (trim policy text).code := by
  have hiff := code_trim_eq_iff policy (trim policy text).code
  refine ⟨hiff, ?_⟩
  intro source left origin _ hleft hrereads
  apply hiff.mpr
  intro other hother position hposition
  obtain rfl := Except.ok.inj (hleft.symm.trans hother)
  exact hrereads.needed_again (hrereads.needed position hposition) position hposition rfl

theorem code_trim_trim_eq_iff_reread :
    ∃ text source left, text = "import a.B\nimport c.D\nD x\n" ∧
      Source.read text.toList = .ok source ∧
      Source.read (trim ⟨[], true, true⟩ text).code.toList = .ok left ∧
      source.Rereads ⟨[], true, true⟩ left (fun position => position + 1) ∧
      (trim ⟨[], true, true⟩ (trim ⟨[], true, true⟩ text).code).code =
        (trim ⟨[], true, true⟩ text).code := by
  have hrun : ((Source.read "import a.B\nimport c.D\nD x\n".toList).toOption.any fun source =>
      (Source.read (trim ⟨[], true, true⟩ "import a.B\nimport c.D\nD x\n").code.toList).toOption.any
        fun left =>
          left.declarations.length == 1 && source.declarations.length == 2 &&
          (left.declarations[0]?.any fun declaration => source.declarations[1]?.any fun original =>
            declaration == { original with span := declaration.span }) &&
          (Analysis.ofSource ⟨[], true, true⟩ source).settlement.decisions.map
            (fun decision => decision.verdict.isRemove) == [true, false] &&
          (source.bodyReferences.all fun reference => left.bodyReferences.any fun again =>
            again.name == reference.name && again.context == reference.context) &&
          (Settlement.ownAt source.annotationReferences 1).isEmpty) = true := by decide +kernel
  generalize "import a.B\nimport c.D\nD x\n" = text at hrun ⊢
  cases hread : Source.read text.toList with
  | error failure => simp [hread, Except.toOption] at hrun
  | ok source =>
    cases hleft : Source.read (trim ⟨[], true, true⟩ text).code.toList with
    | error failure => simp [hread, hleft, Except.toOption] at hrun
    | ok left =>
      simp only [hread, hleft, Except.toOption, Option.any_some, Bool.and_eq_true, beq_iff_eq,
        List.all_eq_true, List.any_eq_true, List.isEmpty_iff] at hrun
      obtain ⟨⟨⟨⟨⟨hone, htwo⟩, hdeclared⟩, hverdicts⟩, hbody⟩, hown⟩ := hrun
      have hkeeps : ∀ position, Settlement.keeps
          (Analysis.ofSource ⟨[], true, true⟩ source).settlement.decisions position =
            [true, false][position]?.any (!·) := by
        intro position
        unfold Settlement.keeps
        rw [← hverdicts, List.getElem?_map, Option.any_map]
      have hrereads : source.Rereads ⟨[], true, true⟩ left (fun position => position + 1) := by
        refine ⟨?_, ?_, ?_, hbody, ?_⟩
        · intro position declaration hdeclaration
          have hzero : position = 0 := by
            have hlt := (List.getElem?_eq_some_iff.mp hdeclaration).1
            omega
          subst hzero
          rw [hdeclaration, Option.any_some] at hdeclared
          cases horiginal : source.declarations[1]? with
          | none => simp [horiginal] at hdeclared
          | some original => exact ⟨original, rfl, by simpa [horiginal] using hdeclared⟩
        · intro position hposition
          obtain rfl : position = 0 := by omega
          exact Analysis.needed_of_keeps (by rw [hkeeps]; rfl)
        · intro position hneeded
          have hlt := hneeded.lt_length
          have hkept := Analysis.keeps_of_needed hneeded
          rw [hkeeps] at hkept
          refine ⟨0, by omega, ?_⟩
          by_cases hzero : position = 0
          · simp [hzero] at hkept
          · show 0 + 1 = position
            omega
        · intro position hposition reference hreference
          obtain rfl : position = 0 := by omega
          rw [hown] at hreference
          simp at hreference
      exact ⟨text, source, left, rfl, hread, hleft, hrereads,
        (code_trim_trim_eq_iff _ text).2 source left _ hread hleft hrereads⟩

/-- The first time leaves `/ b / c` and the import of `b`. Now the slash opens a literal, `b` is
no reference any more, and its import goes too. -/
theorem transform_transform_ne :
    transform (transform "import a.U\n/ b / c\nimport d.b\n") ≠
      transform "import a.U\n/ b / c\nimport d.b\n" := by
  decide +kernel

end UnusedImports
