import UnusedImports.Proofs.ByteOrderMark.Tokens
import UnusedImports.Proofs.Noninterference
import UnusedImports.Proofs.Outline.Reading

/-!
The outline after a byte order mark. Positions of tokens count from the end of the source, so one
more symbol at its start, which only separates, moves them all on by one. The clauses and the uses
of names stay as they are, and so do the verdicts on the imports.
-/
namespace UnusedImports

def ImportStatement.advance (count : Nat) (statement : ImportStatement) : ImportStatement where
  annotations := statement.annotations.map (Extent.advance count)
  clause := statement.clause
  tokens := statement.tokens.advance count

namespace Outline

def sites (outline : Outline) : List ImportStatement × List Extent :=
  (outline.imports, partsOf outline.body)

def sitesAfter (count : Nat) (outline : Outline) : List ImportStatement × List Extent :=
  (outline.imports.map (ImportStatement.advance count),
    (partsOf outline.body).map (Extent.advance count))

section Advancing

variable {stop : Nat} (count : Nat)

theorem partsOf_append (first second : List Item) :
    partsOf (first ++ second) = partsOf first ++ partsOf second := by
  induction first with
  | nil => rfl
  | cons item rest ih => rw [List.cons_append, partsOf, partsOf, ih, List.append_assoc]

theorem advance_extent {first last : Nat} (hfirst : first ≤ stop) (hlast : last ≤ stop) :
    (⟨stop + count - first, stop + count - last⟩ : Extent) =
      Extent.advance count ⟨stop - first, stop - last⟩ := by
  simp only [Extent.advance, Extent.mk.injEq]
  omega

/-- The parts of items move with the end of the source. -/
theorem partsOf_items {symbols : List Symbol} (h : symbols.length ≤ stop) :
    partsOf (items (stop + count) symbols) =
      (partsOf (items stop symbols)).map (Extent.advance count) := by
  fun_induction items stop symbols with
  | case1 =>
    rw [items]
    rfl
  | case2 stop symbol rest hseparator ih =>
    rw [List.length_cons] at h
    rw [items, if_pos hseparator]
    exact ih (by omega)
  | case3 stop symbol rest hsolid body htype after ihmembers ihafter =>
    have hbody := length_typeBody htype
    have hgroup : (splitGroup 0 body).1.length + after.length ≤ body.length :=
      length_splitGroup 0 body
    rw [List.length_cons] at h hbody
    have hinner : stop + count - (after.length + 1) = stop - (after.length + 1) + count := by omega
    rw [items, if_neg hsolid]
    split
    · rename_i other hother
      obtain rfl := Option.some.inj (htype.symm.trans hother)
      simp only [partsOf, Item.parts, List.map_cons, List.map_append, List.cons_append]
      rw [advance_extent count (by omega) (by omega)]
      congr 2
      · rw [show (splitGroup 0 body).2 = after from rfl, hinner]
        exact ihmembers (by omega)
      · exact ihafter (by omega)
    · rename_i hnone
      simp [htype] at hnone
  | case4 stop symbol rest hsolid htype ih =>
    have hafter := length_afterStatement symbol rest
    rw [List.length_cons] at h
    rw [items, if_neg hsolid]
    split
    · rename_i other hother
      simp [htype] at hother
    · simp only [partsOf, Item.parts, List.map_cons, List.cons_append, List.nil_append]
      rw [advance_extent count (by omega) (by omega), ih (by omega)]

/-- The parts of the first item move with the end of the source. -/
theorem parts_firstItem {symbol : Symbol} {rest : List Symbol} (h : rest.length < stop) :
    (firstItem (stop + count) symbol rest).2 = (firstItem stop symbol rest).2 ∧
      (firstItem (stop + count) symbol rest).1.parts =
        (firstItem stop symbol rest).1.parts.map (Extent.advance count) := by
  unfold firstItem
  cases htype : typeBody? (symbol :: rest) with
  | none =>
    have hafter := length_afterStatement symbol rest
    refine ⟨rfl, ?_⟩
    simp only [Item.parts, List.map_cons, List.map_nil]
    rw [advance_extent count (by omega) (by omega)]
  | some body =>
    have hbody := length_typeBody htype
    have hgroup := length_splitGroup 0 body
    rw [List.length_cons] at hbody
    have hinner : stop + count - ((splitGroup 0 body).2.length + 1) =
        stop - ((splitGroup 0 body).2.length + 1) + count := by omega
    refine ⟨rfl, ?_⟩
    simp only [Item.parts, List.map_cons]
    rw [advance_extent count (by omega) (by omega), hinner, partsOf_items count (by omega)]

/-- What is done to outlines that correspond leaves them corresponding. -/
theorem map_sites {result later : Except ParseFault Outline} {change rechange : Outline → Outline}
    (hresult : later.toOption.map sites = result.toOption.map (sitesAfter count))
    (hchange : ∀ outline other, sites other = sitesAfter count outline →
      sites (rechange other) = sitesAfter count (change outline)) :
    (later.map rechange).toOption.map sites =
      (result.map change).toOption.map (sitesAfter count) := by
  cases result with
  | error fault =>
    cases later with
    | error _ => rfl
    | ok _ => simp [Except.toOption] at hresult
  | ok outline =>
    cases later with
    | error _ => simp [Except.toOption] at hresult
    | ok other => exact congrArg some (hchange outline other (Option.some.inj hresult))

/-- Comparing positions is the same after they have moved. -/
theorem sub_lt_sub_add {first last : Nat} (hfirst : first ≤ stop) (hlast : last ≤ stop) :
    stop + count - first < stop + count - last ↔ stop - first < stop - last := by
  omega

/-- The annotations before a keyword move with the end of the source. -/
theorem annotations_add {first keyword : Nat} (hfirst : first ≤ stop) (hkeyword : keyword ≤ stop) :
    (if stop + count - first < stop + count - keyword then
        some (⟨stop + count - first, stop + count - keyword⟩ : Extent) else none) =
      (if stop - first < stop - keyword then
        some (⟨stop - first, stop - keyword⟩ : Extent) else none).map (Extent.advance count) := by
  rw [advance_extent count hfirst hkeyword]
  split
  · rename_i h
    rw [if_pos ((sub_lt_sub_add count hfirst hkeyword).mp h), Option.map_some]
  · rename_i h
    rw [if_neg (mt (sub_lt_sub_add count hfirst hkeyword).mpr h), Option.map_none]

theorem topLevel_add {packageAllowed : Bool} {before : Option Symbol} {symbols : List Symbol}
    (h : symbols.length ≤ stop) :
    (topLevel (stop + count) packageAllowed before symbols).toOption.map sites =
      (topLevel stop packageAllowed before symbols).toOption.map (sitesAfter count) := by
  -- What is read depends on the symbols alone; each case only compares the positions it writes.
  fun_induction topLevel stop packageAllowed before symbols with
  | case1 =>
    rw [topLevel]
    rfl
  | case2 packageAllowed before symbol rest hseparator ih =>
    rw [List.length_cons] at h
    rw [topLevel, if_pos hseparator]
    exact ih (by omega)
  | case3 packageAllowed before symbol rest hsolid after hopening wrong hclause =>
    rw [topLevel_malformedImport (by simpa using hsolid) hopening hclause]
    rfl
  | case4 packageAllowed before symbol rest start hsolid after hopening keyword clause next hclause
      ih =>
    have hafter := length_of_importKeyword hopening
    have hnext := length_importClause hclause
    rw [List.length_cons] at h hafter
    rw [topLevel_import (stop + count) hsolid hopening hclause]
    refine map_sites count (ih (by omega)) ?_
    intro outline other hother
    obtain ⟨himports, hparts⟩ := Prod.mk.inj hother
    refine Prod.ext ?_ hparts
    simp only [sites, sitesAfter, addImport, List.map_cons, ImportStatement.advance]
    rw [annotations_add count (by omega) (by omega), advance_extent count (by omega) (by omega),
      himports]
  | case5 packageAllowed before symbol rest hsolid after hopening keyword hclause =>
    rw [topLevel_malformedPackage (stop + count) hsolid hopening hclause]
    rfl
  | case6 packageAllowed before symbol rest start hsolid after hopening keyword next hclause ih =>
    have hafter := length_of_packageKeyword hopening
    have hnext := length_packageClause hclause
    rw [List.length_cons] at h hafter
    rw [topLevel_package (stop + count) hsolid hopening hclause]
    refine map_sites count (ih (by omega)) ?_
    intro outline other hother
    obtain ⟨himports, hparts⟩ := Prod.mk.inj hother
    refine Prod.ext himports ?_
    simp only [sites, sitesAfter, addItems, partsOf_append, List.map_append]
    rw [advance_extent count (by omega) (by omega), hparts]
    congr 1
    split
    · rename_i hlt
      rw [if_pos ((sub_lt_sub_add count (by omega) (by omega)).mp hlt)]
      rfl
    · rename_i hle
      rw [if_neg (mt (sub_lt_sub_add count (by omega) (by omega)).mpr hle)]
      rfl
  | case7 packageAllowed before symbol rest hsolid hopening first ih =>
    have hlength : first.2.length ≤ rest.length := length_firstItem stop symbol rest
    rw [List.length_cons] at h
    obtain ⟨hafter, hitem⟩ :=
      @parts_firstItem stop count symbol rest (show rest.length < stop by omega)
    rw [topLevel_body (stop + count) hsolid hopening, hafter]
    refine map_sites count (ih (by omega)) ?_
    intro outline other hother
    obtain ⟨himports, hparts⟩ := Prod.mk.inj hother
    refine Prod.ext himports ?_
    simp only [sites, sitesAfter, addItems, partsOf_append, List.map_append, partsOf,
      List.append_nil]
    rw [hitem, hparts]

end Advancing

/-- Whether brackets match does not depend on where they stand. -/
theorem isSome_bracketFaultFrom {pending others : List (Bracket × Nat)} {position other : Nat}
    {symbols : List Symbol} (h : others.map Prod.fst = pending.map Prod.fst) :
    (bracketFaultFrom others other symbols).isSome =
      (bracketFaultFrom pending position symbols).isSome := by
  fun_induction bracketFaultFrom pending position symbols generalizing others other with
  | case1 pending position =>
    have hhead := congrArg List.head? h
    rw [List.head?_map, List.head?_map] at hhead
    have hsome := congrArg Option.isSome hhead
    rw [Option.isSome_map, Option.isSome_map] at hsome
    rw [bracketFaultFrom, Option.isSome_map, Option.isSome_map, hsome]
  | case2 pending position rest bracket ih =>
    rw [bracketFaultFrom]
    apply ih
    rw [List.map_cons, List.map_cons, h]
  | case3 position rest bracket =>
    obtain rfl := List.map_eq_nil_iff.mp h
    rfl
  | case4 position rest last pending ih =>
    obtain ⟨first, others, rfl, hfirst, hothers⟩ := List.map_eq_cons_iff.mp h
    rw [bracketFaultFrom, if_pos hfirst]
    exact ih hothers
  | case5 position rest bracket last pending hwrong =>
    obtain ⟨first, others, rfl, hfirst, hothers⟩ := List.map_eq_cons_iff.mp h
    rw [bracketFaultFrom, if_neg (hfirst ▸ hwrong)]
    rfl
  | case6 pending position symbol rest hopening hclosing ih =>
    rw [bracketFaultFrom]
    · exact ih h
    · exact hopening
    · exact hclosing

/-- White space before everything else moves the outline on by one token. -/
theorem ofSymbols_gap (symbols : List Symbol) :
    (ofSymbols (.gap :: symbols)).toOption.map sites =
      (ofSymbols symbols).toOption.map (sitesAfter 1) := by
  have hfault : (bracketFault? (.gap :: symbols)).isSome = (bracketFault? symbols).isSome := by
    unfold bracketFault?
    rw [bracketFaultFrom]
    · exact isSome_bracketFaultFrom rfl
    · simp
    · simp
  have htop : topLevel (.gap :: symbols).length true none (.gap :: symbols) =
      topLevel (symbols.length + 1) true none symbols := by
    rw [List.length_cons, topLevel, if_pos (by decide)]
    rfl
  unfold ofSymbols
  cases hlater : bracketFault? symbols with
  | some fault =>
    obtain ⟨other, hother⟩ := Option.isSome_iff_exists.mp (hfault.trans (by rw [hlater]; rfl))
    rw [hother]
    rfl
  | none =>
    rw [hlater] at hfault
    have hnone : bracketFault? (.gap :: symbols) = none := by simpa using hfault
    rw [hnone, htop]
    exact topLevel_add 1 (Nat.le_refl _)

end Outline

theorem Extent.slice_advance {α : Type} (first : α) (rest : List α) (extent : Extent) :
    (extent.advance 1).slice (first :: rest) = extent.slice rest := by
  unfold slice advance
  rw [List.drop_succ_cons, Nat.add_sub_add_right]

/-- The mark is no use of a name, and it is trivia before all others. -/
theorem Reference.uses_afterMark (tokens : List Token) :
    uses (Token.afterMark tokens) = none :: uses tokens := by
  unfold uses Token.afterMark
  rw [List.map_cons, List.map_map]
  rfl

theorem ImportDeclaration.ofStatement_advance (locate : Extent → Span) (count : Nat)
    (statement : ImportStatement) :
    ofStatement locate (statement.advance count) =
      ofStatement (locate ∘ Extent.advance count) statement := by
  unfold ofStatement ImportStatement.advance
  rw [Option.isSome_map]
  rfl

namespace Source

structure Marked (source other : Source) : Prop where
  tokens : other.tokens = Token.afterMark source.tokens
  sites : other.outline.sites = source.outline.sitesAfter 1

variable {source other : Source}

theorem Marked.imports (h : source.Marked other) :
    other.outline.imports = source.outline.imports.map (ImportStatement.advance 1) :=
  (Prod.mk.inj h.sites).1

theorem Marked.within (h : source.Marked other) (extent : Extent) :
    (Reference.within other.references (extent.advance 1)).map Reference.use =
      (Reference.within source.references extent).map Reference.use := by
  rw [Reference.map_use_within, Reference.map_use_within]
  unfold references
  rw [Reference.map_use_ofTokens, Reference.map_use_ofTokens, h.tokens, Reference.uses_afterMark,
    Extent.slice_advance]

theorem Marked.bodyReferences (h : source.Marked other) :
    other.bodyReferences.map Reference.use = source.bodyReferences.map Reference.use := by
  have hparts : Outline.partsOf other.outline.body = _ := (Prod.mk.inj h.sites).2
  unfold Source.bodyReferences
  rw [hparts, List.map_flatMap, List.map_flatMap, List.flatMap_map]
  congr 1
  funext extent
  exact h.within extent

theorem Marked.annotationReferences (h : source.Marked other) :
    other.annotationReferences.map (List.map Reference.use) =
      source.annotationReferences.map (List.map Reference.use) := by
  unfold Source.annotationReferences
  rw [h.imports, List.map_map, List.map_map, List.map_map]
  apply List.map_congr_left
  intro statement _
  simp only [Function.comp_apply, ImportStatement.advance]
  cases statement.annotations with
  | none => rfl
  | some extent => exact h.within extent

/-- The verdicts do not change: the imports at the same positions are removed. -/
theorem Marked.unusedPositions (h : source.Marked other) (policy : Policy) :
    (Analysis.ofSource policy other).unusedPositions =
      (Analysis.ofSource policy source).unusedPositions := by
  have hdeclarations : other.declarations = source.outline.imports.map
      (.ofStatement (other.locateTokens ∘ Extent.advance 1)) := by
    unfold Source.declarations
    rw [h.imports, List.map_map]
    apply List.map_congr_left
    intro statement _
    exact ImportDeclaration.ofStatement_advance other.locateTokens 1 statement
  apply Analysis.unusedPositions_of_removals
  unfold Analysis.ofSource
  simp only [hdeclarations]
  exact (Settlement.settle_of_uses policy source.locateTokens _ source.outline.imports
    h.bodyReferences h.annotationReferences).2

/-- With a byte order mark before it a text can be read exactly when it can be read without, and
what is read is the same but for the mark. -/
theorem read_mark {text : List Char} (h : text.head? ≠ some Text.byteOrderMark) :
    (∃ failure another, read text = .error failure ∧
      read (Text.byteOrderMark :: text) = .error another) ∨
    ∃ source other, read text = .ok source ∧ read (Text.byteOrderMark :: text) = .ok other ∧
      source.Marked other := by
  have hlex := Token.lex_mark h
  cases hplain : Token.lex text with
  | error fault =>
    cases hother : Token.lex (Text.byteOrderMark :: text) with
    | error another =>
      obtain ⟨failure, hfailure⟩ := exists_failure_of_fault hplain
      obtain ⟨another, hanother⟩ := exists_failure_of_fault hother
      exact Or.inl ⟨failure, another, hfailure, hanother⟩
    | ok others => simp [hplain, hother, Except.toOption] at hlex
  | ok tokens =>
    cases hother : Token.lex (Text.byteOrderMark :: text) with
    | error another => simp [hplain, hother, Except.toOption] at hlex
    | ok others =>
      rw [hplain, hother] at hlex
      obtain rfl : others = Token.afterMark tokens := Option.some.inj hlex
      have hsymbols : (Token.afterMark tokens).map Token.symbol =
          .gap :: tokens.map Token.symbol := by
        unfold Token.afterMark
        rw [List.map_cons, List.map_map]
        rfl
      have hsites := Outline.ofSymbols_gap (tokens.map Token.symbol)
      rw [read_of_lex hplain, read_of_lex hother, hsymbols]
      cases houtline : Outline.ofSymbols (tokens.map Token.symbol) with
      | error fault =>
        cases hlater : Outline.ofSymbols (.gap :: tokens.map Token.symbol) with
        | error another => exact Or.inl ⟨_, _, rfl, rfl⟩
        | ok later => simp [houtline, hlater, Except.toOption] at hsites
      | ok outline =>
        cases hlater : Outline.ofSymbols (.gap :: tokens.map Token.symbol) with
        | error another => simp [houtline, hlater, Except.toOption] at hsites
        | ok later =>
          rw [houtline, hlater] at hsites
          exact Or.inr ⟨_, _, rfl, rfl, ⟨rfl, Option.some.inj hsites⟩⟩

end Source

end UnusedImports
