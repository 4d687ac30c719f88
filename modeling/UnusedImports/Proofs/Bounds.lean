import UnusedImports.Proofs.Excision.Copy
import UnusedImports.Proofs.Outline.Bounds
import UnusedImports.Proofs.Stability
import UnusedImports.Proofs.Token.Bounds

/-!
Nothing is out of bounds. Whatever a text holds, all that is said about it has a place in it: the
tokens, the clauses, the references, and also the fault of a text that cannot be read. Each of these
places is a stretch of whole characters, found on a line that is there. The cuts that remove unused
imports are such stretches too, so what is left can be copied slice by slice.
-/
namespace UnusedImports

open UnusedImports.Text
open UnusedImports.LineIndex (Located located_span)

namespace Source

/-- The runs of tokens that a source names: its clauses and body items, the annotations before its
imports, and the parts of its body that are searched. -/
def runs (source : Source) : List Extent :=
  source.outline.extents ++ source.outline.imports.filterMap ImportStatement.annotations ++
    Outline.partsOf source.outline.body

structure Bounded (text : List Char) (source : Source) : Prop where
  tokens : ∀ token ∈ source.tokens, Located text (source.locate token.extent)
  runs : ∀ run ∈ source.runs,
    Outline.Among source.tokens.length run ∧ Located text (source.locateTokens run)
  declarations : ∀ declaration ∈ source.declarations, Located text declaration.span
  references : ∀ reference, some reference ∈ source.references → Located text reference.span
  searched : ∀ reference ∈ source.bodyReferences ++ source.annotationReferences.flatten,
    Located text reference.span

section Faults

variable {text : List Char}

/-- A fault in the structure is found at a token, and it has the bytes of this token. -/
theorem whole_faultExtent {tokens : List Token} {fault : ParseFault}
    (hlex : Token.lex text = .ok tokens)
    (h : Outline.ofSymbols (tokens.map Token.symbol) = .error fault) :
    Whole text (faultExtent text tokens fault) := by
  have hposition := Outline.position_lt_of_ofSymbols h
  rw [List.length_map] at hposition
  rw [faultExtent, List.getElem?_eq_getElem hposition]
  exact (Token.stands_token hlex (List.getElem_mem hposition)).whole

/-- A text that cannot be read has the fault in it. -/
theorem exists_located_of_error {failure : Failure} (h : read text = .error failure) :
    ∃ span, failure.span? = some span ∧ Located text span := by
  unfold read at h
  split at h
  · rename_i found hfound
    obtain rfl := Except.error.inj h
    unfold tokenize at hfound
    split at hfound
    · simp at hfound
    · rename_i fault hfault
      obtain rfl := Except.error.inj hfound
      exact ⟨_, rfl, located_span (Token.whole_of_lex_error hfault)⟩
  · rename_i tokens htokens
    simp only at h
    split at h
    · simp at h
    · rename_i fault hfault
      obtain rfl := Except.error.inj h
      exact ⟨_, rfl, located_span (whole_faultExtent (lex_of_tokenize htokens) hfault)⟩

end Faults

section Places

variable {text : List Char} {source : Source}

theorem whole_bytesOf (hlex : Token.lex text = .ok source.tokens) {run : Extent}
    (hamong : Outline.Among source.tokens.length run) :
    Whole text (Token.bytesOf source.tokens run) := by
  obtain ⟨hstands, hlength, hle⟩ := stands_bytesOf hlex hamong.1 hamong.2
  have hwhole := hstands.whole
  rwa [hlength, Nat.add_sub_cancel' hle] at hwhole

/-- The runs of tokens that a source names lie among its tokens. -/
theorem among_of_mem_runs
    (houtline : Outline.ofSymbols (source.tokens.map Token.symbol) = .ok source.outline)
    {run : Extent} (hrun : run ∈ source.runs) : Outline.Among source.tokens.length run := by
  obtain ⟨pieces, hcuts⟩ := Outline.exists_cuts houtline
  rw [← List.length_map Token.symbol]
  rcases List.mem_append.mp hrun with hrun | hpart
  · rcases List.mem_append.mp hrun with hextent | hannotations
    · exact hcuts.among_extents hextent
    · obtain ⟨statement, hmem, hannotations⟩ := List.mem_filterMap.mp hannotations
      exact (Outline.importAt_ofSymbols houtline hmem).among_annotations hannotations
  · exact hcuts.among_parts hpart

theorem exists_token_of_reference {reference : Reference}
    (h : some reference ∈ source.references) :
    ∃ token ∈ source.tokens, reference.span = source.locate token.extent := by
  obtain ⟨position, hposition⟩ := List.mem_iff_getElem?.mp h
  rw [references, Reference.ofTokens, List.getElem?_zipWith_eq_some] at hposition
  obtain ⟨token, use, htoken, -, hreference⟩ := hposition
  obtain ⟨found, -, rfl⟩ := Option.map_eq_some_iff.mp hreference
  exact ⟨token, List.mem_of_getElem? htoken, rfl⟩

theorem some_mem_references {reference : Reference} {run : Extent}
    (h : reference ∈ Reference.within source.references run) :
    some reference ∈ source.references := by
  obtain ⟨found, hfound, heq⟩ := List.mem_filterMap.mp h
  obtain ⟨position, -, hposition⟩ := Extent.exists_of_mem_slice hfound
  exact heq ▸ List.mem_of_getElem? hposition

/-- The references that are judged are some of those of the tokens. -/
theorem some_mem_of_searched {reference : Reference}
    (h : reference ∈ source.bodyReferences ++ source.annotationReferences.flatten) :
    some reference ∈ source.references := by
  rcases List.mem_append.mp h with hbody | hannotation
  · obtain ⟨part, -, hwithin⟩ := List.mem_flatMap.mp hbody
    exact some_mem_references hwithin
  · obtain ⟨own, hown, hmem⟩ := List.mem_flatten.mp hannotation
    obtain ⟨statement, -, rfl⟩ := List.mem_map.mp hown
    split at hmem
    · exact some_mem_references hmem
    · simp at hmem

theorem bounded_of_read (h : read text = .ok source) : source.Bounded text := by
  obtain ⟨-, hindex, hlex, houtline⟩ := of_read h
  have hlocated : ∀ {extent : Extent}, Whole text extent → Located text (source.locate extent) := by
    intro extent hwhole
    rw [locate, hindex]
    exact located_span hwhole
  have htokens : ∀ token ∈ source.tokens, Located text (source.locate token.extent) :=
    fun token hmem => hlocated (Token.stands_token hlex hmem).whole
  have hruns : ∀ run ∈ source.runs,
      Outline.Among source.tokens.length run ∧ Located text (source.locateTokens run) := by
    intro run hrun
    have hamong := among_of_mem_runs houtline hrun
    exact ⟨hamong, hlocated (whole_bytesOf hlex hamong)⟩
  have hreferences : ∀ reference, some reference ∈ source.references →
      Located text reference.span := by
    intro reference hmem
    obtain ⟨token, htoken, hspan⟩ := exists_token_of_reference hmem
    exact hspan ▸ htokens token htoken
  refine ⟨htokens, hruns, fun declaration hmem => ?_, hreferences, fun reference hmem =>
    hreferences reference (some_mem_of_searched hmem)⟩
  obtain ⟨statement, hstatement, rfl⟩ := List.mem_map.mp hmem
  refine (hruns statement.tokens ?_).2
  refine List.mem_append_left _ (List.mem_append_left _ ?_)
  exact List.mem_append_left _ (List.mem_append_right _ (List.mem_map_of_mem hstatement))

end Places

end Source

namespace Analysis

structure Bounded (text : List Char) (analysis : Analysis) : Prop where
  removed : ∀ declaration ∈ analysis.unused, Excision.OnLines text declaration.span.extent
  cuts : ∀ cut ∈ analysis.plan.cuts, Whole text cut
  copied : Excision.copy? text 0 (analysis.plan.cuts.mergeSort Excision.comesBefore) =
    some analysis.trimmedText

theorem bounded_ofSource (policy : Policy) {text : List Char} {source : Source}
    (h : Source.read text = .ok source) : (ofSource policy source).Bounded text := by
  obtain ⟨htext, -, hlex, houtline⟩ := Source.of_read h
  obtain ⟨chosen, hchosen, hbytes⟩ := exists_chosen policy source
  have hselects : source.Selects text chosen := ⟨hlex, houtline, hchosen⟩
  have hplan : (ofSource policy source).plan =
      Excision.plan text source.tokens (source.bytesOfImports chosen) := by
    rw [plan, hbytes, show (ofSource policy source).source = source from rfl, htext]
  have htrimmed : (ofSource policy source).trimmedText =
      Excision.remove text source.tokens (source.bytesOfImports chosen) := by
    rw [trimmedText, hbytes, show (ofSource policy source).source = source from rfl, htext]
  refine ⟨fun declaration hmem => ?_, fun cut hcut => ?_, ?_⟩
  · have hremoval : declaration.span.extent ∈ source.bytesOfImports chosen :=
      hbytes ▸ List.mem_map_of_mem hmem
    exact Excision.onLines (hselects.aligned_bytes _ hremoval) (hselects.framed _ hremoval)
  · exact Excision.whole_of_mem_plan hselects.aligned_bytes (hplan ▸ hcut)
  · rw [hplan, htrimmed]
    exact Excision.copy?_eq_remove hselects.aligned_bytes

end Analysis

/-- The bounds of any text. Wherever the lexer stands, it is between two characters, and the tokens
that it made are stretches of whole characters. So are the lines, with and without their line ends.
A fault in the structure is found at a token, and each failure has a place in the text. A source
that was read lies in its text, and so does what is cut to remove the imports that a policy finds
unused. -/
theorem bounds_of_text (policy : Policy) (text : List Char) :
    (∀ lexer, Token.Lexer.Reads text lexer →
      lexer.Placed text ∧ ∀ token ∈ lexer.tokens, Whole text token.extent) ∧
    (∀ line ∈ (LineIndex.ofText text).lines,
      Whole text line.extent ∧ Whole text ⟨line.start, line.contentStop⟩) ∧
    (∀ tokens fault, Token.lex text = .ok tokens →
      Outline.ofSymbols (tokens.map Token.symbol) = .error fault →
        fault.position < tokens.length) ∧
    (∀ failure, Source.read text = .error failure →
      ∃ span, failure.span? = some span ∧ Located text span) ∧
    ∀ source, Source.read text = .ok source →
      source.Bounded text ∧ (Analysis.ofSource policy source).Bounded text := by
  refine ⟨fun lexer hreads => ⟨hreads.invariant.placed, fun token => hreads.whole⟩,
    fun line hline => ⟨Excision.whole_extent hline, (LineIndex.stands_content hline).whole⟩,
    fun tokens fault _ hfault => ?_, fun failure => Source.exists_located_of_error,
    fun source hread => ⟨Source.bounded_of_read hread, Analysis.bounded_ofSource policy hread⟩⟩
  have hposition := Outline.position_lt_of_ofSymbols hfault
  rwa [List.length_map] at hposition

/-- A source whose literal breaks off behind a letter of two bytes, and one that shares a line with
the import to be removed and has such letters before it and behind it. -/
theorem bounds_of_text_wide :
    (∃ failure, Source.read "def ü = 'ß".toList = .error failure ∧
      ∃ span, failure.span? = some span ∧ Located "def ü = 'ß".toList span) ∧
    ∃ source, Source.read "/* ü */ import a.Ü; ß()\n".toList = .ok source ∧
      (Analysis.ofSource ⟨[], true, true⟩ source).unused.map ImportDeclaration.display =
        ["import a.Ü"] ∧
      source.Bounded "/* ü */ import a.Ü; ß()\n".toList ∧
      (Analysis.ofSource ⟨[], true, true⟩ source).Bounded "/* ü */ import a.Ü; ß()\n".toList := by
  constructor
  · have hrun : (Source.read "def ü = 'ß".toList).isOk = false := by
      decide +kernel
    generalize "def ü = 'ß".toList = text at hrun ⊢
    cases hread : Source.read text with
    | ok source => simp [hread, Except.isOk, Except.toBool] at hrun
    | error failure =>
      exact ⟨failure, rfl, (bounds_of_text ⟨[], true, true⟩ text).2.2.2.1 failure hread⟩
  · have hrun : ((Source.read "/* ü */ import a.Ü; ß()\n".toList).toOption.any fun source =>
        (Analysis.ofSource ⟨[], true, true⟩ source).unused.map ImportDeclaration.display =
          ["import a.Ü"]) = true := by
      decide +kernel
    generalize "/* ü */ import a.Ü; ß()\n".toList = text at hrun ⊢
    cases hread : Source.read text with
    | error failure => simp [hread, Except.toOption] at hrun
    | ok source =>
      exact ⟨source, rfl, by simpa [hread, Except.toOption] using hrun,
        (bounds_of_text ⟨[], true, true⟩ text).2.2.2.2 source hread⟩

end UnusedImports
