import UnusedImports.Proofs.Excision.Density
import UnusedImports.Proofs.Outline.Division
import UnusedImports.Proofs.Removal
import UnusedImports.Proofs.Stability

/-!
The parts of an outcome belong together. A source that cannot be analysed stays as it is, with one
note that says why. Any other comes without notes, with the imports that the analysis found
unused: they stand one after the other, and all their bytes are cut. So the text changes exactly if
an import is removed, and it loses the bytes of all that are.
-/
namespace UnusedImports

open UnusedImports.Text

def Extent.totalLength : List Extent → Nat
  | [] => 0
  | extent :: rest => (extent.stop - extent.start) + totalLength rest

theorem Text.byteLength_le_of_sublist {first second : List Char} (h : first.Sublist second) :
    byteLength first ≤ byteLength second := by
  induction h with
  | slnil => exact Nat.le_refl _
  | cons c _ ih => exact Nat.le_trans ih (Nat.le_add_left _ _)
  | cons_cons c _ ih => exact Nat.add_le_add_left ih _

namespace Excision

/-- A text loses the bytes of all parts that are cut, if these come one after the other. -/
theorem byteLength_erase_add_le {cuts : List Extent} {text : List Char} (parts : List Extent)
    (hpairs : parts.Pairwise fun first second => first.stop ≤ second.start)
    (hstands : ∀ part ∈ parts, Stands text (textOf text part) part.start ∧
      byteLength (textOf text part) = part.stop - part.start ∧ part.start ≤ part.stop)
    (hhits : ∀ part ∈ parts, ∀ offset, part.contains offset = true → Hits cuts offset)
    {before rest : List Char} (htext : text = before ++ rest)
    (hbefore : ∀ part ∈ parts, byteLength before ≤ part.start) :
    byteLength (erase cuts (byteLength before) rest) + Extent.totalLength parts ≤
      byteLength rest := by
  induction parts generalizing before rest with
  | nil => exact byteLength_le_of_sublist (erase_sublist _ _ _)
  | cons part parts ih =>
    obtain ⟨hfirst, hpairs⟩ := List.pairwise_cons.mp hpairs
    obtain ⟨⟨before', after, hsplit, hstart⟩, hlength, hforward⟩ := hstands part List.mem_cons_self
    obtain ⟨between, rfl, hrest⟩ := exists_between (htext.symm.trans hsplit)
      (hstart ▸ hbefore part List.mem_cons_self)
    have hgone : erase cuts part.start (textOf text part) = [] := by
      refine erase_of_hits fun offset c hc => hhits part List.mem_cons_self _ ?_
      have hlt := lt_of_charAt? hc
      exact Extent.contains_iff.mpr ⟨Nat.le_add_right _ _, by omega⟩
    have hbehind := ih hpairs (fun other hother => hstands other (List.mem_cons_of_mem _ hother))
      (fun other hother => hhits other (List.mem_cons_of_mem _ hother))
      (show text = (before ++ between ++ textOf text part) ++ after by
        rw [List.append_assoc]
        exact hsplit)
      (by
        intro other hother
        have hle := hfirst other hother
        rw [byteLength_append, hstart]
        omega)
    have hleft := byteLength_le_of_sublist (erase_sublist cuts (byteLength before) between)
    rw [byteLength_append] at hstart
    rw [byteLength_append, byteLength_append, hstart] at hbehind
    rw [hrest, erase_append, erase_append, hstart, hgone, List.nil_append, byteLength_append,
      byteLength_append, byteLength_append, Extent.totalLength]
    omega

end Excision

namespace Source

/-- The tokens of an import are some of those of the source. -/
theorem bounds_of_mem_imports {source : Source} {symbols : List Symbol}
    (h : Outline.ofSymbols symbols = .ok source.outline) {statement : ImportStatement}
    (hmem : statement ∈ source.outline.imports) :
    statement.tokens.start < statement.tokens.stop ∧ statement.tokens.stop ≤ symbols.length := by
  have hat := Outline.importAt_ofSymbols h hmem
  exact ⟨Nat.lt_of_le_of_lt hat.start_le_keyword hat.clause.keyword_lt_stop, hat.clause.stop_le⟩

/-- The imports of a source that was read stand one after the other. -/
theorem pairwise_declarations {text : List Char} {source : Source} (h : read text = .ok source) :
    source.declarations.Pairwise fun first second =>
      first.span.extent.stop ≤ second.span.extent.start := by
  obtain ⟨-, -, hlex, houtline⟩ := of_read h
  obtain ⟨pieces, hcuts⟩ := Outline.exists_cuts houtline
  rw [declarations, List.pairwise_map]
  refine hcuts.pairwise_imports.imp_of_mem fun hfirst hsecond hle => ?_
  obtain ⟨hforward, -⟩ := bounds_of_mem_imports houtline hfirst
  obtain ⟨hforward', hstop⟩ := bounds_of_mem_imports houtline hsecond
  rw [List.length_map] at hstop
  exact stop_le_start_bytesOf hlex hforward hforward' hstop hle

end Source

namespace Analysis

variable {policy : Policy} {text : List Char} {source : Source}

theorem unused_sublist : (ofSource policy source).unused.Sublist source.declarations := by
  rw [← @map_declaration_ofSource policy source]
  exact List.filter_sublist.map _

theorem start_lt_stop_of_mem_unused (h : Source.read text = .ok source)
    {declaration : ImportDeclaration} (hmem : declaration ∈ (ofSource policy source).unused) :
    declaration.span.extent.start < declaration.span.extent.stop := by
  obtain ⟨-, -, hlex, houtline⟩ := Source.of_read h
  obtain ⟨chosen, hchosen, hbytes⟩ := exists_chosen policy source
  have hselects : source.Selects text chosen := ⟨hlex, houtline, hchosen⟩
  exact (hselects.aligned_bytes _ (hbytes ▸ List.mem_map_of_mem hmem)).start_lt_stop

theorem byteLength_trimmedText_add_le (policy : Policy) (h : Source.read text = .ok source) :
    byteLength (ofSource policy source).trimmedText +
        Extent.totalLength ((ofSource policy source).unused.map fun declaration =>
          declaration.span.extent) ≤
      byteLength text := by
  obtain ⟨htext, -, hlex, houtline⟩ := Source.of_read h
  obtain ⟨chosen, hchosen, hbytes⟩ := exists_chosen policy source
  have hselects : source.Selects text chosen := ⟨hlex, houtline, hchosen⟩
  have hpairs : (source.bytesOfImports chosen).Pairwise fun first second =>
      first.stop ≤ second.start := by
    rw [← hbytes, List.pairwise_map]
    exact (Source.pairwise_declarations h).sublist unused_sublist
  have hstands : ∀ part ∈ source.bytesOfImports chosen,
      Stands text (textOf text part) part.start ∧
        byteLength (textOf text part) = part.stop - part.start ∧ part.start ≤ part.stop := by
    intro part hpart
    obtain ⟨statement, hmem, rfl⟩ := List.mem_map.mp hpart
    obtain ⟨hforward, hstop⟩ := Source.bounds_of_mem_imports houtline (hchosen statement hmem)
    rw [List.length_map] at hstop
    exact Source.stands_bytesOf hlex hforward hstop
  rw [trimmedText_eq_erase policy h, plan, hbytes,
    show (ofSource policy source).source = source from rfl, htext]
  exact Excision.byteLength_erase_add_le (source.bytesOfImports chosen) hpairs hstands
    (fun part hpart offset hcontains => Excision.hits_of_removed hselects.aligned_bytes
      hselects.not_mark hpart hcontains) (List.nil_append text).symm fun _ _ => Nat.zero_le _

end Analysis

/-- The outcome of trimming in its parts. Where the analysis fails, the source is left as it is with
one note, and nothing else. Where it does not, there is no note, and the removed imports are those
that the analysis found unused; exactly if there are any, the outcome says that it has changes and
the text is another one, which is shorter by all their bytes at least. -/
theorem trim_coherent (policy : Policy) (source : String) :
    (∀ failure, analyze policy source = .error failure →
      trim policy source = ⟨source, [], false, [⟨failure.message, failure.span?⟩]⟩) ∧
    ∀ analysis, analyze policy source = .ok analysis →
      (trim policy source).diagnostics = [] ∧ (trim policy source).removed = analysis.unused ∧
      ((trim policy source).hasChanges = true ↔ (trim policy source).removed ≠ []) ∧
      ((trim policy source).removed ≠ [] ↔ (trim policy source).code ≠ source) ∧
      (∀ declaration ∈ (trim policy source).removed,
        declaration.span.extent.start < declaration.span.extent.stop) ∧
      byteLength (trim policy source).code.toList +
          Extent.totalLength ((trim policy source).removed.map fun declaration =>
            declaration.span.extent) ≤
        byteLength source.toList := by
  constructor
  · intro failure hfailure
    rw [trim, hfailure]
    rfl
  · intro analysis hanalysis
    obtain ⟨found, hread, rfl⟩ : ∃ found, Source.read source.toList = .ok found ∧
        Analysis.ofSource policy found = analysis := by
      unfold analyze at hanalysis
      cases hread : Source.read source.toList with
      | error failure => simp [hread, Except.map] at hanalysis
      | ok found => exact ⟨found, rfl, Except.ok.inj (hread ▸ hanalysis)⟩
    rw [trim, hanalysis, Trimmed.ofAnalysis]
    by_cases hnone : (Analysis.ofSource policy found).unused = []
    · simp [hnone, Trimmed.unchanged, Extent.totalLength]
    · have hshorter := Analysis.length_trimmedText_lt hread hnone
      have hcode : String.ofList (Analysis.ofSource policy found).trimmedText ≠ source := by
        intro heq
        rw [← heq, String.toList_ofList] at hshorter
        exact absurd hshorter (Nat.lt_irrefl _)
      rw [if_neg (by simpa using hnone)]
      refine ⟨rfl, rfl, iff_of_true (bne_iff_ne.mpr hcode) hnone, iff_of_true hnone hcode,
        fun declaration => Analysis.start_lt_stop_of_mem_unused hread, ?_⟩
      rw [String.toList_ofList]
      exact Analysis.byteLength_trimmedText_add_le policy hread

/-- A source with a literal that is not closed, and one with two imports on a line, of which the
first is removed. -/
theorem trim_coherent_failure :
    (∃ failure, analyze ⟨[], true, true⟩ "import a.B\ndef s = 'C" = .error failure ∧
      (trim ⟨[], true, true⟩ "import a.B\ndef s = 'C").diagnostics =
        [⟨failure.message, failure.span?⟩]) ∧
    ∃ analysis, analyze ⟨[], true, true⟩ "import a.B; import c.D\nnew D()\n" = .ok analysis ∧
      analysis.unused.map ImportDeclaration.display = ["import a.B"] ∧
      (trim ⟨[], true, true⟩ "import a.B; import c.D\nnew D()\n").removed = analysis.unused ∧
      ((trim ⟨[], true, true⟩ "import a.B; import c.D\nnew D()\n").hasChanges = true ↔
        (trim ⟨[], true, true⟩ "import a.B; import c.D\nnew D()\n").removed ≠ []) := by
  constructor
  · have hrun : (analyze ⟨[], true, true⟩ "import a.B\ndef s = 'C").isOk = false := by
      decide +kernel
    generalize "import a.B\ndef s = 'C" = text at hrun ⊢
    cases hanalysis : analyze ⟨[], true, true⟩ text with
    | ok analysis => simp [hanalysis, Except.isOk, Except.toBool] at hrun
    | error failure =>
      exact ⟨failure, rfl, by rw [(trim_coherent _ _).1 failure hanalysis]⟩
  · have hrun : ((analyze ⟨[], true, true⟩ "import a.B; import c.D\nnew D()\n").toOption.any
        fun analysis => analysis.unused.map ImportDeclaration.display = ["import a.B"]) = true := by
      decide +kernel
    generalize "import a.B; import c.D\nnew D()\n" = text at hrun ⊢
    cases hanalysis : analyze ⟨[], true, true⟩ text with
    | error failure => simp [hanalysis, Except.toOption] at hrun
    | ok analysis =>
      obtain ⟨-, hremoved, hchanges, -⟩ := (trim_coherent _ _).2 analysis hanalysis
      exact ⟨analysis, rfl, by simpa [hanalysis, Except.toOption] using hrun, hremoved, hchanges⟩

end UnusedImports
