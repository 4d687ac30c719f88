import UnusedImports.Proofs.ByteOrderMark.FirstLine
import UnusedImports.Proofs.ByteOrderMark.Outline
import UnusedImports.Proofs.Stability

/-!
Trimming a text after a byte order mark. The imports at the same positions are removed, and the
mark stays before what is left. What is left is the same as without the mark whenever the first
line is not blank. A blank first line is taken for a solid one, and then the blank lines after the
removed imports may be too many or too few.
-/
namespace UnusedImports

open UnusedImports.Text

def withMark (text : String) : String := String.ofList (byteOrderMark :: text.toList)

@[simp]
theorem toList_withMark (text : String) : (withMark text).toList = byteOrderMark :: text.toList :=
  String.toList_ofList

theorem Token.bytesOf_afterMark {tokens : List Token} {extent : Extent}
    (hforward : extent.start < extent.stop) (hstop : extent.stop ≤ tokens.length) :
    bytesOf (afterMark tokens) (extent.advance 1) = (bytesOf tokens extent).advance markSize := by
  obtain ⟨first, last, hfirst, hlast, hbytes⟩ := Source.exists_bytesOf extent hforward hstop
  have hnext : (afterMark tokens)[extent.start + 1]? = some (first.advance markSize) := by
    rw [afterMark, List.getElem?_cons_succ, List.getElem?_map, hfirst]
    rfl
  have hend : (afterMark tokens)[extent.stop]? = some (last.advance markSize) := by
    rw [show extent.stop = extent.stop - 1 + 1 by omega, afterMark, List.getElem?_cons_succ,
      List.getElem?_map, hlast]
    rfl
  rw [hbytes]
  simp [bytesOf, Extent.advance, hnext, hend]

namespace Source

variable {source other : Source} {text : List Char} {chosen : List ImportStatement}

theorem Marked.extents_unused (h : source.Marked other)
    (hread : Source.read text = .ok source) (policy : Policy) :
    (Analysis.ofSource policy other).unused.map (fun declaration => declaration.span.extent) =
      ((Analysis.ofSource policy source).unused.map fun declaration =>
        declaration.span.extent).map (Extent.advance markSize) := by
  obtain ⟨-, -, hlex, houtline⟩ := of_read hread
  have hselects : source.Selects text source.outline.imports :=
    ⟨hlex, houtline, fun _ hmem => hmem⟩
  rw [Analysis.extents_unused, Analysis.extents_unused, h.unusedPositions policy,
    List.map_filterMap, h.imports, h.tokens]
  congr 1
  funext position
  rw [List.getElem?_map, Option.map_map, Option.map_map]
  cases hstatement : source.outline.imports[position]? with
  | none => rfl
  | some statement =>
    have hat := hselects.importAt (List.mem_of_getElem? hstatement)
    have hkeyword := hat.start_le_keyword
    have hforward := hat.clause.keyword_lt_stop
    have hlength := hat.clause.stop_le
    rw [List.length_map] at hlength
    exact congrArg some (Token.bytesOf_afterMark (by omega) hlength)

/-- After the mark the same is left exactly when the mark does not matter. -/
theorem Marked.trimmedText_iff (h : source.Marked other)
    (hmark : text.head? ≠ some byteOrderMark) (hread : Source.read text = .ok source)
    (hother : Source.read (byteOrderMark :: text) = .ok other) (policy : Policy) :
    (Analysis.ofSource policy other).trimmedText =
        byteOrderMark :: (Analysis.ofSource policy source).trimmedText ↔
      Excision.markMatters source.text source.tokens
        ((Analysis.ofSource policy source).unused.map fun declaration =>
          declaration.span.extent) = false := by
  obtain ⟨htext, -, hlex, houtline⟩ := of_read hread
  obtain ⟨hmarked, -, -, -⟩ := of_read hother
  obtain ⟨chosen, hchosen, hbytes⟩ := Analysis.exists_chosen policy source
  have hselects : source.Selects text chosen := ⟨hlex, houtline, hchosen⟩
  unfold Analysis.trimmedText
  rw [h.extents_unused hread policy, hbytes]
  show Excision.remove other.text other.tokens _ =
    byteOrderMark :: Excision.remove source.text source.tokens _ ↔ _
  rw [hmarked, htext, h.tokens]
  exact Excision.remove_mark_iff hlex hmark hselects.aligned_bytes hselects.framed

end Source

section Outcomes

variable (policy : Policy) {text : String} (hmark : text.toList.head? ≠ some byteOrderMark)

include hmark

theorem removedPositions_withMark :
    removedPositions policy (withMark text) = removedPositions policy text := by
  rcases Source.read_mark hmark with
    ⟨failure, another, hread, hother⟩ | ⟨source, other, hread, hother, hmarked⟩
  · rw [← toList_withMark] at hother
    rw [(trim_of_failure policy hread).2.2, (trim_of_failure policy hother).2.2]
  · rw [← toList_withMark] at hother
    rw [(trim_of_read policy hread).2.2, (trim_of_read policy hother).2.2]
    exact hmarked.unusedPositions policy

/-- The same is left exactly when the text cannot be read or the mark does not matter. -/
theorem code_trim_withMark_iff :
    (trim policy (withMark text)).code = withMark (trim policy text).code ↔
      ∀ source, Source.read text.toList = .ok source →
        Excision.markMatters source.text source.tokens
          ((Analysis.ofSource policy source).unused.map fun declaration =>
            declaration.span.extent) = false := by
  rcases Source.read_mark hmark with
    ⟨failure, another, hread, hother⟩ | ⟨source, other, hread, hother, hmarked⟩
  · rw [← toList_withMark] at hother
    rw [(trim_of_failure policy hread).1, (trim_of_failure policy hother).1, hread]
    exact iff_of_true rfl (by simp)
  · have htrimmed := hmarked.trimmedText_iff hmark hread hother policy
    rw [← toList_withMark] at hother
    rw [(trim_of_read policy hread).1, (trim_of_read policy hother).1,
      hmarked.unusedPositions policy, hread]
    simp only [Except.ok.injEq, forall_eq']
    split
    · rename_i hnone
      rw [Analysis.unusedPositions_eq_nil_iff.mp hnone]
      exact iff_of_true rfl (Excision.markMatters_nil _ _)
    · rw [← htrimmed, withMark, String.ofList_inj, String.toList_ofList]

end Outcomes

/-- A byte order mark before a text changes nothing about which imports are removed, and it stays
where it is. What is left after it is what is left without it, unless some blank line outside the
removed imports is dropped in one case only. That takes a blank first line: with the mark on it,
the line counts as solid, so the run of blank and deleted lines after it does not open the text
any more. It then keeps as many blank lines as stand after its last deleted line if it ends the
text, and otherwise the larger number of those and the ones before its first deleted line, where
without the mark it keeps the latter. -/
theorem trim_withMark_iff (policy : Policy) {text : String}
    (hmark : text.toList.head? ≠ some byteOrderMark) :
    removedPositions policy (withMark text) = removedPositions policy text ∧
      ((trim policy (withMark text)).code = withMark (trim policy text).code ↔
        ∀ source, Source.read text.toList = .ok source →
          Excision.markMatters source.text source.tokens
            ((Analysis.ofSource policy source).unused.map fun declaration =>
              declaration.span.extent) = false) ∧
      ((LineIndex.ofText text.toList).lines.head?.any Line.isBlank = false →
        (trim policy (withMark text)).code = withMark (trim policy text).code) := by
  refine ⟨removedPositions_withMark policy hmark, code_trim_withMark_iff policy hmark, ?_⟩
  intro hsolid
  apply (code_trim_withMark_iff policy hmark).mpr
  intro source hread
  rw [(Source.of_read hread).1]
  exact Excision.markMatters_of_not_blank hsolid

/-- Whether the first line counts decides on the blank line, but that line stands between the
annotation of a removed import and its keyword, so it is gone either way. -/
theorem trim_withMark_iff_annotated :
    "\nimport b.B; @F(\n\n) import a.A; def x\n".toList.head? ≠ some byteOrderMark ∧
      (LineIndex.ofText "\nimport b.B; @F(\n\n) import a.A; def x\n".toList).lines.head?.any
        Line.isBlank = true ∧
      (trim ⟨[], true, false⟩ "\nimport b.B; @F(\n\n) import a.A; def x\n").code = "\ndef x\n" ∧
      (trim ⟨[], true, false⟩ (withMark "\nimport b.B; @F(\n\n) import a.A; def x\n")).code =
        withMark "\ndef x\n" ∧
      removedPositions ⟨[], true, false⟩
        (withMark "\nimport b.B; @F(\n\n) import a.A; def x\n") = [0, 1] := by
  have hmark : "\nimport b.B; @F(\n\n) import a.A; def x\n".toList.head? ≠
      some byteOrderMark := by decide +kernel
  have hblank : (LineIndex.ofText
      "\nimport b.B; @F(\n\n) import a.A; def x\n".toList).lines.head?.any Line.isBlank =
        true := by decide +kernel
  have hcode : (trim ⟨[], true, false⟩ "\nimport b.B; @F(\n\n) import a.A; def x\n").code =
      "\ndef x\n" := by
    rw [code_trim_eq_erase]
    decide +kernel
  have hpositions : removedPositions ⟨[], true, false⟩
      "\nimport b.B; @F(\n\n) import a.A; def x\n" = [0, 1] := by decide +kernel
  have hmatters : ((Source.read
      "\nimport b.B; @F(\n\n) import a.A; def x\n".toList).toOption.all fun source =>
        !Excision.markMatters source.text source.tokens
          ((Analysis.ofSource ⟨[], true, false⟩ source).unused.map fun declaration =>
            declaration.span.extent)) = true := by decide +kernel
  generalize "\nimport b.B; @F(\n\n) import a.A; def x\n" = text at *
  obtain ⟨hsame, hiff, -⟩ := trim_withMark_iff ⟨[], true, false⟩ hmark
  refine ⟨hmark, hblank, hcode, ?_, hsame.trans hpositions⟩
  rw [← hcode]
  apply hiff.mpr
  intro source hread
  simpa [hread, Except.toOption] using hmatters

/-- After the mark one blank line too many is left. -/
theorem trim_withMark_ne :
    "\nimport a.A\n\nclass X \x7b\x7d\n".toList.head? ≠ some byteOrderMark ∧
      (trim ⟨[], true, true⟩ "\nimport a.A\n\nclass X \x7b\x7d\n").code =
        "\nclass X \x7b\x7d\n" ∧
      (trim ⟨[], true, true⟩ (withMark "\nimport a.A\n\nclass X \x7b\x7d\n")).code =
        withMark "\n\nclass X \x7b\x7d\n" ∧
      (trim ⟨[], true, true⟩ (withMark "\nimport a.A\n\nclass X \x7b\x7d\n")).code ≠
        withMark (trim ⟨[], true, true⟩ "\nimport a.A\n\nclass X \x7b\x7d\n").code := by
  rw [code_trim_eq_erase, code_trim_eq_erase]
  decide +kernel

end UnusedImports
