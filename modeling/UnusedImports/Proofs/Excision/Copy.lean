import UnusedImports.Proofs.Excision.Partial
import UnusedImports.Proofs.Text.Slice

/-!
Copying by slices. What is left of a text is put together from the slices between the cuts, and none
of these is out of bounds or splits a character, since no cut does. Nor do the slices by which a cut
is found: the lines of a statement are there, and the stretches before it on its first line and
behind it on its last are whole characters.
-/
namespace UnusedImports

open UnusedImports.Text

namespace Excision

/-- Copies the slices of a text from a cursor on, between the starts and the stops of some cuts, if
each of them can be taken out. -/
def copy? (text : List Char) (cursor : Nat) : List Extent → Option (List Char)
  | [] => slice? text ⟨cursor, byteLength text⟩
  | cut :: cuts =>
    (if cursor < cut.start then slice? text ⟨cursor, cut.start⟩ else some []).bind fun first =>
      (copy? text (max cursor cut.stop) cuts).map (first ++ ·)

/-- The lines on which a removed statement starts and stops are lines of the text, and what is
before it on the first one and behind it on the last one are whole characters. -/
structure OnLines (text : List Char) (removal : Extent) : Prop where
  first : ∃ line, (LineIndex.ofText text).lines[(linesOf (.ofText text) removal).start]? =
    some line ∧ Whole text ⟨line.start, removal.start⟩
  last : ∃ line, (LineIndex.ofText text).lines[(linesOf (.ofText text) removal).stop - 1]? =
    some line ∧ Whole text ⟨removal.stop, line.contentStop⟩
  stop_le : (linesOf (.ofText text) removal).stop ≤ (LineIndex.ofText text).lineCount

section Copying

/-- The slices between cuts of whole characters are what copying around the cuts leaves. -/
theorem copy?_eq_splice {text read rest : List Char} {cuts : List Extent}
    (hcuts : ∀ cut ∈ cuts, Whole text cut) (htext : text = read ++ rest) :
    copy? text (byteLength read) cuts = some (splice (byteLength read) rest cuts) := by
  induction cuts generalizing read rest with
  | nil =>
    have hstands : Stands text rest (byteLength read) := ⟨read, [], by simp [htext], rfl⟩
    have hlength : byteLength text = byteLength read + byteLength rest := by
      rw [htext, byteLength_append]
    rw [copy?, splice, hlength, hstands.slice?_eq]
  | cons cut cuts ih =>
    obtain ⟨hcut, hlater⟩ := List.forall_mem_cons.mp hcuts
    have hfirst : (if byteLength read < cut.start then slice? text ⟨byteLength read, cut.start⟩
        else some []) = some (takeBytes (cut.start - byteLength read) rest) := by
      split
      · rename_i hlt
        obtain ⟨between, after, rfl, hbetween⟩ :=
          (htext ▸ hcut.starts).exists_append (Nat.le_of_lt hlt)
        have hstands : Stands text between (byteLength read) := ⟨read, after, htext, rfl⟩
        rw [← hbetween, hstands.slice?_eq, Nat.add_sub_cancel_left, takeBytes_byteLength]
      · rename_i hge
        rw [show cut.start - byteLength read = 0 by omega, takeBytes_zero]
    rw [copy?, hfirst, Option.bind_some, splice]
    by_cases hstop : byteLength read ≤ cut.stop
    · -- The copy goes on behind the cut.
      obtain ⟨between, after, rfl, hbetween⟩ := (htext ▸ hcut.stops).exists_append hstop
      have hnext := ih hlater (show text = (read ++ between) ++ after by rw [htext]; simp)
      rw [byteLength_append] at hnext
      rw [Nat.max_eq_right hstop, ← hbetween, hnext, Nat.add_sub_cancel_left,
        takeBytes_byteLength, dropBytes_byteLength]
      rfl
    · -- The cut stops before what was already passed.
      have hdrop : dropBytes 0 rest = rest := by cases rest <;> rfl
      rw [Nat.max_eq_left (by omega), ih hlater htext, show cut.stop - byteLength read = 0 by omega,
        takeBytes_zero, hdrop]
      rfl

end Copying

section Cuts

variable {text : List Char} {tokens : List Token} {removals : List Extent} {removal : Extent}

theorem whole_extent {line : Line} (h : line ∈ (LineIndex.ofText text).lines) :
    Whole text line.extent :=
  (LineIndex.stands_line h).whole

/-- A cut around a statement takes whole characters before it and behind it. -/
theorem splitsAt_partialCutOf (haligned : Aligned text tokens removal) :
    SplitsAt text (partialCutOf text (.ofText text) removal).start ∧
      SplitsAt text (partialCutOf text (.ofText text) removal).stop := by
  have hafter : ∀ count, SplitsAt text (removal.stop +
      ((takeBytes count (dropBytes removal.stop text)).takeWhile isSpaceOrTab).length) := by
    intro count
    have hstands := (stands_after haligned count).splitsAt_stop
    rwa [byteLength_takeWhile] at hstands
  obtain ⟨spaces, hspaces, -, hbefore⟩ := stands_before haligned
  obtain ⟨c, hc⟩ := haligned.starts
  unfold partialCutOf partialCut
  simp only
  split
  · refine ⟨?_, hafter _⟩
    have hstart := hbefore.splitsAt_start
    rwa [hspaces, List.length_reverse] at hstart
  · exact ⟨splitsAt_of_charAt? hc, hafter _⟩

/-- A deleted line goes from its start or behind the byte order mark. -/
theorem splitsAt_lineCut {line : Line} (h : line ∈ (LineIndex.ofText text).lines) :
    SplitsAt text (lineCut text line).start ∧ SplitsAt text (lineCut text line).stop := by
  have hwhole := whole_extent h
  unfold lineCut
  split
  · rename_i hmark
    obtain ⟨rest, rfl⟩ := List.head?_eq_some_iff.mp hmark.2
    exact ⟨⟨[byteOrderMark], rest, rfl, rfl⟩, hwhole.stops⟩
  · exact ⟨hwhole.starts, hwhole.stops⟩

theorem whole_of_mem_plan (haligned : ∀ removal ∈ removals, Aligned text tokens removal)
    {cut : Extent} (hcut : cut ∈ (plan text tokens removals).cuts) : Whole text cut := by
  have hforward := start_le_stop_of_mem_plan haligned hcut
  have hsplits : SplitsAt text cut.start ∧ SplitsAt text cut.stop := by
    rcases mem_cuts_plan.mp hcut with ⟨removal, hmem, -, rfl⟩ | ⟨number, line, hline, rfl⟩ |
      ⟨line, hline, rfl⟩
    · exact splitsAt_partialCutOf (haligned removal hmem)
    · exact splitsAt_lineCut (List.mem_of_getElem? (getElem?_marksOf.mp hline).1)
    · obtain ⟨number, hblank⟩ := List.mem_iff_getElem?.mp (blank_of_mem_surplus hline)
      have hwhole := whole_extent (List.mem_of_getElem? (getElem?_marksOf.mp hblank).1)
      exact ⟨hwhole.starts, hwhole.stops⟩
  exact hsplits.1.whole hsplits.2 hforward

/-- The text without the removed statements is copied by slices of whole characters. -/
theorem copy?_eq_remove (haligned : ∀ removal ∈ removals, Aligned text tokens removal) :
    copy? text 0 ((plan text tokens removals).cuts.mergeSort comesBefore) =
      some (remove text tokens removals) := by
  have hcuts : ∀ cut ∈ (plan text tokens removals).cuts.mergeSort comesBefore, Whole text cut :=
    fun cut hcut => whole_of_mem_plan haligned (List.mem_mergeSort.mp hcut)
  exact copy?_eq_splice hcuts (List.nil_append text).symm

theorem onLines (haligned : Aligned text tokens removal) (hframed : Framed text removal) :
    OnLines text removal := by
  obtain ⟨first, hfirst⟩ := haligned.exists_startsOn
  obtain ⟨last, hlast⟩ := hframed.exists_endsOn
  obtain ⟨c, hc⟩ := haligned.starts
  have hforward := haligned.start_lt_stop
  have hcontent := last.contentStop_le_stop
  have hstart := hlast.start_lt
  have hstop := hlast.stop_le
  obtain ⟨number, hnumber⟩ := List.mem_iff_getElem?.mp hfirst.mem
  obtain ⟨other, hother⟩ := List.mem_iff_getElem?.mp hlast.mem
  have hlineOf := LineIndex.lineOf_eq hnumber hfirst.start_le hfirst.lt_stop
  have hlineOf' := LineIndex.lineOf_eq hother
    (show last.start ≤ max (removal.stop - 1) removal.start by omega)
    (show max (removal.stop - 1) removal.start < last.stop by omega)
  refine ⟨⟨first, ?_, ?_⟩, ⟨last, ?_, ?_⟩, ?_⟩
  · simp only [linesOf, hlineOf, hnumber]
  · exact (whole_extent hfirst.mem).starts.whole (splitsAt_of_charAt? hc) hfirst.start_le
  · simp only [linesOf, hlineOf', Nat.add_sub_cancel, hother]
  · exact SplitsAt.whole haligned.stops (LineIndex.splitsAt_contentStop hlast.mem) hstop
  · have hlt := (List.getElem?_eq_some_iff.mp hother).1
    simp only [linesOf, hlineOf']
    exact hlt

end Cuts

end Excision

end UnusedImports
