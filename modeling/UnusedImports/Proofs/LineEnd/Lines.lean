import Mathlib.Data.List.Forall2
import UnusedImports.Proofs.LineEnd.Text
import UnusedImports.Proofs.Text.Lines

/-!
The lines of a text with carriage returns. They are the lines of the text, moved on, with their
carriage returns; what stands on a line before its line end is the same as before, and an offset
is on the line with the same number.
-/
namespace UnusedImports

namespace Text

/-- Where things that cover a text correspond to things that cover it with carriage returns,
each starts where the start of the other moves to. -/
theorem Covers.forall₂_shift {α : Type} (part : α → Nat × List Char) {related : α → α → Prop}
    (hrelated : ∀ {one other}, related one other → (part other).2 = withReturns (part one).2)
    (before : List Char) {later : List Char} {these those : List α}
    (hthese : Covers (byteLength before) later (these.map part))
    (hthose : Covers (byteLength (withReturns before)) (withReturns later) (those.map part))
    (h : List.Forall₂ related these those) :
    List.Forall₂ (fun one other => related one other ∧
      (part other).1 = shift (before ++ later) (part one).1) these those := by
  induction h generalizing before later with
  | nil => exact List.Forall₂.nil
  | @cons one other _ _ hone _ ih =>
    obtain ⟨hstart, rest, rfl, hthese⟩ := hthese
    obtain ⟨hrestart, later, hlater, hthose⟩ := hthose
    rw [withReturns_append, hrelated hone] at hlater
    obtain rfl := List.append_cancel_left hlater
    rw [← byteLength_append] at hthese
    rw [hrelated hone, ← byteLength_append, ← withReturns_append] at hthose
    refine List.Forall₂.cons ⟨hone, ?_⟩ ?_
    · rw [hstart, hrestart, shift_byteLength]
    · rw [← List.append_assoc]
      exact ih _ hthese hthose

theorem eq_map_of_forall₂ {α β : Type} {f : α → β} {these : List α} {those : List β}
    (h : List.Forall₂ (fun one other => f one = other) these those) : those = these.map f := by
  rw [← List.forall₂_map_left_iff, List.forall₂_eq_eq_eq] at h
  exact h.symm

end Text

namespace Line

open UnusedImports.Text

theorem split_withReturns (text : List Char) :
    split (withReturns text) = (split text).map withReturns := by
  induction text with
  | nil => rfl
  | cons c rest ih =>
    by_cases hc : c = '\n'
    · subst hc
      simp [split, ih]
    · rw [withReturns_cons hc, split, split, if_neg hc, if_neg hc, ih]
      cases hsplit : split rest with
      | nil => exact absurd hsplit (split_ne_nil rest)
      | cons line lines => simp [withReturns_cons hc]

def shift (text : List Char) (line : Line) : Line :=
  ⟨Text.shift text line.start, withReturns line.text⟩

section Shifting

variable {text : List Char} {line : Line}

@[simp]
theorem start_shift (text : List Char) (line : Line) :
    (line.shift text).start = Text.shift text line.start := rfl

@[simp]
theorem text_shift (text : List Char) (line : Line) :
    (line.shift text).text = withReturns line.text := rfl

end Shifting

section Content

variable {content : List Char}

theorem content_of_not_mem (start : Nat) (hfeed : '\n' ∉ content) :
    Line.content ⟨start, content⟩ = content := by
  have hnone : ∀ word : List Char, '\n' ∈ word → word.isSuffixOf content = false := by
    intro word hmem
    rw [Bool.eq_false_iff]
    intro hsuffix
    exact hfeed ((List.isSuffixOf_iff_suffix.mp hsuffix).subset hmem)
  unfold Line.content
  simp [hnone]

theorem content_of_feed (start : Nat) (hreturn : '\r' ∉ content) :
    Line.content ⟨start, content ++ ['\n']⟩ = content := by
  have hnone : ['\r', '\n'].isSuffixOf (content ++ ['\n']) = false := by
    rw [Bool.eq_false_iff]
    intro hsuffix
    have hmem := (List.isSuffixOf_iff_suffix.mp hsuffix).subset (List.mem_cons_self (a := '\r'))
    simp [hreturn] at hmem
  have hsuffix : ['\n'].isSuffixOf (content ++ ['\n']) = true :=
    List.isSuffixOf_iff_suffix.mpr (List.suffix_append content ['\n'])
  unfold Line.content
  simp [hnone, hsuffix]

theorem content_of_return (start : Nat) (content : List Char) :
    Line.content ⟨start, content ++ ['\r', '\n']⟩ = content := by
  have hsuffix : ['\r', '\n'].isSuffixOf (content ++ ['\r', '\n']) = true :=
    List.isSuffixOf_iff_suffix.mpr (List.suffix_append content ['\r', '\n'])
  unfold Line.content
  simp [hsuffix]

end Content

end Line

namespace LineIndex

open UnusedImports.Text

variable {text : List Char} {line : Line}

/-- The lines with carriage returns are the lines, moved on. -/
theorem lines_withReturns (text : List Char) :
    (ofText (withReturns text)).lines = (ofText text).lines.map (Line.shift text) := by
  have htexts : List.Forall₂ (fun line other => withReturns line.text = other.text)
      (ofText text).lines (ofText (withReturns text)).lines := by
    have hlines : ∀ text, (ofText text).lines.map Line.text = Line.split text :=
      fun _ => Line.map_text_place 0 _
    have hsplit := Line.split_withReturns text
    rw [← hlines, ← hlines, List.map_map, eq_comm, ← List.forall₂_eq_eq_eq,
      List.forall₂_map_left_iff, List.forall₂_map_right_iff] at hsplit
    exact hsplit
  have hmoved := Covers.forall₂_shift Line.part (fun hline => hline.symm) [] (covers_lines text)
    (covers_lines (withReturns text)) htexts
  refine eq_map_of_forall₂ (hmoved.imp fun line other hline => ?_)
  obtain ⟨hwords, hstart⟩ := hline
  rw [Line.shift, hwords, ← (show other.start = shift text line.start from hstart)]

/-- Where a line of a text ends, without and with its line end. -/
theorem stop_shift (h : line ∈ (ofText text).lines) :
    (line.shift text).stop = shift text line.stop :=
  (stands_line h).shift_stop.symm

theorem extent_shift (h : line ∈ (ofText text).lines) :
    (line.shift text).extent = line.extent.shift text := by
  rw [Line.extent, stop_shift h]
  rfl

theorem exists_contentStop (h : line ∈ (ofText text).lines) :
    ∃ before after, text = before ++ after ∧ byteLength before = line.contentStop := by
  obtain ⟨before, after, htext, hbefore⟩ := stands_content h
  refine ⟨before ++ line.content, after, by rw [htext, List.append_assoc], ?_⟩
  rw [byteLength_append, hbefore]
  rfl

theorem exists_lineAt {offset : Nat} (h : offset < byteLength text) :
    ∃ line ∈ (ofText text).lines, (ofText text).lineAt offset = line ∧ line.start ≤ offset ∧
      offset < line.stop := by
  obtain ⟨line, hline, hstart, hstop⟩ := exists_line h
  refine ⟨line, List.mem_of_getElem? hline, ?_, hstart, hstop⟩
  rw [lineAt, hline]
  rfl

section Content

variable (h : line ∈ (ofText text).lines) (hreturn : '\r' ∉ text)

include h hreturn

/-- What a line holds before its line end, without and with the carriage return. -/
theorem content_shift : '\n' ∉ line.content ∧ (line.shift text).content = line.content := by
  have hsplit := text_mem_split h
  have hline : '\r' ∉ line.text := by
    intro hmem
    apply hreturn
    rw [← Line.flatten_split text]
    exact List.mem_flatten.mpr ⟨_, hsplit, hmem⟩
  obtain ⟨content, hfeed, hcontent⟩ := Line.exists_of_mem_split hsplit
  obtain ⟨start, words⟩ := line
  rcases hcontent with rfl | rfl
  · rw [Line.content_of_not_mem start hfeed, Line.shift, withReturns_of_not_mem hfeed,
      Line.content_of_not_mem _ hfeed]
    exact ⟨hfeed, rfl⟩
  · rw [Line.content_of_feed start (by simpa using hline), Line.shift, withReturns_append,
      withReturns_of_not_mem hfeed, withReturns_feed, withReturns_nil, Line.content_of_return]
    exact ⟨hfeed, rfl⟩

theorem contentStop_shift : (line.shift text).contentStop = shift text line.contentStop := by
  obtain ⟨hfeed, hcontent⟩ := content_shift h hreturn
  unfold Line.contentStop
  rw [hcontent, (stands_content h).shift_stop_of_not_mem hfeed]
  rfl

theorem isBlank_shift : (line.shift text).isBlank = line.isBlank := by
  unfold Line.isBlank
  rw [(content_shift h hreturn).2, Line.text_shift, isEmpty_withReturns]

end Content

section Numbers

variable (text)

/-- The number of the line of an offset is told by how the offset lies to the starts of lines. -/
theorem lineOf_withReturns {offset other : Nat}
    (h : ∀ start, shift text start ≤ other ↔ start ≤ offset) :
    (ofText (withReturns text)).lineOf other = (ofText text).lineOf offset := by
  unfold lineOf
  rw [lines_withReturns, List.takeWhile_map, List.length_map]
  congr 3
  funext line
  simp [h]

theorem lineAt_withReturns {offset other : Nat}
    (h : ∀ start, shift text start ≤ other ↔ start ≤ offset) :
    (ofText (withReturns text)).lineAt other = ((ofText text).lineAt offset).shift text := by
  unfold lineAt
  rw [lineOf_withReturns text h, lines_withReturns, List.getElem?_map]
  cases (ofText text).lines[(ofText text).lineOf offset]? with
  | some line => rfl
  | none => simp [Line.shift]

/-- The last byte of an extent moves to the last byte. -/
theorem shift_le_last (extent : Extent) (start : Nat) :
    shift text start ≤ max ((extent.shift text).stop - 1) (extent.shift text).start ↔
      start ≤ max (extent.stop - 1) extent.start := by
  have hstart : shift text start ≤ shift text extent.start ↔ start ≤ extent.start := shift_le_shift
  have hstop : shift text start < shift text extent.stop ↔ start < extent.stop := shift_lt_shift
  rw [Extent.start_shift, Extent.stop_shift]
  omega

end Numbers

end LineIndex

end UnusedImports
