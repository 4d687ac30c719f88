import UnusedImports.Proofs.ByteOrderMark.Tokens
import UnusedImports.Proofs.LineEnd.Lines

/-!
The lines of a text after a byte order mark. The first line takes the mark in and all others move
on. An offset stays on the line with the same number, and what a line shows stays the same, with
one exception: the first line is not blank any more, since the mark is no space.
-/
namespace UnusedImports

open UnusedImports.Text

namespace Line

def advance (count : Nat) (line : Line) : Line := { line with start := line.start + count }

def marked (line : Line) : Line :=
  if line.start = 0 then ⟨0, byteOrderMark :: line.text⟩ else line.advance markSize

theorem split_cons_of_ne {c : Char} (hfeed : c ≠ '\n') {text line : List Char}
    {lines : List (List Char)} (h : split text = line :: lines) :
    split (c :: text) = (c :: line) :: lines := by
  rw [split, if_neg hfeed, h]

theorem place_add (start count : Nat) (texts : List (List Char)) :
    place (start + count) texts = (place start texts).map (advance count) := by
  induction texts generalizing start with
  | nil => rfl
  | cons text texts ih =>
    rw [place, place, List.map_cons, Nat.add_right_comm, ih]
    rfl

section Marking

variable (line : Line)

theorem start_marked_le {offset : Nat} :
    line.marked.start ≤ offset + markSize ↔ line.start ≤ offset := by
  unfold marked
  split
  · rename_i hstart
    simp [hstart]
  · exact Nat.add_le_add_iff_right

theorem stop_marked : line.marked.stop = line.stop + markSize := by
  unfold marked
  split
  · rename_i hstart
    simp only [stop, byteLength, hstart, markSize]
    omega
  · exact Nat.add_right_comm _ _ _

theorem content_cons {c : Char} (hreturn : c ≠ '\r') (hfeed : c ≠ '\n') (start : Nat)
    (text : List Char) :
    (⟨start, c :: text⟩ : Line).content = c :: (⟨start, text⟩ : Line).content := by
  have hsuffix : ∀ {lineEnd : List Char}, lineEnd.head? ≠ some c →
      lineEnd.isSuffixOf (c :: text) = lineEnd.isSuffixOf text := by
    intro lineEnd hhead
    rw [Bool.eq_iff_iff, List.isSuffixOf_iff_suffix, List.isSuffixOf_iff_suffix,
      List.suffix_cons_iff]
    constructor
    · rintro (rfl | hshort)
      · exact absurd rfl hhead
      · exact hshort
    · exact Or.inr
  have hboth := @hsuffix ['\r', '\n'] (by simpa using hreturn.symm)
  have hone := @hsuffix ['\n'] (by simpa using hfeed.symm)
  unfold content
  simp only [hboth, hone, List.length_cons]
  split
  · rename_i hends
    have hlength := (List.isSuffixOf_iff_suffix.mp hends).length_le
    simp only [List.length_cons, List.length_nil] at hlength
    rw [show text.length + 1 - 2 = text.length - 2 + 1 by omega, List.take_succ_cons]
  · split
    · rename_i hends
      have hlength := (List.isSuffixOf_iff_suffix.mp hends).length_le
      simp only [List.length_cons, List.length_nil] at hlength
      rw [show text.length + 1 - 1 = text.length - 1 + 1 by omega, List.take_succ_cons]
    · rfl

theorem contentStop_marked : line.marked.contentStop = line.contentStop + markSize := by
  unfold marked
  split
  · rename_i hstart
    unfold contentStop
    rw [content_cons (by decide) (by decide), byteLength, hstart]
    simp only [content, markSize]
    omega
  · exact Nat.add_right_comm _ _ _

/-- The line with the mark is not blank; the others are as they were. -/
theorem isBlank_marked : line.marked.isBlank = (decide (line.start ≠ 0) && line.isBlank) := by
  unfold marked
  split
  · rename_i hstart
    unfold isBlank
    rw [content_cons (by decide) (by decide), List.all_cons]
    simp [hstart, isSpaceOrTab, byteOrderMark]
  · rename_i hstart
    rw [decide_eq_true hstart, Bool.true_and]
    rfl

end Marking

end Line

namespace LineIndex

variable {text : List Char}

theorem start_pos {number : Nat} {line : Line}
    (h : (ofText text).lines[number + 1]? = some line) : 0 < line.start := by
  have hlength := (List.getElem?_eq_some_iff.mp h).1
  obtain ⟨first, hfirst⟩ : ∃ first, (ofText text).lines[0]? = some first :=
    ⟨_, List.getElem?_eq_getElem (by omega)⟩
  have hforward := start_lt_stop_of_next hfirst (by omega)
  have hstops := stop_le_start hfirst h (by omega)
  omega

theorem lines_mark (text : List Char) :
    (ofText (byteOrderMark :: text)).lines = (ofText text).lines.map Line.marked := by
  obtain ⟨line, lines, hsplit⟩ := List.exists_cons_of_ne_nil (Line.split_ne_nil text)
  have hplain : (ofText text).lines = ⟨0, line⟩ :: Line.place (byteLength line) lines := by
    unfold ofText
    rw [hsplit, Line.place, Nat.zero_add]
  have hmarked : (ofText (byteOrderMark :: text)).lines =
      ⟨0, byteOrderMark :: line⟩ :: Line.place (byteLength line + markSize) lines := by
    unfold ofText
    rw [Line.split_cons_of_ne (by decide) hsplit, Line.place, Nat.zero_add, byteLength,
      Nat.add_comm]
    rfl
  rw [hmarked, hplain, List.map_cons, Line.place_add]
  congr 1
  apply List.map_congr_left
  intro other hmem
  obtain ⟨number, hnumber⟩ := List.mem_iff_getElem?.mp hmem
  have hpositive := start_pos
    (show (ofText text).lines[number + 1]? = some other by rw [hplain]; exact hnumber)
  exact (if_neg (Nat.ne_of_gt hpositive)).symm

theorem lineOf_mark (text : List Char) (offset : Nat) :
    (ofText (byteOrderMark :: text)).lineOf (offset + markSize) = (ofText text).lineOf offset := by
  unfold lineOf
  rw [lines_mark, List.takeWhile_map, List.length_map]
  congr 3
  funext line
  simp [Line.start_marked_le]

theorem lineAt_mark {offset : Nat} (h : offset < byteLength text) :
    (ofText (byteOrderMark :: text)).lineAt (offset + markSize) =
      ((ofText text).lineAt offset).marked := by
  obtain ⟨line, hline, -, -⟩ := exists_line h
  unfold lineAt
  rw [lineOf_mark, lines_mark, List.getElem?_map, hline]
  rfl

end LineIndex

end UnusedImports
