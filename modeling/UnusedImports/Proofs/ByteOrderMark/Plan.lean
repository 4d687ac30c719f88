import UnusedImports.Proofs.ByteOrderMark.Lines
import UnusedImports.Proofs.LineEnd.Plan

/-!
What is cut out of a text after a byte order mark. The same statements take their lines with them
and every cut moves on by the size of the mark, with one exception. A blank first line is solid
once it holds the mark, so the lines after it do not open the text any more, and the run they
start with may keep another number of blank lines.
-/
namespace UnusedImports

open UnusedImports.Text

namespace Text

variable (count : Nat) (text : List Char)

theorem takeBytes_mark : takeBytes (count + markSize) (byteOrderMark :: text) =
    byteOrderMark :: takeBytes count text := by
  have hpositive : 0 < markSize := byteOrderMark.utf8Size_pos
  rw [takeBytes, if_neg (by omega)]
  exact congrArg (byteOrderMark :: takeBytes · text) (Nat.add_sub_cancel _ _)

theorem dropBytes_mark : dropBytes (count + markSize) (byteOrderMark :: text) =
    dropBytes count text := by
  have hpositive : 0 < markSize := byteOrderMark.utf8Size_pos
  rw [dropBytes, if_neg (by omega)]
  exact congrArg (dropBytes · text) (Nat.add_sub_cancel _ _)

end Text

namespace Token

variable {text : List Char} {tokens : List Token}

@[simp]
theorem start_advance (count : Nat) (token : Token) :
    (token.advance count).start = token.start + count := rfl

@[simp]
theorem stop_advance (count : Nat) (token : Token) :
    (token.advance count).stop = token.stop + count := Nat.add_right_comm _ _ _

theorem stop_pos (hlex : lex text = .ok tokens) {token : Token} (h : tokens[0]? = some token) :
    0 < token.stop := by
  by_cases hempty : token.start = token.stop
  · -- Only the end of an interpolated name takes none, and a name would have to stand before it.
    have hkind := kind_of_start_eq_stop hlex (List.mem_of_getElem? h) hempty
    have hfits := fits_token hlex h
    simp only [Fits, hkind, List.take_zero, List.reverse_nil] at hfits
    rcases hfits with htext | ⟨-, hpath⟩
    · have hpositive := byteLength_pos (show token.text.toList ≠ [] by simp [htext])
      unfold stop
      omega
    · exact nomatch hpath
  · have hle := start_le_stop token
    omega

end Token

namespace Excision

section Lines

variable {text : List Char} {tokens : List Token} (removals : List Extent)

theorem linesOf_mark (text : List Char) (removal : Extent) :
    linesOf (.ofText (byteOrderMark :: text)) (removal.advance markSize) =
      linesOf (.ofText text) removal := by
  have hlast : max (removal.stop + markSize - 1) (removal.start + markSize) =
      max (removal.stop - 1) removal.start + markSize := by omega
  unfold linesOf Extent.advance
  rw [hlast, LineIndex.lineOf_mark, LineIndex.lineOf_mark]

theorem isDisposable_mark (line : Line) (token : Token) :
    isDisposable (removals.map (Extent.advance markSize)) line.marked (token.advance markSize) =
      isDisposable removals line token := by
  have hremoved : isRemoved (removals.map (Extent.advance markSize)) (token.advance markSize) =
      isRemoved removals token := by
    unfold isRemoved
    rw [List.any_map]
    congr 1
    funext removal
    simp [Extent.advance]
  unfold isDisposable
  rw [hremoved]
  simp only [Token.advance, Line.start_marked_le]

/-- The same lines are clean. The mark itself is white space. -/
theorem isClean_mark (hlex : Token.lex text = .ok tokens) (line : Line) :
    isClean (Token.afterMark tokens) (removals.map (Extent.advance markSize)) line.marked =
      isClean tokens removals line := by
  have hchecked : ∀ others : List Token,
      (((others.map (Token.advance markSize)).takeWhile fun token =>
        token.start < line.marked.contentStop).all
          (isDisposable (removals.map (Extent.advance markSize)) line.marked)) =
        (others.takeWhile fun token => token.start < line.contentStop).all
          (isDisposable removals line) := by
    intro others
    rw [List.takeWhile_map, List.all_map, Line.contentStop_marked]
    have hbefore : (fun token : Token => decide (token.start < line.contentStop + markSize)) ∘
        Token.advance markSize = fun token => decide (token.start < line.contentStop) := by
      funext token
      simp
    rw [hbefore]
    congr 1
    funext token
    exact isDisposable_mark removals line token
  unfold isClean Token.afterMark
  by_cases hstart : line.start = 0
  · -- On the first line the mark is checked first, and nothing is passed over.
    have hfirst : line.marked.start = 0 := by simp [Line.marked, hstart]
    have hpositive : 0 < markSize := byteOrderMark.utf8Size_pos
    have hstop : ¬ decide (Token.ofMark.stop ≤ line.marked.start) = true := by
      rw [hfirst]
      decide
    have hchecks : decide (Token.ofMark.start < line.marked.contentStop) = true := by
      rw [Line.contentStop_marked]
      exact decide_eq_true (show 0 < line.contentStop + markSize by omega)
    have hnone : tokens.dropWhile (fun token => decide (token.stop ≤ line.start)) = tokens := by
      cases tokens with
      | nil => rfl
      | cons token rest =>
        have hpos := Token.stop_pos hlex (show (token :: rest)[0]? = some token from rfl)
        exact List.dropWhile_cons_of_neg (by simp; omega)
    rw [List.dropWhile_cons, if_neg hstop, List.takeWhile_cons, if_pos hchecks, List.all_cons,
      hchecked, hnone]
    rfl
  · have hlater : line.marked.start = line.start + markSize := by
      simp [Line.marked, hstart, Line.advance]
    have hstop : decide (Token.ofMark.stop ≤ line.marked.start) = true := by
      rw [hlater]
      exact decide_eq_true (Nat.le_add_left _ _)
    have hpassed : (fun token : Token => decide (token.stop ≤ line.marked.start)) ∘
        Token.advance markSize = fun token => decide (token.stop ≤ line.start) := by
      funext token
      simp [hlater]
    rw [List.dropWhile_cons, if_pos hstop, List.dropWhile_map, hpassed, hchecked]

theorem takesLines_mark (hlex : Token.lex text = .ok tokens) (removal : Extent) :
    takesLines (.ofText (byteOrderMark :: text)) (Token.afterMark tokens)
        (removals.map (Extent.advance markSize)) (removal.advance markSize) =
      takesLines (.ofText text) tokens removals removal := by
  unfold takesLines Extent.slice
  rw [linesOf_mark, LineIndex.lines_mark, ← List.map_drop, ← List.map_take, List.all_map]
  congr 1
  funext line
  exact isClean_mark removals hlex line

end Lines

section Cuts

variable {text : List Char} {tokens : List Token}

/-- The mark ends the spaces before an offset as the start of the line does. -/
theorem spaces_mark (line : Line) (offset : Nat) :
    (takeBytes (offset + markSize - line.marked.start) line.marked.text).reverse.takeWhile
        isSpaceOrTab =
      (takeBytes (offset - line.start) line.text).reverse.takeWhile isSpaceOrTab := by
  unfold Line.marked
  split
  · rename_i hzero
    rw [hzero, Nat.sub_zero, Nat.sub_zero, takeBytes_mark, List.reverse_cons,
      List.takeWhile_append]
    split
    · rename_i hall
      rw [List.takeWhile_cons_of_neg (by decide), List.append_nil]
      exact (List.takeWhile_prefix _).eq_of_length hall |>.symm
    · rfl
  · rw [show offset + markSize - (line.advance markSize).start = offset - line.start from
      Nat.add_sub_add_right _ _ _]
    rfl

theorem partialCutOf_mark {removal : Extent} (haligned : Aligned text tokens removal) :
    partialCutOf (byteOrderMark :: text) (.ofText (byteOrderMark :: text))
        (removal.advance markSize) =
      (partialCutOf text (.ofText text) removal).advance markSize := by
  have hforward := haligned.start_lt_stop
  have hlength := haligned.stop_le
  have hlast : max ((removal.advance markSize).stop - 1) (removal.advance markSize).start =
      max (removal.stop - 1) removal.start + markSize := by
    simp only [Extent.advance]
    omega
  obtain ⟨spaces, hspaces, hle, -⟩ := stands_before haligned
  have hcount := congrArg List.length hspaces
  rw [List.length_reverse] at hcount
  unfold partialCutOf partialCut
  rw [hlast, LineIndex.lineAt_mark (show max (removal.stop - 1) removal.start < _ by omega),
    show (removal.advance markSize).start = removal.start + markSize from rfl,
    show (removal.advance markSize).stop = removal.stop + markSize from rfl,
    LineIndex.lineAt_mark (show removal.start < _ by omega)]
  simp only [Line.contentStop_marked, dropBytes_mark, Nat.add_sub_add_right,
    spaces_mark, ← hcount, Nat.add_right_comm removal.stop markSize,
    Nat.add_right_cancel_iff]
  split
  · rw [Extent.advance, Nat.sub_add_comm hle]
  · rfl

/-- The stretch of a deleted line moves on, whether or not the line takes the mark in. -/
theorem lineCut_mark (hmark : text.head? ≠ some byteOrderMark) (line : Line) :
    lineCut (byteOrderMark :: text) line.marked = (lineCut text line).advance markSize := by
  have hplain : lineCut text line = line.extent := if_neg fun hopens => hmark hopens.2
  have hstop := Line.stop_marked line
  rw [hplain]
  unfold lineCut
  by_cases hstart : line.start = 0
  · rw [if_pos ⟨by simp [Line.marked, hstart], rfl⟩, hstop]
    simp [Extent.advance, Line.extent, hstart, markSize]
  · have hlater : line.marked = line.advance markSize := if_neg hstart
    rw [if_neg (by simp [hlater, Line.advance, hstart])]
    rw [hlater] at hstop ⊢
    rw [Line.extent, hstop]
    rfl

end Cuts

section Marks

variable {text : List Char} {tokens : List Token} {removals : List Extent}

def marksAfterMark : List (Line × Mark) → List (Line × Mark)
  | [] => []
  | (line, mark) :: rest =>
    (line.marked, if mark = .blank then .solid else mark) :: rest.map (Prod.map Line.marked id)

def surplusAfterMark : List (Line × Mark) → List Line
  | (_, .blank) :: rest => surplus false rest
  | marked => surplus true marked

theorem marksOf_mark (hlex : Token.lex text = .ok tokens) (removals : List Extent) :
    marksOf (byteOrderMark :: text) (Token.afterMark tokens)
        (removals.map (Extent.advance markSize)) =
      marksAfterMark (marksOf text tokens removals) := by
  have hwhole : wholeLines (byteOrderMark :: text) (Token.afterMark tokens)
      (removals.map (Extent.advance markSize)) = wholeLines text tokens removals := by
    unfold wholeLines
    rw [List.filter_map, List.map_map]
    congr 1
    · funext removal
      exact linesOf_mark text removal
    · congr 1
      funext removal
      exact takesLines_mark removals hlex removal
  have hmark : ∀ number line, (LineIndex.ofText text).lines[number]? = some line →
      markOf (wholeLines text tokens removals) number line.marked =
        if number = 0 ∧ markOf (wholeLines text tokens removals) number line = .blank then .solid
        else markOf (wholeLines text tokens removals) number line := by
    intro number line hline
    unfold markOf
    rw [Line.isBlank_marked]
    cases number with
    | zero =>
      rw [LineIndex.start_eq_zero hline]
      split
      · rfl
      · cases line.isBlank <;> rfl
    | succ number =>
      rw [decide_eq_true (Nat.ne_of_gt (LineIndex.start_pos hline))]
      simp
  unfold marksOf markLines
  rw [hwhole, LineIndex.lines_mark]
  cases hlines : (LineIndex.ofText text).lines with
  | nil => rfl
  | cons first rest =>
    rw [List.map_cons, List.mapIdx_cons, List.mapIdx_cons, marksAfterMark]
    congr 1
    · rw [hmark 0 first (by rw [hlines]; rfl)]
      simp
    · refine List.ext_getElem? fun number => ?_
      rw [List.getElem?_mapIdx, List.getElem?_map, List.getElem?_map, List.getElem?_mapIdx]
      cases hline : rest[number]? with
      | none => rfl
      | some line =>
        have hother := hmark (number + 1) line (by rw [hlines]; exact hline)
        rw [if_neg (by simp)] at hother
        simp [hother]

theorem start_ne_zero_of_mem_tail {entry : Line × Mark}
    (h : entry ∈ (marksOf text tokens removals).tail) : entry.1.start ≠ 0 := by
  obtain ⟨number, hnumber⟩ := List.mem_iff_getElem?.mp h
  rw [List.getElem?_tail] at hnumber
  exact Nat.ne_of_gt (LineIndex.start_pos (getElem?_marksOf.mp hnumber).1)

theorem surplus_marksAfterMark {marked : List (Line × Mark)}
    (h : ∀ entry ∈ marked.tail, entry.1.start ≠ 0) :
    surplus true (marksAfterMark marked) = (surplusAfterMark marked).map Line.marked := by
  have hempty : ∀ entry ∈ marked.tail,
      entry.1.marked.text.isEmpty = entry.1.text.isEmpty := by
    intro entry hentry
    rw [Line.marked, if_neg (h entry hentry)]
    rfl
  match marked with
  | [] =>
    rw [marksAfterMark, surplusAfterMark, surplus, List.map_nil]
    simp
  | (line, mark) :: rest =>
    have hrest : surplus false (rest.map (Prod.map Line.marked id)) =
        (surplus false rest).map Line.marked :=
      surplus_map Line.marked fun entry hentry => hempty entry (List.mem_of_mem_tail hentry)
    cases mark with
    | blank => rw [marksAfterMark, if_pos rfl, surplusAfterMark, surplus, if_pos rfl, hrest]
    | solid =>
      rw [marksAfterMark, if_neg (by simp), surplusAfterMark, surplus, surplus, if_pos rfl,
        if_pos rfl, hrest]
      simp
    | deleted =>
      rw [marksAfterMark, if_neg (by simp), surplusAfterMark]
      · exact surplus_map Line.marked hempty
      · simp

/-- A first line that does not count as blank is not dropped. -/
theorem blank_of_mem_surplusAfterMark {marked : List (Line × Mark)} {line : Line}
    (h : line ∈ surplusAfterMark marked) : (line, Mark.blank) ∈ marked.tail := by
  unfold surplusAfterMark at h
  split at h
  · exact blank_of_mem_surplus h
  · rename_i hfirst
    have hmem := blank_of_mem_surplus h
    cases marked with
    | nil => simp at hmem
    | cons entry rest =>
      rcases List.mem_cons.mp hmem with rfl | hrest
      · exact absurd rfl (hfirst line rest)
      · exact hrest

end Marks

section Erasing

variable {text : List Char} {tokens : List Token} {removals : List Extent}

/-- The stretches to cut apart from blank lines: those around statements that leave part of their
lines, and the deleted lines. -/
def statementCuts (text : List Char) (tokens : List Token) (removals : List Extent) :
    List Extent :=
  (removals.filter (not ∘ takesLines (.ofText text) tokens removals)).map
      (partialCutOf text (.ofText text)) ++
    (((marksOf text tokens removals).filter fun entry => entry.2 == .deleted).map
      Prod.fst).map (lineCut text)

/-- Every cut moves on, and the blank lines are those that go when the first line does not count
as one. -/
theorem cuts_plan_mark (hlex : Token.lex text = .ok tokens)
    (hmark : text.head? ≠ some byteOrderMark)
    (haligned : ∀ removal ∈ removals, Aligned text tokens removal) :
    (plan (byteOrderMark :: text) (Token.afterMark tokens)
        (removals.map (Extent.advance markSize))).cuts =
      (statementCuts text tokens removals ++
        (surplusAfterMark (marksOf text tokens removals)).map Line.extent).map
          (Extent.advance markSize) := by
  have htakes : (not ∘ takesLines (.ofText (byteOrderMark :: text)) (Token.afterMark tokens)
      (removals.map (Extent.advance markSize))) ∘ Extent.advance markSize =
        not ∘ takesLines (.ofText text) tokens removals :=
    funext fun removal => congrArg not (takesLines_mark removals hlex removal)
  have hdeleted : ∀ marked : List (Line × Mark),
      ((marksAfterMark marked).filter fun entry => entry.2 == .deleted).map Prod.fst =
        ((marked.filter fun entry => entry.2 == .deleted).map Prod.fst).map Line.marked := by
    intro marked
    cases marked with
    | nil => rfl
    | cons entry rest =>
      obtain ⟨line, mark⟩ := entry
      have hrest : ((rest.map (Prod.map Line.marked id)).filter fun entry =>
          entry.2 == .deleted).map Prod.fst =
            ((rest.filter fun entry => entry.2 == .deleted).map Prod.fst).map Line.marked := by
        rw [List.filter_map, List.map_map, List.map_map]
        rfl
      cases mark with
      | deleted => simpa [marksAfterMark] using hrest
      | blank => simpa [marksAfterMark] using hrest
      | solid => simpa [marksAfterMark] using hrest
  rw [cuts_plan, marksOf_mark hlex, surplus_marksAfterMark fun _ => start_ne_zero_of_mem_tail,
    hdeleted, List.filter_map, htakes, List.map_append, statementCuts, List.map_append]
  simp only [List.map_map]
  congr 1
  · congr 1
    · refine List.map_congr_left fun removal hmem => ?_
      exact partialCutOf_mark (haligned removal (List.mem_of_mem_filter hmem))
    · refine List.map_congr_left fun entry _ => ?_
      exact lineCut_mark hmark entry.1
  · refine List.map_congr_left fun line hmem => ?_
    have hstart := start_ne_zero_of_mem_tail (blank_of_mem_surplusAfterMark hmem)
    have hlater : line.marked = line.advance markSize := if_neg hstart
    have hstop := Line.stop_marked line
    simp only [Function.comp_apply]
    rw [hlater] at hstop ⊢
    rw [Line.extent, hstop]
    rfl

theorem erase_advance (cuts : List Extent) (count offset : Nat) (text : List Char) :
    erase (cuts.map (Extent.advance count)) (offset + count) text = erase cuts offset text := by
  induction text generalizing offset with
  | nil => rfl
  | cons c rest ih =>
    have hany : ((cuts.map (Extent.advance count)).any fun cut => cut.contains (offset + count)) =
        cuts.any fun cut => cut.contains offset := by
      rw [List.any_map]
      congr 1
      funext cut
      simp [Extent.contains, Extent.advance]
    rw [erase, erase, hany, Nat.add_right_comm, ih]

/-- Removing statements leaves the mark, and after it what is left when the first line does not
count as blank. -/
theorem remove_mark (hlex : Token.lex text = .ok tokens) (hmark : text.head? ≠ some byteOrderMark)
    (haligned : ∀ removal ∈ removals, Aligned text tokens removal) :
    remove (byteOrderMark :: text) (Token.afterMark tokens)
        (removals.map (Extent.advance markSize)) =
      byteOrderMark :: erase (statementCuts text tokens removals ++
        (surplusAfterMark (marksOf text tokens removals)).map Line.extent) 0 text := by
  have hcuts := cuts_plan_mark hlex hmark haligned
  have hforward : ∀ cut ∈ statementCuts text tokens removals ++
      (surplusAfterMark (marksOf text tokens removals)).map Line.extent,
        cut.start ≤ cut.stop := by
    intro cut hcut
    rcases List.mem_append.mp hcut with hstatement | hline
    · have hplan : cut ∈ (plan text tokens removals).cuts := by
        rw [cuts_plan]
        exact List.mem_append_left _ hstatement
      exact start_le_stop_of_mem_plan haligned hplan
    · obtain ⟨line, -, rfl⟩ := List.mem_map.mp hline
      exact Nat.le_add_right _ _
  rw [remove_eq_erase, hcuts]
  · generalize statementCuts text tokens removals ++
      (surplusAfterMark (marksOf text tokens removals)).map Line.extent = cuts
    have hpositive : 0 < markSize := byteOrderMark.utf8Size_pos
    have hnone : ¬ ((cuts.map (Extent.advance markSize)).any fun cut => cut.contains 0) = true := by
      rw [List.any_map, List.any_eq_true]
      rintro ⟨cut, -, hcontains⟩
      have hstart : cut.start + markSize ≤ 0 := (Extent.contains_iff.mp hcontains).1
      omega
    rw [erase, if_neg hnone]
    exact congrArg (byteOrderMark :: ·) (erase_advance cuts markSize 0 text)
  · intro cut hcut
    rw [hcuts] at hcut
    obtain ⟨original, hmem, rfl⟩ := List.mem_map.mp hcut
    exact Nat.add_le_add_right (hforward original hmem) markSize

end Erasing

end Excision

end UnusedImports
