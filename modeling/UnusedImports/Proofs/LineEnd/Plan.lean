import UnusedImports.Proofs.Excision.Preservation
import UnusedImports.Proofs.LineEnd.Lines
import UnusedImports.Proofs.LineEnd.Tokens

/-!
What is cut out of a text with carriage returns. The same lines are clean, deleted, blank or
given up, and every cut moves with its ends. So what is left of the text with carriage returns is
what is left of the text, with carriage returns.
-/
namespace UnusedImports

namespace Token

def shift (text : List Char) (token : Token) : Token :=
  { token with
    text := String.ofList (Text.withReturns token.text.toList)
    start := Text.shift text token.start }

section Shifting

variable {text : List Char} {tokens : List Token}

@[simp]
theorem kind_shift (text : List Char) (token : Token) : (token.shift text).kind = token.kind := rfl

@[simp]
theorem start_shift (text : List Char) (token : Token) :
    (token.shift text).start = Text.shift text token.start := rfl

@[simp]
theorem toList_text_shift (text : List Char) (token : Token) :
    (token.shift text).text.toList = Text.withReturns token.text.toList := by
  simp [shift]

/-- The tokens with carriage returns are the tokens, moved on. -/
theorem eq_map_shift {others : List Token} (hlex : lex text = .ok tokens)
    (hothers : lex (Text.withReturns text) = .ok others) (h : List.Forall₂ Mirrors tokens others) :
    others = tokens.map (shift text) := by
  have hmoved := Text.Covers.forall₂_shift part (fun hmirrors => hmirrors.text) []
    (covers_lex hlex).1 (covers_lex hothers).1 h
  refine Text.eq_map_of_forall₂ (hmoved.imp fun token other hcase => ?_)
  obtain ⟨⟨hkind, hdepth, htext⟩, hstart⟩ := hcase
  rw [shift, ← hkind, ← hdepth, ← htext, String.ofList_toList,
    ← (show other.start = Text.shift text token.start from hstart)]

theorem stop_shift (hlex : lex text = .ok tokens) {token : Token} (hmem : token ∈ tokens) :
    (token.shift text).stop = Text.shift text token.stop := by
  unfold stop
  rw [(stands_token hlex hmem).shift_stop, start_shift, toList_text_shift]

theorem bytesOf_shift (hlex : lex text = .ok tokens) (extent : Extent) :
    bytesOf (tokens.map (shift text)) extent = (bytesOf tokens extent).shift text := by
  unfold bytesOf Extent.shift
  rw [List.getElem?_map, List.getElem?_map]
  congr 1
  · cases tokens[extent.start]? with
    | none => simp
    | some token => rfl
  · cases htoken : tokens[extent.stop - 1]? with
    | none => simp
    | some token => exact stop_shift hlex (List.mem_of_getElem? htoken)

end Shifting

end Token

namespace Excision

open UnusedImports.Text

section Lists

variable {α : Type} {test other : α → Bool} {list : List α}

theorem dropWhile_congr (h : ∀ x ∈ list, other x = test x) :
    list.dropWhile other = list.dropWhile test := by
  induction list with
  | nil => rfl
  | cons first rest ih =>
    rw [List.dropWhile_cons, List.dropWhile_cons, h first List.mem_cons_self,
      ih fun x hx => h x (List.mem_cons_of_mem first hx)]

theorem all_congr_mem (h : ∀ x ∈ list, other x = test x) : list.all other = list.all test := by
  rw [Bool.eq_iff_iff, List.all_eq_true, List.all_eq_true]
  exact forall₂_congr fun x hx => by rw [h x hx]

end Lists

section Lines

variable {text : List Char} {tokens : List Token} (hlex : Token.lex text = .ok tokens)
  (hreturn : '\r' ∉ text) (removals : List Extent)

theorem linesOf_shift (text : List Char) (removal : Extent) :
    linesOf (.ofText (withReturns text)) (removal.shift text) = linesOf (.ofText text) removal := by
  unfold linesOf
  rw [LineIndex.lineOf_withReturns text (LineIndex.shift_le_last text removal),
    Extent.start_shift, LineIndex.lineOf_withReturns text fun _ => shift_le_shift]

include hlex

theorem isRemoved_shift {token : Token} (hmem : token ∈ tokens) :
    isRemoved (removals.map (Extent.shift text)) (token.shift text) = isRemoved removals token := by
  unfold isRemoved
  rw [List.any_map]
  congr 1
  funext removal
  simp [Token.stop_shift hlex hmem]

theorem isDisposable_shift {token : Token} (hmem : token ∈ tokens) (line : Line) :
    isDisposable (removals.map (Extent.shift text)) (line.shift text) (token.shift text) =
      isDisposable removals line token := by
  unfold isDisposable
  rw [Token.kind_shift, isRemoved_shift hlex removals hmem]
  cases token.kind with
  | comment => simp [mem_withReturns_feed]
  | _ => rfl

include hreturn

/-- The same lines are clean. -/
theorem isClean_shift {line : Line} (hline : line ∈ (LineIndex.ofText text).lines) :
    isClean (tokens.map (Token.shift text)) (removals.map (Extent.shift text)) (line.shift text) =
      isClean tokens removals line := by
  unfold isClean
  rw [List.dropWhile_map, List.takeWhile_map, List.all_map,
    LineIndex.contentStop_shift hline hreturn]
  have hdrop : tokens.dropWhile ((fun token => decide (token.stop ≤ (line.shift text).start)) ∘
      Token.shift text) = tokens.dropWhile fun token => decide (token.stop ≤ line.start) := by
    refine dropWhile_congr fun token hmem => ?_
    simp [Token.stop_shift hlex hmem]
  have htake : (fun token : Token => decide (token.start < shift text line.contentStop)) ∘
      Token.shift text = fun token => decide (token.start < line.contentStop) := by
    funext token
    simp
  rw [hdrop, htake]
  refine all_congr_mem fun token hmem => isDisposable_shift hlex removals ?_ line
  exact (List.dropWhile_sublist _).subset ((List.takeWhile_sublist _).subset hmem)

theorem takesLines_shift (removal : Extent) :
    takesLines (.ofText (withReturns text)) (tokens.map (Token.shift text))
        (removals.map (Extent.shift text)) (removal.shift text) =
      takesLines (.ofText text) tokens removals removal := by
  unfold takesLines Extent.slice
  rw [linesOf_shift, LineIndex.lines_withReturns, ← List.map_drop, ← List.map_take, List.all_map]
  refine all_congr_mem fun line hmem => isClean_shift hlex hreturn removals ?_
  exact List.mem_of_mem_drop (List.mem_of_mem_take hmem)

end Lines

section Cuts

variable {text : List Char} {tokens : List Token}

/-- What lies between two places where the text splits, wherever they are. -/
theorem takeBytes_dropBytes_shift {start stop : Nat}
    (hstart : ∃ before after, text = before ++ after ∧ byteLength before = start)
    (hstop : ∃ before after, text = before ++ after ∧ byteLength before = stop) :
    takeBytes (shift text stop - shift text start)
        (dropBytes (shift text start) (withReturns text)) =
      withReturns (takeBytes (stop - start) (dropBytes start text)) := by
  obtain ⟨before, after, htext, rfl⟩ := hstart
  obtain ⟨first, second, hsplit, rfl⟩ := hstop
  by_cases hle : byteLength before ≤ byteLength first
  · obtain ⟨between, rfl, rfl⟩ := exists_between (htext.symm.trans hsplit) hle
    rw [byteLength_append, takeBytes_shift hsplit, Nat.add_sub_cancel_left, htext,
      dropBytes_byteLength, takeBytes_byteLength]
  · have hlt : byteLength first ≤ byteLength before := by omega
    rw [Nat.sub_eq_zero_of_le hlt, Nat.sub_eq_zero_of_le (shift_le_shift.mpr hlt), takeBytes_zero,
      takeBytes_zero, withReturns_nil]

theorem takeBytes_line_shift {offset : Nat} {c : Char} (hc : charAt? offset text = some c)
    {line : Line} (hline : line ∈ (LineIndex.ofText text).lines) (hstart : line.start ≤ offset)
    (hstop : offset < line.stop) :
    takeBytes (shift text offset - shift text line.start) (withReturns line.text) =
      withReturns (takeBytes (offset - line.start) line.text) := by
  have hstands := LineIndex.stands_line hline
  rw [hstands.charAt?_sub hstart hstop] at hc
  obtain ⟨before, after, hwords, hbefore⟩ := exists_of_charAt? hc
  have hfirst : Stands line.text before 0 := ⟨[], c :: after, hwords, rfl⟩
  have hinner : Stands text before line.start := hstands.trans hfirst
  have hshift := hinner.shift_stop
  rw [show line.start + byteLength before = offset by omega] at hshift
  rw [hshift, Nat.add_sub_cancel_left, ← hbefore, hwords, takeBytes_byteLength,
    withReturns_append, takeBytes_byteLength]

theorem shift_add_length {spaces : List Char} {start : Nat} (hstands : Stands text spaces start)
    (hspaces : ∀ c ∈ spaces, isSpaceOrTab c = true) :
    shift text (start + spaces.length) = shift text start + spaces.length := by
  have hbytes := byteLength_of_bytes fun c hc => utf8Size_of_isSpaceOrTab (hspaces c hc)
  have hfeed : '\n' ∉ spaces := by
    intro hmem
    simpa [isSpaceOrTab] using hspaces '\n' hmem
  have hshift := hstands.shift_stop_of_not_mem hfeed
  rwa [hbytes] at hshift

/-- The stretch around a statement moves with the statement. -/
theorem partialCutOf_shift (hreturn : '\r' ∉ text) {removal : Extent}
    (haligned : Aligned text tokens removal) :
    partialCutOf (withReturns text) (.ofText (withReturns text)) (removal.shift text) =
      (partialCutOf text (.ofText text) removal).shift text := by
  have hforward := haligned.start_lt_stop
  have hlength := haligned.stop_le
  obtain ⟨c, hc⟩ := haligned.starts
  obtain ⟨first, hfirst, hfirstAt, hfirstStart, hfirstStop⟩ :=
    LineIndex.exists_lineAt (lt_of_charAt? hc)
  obtain ⟨last, hlast, hlastAt, -, -⟩ := LineIndex.exists_lineAt
    (show max (removal.stop - 1) removal.start < byteLength text by omega)
  -- The spaces that go with the statement, on either side of it, hold no line feed.
  have hright := shift_add_length (stands_after haligned (last.contentStop - removal.stop))
    fun c hc => List.all_eq_true.mp List.all_takeWhile c hc
  obtain ⟨spaces, hspaces, hle, hstands⟩ := stands_before haligned
  have hleft := shift_add_length hstands fun c hc => by
    rw [hspaces, List.mem_reverse] at hc
    exact List.all_eq_true.mp List.all_takeWhile c hc
  rw [Nat.sub_add_cancel hle] at hleft
  rw [hfirstAt] at hspaces
  have hcount := congrArg List.length hspaces
  rw [List.length_reverse] at hcount
  unfold partialCutOf partialCut
  rw [LineIndex.lineAt_withReturns text (LineIndex.shift_le_last text removal), Extent.start_shift,
    LineIndex.lineAt_withReturns text fun _ => shift_le_shift, hlastAt, hfirstAt,
    LineIndex.contentStop_shift hlast hreturn, Extent.stop_shift]
  simp only [takeBytes_dropBytes_shift haligned.stops (LineIndex.exists_contentStop hlast),
    @takeWhile_withReturns isSpaceOrTab rfl rfl, Line.start_shift, Line.text_shift,
    takeBytes_line_shift hc hfirst hfirstStart hfirstStop,
    @takeWhile_reverse_withReturns isSpaceOrTab rfl, ← hright, shift_inj, ← hcount]
  split
  · rw [Extent.shift, hleft, Nat.add_sub_cancel]
  · rfl

theorem lineCut_shift {line : Line} (hline : line ∈ (LineIndex.ofText text).lines) :
    lineCut (withReturns text) (line.shift text) = (lineCut text line).shift text := by
  have hzero : shift text line.start = shift text 0 ↔ line.start = 0 := shift_inj
  rw [shift_zero] at hzero
  have hmark := head?_withReturns (c := byteOrderMark) (by decide) (by decide) text
  unfold lineCut
  simp only [Line.start_shift, hzero, hmark, LineIndex.stop_shift hline,
    LineIndex.extent_shift hline]
  split
  · rename_i hopens
    obtain ⟨rest, rfl⟩ := List.head?_eq_some_iff.mp hopens.2
    have hsize := shift_byteLength [byteOrderMark] rest
    simp only [byteLength, withReturns_cons (show byteOrderMark ≠ '\n' by decide)] at hsize
    rw [Extent.shift]
    congr 1
    exact hsize.symm
  · rfl

def shiftEntry (text : List Char) (entry : Line × Mark) : Line × Mark :=
  (entry.1.shift text, entry.2)

theorem surplus_shift (text : List Char) (atStart : Bool) (marked : List (Line × Mark)) :
    surplus atStart (marked.map (shiftEntry text)) =
      (surplus atStart marked).map (Line.shift text) :=
  surplus_map (Line.shift text) fun entry _ => isEmpty_withReturns entry.1.text

theorem marksOf_shift (hlex : Token.lex text = .ok tokens) (hreturn : '\r' ∉ text)
    (removals : List Extent) :
    marksOf (withReturns text) (tokens.map (Token.shift text)) (removals.map (Extent.shift text)) =
      (marksOf text tokens removals).map (shiftEntry text) := by
  have hwhole : wholeLines (withReturns text) (tokens.map (Token.shift text))
      (removals.map (Extent.shift text)) = wholeLines text tokens removals := by
    unfold wholeLines
    rw [List.filter_map, List.map_map]
    congr 1
    · funext removal
      exact linesOf_shift text removal
    · congr 1
      funext removal
      exact takesLines_shift hlex hreturn removals removal
  unfold marksOf markLines
  rw [hwhole, LineIndex.lines_withReturns]
  refine List.ext_getElem? fun number => ?_
  rw [List.getElem?_mapIdx, List.getElem?_map, List.getElem?_map, List.getElem?_mapIdx]
  cases hline : (LineIndex.ofText text).lines[number]? with
  | none => rfl
  | some line =>
    simp only [Option.map_some, shiftEntry]
    rw [markOf, markOf, LineIndex.isBlank_shift (List.mem_of_getElem? hline) hreturn]

theorem cuts_plan (text : List Char) (tokens : List Token) (removals : List Extent) :
    (plan text tokens removals).cuts =
      (removals.filter (not ∘ takesLines (.ofText text) tokens removals)).map
          (partialCutOf text (.ofText text)) ++
        (((marksOf text tokens removals).filter fun entry => entry.2 == .deleted).map
          Prod.fst).map (lineCut text) ++
        (surplus true (marksOf text tokens removals)).map Line.extent := by
  unfold plan
  simp only [List.partition_eq_filter_filter]
  rfl

/-- Every cut moves with its ends. -/
theorem cuts_plan_shift (hlex : Token.lex text = .ok tokens) (hreturn : '\r' ∉ text)
    {removals : List Extent} (haligned : ∀ removal ∈ removals, Aligned text tokens removal) :
    (plan (withReturns text) (tokens.map (Token.shift text))
        (removals.map (Extent.shift text))).cuts =
      (plan text tokens removals).cuts.map (Extent.shift text) := by
  have hlines : ∀ entry ∈ marksOf text tokens removals,
      entry.1 ∈ (LineIndex.ofText text).lines := by
    intro entry hentry
    obtain ⟨number, hnumber⟩ := List.mem_iff_getElem?.mp hentry
    exact List.mem_of_getElem? (getElem?_marksOf.mp hnumber).1
  have htakes : (not ∘ takesLines (.ofText (withReturns text)) (tokens.map (Token.shift text))
      (removals.map (Extent.shift text))) ∘ Extent.shift text =
        not ∘ takesLines (.ofText text) tokens removals :=
    funext fun removal => congrArg not (takesLines_shift hlex hreturn removals removal)
  rw [cuts_plan, cuts_plan, marksOf_shift hlex hreturn, surplus_shift, List.filter_map,
    List.filter_map, List.map_append, List.map_append]
  simp only [List.map_map]
  congr 1
  · congr 1
    · rw [htakes]
      refine List.map_congr_left fun removal hmem => ?_
      exact partialCutOf_shift hreturn (haligned removal (List.mem_of_mem_filter hmem))
    · refine List.map_congr_left fun entry hmem => ?_
      exact lineCut_shift (hlines entry (List.mem_of_mem_filter hmem))
  · refine List.map_congr_left fun line hmem => ?_
    exact LineIndex.extent_shift (hlines (line, Mark.blank) (blank_of_mem_surplus hmem))

end Cuts

section Erasing

variable {text : List Char}

/-- A cut takes both characters of a line end or neither. -/
theorem contains_shift_feed {offset : Nat} (hfeed : shift text (offset + 1) = shift text offset + 2)
    (cut : Extent) :
    (cut.shift text).contains (shift text offset + 1) = cut.contains offset := by
  have hstart : shift text (offset + 1) ≤ shift text cut.start ↔ offset + 1 ≤ cut.start :=
    shift_le_shift
  have hstop : shift text (offset + 1) ≤ shift text cut.stop ↔ offset + 1 ≤ cut.stop :=
    shift_le_shift
  rw [hfeed] at hstart hstop
  rw [Bool.eq_iff_iff, Extent.contains_iff, Extent.contains_iff, Extent.start_shift,
    Extent.stop_shift]
  omega

/-- What is left after the cuts have moved is what was left, with carriage returns. -/
theorem erase_withReturns (cuts : List Extent) {before later : List Char}
    (htext : text = before ++ later) :
    erase (cuts.map (Extent.shift text)) (shift text (byteLength before)) (withReturns later) =
      withReturns (erase cuts (byteLength before) later) := by
  -- The induction is on what is left of the text; the cuts move by the text as a whole.
  induction later generalizing before with
  | nil => rfl
  | cons c rest ih =>
    have hrest := ih (show text = (before ++ [c]) ++ rest by rw [htext]; simp)
    have hstands : Stands text [c] (byteLength before) := ⟨before, rest, htext, rfl⟩
    have hshift := hstands.shift_stop
    have hany : ((cuts.map (Extent.shift text)).any fun cut =>
        cut.contains (shift text (byteLength before))) =
          cuts.any fun cut => cut.contains (byteLength before) := by
      rw [List.any_map]
      congr 1
      funext cut
      exact Extent.contains_shift text cut _
    rw [byteLength_append] at hrest
    rw [hshift] at hrest
    rw [erase]
    by_cases hc : c = '\n'
    · subst hc
      have hfeed : shift text (byteLength before + 1) = shift text (byteLength before) + 2 := hshift
      have hnext : ((cuts.map (Extent.shift text)).any fun cut =>
          cut.contains (shift text (byteLength before) + ('\r').utf8Size)) =
            cuts.any fun cut => cut.contains (byteLength before) := by
        rw [List.any_map]
        congr 1
        funext cut
        exact contains_shift_feed hfeed cut
      rw [withReturns_feed, erase, erase, hany, hnext]
      split
      · exact hrest
      · rw [withReturns_feed]
        exact congrArg ('\r' :: '\n' :: ·) hrest
    · rw [withReturns_cons hc, erase, hany]
      rw [withReturns_cons hc, withReturns_nil] at hrest
      split
      · exact hrest
      · rw [withReturns_cons hc]
        exact congrArg (c :: ·) hrest

/-- Removing statements leaves the same text, with carriage returns. -/
theorem remove_withReturns {tokens : List Token} (hlex : Token.lex text = .ok tokens)
    (hreturn : '\r' ∉ text) {removals : List Extent}
    (haligned : ∀ removal ∈ removals, Aligned text tokens removal) :
    remove (withReturns text) (tokens.map (Token.shift text)) (removals.map (Extent.shift text)) =
      withReturns (remove text tokens removals) := by
  have hcuts := cuts_plan_shift hlex hreturn haligned
  have herase := erase_withReturns (plan text tokens removals).cuts (List.nil_append text).symm
  rw [byteLength, shift_zero] at herase
  rw [remove_eq_erase text tokens removals fun _ => start_le_stop_of_mem_plan haligned,
    remove_eq_erase, hcuts]
  · exact herase
  · intro cut hcut
    rw [hcuts] at hcut
    obtain ⟨original, hmem, rfl⟩ := List.mem_map.mp hcut
    exact shift_le_shift.mpr (start_le_stop_of_mem_plan haligned hmem)

end Erasing

end Excision

end UnusedImports
