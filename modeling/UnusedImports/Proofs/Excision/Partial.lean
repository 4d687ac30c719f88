import UnusedImports.Proofs.Excision.Left

/-!
How far a cut around a statement goes. A statement that is cut out of its lines takes all spaces
behind it on its last line, and those before it on its first line exactly if nothing else stands
behind it. So the spaces behind a removed statement always go, and those before it go with it only
if it ends its line in the text.
-/
namespace UnusedImports

open UnusedImports.Text

namespace Excision

section Spaces

variable {text : List Char}

def Spaced (text : List Char) (start stop : Nat) : Prop :=
  ∀ offset c, charAt? offset text = some c → start ≤ offset → offset < stop →
    isSpaceOrTab c = true

theorem spaced_self (text : List Char) (offset : Nat) : Spaced text offset offset :=
  fun _ _ _ hge hlt => absurd hge (Nat.not_le_of_lt hlt)

theorem byteLength_takeWhile (part : List Char) :
    byteLength (part.takeWhile isSpaceOrTab) = (part.takeWhile isSpaceOrTab).length :=
  byteLength_of_bytes fun c hc =>
    utf8Size_of_isSpaceOrTab (List.all_eq_true.mp List.all_takeWhile c hc)

/-- The spaces at the start of a part end with the part or before something else. -/
theorem exists_after_spaces {part : List Char} {start : Nat} (hstands : Stands text part start) :
    (part.takeWhile isSpaceOrTab).length = byteLength part ∨
      (part.takeWhile isSpaceOrTab).length < byteLength part ∧
        ∃ c, charAt? (start + (part.takeWhile isSpaceOrTab).length) text = some c ∧
          isSpaceOrTab c = false := by
  have hsplit := List.takeWhile_append_dropWhile (p := isSpaceOrTab) (l := part)
  cases hrest : part.dropWhile isSpaceOrTab with
  | nil =>
    rw [hrest, List.append_nil] at hsplit
    exact Or.inl (by rw [← byteLength_takeWhile, hsplit])
  | cons c rest =>
    rw [hrest] at hsplit
    have hc := charAt?_append_right (part.takeWhile isSpaceOrTab) (c :: rest) 0
    rw [hsplit, Nat.add_zero, byteLength_takeWhile,
      show charAt? 0 (c :: rest) = some c from rfl] at hc
    have hnot := List.head?_dropWhile_not isSpaceOrTab part
    rw [hrest] at hnot
    have hlt := lt_of_charAt? hc
    exact Or.inr ⟨hlt, c, (hstands.charAt? hlt).trans hc, by simpa using hnot⟩

/-- The spaces at the end of a part start with the part or behind something else. -/
theorem exists_before_spaces {part : List Char} {start : Nat} (hstands : Stands text part start) :
    (part.reverse.takeWhile isSpaceOrTab).length = byteLength part ∨
      ∃ earlier c, charAt? earlier text = some c ∧ isSpaceOrTab c = false ∧
        earlier + c.utf8Size + (part.reverse.takeWhile isSpaceOrTab).length =
          start + byteLength part := by
  have hsplit := congrArg List.reverse
    (List.takeWhile_append_dropWhile (p := isSpaceOrTab) (l := part.reverse))
  rw [List.reverse_append, List.reverse_reverse] at hsplit
  have hspaces : byteLength (part.reverse.takeWhile isSpaceOrTab).reverse =
      (part.reverse.takeWhile isSpaceOrTab).length := by
    rw [byteLength_of_bytes, List.length_reverse]
    intro c hc
    exact utf8Size_of_isSpaceOrTab
      (List.all_eq_true.mp List.all_takeWhile c (List.mem_reverse.mp hc))
  cases hrest : part.reverse.dropWhile isSpaceOrTab with
  | nil =>
    rw [hrest, List.reverse_nil, List.nil_append] at hsplit
    exact Or.inl (by rw [← hspaces, hsplit])
  | cons c rest =>
    rw [hrest, List.reverse_cons] at hsplit
    have hnot := List.head?_dropWhile_not isSpaceOrTab part.reverse
    rw [hrest] at hnot
    have hc := charAt?_append_right rest.reverse
      (c :: (part.reverse.takeWhile isSpaceOrTab).reverse) 0
    rw [← List.singleton_append, ← List.append_assoc, hsplit, Nat.add_zero,
      show charAt? 0 ([c] ++ _) = some c from rfl] at hc
    have hlength := congrArg byteLength hsplit
    rw [byteLength_append, byteLength_append, hspaces] at hlength
    simp only [byteLength, Nat.add_zero] at hlength
    refine Or.inr ⟨_, c, (hstands.charAt? (lt_of_charAt? hc)).trans hc, by simpa using hnot, ?_⟩
    omega

end Spaces

section Partial

variable {text : List Char} {tokens : List Token} {removals : List Extent} {removal : Extent}
  {first last : Line}

structure StartsOn (text : List Char) (removal : Extent) (first : Line) : Prop where
  mem : first ∈ (LineIndex.ofText text).lines
  start_le : first.start ≤ removal.start
  lt_stop : removal.start < first.stop

structure EndsOn (text : List Char) (removal : Extent) (last : Line) : Prop where
  mem : last ∈ (LineIndex.ofText text).lines
  start_lt : last.start < removal.stop
  stop_le : removal.stop ≤ last.contentStop

theorem Aligned.exists_startsOn (h : Aligned text tokens removal) :
    ∃ first, StartsOn text removal first := by
  obtain ⟨c, hc⟩ := h.starts
  obtain ⟨first, hfirst, hstart, hstop⟩ := LineIndex.exists_line (lt_of_charAt? hc)
  exact ⟨first, List.mem_of_getElem? hfirst, hstart, hstop⟩

theorem Framed.exists_endsOn (h : Framed text removal) : ∃ last, EndsOn text removal last := by
  obtain ⟨shown, c, hc, hvisible, -, hend⟩ := h.last
  have hpositive := c.utf8Size_pos
  obtain ⟨last, hlast, hstart, hstop⟩ := LineIndex.exists_line (lt_of_charAt? hc)
  have hmem := List.mem_of_getElem? hlast
  have hcontent : shown < last.contentStop := by
    by_contra hle
    rcases LineIndex.lineEnd_of_contentStop_le hmem hc (by omega) hstop with rfl | rfl <;>
      simp [isSpacing] at hvisible
  have hle := (LineIndex.splitsAt_contentStop hmem).add_utf8Size_le hc hcontent
  exact ⟨last, hmem, by omega, by omega⟩

/-- Spaces behind a statement are on the line on which it ends. -/
theorem EndsOn.lt_contentStop (h : EndsOn text removal last) {offset : Nat} {c : Char}
    (hc : charAt? offset text = some c) (hspaced : Spaced text removal.stop (offset + 1)) :
    offset < last.contentStop := by
  by_contra hle
  have hinside := lt_of_charAt? hc
  obtain ⟨d, hd⟩ := (LineIndex.splitsAt_contentStop h.mem).exists_charAt? (by omega)
  have hspace := hspaced _ d hd h.stop_le (by omega)
  rcases LineIndex.lineEnd_of_contentStop h.mem hd with rfl | rfl <;>
    simp [isSpaceOrTab] at hspace

/-- A cut around a statement goes on behind it to the end of the line or to something that is no
space. In the first case it also goes back before the statement to the start of the line or to
something that is no space, and otherwise it starts with the statement. -/
theorem exists_partialCutOf_eq (haligned : Aligned text tokens removal)
    (hfirst : StartsOn text removal first) (hlast : EndsOn text removal last) :
    ∃ left right, partialCutOf text (.ofText text) removal =
        ⟨removal.start - left, removal.stop + right⟩ ∧
      (removal.stop + right = last.contentStop ∧
          (left + first.start = removal.start ∨ ∃ earlier c, charAt? earlier text = some c ∧
            isSpaceOrTab c = false ∧ earlier + c.utf8Size + left = removal.start) ∨
        removal.stop + right < last.contentStop ∧ left = 0 ∧
          ∃ c, charAt? (removal.stop + right) text = some c ∧ isSpaceOrTab c = false) := by
  have hforward := haligned.start_lt_stop
  have hcontent := last.contentStop_le_stop
  have hstart := hlast.start_lt
  have hstop := hlast.stop_le
  obtain ⟨c, hc⟩ := haligned.starts
  obtain ⟨before, after, htext, hbefore⟩ := haligned.stops
  -- The rest of the last line, and the start of the first one.
  have hrest : Stands text (textOf text ⟨removal.stop, last.contentStop⟩) removal.stop ∧
      byteLength (textOf text ⟨removal.stop, last.contentStop⟩) =
        last.contentStop - removal.stop :=
    stands_textOf (show Stands text [] removal.stop from ⟨before, after, htext, hbefore⟩)
      (LineIndex.stands_content hlast.mem) hstop
  have hopening : Stands text
        (takeBytes (removal.start - first.start) first.text) first.start ∧
      byteLength (takeBytes (removal.start - first.start) first.text) =
        removal.start - first.start := by
    have hstands := LineIndex.stands_line hfirst.mem
    rw [hstands.charAt?_sub hfirst.start_le hfirst.lt_stop] at hc
    obtain ⟨opening, later, hopening, hlength⟩ := exists_of_charAt? hc
    rw [← hlength, hopening, takeBytes_byteLength]
    refine ⟨?_, rfl⟩
    exact hstands.trans ⟨[], c :: later, hopening, rfl⟩
  unfold partialCutOf partialCut
  rw [LineIndex.lineAt_eq hfirst.mem hfirst.start_le hfirst.lt_stop,
    LineIndex.lineAt_eq hlast.mem (show last.start ≤ max (removal.stop - 1) removal.start by omega)
      (show max (removal.stop - 1) removal.start < last.stop by omega)]
  simp only
  rcases exists_after_spaces hrest.1 with hall | ⟨hlt, hnext⟩
  · rw [hrest.2] at hall
    rw [show takeBytes (last.contentStop - removal.stop) (dropBytes removal.stop text) =
      textOf text ⟨removal.stop, last.contentStop⟩ from rfl, hall, if_pos (by omega)]
    refine ⟨_, _, rfl, Or.inl ⟨by omega, ?_⟩⟩
    have hle := hfirst.start_le
    rcases exists_before_spaces hopening.1 with hbegin | ⟨earlier, d, hd, hspace, hearlier⟩
    · exact Or.inl (by omega)
    · exact Or.inr ⟨earlier, d, hd, hspace, by omega⟩
  · rw [hrest.2] at hlt
    rw [show takeBytes (last.contentStop - removal.stop) (dropBytes removal.stop text) =
      textOf text ⟨removal.stop, last.contentStop⟩ from rfl, if_neg (by omega)]
    exact ⟨0, _, rfl, Or.inr ⟨by omega, rfl, hnext⟩⟩

/-- Spaces behind a statement that leaves its lines are cut. -/
theorem contains_partialCutOf_of_after (haligned : Aligned text tokens removal)
    (hlast : EndsOn text removal last) {offset : Nat} (hge : removal.stop ≤ offset)
    (hlt : offset < last.contentStop) (hspaced : Spaced text removal.stop (offset + 1)) :
    (partialCutOf text (.ofText text) removal).contains offset = true := by
  obtain ⟨first, hfirst⟩ := haligned.exists_startsOn
  have hforward := haligned.start_lt_stop
  obtain ⟨left, right, hcut, hcases⟩ := exists_partialCutOf_eq haligned hfirst hlast
  rw [hcut]
  refine Extent.contains_iff.mpr ⟨by simp only; omega, ?_⟩
  simp only
  rcases hcases with ⟨hend, -⟩ | ⟨hinside, -, c, hc, hspace⟩
  · omega
  · by_contra hle
    simp [hspaced _ c hc (by omega) (by omega)] at hspace

theorem contains_partialCutOf_of_before (haligned : Aligned text tokens removal)
    (hlast : EndsOn text removal last) {offset : Nat} {c : Char}
    (hc : charAt? offset text = some c) (hlt : offset < removal.start)
    (hspaced : Spaced text offset removal.start)
    (hspaced' : Spaced text removal.stop last.contentStop) :
    (partialCutOf text (.ofText text) removal).contains offset = true := by
  obtain ⟨first, hfirst⟩ := haligned.exists_startsOn
  have hforward := haligned.start_lt_stop
  have hsame : first.start ≤ offset := by
    apply LineIndex.start_le_of_no_feed hfirst.mem hfirst.start_le
    intro between hge hbefore hat
    have hspace := hspaced between _ hat hge hbefore
    simp [isSpaceOrTab] at hspace
  obtain ⟨left, right, hcut, hcases⟩ := exists_partialCutOf_eq haligned hfirst hlast
  rw [hcut]
  refine Extent.contains_iff.mpr ⟨?_, by simp only; omega⟩
  simp only
  rcases hcases with ⟨-, hbegin | ⟨earlier, d, hd, hspace, hearlier⟩⟩ |
    ⟨hinside, -, d, hd, hspace⟩
  · omega
  · by_contra hle
    have hpositive := d.utf8Size_pos
    have hbefore : offset ≤ earlier := by
      by_contra hgt
      have hend := (splitsAt_of_charAt? hc).add_utf8Size_le hd (by omega)
      omega
    simp [hspaced _ d hd hbefore (by omega)] at hspace
  · simp [hspaced' _ d hd (by omega) hinside] at hspace

/-- A cut around a statement starts with it if something else stands behind it on its line. -/
theorem start_partialCutOf (haligned : Aligned text tokens removal)
    (hlast : EndsOn text removal last) (hspaced : ¬ Spaced text removal.stop last.contentStop) :
    (partialCutOf text (.ofText text) removal).start = removal.start := by
  obtain ⟨first, hfirst⟩ := haligned.exists_startsOn
  obtain ⟨left, right, hcut, hcases⟩ := exists_partialCutOf_eq haligned hfirst hlast
  have hforward := haligned.start_lt_stop
  rcases hcases with ⟨hend, -⟩ | ⟨-, rfl, -⟩
  · refine absurd ?_ hspaced
    intro offset c hc hge hlt
    have hcontains : (partialCutOf text (.ofText text) removal).contains offset = true := by
      rw [hcut]
      exact Extent.contains_iff.mpr ⟨by simp only; omega, by simp only; omega⟩
    rcases exists_space_of_partialCutOf haligned hcontains with hinside | ⟨d, hd, hspace⟩
    · have hstop := (Extent.contains_iff.mp hinside).2
      omega
    · rw [Option.some.inj (hc.symm.trans hd)]
      exact hspace
  · rw [hcut, Nat.sub_zero]

/-- Whatever becomes of a statement, the spaces behind it go with it. -/
theorem hits_of_after (haligned : Aligned text tokens removal) (hframed : Framed text removal)
    (hmem : removal ∈ removals) {offset : Nat} {c : Char} (hc : charAt? offset text = some c)
    (hge : removal.stop ≤ offset) (hspaced : Spaced text removal.stop (offset + 1)) :
    Hits (plan text tokens removals).cuts offset := by
  obtain ⟨last, hlast⟩ := hframed.exists_endsOn
  have hlt := hlast.lt_contentStop hc hspaced
  cases htakes : takesLines (.ofText text) tokens removals removal with
  | false =>
    exact ⟨_, mem_cuts_plan.mpr (Or.inl ⟨removal, hmem, htakes, rfl⟩),
      contains_partialCutOf_of_after haligned hlast hge hlt hspaced⟩
  | true =>
    have hforward := haligned.start_lt_stop
    have hcontent := last.contentStop_le_stop
    have hstart := hlast.start_lt
    have hstop := hlast.stop_le
    obtain ⟨line, hline, hlinestart, hlinestop, hcontains⟩ := contains_linesOf haligned
      (Extent.contains_iff.mpr ⟨by omega, by omega⟩ : removal.contains (removal.stop - 1) = true)
    obtain rfl : line = last := (LineIndex.tiles_lines text).eq_of_contains
      (List.mem_of_getElem? hline) hlast.mem
      (Extent.contains_iff.mpr ⟨hlinestart, hlinestop⟩)
      (Extent.contains_iff.mpr ⟨show last.start ≤ removal.stop - 1 by omega,
        show removal.stop - 1 < last.stop by omega⟩)
    have hspace := hspaced offset c hc hge (Nat.lt_succ_self offset)
    refine hits_of_deleted (deleted_of_takesLines hmem htakes hline hcontains) hc ?_ (by omega)
      (by omega)
    rintro rfl
    exact absurd hspace (by decide)

end Partial

end Excision

end UnusedImports
