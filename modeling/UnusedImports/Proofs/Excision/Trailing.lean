import UnusedImports.Proofs.Excision.Partial

/-!
Spaces at the end of a line. Where removed statements and spaces end a line that shows something,
each statement decides by the text whether it takes the spaces before it. A single one ends the
line, so it does, and what is left of the line ends where the last token on it does. Of several
only the last ends the line, so the spaces before the first one stay. And if the line on which the
last one ends goes with another statement, no line end is left at all.
-/
namespace UnusedImports

open UnusedImports.Text

namespace Excision

def EndsLine (rest : List Char) : Prop :=
  rest = [] ∨ rest.head? = some '\n' ∨ ['\r', '\n'] <+: rest

/-- From an offset to the end of a line stand removed statements, at least one of them, and spaces.
The line end is part of none. -/
structure Trails (text : List Char) (removals : List Extent) (start : Nat) (line : Line) :
    Prop where
  mem : line ∈ (LineIndex.ofText text).lines
  filled : ∀ offset c, charAt? offset text = some c → start ≤ offset → offset < line.contentStop →
    isSpaceOrTab c = true ∨ ∃ removal ∈ removals, removal.contains offset = true
  outside : ∀ removal ∈ removals, removal.contains line.contentStop = false
  removed : ∃ removal ∈ removals, start ≤ removal.start ∧ removal.stop ≤ line.contentStop

instance (rest : List Char) : Decidable (EndsLine rest) :=
  inferInstanceAs (Decidable (rest = [] ∨ rest.head? = some '\n' ∨ ['\r', '\n'] <+: rest))

instance (text : List Char) (removals : List Extent) (start : Nat) (line : Line) :
    Decidable (Trails text removals start line) :=
  decidable_of_iff
    (line ∈ (LineIndex.ofText text).lines ∧
      (∀ offset < line.contentStop, start ≤ offset → (charAt? offset text).all (fun c =>
        isSpaceOrTab c || removals.any fun removal => removal.contains offset) = true) ∧
      (∀ removal ∈ removals, removal.contains line.contentStop = false) ∧
      ∃ removal ∈ removals, start ≤ removal.start ∧ removal.stop ≤ line.contentStop) <| by
    constructor
    · intro h
      refine ⟨h.1, ?_, h.2.2.1, h.2.2.2⟩
      intro offset c hc hge hlt
      simpa [hc] using h.2.1 offset hlt hge
    · intro h
      refine ⟨h.mem, ?_, h.outside, h.removed⟩
      intro offset hlt hge
      cases hc : charAt? offset text with
      | none => rfl
      | some c => simpa using h.filled offset c hc hge hlt

def AtMostOne (removals : List Extent) (start stop : Nat) : Prop :=
  ∀ first ∈ removals, ∀ second ∈ removals, start ≤ first.start → first.stop ≤ stop →
    start ≤ second.start → second.stop ≤ stop → first = second

end Excision

namespace Source

open Excision

variable {source : Source} {text : List Char} {chosen : List ImportStatement}

/-- A removed statement does not start with the line end. -/
theorem Selects.start_lt_contentStop (h : source.Selects text chosen) {removal : Extent}
    (hremoval : removal ∈ source.bytesOfImports chosen) {line : Line}
    (hline : line ∈ (LineIndex.ofText text).lines) (hstop : removal.start < line.stop) :
    removal.start < line.contentStop := by
  obtain ⟨c, hc, hvisible⟩ := (h.framed removal hremoval).first
  by_contra hle
  rcases LineIndex.lineEnd_of_contentStop_le hline hc (by omega) hstop with rfl | rfl <;>
    simp [isSpacing] at hvisible

section Trailing

variable (h : source.Selects text chosen) {position : Nat} {token : Token} {line : Line}
  (hsurvives : Survives source.tokens (source.bytesOfImports chosen) position token)

include h hsurvives

/-- Behind a token that survives with nothing but spaces between, a line neither goes nor is
blank. -/
theorem Selects.solid_of_spaced {offset : Nat} (hge : token.stop ≤ offset)
    (hspaced : Spaced text token.stop offset) {number : Nat} {mark : Mark}
    (hmark : (marksOf text source.tokens (source.bytesOfImports chosen))[number]? =
      some (line, mark)) (hstart : line.start ≤ offset) (hstop : offset < line.stop) :
    mark = .solid := by
  obtain ⟨anchor, hholds, hle, hnext⟩ := h.exists_anchor hsurvives
  have hline := List.mem_of_getElem? (getElem?_marksOf.mp hmark).1
  have hsame : line.start ≤ anchor := by
    apply LineIndex.start_le_of_no_feed hline hstart
    intro between hbetween hlt hat
    by_cases heq : anchor = between
    · obtain ⟨d, hd, hvisible⟩ := hholds.visible
      exact ne_feed_of_visible hd hvisible (heq ▸ hat)
    · have hspace := hspaced between _ hat (hnext between _ hat (by omega)) hlt
      simp [isSpaceOrTab] at hspace
  exact hholds.solid h.lexed hmark hsame (by omega)

/-- A removed statement that only spaces part from such a token does not take its lines. -/
theorem Selects.takesLines_of_spaced {removal : Extent}
    (hremoval : removal ∈ source.bytesOfImports chosen) (hge : token.stop ≤ removal.start)
    (hspaced : Spaced text token.stop removal.start) :
    takesLines (.ofText text) source.tokens (source.bytesOfImports chosen) removal = false := by
  cases htakes : takesLines (.ofText text) source.tokens (source.bytesOfImports chosen) removal with
  | false => rfl
  | true =>
    have haligned := h.aligned_bytes removal hremoval
    have hforward := haligned.start_lt_stop
    obtain ⟨first, hfirst, hstart, hstop, hcontains⟩ := contains_linesOf haligned
      (Extent.contains_iff.mpr ⟨Nat.le_refl _, hforward⟩ : removal.contains removal.start = true)
    have hdeleted := deleted_of_takesLines hremoval htakes hfirst hcontains
    have hsolid := h.solid_of_spaced hsurvives hge hspaced hdeleted hstart hstop
    simp at hsolid

variable (htrails : Trails text (source.bytesOfImports chosen) token.stop line)

include htrails

omit hsurvives in
theorem Selects.stop_lt_contentStop : token.stop < line.contentStop := by
  obtain ⟨removal, hremoval, hstart, hstop⟩ := htrails.removed
  have hforward := (h.aligned_bytes removal hremoval).start_lt_stop
  omega

theorem Selects.exists_charAt?_stop : ∃ c, charAt? token.stop text = some c := by
  have hstands := Token.stands_token h.lexed (List.mem_of_getElem? hsurvives.token_eq)
  have hsplit : SplitsAt text token.stop := hstands.splitsAt_stop
  have hlt := h.stop_lt_contentStop htrails
  have hend : line.contentStop ≤ byteLength text :=
    (LineIndex.stands_content htrails.mem).le_byteLength
  exact hsplit.exists_charAt? (by omega)

/-- The removed statements behind the token on the line stand between the two. -/
theorem Selects.within {removal : Extent} (hremoval : removal ∈ source.bytesOfImports chosen)
    {offset : Nat} (hcontains : removal.contains offset = true) (hge : token.stop ≤ offset)
    (hlt : offset < line.contentStop) :
    token.stop ≤ removal.start ∧ removal.stop ≤ line.contentStop := by
  have hforward := Token.start_le_stop token
  refine ⟨h.apart_of_survives hsurvives hremoval hcontains (by omega), ?_⟩
  have hnot := Extent.contains_eq_false_iff.mp (htrails.outside removal hremoval)
  have hlow := (Extent.contains_iff.mp hcontains).1
  omega

/-- Where the line starts behind the token, the statement before its start goes on with something
visible on it. -/
theorem Selects.exists_visible_of_lt (hlt : token.stop < line.start) :
    ∃ shown c, charAt? shown text = some c ∧ isSpacing c = false ∧ line.start ≤ shown ∧
      shown < line.contentStop := by
  have hle : line.start ≤ line.contentStop := Nat.le_add_right _ _
  have hfeed := LineIndex.charAt?_before_line htrails.mem (by omega)
  rcases htrails.filled _ _ hfeed (by omega) (by omega) with hspace | ⟨removal, hremoval, hinside⟩
  · simp [isSpaceOrTab] at hspace
  · obtain ⟨-, hstop⟩ := h.within hsurvives htrails hremoval hinside (by omega) (by omega)
    obtain ⟨shown, c, hc, hvisible, hafter, hend⟩ :=
      (h.framed removal hremoval).exists_last_after hfeed (Extent.contains_iff.mp hinside).2
    have hpositive := c.utf8Size_pos
    exact ⟨shown, c, hc, hvisible, by omega, by omega⟩

theorem Selects.exists_mark : ∃ (number : Nat) (mark : Mark),
    (marksOf text source.tokens (source.bytesOfImports chosen))[number]? = some (line, mark) ∧
      mark ≠ .blank ∧ line.start < line.contentStop := by
  obtain ⟨number, hnumber⟩ := List.mem_iff_getElem?.mp htrails.mem
  have hmark : (marksOf text source.tokens (source.bytesOfImports chosen))[number]? =
      some (line, _) := getElem?_marksOf.mpr ⟨hnumber, rfl⟩
  have hcontent := line.contentStop_le_stop
  refine ⟨number, _, hmark, ?_⟩
  by_cases hstart : line.start ≤ token.stop
  · have hlt := h.stop_lt_contentStop htrails
    have hsolid := h.solid_of_spaced hsurvives (Nat.le_refl _) (spaced_self text _) hmark hstart
      (by omega)
    exact ⟨by simp [hsolid], by omega⟩
  · obtain ⟨shown, c, hc, hvisible, hge, hlt⟩ :=
      h.exists_visible_of_lt hsurvives htrails (by omega)
    refine ⟨?_, by omega⟩
    intro hblank
    rw [hblank] at hmark
    have hspacing := isSpacing_of_blank hmark hc
      (Extent.contains_iff.mpr ⟨hge, show shown < line.stop by omega⟩)
    simp [hvisible] at hspacing

/-- The line goes only if the token stands on an earlier one. -/
theorem Selects.stop_lt_of_onDeletedLine
    (hdeleted : OnDeletedLine text source.tokens (source.bytesOfImports chosen) line.start) :
    token.stop < line.start := by
  obtain ⟨number, mark, hmark, -, hforward⟩ := h.exists_mark hsurvives htrails
  have hcontent := line.contentStop_le_stop
  have hlt := h.stop_lt_contentStop htrails
  obtain rfl := (onDeletedLine_iff hmark (Nat.le_refl _) (by omega)).mp hdeleted
  by_contra hle
  have hsolid := h.solid_of_spaced hsurvives (Nat.le_refl _) (spaced_self text _) hmark (by omega)
    (by omega)
  simp at hsolid

theorem Selects.hits_lineEnd
    (hdeleted : OnDeletedLine text source.tokens (source.bytesOfImports chosen) line.start)
    {offset : Nat} {c : Char} (hc : charAt? offset text = some c) (hge : line.contentStop ≤ offset)
    (hlt : offset < line.stop) : Hits (source.cutsFor text chosen) offset := by
  obtain ⟨number, mark, hmark, -, hstart⟩ := h.exists_mark hsurvives htrails
  obtain rfl := (onDeletedLine_iff hmark (Nat.le_refl _) (by omega)).mp hdeleted
  refine hits_of_deleted hmark hc ?_ (by omega) hlt
  rcases LineIndex.lineEnd_of_contentStop_le htrails.mem hc hge hlt with rfl | rfl <;> decide

theorem Selects.not_hits_lineEnd
    (hstays : ¬ OnDeletedLine text source.tokens (source.bytesOfImports chosen) line.start)
    {offset : Nat} {c : Char} (hc : charAt? offset text = some c) (hge : line.contentStop ≤ offset)
    (hlt : offset < line.stop) : ¬ Hits (source.cutsFor text chosen) offset := by
  obtain ⟨number, mark, hmark, hblank, hstart⟩ := h.exists_mark hsurvives htrails
  rw [onDeletedLine_iff hmark (Nat.le_refl _) (by omega)] at hstays
  intro hhits
  have hspace : isSpaceOrTab c = false := by
    rcases LineIndex.lineEnd_of_contentStop_le htrails.mem hc hge hlt with rfl | rfl <;> decide
  have hsolid : mark = .solid := by cases mark <;> simp_all
  subst hsolid
  obtain ⟨removal, hremoval, -, hinside⟩ := exists_removal_of_solid h.aligned_bytes hmark
    (show line.start ≤ offset by omega) hlt hc hspace hhits
  obtain ⟨hlow, hhigh⟩ := Extent.contains_iff.mp hinside
  have hbefore := h.start_lt_contentStop hremoval htrails.mem (by omega)
  have hnot := Extent.contains_eq_false_iff.mp (htrails.outside removal hremoval)
  omega

/-- What ends the line of the token, if nothing before the line end is left. -/
theorem Selects.endsLine_iff_of_hits
    (hgone : ∀ offset c, token.stop ≤ offset → offset < line.contentStop →
      charAt? offset text = some c → Hits (source.cutsFor text chosen) offset) :
    EndsLine (leftOf text (source.cutsFor text chosen) token.stop (byteLength text)) ↔
      (OnDeletedLine text source.tokens (source.bytesOfImports chosen) line.start →
        EndsLine (leftOf text (source.cutsFor text chosen) line.stop (byteLength text))) := by
  have hstands := Token.stands_token h.lexed (List.mem_of_getElem? hsurvives.token_eq)
  have hsplit : SplitsAt text token.stop := hstands.splitsAt_stop
  have hcontent := LineIndex.splitsAt_contentStop htrails.mem
  have hline := LineIndex.stands_line htrails.mem
  have hstop : SplitsAt text line.stop := hline.splitsAt_stop
  have hend : line.stop ≤ byteLength text := hline.le_byteLength
  have hlt := h.stop_lt_contentStop htrails
  have hle := line.contentStop_le_stop
  rw [leftOf_append hsplit hcontent (Nat.le_of_lt hlt) (by omega), leftOf_eq_nil hsplit hgone,
    List.nil_append, leftOf_append hcontent hstop hle hend]
  by_cases hdeleted : OnDeletedLine text source.tokens (source.bytesOfImports chosen) line.start
  · rw [leftOf_eq_nil hcontent fun offset c hge hlt hc =>
      h.hits_lineEnd hsurvives htrails hdeleted hc hge hlt, List.nil_append]
    simp [hdeleted]
  · refine iff_of_true ?_ fun hcase => absurd hcase hdeleted
    obtain ⟨lineEnd, htext, hcases⟩ := line.lineEnd_cases
    have hlineEnd : Stands text lineEnd line.contentStop :=
      hline.trans ⟨line.content, [], by rw [List.append_nil]; exact htext, rfl⟩
    have hlength : line.contentStop + byteLength lineEnd = line.stop := by
      rw [Line.stop, htext, byteLength_append, ← Nat.add_assoc]
      rfl
    rw [leftOf_of_stands hlineEnd hlength fun offset c hge hlt hc =>
      h.not_hits_lineEnd hsurvives htrails hdeleted hc hge hlt]
    rcases hcases with rfl | rfl | ⟨rfl, hlast⟩
    · exact Or.inr (Or.inr (List.prefix_append _ _))
    · exact Or.inr (Or.inl rfl)
    · refine Or.inl ?_
      rw [List.nil_append, LineIndex.stop_eq_byteLength htrails.mem hlast]
      exact leftOf_eq_nil ⟨text, [], by rw [List.append_nil], rfl⟩
        fun offset c hge hlt => absurd hge (by omega)

/-- A removed statement with nothing but spaces up to the line end ends on the line. -/
theorem Selects.endsOn_of_spaced {removal : Extent}
    (hremoval : removal ∈ source.bytesOfImports chosen) (hstart : token.stop ≤ removal.start)
    (hstop : removal.stop ≤ line.contentStop)
    (hspaced : Spaced text removal.stop line.contentStop) : EndsOn text removal line := by
  obtain ⟨-, -, -, -, hforward⟩ := h.exists_mark hsurvives htrails
  refine ⟨htrails.mem, ?_, hstop⟩
  by_contra hle
  have hlt := (h.aligned_bytes removal hremoval).start_lt_stop
  have hfeed := LineIndex.charAt?_before_line htrails.mem (by omega)
  by_cases hinside : line.start - 1 < removal.stop
  · obtain ⟨last, c, -, -, hafter, hend⟩ :=
      (h.framed removal hremoval).exists_last_after hfeed hinside
    have hpositive := c.utf8Size_pos
    omega
  · have hspace := hspaced _ _ hfeed (by omega) (by omega)
    simp [isSpaceOrTab] at hspace

/-- With a single statement, what stands beside it is spaces. -/
theorem Selects.spaced_of_single
    (hsingle : AtMostOne (source.bytesOfImports chosen) token.stop line.contentStop)
    {removal : Extent} (hremoval : removal ∈ source.bytesOfImports chosen)
    (hstart : token.stop ≤ removal.start) (hstop : removal.stop ≤ line.contentStop) :
    Spaced text token.stop removal.start ∧ Spaced text removal.stop line.contentStop := by
  have hforward := (h.aligned_bytes removal hremoval).start_lt_stop
  have hspace : ∀ offset c, charAt? offset text = some c → token.stop ≤ offset →
      offset < line.contentStop → removal.contains offset = false → isSpaceOrTab c = true := by
    intro offset c hc hge hlt hnot
    rcases htrails.filled offset c hc hge hlt with hspace | ⟨other, hother, hinside⟩
    · exact hspace
    · obtain ⟨hotherstart, hotherstop⟩ := h.within hsurvives htrails hother hinside hge hlt
      rw [hsingle removal hremoval other hother hstart hstop hotherstart hotherstop] at hnot
      simp [hinside] at hnot
  constructor
  · intro offset c hc hge hlt
    exact hspace offset c hc hge (by omega) (Extent.contains_eq_false_iff.mpr (Or.inl hlt))
  · intro offset c hc hge hlt
    exact hspace offset c hc (by omega) hlt (Extent.contains_eq_false_iff.mpr (Or.inr hge))

section Single

variable (hsingle : AtMostOne (source.bytesOfImports chosen) token.stop line.contentStop)

include hsingle

/-- A single statement ends its line in the text, so all beside it goes. -/
theorem Selects.hits_of_single {offset : Nat} {c : Char} (hc : charAt? offset text = some c)
    (hge : token.stop ≤ offset) (hlt : offset < line.contentStop) :
    Hits (source.cutsFor text chosen) offset := by
  obtain ⟨removal, hremoval, hstart, hstop⟩ := htrails.removed
  have haligned := h.aligned_bytes removal hremoval
  obtain ⟨hbefore, hafter⟩ :=
    h.spaced_of_single hsurvives htrails hsingle hremoval hstart hstop
  by_cases hlow : offset < removal.start
  · have htakes := h.takesLines_of_spaced hsurvives hremoval hstart hbefore
    have hends := h.endsOn_of_spaced hsurvives htrails hremoval hstart hstop hafter
    refine ⟨_, mem_cuts_plan.mpr (Or.inl ⟨removal, hremoval, htakes, rfl⟩), ?_⟩
    exact contains_partialCutOf_of_before haligned hends hc hlow
      (fun between d hd hle => hbefore between d hd (by omega)) hafter
  · by_cases hhigh : offset < removal.stop
    · exact hits_of_removed h.aligned_bytes h.not_mark hremoval
        (Extent.contains_iff.mpr ⟨by omega, hhigh⟩)
    · exact hits_of_after haligned (h.framed removal hremoval) hremoval hc (by omega)
        fun between d hd hle hbetween => hafter between d hd hle (by omega)

theorem Selects.not_onDeletedLine_of_single :
    ¬ OnDeletedLine text source.tokens (source.bytesOfImports chosen) line.start := by
  intro hdeleted
  have hafter := h.stop_lt_of_onDeletedLine hsurvives htrails hdeleted
  obtain ⟨number, mark, hmark, -, hforward⟩ := h.exists_mark hsurvives htrails
  have hcontent := line.contentStop_le_stop
  obtain rfl := (onDeletedLine_iff hmark (Nat.le_refl _) (by omega)).mp hdeleted
  obtain ⟨removal, hremoval, htakes, hcontains⟩ := exists_takesLines_of_deleted hmark
  have haligned := h.aligned_bytes removal hremoval
  obtain ⟨offset, hlow, hhigh, hinside⟩ := exists_offset_of_linesOf haligned.start_lt_stop
    haligned.stop_le (getElem?_marksOf.mp hmark).1 hcontains
  have hbounds := Extent.contains_iff.mp hinside
  have hbefore := h.start_lt_contentStop hremoval htrails.mem (by omega)
  have hstop : offset < line.contentStop := by
    have hnot := Extent.contains_eq_false_iff.mp (htrails.outside removal hremoval)
    omega
  obtain ⟨hstart', hstop'⟩ := h.within hsurvives htrails hremoval hinside (by omega) hstop
  have hspaced := (h.spaced_of_single hsurvives htrails hsingle hremoval hstart' hstop').1
  simp [h.takesLines_of_spaced hsurvives hremoval hstart' hspaced] at htakes

end Single

/-- If a removed statement starts right behind the token, then every space up to the line end
comes after a removed statement. -/
theorem Selects.exists_removal_before
    (hstarts : ∃ removal ∈ source.bytesOfImports chosen, removal.start = token.stop)
    {offset : Nat} {c : Char} (hc : charAt? offset text = some c) (hge : token.stop ≤ offset)
    (hlt : offset < line.contentStop)
    (hnot : ∀ removal ∈ source.bytesOfImports chosen, removal.contains offset = false) :
    ∃ removal ∈ source.bytesOfImports chosen, removal.stop ≤ offset ∧
      Spaced text removal.stop (offset + 1) := by
  induction offset using Nat.strongRecOn generalizing c with
  | ind offset ih =>
    have hafter : token.stop < offset := by
      obtain ⟨removal, hremoval, hstart⟩ := hstarts
      have hforward := (h.aligned_bytes removal hremoval).start_lt_stop
      have hoff := Extent.contains_eq_false_iff.mp (hnot removal hremoval)
      omega
    have hspace : isSpaceOrTab c = true := by
      rcases htrails.filled offset c hc hge hlt with hspace | ⟨removal, hremoval, hinside⟩
      · exact hspace
      · simp [hnot removal hremoval] at hinside
    obtain ⟨earlier, d, hd, hend⟩ := (splitsAt_of_charAt? hc).exists_before (by omega)
    have hpositive := d.utf8Size_pos
    have hearlier : token.stop ≤ earlier := by
      by_contra hbefore
      obtain ⟨e, he⟩ := h.exists_charAt?_stop hsurvives htrails
      have hle := (splitsAt_of_charAt? he).add_utf8Size_le hd (by omega)
      omega
    by_cases hremoved : ∃ removal ∈ source.bytesOfImports chosen, removal.contains earlier = true
    · obtain ⟨removal, hremoval, hinside⟩ := hremoved
      obtain ⟨hlow, hhigh⟩ := Extent.contains_iff.mp hinside
      have hstop : removal.stop = offset := by
        have hle := SplitsAt.add_utf8Size_le (h.aligned_bytes removal hremoval).stops hd hhigh
        have hoff := Extent.contains_eq_false_iff.mp (hnot removal hremoval)
        omega
      refine ⟨removal, hremoval, by omega, ?_⟩
      intro between e he hle hbetween
      obtain rfl : between = offset := by omega
      rw [Option.some.inj (he.symm.trans hc)]
      exact hspace
    · obtain ⟨removal, hremoval, hstop, hspaced⟩ := ih earlier (by omega) hd hearlier (by omega)
        (by simpa using hremoved)
      refine ⟨removal, hremoval, by omega, ?_⟩
      intro between e he hle hbetween
      by_cases hlow : between ≤ earlier
      · exact hspaced between e he hle (by omega)
      · have heq : between = offset := by
          have hinside := (splitsAt_of_charAt? he).add_utf8Size_le hd (by omega)
          omega
        subst heq
        rw [Option.some.inj (he.symm.trans hc)]
        exact hspace

/-- Then all that stands behind the token on the line goes. -/
theorem Selects.hits_of_starts
    (hstarts : ∃ removal ∈ source.bytesOfImports chosen, removal.start = token.stop)
    {offset : Nat} {c : Char} (hc : charAt? offset text = some c) (hge : token.stop ≤ offset)
    (hlt : offset < line.contentStop) : Hits (source.cutsFor text chosen) offset := by
  by_cases hremoved : ∃ removal ∈ source.bytesOfImports chosen, removal.contains offset = true
  · obtain ⟨removal, hremoval, hinside⟩ := hremoved
    exact hits_of_removed h.aligned_bytes h.not_mark hremoval hinside
  · obtain ⟨removal, hremoval, hstop, hspaced⟩ := h.exists_removal_before hsurvives htrails hstarts
      hc hge hlt (by simpa using hremoved)
    exact hits_of_after (h.aligned_bytes removal hremoval) (h.framed removal hremoval) hremoval hc
      hstop hspaced

omit hsurvives in
/-- A statement that another one follows does not end its line. -/
theorem Selects.not_spaced_of_later {removal other : Extent}
    (hremoval : removal ∈ source.bytesOfImports chosen)
    (hother : other ∈ source.bytesOfImports chosen) (hstart : token.stop ≤ removal.start)
    (hlater : removal.stop ≤ other.start) (hstop : other.stop ≤ line.contentStop) {last : Line}
    (hlast : EndsOn text removal last) : ¬ Spaced text removal.stop last.contentStop := by
  intro hspaced
  have hforward := (h.aligned_bytes removal hremoval).start_lt_stop
  have hforward' := (h.aligned_bytes other hother).start_lt_stop
  have hlaststop := hlast.stop_le
  have hvisible : ∀ found ∈ source.bytesOfImports chosen, removal.stop ≤ found.start →
      last.contentStop ≤ found.start := by
    intro found hfound hle
    obtain ⟨c, hc, hshown⟩ := (h.framed found hfound).first
    by_contra hlt
    simp [isSpacing, hspaced _ c hc hle (by omega)] at hshown
  have hbehind := hvisible other hother hlater
  have hend := (h.aligned_bytes other hother).stop_le
  -- So a line end comes before the other statement, as part of a third one.
  obtain ⟨c, hc⟩ := (LineIndex.splitsAt_contentStop hlast.mem).exists_charAt? (by omega)
  have hlineEnd := LineIndex.lineEnd_of_contentStop hlast.mem hc
  rcases htrails.filled _ c hc (by omega) (by omega) with hspace | ⟨found, hfound, hinside⟩
  · rcases hlineEnd with rfl | rfl <;> simp [isSpaceOrTab] at hspace
  · obtain ⟨hlow, hhigh⟩ := Extent.contains_iff.mp hinside
    have hne : removal ≠ found := by
      rintro rfl
      omega
    rcases h.stop_le_or_stop_le hremoval hfound hne with hle | hle
    · have hsame : found.start = last.contentStop :=
        Nat.le_antisymm hlow (hvisible found hfound hle)
      obtain ⟨d, hd, hshown⟩ := (h.framed found hfound).first
      rw [hsame, hc] at hd
      rw [← Option.some.inj hd] at hshown
      rcases hlineEnd with rfl | rfl <;> simp [isSpacing] at hshown
    · omega

section Several

variable (hstarts : ∀ removal ∈ source.bytesOfImports chosen, removal.start ≠ token.stop)

include hstarts

/-- If no removed statement starts right behind the token, a space does. -/
theorem Selects.isSpaceOrTab_of_apart {c : Char} (hc : charAt? token.stop text = some c) :
    isSpaceOrTab c = true := by
  have hlt := h.stop_lt_contentStop htrails
  rcases htrails.filled _ c hc (Nat.le_refl _) hlt with hspace | ⟨removal, hremoval, hinside⟩
  · exact hspace
  · have hstart := (h.within hsurvives htrails hremoval hinside (Nat.le_refl _) hlt).1
    exact absurd (Nat.le_antisymm (Extent.contains_iff.mp hinside).1 hstart)
      (hstarts removal hremoval)

/-- A cut around a statement does not reach it if there are several: the first of them does not end
its line. -/
theorem Selects.not_contains_of_several
    (hseveral : ¬ AtMostOne (source.bytesOfImports chosen) token.stop line.contentStop)
    {removal : Extent} (hremoval : removal ∈ source.bytesOfImports chosen) :
    (partialCutOf text (.ofText text) removal).contains token.stop = false := by
  have haligned := h.aligned_bytes removal hremoval
  have hforward := haligned.start_lt_stop
  obtain ⟨left, right, hcut, hleft, hright⟩ := exists_partialCutOf haligned
  cases hcontains : (partialCutOf text (.ofText text) removal).contains token.stop with
  | false => rfl
  | true =>
    exfalso
    rw [hcut] at hcontains
    obtain ⟨hlow, hhigh⟩ := Extent.contains_iff.mp hcontains
    simp only at hlow hhigh
    by_cases hbefore : token.stop < removal.start
    · have hspaced : Spaced text token.stop removal.start := by
        intro offset c hc hge hlt
        obtain ⟨d, hd, hspace⟩ := hleft offset (by omega) hlt
        rw [Option.some.inj (hc.symm.trans hd)]
        exact hspace
      have hvisible : ∀ found ∈ source.bytesOfImports chosen, token.stop ≤ found.start →
          removal.start ≤ found.start := by
        intro found hfound hge
        obtain ⟨c, hc, hshown⟩ := (h.framed found hfound).first
        by_contra hlt
        simp [isSpacing, hspaced _ c hc hge (by omega)] at hshown
      obtain ⟨other, hother, hne, hstart, hstop⟩ : ∃ other ∈ source.bytesOfImports chosen,
          removal ≠ other ∧ token.stop ≤ other.start ∧ other.stop ≤ line.contentStop := by
        simp only [AtMostOne, not_forall] at hseveral
        obtain ⟨first, hfirst, second, hsecond, hstart, hstop, hstart', hstop', hne⟩ := hseveral
        by_cases heq : removal = first
        · exact ⟨second, hsecond, heq ▸ hne, hstart', hstop'⟩
        · exact ⟨first, hfirst, heq, hstart, hstop⟩
      have hforward' := (h.aligned_bytes other hother).start_lt_stop
      have hlater : removal.stop ≤ other.start := by
        have hle := hvisible other hother hstart
        have hapart := h.stop_le_or_stop_le hremoval hother hne
        omega
      obtain ⟨last, hlast⟩ := (h.framed removal hremoval).exists_endsOn
      have hsame := start_partialCutOf haligned hlast
        (h.not_spaced_of_later htrails hremoval hother (by omega) hlater hstop hlast)
      rw [hcut] at hsame
      simp only at hsame
      omega
    · -- Behind the statement stands a character that holds the line of the token.
      have hafter : removal.stop ≤ token.stop := by
        by_contra hlt
        have hinside : removal.contains token.stop = true :=
          Extent.contains_iff.mpr ⟨by omega, by omega⟩
        have hge := h.apart_of_survives hsurvives hremoval hinside (Token.start_le_stop token)
        exact hstarts removal hremoval (by omega)
      obtain ⟨anchor, hholds, hle, hnext⟩ := h.exists_anchor hsurvives
      obtain ⟨c, hc, hvisible⟩ := hholds.visible
      by_cases hanchor : removal.stop ≤ anchor
      · obtain ⟨d, hd, hspace⟩ := hright anchor hanchor (by omega)
        rw [← Option.some.inj (hc.symm.trans hd)] at hspace
        simp [isSpacing, hspace] at hvisible
      · have hnot := Extent.contains_eq_false_iff.mp (hholds.stays removal hremoval)
        obtain ⟨d, hd⟩ := haligned.starts
        have hge := hnext _ d hd (by omega)
        omega

theorem Selects.not_hits_of_several
    (hseveral : ¬ AtMostOne (source.bytesOfImports chosen) token.stop line.contentStop) :
    ¬ Hits (source.cutsFor text chosen) token.stop := by
  intro hhits
  have hnone := spaced_self text token.stop
  obtain ⟨cut, hcut, hcontains⟩ := hhits
  rcases mem_cuts_plan.mp hcut with
    ⟨removal, hremoval, -, rfl⟩ | ⟨number, other, hdeleted, rfl⟩ | ⟨other, hsurplus, rfl⟩
  · simp [h.not_contains_of_several hsurvives htrails hstarts hseveral hremoval] at hcontains
  · obtain ⟨hlow, hhigh⟩ := lineCut_contains hcontains
    have hsolid := h.solid_of_spaced hsurvives (Nat.le_refl _) hnone hdeleted hlow hhigh
    simp at hsolid
  · obtain ⟨hlow, hhigh⟩ := Extent.contains_iff.mp hcontains
    obtain ⟨number, -, -, hblank, -, -⟩ := exists_deleted_of_mem_surplus hsurplus
    have hsolid := h.solid_of_spaced hsurvives (Nat.le_refl _) hnone hblank hlow hhigh
    simp at hsolid

theorem Selects.not_endsLine_of_several
    (hseveral : ¬ AtMostOne (source.bytesOfImports chosen) token.stop line.contentStop) :
    ¬ EndsLine (leftOf text (source.cutsFor text chosen) token.stop (byteLength text)) := by
  obtain ⟨c, hc⟩ := h.exists_charAt?_stop hsurvives htrails
  have hspace := h.isSpaceOrTab_of_apart hsurvives htrails hstarts hc
  obtain ⟨rest, hrest⟩ := exists_leftOf_cons hc
    (show token.stop < byteLength text from lt_of_charAt? hc)
    (h.not_hits_of_several hsurvives htrails hstarts hseveral)
  rw [hrest]
  intro hends
  rcases hends with hnil | hfeed | ⟨later, hlater⟩
  · simp at hnil
  · rw [Option.some.inj hfeed] at hspace
    simp [isSpaceOrTab] at hspace
  · rw [← (List.cons.inj hlater).1] at hspace
    simp [isSpaceOrTab] at hspace

end Several

end Trailing

/-- Removing imports leaves a token that survives and what is left behind it. If removed imports
and spaces are all that stands between the token and the line end, then what is left of the line
ends with the token exactly if there is only one such import, or the first one starts right behind
the token and a line end comes next although the line may go. The line goes only if the token
stands on an earlier one. -/
theorem endsLine_remove_iff {text : List Char} {source : Source} (h : read text = .ok source)
    {chosen : List ImportStatement}
    (hchosen : ∀ statement ∈ chosen, statement ∈ source.outline.imports)
    {position : Nat} {token : Token} {line : Line}
    (hsurvives : Survives source.tokens (source.bytesOfImports chosen) position token)
    (htrails : Trails text (source.bytesOfImports chosen) token.stop line) :
    remove text source.tokens (source.bytesOfImports chosen) =
        leftOf text (source.cutsFor text chosen) 0 token.start ++ (token.text.toList ++
          leftOf text (source.cutsFor text chosen) token.stop (byteLength text)) ∧
      (EndsLine (leftOf text (source.cutsFor text chosen) token.stop (byteLength text)) ↔
        AtMostOne (source.bytesOfImports chosen) token.stop line.contentStop ∨
          (∃ removal ∈ source.bytesOfImports chosen, removal.start = token.stop) ∧
            (OnDeletedLine text source.tokens (source.bytesOfImports chosen) line.start →
              EndsLine (leftOf text (source.cutsFor text chosen) line.stop (byteLength text)))) ∧
      (OnDeletedLine text source.tokens (source.bytesOfImports chosen) line.start →
        token.stop < line.start) := by
  obtain ⟨-, -, hlex, houtline⟩ := of_read h
  have hselects : source.Selects text chosen := ⟨hlex, houtline, hchosen⟩
  have hstands := Token.stands_token hlex (List.mem_of_getElem? hsurvives.token_eq)
  refine ⟨?_, ?_, ?_⟩
  · rw [hselects.remove_eq_leftOf, hselects.leftOf_around hsurvives (splitsAt_zero text)
      (Nat.zero_le _) hstands.le_byteLength]
  · by_cases hsingle : AtMostOne (source.bytesOfImports chosen) token.stop line.contentStop
    · refine iff_of_true ?_ (Or.inl hsingle)
      rw [hselects.endsLine_iff_of_hits hsurvives htrails fun offset c hge hlt hc =>
        hselects.hits_of_single hsurvives htrails hsingle hc hge hlt]
      intro hdeleted
      exact absurd hdeleted (hselects.not_onDeletedLine_of_single hsurvives htrails hsingle)
    · by_cases hstarts : ∃ removal ∈ source.bytesOfImports chosen, removal.start = token.stop
      · rw [hselects.endsLine_iff_of_hits hsurvives htrails fun offset c hge hlt hc =>
          hselects.hits_of_starts hsurvives htrails hstarts hc hge hlt]
        simp [hsingle, hstarts]
      · have hleft := hselects.not_endsLine_of_several hsurvives htrails
          (by simpa using hstarts) hsingle
        simp [hsingle, hstarts, hleft]
  · exact hselects.stop_lt_of_onDeletedLine hsurvives htrails

/-- The spaces on both sides of the import go with it. -/
theorem endsLine_remove_iff_single :
    ∃ text source token line, text = "x; import a.B \r\ny\n".toList ∧ read text = .ok source ∧
      token = ⟨.operator, ";", 1, 0⟩ ∧ line = ⟨0, "x; import a.B \r\n".toList⟩ ∧
      Survives source.tokens (source.bytesOfImports source.outline.imports) 1 token ∧
      Trails text (source.bytesOfImports source.outline.imports) token.stop line ∧
      (EndsLine (leftOf text (source.cutsFor text source.outline.imports) token.stop
          (byteLength text)) ↔
        AtMostOne (source.bytesOfImports source.outline.imports) token.stop line.contentStop ∨
          (∃ removal ∈ source.bytesOfImports source.outline.imports, removal.start = token.stop) ∧
            (OnDeletedLine text source.tokens (source.bytesOfImports source.outline.imports)
                line.start →
              EndsLine (leftOf text (source.cutsFor text source.outline.imports) line.stop
                (byteLength text)))) := by
  have hrun : ((read "x; import a.B \r\ny\n".toList).toOption.any fun source =>
      Survives source.tokens (source.bytesOfImports source.outline.imports) 1
          ⟨.operator, ";", 1, 0⟩ ∧
        Trails "x; import a.B \r\ny\n".toList
          (source.bytesOfImports source.outline.imports) (Token.stop ⟨.operator, ";", 1, 0⟩)
          ⟨0, "x; import a.B \r\n".toList⟩) = true := by decide +kernel
  generalize "x; import a.B \r\ny\n".toList = text at hrun ⊢
  generalize (⟨0, "x; import a.B \r\n".toList⟩ : Line) = line at hrun ⊢
  generalize (⟨.operator, ";", 1, 0⟩ : Token) = token at hrun ⊢
  cases hread : read text with
  | error failure => simp [hread, Except.toOption] at hrun
  | ok source =>
    simp only [hread, Except.toOption, Option.any_some, decide_eq_true_eq] at hrun
    refine ⟨text, source, _, _, rfl, hread, rfl, rfl, hrun.1, hrun.2, ?_⟩
    exact (endsLine_remove_iff hread (fun _ hmem => hmem) hrun.1 hrun.2).2.1

/-- Of two imports at the end of a line only the second one ends it, so the space before the first
one stays. -/
theorem exists_trailing_remove :
    ∃ text source token line, text = "x; import a.B; import c.D\ny\n".toList ∧
      read text = .ok source ∧
      token = ⟨.operator, ";", 1, 0⟩ ∧ line = ⟨0, "x; import a.B; import c.D\n".toList⟩ ∧
      Survives source.tokens (source.bytesOfImports source.outline.imports) 1 token ∧
      Trails text (source.bytesOfImports source.outline.imports) token.stop line ∧
      remove text source.tokens (source.bytesOfImports source.outline.imports) =
        "x; \ny\n".toList ∧
      ¬ EndsLine (leftOf text (source.cutsFor text source.outline.imports) token.stop
        (byteLength text)) := by
  have hrun : ((read "x; import a.B; import c.D\ny\n".toList).toOption.any fun source =>
      Survives source.tokens (source.bytesOfImports source.outline.imports) 1
          ⟨.operator, ";", 1, 0⟩ ∧
        Trails "x; import a.B; import c.D\ny\n".toList
          (source.bytesOfImports source.outline.imports) (Token.stop ⟨.operator, ";", 1, 0⟩)
          ⟨0, "x; import a.B; import c.D\n".toList⟩ ∧
        leftOf "x; import a.B; import c.D\ny\n".toList
          (source.cutsFor "x; import a.B; import c.D\ny\n".toList source.outline.imports) 0
          (byteLength "x; import a.B; import c.D\ny\n".toList) = "x; \ny\n".toList ∧
        ¬ EndsLine (leftOf "x; import a.B; import c.D\ny\n".toList
          (source.cutsFor "x; import a.B; import c.D\ny\n".toList source.outline.imports)
          (Token.stop ⟨.operator, ";", 1, 0⟩)
          (byteLength "x; import a.B; import c.D\ny\n".toList))) = true := by decide +kernel
  generalize "x; import a.B; import c.D\ny\n".toList = text at hrun ⊢
  generalize (⟨0, "x; import a.B; import c.D\n".toList⟩ : Line) = line at hrun ⊢
  generalize (⟨.operator, ";", 1, 0⟩ : Token) = token at hrun ⊢
  cases hread : read text with
  | error failure => simp [hread, Except.toOption] at hrun
  | ok source =>
    simp only [hread, Except.toOption, Option.any_some, decide_eq_true_eq] at hrun
    obtain ⟨hsurvives, htrails, hleft, hends⟩ := hrun
    obtain ⟨-, -, hlex, houtline⟩ := of_read hread
    have hselects : source.Selects text source.outline.imports :=
      ⟨hlex, houtline, fun _ hmem => hmem⟩
    exact ⟨text, source, _, _, rfl, hread, rfl, rfl, hsurvives, htrails,
      hselects.remove_eq_leftOf.trans hleft, hends⟩

end Source

end UnusedImports
