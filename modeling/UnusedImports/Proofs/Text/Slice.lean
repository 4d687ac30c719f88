import UnusedImports.Proofs.Text.Counting

/-!
Stretches of whole characters. A stretch of bytes can be taken out of a text if it lies in the text
and splits no character at either end. Such stretches have a place in the index of the text, and
finding it splits no character either.
-/
namespace UnusedImports

namespace Text

/-- A stretch of bytes lies in a text, and no character goes across one of its ends. -/
structure Whole (text : List Char) (extent : Extent) : Prop where
  start_le_stop : extent.start ≤ extent.stop
  stop_le : extent.stop ≤ byteLength text
  starts : SplitsAt text extent.start
  stops : SplitsAt text extent.stop

def slice? (text : List Char) (extent : Extent) : Option (List Char) :=
  if extent.start ≤ extent.stop ∧ isBoundary extent.start text = true ∧
      isBoundary extent.stop text = true then
    some (takeBytes (extent.stop - extent.start) (dropBytes extent.start text))
  else none

section Slices

variable {text part : List Char} {offset start stop : Nat}

theorem isBoundary_iff : isBoundary offset text = true ↔ SplitsAt text offset := by
  induction text generalizing offset with
  | nil =>
    rw [isBoundary, beq_iff_eq]
    constructor
    · rintro rfl
      exact splitsAt_zero []
    · rintro ⟨before, after, htext, rfl⟩
      rw [(List.append_eq_nil_iff.mp htext.symm).1]
      rfl
  | cons c rest ih =>
    rw [isBoundary, Bool.or_eq_true, Bool.and_eq_true, beq_iff_eq, decide_eq_true_iff, ih]
    constructor
    · rintro (rfl | ⟨hle, before, after, rfl, hbefore⟩)
      · exact splitsAt_zero _
      · exact ⟨c :: before, after, rfl, by simp only [byteLength]; omega⟩
    · rintro ⟨before, after, htext, rfl⟩
      cases before with
      | nil => exact Or.inl rfl
      | cons d before =>
        obtain ⟨rfl, rfl⟩ := List.cons.inj htext
        refine Or.inr ⟨Nat.le_add_right _ _, before, after, rfl, ?_⟩
        simp only [byteLength]
        omega

theorem SplitsAt.le (h : SplitsAt text offset) : offset ≤ byteLength text := by
  obtain ⟨before, after, rfl, rfl⟩ := h
  rw [byteLength_append]
  exact Nat.le_add_right _ _

theorem SplitsAt.whole (hstart : SplitsAt text start) (hstop : SplitsAt text stop)
    (hle : start ≤ stop) : Whole text ⟨start, stop⟩ :=
  ⟨hle, hstop.le, hstart, hstop⟩

theorem Stands.whole (h : Stands text part start) :
    Whole text ⟨start, start + byteLength part⟩ :=
  h.splitsAt_start.whole h.splitsAt_stop (Nat.le_add_right _ _)

/-- What follows some characters splits at the later offsets where the whole text does. -/
theorem SplitsAt.exists_append {read rest : List Char} (h : SplitsAt (read ++ rest) offset)
    (hle : byteLength read ≤ offset) :
    ∃ between after, rest = between ++ after ∧ byteLength read + byteLength between = offset := by
  obtain ⟨longer, after, htext, hlonger⟩ := h
  rcases List.append_eq_append_iff.mp htext with ⟨between, rfl, rfl⟩ | ⟨between, rfl, rfl⟩
  · rw [byteLength_append] at hlonger
    exact ⟨between, after, rfl, hlonger⟩
  · -- Nothing is left of the characters behind the offset.
    rw [byteLength_append] at hle ⊢
    have hnil : between = [] := by
      cases between with
      | nil => rfl
      | cons c more =>
        have hpositive := byteLength_pos (List.cons_ne_nil c more)
        omega
    subst hnil
    exact ⟨[], rest, rfl, by simp only [byteLength]; omega⟩

theorem Stands.slice?_eq (h : Stands text part start) :
    slice? text ⟨start, start + byteLength part⟩ = some part := by
  have hwhole := h.whole
  rw [slice?, if_pos ⟨hwhole.start_le_stop, isBoundary_iff.mpr hwhole.starts,
    isBoundary_iff.mpr hwhole.stops⟩]
  obtain ⟨before, after, rfl, rfl⟩ := h
  rw [Nat.add_sub_cancel_left, dropBytes_byteLength, takeBytes_byteLength]

end Slices

end Text

namespace LineIndex

open Text

/-- The bytes of a span are whole characters, and its line and column are found from them without a
line that is not there or a character that is split. -/
structure Located (text : List Char) (span : Span) : Prop where
  whole : Whole text span.extent
  line : ∃ line, (ofText text).lines[(ofText text).lineOf span.start]? = some line ∧
    Whole text ⟨line.start, span.start⟩
  span_eq : (ofText text).span? span.extent = some span

/-- Whole characters have a place. -/
theorem located_span {text : List Char} {extent : Extent} (h : Whole text extent) :
    Located text ((ofText text).span extent) := by
  obtain ⟨start, stop⟩ := extent
  obtain ⟨before, after, rfl, rfl⟩ := h.starts
  obtain ⟨lines, tail, more, rfl, -, hlineOf, hline⟩ := exists_lineOf before after
  have hstands : Stands (lines ++ tail ++ after) tail (byteLength lines) :=
    ⟨lines, after, List.append_assoc _ _ _, rfl⟩
  have hat : (ofText (lines ++ tail ++ after)).lineAt (byteLength (lines ++ tail)) =
      ⟨byteLength lines, tail ++ more⟩ := by
    rw [lineAt, hlineOf, hline]
    rfl
  refine ⟨h, ⟨_, hlineOf ▸ hline, ?_⟩, ?_⟩
  · have hwhole := hstands.whole
    rw [← byteLength_append] at hwhole
    exact hwhole
  · have hboundary : isBoundary (byteLength tail) (tail ++ more) = true :=
      isBoundary_iff.mpr ⟨tail, more, rfl, rfl⟩
    unfold span?
    rw [show ((ofText (lines ++ tail ++ after)).span ⟨byteLength (lines ++ tail), stop⟩).extent =
      ⟨byteLength (lines ++ tail), stop⟩ from rfl]
    simp only [hat]
    rw [byteLength_append, Nat.add_sub_cancel_left, if_pos hboundary]

end LineIndex

end UnusedImports
