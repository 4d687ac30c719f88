import UnusedImports.Excision.Erasure
import UnusedImports.Proofs.Tiling

/-!
Characters by the offset at which they start. A part of a text that stands at some offset has
the characters of the text there, and parts that cover a text one after the other tile its
bytes. Tokens and lines both do, so all that is said about either of them by offset rests on
what is shown here. A text can be split at the offsets that no character goes across.
-/
namespace UnusedImports.Text

def isSpacing (c : Char) : Bool := isSpaceOrTab c || c == '\r' || c == '\n'

def charAt? (offset : Nat) : List Char → Option Char
  | [] => none
  | c :: rest =>
    if offset = 0 then some c
    else if offset < c.utf8Size then none
    else charAt? (offset - c.utf8Size) rest

theorem charAt?_append_left {offset : Nat} {first : List Char}
    (h : offset < byteLength first) (second : List Char) :
    charAt? offset (first ++ second) = charAt? offset first := by
  induction first generalizing offset with
  | nil => simp [byteLength] at h
  | cons c rest ih =>
    simp only [byteLength] at h
    rw [List.cons_append, charAt?, charAt?]
    by_cases hzero : offset = 0
    · simp [hzero]
    · by_cases hinside : offset < c.utf8Size
      · simp [hzero, hinside]
      · rw [if_neg hzero, if_neg hzero, if_neg hinside, if_neg hinside, ih (by omega)]

theorem charAt?_append_right (first second : List Char) (offset : Nat) :
    charAt? (byteLength first + offset) (first ++ second) = charAt? offset second := by
  induction first with
  | nil => simp [byteLength]
  | cons c rest ih =>
    have hpositive := c.utf8Size_pos
    rw [List.cons_append, byteLength, charAt?, if_neg (by omega), if_neg (by omega)]
    rw [show c.utf8Size + byteLength rest + offset - c.utf8Size = byteLength rest + offset by omega]
    exact ih

/-- Where a character starts, the text splits into what is before it and what is after it. -/
theorem exists_of_charAt? {offset : Nat} {text : List Char} {c : Char}
    (h : charAt? offset text = some c) :
    ∃ before after, text = before ++ c :: after ∧ byteLength before = offset := by
  induction text generalizing offset with
  | nil => simp [charAt?] at h
  | cons first rest ih =>
    rw [charAt?] at h
    split at h
    · rename_i hzero
      obtain rfl := Option.some.inj h
      exact ⟨[], rest, rfl, hzero.symm⟩
    · split at h
      · simp at h
      · obtain ⟨before, after, rfl, hbefore⟩ := ih h
        refine ⟨first :: before, after, rfl, ?_⟩
        simp only [byteLength]
        omega

theorem mem_of_charAt? {offset : Nat} {text : List Char} {c : Char}
    (h : charAt? offset text = some c) : c ∈ text := by
  obtain ⟨before, after, rfl, -⟩ := exists_of_charAt? h
  simp

theorem add_utf8Size_le {offset : Nat} {text : List Char} {c : Char}
    (h : charAt? offset text = some c) : offset + c.utf8Size ≤ byteLength text := by
  obtain ⟨before, after, rfl, rfl⟩ := exists_of_charAt? h
  rw [byteLength_append]
  simp only [byteLength]
  omega

theorem lt_of_charAt? {offset : Nat} {text : List Char} {c : Char}
    (h : charAt? offset text = some c) : offset < byteLength text := by
  have hpositive := c.utf8Size_pos
  have hle := add_utf8Size_le h
  omega

/-- Two characters that start in the same bytes are the same. -/
theorem eq_of_charAt? {text : List Char} {first second : Nat} {c d : Char}
    (hc : charAt? first text = some c) (hd : charAt? second text = some d)
    (hle : first ≤ second) (hlt : second < first + c.utf8Size) : first = second := by
  obtain ⟨before, after, rfl, rfl⟩ := exists_of_charAt? hc
  obtain ⟨further, rfl⟩ := Nat.exists_eq_add_of_le hle
  rw [charAt?_append_right, charAt?] at hd
  by_cases hzero : further = 0
  · omega
  · rw [if_neg hzero, if_pos (by omega)] at hd
    simp at hd

theorem byteLength_pos {text : List Char} (h : text ≠ []) : 0 < byteLength text := by
  obtain ⟨c, rest, rfl⟩ := List.exists_cons_of_ne_nil h
  have hpositive := c.utf8Size_pos
  simp only [byteLength]
  omega

@[simp]
theorem takeBytes_byteLength (first second : List Char) :
    takeBytes (byteLength first) (first ++ second) = first := by
  induction first with
  | nil => simp [byteLength]
  | cons c rest ih =>
    have hpositive := c.utf8Size_pos
    rw [List.cons_append, byteLength, takeBytes, if_neg (by omega), Nat.add_sub_cancel_left, ih]

@[simp]
theorem dropBytes_byteLength (first second : List Char) :
    dropBytes (byteLength first) (first ++ second) = second := by
  induction first with
  | nil => cases second <;> simp [byteLength, dropBytes]
  | cons c rest ih =>
    have hpositive := c.utf8Size_pos
    rw [List.cons_append, byteLength, dropBytes, if_neg (by omega), Nat.add_sub_cancel_left, ih]

def Stands (text part : List Char) (start : Nat) : Prop :=
  ∃ before after, text = before ++ (part ++ after) ∧ byteLength before = start

section Standing

variable {text part : List Char} {start : Nat}

theorem Stands.charAt? (h : Stands text part start) {offset : Nat}
    (hoffset : offset < byteLength part) :
    Text.charAt? (start + offset) text = Text.charAt? offset part := by
  obtain ⟨before, after, rfl, rfl⟩ := h
  rw [charAt?_append_right, charAt?_append_left hoffset]

theorem Stands.charAt?_sub (h : Stands text part start) {offset : Nat} (hstart : start ≤ offset)
    (hstop : offset < start + byteLength part) :
    Text.charAt? offset text = Text.charAt? (offset - start) part := by
  obtain ⟨further, rfl⟩ := Nat.exists_eq_add_of_le hstart
  rw [Nat.add_sub_cancel_left]
  exact h.charAt? (by omega)

/-- A character of the text between the ends of a part belongs to the part. -/
theorem Stands.mem (h : Stands text part start) {offset : Nat} {c : Char}
    (hc : Text.charAt? offset text = some c) (hstart : start ≤ offset)
    (hstop : offset < start + byteLength part) : c ∈ part := by
  rw [h.charAt?_sub hstart hstop] at hc
  exact mem_of_charAt? hc

theorem Stands.trans {inner : List Char} {offset : Nat} (h : Stands text part start)
    (hinner : Stands part inner offset) : Stands text inner (start + offset) := by
  obtain ⟨before, after, rfl, rfl⟩ := h
  obtain ⟨before', after', rfl, rfl⟩ := hinner
  exact ⟨before ++ before', after' ++ after, by simp, byteLength_append _ _⟩

theorem Stands.le_byteLength (h : Stands text part start) :
    start + byteLength part ≤ byteLength text := by
  obtain ⟨before, after, rfl, rfl⟩ := h
  rw [byteLength_append, byteLength_append]
  omega

theorem Stands.head {c : Char} (h : Stands text part start) (hc : part.head? = some c) :
    Text.charAt? start text = some c := by
  obtain ⟨rest, rfl⟩ := List.head?_eq_some_iff.mp hc
  have hpositive := c.utf8Size_pos
  have hfirst := h.charAt? (show 0 < byteLength (c :: rest) by simp only [byteLength]; omega)
  rw [Nat.add_zero] at hfirst
  rw [hfirst, Text.charAt?, if_pos rfl]

/-- Where a part of a text stands, the text has a character, unless it ends there. -/
theorem Stands.exists_charAt? (h : Stands text part start) (hlt : start < byteLength text) :
    ∃ c, Text.charAt? start text = some c := by
  obtain ⟨before, after, rfl, rfl⟩ := h
  cases hrest : part ++ after with
  | nil =>
    rw [hrest, List.append_nil] at hlt
    omega
  | cons c rest =>
    refine ⟨c, ?_⟩
    simpa [Text.charAt?] using charAt?_append_right before (c :: rest) 0

theorem Stands.getLast {c : Char} (h : Stands text part start) (hc : part.getLast? = some c) :
    ∃ offset, start ≤ offset ∧ offset + c.utf8Size = start + byteLength part ∧
      Text.charAt? offset text = some c := by
  obtain ⟨before, rfl⟩ := List.getLast?_eq_some_iff.mp hc
  refine ⟨start + byteLength before, Nat.le_add_right _ _, ?_, ?_⟩
  · rw [byteLength_append]
    simp [byteLength, Nat.add_assoc]
  · have hpositive := c.utf8Size_pos
    have hlast := h.charAt? (show byteLength before < byteLength (before ++ [c]) by
      rw [byteLength_append]; simp only [byteLength]; omega)
    rw [hlast]
    simpa [Text.charAt?] using charAt?_append_right before [c] 0

theorem Stands.takeBytes_dropBytes (h : Stands text part start) :
    takeBytes (byteLength part) (dropBytes start text) = part := by
  obtain ⟨before, after, rfl, rfl⟩ := h
  rw [dropBytes_byteLength, takeBytes_byteLength]

end Standing

/-- No character goes across an offset. -/
def SplitsAt (text : List Char) (offset : Nat) : Prop :=
  ∃ before after, text = before ++ after ∧ byteLength before = offset

section Splitting

variable {text : List Char} {offset start stop : Nat}

theorem splitsAt_zero (text : List Char) : SplitsAt text 0 := ⟨[], text, rfl, rfl⟩

theorem splitsAt_of_charAt? {c : Char} (h : charAt? offset text = some c) :
    SplitsAt text offset := by
  obtain ⟨before, after, rfl, hbefore⟩ := exists_of_charAt? h
  exact ⟨before, c :: after, rfl, hbefore⟩

theorem Stands.splitsAt_start {part : List Char} (h : Stands text part start) :
    SplitsAt text start := by
  obtain ⟨before, after, rfl, hbefore⟩ := h
  exact ⟨before, part ++ after, rfl, hbefore⟩

theorem Stands.splitsAt_stop {part : List Char} (h : Stands text part start) :
    SplitsAt text (start + byteLength part) := by
  obtain ⟨before, after, rfl, rfl⟩ := h
  exact ⟨before ++ part, after, by rw [List.append_assoc], byteLength_append _ _⟩

theorem SplitsAt.exists_charAt? (h : SplitsAt text offset) (hlt : offset < byteLength text) :
    ∃ c, charAt? offset text = some c := by
  obtain ⟨before, after, htext, hbefore⟩ := h
  have hstands : Stands text [] offset := ⟨before, after, htext, hbefore⟩
  exact hstands.exists_charAt? hlt

/-- Before such an offset stands a character that ends there. -/
theorem SplitsAt.exists_before (h : SplitsAt text offset) (hpositive : 0 < offset) :
    ∃ earlier c, charAt? earlier text = some c ∧ earlier + c.utf8Size = offset := by
  obtain ⟨before, after, rfl, rfl⟩ := h
  have hne : before ≠ [] := by
    rintro rfl
    exact absurd hpositive (Nat.lt_irrefl 0)
  have hstands : Stands (before ++ after) before 0 := ⟨[], after, rfl, rfl⟩
  obtain ⟨earlier, -, hend, hc⟩ := hstands.getLast (List.getLast?_eq_some_getLast hne)
  exact ⟨earlier, _, hc, by omega⟩

theorem SplitsAt.add_utf8Size_le (h : SplitsAt text offset) {earlier : Nat} {c : Char}
    (hc : charAt? earlier text = some c) (hlt : earlier < offset) :
    earlier + c.utf8Size ≤ offset := by
  by_cases hend : offset < byteLength text
  · obtain ⟨d, hd⟩ := h.exists_charAt? hend
    by_cases hinside : offset < earlier + c.utf8Size
    · have heq := eq_of_charAt? hc hd (Nat.le_of_lt hlt) hinside
      omega
    · exact Nat.le_of_not_lt hinside
  · have hle := Text.add_utf8Size_le hc
    omega

theorem charAt?_takeBytes {count : Nat} {c : Char} :
    charAt? offset (takeBytes count text) = some c ↔
      charAt? offset text = some c ∧ offset < count := by
  induction text generalizing count offset with
  | nil => simp [takeBytes, charAt?]
  | cons first rest ih =>
    rw [takeBytes]
    by_cases hnone : count = 0
    · simp [hnone, charAt?]
    · rw [if_neg hnone, charAt?, charAt?]
      by_cases hzero : offset = 0
      · simp [hzero, Nat.pos_of_ne_zero hnone]
      · by_cases hinside : offset < first.utf8Size
        · simp [hzero, hinside]
        · rw [if_neg hzero, if_neg hinside, if_neg hzero, if_neg hinside, ih]
          exact and_congr_right fun _ => by omega

theorem takeBytes_append (first second : List Char) (count : Nat) :
    takeBytes (byteLength first + count) (first ++ second) = first ++ takeBytes count second := by
  induction first with
  | nil => simp [byteLength]
  | cons c rest ih =>
    have hpositive := c.utf8Size_pos
    rw [List.cons_append, byteLength, takeBytes, if_neg (by omega), List.cons_append, ← ih]
    congr 2
    omega

end Splitting

/-- Parts, each given with its offset, follow one another and make up a text that itself starts
at `start`. -/
def Covers : Nat → List Char → List (Nat × List Char) → Prop
  | _, text, [] => text = []
  | start, text, part :: parts =>
    part.1 = start ∧ ∃ later, text = part.2 ++ later ∧
      Covers (start + byteLength part.2) later parts

def extentOf (part : Nat × List Char) : Extent := ⟨part.1, part.1 + byteLength part.2⟩

section Covering

variable {start : Nat} {text : List Char} {parts : List (Nat × List Char)}

theorem Covers.tiles (h : Covers start text parts) :
    Extent.Tiles start (start + byteLength text) (parts.map extentOf) := by
  induction parts generalizing start text with
  | nil =>
    have hnil : text = [] := h
    subst hnil
    rfl
  | cons part parts ih =>
    obtain ⟨hstart, later, rfl, hlater⟩ := h
    refine ⟨hstart, Nat.le_add_right _ _, ?_⟩
    have htiles := ih hlater
    rw [byteLength_append, ← Nat.add_assoc, ← hstart]
    rw [← hstart] at htiles
    exact htiles

theorem Covers.stands_of_le (h : Covers start text parts) :
    ∀ part ∈ parts, ∃ offset, part.1 = start + offset ∧ Stands text part.2 offset := by
  induction parts generalizing start text with
  | nil => simp
  | cons first parts ih =>
    obtain ⟨hstart, later, rfl, hlater⟩ := h
    intro part hmem
    rcases List.mem_cons.mp hmem with rfl | hmem
    · exact ⟨0, hstart, [], later, rfl, rfl⟩
    · obtain ⟨offset, hoffset, before, after, rfl, hbefore⟩ := ih hlater part hmem
      refine ⟨byteLength first.2 + offset, by omega, first.2 ++ before, after, by simp, ?_⟩
      rw [byteLength_append, hbefore]

theorem Covers.flatMap_eq (h : Covers start text parts) : parts.flatMap Prod.snd = text := by
  induction parts generalizing start text with
  | nil => exact (show text = [] from h).symm
  | cons part parts ih =>
    obtain ⟨-, later, rfl, hlater⟩ := h
    rw [List.flatMap_cons, ih hlater]

/-- Every part stands at its offset. -/
theorem Covers.stands (h : Covers 0 text parts) {part : Nat × List Char} (hmem : part ∈ parts) :
    Stands text part.2 part.1 := by
  obtain ⟨offset, hoffset, hstands⟩ := h.stands_of_le part hmem
  rw [hoffset, Nat.zero_add]
  exact hstands

end Covering

end UnusedImports.Text
