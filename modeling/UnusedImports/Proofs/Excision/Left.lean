import UnusedImports.Proofs.Excision.BlankLines
import UnusedImports.Proofs.Excision.Density

/-!
What is left between two offsets. Where a text can be split, what is left of it splits as well, so
the removal of statements is told stretch by stretch. A token that survives is left as it is, and
a character at its end holds its line, so the lines on which tokens survive stay apart from those
that go.
-/
namespace UnusedImports

open UnusedImports.Text

namespace Text

section Stretches

variable {text : List Char} {offset start stop : Nat}

theorem charAt?_textOf (h : SplitsAt text start) {c : Char} :
    charAt? offset (textOf text ⟨start, stop⟩) = some c ↔
      charAt? (start + offset) text = some c ∧ start + offset < stop := by
  obtain ⟨before, after, rfl, rfl⟩ := h
  unfold textOf
  rw [dropBytes_byteLength, charAt?_takeBytes, charAt?_append_right]
  exact and_congr_right fun _ => by simp only; omega

theorem textOf_append {middle : Nat} (hstart : SplitsAt text start) (hmiddle : SplitsAt text middle)
    (hle : start ≤ middle) (hle' : middle ≤ stop) :
    textOf text ⟨start, stop⟩ = textOf text ⟨start, middle⟩ ++ textOf text ⟨middle, stop⟩ ∧
      start + byteLength (textOf text ⟨start, middle⟩) = middle := by
  obtain ⟨before, after, rfl, rfl⟩ := hstart
  obtain ⟨before', later, htext, rfl⟩ := hmiddle
  obtain ⟨between, rfl, rfl⟩ := exists_between htext hle
  rw [byteLength_append] at hle'
  have hbetween : textOf (before ++ (between ++ later))
      ⟨byteLength before, byteLength (before ++ between)⟩ = between := by
    unfold textOf
    rw [dropBytes_byteLength, byteLength_append, Nat.add_sub_cancel_left, takeBytes_byteLength]
  rw [hbetween]
  refine ⟨?_, (byteLength_append _ _).symm⟩
  unfold textOf
  simp only
  rw [dropBytes_byteLength, ← List.append_assoc before, dropBytes_byteLength, byteLength_append,
    ← takeBytes_append]
  congr 1
  omega

end Stretches

end Text

namespace Excision

def leftOf (text : List Char) (cuts : List Extent) (start stop : Nat) : List Char :=
  erase cuts start (textOf text ⟨start, stop⟩)

section Leaving

variable {text : List Char} {cuts : List Extent} {start middle stop : Nat}

/-- Between two offsets those characters are left that no cut hits. -/
theorem mem_leftOf (hstart : SplitsAt text start) {c : Char} :
    c ∈ leftOf text cuts start stop ↔ ∃ offset, start ≤ offset ∧ offset < stop ∧
      charAt? offset text = some c ∧ ¬ Hits cuts offset := by
  unfold leftOf
  rw [mem_erase]
  simp only [charAt?_textOf hstart]
  constructor
  · intro h
    obtain ⟨offset, ⟨hc, hlt⟩, hleft⟩ := h
    exact ⟨_, Nat.le_add_right _ _, hlt, hc, hleft⟩
  · intro h
    obtain ⟨offset, hle, hlt, hc, hleft⟩ := h
    obtain ⟨further, rfl⟩ := Nat.exists_eq_add_of_le hle
    exact ⟨further, ⟨hc, hlt⟩, hleft⟩

theorem leftOf_append (hstart : SplitsAt text start) (hmiddle : SplitsAt text middle)
    (hle : start ≤ middle) (hle' : middle ≤ stop) :
    leftOf text cuts start stop =
      leftOf text cuts start middle ++ leftOf text cuts middle stop := by
  obtain ⟨hsplit, hlength⟩ := textOf_append hstart hmiddle hle hle'
  unfold leftOf
  rw [hsplit, erase_append, hlength]

/-- A character that no cut hits comes first in what is left from there on. -/
theorem exists_leftOf_cons {c : Char} (hc : charAt? start text = some c) (hlt : start < stop)
    (hleft : ¬ Hits cuts start) : ∃ rest, leftOf text cuts start stop = c :: rest := by
  obtain ⟨before, after, rfl, rfl⟩ := exists_of_charAt? hc
  unfold leftOf textOf
  rw [dropBytes_byteLength, takeBytes, if_neg (by simp only; omega), erase,
    if_neg (mt List.any_eq_true.mp hleft)]
  exact ⟨_, rfl⟩

theorem leftOf_zero (text : List Char) (cuts : List Extent) :
    leftOf text cuts 0 (byteLength text) = erase cuts 0 text := by
  have htake := takeBytes_byteLength text []
  have hdrop := dropBytes_byteLength [] text
  rw [List.append_nil] at htake
  rw [List.nil_append] at hdrop
  unfold leftOf textOf
  simp only [Nat.sub_zero]
  rw [show (0 : Nat) = byteLength [] from rfl, hdrop, htake]

theorem leftOf_eq_nil (hstart : SplitsAt text start)
    (h : ∀ offset c, start ≤ offset → offset < stop → charAt? offset text = some c →
      Hits cuts offset) : leftOf text cuts start stop = [] := by
  apply erase_of_hits
  intro offset c hc
  obtain ⟨hat, hlt⟩ := (charAt?_textOf hstart).mp hc
  exact h _ c (Nat.le_add_right _ _) hlt hat

/-- A part that no cut hits is left as it is. -/
theorem leftOf_of_stands {part : List Char} (hstands : Stands text part start)
    (hstop : start + byteLength part = stop)
    (h : ∀ offset c, start ≤ offset → offset < stop → charAt? offset text = some c →
      ¬ Hits cuts offset) : leftOf text cuts start stop = part := by
  have hpart : textOf text ⟨start, stop⟩ = part := by
    unfold textOf
    simp only
    rw [← hstop, Nat.add_sub_cancel_left, hstands.takeBytes_dropBytes]
  unfold leftOf
  rw [hpart]
  apply erase_of_not_hits
  intro offset c hc
  have hlt := lt_of_charAt? hc
  exact h _ c (Nat.le_add_right _ _) (by omega) ((hstands.charAt? hlt).trans hc)

end Leaving

theorem ne_feed_of_visible {text : List Char} {offset : Nat} {c : Char}
    (hc : charAt? offset text = some c) (hvisible : isSpacing c = false) :
    charAt? offset text ≠ some '\n' := by
  intro hfeed
  rw [← Option.some.inj (hfeed.symm.trans hc)] at hvisible
  simp [isSpacing] at hvisible

/-- Behind a line feed in it, a removed statement goes on up to something visible. -/
theorem Framed.exists_last_after {text : List Char} {removal : Extent}
    (h : Framed text removal) {feed : Nat} (hfeed : charAt? feed text = some '\n')
    (hlt : feed < removal.stop) :
    ∃ last c, charAt? last text = some c ∧ isSpacing c = false ∧ feed < last ∧
      last + c.utf8Size = removal.stop := by
  obtain ⟨last, c, hc, hvisible, -, hend⟩ := h.last
  refine ⟨last, c, hc, hvisible, ?_, hend⟩
  by_contra hle
  obtain rfl := eq_of_charAt? hc hfeed (by omega) (by omega)
  exact ne_feed_of_visible hc hvisible hfeed

/-- A token is neither white space nor a comment, and no removed statement holds it. -/
structure Survives (tokens : List Token) (removals : List Extent) (position : Nat)
    (token : Token) : Prop where
  token_eq : tokens[position]? = some token
  significant : token.isTrivia = false
  stays : isRemoved removals token = false

instance (tokens : List Token) (removals : List Extent) (position : Nat) (token : Token) :
    Decidable (Survives tokens removals position token) :=
  decidable_of_iff
    (tokens[position]? = some token ∧ token.isTrivia = false ∧ isRemoved removals token = false)
    ⟨fun h => ⟨h.1, h.2.1, h.2.2⟩, fun h => ⟨h.token_eq, h.significant, h.stays⟩⟩

structure Anchors (text : List Char) (tokens : List Token) (removals : List Extent)
    (anchor offset : Nat) : Prop where
  holds : Holds text tokens removals anchor
  le : anchor ≤ offset
  next : ∀ later c, charAt? later text = some c → anchor < later → offset ≤ later

def OnDeletedLine (text : List Char) (tokens : List Token) (removals : List Extent)
    (offset : Nat) : Prop :=
  ∃ removal ∈ removals, takesLines (.ofText text) tokens removals removal = true ∧
    (linesOf (.ofText text) removal).contains ((LineIndex.ofText text).lineOf offset) = true

theorem literal_of_getLast {text : List Char} {tokens : List Token}
    (hlex : Token.lex text = .ok tokens) {position : Nat} {token : Token}
    (htoken : tokens[position]? = some token) (hsignificant : token.isTrivia = false)
    (hne : token.text.toList ≠ []) (hspacing : isSpacing (token.text.toList.getLast hne) = true) :
    token.kind = .literal := by
  have hfits := Token.fits_token hlex htoken
  have hmem := List.getLast_mem hne
  unfold Token.Fits at hfits
  unfold Token.isTrivia at hsignificant
  cases hkind : token.kind with
  | literal => rfl
  | blank | newline | comment => simp [hkind] at hsignificant
  | identifier | keyword | number | operator | interpolationStart =>
    simp only [hkind] at hfits
    have hvisible := hfits.2 _ hmem
    simp [hspacing] at hvisible
  | interpolationEnd =>
    simp only [hkind] at hfits
    rcases hfits with hbrace | ⟨hnil, -⟩
    · simp [hbrace, isSpacing, isSpaceOrTab] at hspacing
    · exact absurd hnil hne

section Hitting

variable {text : List Char} {tokens : List Token} {removals : List Extent} {offset number : Nat}
  {line : Line}

/-- A removed statement that holds one end of a token holds the token. -/
theorem isRemoved_of_bounds {removal : Extent} {token : Token} (hmem : removal ∈ removals)
    (hstart : removal.start ≤ token.start) (hstop : token.stop ≤ removal.stop) :
    isRemoved removals token = true :=
  List.any_eq_true.mpr ⟨removal, hmem, by simp [hstart, hstop]⟩

theorem exists_marked_line (tokens : List Token) (removals : List Extent) {c : Char}
    (hc : charAt? offset text = some c) :
    ∃ (number : Nat) (line : Line) (mark : Mark),
      (marksOf text tokens removals)[number]? = some (line, mark) ∧
        line ∈ (LineIndex.ofText text).lines ∧ line.start ≤ offset ∧ offset < line.stop := by
  obtain ⟨line, hline, hstart, hstop⟩ := LineIndex.exists_line (lt_of_charAt? hc)
  exact ⟨_, line, _, getElem?_marksOf.mpr ⟨hline, rfl⟩, List.mem_of_getElem? hline, hstart, hstop⟩

/-- Two marked lines that hold one offset are one line, marked once. -/
theorem mark_eq {first second : Nat} {other : Line} {mark mark' : Mark}
    (hline : (marksOf text tokens removals)[first]? = some (line, mark))
    (hother : (marksOf text tokens removals)[second]? = some (other, mark'))
    (hstart : line.start ≤ offset) (hstop : offset < line.stop)
    (hstart' : other.start ≤ offset) (hstop' : offset < other.stop) :
    line = other ∧ mark = mark' := by
  have hfirst := LineIndex.lineOf_eq (getElem?_marksOf.mp hline).1 hstart hstop
  have hsecond := LineIndex.lineOf_eq (getElem?_marksOf.mp hother).1 hstart' hstop'
  obtain rfl : first = second := hfirst.symm.trans hsecond
  exact Prod.mk.inj (Option.some.inj (hline.symm.trans hother))

theorem onDeletedLine_iff {mark : Mark}
    (hmark : (marksOf text tokens removals)[number]? = some (line, mark))
    (hstart : line.start ≤ offset) (hstop : offset < line.stop) :
    OnDeletedLine text tokens removals offset ↔ mark = .deleted := by
  have hline := (getElem?_marksOf.mp hmark).1
  unfold OnDeletedLine
  rw [LineIndex.lineOf_eq hline hstart hstop]
  constructor
  · intro h
    obtain ⟨removal, hmem, htakes, hcontains⟩ := h
    have hdeleted := deleted_of_takesLines hmem htakes hline hcontains
    exact (Prod.mk.inj (Option.some.inj (hmark.symm.trans hdeleted))).2
  · rintro rfl
    exact exists_takesLines_of_deleted hmark

/-- Where a line stays, only spaces are cut beside the statements that are cut out of it. -/
theorem exists_removal_of_solid (haligned : ∀ removal ∈ removals, Aligned text tokens removal)
    (hsolid : (marksOf text tokens removals)[number]? = some (line, .solid))
    (hstart : line.start ≤ offset) (hstop : offset < line.stop) {c : Char}
    (hc : charAt? offset text = some c) (hspace : isSpaceOrTab c = false)
    (hhits : Hits (plan text tokens removals).cuts offset) :
    ∃ removal ∈ removals, takesLines (.ofText text) tokens removals removal = false ∧
      removal.contains offset = true := by
  rcases exists_of_hits haligned hc hspace hhits with
    hremoved | ⟨other, own, hdeleted, hcontains⟩ | ⟨other, own, hblank, hcontains⟩
  · exact hremoved
  · obtain ⟨hlow, hhigh⟩ := lineCut_contains hcontains
    have hmark := (mark_eq hsolid hdeleted hstart hstop hlow hhigh).2
    simp at hmark
  · obtain ⟨hlow, hhigh⟩ := Extent.contains_iff.mp hcontains
    have hmark := (mark_eq hsolid hblank hstart hstop hlow hhigh).2
    simp at hmark

/-- A deleted line goes with all that stands on it, but for a byte order mark. -/
theorem hits_of_deleted (hdeleted : (marksOf text tokens removals)[number]? = some (line, .deleted))
    {c : Char} (hc : charAt? offset text = some c) (hmark : c ≠ byteOrderMark)
    (hstart : line.start ≤ offset) (hstop : offset < line.stop) :
    Hits (plan text tokens removals).cuts offset := by
  refine ⟨lineCut text line, mem_cuts_plan.mpr (Or.inr (Or.inl ⟨_, line, hdeleted, rfl⟩)), ?_⟩
  unfold lineCut
  by_cases hopens : line.start = 0 ∧ text.head? = some byteOrderMark
  · rw [if_pos hopens]
    refine Extent.contains_iff.mpr ⟨?_, hstop⟩
    by_contra hlt
    have hzero := charAt?_zero hopens.2
    have heq := eq_of_charAt? hzero hc (Nat.zero_le _) (by simpa using hlt)
    rw [← heq, hzero] at hc
    exact hmark (Option.some.inj hc).symm
  · rw [if_neg hopens]
    exact Extent.contains_iff.mpr ⟨hstart, hstop⟩

end Hitting

end Excision

namespace Source

open Excision

def cutsFor (source : Source) (text : List Char) (chosen : List ImportStatement) : List Extent :=
  (plan text source.tokens (source.bytesOfImports chosen)).cuts

variable {source : Source} {text : List Char} {chosen : List ImportStatement}

/-- Removed statements do not overlap. -/
theorem Selects.eq_of_contains (h : source.Selects text chosen) {removal other : Extent}
    (hremoval : removal ∈ source.bytesOfImports chosen)
    (hother : other ∈ source.bytesOfImports chosen) {offset : Nat}
    (hcontains : removal.contains offset = true) (hcontains' : other.contains offset = true) :
    removal = other := by
  have hend := (h.aligned_bytes removal hremoval).stop_le
  have hinside := (Extent.contains_iff.mp hcontains).2
  obtain ⟨position, token, htoken, hstart, hstop⟩ :=
    Token.exists_token h.lexed (show offset < byteLength text by omega)
  obtain ⟨statement, hmem, rfl⟩ := List.mem_map.mp hremoval
  obtain ⟨statement', hmem', rfl⟩ := List.mem_map.mp hother
  rw [h.contains_of_bytes hmem htoken hstart hstop] at hcontains
  rw [h.contains_of_bytes hmem' htoken hstart hstop] at hcontains'
  obtain ⟨pieces, hcuts⟩ := Outline.exists_cuts h.outlined
  have himport := h.chosen_mem statement hmem
  have himport' := h.chosen_mem statement' hmem'
  rw [hcuts.assembled] at himport himport'
  have hsame := hcuts.tiles.eq_of_contains (Outline.mem_imports_assemble.mp himport)
    (Outline.mem_imports_assemble.mp himport') hcontains hcontains'
  rw [Outline.Piece.importStatement.inj hsame]

theorem Selects.stop_le_or_stop_le (h : source.Selects text chosen) {removal other : Extent}
    (hremoval : removal ∈ source.bytesOfImports chosen)
    (hother : other ∈ source.bytesOfImports chosen) (hne : removal ≠ other) :
    removal.stop ≤ other.start ∨ other.stop ≤ removal.start := by
  have hforward := (h.aligned_bytes removal hremoval).start_lt_stop
  have hforward' := (h.aligned_bytes other hother).start_lt_stop
  by_contra hoverlap
  have hinside : removal.contains (max removal.start other.start) = true :=
    Extent.contains_iff.mpr ⟨by omega, by omega⟩
  have hinside' : other.contains (max removal.start other.start) = true :=
    Extent.contains_iff.mpr ⟨by omega, by omega⟩
  exact hne (h.eq_of_contains hremoval hother hinside hinside')

theorem mem_bytesOfImports (source : Source) {statement : ImportStatement}
    (hmem : statement ∈ chosen) :
    Token.bytesOf source.tokens statement.tokens ∈ source.bytesOfImports chosen :=
  List.mem_map_of_mem hmem

theorem Selects.bounds_of_contains (h : source.Selects text chosen) {statement : ImportStatement}
    (hmem : statement ∈ chosen) {position : Nat} {token : Token}
    (htoken : source.tokens[position]? = some token)
    (hcontains : statement.tokens.contains position = true) :
    (Token.bytesOf source.tokens statement.tokens).start ≤ token.start ∧
      token.stop ≤ (Token.bytesOf source.tokens statement.tokens).stop := by
  obtain ⟨hlow, hhigh⟩ := Extent.contains_iff.mp hcontains
  have hstop := (h.importAt (h.chosen_mem statement hmem)).clause.stop_le
  rw [List.length_map] at hstop
  obtain ⟨first, last, hfirst, hlast, hbytes⟩ :=
    exists_bytesOf statement.tokens (by omega) hstop
  rw [hbytes]
  exact ⟨Token.start_le_start h.lexed hfirst htoken hlow,
    Token.stop_le_stop h.lexed htoken hlast (by omega)⟩

/-- The last character of a token holds its line if it is visible. -/
theorem Selects.exists_anchor_of_getLast (h : source.Selects text chosen) {position : Nat}
    {token : Token} (htoken : source.tokens[position]? = some token)
    (hfixed : token.isFixed = true) (hspares : Spares chosen position)
    (hne : token.text.toList ≠ [])
    (hvisible : isSpacing (token.text.toList.getLast hne) = false) :
    ∃ anchor, Anchors text source.tokens (source.bytesOfImports chosen) anchor token.stop := by
  obtain ⟨anchor, hstart, hend, hat⟩ :=
    (Token.stands_token h.lexed (List.mem_of_getElem? htoken)).getLast
      (List.getLast?_eq_some_getLast hne)
  have hpositive := (token.text.toList.getLast hne).utf8Size_pos
  have hstop : anchor + (token.text.toList.getLast hne).utf8Size = token.stop := hend
  have hholds := h.holds ⟨⟨_, hat, hvisible⟩, token, htoken, hstart, by omega, hfixed⟩ hspares
  refine ⟨anchor, hholds, by omega, ?_⟩
  intro later c hc hlt
  by_contra hinside
  have heq := eq_of_charAt? hat hc (Nat.le_of_lt hlt) (by omega)
  omega

section Surviving

variable (h : source.Selects text chosen) {position : Nat} {token : Token}
  (hsurvives : Survives source.tokens (source.bytesOfImports chosen) position token)

include h hsurvives

/-- No removed statement goes across a token that survives, not even if the token is empty. -/
theorem Selects.apart_of_survives {removal : Extent}
    (hremoval : removal ∈ source.bytesOfImports chosen) {offset : Nat}
    (hcontains : removal.contains offset = true) (hstart : token.start ≤ offset) :
    token.stop ≤ removal.start := by
  obtain ⟨hlow, hhigh⟩ := Extent.contains_iff.mp hcontains
  have hstays : ¬ (removal.start ≤ token.start ∧ token.stop ≤ removal.stop) := by
    intro hbounds
    have hremoved := isRemoved_of_bounds hremoval hbounds.1 hbounds.2
    simp [hsurvives.stays] at hremoved
  have hforward := Token.start_le_stop token
  by_cases hnonempty : token.start < token.stop
  · have hapart := (h.aligned_bytes removal hremoval).apart token
      (List.mem_of_getElem? hsurvives.token_eq) hnonempty
    omega
  · omega

theorem Selects.spares_of_survives : Spares chosen position := by
  intro statement hmem
  cases hcontains : statement.tokens.contains position with
  | false => rfl
  | true =>
    obtain ⟨hstart, hstop⟩ := h.bounds_of_contains hmem hsurvives.token_eq hcontains
    have hremoved := isRemoved_of_bounds (mem_bytesOfImports source hmem) hstart hstop
    simp [hsurvives.stays] at hremoved

/-- An empty token is not left alone: the word that it stands behind survives as well. -/
theorem Selects.spares_word {before : Nat} {word : Token} (hposition : position = before + 1)
    (hword : source.tokens[before]? = some word) (hempty : token.stop ≤ token.start) :
    Spares chosen before := by
  intro statement hmem
  cases hcontains : statement.tokens.contains before with
  | false => rfl
  | true =>
    obtain ⟨hstart, hstop⟩ := h.bounds_of_contains hmem hword hcontains
    have htoken := hsurvives.token_eq
    rw [hposition] at htoken
    have hadjacent : word.stop = token.start := (Token.tiles_tokens h.lexed).adjacent
      (show (source.tokens.map Token.extent)[before]? = some word.extent by simp [hword])
      (show (source.tokens.map Token.extent)[before + 1]? = some token.extent by simp [htoken])
    have hforward := Token.start_le_stop word
    have hremoved := isRemoved_of_bounds (mem_bytesOfImports source hmem)
      (show _ ≤ token.start by omega) (by omega)
    simp [hsurvives.stays] at hremoved

/-- A chosen import does not start with what can stand only inside a literal. -/
theorem Selects.spares_next {next : Token} (hnext : source.tokens[position + 1]? = some next)
    (hother : next.symbol = .other) : Spares chosen (position + 1) := by
  intro statement hmem
  cases hcontains : statement.tokens.contains (position + 1) with
  | false => rfl
  | true =>
    obtain ⟨hlow, hhigh⟩ := Extent.contains_iff.mp hcontains
    have hspares := h.spares_of_survives hsurvives statement hmem
    obtain ⟨first, hfirst, hsymbol⟩ :=
      exists_first_of_importAt (h.importAt (h.chosen_mem statement hmem))
    by_cases hstart : statement.tokens.start ≤ position
    · rw [Extent.contains_iff.mpr ⟨hstart, by omega⟩] at hspares
      simp at hspares
    · rw [show statement.tokens.start = position + 1 by omega] at hfirst
      obtain rfl := Option.some.inj (hnext.symm.trans hfirst)
      simp [hother] at hsymbol

/-- Where a token that survives ends stands a character that holds its line: the last one of the
token, or the one right beside it. -/
theorem Selects.exists_anchor :
    ∃ anchor, Anchors text source.tokens (source.bytesOfImports chosen) anchor token.stop := by
  have htoken := hsurvives.token_eq
  by_cases hne : token.text.toList = []
  · obtain ⟨before, word, hposition, hword, hspelled, htrivia⟩ :=
      exists_word_of_nil h.lexed htoken hne
    have hempty : token.stop = token.start := by simp [Token.stop, hne, byteLength]
    have hadjacent : word.stop = token.start := (Token.tiles_tokens h.lexed).adjacent
      (show (source.tokens.map Token.extent)[before]? = some word.extent by simp [hword])
      (show (source.tokens.map Token.extent)[before + 1]? = some token.extent by
        simp [← hposition, htoken])
    rw [hempty, ← hadjacent]
    exact h.exists_anchor_of_getLast hword (Token.isFixed_of_isTrivia htrivia)
      (h.spares_word hsurvives hposition hword (by omega)) hspelled.1
      (hspelled.2 _ (List.getLast_mem _))
  · by_cases hvisible : isSpacing (token.text.toList.getLast hne) = false
    · exact h.exists_anchor_of_getLast htoken (Token.isFixed_of_isTrivia hsurvives.significant)
        (h.spares_of_survives hsurvives) hne hvisible
    · -- The literal goes on after the sign of an interpolated expression.
      have hspacing : isSpacing (token.text.toList.getLast hne) = true := by simpa using hvisible
      obtain ⟨next, hnext, hstarts⟩ := Token.exists_interpolationStart h.lexed htoken
        (isOpen_of_getLast (literal_of_getLast h.lexed htoken hsurvives.significant hne hspacing)
          (List.getLast?_eq_some_getLast hne) hspacing)
      have hfits := Token.fits_token h.lexed hnext
      unfold Token.Fits at hfits
      simp only [hstarts] at hfits
      have hadjacent : token.stop = next.start := (Token.tiles_tokens h.lexed).adjacent
        (show (source.tokens.map Token.extent)[position]? = some token.extent by simp [htoken])
        (show (source.tokens.map Token.extent)[position + 1]? = some next.extent by simp [hnext])
      rw [hadjacent]
      refine ⟨next.start, h.holds (shows_of_spelled h.lexed hnext (by simp [Token.isFixed, hstarts])
        hfits) (h.spares_next hsurvives hnext (by simp [Token.symbol, hstarts])), Nat.le_refl _, ?_⟩
      intro later c hc hlt
      exact Nat.le_of_lt hlt

theorem Selects.leftOf_token :
    leftOf text (source.cutsFor text chosen) token.start token.stop = token.text.toList := by
  apply leftOf_of_stands (Token.stands_token h.lexed (List.mem_of_getElem? hsurvives.token_eq)) rfl
  intro offset c hstart (hstop : offset < token.stop) hc
  have hsheltered := h.sheltered_of_fixed hsurvives.token_eq
    (Token.isFixed_of_isTrivia hsurvives.significant) hc hstart hstop ?_
  · exact hsheltered.not_hits h.lexed h.aligned_bytes
  · intro removal hremoval
    cases hcontains : removal.contains offset with
    | false => rfl
    | true =>
      have hapart := h.apart_of_survives hsurvives hremoval hcontains hstart
      have hlow := (Extent.contains_iff.mp hcontains).1
      omega

/-- What is left of a stretch is left on either side of a token that survives. -/
theorem Selects.leftOf_around {start stop : Nat} (hsplit : SplitsAt text start)
    (hstart : start ≤ token.start) (hstop : token.stop ≤ stop) :
    leftOf text (source.cutsFor text chosen) start stop =
      leftOf text (source.cutsFor text chosen) start token.start ++
        (token.text.toList ++ leftOf text (source.cutsFor text chosen) token.stop stop) := by
  have hstands := Token.stands_token h.lexed (List.mem_of_getElem? hsurvives.token_eq)
  have hforward := Token.start_le_stop token
  rw [leftOf_append hsplit hstands.splitsAt_start hstart (Nat.le_trans hforward hstop),
    leftOf_append hstands.splitsAt_start (show SplitsAt text token.stop from hstands.splitsAt_stop)
      hforward hstop, h.leftOf_token hsurvives]

end Surviving

theorem Selects.remove_eq_leftOf (h : source.Selects text chosen) :
    remove text source.tokens (source.bytesOfImports chosen) =
      leftOf text (source.cutsFor text chosen) 0 (byteLength text) := by
  rw [leftOf_zero]
  apply remove_eq_erase
  intro cut hcut
  exact start_le_stop_of_mem_plan h.aligned_bytes hcut

end Source

end UnusedImports
