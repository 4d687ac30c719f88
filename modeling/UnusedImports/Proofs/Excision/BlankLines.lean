import Mathlib.Data.List.Induction
import Mathlib.Data.Nat.Find
import UnusedImports.Proofs.Excision.Preservation

/-!
Lines of which nothing but their line end is left. A statement that takes its lines with it takes
their line ends too, and any other statement leaves something on them, so a line that showed
something shows something in what is left. The one exception is a removed statement with a comment
that goes over several lines: such a comment has to stay when lines are checked, whether it is
removed or not, and so the statement is cut out of lines that hold nothing else.
-/
namespace UnusedImports

open UnusedImports.Text

namespace Excision

def lastLine (text : List Char) : List Char := (text.reverse.takeWhile (· != '\n')).reverse

/-- No line feed that is left stands between two offsets. -/
def OnOneLine (text : List Char) (cuts : List Extent) (first last : Nat) : Prop :=
  ∀ feed, first ≤ feed → feed < last → charAt? feed text = some '\n' → Hits cuts feed

/-- A line feed that ended a line which showed something is left, and what is left of the line that
it ends now shows nothing. -/
structure LeavesBlank (text : List Char) (cuts : List Extent) (feed : Nat) : Prop where
  feed_eq : charAt? feed text = some '\n'
  left : ¬ Hits cuts feed
  ended : ∃ line ∈ (LineIndex.ofText text).lines, line.extent.contains feed = true ∧
    line.isBlank = false
  blank : (lastLine (erase cuts 0 (takeBytes feed text))).all
    (fun c => isSpaceOrTab c || c == '\r') = true

instance (cuts : List Extent) (offset : Nat) : Decidable (Hits cuts offset) :=
  inferInstanceAs (Decidable (∃ cut ∈ cuts, cut.contains offset = true))

instance (text : List Char) (cuts : List Extent) (feed : Nat) :
    Decidable (LeavesBlank text cuts feed) :=
  decidable_of_iff
    (charAt? feed text = some '\n' ∧ ¬ Hits cuts feed ∧
      (∃ line ∈ (LineIndex.ofText text).lines, line.extent.contains feed = true ∧
        line.isBlank = false) ∧
      (lastLine (erase cuts 0 (takeBytes feed text))).all
        (fun c => isSpaceOrTab c || c == '\r') = true)
    ⟨fun h => ⟨h.1, h.2.1, h.2.2.1, h.2.2.2⟩, fun h => ⟨h.feed_eq, h.left, h.ended, h.blank⟩⟩

def HoldsBrokenComment (tokens : List Token) (removal : Extent) : Prop :=
  ∃ token ∈ tokens, token.kind = .comment ∧ '\n' ∈ token.text.toList ∧
    removal.start ≤ token.start ∧ token.stop ≤ removal.stop

/-- A removed statement holds a comment of several lines, nothing else shows on its lines, and a
line feed comes after it. -/
structure Stranded (text : List Char) (tokens : List Token) (removal : Extent) : Prop where
  broken : HoldsBrokenComment tokens removal
  alone : ∀ line ∈ (LineIndex.ofText text).lines, line.start < removal.stop →
    removal.start < line.stop → ∀ offset c, line.extent.contains offset = true →
      charAt? offset text = some c → isSpacing c = false → removal.contains offset = true
  ended : ∃ feed, removal.stop ≤ feed ∧ charAt? feed text = some '\n'

section Erasing

variable {cuts : List Extent}

theorem lastLine_append (text : List Char) (c : Char) :
    lastLine (text ++ [c]) = if c = '\n' then [] else lastLine text ++ [c] := by
  unfold lastLine
  rw [List.reverse_append, List.reverse_singleton, List.singleton_append]
  split
  · rename_i heq
    rw [List.takeWhile_cons_of_neg (by simp [heq]), List.reverse_nil]
  · rename_i hne
    rw [List.takeWhile_cons_of_pos (by simp [hne]), List.reverse_cons]

theorem charAt?_append_singleton {text : List Char} {c d : Char} {offset : Nat} :
    charAt? offset (text ++ [c]) = some d ↔
      charAt? offset text = some d ∨ offset = byteLength text ∧ c = d := by
  by_cases hlt : offset < byteLength text
  · rw [charAt?_append_left hlt]
    simp [Nat.ne_of_lt hlt]
  · obtain ⟨further, rfl⟩ := Nat.exists_eq_add_of_le (Nat.le_of_not_lt hlt)
    have hnone : charAt? (byteLength text + further) text ≠ some d := fun hd =>
      hlt (lt_of_charAt? hd)
    rw [charAt?_append_right]
    cases further with
    | zero =>
      rw [Nat.add_zero] at hnone
      simp [charAt?, hnone]
    | succ further => simp [charAt?, hnone]

/-- Of what is left, those characters stand on the last line that no line feed is left behind. -/
theorem mem_lastLine_erase {text : List Char} {c : Char} :
    c ∈ lastLine (erase cuts 0 text) ↔
      ∃ offset, charAt? offset text = some c ∧ ¬ Hits cuts offset ∧
        ∀ feed, offset ≤ feed → charAt? feed text = some '\n' → Hits cuts feed := by
  induction text using List.reverseRecOn with
  | nil => simp [erase, lastLine, charAt?]
  | append_singleton text last ih =>
    have hsplit : erase cuts 0 (text ++ [last]) = erase cuts 0 text ++
        if cuts.any (fun cut => cut.contains (byteLength text)) then [] else [last] := by
      rw [erase_append, Nat.zero_add]
      rfl
    simp only [charAt?_append_singleton]
    by_cases hhits : Hits cuts (byteLength text)
    · rw [hsplit, if_pos (List.any_eq_true.mpr hhits), List.append_nil, ih]
      constructor
      · intro h
        obtain ⟨offset, hc, hleft, hfeeds⟩ := h
        refine ⟨offset, Or.inl hc, hleft, ?_⟩
        intro feed hle hfeed
        rcases hfeed with hfeed | ⟨rfl, -⟩
        · exact hfeeds feed hle hfeed
        · exact hhits
      · intro h
        obtain ⟨offset, hc | ⟨rfl, -⟩, hleft, hfeeds⟩ := h
        · exact ⟨offset, hc, hleft, fun feed hle hfeed => hfeeds feed hle (Or.inl hfeed)⟩
        · exact absurd hhits hleft
    · rw [hsplit, if_neg (mt List.any_eq_true.mp hhits), lastLine_append]
      by_cases hfeed : last = '\n'
      · -- The line feed is left, so nothing stands behind it.
        rw [if_pos hfeed]
        refine iff_of_false List.not_mem_nil ?_
        intro h
        obtain ⟨offset, hc, -, hfeeds⟩ := h
        refine hhits (hfeeds (byteLength text) ?_ (Or.inr ⟨rfl, hfeed⟩))
        rcases hc with hc | ⟨rfl, -⟩
        · exact Nat.le_of_lt (lt_of_charAt? hc)
        · exact Nat.le_refl _
      · rw [if_neg hfeed, List.mem_append, List.mem_singleton, ih]
        constructor
        · intro h
          rcases h with ⟨offset, hc, hleft, hfeeds⟩ | rfl
          · refine ⟨offset, Or.inl hc, hleft, ?_⟩
            intro feed hle hat
            rcases hat with hat | ⟨-, heq⟩
            · exact hfeeds feed hle hat
            · exact absurd heq hfeed
          · refine ⟨byteLength text, Or.inr ⟨rfl, rfl⟩, hhits, ?_⟩
            intro feed hle hat
            rcases hat with hat | ⟨-, heq⟩
            · exact absurd (lt_of_charAt? hat) (Nat.not_lt_of_le hle)
            · exact absurd heq hfeed
        · intro h
          obtain ⟨offset, hc | ⟨-, hlast⟩, hleft, hfeeds⟩ := h
          · exact Or.inl ⟨offset, hc, hleft, fun feed hle hat => hfeeds feed hle (Or.inl hat)⟩
          · exact Or.inr hlast.symm

/-- A line of what is left shows nothing exactly if everything on it that was visible is cut. -/
theorem blank_iff {text : List Char} {feed : Nat} (hfeed : charAt? feed text = some '\n') :
    (lastLine (erase cuts 0 (takeBytes feed text))).all
        (fun c => isSpaceOrTab c || c == '\r') = true ↔
      ∀ offset c, charAt? offset text = some c → isSpacing c = false → offset < feed →
        OnOneLine text cuts offset feed → Hits cuts offset := by
  obtain ⟨before, after, rfl, rfl⟩ := exists_of_charAt? hfeed
  rw [takeBytes_byteLength, List.all_eq_true]
  constructor
  · intro hblank offset c hc hvisible hlt hline
    rw [charAt?_append_left hlt] at hc
    by_contra hleft
    have hspacing := hblank c (mem_lastLine_erase.mpr ⟨offset, hc, hleft, fun feed hle hat =>
      hline feed hle (lt_of_charAt? hat) (by rw [charAt?_append_left (lt_of_charAt? hat), hat])⟩)
    simp [isSpacing, hspacing] at hvisible
  · intro hhits c hmem
    obtain ⟨offset, hc, hleft, hfeeds⟩ := mem_lastLine_erase.mp hmem
    have hlt := lt_of_charAt? hc
    by_contra hsolid
    rw [Bool.not_eq_true] at hsolid
    have hnot : c ≠ '\n' := fun heq => hleft (hfeeds offset (Nat.le_refl _) (heq ▸ hc))
    refine hleft (hhits offset c ((charAt?_append_left hlt _).trans hc) ?_ hlt ?_)
    · simp [isSpacing, hsolid, hnot]
    · intro feed hle hbefore hat
      rw [charAt?_append_left hbefore] at hat
      exact hfeeds feed hle hat

theorem LeavesBlank.hits {text : List Char} {feed : Nat} (h : LeavesBlank text cuts feed)
    {offset : Nat} {c : Char} (hc : charAt? offset text = some c) (hvisible : isSpacing c = false)
    (hlt : offset < feed) (hline : OnOneLine text cuts offset feed) : Hits cuts offset :=
  (blank_iff h.feed_eq).mp h.blank offset c hc hvisible hlt hline

end Erasing

section Planning

variable {text : List Char} {tokens : List Token} {removals : List Extent}

/-- What is cut and is no space belongs to a statement that leaves its lines, or stands on a line
that is deleted or given up. -/
theorem exists_of_hits (haligned : ∀ removal ∈ removals, Aligned text tokens removal)
    {offset : Nat} {c : Char} (hc : charAt? offset text = some c) (hspace : isSpaceOrTab c = false)
    (hhits : Hits (plan text tokens removals).cuts offset) :
    (∃ removal ∈ removals, takesLines (.ofText text) tokens removals removal = false ∧
      removal.contains offset = true) ∨
    (∃ (number : Nat) (line : Line),
      (marksOf text tokens removals)[number]? = some (line, Mark.deleted) ∧
        (lineCut text line).contains offset = true) ∨
    ∃ (number : Nat) (line : Line),
      (marksOf text tokens removals)[number]? = some (line, Mark.blank) ∧
        line.extent.contains offset = true := by
  obtain ⟨cut, hcut, hcontains⟩ := hhits
  rcases mem_cuts_plan.mp hcut with
    ⟨removal, hremoval, htakes, rfl⟩ | ⟨number, line, hdeleted, rfl⟩ | ⟨line, hsurplus, rfl⟩
  · refine Or.inl ⟨removal, hremoval, htakes, ?_⟩
    rcases exists_space_of_partialCutOf (haligned removal hremoval) hcontains with
      hinside | ⟨d, hd, hspace'⟩
    · exact hinside
    · simp [← Option.some.inj (hc.symm.trans hd), hspace] at hspace'
  · exact Or.inr (Or.inl ⟨number, line, hdeleted, hcontains⟩)
  · obtain ⟨number, -, -, hblank, -, -⟩ := exists_deleted_of_mem_surplus hsurplus
    exact Or.inr (Or.inr ⟨number, line, hblank, hcontains⟩)

/-- What is cut of what is visible belongs to a statement that leaves its lines or stands on a
deleted line. -/
theorem exists_of_hits_visible (haligned : ∀ removal ∈ removals, Aligned text tokens removal)
    {offset : Nat} {c : Char} (hc : charAt? offset text = some c) (hvisible : isSpacing c = false)
    (hhits : Hits (plan text tokens removals).cuts offset) :
    (∃ removal ∈ removals, takesLines (.ofText text) tokens removals removal = false ∧
      removal.contains offset = true) ∨
    ∃ (number : Nat) (line : Line),
      (marksOf text tokens removals)[number]? = some (line, Mark.deleted) ∧
        (lineCut text line).contains offset = true := by
  have hspace : isSpaceOrTab c = false := by
    simp only [isSpacing, Bool.or_eq_false_iff] at hvisible
    exact hvisible.1.1
  rcases exists_of_hits haligned hc hspace hhits with
    hremoved | hdeleted | ⟨number, line, hblank, hcontains⟩
  · exact Or.inl hremoved
  · exact Or.inr hdeleted
  · have hspacing := isSpacing_of_blank hblank hc hcontains
    simp [hvisible] at hspacing

/-- A statement that leaves its lines touches one with a token that has to stay. -/
theorem exists_not_isDisposable (hlex : Token.lex text = .ok tokens) {removal : Extent}
    (haligned : Aligned text tokens removal)
    (htakes : takesLines (.ofText text) tokens removals removal = false) :
    ∃ line ∈ (LineIndex.ofText text).lines, line.start < removal.stop ∧
      removal.start < line.stop ∧ ∃ (position : Nat) (token : Token),
        tokens[position]? = some token ∧ token.start < line.contentStop ∧
        line.start < token.stop ∧ isDisposable removals line token = false := by
  obtain ⟨line, hslice, hclean⟩ := List.all_eq_false.mp htakes
  obtain ⟨number, hnumber, hline⟩ := Extent.exists_of_mem_slice hslice
  obtain ⟨offset, hstart, hstop, hcontains⟩ :=
    exists_offset_of_linesOf haligned.start_lt_stop haligned.stop_le hline hnumber
  obtain ⟨hlow, hhigh⟩ := Extent.contains_iff.mp hcontains
  refine ⟨line, List.mem_of_getElem? hline, by omega, by omega, ?_⟩
  rw [isClean_iff hlex] at hclean
  simp only [not_forall, Bool.not_eq_true] at hclean
  obtain ⟨token, hmem, hbefore, hafter, hdisposable⟩ := hclean
  obtain ⟨position, hposition⟩ := List.mem_iff_getElem?.mp hmem
  exact ⟨position, token, hposition, hbefore, hafter, hdisposable⟩

/-- A line feed that is left while nothing else of its line is belongs to a line on which a
statement ends that leaves its lines. -/
theorem LeavesBlank.exists_removal {feed : Nat}
    (h : LeavesBlank text (plan text tokens removals).cuts feed)
    (haligned : ∀ removal ∈ removals, Aligned text tokens removal)
    (hmark : ∀ removal ∈ removals, charAt? removal.start text ≠ some byteOrderMark) :
    ∃ removal ∈ removals, takesLines (.ofText text) tokens removals removal = false ∧
      removal.stop ≤ feed ∧ ∃ offset c, removal.contains offset = true ∧
        charAt? offset text = some c ∧ isSpacing c = false ∧
        ∀ between, offset ≤ between → between < feed → charAt? between text ≠ some '\n' := by
  obtain ⟨line, hline, hcontains, hblank⟩ := h.ended
  obtain ⟨hstart, hstop⟩ : line.start ≤ feed ∧ feed < line.stop := Extent.contains_iff.mp hcontains
  have hnonempty : line.text ≠ [] := by
    intro hnil
    have hempty : line.stop = line.start := by rw [Line.stop, hnil]; rfl
    omega
  obtain ⟨offset, c, hlow, hhigh, hc, hvisible⟩ := LineIndex.exists_visible hline hnonempty hblank
  have hcontent := LineIndex.contentStop_le_of_feed hline h.feed_eq hstart
  have hnone : ∀ between, offset ≤ between → between < feed →
      charAt? between text ≠ some '\n' := by
    intro between hge hlt hat
    have hend := LineIndex.stop_eq_of_feed hline hat (by omega) (by omega)
    omega
  have hhits := h.hits hc hvisible (by omega) fun between hge hlt hat =>
    absurd hat (hnone between hge hlt)
  rcases exists_of_hits_visible haligned hc hvisible hhits with
    ⟨removal, hremoval, htakes, hinside⟩ | ⟨number, other, hdeleted, hcut⟩
  · refine ⟨removal, hremoval, htakes, ?_, offset, c, hinside, hc, hvisible, hnone⟩
    by_contra hlt
    have hbounds := Extent.contains_iff.mp hinside
    exact h.left (hits_of_removed haligned hmark hremoval
      (Extent.contains_iff.mpr ⟨by omega, by omega⟩))
  · -- The line would go with its line feed.
    obtain ⟨hlow', hhigh'⟩ := lineCut_contains hcut
    have hmem := List.mem_of_getElem? (getElem?_marksOf.mp hdeleted).1
    obtain rfl : other = line := (LineIndex.tiles_lines text).eq_of_contains hmem hline
      (Extent.contains_iff.mpr ⟨hlow', hhigh'⟩)
      (Extent.contains_iff.mpr ⟨hlow, show offset < line.stop by omega⟩)
    refine absurd ⟨_, mem_cuts_plan.mpr (Or.inr (Or.inl ⟨number, other, hdeleted, rfl⟩)), ?_⟩ h.left
    have hbefore := (Extent.contains_iff.mp hcut).1
    refine Extent.contains_iff.mpr ⟨by omega, ?_⟩
    unfold lineCut
    split <;> exact hstop

/-- From the start of a line that a removed statement touches, no line feed is left up to the line
on which the statement ends. -/
theorem onOneLine_of_touched (haligned : ∀ removal ∈ removals, Aligned text tokens removal)
    (hmark : ∀ removal ∈ removals, charAt? removal.start text ≠ some byteOrderMark)
    {removal : Extent} (hremoval : removal ∈ removals) {offset feed : Nat}
    (hcontains : removal.contains offset = true)
    (hnone : ∀ between, offset ≤ between → between < feed → charAt? between text ≠ some '\n')
    {line : Line} (hline : line ∈ (LineIndex.ofText text).lines)
    (htouched : removal.start < line.stop) :
    OnOneLine text (plan text tokens removals).cuts line.start feed := by
  intro between hge hlt hat
  obtain ⟨hlow, hhigh⟩ := Extent.contains_iff.mp hcontains
  have hbefore : between < offset := by
    by_contra hle
    exact hnone between (by omega) hlt hat
  apply hits_of_removed haligned hmark hremoval
  refine Extent.contains_iff.mpr ⟨?_, by omega⟩
  by_contra hstart
  have hend := LineIndex.stop_eq_of_feed hline hat hge (by omega)
  omega

end Planning

end Excision

namespace Source

open Excision

variable {source : Source} {text : List Char} {chosen : List ImportStatement}

/-- Nothing that holds its line is left on a line that is left blank. -/
theorem Selects.not_holds (h : source.Selects text chosen) {feed : Nat}
    (hblank : LeavesBlank text (plan text source.tokens (source.bytesOfImports chosen)).cuts feed)
    {offset : Nat} (hlt : offset < feed)
    (hjoined : OnOneLine text (plan text source.tokens (source.bytesOfImports chosen)).cuts
      offset feed) :
    ¬ Holds text source.tokens (source.bytesOfImports chosen) offset := by
  intro hholds
  obtain ⟨c, hc, hvisible⟩ := hholds.visible
  exact hholds.sheltered.not_hits h.lexed h.aligned_bytes (hblank.hits hc hvisible hlt hjoined)

section Joining

variable (h : source.Selects text chosen) {feed : Nat}
  (hblank : LeavesBlank text (plan text source.tokens (source.bytesOfImports chosen)).cuts feed)
  {line : Line} (hline : line ∈ (LineIndex.ofText text).lines)
  (hjoined : OnOneLine text (plan text source.tokens (source.bytesOfImports chosen)).cuts
    line.start feed)
  (hremoved : ∃ removal ∈ source.bytesOfImports chosen, ∃ offset, line.start ≤ offset ∧
    offset < feed ∧ removal.contains offset = true)

include h hblank hline hjoined hremoved

/-- On the lines that are joined to one that is left blank, a token that has to stay is removed:
what shelters it would stand on both sides of a removed statement. -/
theorem Selects.exists_removal_of_fixed {position : Nat} {token : Token}
    (htoken : source.tokens[position]? = some token) (hfixed : token.isFixed = true) {offset : Nat}
    {c : Char} (hc : charAt? offset text = some c) (hstart : token.start ≤ offset)
    (hstop : offset < token.stop) (hlow : line.start ≤ offset) (hhigh : offset < feed) :
    ∃ removal ∈ source.bytesOfImports chosen, removal.contains offset = true := by
  by_contra hnone
  have hstays : ∀ removal ∈ source.bytesOfImports chosen, removal.contains offset = false := by
    simpa using hnone
  obtain ⟨first, last, hfirst, hlast, hholds, hclear, -, hside⟩ :=
    h.sheltered_of_fixed htoken hfixed hc hstart hstop hstays
  have hbefore : first < line.start := by
    by_contra hle
    exact h.not_holds hblank (by omega) (fun between hge => hjoined between (by omega)) hholds
  rcases hside with hside | hside
  · have hafter : feed ≤ last := by
      by_contra hlt
      exact h.not_holds hblank (by omega) (fun between hge => hjoined between (by omega)) hside
    obtain ⟨removal, hremoval, inside, hge, hlt, hcontains⟩ := hremoved
    have hnot := hclear removal hremoval inside (by omega) (by omega)
    simp [hcontains] at hnot
  · have hsame := LineIndex.start_le_of_no_feed hline hlow hside
    omega

theorem Selects.isRemoved_of_start_lt_stop {position : Nat} {token : Token}
    (htoken : source.tokens[position]? = some token) (hfixed : token.isFixed = true)
    (hnonempty : token.start < token.stop) (hbefore : token.start < line.contentStop)
    (hafter : line.start < token.stop) :
    isRemoved (source.bytesOfImports chosen) token = true := by
  have hmem := List.mem_of_getElem? htoken
  have hstands := Token.stands_token h.lexed hmem
  have hend : token.stop ≤ byteLength text := hstands.le_byteLength
  have hle : line.start ≤ feed := by
    obtain ⟨-, -, offset, hge, hlt, -⟩ := hremoved
    omega
  have hcontent := LineIndex.contentStop_le_of_feed hline hblank.feed_eq hle
  have hcharacter : ∃ offset c, charAt? offset text = some c ∧ token.start ≤ offset ∧
      offset < token.stop ∧ line.start ≤ offset ∧ offset < feed := by
    by_cases hinside : line.start ≤ token.start
    · obtain ⟨c, hc⟩ := hstands.exists_charAt? (by omega)
      exact ⟨token.start, c, hc, Nat.le_refl _, hnonempty, hinside, by omega⟩
    · obtain ⟨c, hc⟩ := (LineIndex.stands_line hline).exists_charAt? (by omega)
      have hforward : line.start < feed := by
        obtain ⟨-, -, offset, hge, hlt, -⟩ := hremoved
        omega
      exact ⟨line.start, c, hc, by omega, hafter, Nat.le_refl _, hforward⟩
  obtain ⟨offset, c, hc, hstart, hstop, hlow, hhigh⟩ := hcharacter
  obtain ⟨removal, hremoval, hcontains⟩ := h.exists_removal_of_fixed hblank hline hjoined hremoved
    htoken hfixed hc hstart hstop hlow hhigh
  obtain ⟨hge, hlt⟩ := Extent.contains_iff.mp hcontains
  refine List.any_eq_true.mpr ⟨removal, hremoval, ?_⟩
  have hapart := (h.aligned_bytes removal hremoval).apart token hmem hnonempty
  rcases hapart with hinside | hapart | hapart
  · simp [hinside]
  · omega
  · omega

/-- The same holds of the end of an interpolated name, which has no characters: it stands behind
the last word of the name. -/
theorem Selects.isRemoved_of_isFixed {position : Nat} {token : Token}
    (htoken : source.tokens[position]? = some token) (hfixed : token.isFixed = true)
    (hbefore : token.start < line.contentStop) (hafter : line.start < token.stop) :
    isRemoved (source.bytesOfImports chosen) token = true := by
  by_cases hnonempty : token.start < token.stop
  · exact h.isRemoved_of_start_lt_stop hblank hline hjoined hremoved htoken hfixed hnonempty hbefore
      hafter
  have hnil : token.text.toList = [] := by
    by_contra hne
    have hpositive := byteLength_pos hne
    unfold Token.stop at hnonempty
    omega
  obtain ⟨before, word, rfl, hword, hspelled, htrivia⟩ := exists_word_of_nil h.lexed htoken hnil
  have hwordfixed := Token.isFixed_of_isTrivia htrivia
  have hadjacent : word.stop = token.start := (Token.tiles_tokens h.lexed).adjacent
    (show (source.tokens.map Token.extent)[before]? = some word.extent by simp [hword])
    (show (source.tokens.map Token.extent)[before + 1]? = some token.extent by simp [htoken])
  have hwordstop := start_lt_stop_of_spelled hspelled
  have htokenstop := Token.start_le_stop token
  have hremoved := h.isRemoved_of_start_lt_stop hblank hline hjoined hremoved hword hwordfixed
    hwordstop (by omega) (by omega)
  obtain ⟨removal, hremoval, hinside⟩ := List.any_eq_true.mp hremoved
  refine List.any_eq_true.mpr ⟨removal, hremoval, ?_⟩
  simp only [Bool.and_eq_true, decide_eq_true_eq] at hinside ⊢
  omega

/-- So the only token that makes such a line keep its statements is a comment of several lines that
is removed. -/
theorem Selects.broken_of_not_isDisposable {position : Nat} {token : Token}
    (htoken : source.tokens[position]? = some token) (hbefore : token.start < line.contentStop)
    (hafter : line.start < token.stop)
    (hstays : isDisposable (source.bytesOfImports chosen) line token = false) :
    token.kind = .comment ∧ '\n' ∈ token.text.toList ∧
      isRemoved (source.bytesOfImports chosen) token = true := by
  have hremoved := fun hfixed => h.isRemoved_of_isFixed hblank hline hjoined hremoved htoken hfixed
    hbefore hafter
  unfold isDisposable at hstays
  unfold Token.isFixed at hremoved
  cases hkind : token.kind with
  | blank | newline => simp [hkind] at hstays
  | comment =>
    have hfeed : '\n' ∈ token.text.toList := by
      by_contra hfeed
      have hstands := Token.stands_token h.lexed (List.mem_of_getElem? htoken)
      have hstart := LineIndex.start_le_of_stands hstands hfeed hline hafter
      simp [hkind, hstart, hfeed] at hstays
    exact ⟨rfl, hfeed, hremoved (by simp [hkind, hfeed])⟩
  | _ =>
    simp only [hkind, forall_const] at hstays hremoved
    simp [hremoved] at hstays

end Joining

/-- A line is left blank only behind a removed import with a comment of several lines, and no line
feed between the two is left. -/
theorem Selects.exists_broken (h : source.Selects text chosen) {feed : Nat}
    (hblank : LeavesBlank text (plan text source.tokens (source.bytesOfImports chosen)).cuts feed) :
    ∃ removal ∈ source.bytesOfImports chosen, HoldsBrokenComment source.tokens removal ∧
      removal.stop ≤ feed ∧
      OnOneLine text (plan text source.tokens (source.bytesOfImports chosen)).cuts
        removal.stop feed := by
  obtain ⟨removal, hremoval, htakes, hstop, offset, c, hcontains, hc, hvisible, hnone⟩ :=
    hblank.exists_removal h.aligned_bytes h.not_mark
  obtain ⟨line, hline, htouched, htouched', position, token, htoken, hbefore, hafter, hstays⟩ :=
    exists_not_isDisposable h.lexed (h.aligned_bytes removal hremoval) htakes
  have hjoined := onOneLine_of_touched h.aligned_bytes h.not_mark hremoval hcontains hnone hline
    htouched'
  obtain ⟨hlow, hhigh⟩ := Extent.contains_iff.mp hcontains
  have hge : line.start ≤ offset := by
    by_contra hlt
    exact hnone _ (by omega) (by omega) (LineIndex.charAt?_before_line hline (by omega))
  obtain ⟨hkind, hfeed, hremoved⟩ := h.broken_of_not_isDisposable hblank hline hjoined
    ⟨removal, hremoval, offset, hge, by omega, hcontains⟩ htoken hbefore hafter hstays
  obtain ⟨other, hother, hinside⟩ := List.any_eq_true.mp hremoved
  simp only [Bool.and_eq_true, decide_eq_true_eq] at hinside
  have hcontent := LineIndex.contentStop_le_of_feed hline hblank.feed_eq (by omega)
  refine ⟨other, hother, ⟨token, List.mem_of_getElem? htoken, hkind, hfeed, hinside⟩, ?_, ?_⟩
  · by_contra hlt
    exact hblank.left (hits_of_removed h.aligned_bytes h.not_mark hother
      (Extent.contains_iff.mpr ⟨by omega, by omega⟩))
  · exact fun between hbetween => hjoined between (by omega)

section Single

variable {removal : Extent}

/-- A single import whose lines stay is cut out of them with nothing but spaces around it. -/
theorem exists_space_of_hits {tokens : List Token} (haligned : Aligned text tokens removal)
    (htakes : takesLines (.ofText text) tokens [removal] removal = false) {offset : Nat}
    (hhits : Hits (plan text tokens [removal]).cuts offset) :
    removal.contains offset = true ∨ ∃ c, charAt? offset text = some c ∧ isSpaceOrTab c = true := by
  have hnone : ∀ (number : Nat) (line : Line),
      (marksOf text tokens [removal])[number]? ≠ some (line, .deleted) := by
    intro number line hdeleted
    obtain ⟨other, hother, htakes', -⟩ := exists_takesLines_of_deleted hdeleted
    rw [List.mem_singleton.mp hother, htakes] at htakes'
    simp at htakes'
  obtain ⟨cut, hcut, hcontains⟩ := hhits
  rcases mem_cuts_plan.mp hcut with
    ⟨other, hother, -, rfl⟩ | ⟨number, line, hdeleted, -⟩ | ⟨line, hsurplus, -⟩
  · obtain rfl := List.mem_singleton.mp hother
    exact exists_space_of_partialCutOf haligned hcontains
  · exact absurd hdeleted (hnone number line)
  · obtain ⟨-, deleted, other, -, hdeleted, -⟩ := exists_deleted_of_mem_surplus hsurplus
    exact absurd hdeleted (hnone deleted other)

/-- So the only line feeds that go with it are its own. -/
theorem contains_of_hits_feed {tokens : List Token} (haligned : Aligned text tokens removal)
    (htakes : takesLines (.ofText text) tokens [removal] removal = false) {offset : Nat}
    (hfeed : charAt? offset text = some '\n')
    (hhits : Hits (plan text tokens [removal]).cuts offset) : removal.contains offset = true := by
  rcases exists_space_of_hits haligned htakes hhits with hremoved | ⟨c, hc, hspace⟩
  · exact hremoved
  · rw [← Option.some.inj (hfeed.symm.trans hc)] at hspace
    simp [isSpaceOrTab] at hspace

/-- A statement that holds a comment of several lines does not take its lines. -/
theorem takesLines_of_broken {tokens : List Token} {removals : List Extent}
    (hlex : Token.lex text = .ok tokens) (haligned : Aligned text tokens removal)
    (hbroken : HoldsBrokenComment tokens removal) :
    takesLines (.ofText text) tokens removals removal = false := by
  obtain ⟨token, htoken, hkind, hfeed, hstart, hstop⟩ := hbroken
  obtain ⟨c, hc, hvisible⟩ := exists_head_of_comment hlex htoken hkind
  have hpositive := byteLength_pos (List.ne_nil_of_mem hfeed)
  have hforward : token.start < token.stop := by
    unfold Token.stop
    omega
  obtain ⟨line, hline, hlow, hhigh, hcontains⟩ := contains_linesOf haligned
    (Extent.contains_iff.mpr ⟨hstart, by omega⟩ : removal.contains token.start = true)
  apply List.all_eq_false.mpr
  refine ⟨line, Extent.mem_slice hcontains hline, ?_⟩
  rw [isClean_iff hlex]
  intro hclean
  have hcontent : token.start < line.contentStop := by
    by_contra hle
    rcases LineIndex.lineEnd_of_contentStop_le (List.mem_of_getElem? hline) hc (by omega) hhigh with
      rfl | rfl <;> simp [isSpacing] at hvisible
  have hdisposable := hclean token htoken hcontent (by omega)
  simp [isDisposable, hkind, hfeed] at hdisposable

/-- The lines of a single import show nothing but the import, if one of them is left blank. -/
theorem Selects.stranded_of_leavesBlank (h : source.Selects text chosen) {feed : Nat}
    (hbytes : source.bytesOfImports chosen = [removal])
    (hblank : LeavesBlank text (plan text source.tokens [removal]).cuts feed) :
    Stranded text source.tokens removal := by
  rw [← hbytes] at hblank
  obtain ⟨other, hother, hbroken, hstop, -⟩ := h.exists_broken hblank
  obtain ⟨found, hfound, htakes, -, inside, -, hcontains, -, -, hnone⟩ :=
    hblank.exists_removal h.aligned_bytes h.not_mark
  have haligned := h.aligned_bytes found hfound
  have hsame := hfound
  rw [hbytes, List.mem_singleton] at hother hsame
  subst hother hsame
  refine ⟨hbroken, ?_, feed, hstop, hblank.feed_eq⟩
  intro line hline htouched htouched' offset c hinside hc hvisible
  obtain ⟨hlow, hhigh⟩ : line.start ≤ offset ∧ offset < line.stop := Extent.contains_iff.mp hinside
  have hjoined := onOneLine_of_touched h.aligned_bytes h.not_mark hfound hcontains hnone hline
    htouched'
  have hlt : offset < feed := by
    by_contra hle
    have hend := LineIndex.stop_eq_of_feed hline hblank.feed_eq (by omega) (by omega)
    obtain rfl : offset = feed := by omega
    rw [← Option.some.inj (hblank.feed_eq.symm.trans hc)] at hvisible
    simp [isSpacing] at hvisible
  have hhits := hblank.hits hc hvisible hlt fun between hge => hjoined between (by omega)
  rw [hbytes] at hhits htakes
  rcases exists_space_of_hits haligned htakes hhits with hremoved | ⟨d, hd, hspace⟩
  · exact hremoved
  · rw [← Option.some.inj (hc.symm.trans hd)] at hspace
    simp [isSpacing, hspace] at hvisible

/-- The first line feed behind an import ends the line on which the import ends. -/
theorem Selects.exists_feed (h : source.Selects text chosen)
    (hremoval : removal ∈ source.bytesOfImports chosen)
    (hended : ∃ feed, removal.stop ≤ feed ∧ charAt? feed text = some '\n') :
    ∃ feed last c, removal.stop ≤ feed ∧ charAt? feed text = some '\n' ∧
      removal.contains last = true ∧ charAt? last text = some c ∧ isSpacing c = false ∧
      ∀ between, last ≤ between → between < feed → charAt? between text ≠ some '\n' := by
  classical
  obtain ⟨last, c, hc, hvisible, hstart, hstop⟩ := (h.framed removal hremoval).last
  have hpositive := c.utf8Size_pos
  obtain ⟨hafter, hfeed⟩ := Nat.find_spec hended
  refine ⟨Nat.find hended, last, c, hafter, hfeed, Extent.contains_iff.mpr ⟨hstart, by omega⟩, hc,
    hvisible, ?_⟩
  intro between hge hlt hat
  by_cases hinside : between < removal.stop
  · obtain rfl := eq_of_charAt? hc hat hge (by omega)
    rw [← Option.some.inj (hat.symm.trans hc)] at hvisible
    simp [isSpacing] at hvisible
  · exact Nat.find_min hended hlt ⟨by omega, hat⟩

/-- Where only the line feeds of a statement are cut, the lines joined to the one on which it ends
are those that it touches. -/
theorem touched_of_onOneLine {cuts : List Extent}
    (hcuts : ∀ offset, charAt? offset text = some '\n' → Hits cuts offset →
      removal.contains offset = true)
    {last feed : Nat} (hlast : removal.contains last = true) (hstop : removal.stop ≤ feed)
    (hend : last < byteLength text)
    (hnone : ∀ between, last ≤ between → between < feed → charAt? between text ≠ some '\n')
    {line : Line} (hline : line ∈ (LineIndex.ofText text).lines) {offset : Nat}
    (hlow : line.start ≤ offset) (hhigh : offset < line.stop) (hlt : offset < feed)
    (hjoined : OnOneLine text cuts offset feed) :
    line.start < removal.stop ∧ removal.start < line.stop := by
  obtain ⟨hlaststart, hlaststop⟩ := Extent.contains_iff.mp hlast
  constructor
  · by_contra hle
    exact hnone _ (by omega) (by omega) (LineIndex.charAt?_before_line hline (by omega))
  · by_contra hle
    obtain ⟨first, hfirst, hfirststart, hfirststop⟩ :=
      LineIndex.exists_line (show removal.start < byteLength text by omega)
    have hfirstmem := List.mem_of_getElem? hfirst
    by_cases hinside : first.start ≤ offset
    · have hsame : first = line := (LineIndex.tiles_lines text).eq_of_contains hfirstmem hline
        (Extent.contains_iff.mpr ⟨hinside, show offset < first.stop by omega⟩)
        (Extent.contains_iff.mpr ⟨hlow, hhigh⟩)
      rw [hsame] at hfirststop
      omega
    · -- The line feed before the first line of the statement is no part of it, and yet cut.
      have hfeed := LineIndex.charAt?_before_line hfirstmem (by omega)
      have hremoved := hcuts _ hfeed (hjoined _ (by omega) (by omega) hfeed)
      have hbounds := Extent.contains_iff.mp hremoved
      omega

/-- A single import that is stranded leaves the line feed behind it, and nothing before it on its
line. -/
theorem Selects.exists_leavesBlank (h : source.Selects text chosen)
    (hbytes : source.bytesOfImports chosen = [removal])
    (hstranded : Stranded text source.tokens removal) :
    ∃ feed, LeavesBlank text (plan text source.tokens [removal]).cuts feed := by
  have hmem : removal ∈ source.bytesOfImports chosen := by simp [hbytes]
  have haligned := h.aligned_bytes removal hmem
  have htakes : takesLines (.ofText text) source.tokens [removal] removal = false :=
    takesLines_of_broken h.lexed haligned hstranded.broken
  have hcuts : ∀ offset, charAt? offset text = some '\n' →
      Hits (plan text source.tokens [removal]).cuts offset → removal.contains offset = true :=
    fun _ hat hhits => contains_of_hits_feed haligned htakes hat hhits
  obtain ⟨feed, last, c, hafter, hfeed, hlast, hc, hvisible, hnone⟩ :=
    h.exists_feed hmem hstranded.ended
  obtain ⟨line, hline, hstart, hstop⟩ := LineIndex.exists_line (lt_of_charAt? hfeed)
  have hlinemem := List.mem_of_getElem? hline
  have hlinestart := LineIndex.start_le_of_no_feed hlinemem hstart hnone
  have hbounds := Extent.contains_iff.mp hlast
  refine ⟨feed, hfeed, ?_, ⟨line, hlinemem, Extent.contains_iff.mpr ⟨hstart, hstop⟩, ?_⟩, ?_⟩
  · intro hhits
    have hinside := Extent.contains_iff.mp (hcuts feed hfeed hhits)
    omega
  · by_contra hblank
    have hlinestop : last < line.stop := by omega
    have hshown := (LineIndex.stands_line hlinemem).mem hc hlinestart hlinestop
    have hspacing := Line.isSpacing_of_isBlank (by simpa using hblank) c hshown
    simp [hvisible] at hspacing
  · apply (blank_iff hfeed).mpr
    intro offset d hd hshown hlt hjoined
    obtain ⟨own, hown, hownstart, hownstop⟩ := LineIndex.exists_line (lt_of_charAt? hd)
    have hownmem := List.mem_of_getElem? hown
    obtain ⟨htouched, htouched'⟩ := touched_of_onOneLine hcuts hlast hafter (lt_of_charAt? hc)
      hnone hownmem hownstart hownstop hlt hjoined
    have hremoved := hstranded.alone own hownmem htouched htouched' offset d
      (Extent.contains_iff.mpr ⟨hownstart, hownstop⟩) hd hshown
    rw [← hbytes]
    exact hits_of_removed h.aligned_bytes h.not_mark hmem hremoved

end Single

/-- Removing imports introduces a blank line only behind a removed import with a comment that goes
over several lines. A single import does so exactly if it holds such a comment, nothing else shows
on its lines, and a line feed follows. -/
theorem leavesBlank_remove {text : List Char} {source : Source} (h : read text = .ok source)
    {chosen : List ImportStatement}
    (hchosen : ∀ statement ∈ chosen, statement ∈ source.outline.imports) :
    remove text source.tokens (source.bytesOfImports chosen) =
        erase (plan text source.tokens (source.bytesOfImports chosen)).cuts 0 text ∧
      (∀ feed,
        LeavesBlank text (plan text source.tokens (source.bytesOfImports chosen)).cuts feed →
          ∃ removal ∈ source.bytesOfImports chosen, HoldsBrokenComment source.tokens removal ∧
            removal.stop ≤ feed ∧
            OnOneLine text (plan text source.tokens (source.bytesOfImports chosen)).cuts
              removal.stop feed) ∧
      ∀ removal, source.bytesOfImports chosen = [removal] →
        ((∃ feed, LeavesBlank text (plan text source.tokens [removal]).cuts feed) ↔
          Stranded text source.tokens removal) := by
  obtain ⟨-, -, hlex, houtline⟩ := of_read h
  have hselects : source.Selects text chosen := ⟨hlex, houtline, hchosen⟩
  refine ⟨?_, fun feed => hselects.exists_broken, ?_⟩
  · apply remove_eq_erase
    intro cut hcut
    exact start_le_stop_of_mem_plan hselects.aligned_bytes hcut
  · intro removal hbytes
    constructor
    · intro hcase
      obtain ⟨feed, hblank⟩ := hcase
      exact hselects.stranded_of_leavesBlank hbytes hblank
    · exact hselects.exists_leavesBlank hbytes

/-- The import goes and its line feed stays. -/
theorem leavesBlank_remove_spanning :
    ∃ text source, text = "x\nimport a./*\n*/B\ny\n".toList ∧ read text = .ok source ∧
      source.bytesOfImports source.outline.imports = [⟨2, 17⟩] ∧
      remove text source.tokens [⟨2, 17⟩] =
        erase (plan text source.tokens [⟨2, 17⟩]).cuts 0 text ∧
      ((∃ feed, LeavesBlank text (plan text source.tokens [⟨2, 17⟩]).cuts feed) ↔
        Stranded text source.tokens ⟨2, 17⟩) := by
  have hrun : ((read "x\nimport a./*\n*/B\ny\n".toList).toOption.any fun source =>
      source.bytesOfImports source.outline.imports = [⟨2, 17⟩]) = true := by decide +kernel
  generalize "x\nimport a./*\n*/B\ny\n".toList = text at hrun ⊢
  cases hread : read text with
  | error failure => simp [hread, Except.toOption] at hrun
  | ok source =>
    simp only [hread, Except.toOption, Option.any_some, decide_eq_true_eq] at hrun
    obtain ⟨hremove, -, hsingle⟩ := leavesBlank_remove hread fun _ hmem => hmem
    rw [hrun] at hremove
    exact ⟨text, source, rfl, hread, hrun, hremove, hsingle _ hrun⟩

/-- A blank line is left where no line of the text was blank. -/
theorem exists_leavesBlank_remove :
    ∃ text source feed, text = "x\nimport a./*\n*/B\ny\n".toList ∧ read text = .ok source ∧
      source.bytesOfImports source.outline.imports = [⟨2, 17⟩] ∧
      remove text source.tokens [⟨2, 17⟩] = "x\n\ny\n".toList ∧
      LeavesBlank text (plan text source.tokens [⟨2, 17⟩]).cuts feed := by
  have hrun : ((read "x\nimport a./*\n*/B\ny\n".toList).toOption.any fun source =>
      source.bytesOfImports source.outline.imports = [⟨2, 17⟩] ∧
        remove "x\nimport a./*\n*/B\ny\n".toList source.tokens [⟨2, 17⟩] =
          "x\n\ny\n".toList ∧
        LeavesBlank "x\nimport a./*\n*/B\ny\n".toList
          (plan "x\nimport a./*\n*/B\ny\n".toList source.tokens [⟨2, 17⟩]).cuts 17) = true := by
    decide +kernel
  generalize "x\nimport a./*\n*/B\ny\n".toList = text at hrun ⊢
  cases hread : read text with
  | error failure => simp [hread, Except.toOption] at hrun
  | ok source =>
    simp only [hread, Except.toOption, Option.any_some, decide_eq_true_eq] at hrun
    exact ⟨text, source, 17, rfl, hread, hrun.1, hrun.2.1, hrun.2.2⟩

end Source

end UnusedImports
