import UnusedImports.Proofs.Excision.BlankLines
import UnusedImports.Proofs.Excision.Runs

/-!
How many blank lines are left where whole lines go. If the lines that the removed statements touch
hold nothing else but white space and comments of one line, all of them are deleted, and the text
is left line by line: each run of deleted and blank lines keeps as many blank lines as the larger of
the groups at its two ends, or as the one of them that has something beside it, and these are its
first ones. Every other line stays as it is. A removed statement with a comment that goes over
several lines is cut out of its lines instead, so a line feed is left that should be gone.
-/
namespace UnusedImports

namespace Excision

open UnusedImports.Text

def isTouched (removals : List Extent) (line : Line) : Bool :=
  removals.any fun removal => max removal.start line.start < min removal.stop line.stop

/-- The line holds only removed statements, white space and comments of one line. -/
def HoldsOnlyRemoved (tokens : List Token) (removals : List Extent) (line : Line) : Prop :=
  ∀ token ∈ tokens, token.start < line.contentStop → line.start < token.stop →
    token.kind = .blank ∨ token.kind = .newline ∨
      token.kind = .comment ∧ '\n' ∉ token.text.toList ∨ isRemoved removals token = true

instance (tokens : List Token) (removals : List Extent) (line : Line) :
    Decidable (HoldsOnlyRemoved tokens removals line) :=
  inferInstanceAs (Decidable (∀ token ∈ tokens, _))

instance (tokens : List Token) (removal : Extent) :
    Decidable (HoldsBrokenComment tokens removal) :=
  inferInstanceAs (Decidable (∃ token ∈ tokens, _))

def markOn (removals : List Extent) (line : Line) : Mark :=
  if isTouched removals line then .deleted else if line.isBlank then .blank else .solid

/-- The number of blank lines that a run of deleted and blank lines keeps: those before its first
deleted line if nothing stands before the run, those after its last one if nothing stands behind
it, and else the larger number of the two. -/
def keptLines (deleted : Line → Bool) (before run after : List Line) : Nat :=
  let leading := (run.takeWhile (!deleted ·)).length
  let trailing := (run.reverse.takeWhile (!deleted ·)).length
  if before = [] then leading
  else if after.all (·.text.isEmpty) then trailing
  else max leading trailing

/-- A maximal stretch of lines of a text that are deleted or blank, with a deleted one among
them. -/
structure DeletedRun (text : List Char) (removals : List Extent) (before run after : List Line) :
    Prop where
  isRun : IsRun (fun line => isTouched removals line || line.isBlank)
    (LineIndex.ofText text).lines before run after
  deleted : ∃ line ∈ run, isTouched removals line = true

/-- What is left of a text is the lines that stay, behind a byte order mark if the first line is
deleted and has one. Of a run with a deleted line, the first blank lines stay, as many as it
keeps, and a line outside such runs stays. -/
structure Condensed (text : List Char) (removals : List Extent) (left : List Char)
    (stays : Line → Bool) : Prop where
  left_eq : left =
    (if ((LineIndex.ofText text).lines.head?).any (isTouched removals) ∧
        text.head? = some byteOrderMark then [byteOrderMark] else []) ++
      ((LineIndex.ofText text).lines.filter stays).flatMap Line.text
  runs : ∀ before run after, DeletedRun text removals before run after →
    keptLines (isTouched removals) before run after ≤
        (run.filter (!isTouched removals ·)).length ∧
      run.filter stays = (run.filter (!isTouched removals ·)).take
        (keptLines (isTouched removals) before run after)
  others : ∀ line ∈ (LineIndex.ofText text).lines, stays line = false →
    ∃ before run after, DeletedRun text removals before run after ∧ line ∈ run

section Marking

variable {text : List Char} {tokens : List Token} {removals : List Extent} {line : Line}

theorem isTouched_iff : isTouched removals line = true ↔
    ∃ removal ∈ removals, ∃ offset, line.start ≤ offset ∧ offset < line.stop ∧
      removal.contains offset = true := by
  unfold isTouched
  simp only [List.any_eq_true, decide_eq_true_eq, Extent.contains_iff]
  refine exists_congr fun removal => and_congr_right fun _ => ⟨fun h => ?_, ?_⟩
  · exact ⟨max removal.start line.start, by omega⟩
  · rintro ⟨offset, hstart, hstop, hcontains⟩
    omega

/-- A line that holds only what may go is clean, unless a comment of several lines goes. -/
theorem isClean_of_holdsOnlyRemoved (hlex : Token.lex text = .ok tokens)
    (hline : line ∈ (LineIndex.ofText text).lines) (h : HoldsOnlyRemoved tokens removals line)
    (hwhole : ∀ removal ∈ removals, ¬ HoldsBrokenComment tokens removal) :
    isClean tokens removals line = true := by
  apply (isClean_iff hlex).mpr
  intro token htoken hstart hstop
  have hcomment : token.kind = .comment → '\n' ∉ token.text.toList →
      isDisposable removals line token = true := by
    intro hkind hfeed
    have hstands := Token.stands_token hlex htoken
    have hbefore := LineIndex.start_le_of_stands hstands hfeed hline hstop
    simp [isDisposable, hkind, hbefore, hfeed]
  rcases h token htoken hstart hstop with hkind | hkind | ⟨hkind, hfeed⟩ | hremoved
  · rw [isDisposable, hkind]
  · rw [isDisposable, hkind]
  · exact hcomment hkind hfeed
  · by_cases hkind : token.kind = .comment
    · apply hcomment hkind
      intro hfeed
      obtain ⟨removal, hremoval, hinside⟩ := List.any_eq_true.mp hremoved
      simp only [Bool.and_eq_true, decide_eq_true_eq] at hinside
      exact hwhole removal hremoval ⟨token, htoken, hkind, hfeed, hinside⟩
    · unfold isDisposable
      cases hcase : token.kind <;> simp_all

variable (hlex : Token.lex text = .ok tokens)
  (haligned : ∀ removal ∈ removals, Aligned text tokens removal)
  (hlines : ∀ line ∈ (LineIndex.ofText text).lines, isTouched removals line = true →
    HoldsOnlyRemoved tokens removals line)
  (hwhole : ∀ removal ∈ removals, ¬ HoldsBrokenComment tokens removal)

include hlex haligned hlines hwhole

theorem takesLines_of_holdsOnlyRemoved {removal : Extent} (hmem : removal ∈ removals) :
    takesLines (.ofText text) tokens removals removal = true := by
  apply List.all_eq_true.mpr
  intro line hslice
  obtain ⟨number, hcontains, hline⟩ := Extent.exists_of_mem_slice hslice
  have hmember := List.mem_of_getElem? hline
  obtain ⟨offset, hstart, hstop, hremoved⟩ := exists_offset_of_linesOf
    (haligned removal hmem).start_lt_stop (haligned removal hmem).stop_le hline hcontains
  have htouched := isTouched_iff.mpr ⟨removal, hmem, offset, hstart, hstop, hremoved⟩
  exact isClean_of_holdsOnlyRemoved hlex hmember (hlines line hmember htouched) hwhole

theorem any_wholeLines {number : Nat} (hline : (LineIndex.ofText text).lines[number]? = some line) :
    ((wholeLines text tokens removals).any fun lines => lines.contains number) =
      isTouched removals line := by
  rw [Bool.eq_iff_iff, isTouched_iff, List.any_eq_true]
  constructor
  · rintro ⟨lines, hwhole, hcontains⟩
    obtain ⟨removal, hremoval, rfl⟩ := List.mem_map.mp hwhole
    have hmem := (List.mem_filter.mp hremoval).1
    exact ⟨removal, hmem, exists_offset_of_linesOf (haligned removal hmem).start_lt_stop
      (haligned removal hmem).stop_le hline hcontains⟩
  · rintro ⟨removal, hmem, offset, hstart, hstop, hremoved⟩
    obtain ⟨-, -, -, -, hcontains⟩ := contains_linesOf (haligned removal hmem) hremoved
    rw [LineIndex.lineOf_eq hline hstart hstop] at hcontains
    have htakes := takesLines_of_holdsOnlyRemoved hlex haligned hlines hwhole hmem
    exact ⟨_, List.mem_map_of_mem (List.mem_filter.mpr ⟨hmem, htakes⟩), hcontains⟩

/-- The lines that go as a whole are those that are touched. -/
theorem marksOf_eq_map : marksOf text tokens removals =
    (LineIndex.ofText text).lines.map fun line => (line, markOn removals line) := by
  unfold marksOf markLines
  apply List.ext_getElem?
  intro number
  rw [List.getElem?_mapIdx, List.getElem?_map]
  cases hline : (LineIndex.ofText text).lines[number]? with
  | none => rfl
  | some line =>
    rw [Option.map_some, Option.map_some, markOf, markOn,
      any_wholeLines hlex haligned hlines hwhole hline]

end Marking

section Erasing

variable {cuts : List Extent}

theorem erase_covers {start : Nat} {text : List Char} {parts : List (Nat × List Char)}
    (h : Covers start text parts) :
    erase cuts start text = parts.flatMap fun part => erase cuts part.1 part.2 := by
  induction parts generalizing start text with
  | nil =>
    obtain rfl : text = [] := h
    rfl
  | cons part parts ih =>
    obtain ⟨rfl, later, rfl, hlater⟩ := h
    rw [erase_append, List.flatMap_cons, ih hlater]

theorem erase_of_hits {start : Nat} {part : List Char}
    (h : ∀ offset c, charAt? offset part = some c → Hits cuts (start + offset)) :
    erase cuts start part = [] := by
  induction part generalizing start with
  | nil => rfl
  | cons c rest ih =>
    have hfirst : Hits cuts start := h 0 c rfl
    rw [erase, if_pos (List.any_eq_true.mpr hfirst)]
    apply ih
    intro offset d hd
    rw [Nat.add_assoc]
    exact h _ d ((charAt?_add c rest offset).trans hd)

theorem mem_erase {start : Nat} {c : Char} {part : List Char} :
    c ∈ erase cuts start part ↔
      ∃ offset, charAt? offset part = some c ∧ ¬ Hits cuts (start + offset) := by
  induction part generalizing start with
  | nil => simp [erase, charAt?]
  | cons first rest ih =>
    have hlater : c ∈ erase cuts (start + first.utf8Size) rest ↔
        ∃ offset, charAt? (first.utf8Size + offset) (first :: rest) = some c ∧
          ¬ Hits cuts (start + (first.utf8Size + offset)) := by
      rw [ih]
      simp only [charAt?_add, Nat.add_assoc]
    rw [erase]
    constructor
    · intro hmem
      by_cases hfirst : Hits cuts start
      · rw [if_pos (List.any_eq_true.mpr hfirst)] at hmem
        obtain ⟨offset, hoffset⟩ := hlater.mp hmem
        exact ⟨_, hoffset⟩
      · rw [if_neg (mt List.any_eq_true.mp hfirst)] at hmem
        rcases List.mem_cons.mp hmem with rfl | hmem
        · exact ⟨0, rfl, hfirst⟩
        · obtain ⟨offset, hoffset⟩ := hlater.mp hmem
          exact ⟨_, hoffset⟩
    · intro h
      obtain ⟨offset, hc, hleft⟩ := h
      by_cases hzero : offset = 0
      · subst hzero
        obtain rfl := Option.some.inj hc
        rw [if_neg (mt List.any_eq_true.mp (show ¬ Hits cuts start from hleft))]
        exact List.mem_cons_self
      · have hle : first.utf8Size ≤ offset := by
          by_contra hlt
          rw [charAt?, if_neg hzero, if_pos (by omega)] at hc
          simp at hc
        obtain ⟨further, rfl⟩ := Nat.exists_eq_add_of_le hle
        have hmem := hlater.mpr ⟨further, hc, hleft⟩
        split
        · exact hmem
        · exact List.mem_cons_of_mem first hmem

theorem flatMap_eq_filter {lines : List Line} {left : Line → List Char} {stays : Line → Bool}
    (h : ∀ line ∈ lines, left line = if stays line then line.text else []) :
    lines.flatMap left = (lines.filter stays).flatMap Line.text := by
  induction lines with
  | nil => rfl
  | cons line lines ih =>
    have hrest := ih fun other hother => h other (List.mem_cons_of_mem line hother)
    rw [List.flatMap_cons, hrest, h line List.mem_cons_self, List.filter_cons]
    split
    · rw [List.flatMap_cons]
    · rfl

end Erasing

def givenUp (text : List Char) (removals : List Extent) : List Line :=
  surplus true ((LineIndex.ofText text).lines.map fun line => (line, markOn removals line))

def isLeft (text : List Char) (removals : List Extent) (line : Line) : Bool :=
  !isTouched removals line && !(givenUp text removals).contains line

section Lines

variable {text : List Char} {tokens : List Token} {removals : List Extent} {line : Line}

/-- A blank line that is given up is one of the text and is not touched. -/
theorem mem_of_mem_givenUp (h : line ∈ givenUp text removals) :
    line ∈ (LineIndex.ofText text).lines ∧ isTouched removals line = false ∧
      line.isBlank = true := by
  obtain ⟨other, hother, heq⟩ := List.mem_map.mp (blank_of_mem_surplus h)
  obtain ⟨rfl, hmark⟩ := Prod.mk.inj heq
  refine ⟨hother, ?_⟩
  unfold markOn at hmark
  split at hmark
  · simp at hmark
  · split at hmark
    · simp_all
    · simp at hmark

theorem exists_mark (hline : line ∈ (LineIndex.ofText text).lines) (hstart : line.start = 0)
    (hmark : text.head? = some byteOrderMark) (htouched : isTouched removals line = true) :
    ∃ rest, line.text = byteOrderMark :: rest := by
  cases htext : line.text with
  | nil =>
    obtain ⟨-, -, offset, hlow, hhigh, -⟩ := isTouched_iff.mp htouched
    have hempty : line.stop = line.start + byteLength line.text := rfl
    rw [htext, byteLength] at hempty
    omega
  | cons c rest =>
    have hstands := LineIndex.stands_line hline
    have hfirst := hstands.head (show line.text.head? = some c by rw [htext]; rfl)
    rw [hstart, charAt?_zero hmark] at hfirst
    rw [Option.some.inj hfirst]
    exact ⟨rest, rfl⟩

variable (hlex : Token.lex text = .ok tokens)
  (haligned : ∀ removal ∈ removals, Aligned text tokens removal)
  (hlines : ∀ line ∈ (LineIndex.ofText text).lines, isTouched removals line = true →
    HoldsOnlyRemoved tokens removals line)
  (hwhole : ∀ removal ∈ removals, ¬ HoldsBrokenComment tokens removal)

include hlex haligned hlines hwhole

theorem mem_cuts_iff {cut : Extent} : cut ∈ (plan text tokens removals).cuts ↔
    (∃ line ∈ (LineIndex.ofText text).lines, isTouched removals line = true ∧
      cut = lineCut text line) ∨ ∃ line ∈ givenUp text removals, cut = line.extent := by
  rw [mem_cuts_plan, marksOf_eq_map hlex haligned hlines hwhole]
  constructor
  · rintro (⟨removal, hmem, htakes, -⟩ | ⟨number, line, hdeleted, rfl⟩ | hsurplus)
    · simp [takesLines_of_holdsOnlyRemoved hlex haligned hlines hwhole hmem] at htakes
    · obtain ⟨other, hother, heq⟩ := List.mem_map.mp (List.mem_of_getElem? hdeleted)
      obtain ⟨rfl, hmark⟩ := Prod.mk.inj heq
      refine Or.inl ⟨other, hother, ?_, rfl⟩
      unfold markOn at hmark
      split at hmark
      · assumption
      · split at hmark <;> simp at hmark
    · exact Or.inr hsurplus
  · rintro (⟨line, hmem, htouched, rfl⟩ | hsurplus)
    · obtain ⟨number, hline⟩ := List.mem_iff_getElem?.mp hmem
      refine Or.inr (Or.inl ⟨number, line, ?_, rfl⟩)
      rw [List.getElem?_map, hline, Option.map_some, markOn, if_pos htouched]
    · exact Or.inr (Or.inr hsurplus)

theorem hits_iff_of_line (hline : line ∈ (LineIndex.ofText text).lines) {offset : Nat}
    (hstart : line.start ≤ offset) (hstop : offset < line.stop) :
    Hits (plan text tokens removals).cuts offset ↔
      isTouched removals line = true ∧ (lineCut text line).contains offset = true ∨
        line ∈ givenUp text removals := by
  have hsame : ∀ {other : Line}, other ∈ (LineIndex.ofText text).lines → other.start ≤ offset →
      offset < other.stop → other = line := fun hother hlow hhigh =>
    (LineIndex.tiles_lines text).eq_of_contains hother hline
      (Extent.contains_iff.mpr ⟨hlow, hhigh⟩) (Extent.contains_iff.mpr ⟨hstart, hstop⟩)
  unfold Hits
  simp only [mem_cuts_iff hlex haligned hlines hwhole]
  constructor
  · rintro ⟨cut, ⟨other, hother, htouched, rfl⟩ | ⟨other, hgiven, rfl⟩, hcontains⟩
    · obtain ⟨hlow, hhigh⟩ := lineCut_contains hcontains
      obtain rfl := hsame hother hlow hhigh
      exact Or.inl ⟨htouched, hcontains⟩
    · obtain ⟨hlow, hhigh⟩ := Extent.contains_iff.mp hcontains
      obtain rfl := hsame (mem_of_mem_givenUp hgiven).1 hlow hhigh
      exact Or.inr hgiven
  · rintro (⟨htouched, hcontains⟩ | hgiven)
    · exact ⟨_, Or.inl ⟨line, hline, htouched, rfl⟩, hcontains⟩
    · exact ⟨_, Or.inr ⟨line, hgiven, rfl⟩, Extent.contains_iff.mpr ⟨hstart, hstop⟩⟩

/-- A line stays as it is or goes, up to a byte order mark. -/
theorem erase_line (hline : line ∈ (LineIndex.ofText text).lines) :
    erase (plan text tokens removals).cuts line.start line.text =
      if isLeft text removals line then line.text
      else if isTouched removals line ∧ line.start = 0 ∧ text.head? = some byteOrderMark then
        [byteOrderMark]
      else [] := by
  have hhits : ∀ {offset : Nat} {c : Char}, charAt? offset line.text = some c →
      (Hits (plan text tokens removals).cuts (line.start + offset) ↔
        isTouched removals line = true ∧ (lineCut text line).contains (line.start + offset) = true ∨
          line ∈ givenUp text removals) := by
    intro offset c hc
    have hlt := lt_of_charAt? hc
    refine hits_iff_of_line hlex haligned hlines hwhole hline (Nat.le_add_right _ _) ?_
    unfold Line.stop
    omega
  by_cases hgiven : line ∈ givenUp text removals
  · have huntouched := (mem_of_mem_givenUp hgiven).2.1
    rw [erase_of_hits fun offset c hc => (hhits hc).mpr (Or.inr hgiven)]
    simp [isLeft, hgiven, huntouched]
  cases htouched : isTouched removals line with
  | false =>
    rw [erase_of_not_hits fun offset c hc => by rw [hhits hc]; simp [htouched, hgiven]]
    simp [isLeft, htouched, hgiven]
  | true =>
    rw [if_neg (by simp [isLeft, htouched])]
    by_cases hmark : line.start = 0 ∧ text.head? = some byteOrderMark
    · rw [if_pos ⟨rfl, hmark⟩]
      obtain ⟨rest, htext⟩ := exists_mark hline hmark.1 hmark.2 htouched
      have hcut : lineCut text line = ⟨byteOrderMark.utf8Size, line.stop⟩ := by
        rw [lineCut, if_pos hmark]
      have hfirst : ¬ Hits (plan text tokens removals).cuts line.start := by
        have hc : charAt? 0 line.text = some byteOrderMark := by
          rw [htext]
          rfl
        rw [← Nat.add_zero line.start, hhits hc, hcut]
        rintro (⟨-, hcontains⟩ | hmem)
        · have hpositive := byteOrderMark.utf8Size_pos
          have hlow := (Extent.contains_iff.mp hcontains).1
          simp only [hmark.1] at hlow
          omega
        · exact hgiven hmem
      rw [htext, erase, if_neg (mt List.any_eq_true.mp hfirst), erase_of_hits]
      intro offset c hc
      rw [Nat.add_assoc]
      have hat : charAt? (byteOrderMark.utf8Size + offset) line.text = some c := by
        rw [htext, charAt?_add, hc]
      have hlt := lt_of_charAt? hat
      refine (hhits hat).mpr (Or.inl ⟨htouched, ?_⟩)
      rw [hcut]
      exact Extent.contains_iff.mpr ⟨by simp only; omega, Nat.add_lt_add_left hlt _⟩
    · rw [if_neg (by simpa using hmark)]
      apply erase_of_hits
      intro offset c hc
      have hlt := lt_of_charAt? hc
      refine (hhits hc).mpr (Or.inl ⟨htouched, ?_⟩)
      rw [lineCut, if_neg hmark]
      exact Extent.contains_iff.mpr ⟨Nat.le_add_right _ _, Nat.add_lt_add_left hlt _⟩

/-- What is left is the lines that stay, behind a byte order mark. -/
theorem remove_eq_lines :
    remove text tokens removals =
      (if ((LineIndex.ofText text).lines.head?).any (isTouched removals) ∧
          text.head? = some byteOrderMark then [byteOrderMark] else []) ++
        ((LineIndex.ofText text).lines.filter (isLeft text removals)).flatMap Line.text := by
  rw [remove_eq_erase text tokens removals fun cut => start_le_stop_of_mem_plan haligned,
    erase_covers (LineIndex.covers_lines text), List.flatMap_map]
  simp only [Line.part]
  have hline : ∀ line ∈ (LineIndex.ofText text).lines, _ :=
    fun line hmem => erase_line hlex haligned hlines hwhole hmem
  have hlater : ∀ (number : Nat) (line : Line),
      (LineIndex.ofText text).lines[number + 1]? = some line → line.start ≠ 0 := by
    intro number line hnumber
    have hlength := (List.getElem?_eq_some_iff.mp hnumber).1
    obtain ⟨previous, hprevious⟩ : ∃ previous, (LineIndex.ofText text).lines[number]? =
        some previous := ⟨_, List.getElem?_eq_getElem (by omega)⟩
    have hnonempty := LineIndex.start_lt_stop_of_next hprevious hlength
    have hstops := LineIndex.stop_eq_start hprevious hnumber
    omega
  cases hall : (LineIndex.ofText text).lines with
  | nil => simp
  | cons first rest =>
    rw [hall] at hline hlater
    have hfirst := hline first List.mem_cons_self
    have hhead : (LineIndex.ofText text).lines[0]? = some first := by
      rw [hall]
      rfl
    have hzero := LineIndex.start_eq_zero hhead
    have hrest : ∀ line ∈ rest, erase (plan text tokens removals).cuts line.start line.text =
        if isLeft text removals line then line.text else [] := by
      intro line hmem
      obtain ⟨number, hnumber⟩ := List.mem_iff_getElem?.mp hmem
      have hne := hlater number line (by simpa using hnumber)
      rw [hline line (List.mem_cons_of_mem _ hmem)]
      simp [hne]
    rw [List.flatMap_cons, flatMap_eq_filter hrest, List.filter_cons, List.head?_cons,
      Option.any_some, hfirst]
    by_cases hleft : isLeft text removals first = true
    · have huntouched : isTouched removals first = false := by
        simp only [isLeft, Bool.and_eq_true, Bool.not_eq_true'] at hleft
        exact hleft.1
      simp [hleft, huntouched]
    · simp [hleft, hzero]

end Lines

section Runs

variable {text : List Char} {removals : List Extent} {before run after : List Line}

theorem markOn_bne_solid (line : Line) :
    (markOn removals line != .solid) = (isTouched removals line || line.isBlank) := by
  unfold markOn
  cases isTouched removals line <;> cases line.isBlank <;> rfl

theorem markOn_beq_deleted (line : Line) :
    (markOn removals line == .deleted) = isTouched removals line := by
  unfold markOn
  cases isTouched removals line <;> cases line.isBlank <;> rfl

theorem keptLines_le (deleted : Line → Bool) (before run after : List Line) :
    keptLines deleted before run after ≤ (run.filter (!deleted ·)).length := by
  have htake : ∀ lines : List Line,
      (lines.takeWhile (!deleted ·)).length ≤ (lines.filter (!deleted ·)).length := by
    intro lines
    have hall : (lines.takeWhile (!deleted ·)).filter (!deleted ·) =
        lines.takeWhile (!deleted ·) :=
      List.filter_eq_self.mpr fun line hline => List.all_eq_true.mp List.all_takeWhile line hline
    rw [← hall]
    exact ((List.takeWhile_sublist _).filter _).length_le
  have hleading := htake run
  have htrailing := htake run.reverse
  rw [List.filter_reverse, List.length_reverse] at htrailing
  unfold keptLines
  simp only
  split
  · exact hleading
  · split
    · exact htrailing
    · exact Nat.max_le.mpr ⟨hleading, htrailing⟩

/-- A run gives up all its blank lines but the first ones. -/
theorem surplusOfRun_markOn (hdeleted : ∃ line ∈ run, isTouched removals line = true) :
    surplusOfRun before.isEmpty (after.all (·.text.isEmpty))
        (run.map fun line => (line, markOn removals line)) =
      (run.filter (!isTouched removals ·)).drop
        (keptLines (isTouched removals) before run after) := by
  have hstays : ((fun entry : Line × Mark => entry.2 != .deleted) ∘
      fun line => (line, markOn removals line)) = (!isTouched removals ·) := by
    funext line
    rw [Function.comp_apply, bne, markOn_beq_deleted]
  have hany : ((run.map fun line => (line, markOn removals line)).any
      fun entry => entry.2 == .deleted) = true := by
    obtain ⟨line, hmem, htouched⟩ := hdeleted
    rw [List.any_map]
    exact List.any_eq_true.mpr ⟨line, hmem, (markOn_beq_deleted line).trans htouched⟩
  have hkept : kept before.isEmpty (after.all (·.text.isEmpty))
      (run.map fun line => (line, markOn removals line)) =
        keptLines (isTouched removals) before run after := by
    unfold kept keptLines
    simp only [← List.map_reverse, List.takeWhile_map, hstays, List.length_map, List.isEmpty_iff]
  unfold surplusOfRun
  rw [if_pos hany, hkept, List.filter_map, hstays, ← List.map_drop, List.map_map]
  exact List.map_id _

/-- What is not among the last lines is among the first ones. -/
theorem filter_not_contains {first last : List Line} (h : (first ++ last).Nodup) :
    (first ++ last).filter (!last.contains ·) = first := by
  obtain ⟨-, -, hapart⟩ := List.nodup_append.mp h
  have hfirst : first.filter (!last.contains ·) = first := by
    apply List.filter_eq_self.mpr
    intro line hline
    have hnot : line ∉ last := fun hlast => hapart line hline line hlast rfl
    simpa using hnot
  have hlast : last.filter (!last.contains ·) = [] := by
    apply List.filter_eq_nil_iff.mpr
    intro line hline
    simpa using hline
  rw [List.filter_append, hfirst, hlast, List.append_nil]

/-- Of the lines of a run, those are given up that the run itself gives up. -/
theorem mem_givenUp_iff
    (h : IsRun (fun line => isTouched removals line || line.isBlank) (LineIndex.ofText text).lines
      before run after) {line : Line} (hmem : line ∈ run) :
    line ∈ givenUp text removals ↔
      line ∈ surplusOfRun before.isEmpty (after.all (·.text.isEmpty))
        (run.map fun line => (line, markOn removals line)) := by
  have hnodup := LineIndex.nodup_lines text
  rw [h.split, List.nodup_append, List.nodup_append] at hnodup
  obtain ⟨-, ⟨-, -, hafter⟩, hbefore⟩ := hnodup
  have hmarked : IsRun (fun entry => entry.2 != .solid)
      ((LineIndex.ofText text).lines.map fun line => (line, markOn removals line))
      (before.map fun line => (line, markOn removals line))
      (run.map fun line => (line, markOn removals line))
      (after.map fun line => (line, markOn removals line)) := by
    apply IsRun.map
    simpa only [markOn_bne_solid] using h
  obtain ⟨earlier, later, hsurplus, hearlier, hlater⟩ :=
    surplus_of_isRun hmarked (by simp [List.ne_nil_of_mem hmem]) true
  have hnotearlier : line ∉ earlier := by
    intro hline
    obtain ⟨mark, hmark⟩ := hearlier line hline
    obtain ⟨other, hother, heq⟩ := List.mem_map.mp hmark
    obtain ⟨rfl, -⟩ := Prod.mk.inj heq
    exact hbefore other hother other (List.mem_append_left _ hmem) rfl
  have hnotlater : line ∉ later := by
    intro hline
    obtain ⟨mark, hmark⟩ := hlater line hline
    obtain ⟨other, hother, heq⟩ := List.mem_map.mp hmark
    obtain ⟨rfl, -⟩ := Prod.mk.inj heq
    exact hafter other hmem other hother rfl
  rw [givenUp, hsurplus, List.mem_append, List.mem_append]
  simp only [hnotearlier, hnotlater, false_or, or_false, Bool.true_and, List.isEmpty_map,
    List.all_map]
  rfl

/-- A run keeps its first blank lines. -/
theorem DeletedRun.filter_isLeft (h : DeletedRun text removals before run after) :
    run.filter (isLeft text removals) = (run.filter (!isTouched removals ·)).take
      (keptLines (isTouched removals) before run after) := by
  have hnodup : (run.filter (!isTouched removals ·)).Nodup := by
    have hsublist : run.Sublist (LineIndex.ofText text).lines := by
      rw [h.isRun.split]
      exact (List.sublist_append_left run after).trans (List.sublist_append_right before _)
    exact (LineIndex.nodup_lines text).sublist (List.filter_sublist.trans hsublist)
  have hgiven : ∀ line ∈ run, (givenUp text removals).contains line =
      ((run.filter (!isTouched removals ·)).drop
        (keptLines (isTouched removals) before run after)).contains line := by
    intro line hmem
    rw [← surplusOfRun_markOn h.deleted, Bool.eq_iff_iff, List.contains_iff_mem,
      List.contains_iff_mem]
    exact mem_givenUp_iff h.isRun hmem
  calc run.filter (isLeft text removals)
    _ = (run.filter (!isTouched removals ·)).filter (!(givenUp text removals).contains ·) := by
        rw [List.filter_filter]
        exact List.filter_congr fun line _ => Bool.and_comm _ _
    _ = (run.filter (!isTouched removals ·)).filter
          (!((run.filter (!isTouched removals ·)).drop
            (keptLines (isTouched removals) before run after)).contains ·) := by
        apply List.filter_congr
        intro line hline
        rw [hgiven line (List.mem_filter.mp hline).1]
    _ = (run.filter (!isTouched removals ·)).take
          (keptLines (isTouched removals) before run after) := by
        rw [← List.take_append_drop (keptLines (isTouched removals) before run after)
          (run.filter (!isTouched removals ·))] at hnodup
        have hfirst := filter_not_contains hnodup
        rwa [List.take_append_drop] at hfirst

/-- A line that goes lies in a run in which a line is deleted. -/
theorem exists_deletedRun {line : Line} (hline : line ∈ (LineIndex.ofText text).lines)
    (hleft : isLeft text removals line = false) :
    ∃ before run after, DeletedRun text removals before run after ∧ line ∈ run := by
  have hgoes : isTouched removals line = true ∨ line ∈ givenUp text removals := by
    simp only [isLeft, Bool.and_eq_false_iff, Bool.not_eq_false', List.contains_iff_mem] at hleft
    exact hleft
  have htest : (isTouched removals line || line.isBlank) = true := by
    rcases hgoes with htouched | hgiven
    · rw [htouched, Bool.true_or]
    · rw [(mem_of_mem_givenUp hgiven).2.2, Bool.or_true]
  obtain ⟨before, run, after, hrun, hmem⟩ :=
    exists_isRun (fun line => isTouched removals line || line.isBlank) hline htest
  refine ⟨before, run, after, ⟨hrun, ?_⟩, hmem⟩
  rcases hgoes with htouched | hgiven
  · exact ⟨line, hmem, htouched⟩
  · have hsurplus := (mem_givenUp_iff hrun hmem).mp hgiven
    unfold surplusOfRun at hsurplus
    split at hsurplus
    · rename_i hany
      obtain ⟨entry, hentry, hmark⟩ := List.any_eq_true.mp hany
      obtain ⟨deleted, hdeleted, rfl⟩ := List.mem_map.mp hentry
      exact ⟨deleted, hdeleted, (markOn_beq_deleted deleted).symm.trans hmark⟩
    · simp at hsurplus

end Runs

section Counting

variable {text left : List Char} {removals : List Extent} {stays : Line → Bool} {cuts : List Extent}

theorem count_erase {start : Nat} {part : List Char} {c : Char}
    (h : ∀ offset, charAt? offset part = some c → ¬ Hits cuts (start + offset)) :
    (erase cuts start part).count c = part.count c := by
  induction part generalizing start with
  | nil => rfl
  | cons first rest ih =>
    have hrest : (erase cuts (start + first.utf8Size) rest).count c = rest.count c := by
      apply ih
      intro offset hc
      rw [Nat.add_assoc]
      exact h _ ((charAt?_add first rest offset).trans hc)
    rw [erase]
    by_cases hfirst : Hits cuts start
    · have hne : first ≠ c := by
        rintro rfl
        exact h 0 rfl hfirst
      rw [if_pos (List.any_eq_true.mpr hfirst), hrest, List.count_cons_of_ne hne]
    · rw [if_neg (mt List.any_eq_true.mp hfirst), List.count_cons, List.count_cons, hrest]

/-- If something is left of a line that does not stay, more is left than the lines that do. -/
theorem count_stays_lt {lines : List Line} {part : Line → List Char} {c : Char}
    (hstays : ∀ line ∈ lines, stays line = true → (part line).count c = line.text.count c)
    (hlost : ∃ line ∈ lines, stays line = false ∧ c ∈ part line) :
    ((lines.filter stays).flatMap Line.text).count c < (lines.flatMap part).count c := by
  have hle : ∀ some : List Line, (∀ line ∈ some, line ∈ lines) →
      ((some.filter stays).flatMap Line.text).count c ≤ (some.flatMap part).count c := by
    intro some hsome
    induction some with
    | nil => exact Nat.le_refl _
    | cons line some ih =>
      have hrest := ih fun other hother => hsome other (List.mem_cons_of_mem line hother)
      rw [List.filter_cons, List.flatMap_cons, List.count_append]
      split
      · rename_i hline
        have hsame := hstays line (hsome line List.mem_cons_self) hline
        rw [List.flatMap_cons, List.count_append]
        omega
      · omega
  obtain ⟨line, hline, hgoes, hmem⟩ := hlost
  obtain ⟨before, after, rfl⟩ := List.append_of_mem hline
  have hbefore := hle before fun other hother => List.mem_append_left _ hother
  have hafter := hle after fun other hother =>
    List.mem_append_right _ (List.mem_cons_of_mem line hother)
  have hpositive := List.count_pos_iff.mpr hmem
  rw [List.filter_append, List.filter_cons_of_neg (by simp [hgoes])]
  simp only [List.flatMap_append, List.flatMap_cons, List.count_append]
  omega

theorem Condensed.isTouched_eq_false (h : Condensed text removals left stays) {line : Line}
    (hline : line ∈ (LineIndex.ofText text).lines) (hstays : stays line = true) :
    isTouched removals line = false := by
  cases htouched : isTouched removals line with
  | false => rfl
  | true =>
    obtain ⟨before, run, after, hrun, hmem⟩ :=
      exists_isRun (fun line => isTouched removals line || line.isBlank) hline (by simp [htouched])
    have hkept := (h.runs before run after ⟨hrun, line, hmem, htouched⟩).2
    have hleft : line ∈ run.filter stays := List.mem_filter.mpr ⟨hmem, hstays⟩
    rw [hkept] at hleft
    have huntouched := (List.mem_filter.mp (List.mem_of_mem_take hleft)).2
    simp [htouched] at huntouched

/-- The line feeds that are left are those of the lines that stay. -/
theorem Condensed.count_feeds (h : Condensed text removals left stays) :
    left.count '\n' =
      (((LineIndex.ofText text).lines.filter stays).flatMap Line.text).count '\n' := by
  rw [h.left_eq, List.count_append]
  split
  · simp [byteOrderMark]
  · simp

end Counting

end Excision

namespace Source

open Excision Text

/-- An import that is cut out of its lines leaves a line feed that is gone where its lines are. -/
theorem Selects.not_condensed {source : Source} {text : List Char} {chosen : List ImportStatement}
    (h : source.Selects text chosen) {removal : Extent}
    (hbytes : source.bytesOfImports chosen = [removal])
    (hended : ∃ feed, removal.stop ≤ feed ∧ charAt? feed text = some '\n')
    (hbroken : HoldsBrokenComment source.tokens removal) :
    ¬ ∃ stays, Condensed text [removal] (remove text source.tokens [removal]) stays := by
  rintro ⟨stays, hcondensed⟩
  have hmem : removal ∈ source.bytesOfImports chosen := by simp [hbytes]
  have haligned := h.aligned_bytes removal hmem
  have htakes : takesLines (.ofText text) source.tokens [removal] removal = false :=
    takesLines_of_broken h.lexed haligned hbroken
  have hfeeds := hcondensed.count_feeds
  rw [remove_eq_erase text source.tokens [removal] fun cut => start_le_stop_of_mem_plan
      (hbytes ▸ h.aligned_bytes),
    erase_covers (LineIndex.covers_lines text), List.flatMap_map] at hfeeds
  refine Nat.ne_of_gt (count_stays_lt ?_ ?_) hfeeds
  · -- The line feed of a line that stays is none of the import.
    intro line hline hstays
    apply count_erase
    intro offset hat hhits
    have hlt := lt_of_charAt? hat
    have hinside := contains_of_hits_feed haligned htakes
      (((LineIndex.stands_line hline).charAt? hlt).trans hat) hhits
    have htouched := isTouched_iff.mpr ⟨removal, List.mem_singleton_self removal,
      line.start + offset, Nat.le_add_right _ _, Nat.add_lt_add_left hlt _, hinside⟩
    simp [hcondensed.isTouched_eq_false hline hstays] at htouched
  · -- The line on which the import ends does not stay, and its line feed is left.
    obtain ⟨feed, last, c, hafter, hfeed, hlast, -, -, hnone⟩ := h.exists_feed hmem hended
    obtain ⟨line, hline, hstart, hstop⟩ := LineIndex.exists_line (lt_of_charAt? hfeed)
    have hlinemem := List.mem_of_getElem? hline
    have hlinestart := LineIndex.start_le_of_no_feed hlinemem hstart hnone
    have hbounds := Extent.contains_iff.mp hlast
    refine ⟨line, hlinemem, ?_, ?_⟩
    · by_contra hstays
      have htouched := isTouched_iff.mpr ⟨removal, List.mem_singleton_self removal, last,
        hlinestart, by omega, hlast⟩
      simp [hcondensed.isTouched_eq_false hlinemem (by simpa using hstays)] at htouched
    · obtain ⟨offset, rfl⟩ := Nat.exists_eq_add_of_le hstart
      refine mem_erase.mpr ⟨offset, ?_, fun hhits => ?_⟩
      · have hlt : offset < byteLength line.text := Nat.lt_of_add_lt_add_left hstop
        exact ((LineIndex.stands_line hlinemem).charAt? hlt).symm.trans hfeed
      · have hinside := Extent.contains_iff.mp (contains_of_hits_feed haligned htakes hfeed hhits)
        omega

/-- Where the lines of the removed imports hold nothing else but white space and comments of one
line, what is left keeps the density of blank lines, unless a removed import holds a comment that
goes over several lines: each run of deleted and blank lines keeps the first of its blank lines, as
many as the larger group at its ends has or the one group that has something beside it, and all
other lines stay. Of a single import with a line feed behind it this holds exactly if the import
holds no such comment. -/
theorem condensed_remove {text : List Char} {source : Source} (h : read text = .ok source)
    {chosen : List ImportStatement}
    (hchosen : ∀ statement ∈ chosen, statement ∈ source.outline.imports)
    (hlines : ∀ line ∈ (LineIndex.ofText text).lines,
      isTouched (source.bytesOfImports chosen) line = true →
        HoldsOnlyRemoved source.tokens (source.bytesOfImports chosen) line) :
    ((∀ removal ∈ source.bytesOfImports chosen, ¬ HoldsBrokenComment source.tokens removal) →
      ∃ stays, Condensed text (source.bytesOfImports chosen)
        (remove text source.tokens (source.bytesOfImports chosen)) stays) ∧
    ∀ removal, source.bytesOfImports chosen = [removal] →
      (∃ feed, removal.stop ≤ feed ∧ charAt? feed text = some '\n') →
        ((∃ stays, Condensed text [removal] (remove text source.tokens [removal]) stays) ↔
          ¬ HoldsBrokenComment source.tokens removal) := by
  obtain ⟨-, -, hlex, houtline⟩ := of_read h
  have hselects : source.Selects text chosen := ⟨hlex, houtline, hchosen⟩
  have hcondensed : (∀ removal ∈ source.bytesOfImports chosen,
      ¬ HoldsBrokenComment source.tokens removal) →
        ∃ stays, Condensed text (source.bytesOfImports chosen)
          (remove text source.tokens (source.bytesOfImports chosen)) stays := by
    intro hwhole
    refine ⟨isLeft text (source.bytesOfImports chosen), ?_, ?_, ?_⟩
    · exact remove_eq_lines hlex hselects.aligned_bytes hlines hwhole
    · intro before run after hrun
      exact ⟨keptLines_le _ before run after, hrun.filter_isLeft⟩
    · intro line hline hgoes
      exact exists_deletedRun hline hgoes
  refine ⟨hcondensed, fun removal hbytes hended => ⟨fun hdense hbroken => ?_, fun hwhole => ?_⟩⟩
  · exact hselects.not_condensed hbytes hended hbroken hdense
  · rw [hbytes] at hcondensed
    exact hcondensed (by simpa using hwhole)

/-- Two imports with one blank line before them, two between them and two behind them. -/
theorem condensed_remove_apart :
    ∃ text source, text = "x\n\nimport a.B\n\n\nimport c.D // e\n\n\ny\n".toList ∧
      read text = .ok source ∧
      source.bytesOfImports source.outline.imports = [⟨3, 13⟩, ⟨16, 26⟩] ∧
      (∀ line ∈ (LineIndex.ofText text).lines, isTouched [⟨3, 13⟩, ⟨16, 26⟩] line = true →
        HoldsOnlyRemoved source.tokens [⟨3, 13⟩, ⟨16, 26⟩] line) ∧
      (∀ removal ∈ ([⟨3, 13⟩, ⟨16, 26⟩] : List Extent),
        ¬ HoldsBrokenComment source.tokens removal) ∧
      ∃ stays, Condensed text [⟨3, 13⟩, ⟨16, 26⟩]
        (remove text source.tokens [⟨3, 13⟩, ⟨16, 26⟩]) stays := by
  have hrun : ((read "x\n\nimport a.B\n\n\nimport c.D // e\n\n\ny\n".toList).toOption.any
      fun source => source.bytesOfImports source.outline.imports = [⟨3, 13⟩, ⟨16, 26⟩] ∧
        (∀ line ∈ (LineIndex.ofText
            "x\n\nimport a.B\n\n\nimport c.D // e\n\n\ny\n".toList).lines,
          isTouched [⟨3, 13⟩, ⟨16, 26⟩] line = true →
            HoldsOnlyRemoved source.tokens [⟨3, 13⟩, ⟨16, 26⟩] line) ∧
        ∀ removal ∈ ([⟨3, 13⟩, ⟨16, 26⟩] : List Extent),
          ¬ HoldsBrokenComment source.tokens removal) = true := by
    decide +kernel
  generalize "x\n\nimport a.B\n\n\nimport c.D // e\n\n\ny\n".toList = text at hrun ⊢
  cases hread : read text with
  | error failure => simp [hread, Except.toOption] at hrun
  | ok source =>
    simp only [hread, Except.toOption, Option.any_some, decide_eq_true_eq] at hrun
    obtain ⟨hbytes, hlines, hwhole⟩ := hrun
    refine ⟨text, source, rfl, hread, hbytes, hlines, hwhole, ?_⟩
    rw [← hbytes] at hlines hwhole ⊢
    exact (condensed_remove hread (fun _ hmem => hmem) hlines).1 hwhole

/-- The lines of the import hold nothing else, and yet an empty line is left of them. -/
theorem not_condensed_remove :
    ∃ text source, text = "x\nimport a./*\n*/B\ny\n".toList ∧ read text = .ok source ∧
      source.bytesOfImports source.outline.imports = [⟨2, 17⟩] ∧
      (∀ line ∈ (LineIndex.ofText text).lines, isTouched [⟨2, 17⟩] line = true →
        HoldsOnlyRemoved source.tokens [⟨2, 17⟩] line) ∧
      remove text source.tokens [⟨2, 17⟩] = "x\n\ny\n".toList ∧
      ¬ ∃ stays, Condensed text [⟨2, 17⟩] (remove text source.tokens [⟨2, 17⟩]) stays := by
  have hrun : ((read "x\nimport a./*\n*/B\ny\n".toList).toOption.any fun source =>
      source.bytesOfImports source.outline.imports = [⟨2, 17⟩] ∧
        (∀ line ∈ (LineIndex.ofText "x\nimport a./*\n*/B\ny\n".toList).lines,
          isTouched [⟨2, 17⟩] line = true → HoldsOnlyRemoved source.tokens [⟨2, 17⟩] line) ∧
        remove "x\nimport a./*\n*/B\ny\n".toList source.tokens [⟨2, 17⟩] =
          "x\n\ny\n".toList ∧
        HoldsBrokenComment source.tokens ⟨2, 17⟩ ∧
        charAt? 17 "x\nimport a./*\n*/B\ny\n".toList = some '\n') = true := by
    decide +kernel
  generalize "x\nimport a./*\n*/B\ny\n".toList = text at hrun ⊢
  cases hread : read text with
  | error failure => simp [hread, Except.toOption] at hrun
  | ok source =>
    simp only [hread, Except.toOption, Option.any_some, decide_eq_true_eq] at hrun
    obtain ⟨hbytes, hlines, hremove, hbroken, hfeed⟩ := hrun
    obtain ⟨-, -, hlex, houtline⟩ := of_read hread
    have hselects : source.Selects text source.outline.imports :=
      ⟨hlex, houtline, fun _ hmem => hmem⟩
    exact ⟨text, source, rfl, hread, hbytes, hlines, hremove,
      hselects.not_condensed hbytes ⟨17, Nat.le_refl _, hfeed⟩ hbroken⟩

end Source

end UnusedImports
