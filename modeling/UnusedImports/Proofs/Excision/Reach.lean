import UnusedImports.Proofs.Excision.Shelter

/-!
What the cuts of a plan reach. They take every byte of the removed statements. Of what lies
outside, they take spacing, and comments only on lines that a removed statement touches. A
byte order mark is out of their reach.
-/
namespace UnusedImports.Excision

open UnusedImports.Text

def Hits (cuts : List Extent) (offset : Nat) : Prop := ∃ cut ∈ cuts, cut.contains offset = true

section Erasing

variable {cuts others : List Extent}

theorem charAt?_add (c : Char) (rest : List Char) (offset : Nat) :
    charAt? (c.utf8Size + offset) (c :: rest) = charAt? offset rest := by
  have hright := charAt?_append_right [c] rest offset
  simpa only [byteLength, Nat.add_zero, List.singleton_append] using hright

/-- What is left is told by which characters are hit. -/
theorem erase_eq_erase {start : Nat} {text : List Char}
    (h : ∀ offset c, charAt? offset text = some c →
      (Hits cuts (start + offset) ↔ Hits others (start + offset))) :
    erase cuts start text = erase others start text := by
  induction text generalizing start with
  | nil => rfl
  | cons c rest ih =>
    have hfirst : (cuts.any fun cut => cut.contains start) =
        others.any fun cut => cut.contains start := by
      rw [Bool.eq_iff_iff, List.any_eq_true, List.any_eq_true]
      exact h 0 c rfl
    rw [erase, erase, hfirst, ih]
    intro offset d hd
    rw [Nat.add_assoc]
    exact h _ d ((charAt?_add c rest offset).trans hd)

/-- To hit fewer characters leaves more of them. -/
theorem length_erase_le {start : Nat} {text : List Char}
    (h : ∀ offset c, charAt? offset text = some c → Hits others (start + offset) →
      Hits cuts (start + offset)) :
    (erase cuts start text).length ≤ (erase others start text).length := by
  induction text generalizing start with
  | nil => exact Nat.le_refl _
  | cons c rest ih =>
    have hrest : (erase cuts (start + c.utf8Size) rest).length ≤
        (erase others (start + c.utf8Size) rest).length := by
      apply ih
      intro offset d hd
      rw [Nat.add_assoc]
      exact h _ d ((charAt?_add c rest offset).trans hd)
    rw [erase, erase]
    by_cases hfirst : (others.any fun cut => cut.contains start) = true
    · have hhits : (cuts.any fun cut => cut.contains start) = true :=
        List.any_eq_true.mpr (h 0 c rfl (List.any_eq_true.mp hfirst))
      rw [if_pos hfirst, if_pos hhits]
      exact hrest
    · rw [if_neg hfirst]
      split
      · exact Nat.le_succ_of_le hrest
      · exact Nat.succ_le_succ hrest

/-- One character that is not hit any more makes what is left longer. -/
theorem length_erase_lt {start : Nat} {text : List Char}
    (h : ∀ offset c, charAt? offset text = some c → Hits others (start + offset) →
      Hits cuts (start + offset))
    {offset : Nat} {c : Char} (hc : charAt? offset text = some c)
    (hhits : Hits cuts (start + offset)) (hnot : ¬ Hits others (start + offset)) :
    (erase cuts start text).length < (erase others start text).length := by
  obtain ⟨before, after, rfl, rfl⟩ := exists_of_charAt? hc
  have hbefore : (erase cuts start before).length ≤ (erase others start before).length := by
    apply length_erase_le
    intro offset d hd
    exact h offset d ((charAt?_append_left (lt_of_charAt? hd) _).trans hd)
  have hafter : (erase cuts (start + byteLength before + c.utf8Size) after).length ≤
      (erase others (start + byteLength before + c.utf8Size) after).length := by
    apply length_erase_le
    intro offset d hd
    rw [Nat.add_assoc, Nat.add_assoc]
    refine h _ d ?_
    rw [charAt?_append_right, charAt?_add, hd]
  rw [erase_append, erase_append, List.length_append, List.length_append, erase, erase,
    if_pos (List.any_eq_true.mpr hhits), if_neg (mt List.any_eq_true.mp hnot), List.length_cons]
  omega

end Erasing

section Reaching

variable {text : List Char} {tokens : List Token} {removals : List Extent}

theorem charAt?_zero {c : Char} (h : text.head? = some c) : charAt? 0 text = some c := by
  obtain ⟨rest, rfl⟩ := List.head?_eq_some_iff.mp h
  rfl

/-- A statement that takes its lines with it marks each of them as deleted. -/
theorem deleted_of_takesLines {removal : Extent} (hmem : removal ∈ removals)
    (htakes : takesLines (.ofText text) tokens removals removal = true) {number : Nat} {line : Line}
    (hline : (LineIndex.ofText text).lines[number]? = some line)
    (hcontains : (linesOf (.ofText text) removal).contains number = true) :
    (marksOf text tokens removals)[number]? = some (line, .deleted) := by
  apply getElem?_marksOf.mpr
  refine ⟨hline, ?_⟩
  unfold markOf
  rw [if_pos]
  apply List.any_eq_true.mpr
  exact ⟨linesOf (.ofText text) removal,
    List.mem_map_of_mem (List.mem_filter.mpr ⟨hmem, htakes⟩), hcontains⟩

/-- The line of an offset of a statement is one of the lines that the statement touches. -/
theorem contains_linesOf {removal : Extent} (haligned : Aligned text tokens removal)
    {offset : Nat} (hcontains : removal.contains offset = true) :
    ∃ line, (LineIndex.ofText text).lines[(LineIndex.ofText text).lineOf offset]? = some line ∧
      line.start ≤ offset ∧ offset < line.stop ∧
      (linesOf (.ofText text) removal).contains ((LineIndex.ofText text).lineOf offset) = true := by
  have hforward := haligned.start_lt_stop
  have hend := haligned.stop_le
  obtain ⟨hlow, hhigh⟩ := Extent.contains_iff.mp hcontains
  have hmax : max (removal.stop - 1) removal.start = removal.stop - 1 := by omega
  obtain ⟨first, hfirst, hfirststart, -⟩ :=
    LineIndex.exists_line (show removal.start < byteLength text by omega)
  obtain ⟨line, hline, hstart, hstop⟩ :=
    LineIndex.exists_line (show offset < byteLength text by omega)
  obtain ⟨last, hlast, -, hlaststop⟩ :=
    LineIndex.exists_line (show removal.stop - 1 < byteLength text by omega)
  refine ⟨line, hline, hstart, hstop, ?_⟩
  apply Extent.contains_iff.mpr
  unfold linesOf
  simp only [hmax]
  constructor
  · exact number_le_number hfirst hline hfirststart hstop hlow
  · apply Nat.lt_succ_of_le
    exact number_le_number hline hlast hstart hlaststop (by omega)

/-- Every byte of a removed statement is cut, if no statement starts with a byte order mark. -/
theorem hits_of_removed (haligned : ∀ removal ∈ removals, Aligned text tokens removal)
    (hmark : ∀ removal ∈ removals, charAt? removal.start text ≠ some byteOrderMark)
    {removal : Extent} (hmem : removal ∈ removals) {offset : Nat}
    (hcontains : removal.contains offset = true) :
    Hits (plan text tokens removals).cuts offset := by
  obtain ⟨hlow, hhigh⟩ := Extent.contains_iff.mp hcontains
  by_cases htakes : takesLines (.ofText text) tokens removals removal = true
  · obtain ⟨line, hline, hstart, hstop, hlines⟩ :=
      contains_linesOf (haligned removal hmem) hcontains
    have hdeleted := deleted_of_takesLines hmem htakes hline hlines
    refine ⟨lineCut text line, mem_cuts_plan.mpr (Or.inr (Or.inl ⟨_, line, hdeleted, rfl⟩)), ?_⟩
    unfold lineCut
    by_cases hopens : line.start = 0 ∧ text.head? = some byteOrderMark
    · rw [if_pos hopens]
      refine Extent.contains_iff.mpr ⟨?_, hstop⟩
      by_cases hle : byteOrderMark.utf8Size ≤ offset
      · exact hle
      · -- The statement would start with the mark.
        obtain ⟨c, hc⟩ := (haligned removal hmem).starts
        have hzero := charAt?_zero hopens.2
        have heq := eq_of_charAt? hzero hc (Nat.zero_le _) (by omega)
        rw [heq] at hzero
        exact absurd hzero (hmark removal hmem)
    · rw [if_neg hopens]
      exact Extent.contains_iff.mpr ⟨hstart, hstop⟩
  · obtain ⟨left, right, hcut, -, -⟩ := exists_partialCutOf (haligned removal hmem)
    refine ⟨_, mem_cuts_plan.mpr (Or.inl ⟨removal, hmem, by simpa using htakes, rfl⟩), ?_⟩
    rw [hcut]
    exact Extent.contains_iff.mpr ⟨by simp only; omega, by simp only; omega⟩

/-- What is sheltered is not cut. -/
theorem Sheltered.not_hits (hlex : Token.lex text = .ok tokens)
    (haligned : ∀ removal ∈ removals, Aligned text tokens removal) {offset : Nat}
    (h : Sheltered text tokens removals offset) :
    ¬ Hits (plan text tokens removals).cuts offset := by
  intro hhits
  obtain ⟨cut, hcut, hcontains⟩ := hhits
  simp [h.not_contains hlex haligned hcut] at hcontains

theorem start_le_stop_of_mem_plan (haligned : ∀ removal ∈ removals, Aligned text tokens removal)
    {cut : Extent} (hcut : cut ∈ (plan text tokens removals).cuts) : cut.start ≤ cut.stop := by
  rcases mem_cuts_plan.mp hcut with
    ⟨removal, hremoval, -, rfl⟩ | ⟨number, line, hdeleted, rfl⟩ | ⟨line, -, rfl⟩
  · obtain ⟨left, right, hcut, -, -⟩ := exists_partialCutOf (haligned removal hremoval)
    have hforward := (haligned removal hremoval).start_lt_stop
    rw [hcut]
    simp only
    omega
  · obtain ⟨hline, -⟩ := getElem?_marksOf.mp hdeleted
    obtain ⟨removal, hremoval, hnumber, -⟩ := exists_removal_of_deleted hdeleted
    obtain ⟨offset, hstart, hstop, -⟩ := exists_offset_of_linesOf
      (haligned removal hremoval).start_lt_stop (haligned removal hremoval).stop_le hline hnumber
    unfold lineCut
    by_cases hopens : line.start = 0 ∧ text.head? = some byteOrderMark
    · rw [if_pos hopens]
      have hstands := LineIndex.stands_line (List.mem_of_getElem? hline)
      have hinside := charAt?_zero hopens.2
      rw [hstands.charAt?_sub (by omega) (show 0 < line.stop by omega), hopens.1] at hinside
      have hsize := add_utf8Size_le hinside
      show byteOrderMark.utf8Size ≤ line.start + byteLength line.text
      omega
    · rw [if_neg hopens]
      exact Nat.le_add_right _ _
  · exact Nat.le_add_right _ _

/-- No cut takes a byte order mark away. -/
theorem not_hits_of_mark (haligned : ∀ removal ∈ removals, Aligned text tokens removal)
    (hmark : ∀ removal ∈ removals, charAt? removal.start text ≠ some byteOrderMark)
    (hhead : text.head? = some byteOrderMark) : ¬ Hits (plan text tokens removals).cuts 0 := by
  have hzero := charAt?_zero hhead
  intro hcase
  obtain ⟨cut, hcut, hcontains⟩ := hcase
  rcases mem_cuts_plan.mp hcut with
    ⟨removal, hremoval, -, rfl⟩ | ⟨number, line, hdeleted, rfl⟩ | ⟨line, hsurplus, rfl⟩
  · obtain ⟨left, right, hcut, hleft, -⟩ := exists_partialCutOf (haligned removal hremoval)
    rw [hcut] at hcontains
    by_cases hstart : removal.start = 0
    · exact hmark removal hremoval (hstart ▸ hzero)
    · obtain ⟨c, hc, hspace⟩ := hleft 0 (Extent.contains_iff.mp hcontains).1 (by omega)
      rw [← Option.some.inj (hzero.symm.trans hc)] at hspace
      exact absurd hspace (by decide)
  · unfold lineCut at hcontains
    by_cases hopens : line.start = 0 ∧ text.head? = some byteOrderMark
    · rw [if_pos hopens] at hcontains
      have hstart : byteOrderMark.utf8Size ≤ 0 := (Extent.contains_iff.mp hcontains).1
      exact absurd hstart (by decide)
    · rw [if_neg hopens] at hcontains
      have hstart : line.start ≤ 0 := (Extent.contains_iff.mp hcontains).1
      exact hopens ⟨by omega, hhead⟩
  · obtain ⟨number, deleted, other, hblank, -, -⟩ := exists_deleted_of_mem_surplus hsurplus
    have hspacing := isSpacing_of_blank hblank hzero hcontains
    exact absurd hspacing (by decide)

theorem exists_head_of_comment (hlex : Token.lex text = .ok tokens) {token : Token}
    (htoken : token ∈ tokens) (hcomment : token.kind = .comment) :
    ∃ c, charAt? token.start text = some c ∧ isSpacing c = false := by
  obtain ⟨position, hposition⟩ := List.mem_iff_getElem?.mp htoken
  have hfits := Token.fits_token hlex hposition
  unfold Token.Fits at hfits
  simp only [hcomment] at hfits
  cases hhead : token.text.toList.head? with
  | none => simp [hhead] at hfits
  | some head =>
    rw [hhead] at hfits
    exact ⟨head, (Token.stands_token hlex htoken).head hhead, by simpa using hfits.1⟩

/-- Spaces alone do not lead to another line. -/
theorem exists_shared_line {offset later : Nat} (hlater : later < byteLength text)
    (hspaces : ∀ between, offset ≤ between → between < later →
      ∃ c, charAt? between text = some c ∧ isSpaceOrTab c = true) :
    ∃ line ∈ (LineIndex.ofText text).lines, line.start ≤ offset ∧
      line.extent.contains later = true := by
  obtain ⟨line, hline, hstart, hstop⟩ := LineIndex.exists_line hlater
  have hmem := List.mem_of_getElem? hline
  refine ⟨line, hmem, ?_, Extent.contains_iff.mpr ⟨hstart, hstop⟩⟩
  apply LineIndex.start_le_of_no_feed hmem hstart
  intro between hge hbefore hat
  obtain ⟨c, hc, hspace⟩ := hspaces between hge hbefore
  rw [← Option.some.inj (hat.symm.trans hc)] at hspace
  exact absurd hspace (by decide)

/-- Outside the removed statements, a comment of one line is cut only on a line that one of
them touches. -/
theorem exists_touched_line (hlex : Token.lex text = .ok tokens)
    (haligned : ∀ removal ∈ removals, Aligned text tokens removal) {token : Token}
    (htoken : token ∈ tokens) (hcomment : token.kind = .comment)
    (hfeed : '\n' ∉ token.text.toList) {offset : Nat} (hstart : token.start ≤ offset)
    (hstop : offset < token.stop)
    (hstays : ∀ removal ∈ removals, removal.contains offset = false)
    (hhits : Hits (plan text tokens removals).cuts offset) :
    ∃ line ∈ (LineIndex.ofText text).lines, line.start ≤ token.start ∧ token.stop ≤ line.stop ∧
      ∃ removal ∈ removals, ∃ between, removal.contains between = true ∧
        line.extent.contains between = true := by
  have hstands := Token.stands_token hlex htoken
  have hone : ∀ line ∈ (LineIndex.ofText text).lines, line.start ≤ offset → offset < line.stop →
      line.start ≤ token.start ∧ token.stop ≤ line.stop := fun line hline =>
    LineIndex.bounds_of_no_feed hstands hfeed hline hstart hstop
  -- A comment starts with a sign, so neither spaces nor a blank line start one.
  obtain ⟨head, hhead, hvisible⟩ := exists_head_of_comment hlex htoken hcomment
  obtain ⟨cut, hcut, hcontains⟩ := hhits
  rcases mem_cuts_plan.mp hcut with
    ⟨removal, hremoval, -, rfl⟩ | ⟨number, line, hdeleted, rfl⟩ | ⟨line, hsurplus, rfl⟩
  · obtain ⟨left, right, hcut, hleft, hright⟩ := exists_partialCutOf (haligned removal hremoval)
    rw [hcut] at hcontains
    obtain ⟨hlow, hhigh⟩ := Extent.contains_iff.mp hcontains
    simp only at hlow hhigh
    have hforward := (haligned removal hremoval).start_lt_stop
    have hend := (haligned removal hremoval).stop_le
    by_cases hbefore : offset < removal.start
    · obtain ⟨line, hmem, hsame, hshared⟩ := exists_shared_line (by omega)
        fun between (hge : offset ≤ between) => hleft between (by omega)
      have hlinestop : removal.start < line.stop := (Extent.contains_iff.mp hshared).2
      obtain ⟨htokenstart, htokenstop⟩ := hone line hmem hsame (by omega)
      exact ⟨line, hmem, htokenstart, htokenstop, removal, hremoval, removal.start,
        Extent.contains_iff.mpr ⟨Nat.le_refl _, hforward⟩, hshared⟩
    · exfalso
      have hnot := hstays removal hremoval
      have hafter : removal.stop ≤ offset :=
        (Extent.contains_eq_false_iff.mp hnot).resolve_left hbefore
      have hapart := (haligned removal hremoval).apart token htoken (by omega)
      obtain ⟨d, hd, hspace⟩ := hright token.start (by omega) (by omega)
      rw [← Option.some.inj (hhead.symm.trans hd)] at hspace
      simp [isSpacing, hspace] at hvisible
  · obtain ⟨hlinestart, hlinestop⟩ := lineCut_contains hcontains
    obtain ⟨hline, -⟩ := getElem?_marksOf.mp hdeleted
    have hmem := List.mem_of_getElem? hline
    obtain ⟨htokenstart, htokenstop⟩ := hone line hmem hlinestart hlinestop
    obtain ⟨removal, hremoval, hnumber, -⟩ := exists_removal_of_deleted hdeleted
    obtain ⟨between, hlow, hhigh, hinside⟩ := exists_offset_of_linesOf
      (haligned removal hremoval).start_lt_stop (haligned removal hremoval).stop_le hline hnumber
    exact ⟨line, hmem, htokenstart, htokenstop, removal, hremoval, between, hinside,
      Extent.contains_iff.mpr ⟨hlow, hhigh⟩⟩
  · exfalso
    obtain ⟨hlinestart, hlinestop⟩ := Extent.contains_iff.mp hcontains
    obtain ⟨number, deleted, other, hblank, -, -⟩ := exists_deleted_of_mem_surplus hsurplus
    have hmem := List.mem_of_getElem? (getElem?_marksOf.mp hblank).1
    obtain ⟨htokenstart, htokenstop⟩ := hone line hmem hlinestart hlinestop
    have hspacing := isSpacing_of_blank hblank hhead
      (Extent.contains_iff.mpr ⟨htokenstart, show token.start < line.stop by omega⟩)
    simp [hvisible] at hspacing

end Reaching

end UnusedImports.Excision
