import UnusedImports.Proofs.Text.Lines
import UnusedImports.Proofs.Token.Layout

/-!
What a plan does to lines. A line is deleted only when a removed statement touches it and it is
clean, and a blank line is given up only when nothing solid stands between it and a deleted
line. So a line with something on it that has to stay keeps all lines apart that are not on the
same side of it.
-/
namespace UnusedImports.Excision

open UnusedImports.Text

/-- A blank line that is given up stands in a run without solid lines in which some line is
deleted. -/
theorem exists_run_of_mem_surplus {atStart : Bool} {marked : List (Line × Mark)} {line : Line}
    (h : line ∈ surplus atStart marked) :
    ∃ before run after, marked = before ++ (run ++ after) ∧ (∀ entry ∈ run, entry.2 ≠ .solid) ∧
      (line, Mark.blank) ∈ run ∧ ∃ deleted, (deleted, Mark.deleted) ∈ run := by
  fun_induction surplus atStart marked with
  | case1 => simp at h
  | case2 atStart entry rest hsolid ih =>
    obtain ⟨before, run, after, rfl, hrun⟩ := ih h
    exact ⟨entry :: before, run, after, rfl, hrun⟩
  | case3 atStart entry rest hsolid after ih =>
    rcases List.mem_append.mp h with hrun | hlater
    · have hall : ∀ other ∈ entry :: rest.takeWhile (fun entry => entry.2 != .solid),
          other.2 ≠ .solid := by
        intro other hother
        rcases List.mem_cons.mp hother with rfl | hother
        · exact hsolid
        · simpa using List.all_eq_true.mp List.all_takeWhile other hother
      refine ⟨[], entry :: rest.takeWhile (fun entry => entry.2 != .solid), after, ?_, hall, ?_⟩
      · simp [after, List.takeWhile_append_dropWhile]
      · unfold surplusOfRun at hrun
        split at hrun
        · rename_i hany
          obtain ⟨blank, hblank, rfl⟩ := List.mem_map.mp hrun
          obtain ⟨hmem, hkept⟩ := List.mem_filter.mp (List.mem_of_mem_drop hblank)
          obtain ⟨deleted, hdeleted, hmark⟩ := List.any_eq_true.mp hany
          refine ⟨?_, deleted.1, ?_⟩
          · have hmark : blank.2 = .blank := by
              have hstays := hall blank hmem
              cases hcase : blank.2 <;> simp_all
            rw [← hmark]
            exact hmem
          · rw [← beq_iff_eq.mp hmark]
            exact hdeleted
        · simp at hrun
    · obtain ⟨before, run, later, hsplit, hrun⟩ := ih hlater
      refine ⟨entry :: (rest.takeWhile (fun entry => entry.2 != .solid) ++ before), run, later, ?_,
        hrun⟩
      rw [List.cons_append, List.append_assoc, ← hsplit]
      simp [after, List.takeWhile_append_dropWhile]

theorem blank_of_mem_surplus {atStart : Bool} {marked : List (Line × Mark)} {line : Line}
    (h : line ∈ surplus atStart marked) : (line, Mark.blank) ∈ marked := by
  obtain ⟨before, run, after, rfl, -, hblank, -⟩ := exists_run_of_mem_surplus h
  exact List.mem_append_right before (List.mem_append_left after hblank)

section Changing

variable (change : Line → Line)

theorem surplusOfRun_map (atStart atEnd : Bool) (run : List (Line × Mark)) :
    surplusOfRun atStart atEnd (run.map (Prod.map change id)) =
      (surplusOfRun atStart atEnd run).map change := by
  have hkept : kept atStart atEnd (run.map (Prod.map change id)) = kept atStart atEnd run := by
    unfold kept
    simp only [← List.map_reverse, List.takeWhile_map, List.length_map]
    rfl
  have hany : ((run.map (Prod.map change id)).any fun entry => entry.2 == .deleted) =
      run.any fun entry => entry.2 == .deleted := List.any_map
  unfold surplusOfRun
  rw [hkept, hany, List.filter_map, ← List.map_drop, List.map_map]
  split
  · rw [List.map_map]
    rfl
  · rfl

/-- The blank lines to drop are told by the marks alone, and by which lines after the first one
are empty. -/
theorem surplus_map {atStart : Bool} {marked : List (Line × Mark)}
    (hempty : ∀ entry ∈ marked.tail, (change entry.1).text.isEmpty = entry.1.text.isEmpty) :
    surplus atStart (marked.map (Prod.map change id)) = (surplus atStart marked).map change := by
  fun_induction surplus atStart marked with
  | case1 => rw [List.map_nil, surplus, List.map_nil]
  | case2 atStart entry rest hsolid ih =>
    rw [List.map_cons, surplus, if_pos (show (Prod.map change id entry).2 = .solid from hsolid)]
    exact ih fun other hother => hempty other (List.mem_of_mem_tail hother)
  | case3 atStart entry rest hsolid after ih =>
    rw [List.map_cons, surplus, if_neg (show (Prod.map change id entry).2 ≠ .solid from hsolid)]
    have hlater : ∀ other ∈ after, other ∈ rest :=
      fun other hother => (List.dropWhile_sublist _).subset hother
    have hafter : (rest.map (Prod.map change id)).dropWhile (fun entry => entry.2 != .solid) =
        after.map (Prod.map change id) := List.dropWhile_map
    have hnone : ((after.map (Prod.map change id)).all fun entry => entry.1.text.isEmpty) =
        after.all fun entry => entry.1.text.isEmpty := by
      rw [List.all_map, Bool.eq_iff_iff, List.all_eq_true, List.all_eq_true]
      refine forall₂_congr fun other hother => ?_
      rw [← hempty other (hlater other hother)]
      rfl
    have hrun : Prod.map change id entry ::
          (rest.map (Prod.map change id)).takeWhile (fun entry => entry.2 != .solid) =
        (entry :: rest.takeWhile fun entry => entry.2 != .solid).map (Prod.map change id) := by
      rw [List.map_cons, List.takeWhile_map]
      rfl
    have hrest := ih fun other hother => hempty other (hlater other (List.mem_of_mem_tail hother))
    simp only [hafter, hnone, hrun, surplusOfRun_map, hrest, List.map_append]

end Changing

section Marking

variable {text : List Char} {tokens : List Token} {removals : List Extent}

def wholeLines (text : List Char) (tokens : List Token) (removals : List Extent) : List Extent :=
  (removals.filter (takesLines (.ofText text) tokens removals)).map (linesOf (.ofText text))

def marksOf (text : List Char) (tokens : List Token) (removals : List Extent) :
    List (Line × Mark) :=
  markLines (.ofText text) (wholeLines text tokens removals)

theorem getElem?_marksOf {number : Nat} {line : Line} {mark : Mark} :
    (marksOf text tokens removals)[number]? = some (line, mark) ↔
      (LineIndex.ofText text).lines[number]? = some line ∧
        mark = markOf (wholeLines text tokens removals) number line := by
  unfold marksOf markLines
  rw [List.getElem?_mapIdx]
  constructor
  · intro h
    obtain ⟨found, hfound, hentry⟩ := Option.map_eq_some_iff.mp h
    obtain ⟨rfl, rfl⟩ := Prod.mk.inj hentry
    exact ⟨hfound, rfl⟩
  · intro hcase
    obtain ⟨hline, rfl⟩ := hcase
    rw [hline]
    rfl

theorem isSpacing_of_blank {number : Nat} {line : Line}
    (hblank : (marksOf text tokens removals)[number]? = some (line, .blank)) {offset : Nat}
    {c : Char} (hc : charAt? offset text = some c)
    (hcontains : line.extent.contains offset = true) : isSpacing c = true := by
  obtain ⟨hline, hmark⟩ := getElem?_marksOf.mp hblank
  obtain ⟨hstart, hstop⟩ := Extent.contains_iff.mp hcontains
  have hisblank : line.isBlank = true := by
    unfold markOf at hmark
    split at hmark
    · simp at hmark
    · split at hmark
      · assumption
      · simp at hmark
  have hmem := (LineIndex.stands_line (List.mem_of_getElem? hline)).mem hc hstart hstop
  exact Line.isSpacing_of_isBlank hisblank c hmem

/-- A cut is one of a statement that leaves part of its lines, of a deleted line, or of a blank
line that is given up. -/
theorem mem_cuts_plan {cut : Extent} :
    cut ∈ (plan text tokens removals).cuts ↔
      (∃ removal ∈ removals, takesLines (.ofText text) tokens removals removal = false ∧
        cut = partialCutOf text (.ofText text) removal) ∨
      (∃ (number : Nat) (line : Line),
        (marksOf text tokens removals)[number]? = some (line, Mark.deleted) ∧
          cut = lineCut text line) ∨
      ∃ line ∈ surplus true (marksOf text tokens removals), cut = line.extent := by
  unfold plan
  simp only [List.partition_eq_filter_filter, List.mem_append, List.mem_map, List.mem_filter,
    or_assoc]
  refine or_congr ?_ (or_congr ?_ ?_)
  · constructor
    · intro hcase
      obtain ⟨removal, ⟨hmem, htakes⟩, rfl⟩ := hcase
      exact ⟨removal, hmem, by simpa using htakes, rfl⟩
    · intro hcase
      obtain ⟨removal, hmem, htakes, rfl⟩ := hcase
      exact ⟨removal, ⟨hmem, by simpa using htakes⟩, rfl⟩
  · constructor
    · intro hcase
      obtain ⟨line, ⟨entry, ⟨hmem, hmark⟩, rfl⟩, rfl⟩ := hcase
      obtain ⟨number, hnumber⟩ := List.mem_iff_getElem?.mp hmem
      refine ⟨number, entry.1, ?_, rfl⟩
      rw [← beq_iff_eq.mp hmark]
      exact hnumber
    · intro hcase
      obtain ⟨number, line, hnumber, rfl⟩ := hcase
      exact ⟨line, ⟨(line, .deleted), ⟨List.mem_of_getElem? hnumber, rfl⟩, rfl⟩, rfl⟩
  · constructor
    · intro hcase
      obtain ⟨line, hmem, rfl⟩ := hcase
      exact ⟨line, hmem, rfl⟩
    · intro hcase
      obtain ⟨line, hmem, rfl⟩ := hcase
      exact ⟨line, hmem, rfl⟩

/-- A deleted line is one of a removed statement that takes its lines with it. -/
theorem exists_takesLines_of_deleted {number : Nat} {line : Line}
    (h : (marksOf text tokens removals)[number]? = some (line, .deleted)) :
    ∃ removal ∈ removals, takesLines (.ofText text) tokens removals removal = true ∧
      (linesOf (.ofText text) removal).contains number = true := by
  obtain ⟨-, hmark⟩ := getElem?_marksOf.mp h
  unfold markOf at hmark
  split at hmark
  · rename_i hany
    obtain ⟨lines, hlines, hcontains⟩ := List.any_eq_true.mp hany
    obtain ⟨removal, hremoval, rfl⟩ := List.mem_map.mp hlines
    obtain ⟨hmem, htakes⟩ := List.mem_filter.mp hremoval
    exact ⟨removal, hmem, htakes, hcontains⟩
  · split at hmark <;> simp at hmark

theorem exists_removal_of_deleted {number : Nat} {line : Line}
    (h : (marksOf text tokens removals)[number]? = some (line, .deleted)) :
    ∃ removal ∈ removals, (linesOf (.ofText text) removal).contains number = true ∧
      isClean tokens removals line = true := by
  obtain ⟨removal, hmem, htakes, hcontains⟩ := exists_takesLines_of_deleted h
  refine ⟨removal, hmem, hcontains, ?_⟩
  exact List.all_eq_true.mp htakes line (Extent.mem_slice hcontains (getElem?_marksOf.mp h).1)

/-- The lines that a removed statement touches hold part of it. -/
theorem exists_offset_of_linesOf {removal : Extent} (hforward : removal.start < removal.stop)
    (hstop : removal.stop ≤ byteLength text) {number : Nat} {line : Line}
    (hline : (LineIndex.ofText text).lines[number]? = some line)
    (hcontains : (linesOf (.ofText text) removal).contains number = true) :
    ∃ offset, line.start ≤ offset ∧ offset < line.stop ∧ removal.contains offset = true := by
  have hmax : max (removal.stop - 1) removal.start = removal.stop - 1 := by omega
  obtain ⟨hfirst, hlast⟩ := Extent.contains_iff.mp hcontains
  unfold linesOf at hfirst hlast
  simp only [hmax] at hfirst hlast
  obtain ⟨first, hfirstline, hfirststart, hfirststop⟩ := LineIndex.exists_line
    (show removal.start < byteLength text by omega)
  obtain ⟨last, hlastline, hlaststart, hlaststop⟩ := LineIndex.exists_line
    (show removal.stop - 1 < byteLength text by omega)
  have hlength := (List.getElem?_eq_some_iff.mp hlastline).1
  have hbefore : line.start ≤ removal.stop - 1 ∧ line.start < line.stop := by
    by_cases heq : number = (LineIndex.ofText text).lineOf (removal.stop - 1)
    · subst heq
      obtain rfl := Option.some.inj (hline.symm.trans hlastline)
      omega
    · have hstops := LineIndex.stop_le_start hline hlastline (by omega)
      have hnonempty := LineIndex.start_lt_stop_of_next hline (by omega)
      omega
  have hafter : removal.start < line.stop := by
    by_cases heq : number = (LineIndex.ofText text).lineOf removal.start
    · subst heq
      obtain rfl := Option.some.inj (hline.symm.trans hfirstline)
      exact hfirststop
    · have hstops := LineIndex.stop_le_start hfirstline hline (by omega)
      omega
  refine ⟨max removal.start line.start, by omega, by omega, Extent.contains_iff.mpr ⟨by omega, ?_⟩⟩
  omega

/-- Among the tokens that a line is checked for is every one that reaches into its content. -/
theorem isDisposable_of_isClean (hlex : Token.lex text = .ok tokens) {line : Line}
    (hclean : isClean tokens removals line = true) {position : Nat} {token : Token}
    (htoken : tokens[position]? = some token) (hstart : token.start < line.contentStop)
    (hstop : line.start < token.stop) : isDisposable removals line token = true := by
  apply List.all_eq_true.mp hclean token
  obtain ⟨hposition, hget⟩ := List.getElem?_eq_some_iff.mp htoken
  have hsplit : tokens = tokens.take position ++ token :: tokens.drop (position + 1) := by
    conv => lhs; rw [← List.take_append_drop position tokens]
    rw [List.drop_eq_getElem_cons hposition, hget]
  have hearlier : ∀ other ∈ tokens.take position,
      decide (other.start < line.contentStop) = true := by
    intro other hmem
    obtain ⟨earlier, hother⟩ := List.mem_iff_getElem?.mp hmem
    have hlt := (List.getElem?_eq_some_iff.mp hother).1
    rw [List.length_take] at hlt
    rw [List.getElem?_take_of_lt (by omega)] at hother
    have hstops := Token.stop_le_start hlex hother htoken (by omega)
    have hforward := Token.start_le_stop other
    exact decide_eq_true (by omega)
  have hdrop : tokens.dropWhile (fun other => decide (other.stop ≤ line.start)) =
      (tokens.take position).dropWhile (fun other => decide (other.stop ≤ line.start)) ++
        token :: tokens.drop (position + 1) := by
    conv => lhs; rw [hsplit]
    rw [List.dropWhile_append]
    split
    · rename_i hempty
      rw [List.isEmpty_iff.mp hempty, List.nil_append]
      exact List.dropWhile_cons_of_neg (by simp; omega)
    · rfl
  rw [hdrop, List.takeWhile_append_of_pos]
  · simp [hstart]
  · intro other hmem
    exact hearlier other ((List.dropWhile_sublist _).subset hmem)

/-- Of tokens in order, those from the first one on that stops behind an offset do so. -/
theorem lt_stop_of_mem_dropWhile (hlex : Token.lex text = .ok tokens) {offset : Nat} {token : Token}
    (hmem : token ∈ tokens.dropWhile fun token => decide (token.stop ≤ offset)) :
    offset < token.stop := by
  cases hdrop : tokens.dropWhile (fun token => decide (token.stop ≤ offset)) with
  | nil => simp [hdrop] at hmem
  | cons first rest =>
    have hfirst : offset < first.stop := by
      have hhead := List.head?_dropWhile_not (fun token => decide (token.stop ≤ offset)) tokens
      rw [hdrop] at hhead
      simpa using hhead
    have hpairs : tokens.Pairwise fun first second => first.stop ≤ second.stop := by
      apply List.pairwise_iff_getElem.mpr
      intro first second hfirst hsecond hlt
      exact Token.stop_le_stop hlex (List.getElem?_eq_getElem hfirst)
        (List.getElem?_eq_getElem hsecond) (Nat.le_of_lt hlt)
    have hlater := hpairs.sublist (hdrop ▸ List.dropWhile_sublist _)
    rw [hdrop] at hmem
    rcases List.mem_cons.mp hmem with rfl | hmem
    · exact hfirst
    · exact Nat.lt_of_lt_of_le hfirst (List.rel_of_pairwise_cons hlater hmem)

/-- A line is clean exactly if every token that reaches into its content may go with it. -/
theorem isClean_iff (hlex : Token.lex text = .ok tokens) {line : Line} :
    isClean tokens removals line = true ↔
      ∀ token ∈ tokens, token.start < line.contentStop → line.start < token.stop →
        isDisposable removals line token = true := by
  constructor
  · intro hclean token htoken hstart hstop
    obtain ⟨position, hposition⟩ := List.mem_iff_getElem?.mp htoken
    exact isDisposable_of_isClean hlex hclean hposition hstart hstop
  · intro h
    apply List.all_eq_true.mpr
    intro token hmem
    have hdropped := (List.takeWhile_sublist _).subset hmem
    have htoken := (List.dropWhile_sublist _).subset hdropped
    have hstart : token.start < line.contentStop := by
      simpa using List.all_eq_true.mp List.all_takeWhile token hmem
    exact h token htoken hstart (lt_stop_of_mem_dropWhile hlex hdropped)

end Marking

end UnusedImports.Excision
