import UnusedImports.Proofs.Excision.Marks

/-!
What no cut can reach. A character holds its line when it belongs to a token that has to stay
and is not spacing. An offset is sheltered when it stands between two such characters with
nothing removed between them, or behind one of them on its line with something other than a
space before the next removed statement. No cut of a plan contains a sheltered offset.
-/
namespace UnusedImports

/-- Whether a token has to stay unless it is part of a removed statement, whatever line it
stands on. -/
def Token.isFixed (token : Token) : Bool :=
  match token.kind with
  | .blank | .newline => false
  | .comment => token.text.toList.contains '\n'
  | _ => true

namespace Excision

open UnusedImports.Text

/-- A removed stretch goes from the start of one character to the end of another, and each token
is in it or apart from it. -/
structure Aligned (text : List Char) (tokens : List Token) (removal : Extent) : Prop where
  start_lt_stop : removal.start < removal.stop
  starts : ∃ c, charAt? removal.start text = some c
  stops : ∃ before after, text = before ++ after ∧ byteLength before = removal.stop
  apart : ∀ token ∈ tokens, token.start < token.stop →
    removal.start ≤ token.start ∧ token.stop ≤ removal.stop ∨
      token.stop ≤ removal.start ∨ removal.stop ≤ token.start

structure Framed (text : List Char) (removal : Extent) : Prop where
  first : ∃ c, charAt? removal.start text = some c ∧ isSpacing c = false
  last : ∃ offset c, charAt? offset text = some c ∧ isSpacing c = false ∧
    removal.start ≤ offset ∧ offset + c.utf8Size = removal.stop

structure Holds (text : List Char) (tokens : List Token) (removals : List Extent)
    (offset : Nat) : Prop where
  visible : ∃ c, charAt? offset text = some c ∧ isSpacing c = false
  fixed : ∃ token ∈ tokens, token.start ≤ offset ∧ offset < token.stop ∧ token.isFixed = true
  stays : ∀ removal ∈ removals, removal.contains offset = false

def Sheltered (text : List Char) (tokens : List Token) (removals : List Extent)
    (offset : Nat) : Prop :=
  ∃ first last, first ≤ offset ∧ offset ≤ last ∧ Holds text tokens removals first ∧
    (∀ removal ∈ removals, ∀ between, first ≤ between → between ≤ last →
      removal.contains between = false) ∧
    (∀ c, charAt? last text = some c → isSpaceOrTab c = false) ∧
    (Holds text tokens removals last ∨
      ∀ between, first ≤ between → between < offset → charAt? between text ≠ some '\n')

section Lines

variable {text : List Char} {tokens : List Token} {removals : List Extent}

theorem Aligned.stop_le {removal : Extent} (h : Aligned text tokens removal) :
    removal.stop ≤ byteLength text := by
  obtain ⟨before, after, rfl, hstop⟩ := h.stops
  rw [byteLength_append]
  omega

/-- A line with a character that holds it is neither deleted nor blank. -/
theorem Holds.solid (hlex : Token.lex text = .ok tokens) {offset : Nat}
    (h : Holds text tokens removals offset) {number : Nat} {line : Line} {mark : Mark}
    (hmark : (marksOf text tokens removals)[number]? = some (line, mark))
    (hstart : line.start ≤ offset) (hstop : offset < line.stop) : mark = .solid := by
  obtain ⟨c, hc, hvisible⟩ := h.visible
  obtain ⟨hline, -⟩ := getElem?_marksOf.mp hmark
  cases hcase : mark with
  | solid => rfl
  | blank =>
    subst hcase
    have hspacing := isSpacing_of_blank hmark hc (Extent.contains_iff.mpr ⟨hstart, hstop⟩)
    simp [hvisible] at hspacing
  | deleted =>
    subst hcase
    obtain ⟨removal, hremoval, -, hclean⟩ := exists_removal_of_deleted hmark
    obtain ⟨token, htoken, htokenstart, htokenstop, hfixed⟩ := h.fixed
    obtain ⟨position, hposition⟩ := List.mem_iff_getElem?.mp htoken
    -- The character is not part of the line end, so it is checked with the content.
    have hcontent : offset < line.contentStop := by
      by_cases hlt : offset < line.contentStop
      · exact hlt
      · rcases LineIndex.lineEnd_of_contentStop_le (List.mem_of_getElem? hline) hc
          (Nat.le_of_not_lt hlt) hstop with rfl | rfl
        · simp [isSpacing] at hvisible
        · simp [isSpacing] at hvisible
    have hdisposable := isDisposable_of_isClean hlex hclean hposition (by omega) (by omega)
    have hremoved : isRemoved removals token = true := by
      unfold isDisposable at hdisposable
      unfold Token.isFixed at hfixed
      cases hkind : token.kind <;> simp_all
    unfold isRemoved at hremoved
    obtain ⟨other, hother, hinside⟩ := List.any_eq_true.mp hremoved
    simp only [Bool.and_eq_true, decide_eq_true_eq] at hinside
    have hcontains := h.stays other hother
    rw [Extent.contains_iff.mpr ⟨by omega, by omega⟩] at hcontains
    simp at hcontains

/-- What holds its line is sheltered by itself. -/
theorem Holds.sheltered {offset : Nat} (h : Holds text tokens removals offset) :
    Sheltered text tokens removals offset := by
  refine ⟨offset, offset, Nat.le_refl _, Nat.le_refl _, h, ?_, ?_, Or.inl h⟩
  · intro removal hremoval between hge hle
    rw [Nat.le_antisymm hle hge]
    exact h.stays removal hremoval
  · intro c hc
    obtain ⟨d, hd, hvisible⟩ := h.visible
    obtain rfl := Option.some.inj (hc.symm.trans hd)
    simp only [isSpacing, Bool.or_eq_false_iff] at hvisible
    exact hvisible.1.1

theorem Holds.exists_solid (hlex : Token.lex text = .ok tokens) {offset : Nat}
    (h : Holds text tokens removals offset) :
    ∃ (number : Nat) (line : Line), (LineIndex.ofText text).lines[number]? = some line ∧
      line.start ≤ offset ∧ offset < line.stop ∧
      (marksOf text tokens removals)[number]? = some (line, Mark.solid) := by
  obtain ⟨c, hc, -⟩ := h.visible
  obtain ⟨line, hline, hstart, hstop⟩ := LineIndex.exists_line (lt_of_charAt? hc)
  have hmark : (marksOf text tokens removals)[(LineIndex.ofText text).lineOf offset]? =
      some (line, markOf (wholeLines text tokens removals) _ line) :=
    getElem?_marksOf.mpr ⟨hline, rfl⟩
  exact ⟨_, line, hline, hstart, hstop, h.solid hlex hmark hstart hstop ▸ hmark⟩

theorem number_le_number {first second firstOffset secondOffset : Nat} {line other : Line}
    (hline : (LineIndex.ofText text).lines[first]? = some line)
    (hother : (LineIndex.ofText text).lines[second]? = some other)
    (hstart : line.start ≤ firstOffset) (hstop : secondOffset < other.stop)
    (hle : firstOffset ≤ secondOffset) : first ≤ second := by
  by_cases hlt : second < first
  · have hstops := LineIndex.stop_le_start hother hline hlt
    omega
  · exact Nat.le_of_not_lt hlt

/-- Between the line of a sheltered offset and a deleted line stands a solid one. -/
theorem Sheltered.exists_solid (hlex : Token.lex text = .ok tokens)
    (haligned : ∀ removal ∈ removals, Aligned text tokens removal) {offset : Nat}
    (h : Sheltered text tokens removals offset) {number deleted : Nat} {line other : Line}
    (hline : (LineIndex.ofText text).lines[number]? = some line)
    (hstart : line.start ≤ offset) (hstop : offset < line.stop)
    (hdeleted : (marksOf text tokens removals)[deleted]? = some (other, .deleted)) :
    ∃ (between : Nat) (entry : Line), min number deleted ≤ between ∧
      between ≤ max number deleted ∧
      (marksOf text tokens removals)[between]? = some (entry, Mark.solid) := by
  obtain ⟨first, last, hfirst, hlast, hholds, hclear, -, hside⟩ := h
  obtain ⟨low, lowLine, hlow, hlowstart, hlowstop, hlowmark⟩ := hholds.exists_solid hlex
  have hlownumber := number_le_number hlow hline hlowstart hstop hfirst
  by_cases hlowinside : min number deleted ≤ low
  · exact ⟨low, lowLine, hlowinside, by omega, hlowmark⟩
  rcases hside with hside | hside
  · obtain ⟨high, highLine, hhigh, hhighstart, hhighstop, hhighmark⟩ := hside.exists_solid hlex
    have hhighnumber := number_le_number hline hhigh hstart hhighstop hlast
    by_cases hhighinside : high ≤ max number deleted
    · exact ⟨high, highLine, by omega, hhighinside, hhighmark⟩
    -- Now the deleted line lies between the two, and so does the statement it goes with.
    obtain ⟨hother, -⟩ := getElem?_marksOf.mp hdeleted
    obtain ⟨removal, hremoval, hnumber, -⟩ := exists_removal_of_deleted hdeleted
    obtain ⟨between, hbetween, hbetween', hcontains⟩ := exists_offset_of_linesOf
      (haligned removal hremoval).start_lt_stop (haligned removal hremoval).stop_le hother hnumber
    have hafterlow := LineIndex.stop_le_start hlow hother (by omega)
    have hbeforehigh := LineIndex.stop_le_start hother hhigh (by omega)
    have hapart := hclear removal hremoval between (by omega) (by omega)
    simp [hcontains] at hapart
  · have hsame := LineIndex.start_le_of_no_feed (List.mem_of_getElem? hline) hstart hside
    have hnumber := number_le_number hline hlow hsame hlowstop (Nat.le_refl first)
    omega

end Lines

section Partial

variable {text : List Char} {tokens : List Token}

theorem charAt?_of_bytes {part : List Char} (h : ∀ c ∈ part, c.utf8Size = 1) (offset : Nat) :
    charAt? offset part = part[offset]? := by
  induction part generalizing offset with
  | nil => rfl
  | cons c rest ih =>
    have hsize := h c List.mem_cons_self
    rw [charAt?]
    cases offset with
    | zero => rfl
    | succ offset =>
      rw [if_neg (by omega), if_neg (by omega), hsize, Nat.add_sub_cancel,
        List.getElem?_cons_succ]
      exact ih (fun d hd => h d (List.mem_cons_of_mem c hd)) offset

theorem byteLength_of_bytes {part : List Char} (h : ∀ c ∈ part, c.utf8Size = 1) :
    byteLength part = part.length := by
  induction part with
  | nil => rfl
  | cons c rest ih =>
    rw [byteLength, h c List.mem_cons_self, ih fun d hd => h d (List.mem_cons_of_mem c hd),
      List.length_cons, Nat.add_comm]

theorem utf8Size_of_isSpaceOrTab {c : Char} (h : isSpaceOrTab c = true) : c.utf8Size = 1 := by
  simp only [isSpaceOrTab, Bool.or_eq_true, beq_iff_eq] at h
  rcases h with rfl | rfl
  · rfl
  · rfl

theorem charAt?_of_spaces {spaces : List Char} {start : Nat} (hstands : Stands text spaces start)
    (hspaces : ∀ c ∈ spaces, isSpaceOrTab c = true) {offset : Nat} (hstart : start ≤ offset)
    (hstop : offset < start + spaces.length) :
    ∃ c, charAt? offset text = some c ∧ isSpaceOrTab c = true := by
  have hbytes : ∀ c ∈ spaces, c.utf8Size = 1 := fun c hc => utf8Size_of_isSpaceOrTab (hspaces c hc)
  rw [hstands.charAt?_sub hstart (by rw [byteLength_of_bytes hbytes]; exact hstop),
    charAt?_of_bytes hbytes,
    List.getElem?_eq_getElem (show offset - start < spaces.length by omega)]
  exact ⟨_, rfl, hspaces _ (List.getElem_mem _)⟩

theorem stands_after {removal : Extent} (haligned : Aligned text tokens removal) (count : Nat) :
    Stands text ((takeBytes count (dropBytes removal.stop text)).takeWhile isSpaceOrTab)
      removal.stop := by
  obtain ⟨before, after, rfl, hstop⟩ := haligned.stops
  rw [← hstop, dropBytes_byteLength]
  obtain ⟨later, hlater⟩ := List.takeWhile_prefix (l := takeBytes count after) isSpaceOrTab
  refine ⟨before, later ++ dropBytes count after, ?_, rfl⟩
  rw [← List.append_assoc _ later, hlater, takeBytes_append_dropBytes]

theorem stands_before {removal : Extent} (haligned : Aligned text tokens removal) :
    ∃ spaces : List Char,
      spaces = ((takeBytes (removal.start - ((LineIndex.ofText text).lineAt removal.start).start)
        ((LineIndex.ofText text).lineAt removal.start).text).reverse.takeWhile
          isSpaceOrTab).reverse ∧
      spaces.length ≤ removal.start ∧ Stands text spaces (removal.start - spaces.length) := by
  obtain ⟨c, hc⟩ := haligned.starts
  obtain ⟨line, hline, hstart, hstop⟩ := LineIndex.exists_line (lt_of_charAt? hc)
  have hat := LineIndex.lineAt_eq (List.mem_of_getElem? hline) hstart hstop
  have hstands := LineIndex.stands_line (List.mem_of_getElem? hline)
  rw [hstands.charAt?_sub hstart hstop] at hc
  obtain ⟨before, after, htext, hbefore⟩ := exists_of_charAt? hc
  rw [hat, ← hbefore, htext, takeBytes_byteLength]
  obtain ⟨rest, hrest⟩ := List.takeWhile_prefix (l := before.reverse) isSpaceOrTab
  refine ⟨_, rfl, ?_⟩
  have hsplit : before = rest.reverse ++ (before.reverse.takeWhile isSpaceOrTab).reverse := by
    rw [← List.reverse_append, hrest, List.reverse_reverse]
  generalize hspaces : (before.reverse.takeWhile isSpaceOrTab).reverse = spaces at *
  have hbytes : byteLength spaces = spaces.length := by
    refine byteLength_of_bytes fun d hd => utf8Size_of_isSpaceOrTab ?_
    rw [← hspaces, List.mem_reverse] at hd
    exact List.all_eq_true.mp List.all_takeWhile d hd
  have hlength := congrArg byteLength hsplit
  rw [byteLength_append, hbytes] at hlength
  refine ⟨by omega, ?_⟩
  have hinner : Stands line.text spaces (byteLength rest.reverse) := by
    refine ⟨rest.reverse, c :: after, ?_, rfl⟩
    rw [htext, hsplit, List.append_assoc]
  have hoffset : removal.start - spaces.length = line.start + byteLength rest.reverse := by omega
  rw [hoffset]
  exact hstands.trans hinner

/-- A cut around a statement that leaves part of its lines takes the statement and spaces on
either side of it. -/
theorem exists_partialCutOf {removal : Extent} (haligned : Aligned text tokens removal) :
    ∃ left right, partialCutOf text (.ofText text) removal =
        ⟨removal.start - left, removal.stop + right⟩ ∧
      (∀ between, removal.start - left ≤ between → between < removal.start →
        ∃ c, charAt? between text = some c ∧ isSpaceOrTab c = true) ∧
      ∀ between, removal.stop ≤ between → between < removal.stop + right →
        ∃ c, charAt? between text = some c ∧ isSpaceOrTab c = true := by
  have hafter : ∀ count between, removal.stop ≤ between →
      between < removal.stop +
        ((takeBytes count (dropBytes removal.stop text)).takeWhile isSpaceOrTab).length →
      ∃ c, charAt? between text = some c ∧ isSpaceOrTab c = true := by
    intro count between
    exact charAt?_of_spaces (stands_after haligned count)
      fun c hc => List.all_eq_true.mp List.all_takeWhile c hc
  obtain ⟨spaces, hspaces, hle, hbefore⟩ := stands_before haligned
  unfold partialCutOf partialCut
  simp only
  split
  · refine ⟨spaces.length, _, by rw [hspaces, List.length_reverse], ?_, hafter _⟩
    intro between hstart hstop
    refine charAt?_of_spaces hbefore ?_ hstart (by omega)
    intro c hc
    rw [hspaces, List.mem_reverse] at hc
    exact List.all_eq_true.mp List.all_takeWhile c hc
  · exact ⟨0, _, rfl, fun between _ _ => by omega, hafter _⟩

/-- What such a cut takes beside the statement is spaces. -/
theorem exists_space_of_partialCutOf {removal : Extent} (haligned : Aligned text tokens removal)
    {offset : Nat} (hcut : (partialCutOf text (.ofText text) removal).contains offset = true) :
    removal.contains offset = true ∨ ∃ c, charAt? offset text = some c ∧ isSpaceOrTab c = true := by
  obtain ⟨left, right, heq, hleft, hright⟩ := exists_partialCutOf haligned
  rw [heq] at hcut
  obtain ⟨hlow, hhigh⟩ := Extent.contains_iff.mp hcut
  by_cases hbefore : offset < removal.start
  · exact Or.inr (hleft offset hlow hbefore)
  · by_cases hafter : removal.stop ≤ offset
    · exact Or.inr (hright offset hafter hhigh)
    · exact Or.inl (Extent.contains_iff.mpr ⟨by omega, by omega⟩)

end Partial

section Cuts

variable {text : List Char} {tokens : List Token} {removals : List Extent}

theorem lineCut_contains {line : Line} {offset : Nat}
    (h : (lineCut text line).contains offset = true) :
    line.start ≤ offset ∧ offset < line.stop := by
  unfold lineCut at h
  split at h
  · rename_i hmark
    obtain ⟨-, hstop⟩ := Extent.contains_iff.mp h
    exact ⟨by omega, hstop⟩
  · exact Extent.contains_iff.mp h

/-- A blank line that is given up is blank, and no solid line stands between it and a deleted
one. -/
theorem exists_deleted_of_mem_surplus {line : Line}
    (h : line ∈ surplus true (marksOf text tokens removals)) :
    ∃ (number deleted : Nat) (other : Line),
      (marksOf text tokens removals)[number]? = some (line, Mark.blank) ∧
      (marksOf text tokens removals)[deleted]? = some (other, Mark.deleted) ∧
      ∀ (between : Nat) (entry : Line), min number deleted ≤ between →
        between ≤ max number deleted →
          (marksOf text tokens removals)[between]? ≠ some (entry, Mark.solid) := by
  obtain ⟨before, run, after, hmarks, hrun, hblank, other, hdeleted⟩ := exists_run_of_mem_surplus h
  obtain ⟨number, hnumber⟩ := List.mem_iff_getElem?.mp hblank
  obtain ⟨deleted, hother⟩ := List.mem_iff_getElem?.mp hdeleted
  have hrunlength := (List.getElem?_eq_some_iff.mp hnumber).1
  have hrunlength' := (List.getElem?_eq_some_iff.mp hother).1
  have hlookup : ∀ position, position < run.length →
      (marksOf text tokens removals)[before.length + position]? = run[position]? := by
    intro position hposition
    rw [hmarks, List.getElem?_append_right (Nat.le_add_right _ _), Nat.add_sub_cancel_left,
      List.getElem?_append_left hposition]
  refine ⟨before.length + number, before.length + deleted, other, ?_, ?_, ?_⟩
  · rw [hlookup number hrunlength, hnumber]
  · rw [hlookup deleted hrunlength', hother]
  · intro between entry hlow hhigh hsolid
    obtain ⟨position, rfl⟩ := Nat.exists_eq_add_of_le (show before.length ≤ between by omega)
    rw [hlookup position (by omega)] at hsolid
    exact hrun _ (List.mem_of_getElem? hsolid) rfl

/-- The cut around a statement does not reach a sheltered offset: the characters that hold it
are no spaces and stand on its side of the statement. -/
theorem Sheltered.not_contains_partialCutOf {offset : Nat}
    (h : Sheltered text tokens removals offset) {removal : Extent} (hremoval : removal ∈ removals)
    (haligned : Aligned text tokens removal) :
    (partialCutOf text (.ofText text) removal).contains offset = false := by
  obtain ⟨first, last, hfirst, hlast, hholds, hclear, hend, -⟩ := h
  obtain ⟨left, right, hcut, hleft, hright⟩ := exists_partialCutOf haligned
  have hforward := haligned.start_lt_stop
  have hapart : ∀ between, first ≤ between → between ≤ last →
      between < removal.start ∨ removal.stop ≤ between := by
    intro between hlow hhigh
    exact Extent.contains_eq_false_iff.mp (hclear removal hremoval between hlow hhigh)
  cases hcontains : (partialCutOf text (.ofText text) removal).contains offset with
  | false => rfl
  | true =>
    exfalso
    rw [hcut] at hcontains
    obtain ⟨hstart, hstop⟩ := Extent.contains_iff.mp hcontains
    simp only at hstart hstop
    rcases hapart offset hfirst hlast with hbefore | hafter
    · have hlaststart : last < removal.start := by
        rcases hapart removal.start (by omega) with hcase
        by_cases hle : removal.start ≤ last
        · have := hcase hle
          omega
        · omega
      obtain ⟨c, hc, hspace⟩ := hleft last (by omega) hlaststart
      simp [hend c hc] at hspace
    · have hfirststop : removal.stop ≤ first := by
        by_cases hle : first ≤ removal.start
        · have := hapart removal.start hle (by omega)
          omega
        · have := hapart first (Nat.le_refl _) (by omega)
          omega
      obtain ⟨c, hc, hspace⟩ := hright first hfirststop (by omega)
      obtain ⟨d, hd, hvisible⟩ := hholds.visible
      obtain rfl := Option.some.inj (hc.symm.trans hd)
      simp [isSpacing, hspace] at hvisible

/-- No cut contains a sheltered offset. -/
theorem Sheltered.not_contains (hlex : Token.lex text = .ok tokens)
    (haligned : ∀ removal ∈ removals, Aligned text tokens removal) {offset : Nat}
    (h : Sheltered text tokens removals offset) {cut : Extent}
    (hcut : cut ∈ (plan text tokens removals).cuts) : cut.contains offset = false := by
  cases hcontains : cut.contains offset with
  | false => rfl
  | true =>
    exfalso
    rcases mem_cuts_plan.mp hcut with
      ⟨removal, hremoval, -, rfl⟩ | ⟨number, line, hdeleted, rfl⟩ | ⟨line, hsurplus, rfl⟩
    · have hnot := h.not_contains_partialCutOf hremoval (haligned removal hremoval)
      simp [hcontains] at hnot
    · obtain ⟨hstart, hstop⟩ := lineCut_contains hcontains
      obtain ⟨between, entry, hlow, hhigh, hsolid⟩ := h.exists_solid hlex haligned
        (getElem?_marksOf.mp hdeleted).1 hstart hstop hdeleted
      obtain rfl : between = number := by omega
      simpa using hdeleted.symm.trans hsolid
    · obtain ⟨hstart, hstop⟩ := Extent.contains_iff.mp hcontains
      obtain ⟨number, deleted, other, hblank, hdeleted, hrun⟩ :=
        exists_deleted_of_mem_surplus hsurplus
      obtain ⟨between, entry, hlow, hhigh, hsolid⟩ := h.exists_solid hlex haligned
        (getElem?_marksOf.mp hblank).1 hstart hstop hdeleted
      exact hrun between entry hlow hhigh hsolid

end Cuts

end Excision

end UnusedImports
