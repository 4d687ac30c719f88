import UnusedImports.Proofs.Text.Offset

/-!
The lines of a text. They cover it, each but the last ends with a line feed, and the line of an
offset is the one that holds it. What stands on a line after its content is only its line end.
-/
namespace UnusedImports

namespace Line

def part (line : Line) : Nat × List Char := (line.start, line.text)

theorem covers_place (start : Nat) (texts : List (List Char)) :
    Text.Covers start texts.flatten ((place start texts).map part) := by
  induction texts generalizing start with
  | nil => rfl
  | cons text texts ih => exact ⟨rfl, texts.flatten, rfl, ih _⟩

theorem map_text_place (start : Nat) (texts : List (List Char)) :
    (place start texts).map Line.text = texts := by
  induction texts generalizing start with
  | nil => rfl
  | cons text texts ih => rw [place, List.map_cons, ih]

theorem split_ne_nil (text : List Char) : split text ≠ [] := by
  cases text with
  | nil => simp [split]
  | cons c rest =>
    unfold split
    split
    · simp
    · split <;> simp

theorem getLast?_of_split {text line : List Char} {number : Nat}
    (h : (split text)[number]? = some line) (hlast : number + 1 < (split text).length) :
    line.getLast? = some '\n' := by
  induction text generalizing number line with
  | nil => simp [split] at hlast
  | cons c rest ih =>
    unfold split at h hlast
    split at h
    · rename_i hfeed
      subst hfeed
      cases number with
      | zero =>
        obtain rfl := Option.some.inj h
        rfl
      | succ number =>
        rw [if_pos rfl, List.length_cons] at hlast
        exact ih h (by omega)
    · rename_i hfeed
      rw [if_neg hfeed] at hlast
      split at h
      · rename_i first lines hsplit
        rw [hsplit] at hlast
        cases number with
        | zero =>
          obtain rfl := Option.some.inj h
          have hfirst := ih (show (split rest)[0]? = some first by rw [hsplit]; rfl)
            (by rw [hsplit]; exact hlast)
          rw [List.getLast?_cons, hfirst]
          rfl
        | succ number =>
          refine ih (show (split rest)[number + 1]? = some line from ?_) ?_
          · rw [hsplit]
            exact h
          · rw [hsplit]
            exact hlast
      · rename_i hsplit
        exact absurd hsplit (split_ne_nil rest)

/-- The only line feed of a line is at its end. -/
theorem exists_of_mem_split {text line : List Char} (h : line ∈ split text) :
    ∃ content, '\n' ∉ content ∧ (line = content ∨ line = content ++ ['\n']) := by
  induction text generalizing line with
  | nil =>
    rw [split, List.mem_singleton] at h
    exact ⟨[], by simp, Or.inl h⟩
  | cons c rest ih =>
    by_cases hc : c = '\n'
    · rw [split, if_pos hc] at h
      rcases List.mem_cons.mp h with rfl | h
      · exact ⟨[], by simp, Or.inr (by rw [hc]; rfl)⟩
      · exact ih h
    · rw [split, if_neg hc] at h
      cases hsplit : split rest with
      | nil => exact absurd hsplit (split_ne_nil rest)
      | cons first lines =>
        rw [hsplit] at h ih
        rcases List.mem_cons.mp h with rfl | h
        · obtain ⟨content, hfeed, hfirst⟩ := ih List.mem_cons_self
          refine ⟨c :: content, ?_, hfirst.imp (congrArg (c :: ·)) (congrArg (c :: ·))⟩
          simp [Ne.symm hc, hfeed]
        · exact ih (List.mem_cons_of_mem first h)

/-- After the content of a line comes its line end, if it has one. -/
theorem lineEnd_cases (line : Line) :
    ∃ lineEnd, line.text = line.content ++ lineEnd ∧
      (lineEnd = ['\r', '\n'] ∨ lineEnd = ['\n'] ∨
        lineEnd = [] ∧ line.text.getLast? ≠ some '\n') := by
  unfold content
  split
  · rename_i h
    obtain ⟨before, hbefore⟩ := List.isSuffixOf_iff_suffix.mp h
    refine ⟨['\r', '\n'], ?_, Or.inl rfl⟩
    rw [← hbefore]
    simp
  · split
    · rename_i h
      obtain ⟨before, hbefore⟩ := List.isSuffixOf_iff_suffix.mp h
      refine ⟨['\n'], ?_, Or.inr (Or.inl rfl)⟩
      rw [← hbefore]
      simp
    · rename_i h
      refine ⟨[], by simp, Or.inr (Or.inr ⟨rfl, ?_⟩)⟩
      intro hlast
      obtain ⟨before, hbefore⟩ := List.getLast?_eq_some_iff.mp hlast
      exact h (List.isSuffixOf_iff_suffix.mpr ⟨before, hbefore.symm⟩)

theorem exists_lineEnd (line : Line) :
    ∃ lineEnd, line.text = line.content ++ lineEnd ∧ ∀ c ∈ lineEnd, c = '\r' ∨ c = '\n' := by
  obtain ⟨lineEnd, htext, hcases⟩ := line.lineEnd_cases
  refine ⟨lineEnd, htext, ?_⟩
  rcases hcases with rfl | rfl | ⟨rfl, -⟩ <;> simp

theorem contentStop_le_stop (line : Line) : line.contentStop ≤ line.stop := by
  obtain ⟨lineEnd, htext, -⟩ := line.exists_lineEnd
  have hlength := congrArg Text.byteLength htext
  rw [Text.byteLength_append] at hlength
  unfold contentStop stop
  omega

/-- The content of a line that holds a line feed at its end only holds none. -/
theorem feed_not_mem_content {line : Line} {words : List Char} (hwords : '\n' ∉ words)
    (htext : line.text = words ∨ line.text = words ++ ['\n']) : '\n' ∉ line.content := by
  have hshort : ∀ count, count < line.text.length → '\n' ∉ line.text.take count := by
    intro count hcount hmem
    apply hwords
    rcases htext with htext | htext
    · rw [htext] at hmem
      exact List.mem_of_mem_take hmem
    · rw [htext, List.length_append, List.length_singleton] at hcount
      rw [htext, List.take_append_of_le_length (by omega)] at hmem
      exact List.mem_of_mem_take hmem
  unfold content
  split
  · rename_i hsuffix
    have hlength := (List.isSuffixOf_iff_suffix.mp hsuffix).length_le
    simp only [List.length_cons, List.length_nil] at hlength
    exact hshort _ (by omega)
  · split
    · rename_i hsuffix
      have hlength := (List.isSuffixOf_iff_suffix.mp hsuffix).length_le
      simp only [List.length_cons, List.length_nil] at hlength
      exact hshort _ (by omega)
    · rename_i hsuffix
      rcases htext with htext | htext
      · rw [htext]
        exact hwords
      · exact absurd (List.isSuffixOf_iff_suffix.mpr ⟨words, htext.symm⟩) hsuffix

theorem isSpacing_of_isBlank {line : Line} (h : line.isBlank = true) :
    ∀ c ∈ line.text, Text.isSpacing c = true := by
  intro c hc
  obtain ⟨lineEnd, htext, hend⟩ := line.exists_lineEnd
  simp only [isBlank, Bool.and_eq_true, List.all_eq_true] at h
  rw [htext, List.mem_append] at hc
  unfold Text.isSpacing
  rcases hc with hc | hc
  · rcases Bool.or_eq_true_iff.mp (h.2 c hc) with hspace | hreturn
    · simp [hspace]
    · simp [hreturn]
  · rcases hend c hc with rfl | rfl
    · rfl
    · rfl

end Line

namespace LineIndex

variable {text : List Char}

theorem covers_lines (text : List Char) :
    Text.Covers 0 text ((ofText text).lines.map Line.part) := by
  have hcovers := Line.covers_place 0 (Line.split text)
  rw [Line.flatten_split] at hcovers
  exact hcovers

theorem tiles_lines (text : List Char) :
    Extent.Tiles 0 (Text.byteLength text) ((ofText text).lines.map Line.extent) := by
  have htiles := (covers_lines text).tiles
  rw [Nat.zero_add, List.map_map] at htiles
  exact htiles

theorem stands_line {line : Line} (h : line ∈ (ofText text).lines) :
    Text.Stands text line.text line.start :=
  (covers_lines text).stands (show line.part ∈ _ from List.mem_map_of_mem h)

theorem text_mem_split {line : Line} (h : line ∈ (ofText text).lines) :
    line.text ∈ Line.split text := by
  have htexts : (ofText text).lines.map Line.text = Line.split text := Line.map_text_place 0 _
  rw [← htexts]
  exact List.mem_map_of_mem h

theorem stands_content {line : Line} (h : line ∈ (ofText text).lines) :
    Text.Stands text line.content line.start := by
  obtain ⟨lineEnd, hwords, -⟩ := line.exists_lineEnd
  have hcontent : Text.Stands line.text line.content 0 := ⟨[], lineEnd, hwords, rfl⟩
  exact (stands_line h).trans hcontent

theorem stop_eq_of_feed {line : Line} (h : line ∈ (ofText text).lines) {feed : Nat}
    (hfeed : Text.charAt? feed text = some '\n') (hstart : line.start ≤ feed)
    (hstop : feed < line.stop) : line.stop = feed + 1 := by
  obtain ⟨words, hwords, htext⟩ := Line.exists_of_mem_split (text_mem_split h)
  have hstands := stands_line h
  rcases htext with htext | htext
  · exact absurd (htext ▸ hstands.mem hfeed hstart hstop) hwords
  · rw [hstands.charAt?_sub hstart hstop, htext] at hfeed
    have hlength : line.stop = line.start + (Text.byteLength words + 1) := by
      rw [Line.stop, htext, Text.byteLength_append]
      rfl
    by_cases hinside : feed - line.start < Text.byteLength words
    · rw [Text.charAt?_append_left hinside] at hfeed
      exact absurd (Text.mem_of_charAt? hfeed) hwords
    · omega

theorem contentStop_le_of_feed {line : Line} (h : line ∈ (ofText text).lines) {feed : Nat}
    (hfeed : Text.charAt? feed text = some '\n') (hstart : line.start ≤ feed) :
    line.contentStop ≤ feed := by
  obtain ⟨words, hwords, htext⟩ := Line.exists_of_mem_split (text_mem_split h)
  by_cases hcontent : feed < line.contentStop
  · have hmem := (stands_content h).mem hfeed hstart hcontent
    exact absurd hmem (Line.feed_not_mem_content hwords htext)
  · exact Nat.le_of_not_lt hcontent

/-- A line that is neither empty nor blank shows something. -/
theorem exists_visible {line : Line} (h : line ∈ (ofText text).lines) (hforward : line.text ≠ [])
    (hblank : line.isBlank = false) :
    ∃ offset c, line.start ≤ offset ∧ offset < line.contentStop ∧
      Text.charAt? offset text = some c ∧ Text.isSpacing c = false := by
  obtain ⟨words, hwords, htext⟩ := Line.exists_of_mem_split (text_mem_split h)
  have hshown : ∃ c ∈ line.content, ¬ (Text.isSpaceOrTab c || c == '\r') = true := by
    simpa [Line.isBlank, hforward] using hblank
  obtain ⟨c, hmem, hshown⟩ := hshown
  obtain ⟨before, after, hcontent⟩ := List.append_of_mem hmem
  have hc : Text.charAt? (Text.byteLength before) line.content = some c := by
    rw [hcontent]
    simpa [Text.charAt?] using Text.charAt?_append_right before (c :: after) 0
  have hlt := Text.lt_of_charAt? hc
  refine ⟨line.start + Text.byteLength before, c, Nat.le_add_right _ _, ?_, ?_, ?_⟩
  · unfold Line.contentStop
    omega
  · rw [(stands_content h).charAt? hlt, hc]
  · have hfeed : c ≠ '\n' := by
      intro heq
      exact Line.feed_not_mem_content hwords htext (heq ▸ hmem)
    simp only [Bool.not_eq_true] at hshown
    simp [Text.isSpacing, hshown, hfeed]

/-- What stands on a line after its content is a line end. -/
theorem lineEnd_of_contentStop_le {line : Line} (h : line ∈ (ofText text).lines) {offset : Nat}
    {c : Char} (hc : Text.charAt? offset text = some c) (hcontent : line.contentStop ≤ offset)
    (hstop : offset < line.stop) : c = '\r' ∨ c = '\n' := by
  obtain ⟨lineEnd, htext, hend⟩ := line.exists_lineEnd
  have hstands : Text.Stands text lineEnd line.contentStop := by
    refine (stands_line h).trans ⟨line.content, [], ?_, rfl⟩
    rw [List.append_nil]
    exact htext
  have hlength := congrArg Text.byteLength htext
  rw [Text.byteLength_append] at hlength
  refine hend c (hstands.mem hc hcontent ?_)
  unfold Line.contentStop
  unfold Line.stop at hstop
  omega

theorem stop_le_start {first second : Nat} {line other : Line}
    (hline : (ofText text).lines[first]? = some line)
    (hother : (ofText text).lines[second]? = some other) (hlt : first < second) :
    line.stop ≤ other.start := by
  have hpairs := (tiles_lines text).pairwise
  rw [List.pairwise_map] at hpairs
  obtain ⟨hfirst, rfl⟩ := List.getElem?_eq_some_iff.mp hline
  obtain ⟨hsecond, rfl⟩ := List.getElem?_eq_some_iff.mp hother
  exact List.pairwise_iff_getElem.mp hpairs first second hfirst hsecond hlt

/-- The line of an offset is the one that holds it. -/
theorem lineOf_eq {number offset : Nat} {line : Line}
    (hline : (ofText text).lines[number]? = some line) (hstart : line.start ≤ offset)
    (hstop : offset < line.stop) : (ofText text).lineOf offset = number := by
  have hnumber := (List.getElem?_eq_some_iff.mp hline).1
  have hbefore : ∀ other ∈ (ofText text).lines.take (number + 1),
      decide (other.start ≤ offset) = true := by
    intro other hmem
    obtain ⟨earlier, hother⟩ := List.mem_iff_getElem?.mp hmem
    have hearlier := (List.getElem?_eq_some_iff.mp hother).1
    rw [List.length_take] at hearlier
    rw [List.getElem?_take_of_lt (by omega)] at hother
    by_cases hlt : earlier < number
    · have hstops := stop_le_start hother hline hlt
      have hforward : other.start ≤ other.stop := Nat.le_add_right _ _
      exact decide_eq_true (by omega)
    · obtain rfl : earlier = number := by omega
      obtain rfl := Option.some.inj (hother.symm.trans hline)
      exact decide_eq_true hstart
  have hafter : ((ofText text).lines.drop (number + 1)).takeWhile
      (fun other => decide (other.start ≤ offset)) = [] := by
    cases hrest : (ofText text).lines.drop (number + 1) with
    | nil => rfl
    | cons next rest =>
      have hnext : (ofText text).lines[number + 1]? = some next := by
        rw [← List.head?_drop, hrest, List.head?_cons]
      have hstops := stop_le_start hline hnext (Nat.lt_succ_self number)
      exact List.takeWhile_cons_of_neg (by simp; omega)
  unfold lineOf
  rw [← List.take_append_drop (number + 1) (ofText text).lines,
    List.takeWhile_append_of_pos hbefore, hafter, List.append_nil, List.length_take]
  omega

theorem exists_line {offset : Nat} (h : offset < Text.byteLength text) :
    ∃ line, (ofText text).lines[(ofText text).lineOf offset]? = some line ∧
      line.start ≤ offset ∧ offset < line.stop := by
  obtain ⟨extent, hextent, hcontains⟩ :=
    (tiles_lines text).exists_contains (Nat.zero_le offset) h
  obtain ⟨line, hmem, rfl⟩ := List.mem_map.mp hextent
  obtain ⟨hstart, hstop⟩ := Extent.contains_iff.mp hcontains
  obtain ⟨number, hline⟩ := List.mem_iff_getElem?.mp hmem
  exact ⟨line, by rw [lineOf_eq hline hstart hstop]; exact hline, hstart, hstop⟩

theorem stop_eq_start {number : Nat} {line next : Line}
    (hline : (ofText text).lines[number]? = some line)
    (hnext : (ofText text).lines[number + 1]? = some next) : line.stop = next.start := by
  refine (tiles_lines text).adjacent
    (show ((ofText text).lines.map Line.extent)[number]? = some line.extent from ?_)
    (show ((ofText text).lines.map Line.extent)[number + 1]? = some next.extent from ?_)
  · simp [hline]
  · simp [hnext]

theorem getLast?_line {number : Nat} {line : Line}
    (hline : (ofText text).lines[number]? = some line)
    (hnumber : number + 1 < (ofText text).lines.length) : line.text.getLast? = some '\n' := by
  have htexts : (ofText text).lines.map Line.text = Line.split text := Line.map_text_place 0 _
  refine Line.getLast?_of_split (show (Line.split text)[number]? = _ from ?_) ?_
  · rw [← htexts, List.getElem?_map, hline]
    rfl
  · rw [← htexts, List.length_map]
    exact hnumber

theorem start_lt_stop_of_next {number : Nat} {line : Line}
    (hline : (ofText text).lines[number]? = some line)
    (hnumber : number + 1 < (ofText text).lines.length) : line.start < line.stop := by
  have hfeed := getLast?_line hline hnumber
  have hpositive : 0 < Text.byteLength line.text := by
    apply Text.byteLength_pos
    intro hnil
    simp [hnil] at hfeed
  unfold Line.stop
  omega

theorem nodup_lines (text : List Char) : (ofText text).lines.Nodup := by
  apply List.pairwise_iff_getElem.mpr
  intro first second hfirst hsecond hlt heq
  have hline : (ofText text).lines[first]? = _ := List.getElem?_eq_getElem hfirst
  have hstops := stop_le_start hline (List.getElem?_eq_getElem hsecond) hlt
  have hnonempty := start_lt_stop_of_next hline (by omega)
  rw [heq] at hstops hnonempty
  omega

theorem start_eq_zero {line : Line} (hline : (ofText text).lines[0]? = some line) :
    line.start = 0 :=
  (tiles_lines text).start_eq
    (show ((ofText text).lines.map Line.extent)[0]? = some line.extent by simp [hline])

/-- A line that does not open the text comes after a line feed. -/
theorem charAt?_before_line {line : Line} (h : line ∈ (ofText text).lines)
    (hstart : 0 < line.start) : Text.charAt? (line.start - 1) text = some '\n' := by
  obtain ⟨number, hline⟩ := List.mem_iff_getElem?.mp h
  cases number with
  | zero =>
    have hzero := start_eq_zero hline
    omega
  | succ number =>
    have hnumber := (List.getElem?_eq_some_iff.mp hline).1
    obtain ⟨previous, hprevious⟩ : ∃ previous, (ofText text).lines[number]? = some previous :=
      ⟨_, List.getElem?_eq_getElem (by omega)⟩
    have hfeed := getLast?_line hprevious hnumber
    obtain ⟨offset, -, hoffset, hc⟩ :=
      (stands_line (List.mem_of_getElem? hprevious)).getLast hfeed
    have hstop : previous.start + Text.byteLength previous.text = line.start :=
      stop_eq_start hprevious hline
    have hsize : ('\n').utf8Size = 1 := rfl
    rw [show line.start - 1 = offset by omega]
    exact hc

/-- What stands before an offset without a line feed between is on the same line. -/
theorem start_le_of_no_feed {line : Line} (h : line ∈ (ofText text).lines) {first offset : Nat}
    (hline : line.start ≤ offset)
    (hfeed : ∀ between, first ≤ between → between < offset →
      Text.charAt? between text ≠ some '\n') : line.start ≤ first := by
  by_cases hstart : line.start ≤ first
  · exact hstart
  · exact absurd (charAt?_before_line h (by omega)) (hfeed _ (by omega) (by omega))

/-- A part without a line feed that reaches into a line starts on it. -/
theorem start_le_of_stands {part : List Char} {start : Nat} (hstands : Text.Stands text part start)
    (hfeed : '\n' ∉ part) {line : Line} (h : line ∈ (ofText text).lines)
    (hlt : line.start < start + Text.byteLength part) : line.start ≤ start := by
  apply start_le_of_no_feed h (Nat.le_refl _)
  intro between hge hbefore hat
  exact hfeed (hstands.mem hat hge (by omega))

/-- A part without a line feed stands on one line. -/
theorem bounds_of_no_feed {part : List Char} {start : Nat} (hstands : Text.Stands text part start)
    (hfeed : '\n' ∉ part) {line : Line} (h : line ∈ (ofText text).lines) {offset : Nat}
    (hlow : start ≤ offset) (hhigh : offset < start + Text.byteLength part)
    (hstart : line.start ≤ offset) (hstop : offset < line.stop) :
    line.start ≤ start ∧ start + Text.byteLength part ≤ line.stop := by
  have hnone : ∀ between, start ≤ between → between < start + Text.byteLength part →
      Text.charAt? between text ≠ some '\n' := by
    intro between hge hlt hat
    exact hfeed (hstands.mem hat hge hlt)
  have hend := hstands.le_byteLength
  refine ⟨start_le_of_no_feed h hstart fun between hge hlt => hnone between hge (by omega), ?_⟩
  obtain ⟨other, hother, hotherstart, hotherstop⟩ :=
    exists_line (show start + Text.byteLength part - 1 < Text.byteLength text by omega)
  have hmem := List.mem_of_getElem? hother
  have hbefore : other.start ≤ offset :=
    start_le_of_no_feed hmem hotherstart fun between hge hlt => hnone between (by omega) (by omega)
  have hsame : other = line := (tiles_lines text).eq_of_contains hmem h
    (Extent.contains_iff.mpr ⟨hbefore, show offset < other.stop by omega⟩)
    (Extent.contains_iff.mpr ⟨hstart, hstop⟩)
  rw [hsame] at hotherstop
  omega

theorem splitsAt_contentStop {line : Line} (h : line ∈ (ofText text).lines) :
    Text.SplitsAt text line.contentStop :=
  (stands_content h).splitsAt_stop

theorem stop_eq_byteLength {line : Line} (h : line ∈ (ofText text).lines)
    (hlast : line.text.getLast? ≠ some '\n') : line.stop = Text.byteLength text := by
  obtain ⟨number, hnumber⟩ := List.mem_iff_getElem?.mp h
  have hlt := (List.getElem?_eq_some_iff.mp hnumber).1
  have hend : number + 1 = (ofText text).lines.length := by
    by_cases hend : number + 1 < (ofText text).lines.length
    · exact absurd (getLast?_line hnumber hend) hlast
    · omega
  refine (tiles_lines text).stop_eq
    (show ((ofText text).lines.map Line.extent).getLast? = some line.extent from ?_)
  rw [List.getLast?_map, List.getLast?_eq_getElem?, ← hend, Nat.add_sub_cancel, hnumber]
  rfl

/-- Where the content of a line stops comes its line end, or the text ends. -/
theorem lineEnd_of_contentStop {line : Line} (h : line ∈ (ofText text).lines) {c : Char}
    (hc : Text.charAt? line.contentStop text = some c) : c = '\r' ∨ c = '\n' := by
  by_cases hlt : line.contentStop < line.stop
  · exact lineEnd_of_contentStop_le h hc (Nat.le_refl _) hlt
  · exfalso
    obtain ⟨lineEnd, htext, hcases⟩ := line.lineEnd_cases
    have hlength : line.stop = line.contentStop + Text.byteLength lineEnd := by
      rw [Line.stop, htext, Text.byteLength_append, ← Nat.add_assoc]
      rfl
    rcases hcases with rfl | rfl | ⟨rfl, hlast⟩
    · exact hlt (by rw [hlength]; exact Nat.lt_add_of_pos_right (by decide))
    · exact hlt (by rw [hlength]; exact Nat.lt_add_of_pos_right (by decide))
    · have hend := stop_eq_byteLength h hlast
      have hinside := Text.lt_of_charAt? hc
      rw [hlength, show Text.byteLength [] = 0 from rfl] at hend
      omega

theorem lineAt_eq {line : Line} (h : line ∈ (ofText text).lines) {offset : Nat}
    (hstart : line.start ≤ offset) (hstop : offset < line.stop) :
    (ofText text).lineAt offset = line := by
  obtain ⟨number, hnumber⟩ := List.mem_iff_getElem?.mp h
  unfold lineAt
  rw [lineOf_eq hnumber hstart hstop, hnumber]
  rfl

end LineIndex

end UnusedImports
